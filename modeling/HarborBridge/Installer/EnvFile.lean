import HarborBridge.Lib.GoStrings

/-!
# Kubelet's environment file

Package main of the installer, defaultkubelet.go: systemd's reading of an `EnvironmentFile`,
and the rewriting of its `KUBELET_EXTRA_ARGS` assignment.
-/

namespace HarborBridge.Installer

open GoStrings

def flagBinDir : GoString := lit "--image-credential-provider-bin-dir"

def flagConfigFile : GoString := lit "--image-credential-provider-config"

def extraArgsKey : GoString := lit "KUBELET_EXTRA_ARGS"

/-! ## Text systemd accepts -/

/-- A reader of UTF-8: between two runes, inside one (`left` more bytes after the next, which
lies in `low..high`, and the value so far), or past a byte that fits nowhere. -/
inductive Utf8 where
  | idle
  | inside (left : Nat) (low high : UInt8) (value : Nat)
  | bad
  deriving DecidableEq

/-- The runes systemd does not take. -/
def nonCharacter (r : Nat) : Bool := (0xFDD0 ≤ r && r ≤ 0xFDEF) || r % 0x10000 / 2 == 0x7FFF

namespace Utf8

def first (b : UInt8) : Utf8 :=
  if b < 0x80 then .idle
  else if b < 0xC2 then .bad
  else if b < 0xE0 then .inside 0 0x80 0xBF (b.toNat % 32)
  else if b = 0xE0 then .inside 1 0xA0 0xBF 0
  else if b = 0xED then .inside 1 0x80 0x9F 13
  else if b < 0xF0 then .inside 1 0x80 0xBF (b.toNat % 16)
  else if b = 0xF0 then .inside 2 0x90 0xBF 0
  else if b < 0xF4 then .inside 2 0x80 0xBF (b.toNat % 8)
  else if b = 0xF4 then .inside 2 0x80 0x8F 4
  else .bad

def next : Utf8 → UInt8 → Utf8
  | .idle, b => first b
  | .inside left low high value, b =>
    if low ≤ b && b ≤ high then
      let r := value * 64 + b.toNat % 64
      match left with
      | 0 => if nonCharacter r then .bad else .idle
      | n + 1 => .inside n 0x80 0xBF r
    else .bad
  | .bad, _ => .bad

end Utf8

def systemdValidUTF8 (s : GoString) : Bool := s.foldl Utf8.next .idle == .idle

/-! ## parseEnvFile -/

/-- One assignment of an `EnvironmentFile`, with the lines it starts and ends on, and whether
the line before it is a comment that ends in a backslash. -/
structure EnvAssignment where
  key : GoString
  value : GoString
  first : Nat
  last : Nat
  afterContinuedComment : Bool
  deriving DecidableEq

/-- Why an environment file is refused, one constructor for each message. `nul` and `notUTF8`
are files systemd does not load at all (`errUnloadableEnvFile`). -/
inductive EnvFileError where
  | nul (line : Nat)
  | notUTF8 (line : Nat)
  | carriageReturn
  | multiple (first second : Nat)
  | severalLines (first last : Nat)
  | afterContinuedComment (line : Nat)
  | quoting (value : GoString)
  | openAtEnd
  deriving DecidableEq

/-- systemd does not load the file. -/
def EnvFileError.unloadable : EnvFileError → Bool
  | .nul _ | .notUTF8 _ => true
  | _ => false

def envWhitespace : GoString := [32, 9, 10, 13]

def envNewline : GoString := [10, 13]

def envComments : GoString := lit "#;"

def envShellNeedEscape : GoString := lit "\"\\`$"

inductive EnvState where
  | preKey | inKey | preValue | inValue | valueEscape | singleQuote | doubleQuote
  | doubleQuoteEscape | comment | commentEscape
  deriving DecidableEq

/-- The variables of `parseEnvFile`; an index that is -1 there is none here. `text` is the
line read so far. -/
structure EnvParser where
  out : List EnvAssignment
  key : GoString
  value : GoString
  lastKeyWS : Option Nat
  lastValueWS : Option Nat
  line : Nat
  first : Nat
  text : GoString
  continuedComment : Bool
  startsContinued : Bool
  state : EnvState
  deriving DecidableEq

/-- Whether the line is a comment whose last character, a carriage return apart, is a
backslash. -/
def commentEndsInBackslash (line : GoString) : Bool :=
  let body := if hasSuffix line [13] then line.dropLast else line
  match body.dropWhile (fun b => decide (b ∈ envWhitespace)) with
  | [] => false
  | b :: _ => decide (b ∈ envComments) && hasSuffix body (lit "\\")

namespace EnvParser

def push (p : EnvParser) : Except EnvFileError EnvParser :=
  let key := match p.lastKeyWS with
    | some n => p.key.take n
    | none => p.key
  if systemdValidUTF8 key && systemdValidUTF8 p.value then
    .ok { p with
      out := p.out ++ [⟨key, p.value, p.first, p.line, p.startsContinued⟩], key := [], value := [] }
  else .error (.notUTF8 (p.first + 1))

/-- The switch over the state, for one byte. -/
def next (p : EnvParser) (c : UInt8) : Except EnvFileError EnvParser :=
  let isNewline := decide (c ∈ envNewline)
  let isWS := decide (c ∈ envWhitespace)
  match p.state with
  | .preKey =>
    if c ∈ envComments then .ok { p with state := .comment }
    else if !isWS then
      .ok { p with
        state := .inKey, lastKeyWS := none, first := p.line, startsContinued := p.continuedComment,
        key := [c] }
    else .ok p
  | .inKey =>
    if isNewline then .ok { p with state := .preKey, key := [] }
    else if c = 61 then .ok { p with state := .preValue, lastValueWS := none }
    else .ok { p with
      lastKeyWS := if !isWS then none else some (p.lastKeyWS.getD p.key.length), key := p.key ++ [c] }
  | .preValue =>
    if isNewline then { p with state := .preKey }.push
    else if c = 39 then .ok { p with state := .singleQuote }
    else if c = 34 then .ok { p with state := .doubleQuote }
    else if c = 92 then .ok { p with state := .valueEscape }
    else if !isWS then .ok { p with state := .inValue, value := p.value ++ [c] }
    else .ok p
  | .inValue =>
    if isNewline then
      { p with
        state := .preKey
        value := match p.lastValueWS with
          | some n => p.value.take n
          | none => p.value }.push
    else if c = 92 then .ok { p with state := .valueEscape, lastValueWS := none }
    else .ok { p with
      lastValueWS := if !isWS then none else some (p.lastValueWS.getD p.value.length)
      value := p.value ++ [c] }
  | .valueEscape =>
    .ok { p with state := .inValue, value := if isNewline then p.value else p.value ++ [c] }
  | .singleQuote =>
    if c = 39 then .ok { p with state := .preValue } else .ok { p with value := p.value ++ [c] }
  | .doubleQuote =>
    if c = 34 then .ok { p with state := .preValue }
    else if c = 92 then .ok { p with state := .doubleQuoteEscape }
    else .ok { p with value := p.value ++ [c] }
  | .doubleQuoteEscape =>
    .ok { p with
      state := .doubleQuote
      value :=
        if c ∈ envShellNeedEscape then p.value ++ [c]
        else if c ≠ 10 then p.value ++ [92, c]
        else p.value }
  | .comment =>
    if c = 92 then .ok { p with state := .commentEscape }
    else if isNewline then .ok { p with state := .preKey }
    else .ok p
  | .commentEscape => .ok { p with state := if isNewline then .preKey else .comment }

/-- One turn of the loop. -/
def read (p : EnvParser) (c : UInt8) : Except EnvFileError EnvParser := do
  let q ← p.next c
  if c = 10 then
    .ok { q with
      continuedComment := decide (q.state = .preKey) && commentEndsInBackslash p.text
      line := q.line + 1
      text := [] }
  else .ok { q with text := p.text ++ [c] }

/-- After the loop: an assignment that the end of the file ends. -/
def finish (p : EnvParser) : Except EnvFileError (List EnvAssignment) :=
  match p.state with
  | .inValue =>
    ({ p with
      value := match p.lastValueWS with
        | some n => p.value.take n
        | none => p.value }.push).map EnvParser.out
  | .preValue | .valueEscape | .singleQuote | .doubleQuote | .doubleQuoteEscape =>
    p.push.map EnvParser.out
  | .preKey | .inKey | .comment | .commentEscape => .ok p.out

def start : EnvParser :=
  { out := [], key := [], value := [], lastKeyWS := none, lastValueWS := none, line := 0, first := 0,
    text := [], continuedComment := false, startsContinued := false, state := .preKey }

end EnvParser

/-- A carriage return that does not end a line. -/
def strayReturn : GoString → Bool
  | [] => false
  | c :: s => (c == 13 && s.head? != some 10) || strayReturn s

def parseEnvFile (content : GoString) : Except EnvFileError (List EnvAssignment) := do
  if 0 ∈ content then
    .error (.nul ((content.takeWhile (· ≠ 0)).count 10 + 1))
  else if strayReturn content then .error .carriageReturn
  else
    let p ← content.foldlM EnvParser.read EnvParser.start
    p.finish

def probeKey : GoString := lit "HARBOR_BRIDGE_INSTALLER_PROBE"

/-- Whether a line appended after the content would not be an assignment of its own. -/
def openAtEnd (content : GoString) : Bool :=
  if hasSuffix (trimRight content [13, 10]) (lit "\\") then true
  else
    let probe := if content ≠ [] ∧ hasSuffix content [10] = false then content ++ [10] else content
    match parseEnvFile (probe ++ probeKey ++ lit "=x" ++ [10]) with
    | .error _ => true
    | .ok assignments =>
      match assignments.getLast? with
      | none => true
      | some last => decide (last.key ≠ probeKey) || decide (last.value ≠ lit "x")

/-! ## mergeExtraArgs -/

/-- strings.FieldsFunc at systemd's whitespace; `field` is the one being read. -/
def splitArgsFrom : (s : GoString) → (field : GoString) → List GoString
  | [], field => if field = [] then [] else [field]
  | b :: s, field =>
    if b ∈ envWhitespace then
      if field = [] then splitArgsFrom s [] else field :: splitArgsFrom s []
    else splitArgsFrom s (field ++ [b])

def splitArgs (val : GoString) : List GoString := splitArgsFrom val []

/-- `skipNext` tells whether the flag before this argument takes it as its value. -/
def stripFrom : (skipNext : Bool) → List GoString → List GoString
  | _, [] => []
  | true, _ :: args => stripFrom false args
  | false, arg :: args =>
    if arg = flagBinDir ∨ arg = flagConfigFile then stripFrom true args
    else if hasPrefix arg (flagBinDir ++ [61]) || hasPrefix arg (flagConfigFile ++ [61]) then
      stripFrom false args
    else arg :: stripFrom false args

def stripCredentialProviderFlags (args : List GoString) : List GoString := stripFrom false args

/-- The bytes an argument the installer rewrites must not have. -/
def quotingChars : GoString := lit "\"'\\$`"

def unquoteExtraArgs (val : GoString) : Except EnvFileError GoString :=
  let inner :=
    if 2 ≤ val.length ∧ (val.head? = some 34 ∨ val.head? = some 39) ∧ val.getLast? = val.head? then
      val.tail.dropLast
    else val
  if inner.any (fun b => decide (b ∈ quotingChars)) then .error (.quoting inner) else .ok inner

/-- strings.Trim at systemd's whitespace. -/
def trimEnv (s : GoString) : GoString :=
  trimRight (s.dropWhile fun b => decide (b ∈ envWhitespace)) envWhitespace

/-- strings.CutSuffix, with none for a false second result. -/
def cutSuffix (s p : GoString) : Option GoString :=
  if hasSuffix s p then some (s.take (s.length - p.length)) else none

/-- The assignment with exactly these arguments. -/
def extraArgsLine (args : List GoString) : GoString :=
  extraArgsKey ++ lit "=\"" ++ join args 32 ++ lit "\""

def appendedByEarlierInstaller (operator ours : EnvAssignment) (lines : List GoString) : Bool :=
  if hasPrefix (trimSpace (lines.getD operator.first [])) (extraArgsKey ++ [61]) then false
  else if ours.first ≠ ours.last ∨ ours.afterContinuedComment = true then false
  else
    match (cutPrefix (lines.getD ours.first []) (extraArgsKey ++ lit "=\"")).bind (cutSuffix · (lit "\"")) with
    | none => false
    | some value =>
      match cut value 32 with
      | none => false
      | some (bin, config) =>
        match cutPrefix bin (flagBinDir ++ [61]), cutPrefix config (flagConfigFile ++ [61]) with
        | some binDir, some configFile =>
          decide (binDir ≠ []) && decide (configFile ≠ []) &&
            !(binDir ++ configFile).any (fun b => decide (b ∈ lit " \t\"'\\$`"))
        | _, _ => false

/-- The lines of the content without the empty one after its last line break. -/
def contentLines (content : GoString) : List GoString :=
  let lines := split content 10
  if lines.getLast? = some [] then lines.dropLast else lines

def rewriteLine (a : EnvAssignment) (lines ours : List GoString) : Except EnvFileError GoString := do
  if a.first ≠ a.last then .error (.severalLines (a.first + 1) (a.last + 1))
  else if a.afterContinuedComment then .error (.afterContinuedComment (a.first + 1))
  else
    let raw := ((cut (lines.getD a.first []) 61).map (·.2)).getD []
    let val ← unquoteExtraArgs (trimEnv raw)
    .ok (extraArgsLine (stripCredentialProviderFlags (splitArgs val) ++ ours))

def mergeExtraArgs (existing : GoString) (binDir configFile : GoString) :
    Except EnvFileError GoString := do
  let ours := [flagBinDir ++ [61] ++ binDir, flagConfigFile ++ [61] ++ configFile]
  let assignments ← parseEnvFile existing
  let lines := contentLines existing
  let all := assignments.filter (fun a => decide (a.key = extraArgsKey))
  let (extra, appended) := match all with
    | [operator, second] =>
      if appendedByEarlierInstaller operator second lines then ([operator], some second.first)
      else (all, none)
    | _ => (all, none)
  match extra with
  | a :: b :: _ => .error (.multiple (a.first + 1) (b.first + 1))
  | [a] =>
    let line ← rewriteLine a lines ours
    if hasSuffix existing [10] = false ∧ openAtEnd existing = true then .error .openAtEnd
    else
      let lines := lines.set a.first line
      let lines := match appended with
        | some n => lines.eraseIdx n
        | none => lines
      .ok (join lines 10 ++ [10])
  | [] =>
    if openAtEnd existing then .error .openAtEnd
    else .ok (join (lines ++ [extraArgsLine ours]) 10 ++ [10])

/-- flagValue, for the arguments from here on and the value found before them. -/
def flagValueFrom (flag : GoString) : (value : GoString) → List GoString → GoString
  | value, [] => value
  | value, arg :: args =>
    match cutPrefix arg (flag ++ [61]) with
    | some v => flagValueFrom flag v args
    | none =>
      match args with
      | v :: _ => flagValueFrom flag (if arg = flag then v else value) args
      | [] => value

def flagValue (argv : List GoString) (flag : GoString) : GoString := flagValueFrom flag [] argv

end HarborBridge.Installer
