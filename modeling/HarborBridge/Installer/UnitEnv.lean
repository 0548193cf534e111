import HarborBridge.Installer.Disk
import HarborBridge.Installer.EnvFile
import Mathlib.Data.List.Sort

/-!
# The environment files of the kubelet unit

Package main of the installer, envfile.go: the files systemd reads for the unit's
`EnvironmentFile=` settings, and the one patch mode edits (`kubeletEnvFile`).
-/

namespace HarborBridge.Installer

open GoStrings

/-- One `EnvironmentFile=` setting of a unit. -/
structure EnvFileRef where
  path : GoString
  optional : Bool
  deriving DecidableEq

structure UnitEnvironment where
  files : List EnvFileRef
  assignments : GoString
  deriving DecidableEq

/-! ## Wildcards -/

inductive GlobError where
  /-- A character class, equivalence class or collating symbol. -/
  | notEvaluated
  /-- A symlink on the way, which systemd follows. -/
  | symlink (path : GoString)
  | failed
  deriving DecidableEq

/-- The loop of `globMagic`; `bracket` tells whether a `[` was read. -/
def globMagicFrom : (bracket : Bool) → GoString → Bool
  | _, [] => false
  | bracket, c :: rest =>
    if c = 42 ∨ c = 63 then true
    else if c = 92 then
      match rest with
      | [] => false
      | _ :: rest => globMagicFrom bracket rest
    else if c = 91 then globMagicFrom true rest
    else if c = 93 then bracket || globMagicFrom bracket rest
    else globMagicFrom bracket rest

def globMagic (comp : GoString) : Bool := globMagicFrom false comp

def globUnescape : GoString → GoString
  | [] => []
  | [c] => [c]
  | c :: d :: rest => if c = 92 then d :: globUnescape rest else c :: globUnescape (d :: rest)

/-- A byte of a bracket expression, after its backslash if it has one, and what follows. -/
def bracketByte : GoString → Option (UInt8 × GoString)
  | [] => none
  | c :: rest =>
    if c = 92 then
      match rest with
      | [] => none
      | c :: rest => some (c, rest)
    else some (c, rest)

/-- The upper end of the range that starts with the member `lo`, which is `lo` without a range. -/
def rangeEnd (lo : UInt8) (rest : GoString) : Option (UInt8 × GoString) :=
  match rest with
  | 45 :: hi :: more => if hi = 93 then some (lo, rest) else bracketByte (hi :: more)
  | _ => some (lo, rest)

/-- The members of a bracket expression from here on; `n` is at least the length of the pattern.
`first` tells whether none was read yet, `found` whether `b` is one of those before; a missing
byte is in no set. The result is the pattern after the expression and whether `b` is in its set,
or none without a closing bracket. -/
def bracketFrom (negate : Bool) (b : Option UInt8) : (n : Nat) → (first found : Bool) → GoString →
    Except GlobError (Option (GoString × Bool))
  | 0, _, _, _ => .ok none
  | _ + 1, _, _, [] => .ok none
  | n + 1, first, found, c :: rest =>
    if c = 93 ∧ first = false then .ok (some (rest, b.isSome && found != negate))
    else if c = 91 ∧ (rest.head? = some 58 ∨ rest.head? = some 61 ∨ rest.head? = some 46) then
      .error .notEvaluated
    else
      match bracketByte (c :: rest) with
      | none => .ok none
      | some (lo, rest) =>
        match rangeEnd lo rest with
        | none => .ok none
        | some (hi, rest) =>
          let within := b.any fun x => decide (lo ≤ x) && decide (x ≤ hi)
          bracketFrom negate b n false (found || within) rest

/-- The bracket expression after its opening bracket, against the byte `b` of the name. -/
def globBracket (pattern : GoString) (b : Option UInt8) : Except GlobError (Option (GoString × Bool)) :=
  match pattern with
  | [] => .ok none
  | c :: rest =>
    if c = 33 ∨ c = 94 then bracketFrom true b pattern.length true false rest
    else bracketFrom false b pattern.length true false pattern

/-- One turn of the loop of `globMatch`, from what is left of the pattern and of the name: what is
left after it, or none on a mismatch. A `*` is handled by the loop. -/
def globItem (pattern name : GoString) : Except GlobError (Option (GoString × GoString)) :=
  match pattern with
  | [] => .ok none
  | c :: rest =>
    if c = 63 then
      match name with
      | [] => .ok none
      | _ :: name => .ok (some (rest, name))
    else if c = 91 then
      match globBracket rest name.head? with
      | .error e => .error e
      | .ok none => if name.head? = some 91 then .ok (some (rest, name.tail)) else .ok none
      | .ok (some (rest, true)) => .ok (some (rest, name.tail))
      | .ok (some (_, false)) => .ok none
    else if c = 92 then
      match rest, name with
      | d :: rest, x :: name => if x = d then .ok (some (rest, name)) else .ok none
      | _, _ => .ok none
    else
      match name with
      | x :: name => if x = c then .ok (some (rest, name)) else .ok none
      | [] => .ok none

/-- The loop of `globMatch`. `star` is the pattern after the last `*` and the name from the
position it matched up to; on a mismatch that `*` takes one more byte. None when `n` turns are
not enough. -/
def globLoop : (n : Nat) → (pattern name : GoString) → (star : Option (GoString × GoString)) →
    Option (Except GlobError Bool)
  | 0, _, _, _ => none
  | n + 1, pattern, name, star =>
    if pattern = [] ∧ name = [] then some (.ok true)
    else
      match pattern with
      | 42 :: rest => globLoop n rest name (some (rest, name))
      | _ =>
        match globItem pattern name with
        | .error e => some (.error e)
        | .ok (some (pattern, name)) => globLoop n pattern name star
        | .ok none =>
          match star with
          | some (rest, _ :: name) => globLoop n rest name (some (rest, name))
          | _ => some (.ok false)

/-- Enough turns: between two turns in which a `*` is read, or takes one more byte, each turn
reads at least one byte of the pattern. -/
def globTurns (pattern name : GoString) : Nat :=
  (pattern.length + 2) * (name.length + 2) * (pattern.length + 2)

def globMatch (pattern name : GoString) : Except GlobError Bool :=
  if hasPrefix name [46] && !hasPrefix pattern [46] && !hasPrefix pattern [92, 46] then .ok false
  else (globLoop (globTurns pattern name) pattern name none).getD (.error .failed)

/-- The entries that match a wildcard component. Unless it is the last, only directories count. -/
def globEntries (dir pattern : GoString) (last : Bool) :
    List (GoString × Node) → Except GlobError (List GoString)
  | [] => .ok []
  | (name, node) :: entries => do
    let ok ← globMatch pattern name
    if !ok then globEntries dir pattern last entries
    else if last then
      let out ← globEntries dir pattern last entries
      .ok (pathJoin dir name :: out)
    else
      match node with
      | .symlink => .error (.symlink (pathJoin dir name))
      | .dir =>
        let out ← globEntries dir pattern last entries
        .ok (pathJoin dir name :: out)
      | _ => globEntries dir pattern last entries

def globDir (d : Disk) (dir pattern : GoString) (last : Bool) : Except GlobError (List GoString) :=
  if d.isDir dir then globEntries dir pattern last (d.children dir)
  else
    match d.lookup dir with
    | some .symlink => .error .failed
    | _ => .ok []

/-- The loop of `expandEnvFile` over the components, from the paths so far. -/
def expandFrom (d : Disk) : (paths components : List GoString) → Except GlobError (List GoString)
  | paths, [] => .ok paths
  | paths, comp :: rest =>
    if !globMagic comp then expandFrom d (paths.map fun p => pathJoin p (globUnescape comp)) rest
    else do
      let next ← paths.mapM fun dir => globDir d dir comp rest.isEmpty
      expandFrom d next.flatten rest

/-- The node paths of the files systemd reads for the setting, in its order. -/
def expandEnvFile (d : Disk) (pattern : GoString) : Except GlobError (List GoString) :=
  let components := split (trimPrefix pattern [47]) 47
  if !components.any globMagic then .ok [47 :: join (components.map globUnescape) 47]
  else do
    let paths ← expandFrom d [[47]] components
    .ok (paths.insertionSort (· ≤ ·))

/-! ## kubeletEnvFile -/

def defaultKubeletPath : GoString := lit "/etc/default/kubelet"

def kubeletEnvFiles : List GoString := [defaultKubeletPath, lit "/etc/sysconfig/kubelet"]

/-- The loop of the search; `start` tells whether the variable may start here. -/
def setsExtraArgsFrom : (start : Bool) → GoString → Bool
  | start, s =>
    (start && hasPrefix s (extraArgsKey ++ [61])) ||
      match s with
      | [] => false
      | b :: s => setsExtraArgsFrom (decide (b ∈ [9, 10, 12, 13, 32, 34, 39])) s

/-- Whether an `Environment=` property assigns the variable: at its start, or after white space
or a quote. -/
def setsExtraArgs (assignments : GoString) : Bool := setsExtraArgsFrom true assignments

inductive EnvSelectError where
  | notAbsolute (path : GoString)
  | glob (path : GoString) (e : GlobError)
  | read (file : GoString)
  | parse (file : GoString) (e : EnvFileError)
  | notEdited (file : GoString)
  | noFile
  | environment (file : GoString)
  deriving DecidableEq

/-- The assignments systemd takes from the file. -/
def readEnvFile (d : Disk) (f : GoString) (skippable : Bool) :
    Except EnvSelectError (List EnvAssignment) :=
  match d.readHostFile (clean (47 :: f)) with
  | .error .notExist => .ok []
  | .error .failed => if skippable && d.isHostDir (clean (47 :: f)) then .ok [] else .error (.read f)
  | .ok data =>
    match parseEnvFile data with
    | .error e => if e.unloadable && skippable then .ok [] else .error (.parse f e)
    | .ok assignments => .ok assignments

/-- The variables `assigning` and `lastOperator` of `kubeletEnvFile`; none for the empty string. -/
structure EnvSelection where
  assigning : Option GoString
  lastOperator : Option GoString
  deriving DecidableEq

def selectFile (d : Disk) (optional : Bool) (sel : EnvSelection) (f : GoString) :
    Except EnvSelectError EnvSelection := do
  let operator := decide (f ∈ kubeletEnvFiles)
  let assignments ← readEnvFile d f (optional && !operator)
  .ok {
    assigning := if assignments.any fun a => decide (a.key = extraArgsKey) then some f else sel.assigning
    lastOperator := if operator then some f else sel.lastOperator }

def selectRef (d : Disk) (sel : EnvSelection) (ref : EnvFileRef) : Except EnvSelectError EnvSelection :=
  if !isAbs ref.path then .error (.notAbsolute ref.path)
  else
    match expandEnvFile d ref.path with
    | .error e => .error (.glob ref.path e)
    | .ok files => files.foldlM (selectFile d ref.optional) sel

/-- The node path of the environment file patch mode puts its flags into. -/
def kubeletEnvFile (d : Disk) (env : UnitEnvironment) : Except EnvSelectError GoString := do
  let sel ← env.files.foldlM (selectRef d) ⟨none, none⟩
  match sel.assigning, sel.lastOperator with
  | some f, _ => if f ∈ kubeletEnvFiles then .ok f else .error (.notEdited f)
  | none, none => .error .noFile
  | none, some f => if setsExtraArgs env.assignments then .error (.environment f) else .ok f

end HarborBridge.Installer
