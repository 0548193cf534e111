import HarborBridge.Installer.Run

/-!
# A library to run the installer with

Documents, records and states as plain tokens: an instance of what the installer asks of other
packages that can be evaluated, and two installs to run with it.
-/

namespace HarborBridge.Installer

open GoStrings Document

/-! ## Texts -/

/-- The bytes of a text, each after a one, and a zero at the end. -/
def encodeText (s : GoString) : GoString := s.flatMap (fun b => [1, b]) ++ [0]

def decodeText : GoString → Option (GoString × GoString)
  | 0 :: rest => some ([], rest)
  | 1 :: b :: rest => (decodeText rest).map fun t => (b :: t.1, t.2)
  | _ => none

theorem decodeText_encodeText (s rest : GoString) : decodeText (encodeText s ++ rest) = some (s, rest) := by
  induction s with
  | nil => rfl
  | cons b s ih =>
    have hcons : encodeText (b :: s) ++ rest = 1 :: b :: (encodeText s ++ rest) := by simp [encodeText]
    rw [hcons, decodeText, ih]
    rfl

def encodeTexts (l : List GoString) : GoString := l.flatMap encodeText

/-- At most `n` texts. -/
def decodeTexts : (n : Nat) → GoString → Option (List GoString)
  | _, [] => some []
  | 0, _ :: _ => none
  | n + 1, b :: s => do
    let (t, rest) ← decodeText (b :: s)
    let l ← decodeTexts n rest
    return t :: l

theorem decodeTexts_encodeTexts (l : List GoString) (n : Nat) (h : l.length ≤ n) :
    decodeTexts n (encodeTexts l) = some l := by
  induction l generalizing n with
  | nil => cases n <;> rfl
  | cons t l ih =>
    cases n with
    | zero => simp at h
    | succ n =>
      have hcons : encodeTexts (t :: l) = encodeText t ++ encodeTexts l := rfl
      obtain ⟨b, r, hb⟩ := List.exists_cons_of_ne_nil (l := encodeText t ++ encodeTexts l) (by simp [encodeText])
      rw [hcons, hb, decodeTexts, ← hb, decodeText_encodeText]
      simp only [Option.bind_eq_bind, Option.bind_some]
      rw [ih n (by simpa using h)]
      rfl

theorem length_encodeTexts (l : List GoString) : l.length ≤ (encodeTexts l).length := by
  induction l with
  | nil => exact Nat.le_refl 0
  | cons t l ih =>
    have hcons : encodeTexts (t :: l) = encodeText t ++ encodeTexts l := rfl
    rw [hcons, List.length_append, List.length_cons]
    have hpos : 0 < (encodeText t).length := by simp [encodeText]
    omega

def readTexts (s : GoString) : Option (List GoString) := decodeTexts s.length s

theorem readTexts_encodeTexts (l : List GoString) : readTexts (encodeTexts l) = some l :=
  decodeTexts_encodeTexts l _ (length_encodeTexts l)

/-! ## Documents -/

mutual
def encodeValue : Value → GoString
  | .scalar .null => [2]
  | .scalar (.bool b) => [3, if b then 1 else 0]
  | .scalar (.num t) => 4 :: encodeText t
  | .scalar (.str t) => 5 :: encodeText t
  | .list l => 6 :: encodeItems l
  | .map m => 7 :: encodeFields m

def encodeItems : List Value → GoString
  | [] => [8]
  | v :: l => encodeValue v ++ encodeItems l

def encodeFields : List (GoString × Value) → GoString
  | [] => [8]
  | (k, v) :: m => encodeText k ++ encodeValue v ++ encodeFields m
end

mutual
/-- A value at most `n` deep and long, and what follows it. -/
def decodeValue : (n : Nat) → GoString → Option (Value × GoString)
  | 0, _ => none
  | n + 1, s =>
    match s with
    | 2 :: rest => some (.null, rest)
    | 3 :: b :: rest => some (.scalar (.bool (b == 1)), rest)
    | 4 :: rest => (decodeText rest).map fun t => (.scalar (.num t.1), t.2)
    | 5 :: rest => (decodeText rest).map fun t => (.str t.1, t.2)
    | 6 :: rest => (decodeItems n rest).map fun l => (.list l.1, l.2)
    | 7 :: rest => (decodeFields n rest).map fun m => (.map m.1, m.2)
    | _ => none

def decodeItems : (n : Nat) → GoString → Option (List Value × GoString)
  | 0, _ => none
  | n + 1, s =>
    match s with
    | 8 :: rest => some ([], rest)
    | s => do
      let (v, rest) ← decodeValue n s
      let (l, rest) ← decodeItems n rest
      return (v :: l, rest)

def decodeFields : (n : Nat) → GoString → Option (List (GoString × Value) × GoString)
  | 0, _ => none
  | n + 1, s =>
    match s with
    | 8 :: rest => some ([], rest)
    | s => do
      let (k, rest) ← decodeText s
      let (v, rest) ← decodeValue n rest
      let (m, rest) ← decodeFields n rest
      return ((k, v) :: m, rest)
end

def encodeDocument (m : Fields) : GoString := encodeValue (.map m)

def decodeDocument (s : GoString) : Option Fields :=
  match decodeValue s.length s with
  | some (.map m, []) => some m
  | _ => none

/-! ## Records and states -/

def encodeRecord (r : EntryRecord) : GoString := encodeTexts (r.chartOwnedConfig :: r.entries)

def decodeRecord (s : GoString) : Option EntryRecord :=
  match readTexts s with
  | some (chartOwned :: entries) => some ⟨entries, chartOwned⟩
  | _ => none

def Rejection.texts (r : Rejection) : List GoString :=
  [r.mode, r.binDir, r.configFile, r.envFile, r.unit, r.entryHash, r.appliedHash, r.kubelet]

def State.texts (s : State) : List GoString :=
  [s.mode, s.binDir, s.configFile, s.envFile, s.appliedHash, s.entryHash] ++
    s.rejected.toList.flatMap Rejection.texts

def encodeState (s : State) : GoString := encodeTexts (formatInt s.schemaVersion :: s.texts)

def decodeState (s : GoString) : Option State :=
  match readTexts s with
  | some [version, mode, binDir, configFile, envFile, appliedHash, entryHash] => do
    let v ← parseSigned version
    return ⟨v, mode, binDir, configFile, envFile, appliedHash, entryHash, none⟩
  | some [version, mode, binDir, configFile, envFile, appliedHash, entryHash, rmode, rbinDir, rconfigFile,
      renvFile, runit, rentryHash, rappliedHash, rkubelet] => do
    let v ← parseSigned version
    return ⟨v, mode, binDir, configFile, envFile, appliedHash, entryHash,
      some ⟨rmode, rbinDir, rconfigFile, renvFile, runit, rentryHash, rappliedHash, rkubelet⟩⟩
  | _ => none

def plainUrl (s : GoString) : Url :=
  match cutPrefix s (lit "https://") with
  | some rest => ⟨lit "https", rest⟩
  | none => ⟨[], []⟩

def plainLibrary : Library where
  readYaml := decodeDocument
  writeYaml m := some (encodeDocument m)
  readJson := decodeDocument
  writeJson m := some (encodeDocument m)
  entryBytes := encodeDocument
  sprint
    | some (.str s) => s
    | _ => []
  parseUrl s := some (plainUrl s)
  parseDuration s := parseSigned s
  parseAddr s := some ⟨s, [], true⟩
  readRecord := decodeRecord
  writeRecord := encodeRecord
  readState := decodeState
  writeState := encodeState
  isText _ := True
  isJson _ := True
  compact s := s
  isText_ascii _ _ := trivial
  isJson_entryBytes _ := trivial
  compact_entryBytes _ := rfl
  isJson_readRecord _ _ _ _ _ := trivial
  readRecord_writeRecord r _ _ := by
    rw [decodeRecord, encodeRecord, readTexts_encodeTexts]
    simp

/-! ## Two installs -/

def sampleEntry (name endpoint : GoString) : Fields :=
  [(apiVersionKey, .str credentialProviderAPIVersion), (lit "defaultCacheDuration", .str (lit "0")),
    (lit "env", .list [.map [(nameKey, .str bridgeEndpointEnv), (lit "value", .str endpoint)]]),
    (lit "matchImages", .list [.str (lit "h")]), (nameKey, .str name)]

def ownEntry : Fields := sampleEntry (lit "own") (lit "https://x")

def otherEntry : Fields := sampleEntry (lit "other") (lit "https://y")

def sampleDoc (providers : List Value) : Fields :=
  [(apiVersionKey, .str credentialProviderConfigAPIVersion), (providersKey, .list providers)]

def sampleConfig (mode : Mode) (name : GoString) : Config where
  mode := mode
  hostBinDir := lit "/b"
  hostConfigDir := lit "/c"
  mergeBinDir := []
  mergeConfigFile := []
  mtlsEnabled := false
  kubeletUnit := lit "kubelet"
  stateDir := lit "/s"
  nodeIP := []
  providerName := name

def renderedOwn : GoString := encodeDocument (sampleDoc [.map ownEntry])

def renderedOther : GoString := encodeDocument (sampleDoc [.map otherEntry])

def samplePath : GoString := lit "/c/credential-provider-config.yaml"

/-- A node on which the other install has its binary and its record. -/
def otherInstalled : Disk :=
  (Disk.empty.put (lit "/b/other") (.file ⟨[], 0o755, root⟩)).put (lit "/b/other.entry")
    (.file ⟨encodeRecord ⟨[encodeDocument otherEntry], lit "/c/credential-provider-config.yaml"⟩, 0o600, root⟩)

end HarborBridge.Installer
