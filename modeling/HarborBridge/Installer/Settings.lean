import HarborBridge.Lib.DnsNames
import HarborBridge.Installer.NodePath

/-!
# The installer's settings

Package main of the installer, main.go and names.go: what an install pass takes from its
environment variables, and the names of the files of one install.
-/

namespace HarborBridge.Installer

open GoStrings DnsNames

inductive Mode where
  | auto
  | merge
  | patch
  | none
  deriving DecidableEq

namespace Mode

def text : Mode → GoString
  | auto => lit "auto"
  | merge => lit "merge"
  | patch => lit "patch"
  | none => lit "none"

def parse (s : GoString) : Option Mode := [auto, merge, patch, none].find? fun m => m.text == s

end Mode

/-! ## Names -/

def defaultProviderName : GoString := lit "harbor-bridge-plugin"

def validProviderName (name : GoString) : Bool := decide (name.length ≤ 63) && decide (DnsLabel name)

def recordSuffix : GoString := lit ".entry"

/-- The base names of one install's own files. -/
structure NodeFiles where
  binary : GoString
  record : GoString
  ca : GoString
  clientCert : GoString
  clientKey : GoString
  state : GoString

def filesFor (name : GoString) : NodeFiles :=
  if name = defaultProviderName then
    { binary := defaultProviderName
      record := defaultProviderName ++ recordSuffix
      ca := lit "harbor-bridge-ca.crt"
      clientCert := lit "harbor-bridge-client.crt"
      clientKey := lit "harbor-bridge-client.key"
      state := lit "installer-state.json" }
  else
    { binary := name
      record := name ++ recordSuffix
      ca := name ++ lit ".ca.crt"
      clientCert := name ++ lit ".client.crt"
      clientKey := name ++ lit ".client.key"
      state := name ++ lit ".installer-state.json" }

theorem filesFor_binary (name : GoString) : (filesFor name).binary = name := by
  unfold filesFor
  split_ifs with h
  · exact h.symm
  · rfl

theorem filesFor_record (name : GoString) : (filesFor name).record = name ++ recordSuffix := by
  unfold filesFor
  split_ifs with h
  · rw [h]
  · rfl

/-! ## Configuration -/

/-- Both credential-provider flags of kubelet, empty when absent. -/
structure Wiring where
  binDir : GoString
  configFile : GoString
  deriving DecidableEq

def Wiring.wired (w : Wiring) : Bool := decide (w.binDir ≠ [] ∧ w.configFile ≠ [])

structure Config where
  mode : Mode
  hostBinDir : GoString
  hostConfigDir : GoString
  mergeBinDir : GoString
  mergeConfigFile : GoString
  mtlsEnabled : Bool
  kubeletUnit : GoString
  stateDir : GoString
  nodeIP : GoString
  providerName : GoString
  deriving DecidableEq

def configFileName : GoString := lit "credential-provider-config.yaml"

namespace Config

def files (c : Config) : NodeFiles := filesFor c.providerName

def ownConfigPath (c : Config) : GoString := pathJoin c.hostConfigDir configFileName

def ownWiring (c : Config) : Wiring := ⟨c.hostBinDir, c.ownConfigPath⟩

def statePath (c : Config) : GoString := pathJoin c.stateDir c.files.state

end Config

/-- `^[A-Za-z0-9][A-Za-z0-9:_.@-]*$`. -/
def validUnitName (unit : GoString) : Bool :=
  let letter (b : UInt8) : Bool := (65 ≤ b && b ≤ 90) || (97 ≤ b && b ≤ 122) || isDigit b
  match unit with
  | [] => false
  | b :: rest => letter b && rest.all fun b => letter b || decide (b ∈ lit ":_.@-")

inductive ConfigError where
  | mode
  | noConfigDir
  | noBinDir
  | mergePair
  | mergeOutsideMerge
  | path (p : GoString)
  | overlap (dir : GoString)
  | stateDir
  | mergeConfig
  | unit
  | providerName
  deriving DecidableEq

def loadConfig (getenv : GoString → GoString) : Except ConfigError Config := do
  let fallback (key default : GoString) : GoString := if getenv key = [] then default else getenv key
  let some mode := Mode.parse (fallback (lit "INSTALL_MODE") Mode.auto.text) | .error .mode
  let c : Config := {
    mode := mode
    hostBinDir := getenv (lit "HOST_BIN_DIR")
    hostConfigDir := getenv (lit "HOST_CONFIG_DIR")
    mergeBinDir := getenv (lit "INSTALL_MERGE_BIN_DIR")
    mergeConfigFile := getenv (lit "INSTALL_MERGE_CONFIG_FILE")
    mtlsEnabled := decide (getenv (lit "MTLS_ENABLED") = lit "true")
    kubeletUnit := fallback (lit "KUBELET_UNIT") (lit "kubelet")
    stateDir := fallback (lit "STATE_DIR") (lit "/var/lib/harbor-bridge")
    nodeIP := getenv (lit "NODE_IP")
    providerName := fallback (lit "PROVIDER_NAME") defaultProviderName }
  if c.hostConfigDir = [] then .error .noConfigDir
  if c.hostBinDir = [] ∧ c.mode ≠ .merge then .error .noBinDir
  if (c.mergeBinDir = []) ≠ (c.mergeConfigFile = []) then .error .mergePair
  if c.mergeBinDir ≠ [] ∧ c.mode ≠ .merge then .error .mergeOutsideMerge
  match [c.hostBinDir, c.hostConfigDir, c.stateDir, c.mergeBinDir, c.mergeConfigFile].find?
      fun p => decide (p ≠ []) && !validNodePath p with
  | some p => .error (.path p)
  | none => .ok ()
  match [c.hostBinDir, c.mergeBinDir].find?
      fun dir => decide (dir ≠ []) && dirsOverlap dir c.hostConfigDir with
  | some dir => .error (.overlap dir)
  | none => .ok ()
  if withinDir c.stateDir c.hostConfigDir then .error .stateDir
  if c.mergeConfigFile ≠ [] ∧ withinDir c.mergeConfigFile c.hostConfigDir = true then .error .mergeConfig
  if !validUnitName c.kubeletUnit then .error .unit
  if !validProviderName c.providerName then .error .providerName
  .ok c

/-- A test whose first branch gives another value was not met. -/
theorem of_ite_eq {α : Type} {p : Prop} [Decidable p] {a b v : α} (ha : a ≠ v)
    (h : (if p then a else b) = v) : ¬ p ∧ b = v := by
  by_cases hp : p
  · rw [if_pos hp] at h
    exact absurd h ha
  · rw [if_neg hp] at h
    exact ⟨hp, h⟩

/-- What `loadConfig` admits. -/
structure Config.Admitted (c : Config) : Prop where
  configDir : c.hostConfigDir ≠ []
  binDir : c.mode ≠ .merge → c.hostBinDir ≠ []
  paths : ∀ p ∈ [c.hostBinDir, c.hostConfigDir, c.stateDir, c.mergeBinDir, c.mergeConfigFile],
    p ≠ [] → validNodePath p = true
  apart : ∀ dir ∈ [c.hostBinDir, c.mergeBinDir], dir ≠ [] → dirsOverlap dir c.hostConfigDir = false
  unit : validUnitName c.kubeletUnit = true
  name : validProviderName c.providerName = true

theorem loadConfig_admitted {getenv : GoString → GoString} {c : Config} (h : loadConfig getenv = .ok c) :
    c.Admitted := by
  simp only [loadConfig, bind, Except.bind] at h
  split at h
  · obtain ⟨hdir, h⟩ := of_ite_eq (by simp) h
    obtain ⟨hbin, h⟩ := of_ite_eq (by simp) h
    obtain ⟨-, h⟩ := of_ite_eq (by simp) h
    obtain ⟨-, h⟩ := of_ite_eq (by simp) h
    split at h
    · cases h
    next hpaths =>
    split at h
    · cases h
    next hapart =>
    obtain ⟨-, h⟩ := of_ite_eq (by simp) h
    obtain ⟨-, h⟩ := of_ite_eq (by simp) h
    obtain ⟨hunit, h⟩ := of_ite_eq (by simp) h
    obtain ⟨hname, h⟩ := of_ite_eq (by simp) h
    cases h
    refine ⟨hdir, fun hmode hnil => hbin ⟨hnil, hmode⟩, fun p hp hne => ?_, fun dir hd hne => ?_, ?_, ?_⟩
    · simpa [hne] using List.find?_eq_none.mp hpaths p hp
    · simpa [hne] using List.find?_eq_none.mp hapart dir hd
    · simpa using hunit
    · simpa using hname
  · cases h

end HarborBridge.Installer
