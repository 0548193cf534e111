import HarborBridge.Lib.Sha256
import HarborBridge.Installer.Calls

/-!
# The install pass

Package main of the installer, run.go, record.go and state.go: the four modes of a pass, the
records of the installs, the restart of kubelet and its rollback.
-/

namespace HarborBridge.Installer

open GoStrings Document Interaction

section

variable (L : Library)

/-! ## record.go -/

/-- A missing record, or one that cannot be read, vouches for nothing. -/
def readRecord (d : Disk) (p : GoString) : Option EntryRecord :=
  match d.readHostFile p with
  | .ok raw => L.readRecord raw
  | .error _ => none

def recordPath (binDir name : GoString) : GoString := pathJoin binDir (filesFor name).record

def binaryPath (binDir name : GoString) : GoString := pathJoin binDir (filesFor name).binary

/-- Whether the record of that name holds the canonical entry. -/
def recordHolds (d : Disk) (binDir name entryJSON : GoString) : Bool :=
  match readRecord L d (recordPath binDir name) with
  | some r => decide (entryJSON ∈ r.entries)
  | none => false

/-- Whether a record in the directory names the config as a chart-owned one; none when the
directory cannot be listed. -/
def claimsChartOwned (d : Disk) (binDir configPath : GoString) : Option Bool :=
  if d.isDir binDir then
    some ((d.children binDir).any fun e =>
      match cutSuffix e.1 recordSuffix with
      | none => false
      | some name =>
        decide (e.2 ≠ .dir) && validProviderName name &&
          match readRecord L d (pathJoin binDir e.1) with
          | some r => decide (r.chartOwnedConfig = configPath)
          | none => false)
  else if (d.lookup binDir).isSome || d.blocked binDir then none
  else some false

/-! ## state.go -/

def stateSchemaVersion : Int := 1

/-- The restart-relevant contents in order, each after its length. -/
def contentHash (parts : List GoString) : GoString :=
  Sha256.encodeToString (Sha256.sum256 (parts.flatMap fun p => formatInt p.length ++ lit ":" ++ p))

/-- What one pass wants kubelet to run with. -/
structure Target where
  mode : Mode
  binDir : GoString
  configFile : GoString
  envFile : GoString
  entryHash : GoString
  fileHash : GoString
  deriving DecidableEq

namespace Target

def state (t : Target) : State where
  schemaVersion := stateSchemaVersion
  mode := t.mode.text
  binDir := t.binDir
  configFile := t.configFile
  envFile := t.envFile
  appliedHash := t.fileHash
  entryHash := t.entryHash
  rejected := none

def rejection (t : Target) (unit kubelet : GoString) : Rejection where
  mode := t.mode.text
  binDir := t.binDir
  configFile := t.configFile
  envFile := t.envFile
  unit := unit
  entryHash := t.entryHash
  appliedHash := t.fileHash
  kubelet := kubelet

end Target

/-- An unknown identity counts as the same kubelet. -/
def Rejection.testedBy (r : Rejection) (kubelet : GoString) : Bool :=
  decide (r.kubelet = [] ∨ kubelet = [] ∨ r.kubelet = kubelet)

namespace State

/-- The environment file the record's restart was for; older records name none. -/
def env (s : State) : GoString :=
  if s.envFile = [] ∧ s.mode = Mode.patch.text then defaultKubeletPath else s.envFile

def sameWiring (s : State) (t : Target) : Bool :=
  decide (s.mode = t.mode.text ∧ s.binDir = t.binDir ∧ s.configFile = t.configFile ∧ s.env = t.envFile)

def rejects (s : State) (t : Target) (unit : GoString) : Option Rejection :=
  s.rejected.filter fun r => decide (r.mode = t.mode.text ∧ r.binDir = t.binDir ∧
    r.configFile = t.configFile ∧ r.envFile = t.envFile ∧ r.unit = unit ∧
    r.entryHash = t.entryHash ∧ r.appliedHash = t.fileHash)

end State

def stateMatches (s : Option State) (t : Target) : Bool :=
  s.any fun s => s.sameWiring t && decide (s.entryHash ≠ [] ∧ s.entryHash = t.entryHash)

/-- A record without an entry hash, of a restart for exactly the files as they are now. -/
def stateMatchesLegacy (s : Option State) (t : Target) : Bool :=
  s.any fun s => s.sameWiring t && decide (s.entryHash = [] ∧ s.appliedHash = t.fileHash)

end

section

variable (L : Library) (cfg : Config)

/-! ## The files of an install -/

def loadState : Pass (Option State) := do
  let d ← ask (.look .state cfg.statePath)
  match d.readHostFile cfg.statePath with
  | .error .notExist => return none
  | .error .failed => throw (.failed cfg.statePath)
  | .ok raw => return (L.readState raw).filter fun s => decide (s.schemaVersion = stateSchemaVersion)

def saveState (s : State) : Pass Unit := do
  let _ ← writeFileAtomic .state cfg.statePath (L.writeState { s with schemaVersion := stateSchemaVersion })
    0o600
  return ()

def recordFileMode : Nat := 0o600

def writeRecord (binDir : GoString) (r : EntryRecord) : Pass Unit := do
  let _ ← writeFileAtomic .record (recordPath binDir cfg.providerName) (L.writeRecord r) recordFileMode
  return ()

/-- The entry joins those of the record, one of which the config may hold. -/
def begun (d : Disk) (binDir entryJSON chartOwned : GoString) : EntryRecord :=
  let r := (readRecord L d (recordPath binDir cfg.providerName)).getD ⟨[], []⟩
  { entries := if entryJSON ∈ r.entries then r.entries else r.entries ++ [entryJSON]
    chartOwnedConfig := chartOwned }

def beginRecord (binDir entryJSON chartOwned : GoString) : Pass EntryRecord := do
  let d ← ask (.look .record (recordPath binDir cfg.providerName))
  let r := begun L cfg d binDir entryJSON chartOwned
  writeRecord L cfg binDir r
  return r

/-- The record is reduced to the entry once the config holds it. -/
def commitRecord (binDir entryJSON chartOwned : GoString) : Pass Unit :=
  writeRecord L cfg binDir ⟨[entryJSON], chartOwned⟩

/-- Whether an entry found in a chart-owned config is another install's. -/
def siblingIn (d : Disk) (binDir : GoString) (entry : Fields) : Bool :=
  match entry.string nameKey with
  | none => false
  | some name =>
    decide (name ≠ cfg.providerName) && validProviderName name && isBridgeProvider entry &&
      d.isExecutableHostFile (binaryPath binDir name) &&
      recordHolds L d binDir name (L.entryBytes entry)

def checkBinaryOwnership (binDir : GoString) : Pass Unit := do
  let dst := binaryPath binDir cfg.providerName
  let d ← ask (.look .binary dst)
  if cfg.providerName = defaultProviderName ∨
      d.isRegularHostFile (recordPath binDir cfg.providerName) = true then return ()
  else
    match d.readHostFile dst with
    | .error .notExist => return ()
    | .error .failed => refuse (.foreignBinary dst)
    | .ok current => do
      match ← ask (.source .plugin) with
      | .error _ => throw (.failed dst)
      | .ok ours => if current = ours then return () else refuse (.foreignBinary dst)

def auxPath (name : GoString) : GoString := pathJoin cfg.hostConfigDir name

/-- The CA, and the client pair when there is one, into `plugin.hostConfigDir`. -/
def syncAuxFiles : Pass Unit := do
  mkdir cfg.hostConfigDir
  let _ ← copyFileIn .aux .ca (auxPath cfg cfg.files.ca) 0o644
  onlyIf cfg.mtlsEnabled (do
    let _ ← copyFileIn .aux .clientCert (auxPath cfg cfg.files.clientCert) 0o644
    let _ ← copyFileIn .aux .clientKey (auxPath cfg cfg.files.clientKey) 0o600
    return ())

def installPluginBinary (binDir entryJSON chartOwned : GoString) : Pass EntryRecord := do
  let r ← beginRecord L cfg binDir entryJSON chartOwned
  let _ ← copyFile .binary .plugin (binaryPath binDir cfg.providerName) 0o755
  return r

/-- What the entry depends on, before the entry. -/
def installFiles (binDir entryJSON chartOwned : GoString) : Pass EntryRecord := do
  checkBinaryOwnership cfg binDir
  syncAuxFiles cfg
  installPluginBinary L cfg binDir entryJSON chartOwned

/-! ## The configs -/

/-- The content a chart-owned config must have after the pass, and the file as it is. -/
def chartOwnedConfigIn (own : Wiring) (rendered : GoString) (entry : Fields) :
    Pass (GoString × Option HostFile) := do
  match ← readPrior .config own.configFile with
  | none => return (rendered, none)
  | some prior => do
    let d ← ask (.look .record own.binDir)
    let desired ← orRefuse .document
      (chartOwnedConfig L prior.data rendered entry (siblingIn L cfg d own.binDir))
    return (desired, some prior)

/-- `chartOwnedConfigIn` for the install's own directories. -/
def ownConfig (rendered : GoString) (entry : Fields) : Pass (GoString × Option HostFile) :=
  chartOwnedConfigIn L cfg cfg.ownWiring rendered entry

/-- The documents kubelet reads from the path, a file or a directory of them. -/
def configDocs (d : Disk) (path : GoString) : Except ReadError (List GoString) :=
  match d.lookup path with
  | none => if d.blocked path then .error .failed else .ok []
  | some .dir =>
    let names := ((d.children path).filter fun e => decide (e.2 ≠ .dir)).map Prod.fst
    ((names.insertionSort (· ≤ ·)).filter fun n =>
        hasSuffix n (lit ".json") || hasSuffix n (lit ".yaml") || hasSuffix n (lit ".yml")).mapM
      fun n => d.readHostFile (pathJoin path n)
  | some _ => do
    let doc ← d.readHostFile path
    .ok [doc]

/-- What `blockingInstalls` takes for another install's entry in kubelet's config: what the
records vouch for where a chart-owned config can be, and any bridge entry elsewhere. -/
def rewireCounts (d : Disk) (current : Wiring) : Option (Option (Fields → Bool)) :=
  if withinDir current.configFile cfg.hostConfigDir then some (some (siblingIn L cfg d current.binDir))
  else (claimsChartOwned L d current.binDir (chartOwnedPathIn d current.configFile)).map fun claimed =>
    if claimed then some (siblingIn L cfg d current.binDir) else none

/-- The other installs whose entries the install's own config keeps. -/
def keptSiblings (rendered : GoString) (entry : Fields) : Pass (List GoString) := do
  mkdir cfg.hostConfigDir
  let (desired, _) ← ownConfig L cfg rendered entry
  return otherBridgeProviders L desired cfg.providerName none

/-- The other installs that keep the pass from moving kubelet away from its config. -/
def blockingInstalls (current : Wiring) (rendered : GoString) (entry : Fields) : Pass (List GoString) := do
  if !current.wired || current == cfg.ownWiring then return []
  else do
    let d ← ask (.look .config current.configFile)
    match configDocs d current.configFile with
    | .error _ => throw (.failed current.configFile)
    | .ok docs => do
      let d ← ask (.look .record current.binDir)
      match rewireCounts L cfg d current with
      | none => throw (.failed current.binDir)
      | some counts => do
        let others := docs.flatMap fun doc => otherBridgeProviders L doc cfg.providerName counts
        if others = [] then return []
        else do
          let kept ← keptSiblings L cfg rendered entry
          return others.filter fun name => decide (name ∉ kept)

/-! ## The restart -/

/-- The steps of a rollback, every one even when an earlier one failed; whether all succeeded. -/
def restoreAll : List (Pass Unit) → NodeProg Bool
  | [] => return true
  | step :: rest => do
    let r ← step.run
    let ok ← restoreAll rest
    return r.isOk && ok

def kubeletIdentity : Pass GoString := do
  match ← ask .identity with
  | none => return []
  | some parts => return contentHash parts

/-- A restart and the wait for a kubelet that stays up. -/
def restartKubelet (want : Option Wiring) : NodeProg Bool := do
  let ok ← Prog.ask (NodeCall.act .restart)
  if ok then Prog.ask (NodeCall.act (.healthy want)) else return false

/-- A restart that failed is undone, and its content recorded as rejected. -/
def rejectRestart (st : Option State) (t : Target) (changedNow : Bool) (rb : List (Pass Unit)) :
    Pass Unit := do
  onlyIf changedNow (do
    let _ ← ExceptT.lift (restoreAll rb)
    let _ ← ExceptT.lift (restartKubelet none)
    return ())
  let kubelet ← kubeletIdentity
  let rec' := st.getD ⟨stateSchemaVersion, [], [], [], [], [], [], none⟩
  let _ ← ExceptT.lift (saveState L cfg { rec' with
    rejected := some (t.rejection cfg.kubeletUnit kubelet) }).run
  throw .unverified

/-- Content that an earlier pass restarted kubelet onto without success is refused. -/
def refuseRejected (t : Target) : Pass Unit := do
  match (← loadState L cfg).bind fun s => s.rejects t cfg.kubeletUnit with
  | none => return ()
  | some r =>
    if r.kubelet = [] then refuse .rejected
    else do
      let now ← kubeletIdentity
      if r.testedBy now then refuse .rejected else return ()

/-- The state cannot be recorded: the files go back, and kubelet stays as it is. -/
def abandonRestart (changedNow : Bool) (rb : List (Pass Unit)) : Pass Unit := do
  onlyIf changedNow (do
    let _ ← ExceptT.lift (restoreAll rb)
    return ())
  throw (.failed cfg.stateDir)

/-- The second half of `finishWithRestart`: the restart, recorded once it is verified. -/
def restartOnto (st : Option State) (t : Target) (changedNow : Bool) (want : Option Wiring)
    (rb : List (Pass Unit)) : Pass Unit := do
  if ← ask (.act (.probe cfg.stateDir)) then
    if ← ExceptT.lift (restartKubelet want) then saveState L cfg t.state
    else rejectRestart L cfg st t changedNow rb
  else abandonRestart cfg changedNow rb

/-- Kubelet is restarted when its files changed on this pass, or when the state file records no
restart for this content. -/
def finishWithRestart (t : Target) (changedNow : Bool) (want : Option Wiring) (rb : List (Pass Unit)) :
    Pass Unit := do
  let st ← loadState L cfg
  if changedNow = false ∧ stateMatches st t = true then return ()
  else if changedNow = false ∧ stateMatchesLegacy st t = true then saveState L cfg t.state
  else restartOnto L cfg st t changedNow want rb

/-! ## The modes -/

/-- The files of the install and its entry in the chart-owned config. -/
def applyNone (entryJSON desired : GoString) : Pass Unit := do
  let _ ← installFiles L cfg cfg.hostBinDir entryJSON cfg.ownConfigPath
  let _ ← writeFileIn .config cfg.ownConfigPath desired 0o644
  commitRecord L cfg cfg.hostBinDir entryJSON cfg.ownConfigPath

/-- Files only; kubelet's flags are the operator's. -/
def runNone (rendered : GoString) (entry : Fields) : Pass Unit := do
  mkdir cfg.hostConfigDir
  locked (cfg.ownConfigPath ++ lockSuffix) do
    let (desired, _) ← ownConfig L cfg rendered entry
    applyNone L cfg (L.entryBytes entry) desired

/-- The environment file of the kubelet unit and its content with the flags of the wiring. -/
def patchedEnv (own : Wiring) : Pass (GoString × Option HostFile × GoString) := do
  match ← ask .environment with
  | none => throw .systemctl
  | some env => do
    let d ← ask (.look .environment [47])
    let envFile ← orRefuse .environment (kubeletEnvFile d env)
    let prior ← readPrior .environment envFile
    let desired ← orRefuse (.extraArgs envFile)
      (mergeExtraArgs ((prior.map HostFile.data).getD []) own.binDir own.configFile)
    return (envFile, prior, desired)

/-- What a patch-mode pass is about to write, and the files as it found them. -/
structure PatchPlan where
  own : Wiring
  entryJSON : GoString
  desiredConfig : GoString
  priorConfig : Option HostFile
  envFile : GoString
  priorEnv : Option HostFile
  desiredEnv : GoString

def PatchPlan.target (plan : PatchPlan) : Target where
  mode := .patch
  binDir := plan.own.binDir
  configFile := plan.own.configFile
  envFile := plan.envFile
  entryHash := contentHash [plan.entryJSON, plan.desiredEnv]
  fileHash := contentHash [plan.desiredConfig, plan.desiredEnv]

/-- The first half of `runPatchOn`: everything that can be refused before the node is touched. -/
def planPatch (rendered : GoString) (entry : Fields) (own : Wiring) : Pass PatchPlan := do
  mkdir (pathDir own.configFile)
  let (desiredConfig, priorConfig) ← chartOwnedConfigIn L cfg own rendered entry
  let (envFile, priorEnv, desiredEnv) ← patchedEnv own
  let plan : PatchPlan := ⟨own, L.entryBytes entry, desiredConfig, priorConfig, envFile, priorEnv, desiredEnv⟩
  refuseRejected L cfg plan.target
  return plan

/-- The second half: the files of the install, the config, kubelet's flags, the restart. -/
def applyPatch (plan : PatchPlan) : Pass Unit := do
  let own := plan.own
  let r ← installFiles L cfg own.binDir plan.entryJSON own.configFile
  let configChanged ← writeFileIn .config own.configFile plan.desiredConfig 0o644
  commitRecord L cfg own.binDir plan.entryJSON own.configFile
  let envChanged ← writeForeignFile .environment plan.envFile plan.desiredEnv
  finishWithRestart L cfg plan.target (configChanged || envChanged) (some own)
    [writeRecord L cfg own.binDir r, restoreIn .config own.configFile plan.priorConfig,
      restoreIn .environment plan.envFile plan.priorEnv]

/-- A patch-mode pass on the wiring. -/
def runPatchOn (rendered : GoString) (entry : Fields) (own : Wiring) : Pass Unit := do
  let plan ← planPatch L cfg rendered entry own
  applyPatch L cfg plan

/-- The entry into the chart-owned config of the install's own directories. -/
def stageConfig (rendered : GoString) (entry : Fields) : Pass Unit := do
  mkdir cfg.hostConfigDir
  let (desired, _) ← ownConfig L cfg rendered entry
  let _ ← writeFileIn .config cfg.ownConfigPath desired 0o644
  return ()

/-- The install's files in its new directories, while kubelet stays on the old ones. -/
def stageOwnFiles (rendered : GoString) (entry : Fields) (old : Wiring) : Pass Unit := do
  let want := cfg.ownWiring
  let entryJSON := L.entryBytes entry
  onlyIf (want.binDir ≠ old.binDir) (do
    let _ ← installFiles L cfg want.binDir entryJSON want.configFile
    return ())
  onlyIf (want.configFile ≠ old.configFile) (stageConfig L cfg rendered entry)
  onlyIf (want.binDir ≠ old.binDir) (commitRecord L cfg want.binDir entryJSON want.configFile)

/-- A pass on the directories kubelet uses, which other installs keep it from leaving. -/
def stayAndStage (rendered : GoString) (entry : Fields) (old : Wiring) : Pass Unit := do
  if dirsOverlap old.binDir cfg.hostConfigDir then refuse .overlap
  else if withinDir old.configFile cfg.hostConfigDir && decide (old.configFile ≠ cfg.ownConfigPath) then
    refuse .insideConfigDir
  else do
    runPatchOn L cfg rendered entry old
    stageOwnFiles L cfg rendered entry old

/-- The locks a patch-mode pass holds to its end: of kubelet's config, then of its own. -/
def lockPatchConfigs {α : Type} (current : Wiring) (body : Pass α) : Pass α := do
  let own := cfg.ownConfigPath ++ lockSuffix
  if current.wired then do
    let d ← ask (.look .directory current.configFile)
    let lock := configLockPath d current.configFile
    if lock ≠ own then lockConfig lock (lockConfig own body) else lockConfig own body
  else lockConfig own body

/-- `moving` tells that kubelet is on the directories of the install's last patch-mode pass. -/
def patchPass (rendered : GoString) (entry : Fields) (wiring : Wiring) (moving : Bool) : Pass Unit :=
  lockPatchConfigs cfg wiring do
    let others ← blockingInstalls L cfg wiring rendered entry
    if others = [] then runPatchOn L cfg rendered entry cfg.ownWiring
    else if moving then stayAndStage L cfg rendered entry wiring
    else refuse (.rewire others)

/-- What counts as a binary in kubelet's bin dir: an executable file, or a symlink, which kubelet
follows. -/
def hasBinaryIn (d : Disk) (binDir name : GoString) : Bool :=
  match d.lookup (pathJoin binDir name) with
  | some (.file f) => f.executable
  | some .symlink => true
  | _ => false

/-- Whether kubelet could start with the merged config of a cloud. -/
def checkKubeletCanStart (merged : GoString) (wiring : Wiring) : Pass Unit := do
  let d ← ask (.look .binary wiring.binDir)
  onlyIf (!d.isDir wiring.binDir && ((d.lookup wiring.binDir).isSome || d.blocked wiring.binDir))
    (throw (.failed wiring.binDir))
  match ← orRefuse .document
      (kubeletStartProblems L merged cfg.providerName (hasBinaryIn d wiring.binDir)) with
  | [] => return ()
  | problems => refuse (.startProblems problems)

/-- The content of kubelet's config after the pass, whether that changes it, and the chart-owned
config the record then names. -/
def mergedConfig (rendered : GoString) (entry : Fields) (wiring : Wiring) (prior : HostFile) :
    Pass (GoString × Bool × GoString) := do
  let d ← ask (.look .record wiring.binDir)
  let claimed := if wiring.configFile = cfg.ownConfigPath then some true
    else claimsChartOwned L d wiring.binDir wiring.configFile
  match claimed with
  | none => throw (.failed wiring.binDir)
  | some true => do
    let merged ← orRefuse .document
      (chartOwnedConfig L prior.data rendered entry (siblingIn L cfg d wiring.binDir))
    return (merged, decide (merged ≠ prior.data), wiring.configFile)
  | some false => do
    let (merged, changed) ← orRefuse .document (mergeProvider L prior.data entry)
    checkKubeletCanStart L cfg merged wiring
    return (merged, changed, [])

/-- The directory of kubelet's config: `plugin.hostConfigDir` is created, another must exist. -/
def openDirOf (p : GoString) : Pass Unit := do
  if pathDir p = cfg.hostConfigDir then mkdir cfg.hostConfigDir
  else do
    let d ← ask (.look .directory (pathDir p))
    if d.isDir (pathDir p) then return () else throw (.failed (pathDir p))

/-- What a merge-mode pass is about to write, and the config as it found it. -/
structure MergePlan where
  wiring : Wiring
  entryJSON : GoString
  merged : GoString
  changed : Bool
  /-- The chart-owned config the record names, empty for a cloud's config. -/
  claim : GoString
  prior : HostFile

def MergePlan.target (plan : MergePlan) : Target where
  mode := .merge
  binDir := plan.wiring.binDir
  configFile := plan.wiring.configFile
  envFile := []
  entryHash := contentHash [plan.entryJSON]
  fileHash := contentHash [plan.merged]

/-- The part of `runMerge` under the lock that can be refused before the node is touched. -/
def planMerge (rendered : GoString) (entry : Fields) (wiring : Wiring) : Pass MergePlan := do
  match ← readPrior .config wiring.configFile with
  | none => refuse .missingConfig
  | some prior => do
    let (merged, changed, claim) ← mergedConfig L cfg rendered entry wiring prior
    let plan : MergePlan := ⟨wiring, L.entryBytes entry, merged, changed, claim, prior⟩
    refuseRejected L cfg plan.target
    return plan

def applyMerge (plan : MergePlan) : Pass Unit := do
  let wiring := plan.wiring
  let r ← installFiles L cfg wiring.binDir plan.entryJSON plan.claim
  let written ← writeForeignIn .config wiring.configFile plan.merged
  commitRecord L cfg wiring.binDir plan.entryJSON plan.claim
  finishWithRestart L cfg plan.target (plan.changed || written) none
    [writeRecord L cfg wiring.binDir r, restoreIn .config wiring.configFile (some plan.prior)]

/-- The entry into the config kubelet has, without touching its flags. -/
def runMerge (rendered : GoString) (entry : Fields) (wiring : Wiring) : Pass Unit := do
  let d ← ask (.look .directory wiring.configFile)
  if d.isHostDir wiring.configFile then refuse .directory
  else if withinDir wiring.configFile cfg.hostConfigDir && decide (wiring.configFile ≠ cfg.ownConfigPath) then
    refuse .insideConfigDir
  else do
    openDirOf cfg wiring.configFile
    locked (wiring.configFile ++ lockSuffix) do
      let plan ← planMerge L cfg rendered entry wiring
      applyMerge L cfg plan

def mergePass (rendered : GoString) (entry : Fields) (wiring : Wiring) : Pass Unit :=
  if dirsOverlap wiring.binDir cfg.hostConfigDir then refuse .overlap
  else runMerge L cfg rendered entry wiring

/-! ## run -/

/-- The wiring of a kubelet with this command line. -/
def wiringOf (argv : List GoString) : Wiring := ⟨flagValue argv flagBinDir, flagValue argv flagConfigFile⟩

/-- Kubelet's flags, from its command line. -/
def discoverKubelet : Pass Wiring := do
  match ← ask .cmdline with
  | none => refuse .noKubelet
  | some argv =>
    let w := wiringOf argv
    if [w.binDir, w.configFile].all fun v => v.isEmpty || validNodePath v then return w else refuse .flags

/-- Whether the wiring is what this install's last verified patch-mode pass set up. -/
def wiredByOwnPatch (wiring : Wiring) : Pass Bool := do
  let st ← loadState L cfg
  return st.any fun s => decide (s.mode = Mode.patch.text ∧ s.binDir = wiring.binDir ∧
    s.configFile = wiring.configFile)

def autoPass (rendered : GoString) (entry : Fields) : Pass Unit := do
  let wiring ← discoverKubelet
  if !wiring.wired || wiring == cfg.ownWiring then patchPass L cfg rendered entry wiring false
  else if ← wiredByOwnPatch L cfg wiring then patchPass L cfg rendered entry wiring true
  else mergePass L cfg rendered entry wiring

def mergeTargets : Pass Wiring := do
  if cfg.mergeBinDir ≠ [] then return ⟨cfg.mergeBinDir, cfg.mergeConfigFile⟩
  else do
    let wiring ← discoverKubelet
    if wiring.wired then return wiring else refuse .notWired

/-- The rendered config with the node's address, and the install's entry in it. -/
def readRendered : Pass (GoString × Fields) := do
  match ← ask (.source .config) with
  | .error .notExist =>
    if cfg.providerName ≠ defaultProviderName then refuse .noRendered else throw (.failed [])
  | .error .failed => throw (.failed [])
  | .ok raw => do
    let rendered ← orRefuse .nodeIP (substituteNodeIP L raw cfg.nodeIP)
    let entry ← orRefuse .document (renderedProvider L rendered cfg.providerName)
    match validateEntry L entry with
    | [] => return (rendered, entry)
    | problems => refuse (.entry problems)

/-- One install pass. -/
def run : Pass Unit := do
  let (rendered, entry) ← readRendered L cfg
  match cfg.mode with
  | .none => runNone L cfg rendered entry
  | .auto => locked nodeLockPath (autoPass L cfg rendered entry)
  | .patch => locked nodeLockPath do
    let wiring ← discoverKubelet
    patchPass L cfg rendered entry wiring false
  | .merge => locked nodeLockPath do
    let wiring ← mergeTargets cfg
    mergePass L cfg rendered entry wiring

end

end HarborBridge.Installer
