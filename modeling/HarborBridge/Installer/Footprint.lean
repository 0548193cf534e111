import HarborBridge.Installer.Host

/-!
# What each part of a pass touches

For each function of the installer, the files it writes and whether it restarts kubelet. Every
other read and every directory is free; the locks are not part of it.
-/

namespace HarborBridge.Installer

open GoStrings Document Interaction

/-- The files that may be written, and whether kubelet may be restarted. -/
structure Footprint where
  writes : Role → GoString → Prop
  restarts : Prop

namespace Footprint

def allows (F : Footprint) : NodeCall → Prop
  | .act (.replace r p _) | .act (.chmod r p _) | .act (.remove r p) => F.writes r p
  | .act .restart => F.restarts
  | .act (.lock _) | .unlock _ => False
  | _ => True

def quiet : Footprint := ⟨fun _ _ => False, False⟩

structure File (F : Footprint) (r : Role) (p : GoString) : Prop where
  file : F.writes r p
  backup : F.writes .backup (p ++ backupSuffix)

/-- The files of the install in the bin dir and in `plugin.hostConfigDir` may be written. -/
structure Install (F : Footprint) (cfg : Config) (binDir : GoString) : Prop where
  ca : F.File .aux (auxPath cfg cfg.files.ca)
  clientCert : F.File .aux (auxPath cfg cfg.files.clientCert)
  clientKey : F.File .aux (auxPath cfg cfg.files.clientKey)
  record : F.File .record (recordPath binDir cfg.providerName)
  binary : F.File .binary (binaryPath binDir cfg.providerName)

end Footprint

def Stays {α : Type} (F : Footprint) (p : Pass α) : Prop := p.run.Only F.allows

section

variable {α β : Type} {F : Footprint}

theorem stays_bind {p : Pass α} {f : α → Pass β} (hp : Stays F p) (hf : ∀ a, Stays F (f a)) :
    Stays F (p >>= f) := Prog.only_run_bind hp hf

theorem stays_pure (a : α) : Stays F (pure a : Pass α) := trivial

theorem stays_throw (e : Err) : Stays F (throw e : Pass α) := trivial

theorem stays_ask {c : NodeCall} (h : F.allows c) : Stays F (ask c) :=
  Prog.only_lift ⟨h, fun _ => trivial⟩

theorem stays_attempt (a : Act) (e : Err) (h : F.allows (.act a)) : Stays F (attempt a e) := by
  refine stays_bind (stays_ask h) fun ok => ?_
  split_ifs
  · exact stays_pure _
  · exact stays_throw _

theorem stays_onlyIf {b : Bool} {p : Pass Unit} (h : b = true → Stays F p) : Stays F (onlyIf b p) := by
  cases b with
  | true => exact h rfl
  | false => exact stays_pure _

theorem stays_orRefuse {ε : Type} (f : ε → Refusal) (r : Except ε α) : Stays F (orRefuse f r) := by
  cases r <;> trivial

theorem stays_mkdir (dir : GoString) : Stays F (mkdir dir) := stays_attempt (.mkdir dir) _ trivial

theorem stays_replaceFile {r : Role} {p : GoString} (h : F.writes r p) (f : HostFile) :
    Stays F (replaceFile r p f) := stays_attempt (.replace r p f) _ h

/-! ## Files -/

theorem stays_writeIn {r : Role} {p : GoString} (h : F.File r p) (data : GoString)
    (m : Option HostFile → FileMeta) : Stays F (writeIn r p data m) := by
  refine stays_bind (stays_ask trivial) fun d => ?_
  split
  · exact stays_throw _
  · exact stays_bind (stays_replaceFile h.file _) fun _ => stays_pure _
  · split_ifs
    · exact stays_bind (stays_onlyIf fun _ => stays_attempt (.chmod r p _) _ h.file) fun _ => stays_pure _
    · exact stays_bind (stays_replaceFile h.backup _) fun _ =>
        stays_bind (stays_replaceFile h.file _) fun _ => stays_pure _

theorem stays_writeFileAtomic {r : Role} {p : GoString} (h : F.File r p) (data : GoString) (perm : Nat) :
    Stays F (writeFileAtomic r p data perm) :=
  stays_bind (stays_mkdir _) fun _ => stays_writeIn h _ _

theorem stays_writeForeignFile {r : Role} {p : GoString} (h : F.File r p) (data : GoString) :
    Stays F (writeForeignFile r p data) :=
  stays_bind (stays_mkdir _) fun _ => stays_writeIn h _ _

theorem stays_readPrior (r : Role) (p : GoString) : Stays F (readPrior r p) := by
  refine stays_bind (stays_ask trivial) fun d => ?_
  unfold priorIn
  split
  · exact stays_pure _
  · exact stays_pure _
  · exact stays_throw _

theorem stays_restoreIn {r : Role} {p : GoString} (h : F.File r p) (prior : Option HostFile) :
    Stays F (restoreIn r p prior) := by
  cases prior with
  | some f => exact stays_bind (stays_writeIn h _ _) fun _ => stays_pure _
  | none =>
    refine stays_bind (stays_ask trivial) fun d => ?_
    split
    · exact stays_pure _
    · exact stays_attempt (.remove r p) _ h.file
    · exact stays_throw _

theorem stays_copyFileIn {r : Role} {p : GoString} (h : F.File r p) (s : Source) (perm : Nat) :
    Stays F (copyFileIn r s p perm) := by
  refine stays_bind (stays_ask trivial) fun data => ?_
  split
  · exact stays_throw _
  · exact stays_writeIn h _ _

theorem stays_copyFile {r : Role} {p : GoString} (h : F.File r p) (s : Source) (perm : Nat) :
    Stays F (copyFile r s p perm) := by
  refine stays_bind (stays_ask trivial) fun data => ?_
  split
  · exact stays_throw _
  · exact stays_writeFileAtomic h _ _

/-! ## The files of an install -/

variable {L : Library} {cfg : Config}

theorem stays_loadState : Stays F (loadState L cfg) := by
  refine stays_bind (stays_ask trivial) fun d => ?_
  split
  · exact stays_pure _
  · exact stays_throw _
  · exact stays_pure _

theorem stays_saveState (h : F.File .state cfg.statePath) (s : State) : Stays F (saveState L cfg s) :=
  stays_bind (stays_writeFileAtomic h _ _) fun _ => stays_pure _

theorem stays_writeRecord {binDir : GoString} (h : F.File .record (recordPath binDir cfg.providerName))
    (r : EntryRecord) : Stays F (writeRecord L cfg binDir r) :=
  stays_bind (stays_writeFileAtomic h _ _) fun _ => stays_pure _

theorem stays_checkBinaryOwnership (binDir : GoString) : Stays F (checkBinaryOwnership cfg binDir) := by
  refine stays_bind (stays_ask trivial) fun d => ?_
  split_ifs
  · exact stays_pure _
  · split
    · exact stays_pure _
    · exact stays_throw _
    · refine stays_bind (stays_ask trivial) fun ours => ?_
      split
      · exact stays_throw _
      · split_ifs
        · exact stays_pure _
        · exact stays_throw _

theorem stays_syncAuxFiles {binDir : GoString} (h : F.Install cfg binDir) : Stays F (syncAuxFiles cfg) := by
  refine stays_bind (stays_mkdir _) fun _ => stays_bind (stays_copyFileIn h.ca _ _) fun _ => ?_
  exact stays_onlyIf fun _ => stays_bind (stays_copyFileIn h.clientCert _ _) fun _ =>
    stays_bind (stays_copyFileIn h.clientKey _ _) fun _ => stays_pure _

theorem stays_installPluginBinary {binDir : GoString} (h : F.Install cfg binDir) (entryJSON chartOwned : GoString) :
    Stays F (installPluginBinary L cfg binDir entryJSON chartOwned) := by
  refine stays_bind ?_ fun _ => stays_bind (stays_copyFile h.binary _ _) fun _ => stays_pure _
  exact stays_bind (stays_ask trivial) fun _ => stays_bind (stays_writeRecord h.record _) fun _ => stays_pure _

theorem stays_installFiles {binDir : GoString} (h : F.Install cfg binDir) (entryJSON chartOwned : GoString) :
    Stays F (installFiles L cfg binDir entryJSON chartOwned) :=
  stays_bind (stays_checkBinaryOwnership binDir) fun _ => stays_bind (stays_syncAuxFiles h) fun _ =>
    stays_installPluginBinary h _ _

/-! ## The configs -/

theorem stays_chartOwnedConfigIn (own : Wiring) (rendered : GoString) (entry : Fields) :
    Stays F (chartOwnedConfigIn L cfg own rendered entry) := by
  refine stays_bind (stays_readPrior _ _) fun prior => ?_
  split
  · exact stays_pure _
  · exact stays_bind (stays_ask trivial) fun _ => stays_bind (stays_orRefuse _ _) fun _ => stays_pure _

theorem stays_keptSiblings (rendered : GoString) (entry : Fields) :
    Stays F (keptSiblings L cfg rendered entry) :=
  stays_bind (stays_mkdir _) fun _ => stays_bind (stays_chartOwnedConfigIn _ _ _) fun _ => stays_pure _

theorem stays_blockingInstalls (current : Wiring) (rendered : GoString) (entry : Fields) :
    Stays F (blockingInstalls L cfg current rendered entry) := by
  unfold blockingInstalls
  split_ifs
  · exact stays_pure _
  · refine stays_bind (stays_ask trivial) fun d => ?_
    split
    · exact stays_throw _
    · refine stays_bind (stays_ask trivial) fun d => ?_
      split
      · exact stays_throw _
      · dsimp only
        split_ifs
        · exact stays_pure _
        · exact stays_bind (stays_keptSiblings _ _) fun _ => stays_pure _

theorem stays_patchedEnv (own : Wiring) : Stays F (patchedEnv own) := by
  refine stays_bind (stays_ask trivial) fun env => ?_
  split
  · exact stays_throw _
  · exact stays_bind (stays_ask trivial) fun _ => stays_bind (stays_orRefuse _ _) fun _ =>
      stays_bind (stays_readPrior _ _) fun _ => stays_bind (stays_orRefuse _ _) fun _ => stays_pure _

theorem stays_checkKubeletCanStart (merged : GoString) (wiring : Wiring) :
    Stays F (checkKubeletCanStart L cfg merged wiring) := by
  refine stays_bind (stays_ask trivial) fun d => stays_bind (stays_onlyIf fun _ => stays_throw _) fun _ =>
    stays_bind (stays_orRefuse _ _) fun problems => ?_
  split <;> trivial

theorem stays_mergedConfig (rendered : GoString) (entry : Fields) (wiring : Wiring) (prior : HostFile) :
    Stays F (mergedConfig L cfg rendered entry wiring prior) := by
  refine stays_bind (stays_ask trivial) fun d => ?_
  dsimp only
  generalize (if wiring.configFile = cfg.ownConfigPath then some true
    else claimsChartOwned L d wiring.binDir wiring.configFile) = claimed
  split
  · exact stays_throw _
  · exact stays_bind (stays_orRefuse _ _) fun _ => stays_pure _
  · exact stays_bind (stays_orRefuse _ _) fun _ => stays_bind (stays_checkKubeletCanStart _ _) fun _ =>
      stays_pure _

theorem stays_openDirOf (p : GoString) : Stays F (openDirOf cfg p) := by
  unfold openDirOf
  split_ifs
  · exact stays_mkdir _
  · refine stays_bind (stays_ask trivial) fun d => ?_
    split_ifs
    · exact stays_pure _
    · exact stays_throw _

theorem stays_discoverKubelet : Stays F discoverKubelet := by
  refine stays_bind (stays_ask trivial) fun c => ?_
  split
  · exact stays_throw _
  · dsimp only
    split_ifs
    · exact stays_pure _
    · exact stays_throw _

theorem stays_wiredByOwnPatch (wiring : Wiring) : Stays F (wiredByOwnPatch L cfg wiring) :=
  stays_bind stays_loadState fun _ => stays_pure _

theorem stays_readRendered : Stays F (readRendered L cfg) := by
  refine stays_bind (stays_ask trivial) fun raw => ?_
  split
  · split_ifs <;> trivial
  · exact stays_throw _
  · refine stays_bind (stays_orRefuse _ _) fun _ => stays_bind (stays_orRefuse _ _) fun _ => ?_
    split <;> trivial

/-! ## The restart -/

theorem stays_kubeletIdentity : Stays F kubeletIdentity := by
  refine stays_bind (stays_ask trivial) fun parts => ?_
  split <;> trivial

theorem stays_refuseRejected (t : Target) : Stays F (refuseRejected L cfg t) := by
  refine stays_bind stays_loadState fun st => ?_
  split
  · exact stays_pure _
  · split_ifs
    · exact stays_throw _
    · refine stays_bind stays_kubeletIdentity fun now => ?_
      split_ifs
      · exact stays_throw _
      · exact stays_pure _

theorem only_restoreAll {rb : List (Pass Unit)} (h : ∀ step ∈ rb, Stays F step) :
    (restoreAll rb).Only F.allows := by
  induction rb with
  | nil => trivial
  | cons step rb ih =>
    refine Prog.only_bind (h step List.mem_cons_self) fun r => ?_
    exact Prog.only_bind (ih fun s hs => h s (List.mem_cons_of_mem _ hs)) fun _ => trivial

theorem only_restartKubelet (h : F.restarts) (want : Option Wiring) : (restartKubelet want).Only F.allows := by
  refine ⟨h, fun ok => ?_⟩
  cases ok with
  | true => exact ⟨trivial, fun _ => trivial⟩
  | false => trivial

theorem stays_rejectRestart (h : F.File .state cfg.statePath) (hr : F.restarts) {rb : List (Pass Unit)}
    (hrb : ∀ step ∈ rb, Stays F step) (st : Option State) (t : Target) (changedNow : Bool) :
    Stays F (rejectRestart L cfg st t changedNow rb) := by
  refine stays_bind (stays_onlyIf fun _ => ?_) fun _ => stays_bind stays_kubeletIdentity fun _ =>
    stays_bind (Prog.only_lift (stays_saveState h _)) fun _ => stays_throw _
  exact stays_bind (Prog.only_lift (only_restoreAll hrb)) fun _ =>
    stays_bind (Prog.only_lift (only_restartKubelet hr _)) fun _ => stays_pure _

theorem stays_abandonRestart {rb : List (Pass Unit)} (hrb : ∀ step ∈ rb, Stays F step) (changedNow : Bool) :
    Stays F (abandonRestart cfg changedNow rb) :=
  stays_bind (stays_onlyIf fun _ => stays_bind (Prog.only_lift (only_restoreAll hrb)) fun _ => stays_pure _)
    fun _ => stays_throw _

theorem stays_restartOnto (h : F.File .state cfg.statePath) (hr : F.restarts) {rb : List (Pass Unit)}
    (hrb : ∀ step ∈ rb, Stays F step) (st : Option State) (t : Target) (changedNow : Bool)
    (want : Option Wiring) : Stays F (restartOnto L cfg st t changedNow want rb) := by
  refine stays_bind (stays_ask trivial) fun ok => ?_
  split_ifs
  · refine stays_bind (Prog.only_lift (only_restartKubelet hr _)) fun well => ?_
    split_ifs
    · exact stays_saveState h _
    · exact stays_rejectRestart h hr hrb _ _ _
  · exact stays_abandonRestart hrb _

theorem stays_finishWithRestart (h : F.File .state cfg.statePath) (hr : F.restarts) {rb : List (Pass Unit)}
    (hrb : ∀ step ∈ rb, Stays F step) (t : Target) (changedNow : Bool) (want : Option Wiring) :
    Stays F (finishWithRestart L cfg t changedNow want rb) := by
  refine stays_bind stays_loadState fun st => ?_
  split_ifs
  · exact stays_pure _
  · exact stays_saveState h _
  · exact stays_restartOnto h hr hrb _ _ _ _

/-! ## The modes -/

theorem stays_applyNone (h : F.Install cfg cfg.hostBinDir) (hconfig : F.File .config cfg.ownConfigPath)
    (entryJSON desired : GoString) : Stays F (applyNone L cfg entryJSON desired) :=
  stays_bind (stays_installFiles h _ _) fun _ => stays_bind (stays_writeIn hconfig _ _) fun _ =>
    stays_writeRecord h.record _

structure Footprint.Patch (F : Footprint) (cfg : Config) (plan : PatchPlan) : Prop where
  install : F.Install cfg plan.own.binDir
  config : F.File .config plan.own.configFile
  environment : F.File .environment plan.envFile
  state : F.File .state cfg.statePath
  restarts : F.restarts

theorem stays_applyPatch {plan : PatchPlan} (h : F.Patch cfg plan) : Stays F (applyPatch L cfg plan) := by
  refine stays_bind (stays_installFiles h.install _ _) fun r =>
    stays_bind (stays_writeIn h.config _ _) fun _ =>
    stays_bind (stays_writeRecord h.install.record _) fun _ =>
    stays_bind (stays_writeForeignFile h.environment _) fun _ =>
    stays_finishWithRestart h.state h.restarts (fun step hstep => ?_) _ _ _
  simp only [List.mem_cons, List.not_mem_nil, or_false] at hstep
  rcases hstep with rfl | rfl | rfl
  · exact stays_writeRecord h.install.record _
  · exact stays_restoreIn h.config _
  · exact stays_restoreIn h.environment _

structure Footprint.Merge (F : Footprint) (cfg : Config) (plan : MergePlan) : Prop where
  install : F.Install cfg plan.wiring.binDir
  config : F.File .config plan.wiring.configFile
  state : F.File .state cfg.statePath
  restarts : F.restarts

theorem stays_applyMerge {plan : MergePlan} (h : F.Merge cfg plan) : Stays F (applyMerge L cfg plan) := by
  refine stays_bind (stays_installFiles h.install _ _) fun r =>
    stays_bind (stays_writeIn h.config _ _) fun _ =>
    stays_bind (stays_writeRecord h.install.record _) fun _ =>
    stays_finishWithRestart h.state h.restarts (fun step hstep => ?_) _ _ _
  simp only [List.mem_cons, List.not_mem_nil, or_false] at hstep
  rcases hstep with rfl | rfl
  · exact stays_writeRecord h.install.record _
  · exact stays_restoreIn h.config _

end

end HarborBridge.Installer
