import HarborBridge.Lib.Locks
import HarborBridge.Installer.Footprint
import HarborBridge.Installer.Paths
import HarborBridge.Installer.SampleNode

/-!
# The installers' locks

Package main of the installer, lock.go: the locks that several installers on one node take, in
which order, and what they do under them.
-/

namespace HarborBridge.Installer

open GoStrings Document Interaction

def Act.writesConfig : Act → Option GoString
  | .replace .config p _ => some p
  | .chmod .config p _ => some p
  | .remove .config p => some p
  | _ => none

/-- The config whose lock would be the node lock. -/
def nodeLockConfig : GoString := lit "/run/harbor-bridge-installer"

/-- What a pass holds: its locks, the configs it read since it took their locks, and the paths it
saw to be directories. -/
structure Custody where
  locks : List GoString
  reads : List GoString
  dirs : List GoString

namespace Custody

def learn (k : Custody) : (c : NodeCall) → c.Answer → Custody
  | .act (.lock p), ok => if ok then { k with locks := p :: k.locks } else k
  | .unlock p, _ =>
    { k with
      locks := k.locks.filter fun q => decide (q ≠ p)
      reads := k.reads.filter fun q => decide (q ++ lockSuffix ≠ p) }
  | .look .config p, _ => if p ++ lockSuffix ∈ k.locks then { k with reads := p :: k.reads } else k
  | .look .directory p, d => if d.isHostDir p then { k with dirs := p :: k.dirs } else k
  | _, _ => k

/-- A pass takes its first lock, or another one after the node lock; it writes a config only
after it read it. -/
def may (k : Custody) : NodeCall → Prop
  | .act a => (∀ p, a = .lock p → k.locks = [] ∨ nodeLockPath ∈ k.locks ∧ p ∉ k.locks) ∧
      ∀ p, a.writesConfig = some p → p ∈ k.reads
  | _ => True

/-- A directory stays one, and kubelet's config is not the one whose lock is the node lock. -/
def answers (k : Custody) : (c : NodeCall) → c.Answer → Prop
  | .look _ _, d => ∀ p ∈ k.dirs, d.isHostDir p = true
  | .cmdline, c => ∀ argv, c = some argv → flagValue argv flagConfigFile ≠ nodeLockConfig
  | _, _ => True

structure Le (k k' : Custody) : Prop where
  locks : k'.locks = k.locks
  reads : k.reads ⊆ k'.reads
  dirs : k.dirs ⊆ k'.dirs

theorem Le.rfl {k : Custody} : k.Le k := ⟨Eq.refl _, List.Subset.refl _, List.Subset.refl _⟩

theorem Le.trans {k k' k'' : Custody} (h : k.Le k') (h' : k'.Le k'') : k.Le k'' :=
  ⟨h'.locks.trans h.locks, List.Subset.trans h.reads h'.reads, List.Subset.trans h.dirs h'.dirs⟩

end Custody

def custody : Setting NodeCall NodeCall.Answer Custody where
  sem k c r k' := k.answers c r ∧ k.learn c r = k'
  may := Custody.may

/-! ## Passes that take no lock -/

section

variable {α : Type} {L : Library} {cfg : Config} {k : Custody}

def besides (configs : List GoString) : Footprint := ⟨fun r p => r = .config → p ∈ configs, True⟩

theorem besides_file {configs : List GoString} {r : Role} {p : GoString} (h : r = .config → p ∈ configs) :
    (besides configs).File r p := ⟨h, fun hr => Role.noConfusion hr⟩

theorem besides_install (configs : List GoString) (binDir : GoString) :
    (besides configs).Install cfg binDir where
  ca := besides_file fun hr => Role.noConfusion hr
  clientCert := besides_file fun hr => Role.noConfusion hr
  clientKey := besides_file fun hr => Role.noConfusion hr
  record := besides_file fun hr => Role.noConfusion hr
  binary := besides_file fun hr => Role.noConfusion hr

theorem learn_look (k : Custody) (r : Role) (p : GoString) (d : Disk) : k.Le (k.learn (.look r p) d) := by
  cases r with
  | config =>
    by_cases h : p ++ lockSuffix ∈ k.locks
    · simp only [Custody.learn, if_pos h]
      exact ⟨rfl, List.subset_cons_self _ _, List.Subset.refl _⟩
    · simp only [Custody.learn, if_neg h]
      exact Custody.Le.rfl
  | directory =>
    by_cases h : d.isHostDir p = true
    · simp only [Custody.learn, if_pos h]
      exact ⟨rfl, List.Subset.refl _, List.subset_cons_self _ _⟩
    · simp only [Custody.learn, if_neg h]
      exact Custody.Le.rfl
  | _ => exact Custody.Le.rfl

/-- Such a pass touches no lock and writes no config that it has not read. -/
theorem stays_custody {configs : List GoString} {p : Pass α} (hp : Stays (besides configs) p)
    (hk : configs ⊆ k.reads) : p.run.Wp custody (fun _ k' => k.Le k') k := by
  refine Prog.wp_only hp (fun k' c hle hc => ?_) Custody.Le.rfl
  have hmay : custody.may k' c := by
    cases c with
    | act a =>
      refine ⟨fun p ha => ?_, fun p ha => ?_⟩
      · subst ha
        exact hc.elim
      · cases a with
        | replace r q f => cases r <;> cases ha; exact hle.reads (hk (hc rfl))
        | chmod r q m => cases r <;> cases ha; exact hle.reads (hk (hc rfl))
        | remove r q => cases r <;> cases ha; exact hle.reads (hk (hc rfl))
        | _ => cases ha
    | _ => trivial
  refine ⟨hmay, ?_⟩
  rintro r k'' ⟨-, rfl⟩
  refine hle.trans ?_
  cases c with
  | look role q => exact learn_look k' role q r
  | unlock q => exact hc.elim
  | act a =>
    cases a with
    | lock q => exact hc.elim
    | _ => exact Custody.Le.rfl
  | _ => exact Custody.Le.rfl

/-! ## Reading a config under its lock -/

/-- The config's lock is held, or the config is a directory, which is never read or written. -/
def Ready (k : Custody) (p : GoString) : Prop := p ++ lockSuffix ∈ k.locks ∨ p ∈ k.dirs

theorem Ready.le {k k' : Custody} {p : GoString} (h : Ready k p) (hle : k.Le k') : Ready k' p := by
  rcases h with h | h
  · exact .inl (hle.locks ▸ h)
  · exact .inr (hle.dirs h)

def ReadsFirst (k : Custody) (p : GoString) (r : Except Err α) (k' : Custody) : Prop :=
  k.Le k' ∧ (r.isOk = true → p ∈ k'.reads)

theorem readPrior_reads {p : GoString} (h : Ready k p) :
    (readPrior .config p).run.Wp custody (ReadsFirst k p) k := by
  refine ⟨trivial, ?_⟩
  rintro d k' ⟨hdirs, rfl⟩
  rcases h with h | h
  · have hlearn : p ∈ (k.learn (.look .config p) d).reads := by
      simp only [Custody.learn, if_pos h]
      exact List.mem_cons_self
    have hle := learn_look k .config p d
    change (priorIn d p).run.Wp custody (ReadsFirst k p) _
    unfold priorIn
    split
    · exact ⟨hle, fun _ => hlearn⟩
    · exact ⟨hle, fun _ => hlearn⟩
    · exact ⟨hle, fun hok => Bool.noConfusion hok⟩
  · have hfails : d.openRegular p = .error .failed := by
      have hdir := hdirs p h
      rw [Disk.isHostDir, beq_iff_eq] at hdir
      rw [Disk.openRegular, hdir]
    change (priorIn d p).run.Wp custody (ReadsFirst k p) _
    rw [priorIn, hfails]
    exact ⟨learn_look k .config p d, fun hok => Bool.noConfusion hok⟩

/-- What follows the read keeps to the configs read. -/
theorem ReadsFirst.seq {β : Type} {p : GoString} {m : Pass α} {f : α → Pass β} (hm : m.run.Wp custody (ReadsFirst k p) k)
    (hf : ∀ a, Stays (besides [p]) (f a)) : (m >>= f).run.Wp custody (ReadsFirst k p) k := by
  refine Prog.wp_run_seq hm (fun a k' hread => ?_) fun e k' hread => ⟨hread.1, fun hok => Bool.noConfusion hok⟩
  have hmem := hread.2 rfl
  refine Prog.wp_mono (fun r k'' hle => ?_) _ _ (stays_custody (hf a) (by simpa using hmem))
  exact ⟨hread.1.trans hle, fun _ => hle.reads hmem⟩

theorem chartOwnedConfigIn_reads {own : Wiring} (h : Ready k own.configFile) (rendered : GoString)
    (entry : Fields) :
    (chartOwnedConfigIn L cfg own rendered entry).run.Wp custody (ReadsFirst k own.configFile) k := by
  refine ReadsFirst.seq (readPrior_reads h) fun prior => ?_
  split
  · exact stays_pure _
  · exact stays_bind (stays_ask trivial) fun _ => stays_bind (stays_orRefuse _ _) fun _ => stays_pure _

theorem stays_seq {β : Type} {m : Pass α} {f : α → Pass β} {Q : Except Err β → Custody → Prop}
    (hm : Stays (besides []) m) (hf : ∀ a k', k.Le k' → (f a).run.Wp custody Q k')
    (herr : ∀ e k', k.Le k' → Q (.error e) k') : (m >>= f).run.Wp custody Q k :=
  Prog.wp_run_seq (stays_custody hm (List.nil_subset _)) hf herr

theorem planPatch_own (rendered : GoString) (entry : Fields) (own : Wiring) :
    Yields (fun plan => plan.own = own) (planPatch L cfg rendered entry own) :=
  yields_seq fun _ => yields_seq fun _ => yields_seq fun _ => yields_seq fun _ => yields_pure rfl

theorem planPatch_reads {own : Wiring} (h : Ready k own.configFile) (rendered : GoString) (entry : Fields) :
    (planPatch L cfg rendered entry own).run.Wp custody (ReadsFirst k own.configFile) k := by
  refine stays_seq (stays_mkdir _) (fun _ k' hle => ?_) fun e k' hle => ⟨hle, fun hok => Bool.noConfusion hok⟩
  refine Prog.wp_mono (fun r k'' hread => ⟨hle.trans hread.1, hread.2⟩) _ _
    (ReadsFirst.seq (chartOwnedConfigIn_reads (h.le hle) rendered entry) fun a => ?_)
  exact stays_bind (stays_patchedEnv _) fun _ => stays_bind (stays_refuseRejected _) fun _ => stays_pure _

theorem runPatchOn_custody {own : Wiring} (h : Ready k own.configFile) (rendered : GoString) (entry : Fields) :
    (runPatchOn L cfg rendered entry own).run.Wp custody (fun _ k' => k.Le k') k := by
  refine Prog.wp_run_seq (Prog.wp_returns (planPatch_reads h rendered entry) (planPatch_own rendered entry own))
    (fun plan k' hplan => ?_) fun e k' hplan => hplan.2.1
  obtain ⟨hown, hle, hmem⟩ := hplan
  have hown := hown plan rfl
  refine Prog.wp_mono (fun r k'' hle' => hle.trans hle') _ _
    (stays_custody (stays_applyPatch (F := besides [own.configFile]) ?_) (by simpa using hmem rfl))
  exact ⟨besides_install _ _, besides_file fun _ => by simp [hown],
    besides_file fun hr => Role.noConfusion hr, besides_file fun hr => Role.noConfusion hr, trivial⟩

theorem planMerge_wiring (rendered : GoString) (entry : Fields) (wiring : Wiring) :
    Yields (fun plan => plan.wiring = wiring) (planMerge L cfg rendered entry wiring) := by
  refine yields_seq fun prior => ?_
  split
  · exact yields_throw _
  · exact yields_seq fun _ => yields_seq fun _ => yields_pure rfl

theorem planMerge_reads {wiring : Wiring} (h : Ready k wiring.configFile) (rendered : GoString) (entry : Fields) :
    (planMerge L cfg rendered entry wiring).run.Wp custody (ReadsFirst k wiring.configFile) k := by
  refine ReadsFirst.seq (readPrior_reads h) fun prior => ?_
  split
  · exact stays_throw _
  · exact stays_bind (stays_mergedConfig _ _ _ _) fun _ => stays_bind (stays_refuseRejected _) fun _ =>
      stays_pure _

theorem applyMerge_custody {wiring : Wiring} (h : Ready k wiring.configFile) (rendered : GoString)
    (entry : Fields) : (planMerge L cfg rendered entry wiring >>= applyMerge L cfg).run.Wp custody
      (fun _ k' => k.Le k') k := by
  refine Prog.wp_run_seq (Prog.wp_returns (planMerge_reads h rendered entry)
    (planMerge_wiring rendered entry wiring)) (fun plan k' hplan => ?_) fun e k' hplan => hplan.2.1
  obtain ⟨hwiring, hle, hmem⟩ := hplan
  have hwiring := hwiring plan rfl
  refine Prog.wp_mono (fun r k'' hle' => hle.trans hle') _ _
    (stays_custody (stays_applyMerge (F := besides [wiring.configFile]) ?_) (by simpa using hmem rfl))
  exact ⟨besides_install _ _, besides_file fun _ => by simp [hwiring],
    besides_file fun hr => Role.noConfusion hr, trivial⟩

/-- A pass that keeps what is known, and then another. -/
theorem keeps_seq {β : Type} {m : Pass α} {f : α → Pass β} (hm : m.run.Wp custody (fun _ k' => k.Le k') k)
    (hf : ∀ a k', k.Le k' → (f a).run.Wp custody (fun _ k'' => k'.Le k'') k') :
    (m >>= f).run.Wp custody (fun _ k' => k.Le k') k :=
  Prog.wp_run_seq hm (fun a k' hle => Prog.wp_mono (fun _ _ h => hle.trans h) _ _ (hf a k' hle))
    fun _ _ h => h

theorem stageConfig_custody (h : Ready k cfg.ownConfigPath) (rendered : GoString) (entry : Fields) :
    (stageConfig L cfg rendered entry).run.Wp custody (fun _ k' => k.Le k') k := by
  refine keeps_seq (stays_custody  (stays_mkdir _) (List.nil_subset _)) fun _ k' hle => ?_
  refine Prog.wp_mono (fun r k'' hread => hread.1) _ _
    (ReadsFirst.seq (p := cfg.ownConfigPath) (@chartOwnedConfigIn_reads L cfg k' cfg.ownWiring (h.le hle) rendered entry)
      fun a => ?_)
  exact stays_bind (stays_writeIn (besides_file fun _ => by simp) _ _) fun _ => stays_pure _

theorem stageOwnFiles_custody {old : Wiring} (h : Ready k cfg.ownConfigPath) (rendered : GoString)
    (entry : Fields) :
    (stageOwnFiles L cfg rendered entry old).run.Wp custody (fun _ k' => k.Le k') k := by
  refine keeps_seq (stays_custody  (stays_onlyIf fun _ => stays_bind
    (stays_installFiles (besides_install _ _) _ _) fun _ => stays_pure _) (List.nil_subset _)) fun _ k' hle => ?_
  refine keeps_seq ?_ fun _ k'' _ => stays_custody  (stays_onlyIf fun _ =>
    stays_writeRecord (besides_install _ _).record _) (List.nil_subset _)
  unfold onlyIf
  split_ifs
  · exact stageConfig_custody (h.le hle) rendered entry
  · exact Custody.Le.rfl

theorem stayAndStage_custody {old : Wiring} (hold : Ready k old.configFile) (h : Ready k cfg.ownConfigPath)
    (rendered : GoString) (entry : Fields) :
    (stayAndStage L cfg rendered entry old).run.Wp custody (fun _ k' => k.Le k') k := by
  unfold stayAndStage
  split_ifs
  · exact Custody.Le.rfl
  · exact Custody.Le.rfl
  · refine keeps_seq (runPatchOn_custody hold rendered entry) fun _ k' hle => ?_
    exact stageOwnFiles_custody (h.le hle) rendered entry

/-! ## Taking locks -/

/-- A lock that may be taken, and a body that may run under it. -/
theorem locked_custody {p : GoString} {body : Pass α}
    (hmay : k.locks = [] ∨ nodeLockPath ∈ k.locks ∧ p ∉ k.locks)
    (hbody : body.run.Wp custody (fun _ _ => True) { k with locks := p :: k.locks }) :
    (locked p body).run.Wp custody (fun _ _ => True) k := by
  refine Prog.wp_run_seq (P := fun r k' => r.isOk = true → k' = { k with locks := p :: k.locks })
    (wp_attempt ⟨fun q hq => Act.lock.inj hq ▸ hmay, fun q hq => by cases hq⟩ ?_ ?_) (fun _ k' hk' => ?_)
    fun _ _ _ => trivial
  · rintro k' ⟨-, rfl⟩ -
    rfl
  · rintro k' - hok
    cases hok
  · rw [hk' rfl]
    exact Prog.wp_seq hbody fun r k'' _ => ⟨trivial, fun _ _ _ => trivial⟩

theorem lockConfig_custody {p : GoString} {body : Pass α} (hnode : nodeLockPath ∈ k.locks)
    (hp : p ∉ k.locks)
    (hbody : ∀ k' : Custody, k'.locks = p :: k.locks → k.dirs ⊆ k'.dirs →
      body.run.Wp custody (fun _ _ => True) k') :
    (lockConfig p body).run.Wp custody (fun _ _ => True) k := by
  refine stays_seq (stays_mkdir _) (fun _ k' hle => ?_) fun _ _ _ => trivial
  refine locked_custody (.inr (by rw [hle.locks]; exact ⟨hnode, hp⟩)) (hbody _ ?_ hle.dirs)
  rw [hle.locks]

theorem weaken {m : Pass α} (h : m.run.Wp custody (fun _ k' => k.Le k') k) :
    m.run.Wp custody (fun _ _ => True) k := Prog.wp_mono (fun _ _ _ => trivial) _ _ h

theorem pathJoin_lock_ne (dir : GoString) : pathJoin dir configFileName ++ lockSuffix ≠ nodeLockPath := by
  intro h
  obtain ⟨above, hjoin⟩ := pathJoin_ends dir configFileName_baseName
  have hnode : nodeLockPath = lit "/run" ++ 47 :: lit "harbor-bridge-installer.lock" := by decide
  rw [hjoin, List.append_assoc, List.cons_append, hnode] at h
  have hname := (last_inj (by decide) (by decide) h).2
  exact absurd hname (by decide)

theorem configLockPath_ne {d : Disk} {p : GoString} (hp : p ≠ nodeLockConfig) :
    configLockPath d p ≠ nodeLockPath := by
  unfold configLockPath chartOwnedPathIn
  split_ifs
  · exact pathJoin_lock_ne p
  · intro h
    have hnode : nodeLockPath = nodeLockConfig ++ lockSuffix := by decide
    rw [hnode] at h
    exact hp (List.append_cancel_right h)

theorem blockingInstalls_wired (current : Wiring) (rendered : GoString) (entry : Fields) :
    Yields (fun others => others ≠ [] → current.wired = true) (blockingInstalls L cfg current rendered entry) := by
  unfold blockingInstalls
  split_ifs with h
  · exact yields_pure fun hne => absurd rfl hne
  · rw [Bool.or_eq_true, not_or, Bool.not_eq_true', Bool.not_eq_false] at h
    exact Prog.returns_mono (fun _ _ _ _ _ => h.1) _ (Prog.returns_true _)

/-- What a patch-mode pass does under its locks. -/
theorem patchBody_custody {wiring : Wiring} (hwired : wiring.wired = true → Ready k wiring.configFile)
    (hown : cfg.ownConfigPath ++ lockSuffix ∈ k.locks) (rendered : GoString) (entry : Fields) (moving : Bool) :
    (do
      let others ← blockingInstalls L cfg wiring rendered entry
      if others = [] then runPatchOn L cfg rendered entry cfg.ownWiring
      else if moving then stayAndStage L cfg rendered entry wiring
      else refuse (.rewire others) : Pass Unit).run.Wp custody (fun _ _ => True) k := by
  refine Prog.wp_run_seq (Prog.wp_returns (@stays_custody _ k [] _ (stays_blockingInstalls _ _ _)
    (List.nil_subset _)) (blockingInstalls_wired wiring rendered entry)) (fun others k' h => ?_) fun _ _ _ => trivial
  obtain ⟨hothers, hle⟩ := h
  have hready : Ready k' cfg.ownConfigPath := Ready.le (.inl hown) hle
  split_ifs with hnone hmoving
  · exact weaken (@runPatchOn_custody L cfg k' cfg.ownWiring hready rendered entry)
  · exact weaken (stayAndStage_custody ((hwired (hothers others rfl hnone)).le hle) hready rendered entry)
  · trivial

theorem lockPatchConfigs_custody {wiring : Wiring} {body : Pass α} (hlocks : k.locks = [nodeLockPath])
    (hconfig : wiring.configFile ≠ nodeLockConfig)
    (hbody : ∀ k' : Custody, cfg.ownConfigPath ++ lockSuffix ∈ k'.locks →
      (wiring.wired = true → Ready k' wiring.configFile) → body.run.Wp custody (fun _ _ => True) k') :
    (lockPatchConfigs cfg wiring body).run.Wp custody (fun _ _ => True) k := by
  have hownLock : cfg.ownConfigPath ++ lockSuffix ≠ nodeLockPath := pathJoin_lock_ne cfg.hostConfigDir
  unfold lockPatchConfigs
  dsimp only
  split_ifs with hwired
  · refine Prog.wp_run_seq (P := fun r k' => k'.locks = k.locks ∧ ∀ d, r = .ok d →
      d.isHostDir wiring.configFile = true → wiring.configFile ∈ k'.dirs)
      (wp_ask trivial ?_) (fun d k' hd => ?_) fun _ _ _ => trivial
    · rintro d k' ⟨-, rfl⟩
      refine ⟨(learn_look k .directory wiring.configFile d).locks, fun d' hd' hdir => ?_⟩
      cases hd'
      simp only [Custody.learn, if_pos hdir]
      exact List.mem_cons_self
    · obtain ⟨hlocks', hdirs⟩ := hd
      rw [hlocks] at hlocks'
      -- the lock of kubelet's config, or that of a config in the directory it is
      have hready : ∀ k'' : Custody, configLockPath d wiring.configFile ∈ k''.locks → k'.dirs ⊆ k''.dirs →
          Ready k'' wiring.configFile := by
        intro k'' hlock hsub
        by_cases hdir : d.isHostDir wiring.configFile = true
        · exact .inr (hsub (hdirs d rfl hdir))
        · rw [configLockPath, chartOwnedPathIn, if_neg hdir] at hlock
          exact .inl hlock
      split_ifs with hlock
      · refine lockConfig_custody (by simp [hlocks']) (by simp [hlocks', configLockPath_ne hconfig])
          fun k₁ hk₁ hsub₁ => ?_
        refine lockConfig_custody (by simp [hk₁, hlocks']) ?_ fun k₂ hk₂ hsub₂ => ?_
        · simp only [hk₁, hlocks', List.mem_cons, List.not_mem_nil, or_false, not_or]
          exact ⟨fun h => hlock h.symm, hownLock⟩
        · refine hbody k₂ (by simp [hk₂]) fun _ => hready k₂ (by simp [hk₂, hk₁]) ?_
          exact List.Subset.trans hsub₁ hsub₂
      · rw [not_not] at hlock
        refine lockConfig_custody (by simp [hlocks']) ?_ fun k₁ hk₁ hsub₁ => ?_
        · simp only [hlocks', List.mem_singleton]
          exact hownLock
        · exact hbody k₁ (by simp [hk₁]) fun _ => hready k₁ (by simp [hk₁, hlock]) hsub₁
  · refine lockConfig_custody (by simp [hlocks]) ?_ fun k₁ hk₁ _ => ?_
    · simp only [hlocks, List.mem_singleton]
      exact hownLock
    · exact hbody k₁ (by simp [hk₁]) fun h => absurd h hwired

theorem patchPass_custody {wiring : Wiring} (hlocks : k.locks = [nodeLockPath])
    (hconfig : wiring.configFile ≠ nodeLockConfig) (rendered : GoString) (entry : Fields) (moving : Bool) :
    (patchPass L cfg rendered entry wiring moving).run.Wp custody (fun _ _ => True) k :=
  lockPatchConfigs_custody hlocks hconfig fun _ hown hwired =>
    patchBody_custody hwired hown rendered entry moving

theorem mergePass_custody {wiring : Wiring} (hlocks : k.locks = [nodeLockPath])
    (hconfig : wiring.configFile ≠ nodeLockConfig) (rendered : GoString) (entry : Fields) :
    (mergePass L cfg rendered entry wiring).run.Wp custody (fun _ _ => True) k := by
  unfold mergePass
  split_ifs
  · trivial
  · refine stays_seq (stays_ask trivial) (fun d k' hle => ?_) fun _ _ _ => trivial
    split_ifs
    · trivial
    · trivial
    · refine stays_seq (stays_openDirOf _) (fun _ k'' hle' => ?_) fun _ _ _ => trivial
      have hlocks'' : k''.locks = [nodeLockPath] := by rw [hle'.locks, hle.locks, hlocks]
      refine locked_custody (.inr ?_) (weaken (applyMerge_custody (.inl ?_) rendered entry))
      · rw [hlocks'']
        refine ⟨by simp, ?_⟩
        have hne := configLockPath_ne (d := Disk.empty) hconfig
        rw [List.mem_singleton]
        exact hne
      · exact List.mem_cons_self

/-- The config of a discovered wiring is not the one whose lock is the node lock. -/
theorem discoverKubelet_custody : discoverKubelet.run.Wp custody
    (fun r k' => k'.locks = k.locks ∧ ∀ w, r = .ok w → w.configFile ≠ nodeLockConfig) k := by
  refine Prog.wp_run_seq (P := fun r k' => k' = k ∧ ∀ c, r = .ok c → k.answers .cmdline c) (wp_ask trivial ?_)
    (fun c k' hc => ?_) fun e k' hc => ⟨by rw [hc.1], fun w hw => by cases hw⟩
  · rintro c k' ⟨hc, rfl⟩
    exact ⟨rfl, fun c' hc' => by cases hc'; exact hc⟩
  · obtain ⟨rfl, hanswers⟩ := hc
    cases c with
    | none => exact ⟨rfl, fun w hw => by cases hw⟩
    | some argv =>
      dsimp only
      split_ifs
      · refine ⟨rfl, fun w hw => ?_⟩
        cases hw
        exact hanswers _ rfl argv rfl
      · exact ⟨rfl, fun w hw => by cases hw⟩

theorem autoPass_custody (hlocks : k.locks = [nodeLockPath]) (rendered : GoString) (entry : Fields) :
    (autoPass L cfg rendered entry).run.Wp custody (fun _ _ => True) k := by
  refine Prog.wp_run_seq discoverKubelet_custody (fun wiring k' h => ?_) fun _ _ _ => trivial
  obtain ⟨hlocks', hconfig⟩ := h
  rw [hlocks] at hlocks'
  split_ifs
  · exact patchPass_custody hlocks' (hconfig wiring rfl) rendered entry false
  · refine stays_seq (stays_wiredByOwnPatch wiring) (fun own k'' hle => ?_) fun _ _ _ => trivial
    have hlocks'' : k''.locks = [nodeLockPath] := hle.locks.trans hlocks'
    split_ifs
    · exact patchPass_custody hlocks'' (hconfig wiring rfl) rendered entry true
    · exact mergePass_custody hlocks'' (hconfig wiring rfl) rendered entry

theorem mergeTargets_custody (hmerge : cfg.mergeConfigFile ≠ nodeLockConfig) : (mergeTargets cfg).run.Wp custody
    (fun r k' => k'.locks = k.locks ∧ ∀ w, r = .ok w → w.configFile ≠ nodeLockConfig) k := by
  unfold mergeTargets
  split_ifs
  · exact ⟨rfl, fun w hw => by cases hw; exact hmerge⟩
  · refine Prog.wp_run_seq discoverKubelet_custody (fun wiring k' h => ?_)
      fun e k' h => ⟨h.1, fun w hw => by cases hw⟩
    split_ifs
    · exact ⟨h.1, fun w hw => by cases hw; exact h.2 wiring rfl⟩
    · exact ⟨h.1, fun w hw => by cases hw⟩

theorem runNone_custody (hlocks : k.locks = []) (rendered : GoString) (entry : Fields) :
    (runNone L cfg rendered entry).run.Wp custody (fun _ _ => True) k := by
  refine stays_seq (stays_mkdir _) (fun _ k' hle => ?_) fun _ _ _ => trivial
  refine locked_custody (.inl (hle.locks.trans hlocks)) ?_
  refine Prog.wp_mono (fun _ _ _ => trivial) _ _ (ReadsFirst.seq (p := cfg.ownConfigPath)
    (@chartOwnedConfigIn_reads L cfg _ cfg.ownWiring (.inl List.mem_cons_self) rendered entry) fun desired => ?_)
  exact stays_applyNone (besides_install _ _) (besides_file fun _ => by simp) _ _

/-- The locks and configs of a whole pass. -/
theorem run_custody (hmerge : cfg.mergeConfigFile ≠ nodeLockConfig) :
    (run L cfg).run.Wp custody (fun _ _ => True) ⟨[], [], []⟩ := by
  refine stays_seq stays_readRendered (fun rendered k' hle => ?_) fun _ _ _ => trivial
  have hnode : ∀ body : Pass Unit, (∀ k'' : Custody, k''.locks = [nodeLockPath] →
      body.run.Wp custody (fun _ _ => True) k'') →
      (locked nodeLockPath body).run.Wp custody (fun _ _ => True) k' := by
    intro body hbody
    apply locked_custody (.inl hle.locks)
    apply hbody
    rw [hle.locks]
  obtain ⟨rendered, entry⟩ := rendered
  dsimp only
  cases cfg.mode with
  | none => exact runNone_custody hle.locks rendered entry
  | auto => exact hnode _ fun k'' hk'' => autoPass_custody hk'' rendered entry
  | patch =>
    refine hnode _ fun k'' hk'' => Prog.wp_run_seq discoverKubelet_custody (fun wiring k₁ h => ?_)
      fun _ _ _ => trivial
    exact patchPass_custody (h.1.trans hk'') (h.2 wiring rfl) rendered entry false
  | merge =>
    refine hnode _ fun k'' hk'' => Prog.wp_run_seq (mergeTargets_custody hmerge) (fun wiring k₁ h => ?_)
      fun _ _ _ => trivial
    exact mergePass_custody (h.1.trans hk'') (h.2 wiring rfl) rendered entry

end

/-! ## Installers side by side -/

def locking : Locking NodeCall NodeCall.Answer GoString where
  wants
    | .act (.lock p) => some p
    | _ => none
  grants
    | .act _, ok => ok
    | _, _ => false
  frees
    | .unlock p => some p
    | _ => none

/-- What the calls of an installer may answer on a node that others use too. Each installer reads
its container's own files, so nothing is said of them. -/
def Host.Answers (launches : Disk → Option (List GoString) → Prop) (h : Host) :
    (c : NodeCall) → c.Answer → Host → Prop
  | .source _, _, h' => h' = h
  | c, r, h' => Host.Sem launches h c r h'

theorem Host.answers_serve (launches : Disk → Option (List GoString) → Prop) (sources : Source → Except ReadError GoString)
    (h : Host) (c : NodeCall) : h.Answers launches c (h.serve sources c).1 (h.serve sources c).2 := by
  cases c with
  | source s => rfl
  | _ => exact Host.sem_serve launches h _

def installer (L : Library) (cfg : Config) : NodeProg Unit := do
  let _ ← (run L cfg).run
  return ()

section

variable {ι : Type}

/-- An installer on the node, with the values of its release at that moment. -/
def Starts (L : Library) (_ : ι) (p : NodeProg Unit) : Prop :=
  ∃ cfg : Config, cfg.mergeConfigFile ≠ nodeLockConfig ∧ p = installer L cfg

/-- What happens on the node: installers start, go on by one call, end or are killed. -/
abbrev NodeStep [DecidableEq ι] (L : Library) (launches : Disk → Option (List GoString) → Prop) :=
  Machine.Step locking (fun _ : ι => Host.Answers launches) (Starts L)

/-- After this the installer still has its lock of the config, and no other installer wrote it. -/
def Keeps (i : ι) (p : GoString) : Event ι NodeCall NodeCall.Answer → Prop
  | .stop j => j ≠ i
  | .call j (.act a) _ => (a.writesConfig = some p → j = i) ∧ (j = i → a ≠ .lock (p ++ lockSuffix))
  | .call j (.unlock q) _ => j = i → q ≠ p ++ lockSuffix
  | .call _ _ _ => True

/-- The installer looked at the config, and has had its lock ever since. -/
def ReadSince (i : ι) (p : GoString) (log : List (Event ι NodeCall NodeCall.Answer)) : Prop :=
  ∃ newer d older, log = newer ++ .call i (.look .config p) d :: older ∧ ∀ ev ∈ newer, Keeps i p ev

theorem ReadSince.cons {i : ι} {p : GoString} {log : List (Event ι NodeCall NodeCall.Answer)}
    {ev : Event ι NodeCall NodeCall.Answer} (h : ReadSince i p log) (hev : Keeps i p ev) :
    ReadSince i p (ev :: log) := by
  obtain ⟨newer, d, older, rfl, hnewer⟩ := h
  refine ⟨ev :: newer, d, older, rfl, fun ev' hev' => ?_⟩
  rcases List.mem_cons.mp hev' with rfl | hmem
  · exact hev
  · exact hnewer ev' hmem

structure Fits (i : ι) (k : Custody) (v : View ι NodeCall NodeCall.Answer GoString Host) : Prop where
  locks : ∀ l, l ∈ k.locks ↔ v.holder l = some i
  reads : ∀ p ∈ k.reads, p ++ lockSuffix ∈ k.locks ∧ ReadSince i p v.log
  dirs : ∀ p ∈ k.dirs, v.world.disk.lookup p = some .dir

/-- Kubelet's config is never the one whose lock is the node lock. -/
def CmdlineOk (c : Option (List GoString)) : Prop :=
  ∀ argv, c = some argv → flagValue argv flagConfigFile ≠ nodeLockConfig

/-! ### One call -/

theorem Disk.Acts.lookup_dir {d d' : Disk} {a : Act} {ok : Bool} (h : d.Acts a ok d') {p : GoString}
    (hp : d.lookup p = some .dir) : d'.lookup p = some .dir := by
  have hput : ∀ q f, d.lookup q ≠ some .dir → (d.put q (.file f)).lookup p = some .dir := by
    intro q f hq
    rw [d.lookup_put_of_ne, hp]
    rintro rfl
    exact hq hp
  have hmkdirs : Disk.Mkdirs d d' → d'.lookup p = some .dir := by
    intro h
    rcases h p with heq | ⟨hnone, -⟩
    · rw [heq, hp]
    · rw [hp] at hnone
      cases hnone
  cases h with
  | mkdir dir _ _ h _ => exact hmkdirs h
  | probe dir _ _ h _ => exact hmkdirs h
  | lock q _ _ h =>
    rcases h with rfl | ⟨hnone, rfl⟩
    · exact hp
    · exact hput q _ (by rw [hnone]; exact (Option.some_ne_none _).symm)
  | replace r q f _ hdir =>
    refine hput q f fun hq => ?_
    rw [Disk.isDir, hq, Bool.or_eq_false_iff] at hdir
    exact absurd hdir.2 (by simp)
  | chmod r q f mode _ hfile =>
    refine hput q _ fun hq => ?_
    rw [hfile] at hq
    cases hq
  | remove r q f _ hfile =>
    rw [d.lookup_erase, if_neg, hp]
    rintro rfl
    rw [hfile] at hp
    cases hp
  | fails => exact hp
  | restart => exact hp
  | healthy => exact hp

variable {launches : Disk → Option (List GoString) → Prop}

theorem Host.Answers.lookup_dir {h h' : Host} {c : NodeCall} {r : c.Answer} (hsem : h.Answers launches c r h')
    {p : GoString} (hp : h.disk.lookup p = some .dir) : h'.disk.lookup p = some .dir := by
  cases c with
  | source s =>
    rw [show h' = h from hsem]
    exact hp
  | act a =>
    cases hsem with
    | act _ _ d hact => exact hact.lookup_dir hp
    | restart => exact hp
    | restartFails => exact hp
  | _ =>
    cases hsem
    exact hp

theorem Host.Answers.cmdline (hlaunches : ∀ d c, launches d c → CmdlineOk c) {h h' : Host} {c : NodeCall} {r : c.Answer}
    (hsem : h.Answers launches c r h') (hok : CmdlineOk h.cmdline) : CmdlineOk h'.cmdline := by
  cases c with
  | source s =>
    rw [show h' = h from hsem]
    exact hok
  | act a =>
    cases hsem with
    | act => exact hok
    | restart _ c hc => exact hlaunches _ c hc
    | restartFails => exact hok
  | _ =>
    cases hsem
    exact hok

/-- The node answers as a pass may expect. -/
theorem Host.Answers.custody {h h' : Host} {k : Custody} {c : NodeCall} {r : c.Answer}
    (hsem : h.Answers launches c r h') (hcmdline : CmdlineOk h.cmdline)
    (hdirs : ∀ p ∈ k.dirs, h.disk.lookup p = some .dir) : k.answers c r := by
  cases c with
  | look role q =>
    cases hsem
    intro p hp
    rw [Disk.isHostDir, hdirs p hp]
    rfl
  | cmdline =>
    cases hsem
    exact hcmdline
  | _ => trivial

/-! ### What is known of an installer -/

/-- What is known stays known while the installer's locks and the directories stay. -/
theorem Fits.next {i : ι} {k : Custody} {v v' : View ι NodeCall NodeCall.Answer GoString Host}
    {ev : Event ι NodeCall NodeCall.Answer} (h : Fits i k v)
    (hholder : ∀ l, v'.holder l = some i ↔ v.holder l = some i) (hlog : v'.log = ev :: v.log)
    (hkeeps : ∀ p ∈ k.reads, Keeps i p ev)
    (hdirs : ∀ p, v.world.disk.lookup p = some .dir → v'.world.disk.lookup p = some .dir) : Fits i k v' where
  locks l := (h.locks l).trans (hholder l).symm
  reads p hp := by
    rw [hlog]
    exact ⟨(h.reads p hp).1, (h.reads p hp).2.cons (hkeeps p hp)⟩
  dirs p hp := hdirs p (h.dirs p hp)

section

variable {c : Machine ι NodeCall NodeCall.Answer GoString Host}
  (hfollows : Machine.Follows (fun _ => custody) (fun v => CmdlineOk v.world.cmdline) Fits c)
include hfollows

theorem acyclic_of_follows (i : ι) : ¬ Relation.TransGen (Machine.Waits locking c) i i := by
  refine Machine.acyclic_of_gate nodeLockPath (fun j e k l hproc hwants => ?_) i
  obtain ⟨κ, hfits, hmay⟩ := hfollows.may hproc
  cases e with
  | act a =>
    cases a with
    | lock q =>
      cases hwants
      rcases hmay.1 l rfl with hnone | ⟨hgate, hnot⟩
      · refine .inl fun l' hheld => ?_
        have hmem := (hfits.locks l').mpr hheld
        rw [hnone] at hmem
        cases hmem
      · exact .inr ⟨(hfits.locks _).mp hgate, fun hheld => hnot ((hfits.locks l).mpr hheld)⟩
    | _ => cases hwants
  | _ => cases hwants

end

variable [DecidableEq ι]

/-- A call of another installer. It writes a config only under a lock that this one does not have. -/
theorem Fits.other {i j : ι} {k k' : Custody} {v : View ι NodeCall NodeCall.Answer GoString Host} {c : NodeCall}
    {r : c.Answer} {w : Host} (hji : j ≠ i) (h : Fits i k v) (h' : Fits j k' v) (hmay : k.may c)
    (hsem : v.world.Answers launches c r w)
    (hfree : ∀ l, Machine.taken locking c r = some l → v.holder l = none) :
    Fits j k' (Machine.called locking v i c r w) := by
  refine h'.next (Machine.called_holder_other hji hfree) rfl (fun p hp => ?_) fun p => Host.Answers.lookup_dir hsem
  cases c with
  | act a =>
    refine ⟨fun hwrites => ?_, fun hij => absurd hij.symm hji⟩
    have hmine := (h.locks _).mp (h.reads p (hmay.2 p hwrites)).1
    have htheirs := (h'.locks _).mp (h'.reads p hp).1
    exact Option.some.inj (hmine.symm.trans htheirs)
  | unlock q => exact fun hij => absurd hij.symm hji
  | _ => trivial

/-- The installer's own call. -/
theorem Fits.own {i : ι} {k : Custody} {v : View ι NodeCall NodeCall.Answer GoString Host} {c : NodeCall}
    {r : c.Answer} {w : Host} (h : Fits i k v) (hmay : k.may c) (hsem : v.world.Answers launches c r w) :
    Fits i (k.learn c r) (Machine.called locking v i c r w) := by
  have hnext : locking.wants c = none → locking.frees c = none → (∀ p ∈ k.reads, Keeps i p (.call i c r)) →
      Fits i k (Machine.called locking v i c r w) := by
    intro hwants hfrees hkeeps
    refine h.next (fun l => ?_) rfl hkeeps fun p => Host.Answers.lookup_dir hsem
    rw [Machine.called_holder_eq hwants hfrees]
  cases c with
  | look role q =>
    have hsame := hnext rfl rfl fun _ _ => trivial
    cases role with
    | config =>
      simp only [Custody.learn]
      split_ifs with hheld
      · refine ⟨hsame.locks, fun p hp => ?_, hsame.dirs⟩
        rcases List.mem_cons.mp hp with rfl | hp
        · exact ⟨hheld, [], r, v.log, rfl, fun ev hev => by cases hev⟩
        · exact hsame.reads p hp
      · exact hsame
    | directory =>
      simp only [Custody.learn]
      split_ifs with hdir
      · refine ⟨hsame.locks, hsame.reads, fun p hp => ?_⟩
        rcases List.mem_cons.mp hp with rfl | hp
        · cases hsem
          rw [Disk.isHostDir, beq_iff_eq] at hdir
          exact hdir
        · exact hsame.dirs p hp
      · exact hsame
    | _ => exact hsame
  | unlock q =>
    -- the lock is given back, and with it what was read under it
    have hlog : ∀ p, p ++ lockSuffix ≠ q → Keeps i p (.call i (.unlock q) r) := fun p hp _ hq => hp hq.symm
    refine ⟨fun l => ?_, fun p hp => ?_, fun p hp => Host.Answers.lookup_dir hsem (h.dirs p hp)⟩
    · simp only [Custody.learn, List.mem_filter, decide_eq_true_eq, h.locks l, Machine.called, Machine.taken,
        locking, Bool.false_eq_true, if_false, reduceCtorEq, Option.some.injEq]
      split_ifs with hfreed
      · simp [hfreed.1]
      · constructor
        · exact fun hl => hl.1
        · exact fun hl => ⟨hl, fun hlq => hfreed ⟨hlq.symm, hl⟩⟩
    · simp only [Custody.learn, List.mem_filter, decide_eq_true_eq] at hp ⊢
      exact ⟨⟨(h.reads p hp.1).1, hp.2⟩, (h.reads p hp.1).2.cons (hlog p hp.2)⟩
  | act a =>
    have hkeeps : ∀ p ∈ k.reads, Keeps i p (.call i (.act a) r) := by
      intro p hp
      refine ⟨fun _ => rfl, fun _ ha => ?_⟩
      rcases hmay.1 _ ha with hnil | ⟨-, hnot⟩
      · exact absurd (h.reads p hp).1 (by rw [hnil]; exact List.not_mem_nil)
      · exact hnot (h.reads p hp).1
    by_cases hlock : ∃ q, a = .lock q
    · obtain ⟨q, rfl⟩ := hlock
      cases r with
      | false =>
        refine h.next (fun l => ?_) rfl hkeeps fun p => Host.Answers.lookup_dir hsem
        simp [Machine.called, Machine.taken, locking]
      | true =>
        refine ⟨fun l => ?_, fun p hp => ?_, fun p hp => Host.Answers.lookup_dir hsem (h.dirs p hp)⟩
        · simp only [Custody.learn, if_true, List.mem_cons, h.locks l, Machine.called, Machine.taken, locking,
            Option.some.injEq, reduceCtorEq, false_and, if_false]
          split_ifs with hq
          · simp [hq]
          · simp [Ne.symm hq]
        · refine ⟨List.mem_cons_of_mem _ (h.reads p hp).1, (h.reads p hp).2.cons (hkeeps p hp)⟩
    · have hlearn : k.learn (.act a) r = k := by
        cases a with
        | lock q => exact absurd ⟨q, rfl⟩ hlock
        | _ => rfl
      rw [hlearn]
      refine hnext ?_ rfl hkeeps
      cases a with
      | lock q => exact absurd ⟨q, rfl⟩ hlock
      | _ => rfl
  | _ => exact hnext rfl rfl fun _ _ => trivial

/-- Whatever the installers do side by side, each keeps to its locks. -/
theorem installers_follow {L : Library} (hlaunches : ∀ d c, launches d c → CmdlineOk c) {h : Host}
    (hcmdline : CmdlineOk h.cmdline) {c : Machine ι NodeCall NodeCall.Answer GoString Host}
    (hrun : Relation.ReflTransGen (NodeStep L launches) (Machine.idle h) c) :
    Machine.Follows (fun _ => custody) (fun v => CmdlineOk v.world.cmdline) Fits c := by
  refine Machine.follows_run ?_ ?_ ?_ hrun (Machine.follows_idle hcmdline)
  · rintro i p v ⟨cfg, hmerge, rfl⟩ - hheld
    refine ⟨⟨[], [], []⟩, ⟨fun l => ?_, fun p hp => (by cases hp), fun p hp => (by cases hp)⟩, ?_⟩
    · exact iff_of_false List.not_mem_nil (hheld l)
    · exact Prog.wp_seq (run_custody hmerge) fun _ _ _ => trivial
  · intro i k v e r w hinv hfits hmay hsem hfree
    refine ⟨Host.Answers.cmdline hlaunches hsem hinv, ⟨_, ⟨Host.Answers.custody hsem hinv hfits.dirs, rfl⟩, ?_⟩, ?_⟩
    · exact hfits.own hmay hsem
    · exact fun j k' hji hfits' => hfits.other hji hfits' hmay hsem hfree
  · intro i v hinv
    refine ⟨hinv, fun j k hji hfits => hfits.next (Machine.stopped_holder_other hji) rfl (fun p _ => ?_) fun _ h => h⟩
    exact hji.symm

/-- Installers never wait for each other in a circle. -/
theorem installers_no_deadlock (L : Library) (hlaunches : ∀ d c, launches d c → CmdlineOk c) {h : Host}
    (hcmdline : CmdlineOk h.cmdline) {c : Machine ι NodeCall NodeCall.Answer GoString Host}
    (hrun : Relation.ReflTransGen (NodeStep L launches) (Machine.idle h) c) (i : ι) :
    ¬ Relation.TransGen (Machine.Waits locking c) i i :=
  acyclic_of_follows (installers_follow hlaunches hcmdline hrun) i

end

/-- The first calls of a none-mode pass on a node whose kubelet never runs. -/
def passBegins {ι : Type} [DecidableEq ι] (name rendered : GoString) (i : ι) (n : Nat)
    (v : View ι NodeCall NodeCall.Answer GoString Host) :
    Option (NodeProg Unit × View ι NodeCall NodeCall.Answer GoString Host) :=
  Machine.advance locking (Host.serve (sampleSources rendered)) i n
    (installer plainLibrary (sampleConfig .none name)) v

theorem run_passBegins {ι : Type} [DecidableEq ι] {name rendered : GoString} {i : ι} {n : Nat}
    {v v' : View ι NodeCall NodeCall.Answer GoString Host} {q : NodeProg Unit}
    (h : passBegins name rendered i n v = some (q, v')) (procs : ι → Option (NodeProg Unit)) (hidle : procs i = none) :
    Relation.ReflTransGen (NodeStep plainLibrary fun _ _ => False) ⟨v, procs⟩
      ⟨v', Function.update procs i (some q)⟩ := by
  refine Machine.run_start (fun _ => Host.Answers fun _ _ => False) (Host.answers_serve _ _) h ?_ hidle
  exact ⟨sampleConfig .none name, (by decide : ([] : GoString) ≠ nodeLockConfig), rfl⟩

/-- An installer that is about to write the shared config, and another one that waits for its lock. -/
theorem run_two_passes : ∃ (c : Machine Bool NodeCall NodeCall.Answer GoString Host) (k : Bool → NodeProg Unit),
    Relation.ReflTransGen (NodeStep plainLibrary fun _ _ => False) (Machine.idle (sampleHost Disk.empty)) c ∧
      c.procs true = some (.call (.act (.replace .config samplePath ⟨renderedOwn, 0o644, root⟩)) k) ∧
      Machine.Waits locking c false true := by
  have hbegins : ((passBegins (lit "own") renderedOwn true 18 (Machine.idle (sampleHost Disk.empty)).view).bind fun x =>
      (passBegins (lit "other") renderedOther false 2 x.2).map fun y =>
        (x.1.next, y.1.next, y.2.holder (samplePath ++ lockSuffix))) =
      some (some (.act (.replace .config samplePath ⟨renderedOwn, 0o644, root⟩)),
        some (.act (.lock (samplePath ++ lockSuffix))), some true) := by decide +kernel
  obtain ⟨⟨q, v⟩, hown, hrest⟩ := Option.bind_eq_some_iff.mp hbegins
  obtain ⟨⟨q', v'⟩, hother, heq⟩ := Option.map_eq_some_iff.mp hrest
  simp only [Prod.mk.injEq] at heq
  obtain ⟨hnext, hnext', hholder⟩ := heq
  obtain ⟨k, rfl⟩ := Prog.eq_call_of_next hnext
  obtain ⟨k', rfl⟩ := Prog.eq_call_of_next hnext'
  have hrun := (run_passBegins hown (fun _ => none) rfl).trans
    (run_passBegins hother _ (Function.update_of_ne (by decide) ..))
  exact ⟨_, k, hrun, rfl, _, k', _, rfl, rfl, hholder⟩

theorem cmdlineOk_none : CmdlineOk none := fun argv h => by cases h

theorem installers_no_deadlock_waiting : ∃ c : Machine Bool NodeCall NodeCall.Answer GoString Host,
    Relation.ReflTransGen (NodeStep plainLibrary fun _ _ => False) (Machine.idle (sampleHost Disk.empty)) c ∧
      Machine.Waits locking c false true ∧ ¬ Relation.TransGen (Machine.Waits locking c) true true := by
  obtain ⟨c, k, hrun, -, hwaits⟩ := run_two_passes
  exact ⟨c, hrun, hwaits,
    installers_no_deadlock plainLibrary (fun _ _ h => h.elim) cmdlineOk_none hrun true⟩

section

variable {ι : Type} [DecidableEq ι] {launches : Disk → Option (List GoString) → Prop}

end

end HarborBridge.Installer
