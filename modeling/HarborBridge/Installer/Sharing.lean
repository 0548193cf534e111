import HarborBridge.Installer.SharePass

/-!
# Installs that share a config

Package main of the installer (ADR-0029): passes in none and in patch mode that run side by side on
one node with the same directories, and that can be killed at any time. The config stays one that
kubelet can start with, and no pass changes the entry of another install.
-/

namespace HarborBridge.Installer

open GoStrings Document Interaction

namespace SharedDirs

section

variable {S : SharedDirs} {L : Library} {launches : Disk → Option (List GoString) → Prop} {ι : Type} [DecidableEq ι]

variable (S L launches) in
/-- What happens on the node: passes of the installs start, go on by one call, end or are killed. -/
abbrev Step (cfgs : ι → Config) :=
  Machine.Step locking (fun i : ι => S.Answers L launches (cfgs i)) fun i p => p = installer L (cfgs i)

variable {cfgs : ι → Config} {h : Host} {c c' : Machine ι NodeCall NodeCall.Answer GoString Host}

theorem shared_follows (hwrites : ∀ m, (L.writeYaml m).isSome = true) (hm : ∀ i, S.Member (cfgs i))
    (hnone : h.disk.file S.configPath = none) (hrun : Relation.ReflTransGen (S.Step L launches cfgs) (Machine.idle h) c) :
    Machine.Follows (fun i => S.setting L launches (cfgs i)) (fun v => S.Sound L (S.files v.world.disk))
      (Machine.Knows S.guard) c := by
  refine Machine.guarded_run ?_ hrun (Machine.follows_idle (sound_of_none ?_))
  · rintro i p rfl
    exact Prog.wp_seq (wp_run hwrites (hm i)) fun _ _ _ => trivial
  · exact (files_shared .config).trans hnone

/-- Whatever the passes do side by side and whenever they are killed, the shared config can be read,
its names are distinct, and each entry is one that its install recorded, next to a binary that can be
executed. -/
theorem shared_config_sound (hwrites : ∀ m, (L.writeYaml m).isSome = true) (hm : ∀ i, S.Member (cfgs i))
    (hnone : h.disk.file S.configPath = none) (hrun : Relation.ReflTransGen (S.Step L launches cfgs) (Machine.idle h) c) :
    (∀ f, c.view.world.disk.file S.configPath = some f → ∃ r, readConfig L f.data = .ok r) ∧
      ((providersIn L (c.view.world.disk.file S.configPath)).map providerName).Nodup ∧
      ∀ p ∈ providersIn L (c.view.world.disk.file S.configPath), ∃ n m, p = .map m ∧
        Vouched L c.view.world.disk S.binDir n m := by
  have hsound := (shared_follows hwrites hm hnone hrun).inv
  rw [← files_shared (S := S) .config]
  refine ⟨fun f hf => (hsound.reads f hf).2, hsound.nodup, fun p hp => ?_⟩
  obtain ⟨n, m, rfl, hvouches⟩ := hsound.vouched p hp
  exact ⟨n, m, rfl, vouches_files.mp hvouches⟩

end

end SharedDirs

/-! Two installs with the directories /b and /c -/

def sampleDirs : SharedDirs := ⟨lit "/b", lit "/c", by decide⟩

def sampleInstall (own : Bool) : Config := sampleConfig .none (if own then lit "own" else lit "other")

def sampleRendered (own : Bool) : GoString := if own then renderedOwn else renderedOther

/-- The environment of an installer in none mode. -/
def sampleEnv (name key : GoString) : GoString :=
  if key = lit "INSTALL_MODE" then lit "none" else if key = lit "HOST_BIN_DIR" then lit "/b"
  else if key = lit "HOST_CONFIG_DIR" then lit "/c" else if key = lit "STATE_DIR" then lit "/s"
  else if key = lit "PROVIDER_NAME" then name else []

theorem sampleInstall_member (own : Bool) : sampleDirs.Member (sampleInstall own) := by
  have hload : loadConfig (sampleEnv (if own then lit "own" else lit "other")) = .ok (sampleInstall own) := by
    cases own <;> decide +kernel
  exact SharedDirs.member_of_loadConfig hload rfl rfl (.inl rfl)

theorem sampleRendered_rendering (own : Bool) :
    Rendering plainLibrary (sampleInstall own) (sampleRendered own) := by
  have hrendering : ∀ entry doc, substituteNodeIP plainLibrary (sampleRendered own) [] = .ok (sampleRendered own) →
      renderedProvider plainLibrary (sampleRendered own) (sampleInstall own).providerName = .ok entry →
      Renders plainLibrary (sampleRendered own) entry doc →
      Rendering plainLibrary (sampleInstall own) (sampleRendered own) := by
    intro entry doc hip hentry hdoc rendered entry' hip' hentry'
    cases hip.symm.trans hip'
    cases hentry.symm.trans hentry'
    exact ⟨doc, hdoc⟩
  cases own
  · exact hrendering otherEntry (sampleDoc [.map otherEntry]) (by decide +kernel) (by decide +kernel)
      ⟨by decide +kernel, by decide +kernel, by decide +kernel⟩
  · exact hrendering ownEntry (sampleDoc [.map ownEntry]) (by decide +kernel) (by decide +kernel) renders_own

theorem sampleInstall_answers (own : Bool) (h : Host) (c : NodeCall) :
    sampleDirs.Answers plainLibrary (fun _ _ => False) (sampleInstall own) h c
      (h.serve (sampleSources (sampleRendered own)) c).1 (h.serve (sampleSources (sampleRendered own)) c).2 := by
  refine ⟨Host.answers_serve _ _ h c, ?_⟩
  cases c with
  | source s =>
    cases s with
    | config =>
      intro raw hraw
      cases hraw
      exact sampleRendered_rendering own
    | _ => trivial
  | environment =>
    intro env henv
    cases henv
  | act a =>
    refine ⟨?_, fun hmode => by cases own <;> cases hmode⟩
    rintro r p f rfl hlong
    have hfails : ¬ (h.disk.isDir p = false ∧ f.data.length ≤ maxHostFileSize) := fun hfits => not_lt.mpr hfits.2 hlong
    simp only [Host.serve, Act.tried, if_neg hfails]
    exact ⟨trivial, trivial⟩
  | _ => trivial

def samplePass (own : Bool) (v : View Bool NodeCall NodeCall.Answer GoString Host) :
    Option (NodeProg Unit × View Bool NodeCall NodeCall.Answer GoString Host) :=
  Machine.advance locking (Host.serve (sampleSources (sampleRendered own))) own 40
    (installer plainLibrary (sampleInstall own)) v

theorem run_samplePass {own : Bool} {v v' : View Bool NodeCall NodeCall.Answer GoString Host} {q : NodeProg Unit}
    (h : samplePass own v = some (q, v')) (procs : Bool → Option (NodeProg Unit)) (hidle : procs own = none) :
    Relation.ReflTransGen (sampleDirs.Step plainLibrary (fun _ _ => False) sampleInstall) ⟨v, procs⟩
      ⟨v', Function.update procs own (some q)⟩ :=
  Machine.run_start (fun i => sampleDirs.Answers plainLibrary (fun _ _ => False) (sampleInstall i))
    (sampleInstall_answers own) h rfl hidle

theorem shared_config_sound_two : ∃ d : Disk,
    providersIn plainLibrary (d.file sampleDirs.configPath) = [.map otherEntry, .map ownEntry] ∧
      ∀ p ∈ providersIn plainLibrary (d.file sampleDirs.configPath), ∃ n m, p = .map m ∧
        Vouched plainLibrary d sampleDirs.binDir n m := by
  have hpasses : ((samplePass false (Machine.idle (sampleHost Disk.empty)).view).bind fun x =>
      (samplePass true x.2).map fun y => providersIn plainLibrary (y.2.world.disk.file sampleDirs.configPath)) =
      some [.map otherEntry, .map ownEntry] := by decide +kernel
  obtain ⟨⟨q, v⟩, hother, hrest⟩ := Option.bind_eq_some_iff.mp hpasses
  obtain ⟨⟨q', v'⟩, hown, hproviders⟩ := Option.map_eq_some_iff.mp hrest
  have hrun := (run_samplePass hother (fun _ => none) rfl).trans
    (run_samplePass hown _ (Function.update_of_ne (by decide) ..))
  exact ⟨v'.world.disk, hproviders, (SharedDirs.shared_config_sound (fun _ => rfl) sampleInstall_member rfl hrun).2.2⟩

namespace SharedDirs

section

variable {S : SharedDirs} {L : Library} {launches : Disk → Option (List GoString) → Prop} {ι : Type} [DecidableEq ι]
  {cfgs : ι → Config} {h : Host} {c c' : Machine ι NodeCall NodeCall.Answer GoString Host}

def entriesOf (n : GoString) (l : List Value) : List Value := l.filter fun p => decide (providerName p = n)

theorem Leaves.entriesOf {name n : GoString} {v v' : GoString → Option HostFile} (h : S.Leaves L name v v') (hn : name ≠ n) :
    entriesOf n (S.providers L v') = entriesOf n (S.providers L v) := by
  have hsub : ∀ l, SharedDirs.entriesOf n l = SharedDirs.entriesOf n (othersOf name l) := by
    intro l
    rw [SharedDirs.entriesOf, SharedDirs.entriesOf, othersOf, List.filter_filter]
    refine List.filter_congr fun p _ => ?_
    by_cases hp : providerName p = n
    · simp [hp, hn.symm]
    · simp [hp]
  rw [hsub, hsub (S.providers L v), h]

/-- As long as only the passes of other installs make calls, the entry of an install stays as it is
in the shared config. -/
theorem shared_entries_stay (hwrites : ∀ m, (L.writeYaml m).isSome = true) (hm : ∀ i, S.Member (cfgs i))
    (hnone : h.disk.file S.configPath = none) (hrun : Relation.ReflTransGen (S.Step L launches cfgs) (Machine.idle h) c)
    (hrun' : Relation.ReflTransGen (S.Step L launches cfgs) c c') (n : GoString) :
    ∃ newer, c'.view.log = newer ++ c.view.log ∧
      ((∀ i e r, .call i e r ∈ newer → (cfgs i).providerName ≠ n) →
        entriesOf n (providersIn L (c'.view.world.disk.file S.configPath)) =
          entriesOf n (providersIn L (c.view.world.disk.file S.configPath))) := by
  rw [← files_shared (S := S) .config, ← files_shared (S := S) .config]
  refine Machine.guarded_stays (fun v => entriesOf n (S.providers L v)) (fun i => (cfgs i).providerName ≠ n)
    (fun i v v' hi hleaves => hleaves.entriesOf hi) ?_ hrun' (shared_follows hwrites hm hnone hrun)
  rintro i p rfl
  exact Prog.wp_seq (wp_run hwrites (hm i)) fun _ _ _ => trivial

end

end SharedDirs

def callOf (own : Bool) : Event Bool NodeCall NodeCall.Answer → Bool
  | .call i _ _ => i == own
  | .stop _ => false

theorem shared_entries_stay_two : ∃ d d' : Disk,
    SharedDirs.entriesOf (lit "other") (providersIn plainLibrary (d.file sampleDirs.configPath)) = [.map otherEntry] ∧
      d'.file sampleDirs.configPath ≠ d.file sampleDirs.configPath ∧
      SharedDirs.entriesOf (lit "other") (providersIn plainLibrary (d'.file sampleDirs.configPath)) =
        SharedDirs.entriesOf (lit "other") (providersIn plainLibrary (d.file sampleDirs.configPath)) := by
  have hpasses : ((samplePass false (Machine.idle (sampleHost Disk.empty)).view).bind fun x =>
      (samplePass true x.2).map fun y =>
        (SharedDirs.entriesOf (lit "other") (providersIn plainLibrary (x.2.world.disk.file sampleDirs.configPath)),
          decide (y.2.world.disk.file sampleDirs.configPath = x.2.world.disk.file sampleDirs.configPath),
          (y.2.log.take (y.2.log.length - x.2.log.length)).all (callOf true))) =
      some ([.map otherEntry], false, true) := by decide +kernel
  obtain ⟨⟨q, v⟩, hother, hrest⟩ := Option.bind_eq_some_iff.mp hpasses
  obtain ⟨⟨q', v'⟩, hown, heq⟩ := Option.map_eq_some_iff.mp hrest
  simp only [Prod.mk.injEq, decide_eq_false_iff_not, List.all_eq_true] at heq
  obtain ⟨hentry, hchanged, hcalls⟩ := heq
  obtain ⟨newer, hlog, hstays⟩ := SharedDirs.shared_entries_stay (fun _ => rfl) sampleInstall_member rfl
    (run_samplePass hother (fun _ => none) rfl)
    (run_samplePass hown _ (Function.update_of_ne (by decide) ..)) (lit "other")
  refine ⟨v.world.disk, v'.world.disk, hentry, hchanged, hstays fun i e r hmem => ?_⟩
  have hnewer : newer = v'.log.take (v'.log.length - v.log.length) := by
    have hlog' : v'.log = newer ++ v.log := hlog
    simp [hlog']
  have hi : i = true := by simpa [callOf] using hcalls _ (hnewer ▸ hmem)
  rw [hi]
  decide

end HarborBridge.Installer
