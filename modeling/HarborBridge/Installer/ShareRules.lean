import HarborBridge.Installer.Locks
import HarborBridge.Installer.SharedConfig

/-!
# Rules for passes on shared files

Package main of the installer (ADR-0029): what a pass relies on while it holds the lock of a shared
config, and how its calls and its writes (files.go) keep the config sound.
-/

namespace HarborBridge.Installer

open GoStrings Document Interaction

/-- The chart renders one provider, in a config of kubelet's version. -/
def Rendering (L : Library) (cfg : Config) (raw : GoString) : Prop :=
  ∀ rendered entry, substituteNodeIP L raw cfg.nodeIP = .ok rendered →
    renderedProvider L rendered cfg.providerName = .ok entry → ∃ doc, Renders L rendered entry doc

def Act.ofRecord (p : GoString) : Act → Prop
  | .mkdir dir => dir = pathDir p
  | .replace .record q _ => q = p
  | .replace .backup q _ => q = p ++ backupSuffix
  | .chmod .record q _ => q = p
  | _ => False

namespace SharedDirs

/-- An install in these directories, whose mode does not take over a config of a cloud. -/
structure Member (S : SharedDirs) (cfg : Config) : Prop where
  binDir : cfg.hostBinDir = S.binDir
  configDir : cfg.hostConfigDir = S.configDir
  valid : validProviderName cfg.providerName = true
  mode : cfg.mode = .none ∨ cfg.mode = .patch

theorem member_of_loadConfig {S : SharedDirs} {getenv : GoString → GoString} {cfg : Config}
    (h : loadConfig getenv = .ok cfg) (hbin : cfg.hostBinDir = S.binDir)
    (hconfig : cfg.hostConfigDir = S.configDir) (hmode : cfg.mode = .none ∨ cfg.mode = .patch) : S.Member cfg :=
  ⟨hbin, hconfig, (loadConfig_admitted h).name, hmode⟩

section

variable (S : SharedDirs) (L : Library) (launches : Disk → Option (List GoString) → Prop) (cfg : Config)

/-- What is relied on beside the node itself. No unit takes its environment from a shared file,
nothing is written that is too large to be read, and a pass that can roll back can write its
record. -/
def Tame (h h' : Host) : (c : NodeCall) → c.Answer → Prop
  | .source .config, r => ∀ raw, r = .ok raw → Rendering L cfg raw
  | .environment, r => ∀ env, r = some env → ∀ d p, kubeletEnvFile d env = .ok p → ¬ S.Shared p
  | .act a, ok => (∀ r p f, a = .replace r p f → maxHostFileSize < f.data.length →
      ok = false ∧ h'.disk = h.disk) ∧
    (cfg.mode = .patch → a.ofRecord (recordPath S.binDir cfg.providerName) → ok = true)
  | _, _ => True

def Answers (h : Host) (c : NodeCall) (r : c.Answer) (h' : Host) : Prop :=
  h.Answers launches c r h' ∧ S.Tame L cfg h h' c r

noncomputable def guard : Machine.Guard GoString Host (GoString → Option HostFile) where
  lock := S.configPath ++ lockSuffix
  part h := S.files h.disk

noncomputable def setting : Setting NodeCall NodeCall.Answer (Option (GoString → Option HostFile)) :=
  Machine.guarded S.guard locking (S.Answers L launches cfg) (S.Sound L) (S.Leaves L cfg.providerName)

def elsewhere : Footprint := ⟨fun _ p => ¬ S.Shared p, True⟩

end

section

variable {S : SharedDirs} {L : Library} {launches : Disk → Option (List GoString) → Prop} {cfg : Config}
  {α β : Type} {v : GoString → Option HostFile} {k : Option (GoString → Option HostFile)}

theorem elsewhere_file {p : GoString} (hp : ¬ S.Shared p) (r : Role) : S.elsewhere.File r p :=
  ⟨hp, S.not_shared_backup p⟩

/-! ## Calls that leave the shared files alone -/

theorem acts_of_answers {a : Act} {ok : Bool} {h h' : Host} (hsem : h.Answers launches (.act a) ok h') :
    h.disk.Acts a ok h'.disk := by
  cases hsem with
  | act _ _ d hact => exact hact
  | restart => exact .restart _
  | restartFails => exact .restart _

theorem files_of_answers {c : NodeCall} {r : c.Answer} {h h' : Host} (hsem : h.Answers launches c r h')
    (hc : S.elsewhere.allows c) : S.files h'.disk = S.files h.disk := by
  cases c with
  | act a =>
    refine files_act (acts_of_answers hsem) fun p hp => ?_
    cases a with
    | lock q => exact hc.elim
    | replace r q f => cases hp; exact hc
    | chmod r q m => cases hp; exact hc
    | remove r q => cases hp; exact hc
    | _ => cases hp
  | source s => rw [show h' = h from hsem]
  | _ =>
    cases hsem
    rfl

theorem wp_elsewhere (hk : ∀ v, k = some v → S.Sound L v) {p : Pass α} (hp : Stays S.elsewhere p) :
    p.run.Wp (S.setting L launches cfg) (fun _ k' => k' = k) k := by
  refine Prog.wp_only hp (fun k' c hk' hc => ?_) rfl
  subst hk'
  cases k' with
  | none =>
    refine ⟨fun w r w' _ hsem => files_of_answers hsem.1 hc, ?_⟩
    rintro r k' ⟨w, w', -, -, rfl⟩
    have hwants : locking.wants c = none := by
      cases c with
      | act a =>
        cases a with
        | lock q => exact hc.elim
        | _ => rfl
      | _ => rfl
    rw [Machine.taken_eq_none hwants, if_neg (Option.some_ne_none _).symm]
  | some v =>
    constructor
    · intro w r w' hpart hsem
      have hsame : S.guard.part w' = v := (files_of_answers hsem.1 hc).trans hpart
      rw [hsame]
      exact ⟨hk v rfl, rfl⟩
    · rintro r k' ⟨w, w', hpart, hsem, rfl⟩
      have hfrees : locking.frees c ≠ some S.guard.lock := by
        cases c with
        | unlock q => exact hc.elim
        | _ => simp [locking]
      rw [if_neg hfrees]
      exact congrArg some ((files_of_answers hsem.1 hc).trans hpart)

theorem elsewhere_seq (hk : ∀ v, k = some v → S.Sound L v) {m : Pass α} {f : α → Pass β}
    {Q : Except Err β → Option (GoString → Option HostFile) → Prop} (hm : Stays S.elsewhere m)
    (hf : ∀ a, (f a).run.Wp (S.setting L launches cfg) Q k) (herr : ∀ e, Q (.error e) k) :
    (m >>= f).run.Wp (S.setting L launches cfg) Q k := by
  refine Prog.wp_run_seq (wp_elsewhere hk hm) (fun a k' hk' => ?_) fun e k' hk' => ?_
  · rw [hk']
    exact hf a
  · rw [hk']
    exact herr e

/-! ## Calls under the lock -/

theorem known {v : GoString → Option HostFile} (h : S.Sound L v) : ∀ v', some v = some v' → S.Sound L v' :=
  fun _ heq => Option.some.inj heq ▸ h

theorem may_elsewhere (hv : S.Sound L v) {c : NodeCall} (hc : S.elsewhere.allows c) :
    (S.setting L launches cfg).may (some v) c := by
  intro w r w' hpart hsem
  have hsame : S.guard.part w' = v := (files_of_answers hsem.1 hc).trans hpart
  rw [hsame]
  exact ⟨hv, rfl⟩

theorem look_seq {may : Option (GoString → Option HostFile) → NodeCall → Prop} {r : Role} {p : GoString}
    (hmay : may (some v) (.look r p)) {f : Disk → Pass β}
    {Q : Except Err β → Option (GoString → Option HostFile) → Prop}
    (hf : ∀ d, S.files d = v → (f d).run.Wp ⟨(S.setting L launches cfg).sem, may⟩ Q (some v)) :
    (ask (.look r p) >>= f).run.Wp ⟨(S.setting L launches cfg).sem, may⟩ Q (some v) := by
  refine ⟨hmay, ?_⟩
  rintro d k ⟨w, w', hpart, ⟨hsem, -⟩, rfl⟩
  cases hsem
  rw [if_neg (by simp [locking]), hpart]
  exact hf _ hpart

theorem compare_seq {may : Option (GoString → Option HostFile) → NodeCall → Prop} {r : Role} {p : GoString}
    (hmay : may (some v) (.compare r p)) {f : Disk → Pass β}
    {Q : Except Err β → Option (GoString → Option HostFile) → Prop}
    (hf : ∀ d, S.files d = v → (f d).run.Wp ⟨(S.setting L launches cfg).sem, may⟩ Q (some v)) :
    (ask (.compare r p) >>= f).run.Wp ⟨(S.setting L launches cfg).sem, may⟩ Q (some v) := by
  refine ⟨hmay, ?_⟩
  rintro d k ⟨w, w', hpart, ⟨hsem, -⟩, rfl⟩
  cases hsem
  rw [if_neg (by simp [locking]), hpart]
  exact hf _ hpart

theorem wp_change {a : Act} (e : Err) {P : Bool → (GoString → Option HostFile) → Prop}
    (hstep : ∀ w ok w', S.files w.disk = v → S.Answers L launches cfg w (.act a) ok w' → P ok (S.files w'.disk))
    (hkeep : ∀ ok v', P ok v' → S.Sound L v' ∧ S.Leaves L cfg.providerName v v') :
    (attempt a e).run.Wp (S.setting L launches cfg)
      (fun res k => ∃ v', k = some v' ∧ (res = .ok () ∧ P true v' ∨ res = .error e ∧ P false v')) (some v) := by
  refine wp_attempt (fun w ok w' hpart hsem => hkeep ok _ (hstep w ok w' hpart hsem)) ?_ ?_
  · rintro k ⟨w, w', hpart, hsem, rfl⟩
    exact ⟨_, if_neg (by simp [locking]), .inl ⟨rfl, hstep w true w' hpart hsem⟩⟩
  · rintro k ⟨w, w', hpart, hsem, rfl⟩
    exact ⟨_, if_neg (by simp [locking]), .inr ⟨rfl, hstep w false w' hpart hsem⟩⟩

/-- The file has this content and these permissions, and the others are as they were. -/
def Wrote (v : GoString → Option HostFile) (p data : GoString) (perm : Nat) (v' : GoString → Option HostFile) : Prop :=
  ∃ f : HostFile, f.data = data ∧ f.mode = perm ∧ data.length ≤ maxHostFileSize ∧ v' = Function.update v p (some f)

def Writes (v : GoString → Option HostFile) (p data : GoString) (perm : Nat) (res : Except Err α)
    (k : Option (GoString → Option HostFile)) : Prop :=
  ∃ v', k = some v' ∧ (Wrote v p data perm v' ∨ v' = v ∧ ∀ a, res ≠ .ok a)

variable {r : Role} {p data : GoString} {perm : Nat}

theorem writes_error (e : Err) : Writes v p data perm (.error e : Except Err α) (some v) :=
  ⟨v, rfl, .inr ⟨rfl, fun a h => by cases h⟩⟩

theorem Writes.wrote {a : α} (h : Writes v p data perm (.ok a : Except Err α) k) :
    ∃ v', k = some v' ∧ Wrote v p data perm v' := by
  obtain ⟨v', rfl, hwrote | ⟨-, hne⟩⟩ := h
  · exact ⟨v', rfl, hwrote⟩
  · exact absurd rfl (hne a)

/-- What the write returns does not matter. -/
theorem writes_bind_pure {m : Pass α} (h : m.run.Wp (S.setting L launches cfg) (Writes v p data perm) (some v)) (b : β) :
    (m >>= fun _ => pure b : Pass β).run.Wp (S.setting L launches cfg) (Writes v p data perm) (some v) := by
  refine Prog.wp_run_seq h (fun a k hk => ?_) ?_
  · obtain ⟨v', rfl, hwrote⟩ := hk.wrote
    exact ⟨v', rfl, .inl hwrote⟩
  · rintro e k ⟨v', rfl, hwrote | ⟨rfl, -⟩⟩
    · exact ⟨v', rfl, .inl hwrote⟩
    · exact writes_error e

/-- An act that writes the file, or fails and leaves it. -/
theorem wp_writes {a : Act} (hv : S.Sound L v)
    (hkeep : ∀ v', Wrote v p data perm v' → S.Sound L v' ∧ S.Leaves L cfg.providerName v v')
    (hstep : ∀ w ok w', S.files w.disk = v → S.Answers L launches cfg w (.act a) ok w' →
      ok = false ∧ S.files w'.disk = v ∨ Wrote v p data perm (S.files w'.disk)) :
    (attempt a (.failed p)).run.Wp (S.setting L launches cfg) (Writes v p data perm) (some v) := by
  refine Prog.wp_mono ?_ _ _ (wp_change (.failed p)
    (P := fun ok v' => ok = false ∧ v' = v ∨ Wrote v p data perm v') hstep fun ok v' h => ?_)
  · rintro res k ⟨v', rfl, h⟩
    rcases h with ⟨-, ⟨hfalse, -⟩ | hwrote⟩ | ⟨rfl, ⟨-, rfl⟩ | hwrote⟩
    · cases hfalse
    · exact ⟨v', rfl, .inl hwrote⟩
    · exact writes_error _
    · exact ⟨v', rfl, .inl hwrote⟩
  · rcases h with ⟨-, rfl⟩ | hwrote
    · exact ⟨hv, rfl⟩
    · exact hkeep v' hwrote

theorem replace_writes (hp : S.Shared p) {f : HostFile} (hdata : f.data = data) (hmode : f.mode = perm)
    {w w' : Host} {ok : Bool} (hsem : S.Answers L launches cfg w (.act (.replace r p f)) ok w') :
    ok = false ∧ S.files w'.disk = S.files w.disk ∨ Wrote (S.files w.disk) p data perm (S.files w'.disk) := by
  obtain ⟨hanswers, hsize, -⟩ := hsem
  rcases files_replace hp (acts_of_answers hanswers) with hfails | hput
  · exact .inl hfails
  · by_cases hlong : maxHostFileSize < f.data.length
    · obtain ⟨hok, hdisk⟩ := hsize r p f rfl hlong
      exact .inl ⟨hok, by rw [hdisk]⟩
    · exact .inr ⟨f, hdata, hmode, hdata ▸ not_lt.mp hlong, hput⟩

theorem chmod_writes (hp : S.Shared p) {f : HostFile} {w w' : Host} (hf : S.files w.disk p = some f)
    (hdata : f.data = data) (hsize : data.length ≤ maxHostFileSize) {ok : Bool}
    (hsem : S.Answers L launches cfg w (.act (.chmod r p perm)) ok w') :
    ok = false ∧ S.files w'.disk = S.files w.disk ∨ Wrote (S.files w.disk) p data perm (S.files w'.disk) := by
  rcases files_chmod hp (acts_of_answers hsem.1) with hfails | ⟨g, hg, hput⟩
  · exact .inl hfails
  · rw [hf] at hg
    cases hg
    exact .inr ⟨{ f with mode := perm }, hdata, rfl, hsize, hput⟩

/-- The file has the content already: at most its permissions change. -/
theorem wp_keepContent (hp : S.Shared p) (hv : S.Sound L v) {f : HostFile} (hf : v p = some f) (hdata : f.data = data)
    (hsize : data.length ≤ maxHostFileSize)
    (hkeep : ∀ v', Wrote v p data perm v' → S.Sound L v' ∧ S.Leaves L cfg.providerName v v') :
    (onlyIf (decide (f.mode ≠ perm)) (attempt (.chmod r p perm) (.failed p))).run.Wp (S.setting L launches cfg)
      (Writes v p data perm) (some v) := by
  unfold onlyIf
  split_ifs with hmode
  · refine wp_writes hv hkeep fun w ok w' hpart hsem => ?_
    rw [← hpart]
    exact chmod_writes hp (hpart ▸ hf) hdata hsize hsem
  · rw [decide_eq_true_eq, not_not] at hmode
    refine ⟨v, rfl, .inl ⟨f, hdata, hmode, hsize, ?_⟩⟩
    rw [← hf, Function.update_eq_self]

theorem wp_writeIn (hp : S.Shared p) (hv : S.Sound L v) {m : Option HostFile → FileMeta} (hperm : ∀ o, (m o).perm = perm)
    (hkeep : ∀ v', Wrote v p data perm v' → S.Sound L v' ∧ S.Leaves L cfg.providerName v v') :
    (writeIn r p data m).run.Wp (S.setting L launches cfg) (Writes v p data perm) (some v) := by
  have hreplace : ∀ o, (replaceFile r p ((m o).file data)).run.Wp (S.setting L launches cfg)
      (Writes v p data perm) (some v) := by
    intro o
    refine wp_writes hv hkeep fun w ok w' hpart hsem => ?_
    rw [← hpart]
    exact replace_writes hp rfl (hperm o) hsem
  refine compare_seq (may_elsewhere hv trivial) fun d hfiles => ?_
  cases hopen : d.openRegular p with
  | error e =>
    cases e with
    | failed => exact writes_error _
    | notExist => exact writes_bind_pure (hreplace none) true
  | ok f =>
    obtain ⟨hlookup, hsize⟩ := Disk.openRegular_eq_ok_iff.mp hopen
    have hf : v p = some f := by
      rw [← hfiles]
      exact (files_eq_some hp).mpr hlookup
    dsimp only
    split_ifs with hdata
    · rw [hperm (some f)]
      exact writes_bind_pure (wp_keepContent hp hv hf hdata (hdata ▸ hsize) hkeep) false
    · exact elsewhere_seq (known hv) (stays_replaceFile (S.not_shared_backup p) _)
        (fun _ => writes_bind_pure (hreplace _) true) writes_error

end

end SharedDirs

end HarborBridge.Installer
