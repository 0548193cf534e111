import HarborBridge.FixedPoint

/-! A cluster in which others act and calls fail while a pass runs, and what each step leaves of
what the pass knows. -/
namespace HarborBridge

open GoStrings Interaction

/-! ## What a call leaves -/

def HarborCall.Spares (id : Int) : HarborCall → Prop
  | .updateRobot other _ => other ≠ id
  | .refreshSec other => other ≠ id
  | .deleteRobot other => other ≠ id
  | _ => True

theorem Harbor.Effect.keeps {h h' : Harbor} {call : HarborCall} (he : h.Effect call h')
    {r : StoredRobot} (hr : r ∈ h.robots) (hspares : call.Spares r.id) : r ∈ h'.robots := by
  cases he with
  | none => exact hr
  | created body password hid hname hp => exact (mem_create hid).mpr (.inl hr)
  | updated id body => exact List.mem_map.mpr ⟨r, hr, if_neg (Ne.symm hspares)⟩
  | refreshed id password hp => exact List.mem_map.mpr ⟨r, hr, if_neg (Ne.symm hspares)⟩
  | deleted id => exact mem_delete.mpr ⟨hr, Ne.symm hspares⟩

def Call.WritesAccess : Call → Prop
  | .patchFinalizers _ _ => True
  | .updateStatus _ => True
  | _ => False

def Call.OnSecret : Call → Prop
  | .readSecret _ _ => True
  | .createSecret _ => True
  | .updateSecret _ => True
  | .deleteSecret _ => True
  | _ => False

namespace Site

variable {w w' : Site} {call : Call}

theorem accesses_serve (hcall : ¬ call.WritesAccess) : (w.serve call).2.accesses = w.accesses := by
  cases call with
  | patchFinalizers | updateStatus => exact absurd trivial hcall
  | createSecret | updateSecret | deleteSecret =>
    simp only [serve, createSecret, updateSecret, deleteSecret]
    split <;> (try split) <;> rfl
  | _ => rfl

theorem secrets_serve (hcall : ¬ call.OnSecret) : (w.serve call).2.secrets = w.secrets := by
  cases call with
  | patchFinalizers | updateStatus =>
    simp only [serve, writeAccess]
    split <;> (try split) <;> rfl
  | readSecret | createSecret | updateSecret | deleteSecret => exact absurd trivial hcall
  | _ => rfl

theorem revision_serve_le (w : Site) (call : Call) : w.revision ≤ (w.serve call).2.revision := by
  cases call with
  | patchFinalizers | updateStatus =>
    simp only [serve, writeAccess]
    split <;> (try split) <;> simp [putAccess]
  | createSecret | updateSecret | deleteSecret =>
    simp only [serve, createSecret, updateSecret, deleteSecret]
    split <;> (try split) <;> simp [putSecret]
  | _ => exact le_rfl

def Versioned (w : Site) : Prop := ∀ s ∈ w.secrets, s.resourceVersion ≤ w.revision

theorem versioned_putSecret (hw : w.Versioned) (ns name : GoString) (new : Option Secret)
    (hnew : ∀ s, new = some s → s.resourceVersion = w.revision + 1) :
    (w.putSecret ns name new).Versioned := by
  intro s hs
  change s.resourceVersion ≤ w.revision + 1
  obtain ⟨t, ht, hts⟩ := List.mem_filterMap.mp hs
  split_ifs at hts
  · exact (hnew s hts).le
  · obtain rfl := Option.some.inj hts
    exact Nat.le_succ_of_le (hw t ht)

theorem versioned_serve (hw : w.Versioned) (call : Call) : (w.serve call).2.Versioned := by
  cases call with
  | createSecret s =>
    change (w.createSecret s).2.Versioned
    unfold createSecret
    split
    · exact hw
    · intro t ht
      change t.resourceVersion ≤ w.revision + 1
      rcases List.mem_append.mp ht with hold | hnew
      · exact Nat.le_succ_of_le (hw t hold)
      · rw [List.mem_singleton.mp hnew]
  | updateSecret s =>
    change (w.updateSecret s).2.Versioned
    unfold updateSecret
    split
    · exact hw
    · split_ifs
      · refine versioned_putSecret hw _ _ _ fun t ht => ?_
        rw [← Option.some.inj ht]
      · exact hw
  | deleteSecret s =>
    change (w.deleteSecret s).2.Versioned
    unfold deleteSecret
    split
    · exact hw
    · split_ifs
      · exact versioned_putSecret hw _ _ _ nofun
      · exact hw
  | readSecret => exact hw
  | _ =>
    intro s hs
    rw [secrets_serve id] at hs
    exact (hw s hs).trans (w.revision_serve_le _)

/-- What holds after each change that a call may make holds after the call. -/
theorem Faulty.elim {r : Answer call} (hf : w.Faulty call r w') {P : Site → Prop} (hsame : P w)
    (hharbor : ∀ request h, call = .harbor request → w.harbor.Effect request h → P { w with harbor := h })
    (hclock : ∀ t, P { w with clock := t })
    (hserve : (∀ request, call ≠ .harbor request) → P (w.serve call).2) : P w' := by
  cases hf with
  | harbor request _ h hf => exact hharbor request h rfl hf.effect
  | now t => exact hclock t
  | served _ hnot => exact hserve hnot
  | failed => exact hsame
  | lost _ _ hr =>
    refine hserve fun request hcall => ?_
    subst hcall
    exact hr

end Site

/-- If nothing speaks for a rotation then the password of the Secret is the one that Harbor
accepts for the robot. -/
def Site.KeptPasswordAccepted (c : Config) (ha : HarborAccess) (w : Site) : Prop :=
  ∀ s r robot now, w.secret c.ns (RobotSecret.name ha.key.ns ha.key.name) = some s →
    w.harbor.Views c r robot → w.clock ≤ now → rotationReason ha (some s) robot now = none →
    ∃ username, RobotSecret.credentials s = some (username, r.password)

/-! ## Others -/

/-- A cluster in which others act while a pass runs: the ids of the robots of the name that the
pass was shown or has created, and whether someone has changed the Secret since the pass last read
or wrote it. -/
structure Crowd where
  site : Site
  shown : List Int
  disturbed : Bool

namespace Crowd

def namedIds (c : Config) (name : GoString) (payload : List (Option HarborRobot)) : List Int :=
  ((payload.filterMap id).filter fun x =>
    (fromHarborRobot c.harborRobotPrefix x).any fun robot => robot.name = name).map (·.id)

section

variable (c : Config) (key : ObjectKey) (name : GoString)

def stored (w : Crowd) : Option Secret := w.site.secret c.ns (RobotSecret.name key.ns key.name)

/-- What others may do while the pass runs: anything, but they leave the robots that the pass was
shown as they are. What they write to the HarborAccess or its Secret gets a new version. -/
structure Others (w v : Crowd) : Prop where
  shown : v.shown = w.shown
  robotNamePrefix : v.site.harbor.robotNamePrefix = w.site.harbor.robotNamePrefix
  robots : ∀ r ∈ w.site.harbor.robots, r.id ∈ w.shown → r ∈ v.site.harbor.robots
  revision : w.site.revision ≤ v.site.revision
  versioned : w.site.Versioned → v.site.Versioned
  access : ∀ l, v.site.access key.ns key.name = some l →
    w.site.access key.ns key.name = some l ∨ w.site.revision < l.resourceVersion
  secret : ∀ s, v.stored c key = some s →
    w.stored c key = some s ∨ w.site.revision < s.resourceVersion
  disturbed : v.disturbed = false → w.disturbed = false ∧ v.stored c key = w.stored c key

def told (w : Crowd) : (call : Call) → Answer call → Crowd
  | .harbor (.listRobot _ _), (r : Except HarborErr (List (Option HarborRobot))) =>
    match r with
    | .ok payload => { w with shown := namedIds c name payload ++ w.shown }
    | .error _ => w
  | .harbor (.createRobot _), (r : Except HarborErr (Option RobotCreated)) =>
    match r with
    | .ok (some payload) => { w with shown := payload.id :: w.shown }
    | _ => w
  | .readSecret _ _, (r : Except ApiErr Secret) =>
    match r with
    | .ok _ => { w with disturbed := false }
    | .error .notFound => { w with disturbed := false }
    | .error _ => w
  | .createSecret _, (r : Except ApiErr Unit) =>
    match r with
    | .ok () => { w with disturbed := false }
    | .error _ => w
  | .updateSecret _, (r : Except ApiErr Unit) =>
    match r with
    | .ok () => { w with disturbed := false }
    | .error _ => w
  | _, _ => w

end

/-- Others act before each call of the pass, and calls may fail, before or after they took effect.
When the pass has found the robot and reads the clock, the Secret holds the password that Harbor
accepts, if nothing speaks for a rotation. -/
def setting (c : Config) (ha : HarborAccess) (name : GoString) : Setting Call Answer Crowd where
  sem w call r w' := ∃ v site, Others c ha.key w v ∧ v.site.Faulty call r site ∧
    (call = .now → v.site.KeptPasswordAccepted c ha) ∧ w' = told c name { v with site := site } call r
  may _ _ := True

variable {c : Config} {ha : HarborAccess} {name : GoString} {w v w' : Crowd}

theorem told_site (call : Call) (r : Answer call) : (w.told c name call r).site = w.site := by
  unfold told
  split <;> (try split) <;> rfl

theorem told_shown (call : Call) (r : Answer call) : w.shown ⊆ (w.told c name call r).shown := by
  unfold told
  split <;> (try split)
  all_goals first
    | exact List.Subset.refl _
    | exact List.subset_append_right _ _
    | exact List.subset_cons_self _ _

theorem told_disturbed {call : Call} (hcall : ¬ call.OnSecret) (r : Answer call) :
    (w.told c name call r).disturbed = w.disturbed := by
  cases call with
  | readSecret | createSecret | updateSecret | deleteSecret => exact absurd trivial hcall
  | harbor request =>
    cases request with
    | listRobot =>
      match r with
      | Except.ok _ => rfl
      | Except.error _ => rfl
    | createRobot =>
      match r with
      | Except.ok (some _) => rfl
      | Except.ok none => rfl
      | Except.error _ => rfl
    | _ => rfl
  | _ => rfl

/-! ## What a step leaves -/

section

variable {call : Call} {res : Answer call} (hs : (setting c ha name).sem w call res w')
include hs

theorem sem_robotNamePrefix :
    w'.site.harbor.robotNamePrefix = w.site.harbor.robotNamePrefix := by
  obtain ⟨v, site, hothers, hf, -, rfl⟩ := hs
  rw [told_site, ← hothers.robotNamePrefix]
  refine hf.elim (P := fun site => site.harbor.robotNamePrefix = v.site.harbor.robotNamePrefix) rfl
    (fun _ _ _ he => he.robotNamePrefix) (fun _ => rfl) fun hharbor => ?_
  rw [v.site.harbor_serve hharbor]

theorem sem_shown : w.shown ⊆ w'.shown := by
  obtain ⟨v, site, hothers, -, -, rfl⟩ := hs
  rw [← hothers.shown]
  exact told_shown (w := { v with site := site }) call res

theorem sem_revision : w.site.revision ≤ w'.site.revision := by
  obtain ⟨v, site, hothers, hf, -, rfl⟩ := hs
  rw [told_site]
  exact hothers.revision.trans (hf.elim (P := fun site => v.site.revision ≤ site.revision) le_rfl
    (fun _ _ _ _ => le_rfl) (fun _ => le_rfl) fun _ => v.site.revision_serve_le call)

theorem sem_versioned (hw : w.site.Versioned) : w'.site.Versioned := by
  obtain ⟨v, site, hothers, hf, -, rfl⟩ := hs
  rw [told_site]
  have hv := hothers.versioned hw
  exact hf.elim hv (fun _ _ _ _ => hv) (fun _ => hv) fun _ => Site.versioned_serve hv call

theorem sem_access (hcall : ¬ call.WritesAccess) {l : HarborAccess}
    (hl : w'.site.access ha.key.ns ha.key.name = some l) :
    w.site.access ha.key.ns ha.key.name = some l ∨ w.site.revision < l.resourceVersion := by
  obtain ⟨v, site, hothers, hf, -, rfl⟩ := hs
  have haccesses : site.accesses = v.site.accesses :=
    hf.elim (P := fun site => site.accesses = v.site.accesses) rfl (fun _ _ _ _ => rfl) (fun _ => rfl)
      fun _ => Site.accesses_serve hcall
  rw [told_site, Site.access, haccesses] at hl
  exact hothers.access l hl

theorem sem_secret (hcall : ¬ call.OnSecret) :
    (∀ s, w'.stored c ha.key = some s →
      w.stored c ha.key = some s ∨ w.site.revision < s.resourceVersion) ∧
    (w'.disturbed = false → w.disturbed = false ∧ w'.stored c ha.key = w.stored c ha.key) := by
  obtain ⟨v, site, hothers, hf, -, rfl⟩ := hs
  have hsecrets : site.secrets = v.site.secrets :=
    hf.elim (P := fun site => site.secrets = v.site.secrets) rfl (fun _ _ _ _ => rfl) (fun _ => rfl)
      fun _ => Site.secrets_serve hcall
  have hstored : (told c name { v with site := site } call res).stored c ha.key = v.stored c ha.key := by
    unfold stored
    rw [told_site, Site.secret, hsecrets]
    rfl
  rw [hstored, told_disturbed hcall]
  exact ⟨hothers.secret, hothers.disturbed⟩

/-- A robot that the pass was shown is changed by its own requests only. -/
theorem sem_robot {r : StoredRobot} (hr : r ∈ w.site.harbor.robots) (hshown : r.id ∈ w.shown)
    (hcall : ∀ request, call = .harbor request → request.Spares r.id) :
    r ∈ w'.site.harbor.robots := by
  obtain ⟨v, site, hothers, hf, -, rfl⟩ := hs
  have hv := hothers.robots r hr hshown
  rw [told_site]
  refine hf.elim (P := fun site => r ∈ site.harbor.robots) hv
    (fun request _ heq he => he.keeps hv (hcall request heq)) (fun _ => hv) fun hharbor => ?_
  rw [v.site.harbor_serve hharbor]
  exact hv

end

/-! ## What the pass knows -/

/-- The copy of the HarborAccess that the pass has is the stored object or an old version of it. -/
structure Steady (c : Config) (ha copy : HarborAccess) (w : Crowd) : Prop where
  prefixed : w.site.harbor.robotNamePrefix = c.harborRobotPrefix
  versioned : w.site.Versioned
  version : copy.resourceVersion ≤ w.site.revision
  current : ∀ l, w.site.access ha.key.ns ha.key.name = some l →
    l.resourceVersion = copy.resourceVersion → l = copy

/-- The Secret as the pass has read it is the stored one, unless someone has changed it, and so it
is if the stored one has its version. `P` is what is known in these cases. -/
structure ReadAs (c : Config) (key : ObjectKey) (secret : Option Secret) (P : Prop) (w : Crowd) :
    Prop where
  place : ∀ s, secret = some s → s.ns = c.ns ∧ s.name = RobotSecret.name key.ns key.name
  version : ∀ s, secret = some s → s.resourceVersion ≤ w.site.revision
  current : ∀ s l, secret = some s → w.stored c key = some l →
    l.resourceVersion = s.resourceVersion → l = s ∧ P
  still : w.disturbed = false → w.stored c key = secret ∧ P

structure Held (c : Config) (name : GoString) (robot : Robot) (r : StoredRobot) (w : Crowd) : Prop where
  mem : r ∈ w.site.harbor.robots
  shown : r.id ∈ w.shown
  id : robot.id = r.id
  wireName : robot.wireName = w.site.harbor.wireName r
  disabled : robot.disabled = r.disable
  named : trimPrefix robot.wireName c.harborRobotPrefix = name

/-- The Secret hands out the robot's name and password, unless someone has changed it. -/
def Delivered (c : Config) (key : ObjectKey) (robot : Robot) (r : StoredRobot) (w : Crowd) : Prop :=
  w.disturbed = false → ∃ s, w.stored c key = some s ∧ RobotSecret.isManaged s = true ∧
    RobotSecret.stampedForOther s key.ns key.name = false ∧
    RobotSecret.credentials s = some (robot.wireName, r.password)

section

variable {call : Call} {res : Answer call} (hs : (setting c ha name).sem w call res w')
include hs

theorem Steady.step {copy : HarborAccess} (hw : Steady c ha copy w) (hcall : ¬ call.WritesAccess) :
    Steady c ha copy w' := by
  refine ⟨(sem_robotNamePrefix hs).trans hw.prefixed, sem_versioned hs hw.versioned,
    hw.version.trans (sem_revision hs), fun l hl hversion => ?_⟩
  rcases sem_access hs hcall hl with hold | hnew
  · exact hw.current l hold hversion
  · have := hw.version
    omega

theorem ReadAs.step {secret : Option Secret} {P : Prop} (hw : ReadAs c ha.key secret P w)
    (hcall : ¬ call.OnSecret) : ReadAs c ha.key secret P w' := by
  obtain ⟨hstored, hstill⟩ := sem_secret hs hcall
  refine ⟨hw.place, fun s hsome => (hw.version s hsome).trans (sem_revision hs),
    fun s l hsome hl hversion => ?_, fun hd => ?_⟩
  · rcases hstored l hl with hold | hnew
    · exact hw.current s l hsome hold hversion
    · have := hw.version s hsome
      omega
  · obtain ⟨hd₀, heq⟩ := hstill hd
    rw [heq]
    exact hw.still hd₀

theorem Delivered.step {robot : Robot} {r : StoredRobot} (hw : Delivered c ha.key robot r w)
    (hcall : ¬ call.OnSecret) : Delivered c ha.key robot r w' := by
  intro hd
  obtain ⟨hd₀, heq⟩ := (sem_secret hs hcall).2 hd
  rw [heq]
  exact hw hd₀

theorem Held.step {robot : Robot} {r : StoredRobot} (hw : Held c name robot r w)
    (hcall : ∀ request, call = .harbor request → request.Spares r.id) : Held c name robot r w' := by
  refine ⟨sem_robot hs hw.mem hw.shown hcall, sem_shown hs hw.shown, hw.id, ?_, hw.disabled, hw.named⟩
  rw [hw.wireName]
  unfold Harbor.wireName
  rw [sem_robotNamePrefix hs]

end

theorem ReadAs.imp {key : ObjectKey} {secret : Option Secret} {P Q : Prop}
    (hw : ReadAs c key secret P w) (hPQ : P → Q) : ReadAs c key secret Q w :=
  ⟨hw.place, hw.version, fun s l hsome hl hversion => (hw.current s l hsome hl hversion).imp_right hPQ,
    fun hd => (hw.still hd).imp_right hPQ⟩

end Crowd

end HarborBridge
