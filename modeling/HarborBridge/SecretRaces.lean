import HarborBridge.Vault

/-! A new password is stored while others write the robot Secret as well. -/
namespace HarborBridge

open GoStrings Interaction

/-- The robot Secret, and the writes of the pass to it: the version that a write replaced and
the one that it stored. -/
structure Race where
  vault : Vault
  writes : List (Option Secret × Secret)

namespace Race

/-- What other writers do to the Secret. -/
inductive Others (ns name : GoString) (v : Vault) : Vault → Prop where
  | stored (s : Secret) (hname : s.ns = ns ∧ s.name = name) : Others ns name v (v.put s)
  | deleted : Others ns name v { v with secret := none }

inductive Answers (ns name : GoString) (w : Race) (call : Call) (r : Answer call) : Race → Prop where
  | stored (v v' : Vault) (new : Secret)
      (hothers : Relation.ReflTransGen (Others ns name) w.vault v) (hv : v.Answers ns name call r v')
      (hnew : v'.secret = some new) (hstored : v'.stored = new :: v.stored) :
      Answers ns name w call r ⟨v', (v.secret, new) :: w.writes⟩
  | kept (v v' : Vault) (hothers : Relation.ReflTransGen (Others ns name) w.vault v)
      (hv : v.Answers ns name call r v') (hsame : v'.stored = v.stored) :
      Answers ns name w call r ⟨v', w.writes⟩

def setting (ns name : GoString) : Setting Call Answer Race where
  sem w call r w' := w.Answers ns name call r w'
  may _ _ := True

/-- A version that a write of the new password stored, over one that it may replace: exactly
the robot's name and the password as data, the labels of the bridge, the id of the robot and
the promise, and the other labels and annotations as they were. -/
structure Replaces (c : Config) (ha : HarborAccess) (robot : Robot) (password : GoString)
    (notBefore : Int) (old : Option Secret) (new : Secret) : Prop where
  data : new.data = robotData robot password
  labels : ∀ k v, (RobotSecret.labels c.clusterName ha.key.ns ha.key.name).lookup k = some v →
    new.labels.lookup k = some v
  robotID : new.annotations.lookup RobotSecret.annotationRobotID =
    some (RobotSecret.formatRobotID robot.id)
  notBefore : new.annotations.lookup RobotSecret.annotationRotationNotBefore =
    some (RobotSecret.formatRotationNotBefore notBefore)
  kept : ∀ s, old = some s →
    (∀ k, k ∉ RobotSecret.labels c.clusterName ha.key.ns ha.key.name →
      new.labels.lookup k = s.labels.lookup k) ∧
    ∀ k, k ≠ RobotSecret.annotationRobotID → k ≠ RobotSecret.annotationRotationNotBefore →
      new.annotations.lookup k = s.annotations.lookup k
  free : secretConflict c ha old robot.name = none

section Steps

variable {c : Config} {ha : HarborAccess} {robot : Robot} {password : GoString} {notBefore : Int}

theorem notMem_robotAnnotations {k : GoString} (hid : k ≠ RobotSecret.annotationRobotID)
    (hnb : k ≠ RobotSecret.annotationRotationNotBefore) : k ∉ robotAnnotations robot notBefore := by
  intro hmem
  rw [robotAnnotations, Finmap.mem_insert, Finmap.mem_singleton] at hmem
  exact hmem.elim hnb hid

theorem replaces_updated {existing new : Secret}
    (hfree : secretConflict c ha (some existing) robot.name = none) (hne : password ≠ [])
    (hlabels : new.labels = (updatedRobotSecret c ha existing robot password notBefore).labels)
    (hannotations :
      new.annotations = (updatedRobotSecret c ha existing robot password notBefore).annotations)
    (hdata : new.data = (updatedRobotSecret c ha existing robot password notBefore).data) :
    Replaces c ha robot password notBefore (some existing) new := by
  obtain ⟨hid, hnb⟩ := Vault.lookup_robotAnnotations robot notBefore
  rw [updatedRobotSecret] at hlabels hannotations hdata
  dsimp only at hlabels hannotations hdata
  refine ⟨?_, ?_, ?_, ?_, ?_, hfree⟩
  · rw [hdata, if_neg hne]
  · intro k v hk
    rw [hlabels, Finmap.lookup_union_left (Finmap.mem_of_lookup_eq_some hk), hk]
  · rw [hannotations, Finmap.lookup_union_left (Finmap.mem_of_lookup_eq_some hid), hid]
  · rw [hannotations, Finmap.lookup_union_left (Finmap.mem_of_lookup_eq_some hnb), hnb]
  · intro s hs
    obtain rfl := Option.some.inj hs
    constructor
    · intro k hk
      rw [hlabels, Finmap.lookup_union_right hk]
    · intro k hkid hknb
      rw [hannotations, Finmap.lookup_union_right (notMem_robotAnnotations hkid hknb)]

theorem replaces_created {new : Secret}
    (hlabels : new.labels = (newRobotSecret c ha robot password notBefore).labels)
    (hannotations : new.annotations = (newRobotSecret c ha robot password notBefore).annotations)
    (hdata : new.data = (newRobotSecret c ha robot password notBefore).data) :
    Replaces c ha robot password notBefore none new := by
  obtain ⟨hid, hnb⟩ := Vault.lookup_robotAnnotations robot notBefore
  rw [newRobotSecret] at hlabels hannotations hdata
  dsimp only at hlabels hannotations hdata
  refine ⟨hdata, fun k v hk => ?_, ?_, ?_, nofun, rfl⟩
  · rw [hlabels, hk]
  · rw [hannotations, hid]
  · rw [hannotations, hnb]

/-- The versions of the Secret are in order, and the pass has replaced only versions that it
may, with versions that hold the new password. -/
structure Held (c : Config) (ha : HarborAccess) (robot : Robot) (password : GoString)
    (notBefore : Int) (w : Race) : Prop where
  ok : w.vault.Ok c.ns (RobotSecret.name ha.key.ns ha.key.name)
  writes : ∀ p ∈ w.writes, Replaces c ha robot password notBefore p.1 p.2

theorem ok_others {ns name : GoString} {v v' : Vault} (hv : v.Ok ns name)
    (hothers : Relation.ReflTransGen (Others ns name) v v') :
    v'.Ok ns name ∧ v.stored ⊆ v'.stored := by
  induction hothers with
  | refl => exact ⟨hv, List.Subset.refl _⟩
  | @tail v₁ v₂ _ hstep ih =>
    cases hstep with
    | stored s hname =>
      obtain ⟨new, -, hstored, -⟩ := Vault.stored_put v₁ s
      refine ⟨ih.1.put hname, ?_⟩
      rw [hstored]
      exact List.subset_cons_of_subset _ ih.2
    | deleted => exact ⟨ih.1.delete, ih.2⟩

def Written (w : Race) : Prop := ∃ old new, w.writes.head? = some (old, new) ∧ w.vault.secret = some new

/-- A write of the pass that takes effect, over a version that it may replace. -/
theorem Held.write {w : Race} (hw : Held c ha robot password notBefore w) {v v' : Vault}
    {new : Secret} (hok : v'.Ok c.ns (RobotSecret.name ha.key.ns ha.key.name))
    (hnew : v'.secret = some new) (hreplaces : Replaces c ha robot password notBefore v.secret new) :
    Held c ha robot password notBefore ⟨v', (v.secret, new) :: w.writes⟩ ∧
      Written ⟨v', (v.secret, new) :: w.writes⟩ := by
  refine ⟨⟨hok, fun p hp => ?_⟩, v.secret, new, rfl, hnew⟩
  rcases List.mem_cons.mp hp with rfl | hp
  · exact hreplaces
  · exact hw.writes p hp

theorem wp_putRobotSecret {current : Option Secret} {w : Race}
    (hw : Held c ha robot password notBefore w) (hne : password ≠ [])
    (hcurrent : ∀ s, current = some s → s ∈ w.vault.stored)
    (hfree : secretConflict c ha current robot.name = none) :
    (putRobotSecret c ha current robot password notBefore).Wp
      (setting c.ns (RobotSecret.name ha.key.ns ha.key.name))
      (fun res w' => Held c ha robot password notBefore w' ∧
        w.vault.stored ⊆ w'.vault.stored ∧ (res = .ok () → Written w')) w := by
  cases current with
  | none =>
    unfold putRobotSecret
    dsimp only
    rw [if_neg hne]
    refine ⟨trivial, fun r w' hs => ?_⟩
    cases hs with
    | stored v v' new hothers hv hnew hstored =>
      obtain ⟨hok, hsubset⟩ := ok_others hw.ok hothers
      have hgrows : w.vault.stored ⊆ v'.stored := hstored ▸ List.subset_cons_of_subset _ hsubset
      cases hv with
      | created _ hname habsent r =>
        obtain ⟨x, hx, -, -, -, hlabels, hannotations, hdata, -⟩ :=
          Vault.stored_put v (newRobotSecret c ha robot password notBefore)
        obtain rfl := Option.some.inj (hx.symm.trans hnew)
        have hreplaces := replaces_created hlabels hannotations hdata
        rw [← habsent] at hreplaces
        obtain ⟨hheld, hwritten⟩ := hw.write (hok.put hname) hnew hreplaces
        match r with
        | .ok () => exact ⟨hheld, hgrows, fun _ => hwritten⟩
        | .error e => exact ⟨hheld, hgrows, nofun⟩
      | createFailed _ e => exact absurd (congrArg List.length hstored) (by simp)
      | elsewhere _ _ h => exact absurd ⟨rfl, rfl⟩ h
    | kept v v' hothers hv hsame =>
      obtain ⟨hok, hsubset⟩ := ok_others hw.ok hothers
      cases hv with
      | created _ hname habsent r => exact absurd (congrArg List.length hsame) (by simp [Vault.put])
      | createFailed _ e => exact ⟨⟨hok, hw.writes⟩, hsubset, nofun⟩
      | elsewhere _ _ h => exact absurd ⟨rfl, rfl⟩ h
  | some existing =>
    obtain ⟨hns, hname, -⟩ := hw.ok.named existing (hcurrent existing rfl)
    unfold putRobotSecret
    dsimp only
    rw [if_neg fun h => hne h.2.2]
    refine ⟨trivial, fun r w' hs => ?_⟩
    cases hs with
    | stored v v' new hothers hv hnew hstored =>
      obtain ⟨hok, hsubset⟩ := ok_others hw.ok hothers
      have hgrows : w.vault.stored ⊆ v'.stored := hstored ▸ List.subset_cons_of_subset _ hsubset
      cases hv with
      | updated _ l hl hlock r =>
        -- the version that is replaced is the one that the pass read
        obtain rfl := hok.unique l (hok.live l hl) existing (hsubset (hcurrent existing rfl)) hlock
        obtain ⟨x, hx, -, -, -, hlabels, hannotations, hdata, -⟩ :=
          Vault.stored_put v (updatedRobotSecret c ha l robot password notBefore)
        obtain rfl := Option.some.inj (hx.symm.trans hnew)
        have hreplaces := replaces_updated hfree hne hlabels hannotations hdata
        rw [← hl] at hreplaces
        have hput : (v.put (updatedRobotSecret c ha l robot password notBefore)).Ok c.ns
            (RobotSecret.name ha.key.ns ha.key.name) := hok.put ⟨hns, hname⟩
        obtain ⟨hheld, hwritten⟩ := hw.write hput hnew hreplaces
        match r with
        | .ok () => exact ⟨hheld, hgrows, fun _ => hwritten⟩
        | .error e => exact ⟨hheld, hgrows, nofun⟩
      | updateFailed _ e => exact absurd (congrArg List.length hstored) (by simp)
      | elsewhere _ _ h => exact absurd ⟨hns, hname⟩ h
    | kept v v' hothers hv hsame =>
      obtain ⟨hok, hsubset⟩ := ok_others hw.ok hothers
      cases hv with
      | updated _ l hl hlock r => exact absurd (congrArg List.length hsame) (by simp [Vault.put])
      | updateFailed _ e => exact ⟨⟨hok, hw.writes⟩, hsubset, nofun⟩
      | elsewhere _ _ h => exact absurd ⟨hns, hname⟩ h

/-- A version that the pass reads again is one that was stored. -/
theorem wp_getRobotSecret {w : Race} (hw : Held c ha robot password notBefore w) :
    (getRobotSecret c ha).Wp (setting c.ns (RobotSecret.name ha.key.ns ha.key.name))
      (fun res w' => Held c ha robot password notBefore w' ∧ w.vault.stored ⊆ w'.vault.stored ∧
        ∀ fresh, res = .ok fresh → ∀ s, fresh = some s → s ∈ w'.vault.stored) w := by
  refine ⟨trivial, fun r w' hs => ?_⟩
  cases hs with
  | stored v v' new hothers hv hnew hstored =>
    -- a read stores nothing
    cases hv with
    | read => exact absurd (congrArg List.length hstored) (by simp)
    | readFailed e => exact absurd (congrArg List.length hstored) (by simp)
    | elsewhere _ _ h => exact absurd ⟨rfl, rfl⟩ h
  | kept v v' hothers hv hsame =>
    obtain ⟨hok, hsubset⟩ := ok_others hw.ok hothers
    cases hv with
    | read =>
      cases hsecret : v.secret with
      | none =>
        refine ⟨⟨hok, hw.writes⟩, hsubset, fun fresh hfresh s hs => ?_⟩
        obtain rfl := Except.ok.inj hfresh
        cases hs
      | some l =>
        refine ⟨⟨hok, hw.writes⟩, hsubset, fun fresh hfresh s hs => ?_⟩
        obtain rfl := Except.ok.inj hfresh
        obtain rfl := Option.some.inj hs
        exact hok.live _ hsecret
    | readFailed e he =>
      cases e with
      | notFound => exact absurd rfl he
      | _ => exact ⟨⟨hok, hw.writes⟩, hsubset, nofun⟩
    | elsewhere _ _ h => exact absurd ⟨rfl, rfl⟩ h

structure Tries (c : Config) (ha : HarborAccess) (robot : Robot) (password : GoString) (notBefore : Int)
    (current : Option Secret) (w : Race) : Prop where
  held : Held c ha robot password notBefore w
  stored : ∀ s, current = some s → s ∈ w.vault.stored
  free : secretConflict c ha current robot.name = none

theorem wp_storeRobotSecret (retries : Nat) {current : Option Secret} {w : Race} (hne : password ≠ [])
    (hw : Tries c ha robot password notBefore current w) :
    (storeRobotSecret c ha robot password notBefore retries current).Wp
      (setting c.ns (RobotSecret.name ha.key.ns ha.key.name))
      (fun res w' => Held c ha robot password notBefore w' ∧ (res = .ok () → Written w')) w := by
  refine Prog.wp_mono (fun _ w' h => ?_) _ _ (wp_storeRobotSecret_rule
    (Tries c ha robot password notBefore) (Tries c ha robot password notBefore) Written
    (fun current w hw => ?_) (fun current w hw => ?_) retries hw)
  · obtain ⟨⟨current, hw'⟩, hwritten⟩ := h
    exact ⟨hw'.held, hwritten⟩
  · refine Prog.wp_mono (fun _ w' h => ?_) _ _ (wp_putRobotSecret hw.held hne hw.stored hw.free)
    have hw' : Tries c ha robot password notBefore current w' :=
      ⟨h.1, fun s hs => h.2.1 (hw.stored s hs), hw.free⟩
    exact ⟨⟨current, hw'⟩, h.2.2, fun _ _ _ => hw'⟩
  · refine Prog.wp_mono (fun res w' h => ?_) _ _ (wp_getRobotSecret hw.held)
    have hw' : Tries c ha robot password notBefore current w' :=
      ⟨h.1, fun s hs => h.2.1 (hw.stored s hs), hw.free⟩
    exact ⟨⟨current, hw'⟩, fun _ _ => hw', fun fresh hfresh hfree => ⟨h.1, h.2.2 fresh hfresh, hfree⟩⟩

end Steps

/-- A new password is stored under races: if `writeRobotSecret` returns no error, its last write
holds the password, and whatever it returns, it has replaced only versions without a
conflict, each by one that holds the password. -/
theorem new_password_stored (c : Config) (ha : HarborAccess) (existing : Option Secret)
    (robot : Robot) (password : GoString) (hne : password ≠ []) (notBefore : Int) (v : Vault)
    (hv : v.Ok c.ns (RobotSecret.name ha.key.ns ha.key.name))
    (hread : ∀ s, existing = some s → s ∈ v.stored)
    (hfree : secretConflict c ha existing robot.name = none) :
    (writeRobotSecret c ha existing robot password notBefore).Wp
      (setting c.ns (RobotSecret.name ha.key.ns ha.key.name))
      (fun res w => (∀ p ∈ w.writes, Replaces c ha robot password notBefore p.1 p.2) ∧
        (res = .ok () → ∃ old new, w.writes.head? = some (old, new) ∧ w.vault.secret = some new ∧
          Replaces c ha robot password notBefore old new)) ⟨v, []⟩ := by
  have hheld : Held c ha robot password notBefore ⟨v, []⟩ := ⟨hv, nofun⟩
  unfold writeRobotSecret
  rw [if_neg hne]
  refine Prog.wp_mono (fun res w h => ?_) _ _ (wp_storeRobotSecret _ hne ⟨hheld, hread, hfree⟩)
  obtain ⟨hw, hwritten⟩ := h
  refine ⟨hw.writes, fun hok => ?_⟩
  obtain ⟨old, new, hhead, hsecret⟩ := hwritten hok
  exact ⟨old, new, hhead, hsecret, hw.writes _ (List.mem_of_mem_head? hhead)⟩

/-! ## A given version -/

def sampleRobot : Robot where
  id := 7
  name := lit "bridge-prod.team.app"
  wireName := lit "robot$bridge-prod.team.app"
  description := robotDescription (lit "prod") (lit "team") (lit "app")
  disabled := false
  expiresAt := -1
  permissions := []
  foreignAccess := false
  secret := []

/-- The robot Secret with a label of someone else. -/
def sampleVersion : Secret where
  ns := lit "bridge"
  name := RobotSecret.name (lit "team") (lit "app")
  uid := lit "1"
  resourceVersion := 1
  labels := (RobotSecret.labels (lit "prod") (lit "team") (lit "app")).insert (lit "team") (lit "blue")
  annotations := ∅
  data := robotData sampleRobot (lit "old")

/-- The password goes over a version that others may have changed since it was read. -/
theorem new_password_stored_over_old :
    (writeRobotSecret sampleConfig (sampleAccess sampleKey ⟨lit "team", lit "app"⟩)
      (some sampleVersion) sampleRobot (lit "new") 0).Wp
      (setting (lit "bridge") (RobotSecret.name (lit "team") (lit "app")))
      (fun res w => res = .ok () → ∃ new, w.vault.secret = some new ∧
        RobotSecret.credentials new = some (lit "robot$bridge-prod.team.app", lit "new"))
      ⟨⟨some sampleVersion, [sampleVersion], 1⟩, []⟩ := by
  have hok : Vault.Ok (lit "bridge") (RobotSecret.name (lit "team") (lit "app"))
      ⟨some sampleVersion, [sampleVersion], 1⟩ :=
    ⟨by simp, by simp [sampleVersion], by simp⟩
  refine Prog.wp_mono (fun res w h hres => ?_) _ _ (new_password_stored sampleConfig
    (sampleAccess sampleKey ⟨lit "team", lit "app"⟩) (some sampleVersion) sampleRobot (lit "new")
    (by decide) 0 _ hok (by simp) (by decide +kernel))
  obtain ⟨old, new, -, hsecret, hreplaces⟩ := h.2 hres
  refine ⟨new, hsecret, ?_⟩
  rw [Vault.credentials_of_data hreplaces.data]
  decide

end Race

end HarborBridge
