import HarborBridge.Undisturbed

/-! The janitor deletes orphans only, and all of them. -/
namespace HarborBridge

open GoStrings Interaction

namespace Janitor

variable {c : Config} {w : Site}

theorem condemned_eq_true {robot : Robot} : condemned c w robot = true ↔
    ∃ ns name, Tagged c robot ns name ∧ ∀ ha, w.access ns name = some ha → ¬ Keeps c robot ha := by
  unfold condemned
  constructor
  · intro h
    cases hjudged : judgedOwner c robot with
    | none =>
      rw [hjudged] at h
      cases h
    | some owner =>
      obtain ⟨ns, name⟩ := owner
      rw [hjudged] at h
      refine ⟨ns, name, judgedOwner_eq_some.mp hjudged, fun ha haccess hkeeps => ?_⟩
      dsimp only at h
      rw [robotVerdict_eq_none.mpr ⟨ha, haccess, hkeeps⟩] at h
      cases h
  · rintro ⟨ns, name, htagged, hnot⟩
    rw [judgedOwner_eq_some.mpr htagged]
    refine Option.isSome_iff_ne_none.mpr fun hnone => ?_
    obtain ⟨ha, haccess, hkeeps⟩ := robotVerdict_eq_none.mp hnone
    exact hnot ha haccess hkeeps

theorem condemned_eq_false {robot : Robot} {ns name : GoString} (htagged : Tagged c robot ns name) :
    condemned c w robot = false ↔ ∃ ha, w.access ns name = some ha ∧ Keeps c robot ha := by
  rw [← Bool.not_eq_true, condemned_eq_true]
  constructor
  · intro h
    by_contra hnone
    exact h ⟨ns, name, htagged, fun ha haccess hkeeps => hnone ⟨ha, haccess, hkeeps⟩⟩
  · rintro ⟨ha, haccess, hkeeps⟩ ⟨ns', name', htagged', hnot⟩
    obtain ⟨rfl, rfl⟩ := Prod.mk.inj (Option.some.inj (htagged.owner.symm.trans htagged'.owner))
    exact hnot ha haccess hkeeps

theorem condemnedSecret_eq_true {s : Secret} : condemnedSecret c w s = true ↔
    ∃ ns name, RobotSecret.owner s = some (ns, name) ∧ ∀ ha, w.access ns name = some ha →
      ¬ (c.selects ha = true ∧ s.name = RobotSecret.name ha.key.ns ha.key.name) := by
  unfold condemnedSecret
  constructor
  · intro h
    cases howner : RobotSecret.owner s with
    | none =>
      rw [howner] at h
      cases h
    | some owner =>
      obtain ⟨ns, name⟩ := owner
      rw [howner] at h
      refine ⟨ns, name, rfl, fun ha haccess hkeeps => ?_⟩
      dsimp only at h
      rw [secretVerdict_eq_none.mpr ⟨ha, haccess, hkeeps⟩] at h
      cases h
  · rintro ⟨ns, name, howner, hnot⟩
    rw [howner]
    refine Option.isSome_iff_ne_none.mpr fun hnone => ?_
    obtain ⟨ha, haccess, hkeeps⟩ := secretVerdict_eq_none.mp hnone
    exact hnot ha haccess hkeeps

end Janitor

namespace Site

open Janitor

variable {c : Config} {w w' : Site}

theorem Swept.access (hs : Swept c w w') (hd : w.Distinct) {ns name : GoString} {ha : HarborAccess}
    (hsel : c.selects ha = true) : w'.access ns name = some ha ↔ w.access ns name = some ha := by
  rw [hs.distinct.access_eq_some, hd.access_eq_some, hs.selected ha hsel]

structure Settled (c : Config) (w : Site) : Prop where
  robots : ∀ r robot, w.harbor.Views c r robot → condemned c w robot = false
  secrets : ∀ s ∈ w.secrets, s.ns = c.ns → hasLabels (matchingLabels c) s = true →
    condemnedSecret c w s = false
  distinct : w.Distinct

theorem Swept.settled (hs : Swept c w w') (hd : w.Distinct) : Settled c w' := by
  refine ⟨fun r robot hv => ?_, fun s hmem hns hlabels => ?_, hs.distinct⟩
  · obtain ⟨hr, hnot⟩ := (hs.robots r).mp hv.1
    have hfalse := hnot robot (hv.congr hr hs.robotNamePrefix.symm)
    rw [← Bool.not_eq_true, condemned_eq_true] at hfalse ⊢
    rintro ⟨ns, name, htagged, hkept⟩
    exact hfalse ⟨ns, name, htagged, fun ha haccess hkeeps =>
      hkept ha ((hs.access hd hkeeps.1).mpr haccess) hkeeps⟩
  · have hfalse : ¬ condemnedSecret c w s = true := fun h =>
      ((hs.secrets s).mp hmem).2 ⟨hns, hlabels, h⟩
    rw [← Bool.not_eq_true]
    rw [condemnedSecret_eq_true] at hfalse ⊢
    rintro ⟨ns, name, howner, hkept⟩
    exact hfalse ⟨ns, name, howner, fun ha haccess hkeeps =>
      hkept ha ((hs.access hd hkeeps.1).mpr haccess) hkeeps⟩

def DeletesNothing (call : Call) : Prop :=
  (∀ id, call ≠ .harbor (.deleteRobot id)) ∧ ∀ s, call ≠ .deleteSecret s

theorem Settled.wp_sweep (hw : Settled c w) :
    (sweep c).Wp (quiet DeletesNothing) (fun _ _ => True) w := by
  refine Prog.wp_mono (fun _ _ _ => trivial) _ _ (Site.wp_sweep hw.distinct
    (fun _ hrobot hsecret => ⟨hrobot, hsecret⟩) (fun r robot hv hcond => ?_)
    fun s hmem hns hlabels hcond => ?_)
  · rw [hw.robots r robot hv] at hcond
    cases hcond
  · rw [hw.secrets s hmem hns hlabels] at hcond
    cases hcond

end Site

namespace Janitor

/-- A sweep deletes only what a read of the owner, made after the listing, shows to be an
orphan, whatever else goes on. Where nothing else goes on and no call fails, the robots of this
cluster with an owner that remain are those at the current name of a selected owner, and a
second sweep finds nothing to delete. -/
theorem sweep_deletes_exactly_orphans (c : Config) :
    (sweep c).Wp (recording (Justified c)) (fun _ _ => True) [] ∧
    ∀ w : Site, w.Distinct → (sweep c).Wp (Site.quiet fun _ => True) (fun res w' => res = .ok () →
      (∀ r robot ns name, w.harbor.Views c r robot → Tagged c robot ns name →
        (r ∈ w'.harbor.robots ↔
          ∃ ha ∈ w'.accesses, ha.key.ns = ns ∧ ha.key.name = name ∧ Keeps c robot ha)) ∧
      (∀ r ∈ w'.harbor.robots, r ∈ w.harbor.robots) ∧
      (sweep c).Wp (Site.quiet Site.DeletesNothing) (fun _ _ => True) w') w := by
  refine ⟨wp_sweep_recorded, fun w hd => ?_⟩
  refine Prog.wp_mono (fun res w' hswept hres => ?_) _ _
    (Site.wp_sweep hd (fun _ _ _ => trivial) (fun _ _ _ _ => trivial) fun _ _ _ _ _ => trivial)
  have hs := hswept hres
  refine ⟨fun r robot ns name hv htagged => ?_, fun r hr => ((hs.robots r).mp hr).1,
    (hs.settled hd).wp_sweep⟩
  have hother : ∀ robot', w.harbor.Views c r robot' → robot' = robot := fun robot' hv' =>
    Option.some.inj (hv'.2.symm.trans hv.2)
  calc r ∈ w'.harbor.robots ↔ condemned c w robot = false := by
        rw [hs.robots]
        exact ⟨fun h => h.2 robot hv, fun h => ⟨hv.1, fun robot' hv' => hother robot' hv' ▸ h⟩⟩
    _ ↔ ∃ ha, w.access ns name = some ha ∧ Keeps c robot ha := condemned_eq_false htagged
    _ ↔ ∃ ha ∈ w'.accesses, ha.key.ns = ns ∧ ha.key.name = name ∧ Keeps c robot ha := by
        refine exists_congr fun ha => ?_
        rw [hd.access_eq_some, and_assoc, and_assoc]
        constructor
        · rintro ⟨hm, hns, hname, hkeeps⟩
          exact ⟨(hs.selected ha hkeeps.1).mpr hm, hns, hname, hkeeps⟩
        · rintro ⟨hm, hns, hname, hkeeps⟩
          exact ⟨(hs.selected ha hkeeps.1).mp hm, hns, hname, hkeeps⟩

def leftoverHarbor : Harbor where
  robotNamePrefix := lit "robot$"
  honoursFilter := true
  robots := [
    ⟨1, lit "bridge-prod.team.app", true, robotDescription (lit "prod") (lit "team") (lit "app"), false,
      -1, [], lit "p"⟩,
    ⟨2, lit "bridge-prod-team-app", true, robotDescription (lit "prod") (lit "team") (lit "app"), false,
      -1, [], lit "q"⟩]
  nextId := 3
  issued := [lit "p", lit "q"]
  sorted := by decide
  bounds := by decide
  nextId_pos := nextId_three_pos
  nextId_le := nextId_three_le
  password_issued := by decide

def leftoverSite : Site where
  harbor := leftoverHarbor
  accesses := [sampleAccess sampleKey ⟨lit "team", lit "app"⟩]
  secrets := [⟨lit "bridge", lit "robot-team.gone", lit "2", 2,
    RobotSecret.labels (lit "prod") (lit "team") (lit "gone"), ∅, ∅⟩]
  revision := 2
  clock := 0

theorem leftoverSite_distinct : leftoverSite.Distinct := by
  refine ⟨fun a ha b hb _ => ?_, fun s hs t ht _ _ => ?_⟩
  · rw [List.mem_singleton.mp ha, List.mem_singleton.mp hb]
  · rw [List.mem_singleton.mp hs, List.mem_singleton.mp ht]

/-- The legacy robot and the Secret go, and then nothing more. -/
theorem sweep_deletes_exactly_orphans_leftover :
    let swept := (sweep sampleConfig).exec Site.serve leftoverSite
    swept.1 = .ok () ∧ swept.2.harbor.robots.map (·.id) = [1] ∧ swept.2.secrets = [] ∧
      (sweep sampleConfig).Wp (Site.quiet Site.DeletesNothing) (fun _ _ => True) swept.2 := by
  have hok : ((sweep sampleConfig).exec Site.serve leftoverSite).1 = .ok () := by rfl
  refine ⟨hok, by rfl, by rfl, ?_⟩
  exact (leftoverSite.wp_exec _ _ (by decide +kernel)
    ((sweep_deletes_exactly_orphans sampleConfig).2 leftoverSite leftoverSite_distinct) hok).2.2

end Janitor

end HarborBridge
