import HarborBridge.HarborClient
import HarborBridge.SweepSound

/-! A sweep of a cluster in which nobody else acts and no call fails. -/
namespace HarborBridge

open GoStrings Interaction

theorem Harbor.Views.congr {c : Config} {h h' : Harbor} {r : StoredRobot} {robot : Robot}
    (hv : h.Views c r robot) (hmem : r ∈ h'.robots)
    (hprefixed : h'.robotNamePrefix = h.robotNamePrefix) : h'.Views c r robot := by
  refine ⟨hmem, ?_⟩
  rw [← hv.2]
  unfold Harbor.report Harbor.wireName
  rw [hprefixed]

namespace Harbor

def without (h : Harbor) (ids : List Int) : Harbor := ids.foldl delete h

theorem mem_without (h : Harbor) (ids : List Int) (r : StoredRobot) :
    r ∈ (h.without ids).robots ↔ r ∈ h.robots ∧ r.id ∉ ids := by
  induction ids generalizing h with
  | nil => simp [without]
  | cons id ids ih =>
    have hcons : h.without (id :: ids) = (h.delete id).without ids := rfl
    rw [hcons, ih, mem_delete, List.mem_cons, not_or, and_assoc]

theorem robotNamePrefix_without (h : Harbor) (ids : List Int) :
    (h.without ids).robotNamePrefix = h.robotNamePrefix := by
  induction ids generalizing h with
  | nil => rfl
  | cons id ids ih => exact ih (h.delete id)

end Harbor

namespace Site

structure Distinct (w : Site) : Prop where
  accesses : ∀ a ∈ w.accesses, ∀ b ∈ w.accesses, a.key = b.key → a = b
  secrets : ∀ s ∈ w.secrets, ∀ t ∈ w.secrets, s.ns = t.ns → s.name = t.name → s = t

def quiet (may : Call → Prop) : Setting Call Answer Site where
  sem w call r w' := w.Serves call r w'
  may _ call := may call

variable {c : Config} {w : Site} {may : Call → Prop} {α : Type}

theorem wp_kube {call : Call} {k : Answer call → BridgeProg α} {Q : α → Site → Prop}
    (hharbor : ∀ request, call ≠ .harbor request) (hnow : call ≠ .now) (hmay : may call)
    (hk : (k (w.serve call).1).Wp (quiet may) Q (w.serve call).2) :
    (Prog.call call k).Wp (quiet may) Q w := by
  refine ⟨hmay, fun r w' hs => ?_⟩
  have hs : w.Serves call r w' := hs
  cases hs with
  | harbor request => exact absurd rfl (hharbor request)
  | now => exact absurd rfl hnow
  | kube => exact hk

theorem wp_kube_bind {call : Call} {f : Answer call → BridgeProg α} {Q : α → Site → Prop}
    (hharbor : ∀ request, call ≠ .harbor request) (hnow : call ≠ .now) (hmay : may call)
    (hk : (f (w.serve call).1).Wp (quiet may) Q (w.serve call).2) :
    (Prog.ask call >>= f).Wp (quiet may) Q w := wp_kube hharbor hnow hmay hk

/-- A program over Harbor leaves the objects of the apiserver alone. -/
theorem wp_quiet_onHarbor {p : HarborProg α} {Q : α → Harbor → Prop}
    (hp : p.Wp (Harbor.serving fun call => may (.harbor call)) Q w.harbor) :
    (onHarbor p).Wp (quiet may) (fun a w' => ∃ h', w' = { w with harbor := h' } ∧ Q a h') w := by
  refine wp_onHarbor (Prog.wp_lens (S := harborPart (quiet may))
    (T := Harbor.serving fun call => may (.harbor call)) (fun h => { w with harbor := h })
    (fun _ _ hm => hm) (fun h call r w' hs => ?_) hp)
  have hs : Serves { w with harbor := h } (.harbor call) r w' := hs
  cases hs with
  | harbor _ _ h' hserved => exact ⟨h', rfl, hserved⟩
  | kube _ hharbor => exact absurd rfl (hharbor call)

theorem find?_eq_some_of_unique {p : α → Bool} {l : List α} {a : α}
    (hunique : ∀ x ∈ l, ∀ y ∈ l, p x = true → p y = true → x = y) :
    l.find? p = some a ↔ a ∈ l ∧ p a = true := by
  refine ⟨fun h => ⟨List.mem_of_find?_eq_some h, List.find?_some h⟩, fun h => ?_⟩
  cases hfind : l.find? p with
  | none => exact absurd h.2 (List.find?_eq_none.mp hfind a h.1)
  | some b =>
    rw [hunique b (List.mem_of_find?_eq_some hfind) a h.1 (List.find?_some hfind) h.2]

namespace Distinct

variable (hd : w.Distinct) {ns name : GoString}
include hd

theorem access_unique (x : HarborAccess) (hx : x ∈ w.accesses) (y : HarborAccess)
    (hy : y ∈ w.accesses) (hxk : decide (x.key.ns = ns ∧ x.key.name = name) = true)
    (hyk : decide (y.key.ns = ns ∧ y.key.name = name) = true) : x = y := by
  have hxk := of_decide_eq_true hxk
  have hyk := of_decide_eq_true hyk
  refine hd.accesses x hx y hy ?_
  rw [ObjectKey.ext_iff', hxk.1, hxk.2, hyk.1, hyk.2]
  exact ⟨rfl, rfl⟩

theorem access_eq_some {ha : HarborAccess} : w.access ns name = some ha ↔
    ha ∈ w.accesses ∧ ha.key.ns = ns ∧ ha.key.name = name := by
  unfold access
  rw [find?_eq_some_of_unique hd.access_unique, decide_eq_true_eq]

theorem ownerAt_eq : Janitor.ownerAt w.accesses ns name = w.access ns name := by
  refine Option.ext fun ha => ?_
  rw [hd.access_eq_some]
  unfold Janitor.ownerAt
  rw [find?_eq_some_of_unique fun x hx y hy =>
    hd.access_unique x (List.mem_reverse.mp hx) y (List.mem_reverse.mp hy),
    decide_eq_true_eq, List.mem_reverse]

end Distinct

end Site

namespace Janitor

/-- The sweep of the cluster as it is deletes the robot. -/
def condemned (c : Config) (w : Site) (robot : Robot) : Bool :=
  match judgedOwner c robot with
  | none => false
  | some (ns, name) =>
    (robotVerdict c robot (ownsLegacyRobot c.clusterName robot.name) (w.access ns name)).isSome

/-- The sweep of the cluster as it is deletes the Secret, if it lists it. -/
def condemnedSecret (c : Config) (w : Site) (s : Secret) : Bool :=
  match RobotSecret.owner s with
  | none => false
  | some (ns, name) => (secretVerdict c s (w.access ns name)).isSome

end Janitor

namespace Site

open Janitor

variable {c : Config} {w : Site} {may : Call → Prop}

theorem wp_liveOwner (hread : ∀ ns name, may (.readAccess ns name)) (ns name : GoString) :
    (liveOwner ns name).Wp (quiet may) (fun res w' => res = .ok (w.access ns name) ∧ w' = w) w := by
  refine wp_kube nofun nofun (hread ns name) ?_
  have hanswer : (w.serve (.readAccess ns name)).1 = Kube.found (w.access ns name) := rfl
  rw [hanswer]
  cases w.access ns name <;> exact ⟨rfl, rfl⟩

theorem wp_sweepRobot (hd : w.Distinct) (hread : ∀ ns name, may (.readAccess ns name))
    (robot : Robot)
    (hdelete : condemned c w robot = true → may (.harbor (.deleteRobot robot.id))) :
    (sweepRobot c w.accesses robot).Wp (quiet may) (fun _ w' => w' =
      if condemned c w robot then { w with harbor := w.harbor.delete robot.id } else w) w := by
  have hcond : condemned c w robot = match judgedOwner c robot with
    | none => false
    | some (ns, name) => (robotVerdict c robot (ownsLegacyRobot c.clusterName robot.name)
      (w.access ns name)).isSome := rfl
  unfold sweepRobot
  cases hjudged : judgedOwner c robot with
  | none =>
    rw [hjudged] at hcond
    rw [hcond]
    exact rfl
  | some owner =>
    obtain ⟨ns, name⟩ := owner
    rw [hjudged] at hcond
    dsimp only at hcond ⊢
    rw [hd.ownerAt_eq]
    cases hverdict : robotVerdict c robot (ownsLegacyRobot c.clusterName robot.name)
        (w.access ns name) with
    | none =>
      rw [hverdict] at hcond
      rw [hcond]
      exact rfl
    | some verdict =>
      rw [hverdict] at hcond
      refine Prog.wp_seq (wp_liveOwner hread ns name) fun res w' h => ?_
      obtain ⟨rfl, rfl⟩ := h
      dsimp only
      rw [hverdict]
      refine Prog.wp_seq (wp_quiet_onHarbor (Client.wp_delete_serving w'.harbor robot.id
        (hdelete hcond))) fun _ w'' h => ?_
      obtain ⟨h', rfl, rfl⟩ := h
      rw [hcond]
      exact rfl

theorem wp_sweepRobots (hd : w.Distinct) (hread : ∀ ns name, may (.readAccess ns name))
    (robots : List Robot)
    (hdelete : ∀ robot ∈ robots, condemned c w robot = true → may (.harbor (.deleteRobot robot.id))) :
    (sweepRobots c w.accesses robots).Wp (quiet may) (fun _ w' => w' = { w with
      harbor := w.harbor.without ((robots.filter (condemned c w)).map (·.id)) }) w := by
  induction robots generalizing w with
  | nil => exact rfl
  | cons robot robots ih =>
    refine Prog.wp_seq (wp_sweepRobot hd hread robot (hdelete robot List.mem_cons_self))
      fun _ w' h => ?_
    obtain ⟨h₁, rfl, hh₁⟩ : ∃ h₁, w' = { w with harbor := h₁ } ∧
        h₁ = if condemned c w robot then w.harbor.delete robot.id else w.harbor := by
      split_ifs at h ⊢ <;> exact ⟨_, h, rfl⟩
    refine Prog.wp_mono (fun _ w'' h => ?_) _ _ (ih (w := { w with harbor := h₁ })
      ⟨hd.accesses, hd.secrets⟩ fun robot hr => hdelete robot (List.mem_cons_of_mem _ hr))
    rw [h, hh₁, List.filter_cons]
    cases condemned c w robot <;> rfl

/-! ## Secrets -/

structure Trims (drop : Secret → Prop) (w w' : Site) : Prop where
  harbor : w'.harbor = w.harbor
  accesses : w'.accesses = w.accesses
  secrets : ∀ s, s ∈ w'.secrets ↔ s ∈ w.secrets ∧ ¬ drop s

theorem Trims.refl_of_not {drop : Secret → Prop} (h : ∀ s, ¬ drop s) : Trims drop w w :=
  ⟨rfl, rfl, fun s => (and_iff_left (h s)).symm⟩

theorem Trims.distinct {drop : Secret → Prop} {w' : Site} (h : Trims drop w w') (hd : w.Distinct) :
    w'.Distinct where
  accesses := h.accesses ▸ hd.accesses
  secrets s hs t ht := hd.secrets s ((h.secrets s).mp hs).1 t ((h.secrets t).mp ht).1

theorem trims_deleteSecret (s : Secret)
    (hsame : ∀ t ∈ w.secrets, t.ns = s.ns → t.name = s.name → t = s) :
    Trims (· = s) w (w.deleteSecret s).2 := by
  unfold deleteSecret
  cases hfind : w.secret s.ns s.name with
  | none =>
    refine ⟨rfl, rfl, fun t => (and_iff_left_of_imp fun ht => ?_).symm⟩
    rintro rfl
    have hnone := List.find?_eq_none.mp hfind t ht
    simp at hnone
  | some l =>
    have hl := List.find?_some hfind
    obtain rfl := hsame l (List.mem_of_find?_eq_some hfind) (of_decide_eq_true hl).1
      (of_decide_eq_true hl).2
    dsimp only
    rw [if_pos rfl]
    refine ⟨rfl, rfl, fun t => ?_⟩
    simp only [putSecret, List.mem_filterMap]
    constructor
    · rintro ⟨u, hu, hut⟩
      split_ifs at hut with hname
      obtain rfl := Option.some.inj hut
      exact ⟨hu, fun heq => hname (heq ▸ ⟨rfl, rfl⟩)⟩
    · rintro ⟨ht, hne⟩
      exact ⟨t, ht, if_neg fun hname => hne (hsame t ht hname.1 hname.2)⟩

theorem wp_sweepSecret (hd : w.Distinct) (hread : ∀ ns name, may (.readAccess ns name)) (s : Secret)
    (hsame : ∀ t ∈ w.secrets, t.ns = s.ns → t.name = s.name → t = s)
    (hdelete : condemnedSecret c w s = true → may (.deleteSecret s)) :
    (sweepSecret c w.accesses s).Wp (quiet may)
      (fun _ w' => Trims (fun t => t = s ∧ condemnedSecret c w t = true) w w') w := by
  unfold sweepSecret
  have hkeep : condemnedSecret c w s = false →
      Trims (fun t => t = s ∧ condemnedSecret c w t = true) w w := by
    refine fun hfalse => .refl_of_not fun t ht => ?_
    rw [ht.1, hfalse] at ht
    exact absurd ht.2 Bool.false_ne_true
  have hcond : condemnedSecret c w s = match RobotSecret.owner s with
    | none => false
    | some (ns, name) => (secretVerdict c s (w.access ns name)).isSome := rfl
  cases howner : RobotSecret.owner s with
  | none =>
    rw [howner] at hcond
    exact hkeep hcond
  | some owner =>
    obtain ⟨ns, name⟩ := owner
    rw [howner] at hcond
    dsimp only at hcond ⊢
    rw [hd.ownerAt_eq]
    cases hverdict : secretVerdict c s (w.access ns name) with
    | none =>
      rw [hverdict] at hcond
      exact hkeep hcond
    | some verdict =>
      rw [hverdict] at hcond
      refine Prog.wp_seq (wp_liveOwner hread ns name) fun res w' h => ?_
      obtain ⟨rfl, rfl⟩ := h
      dsimp only
      rw [hverdict]
      refine wp_kube nofun nofun (hdelete hcond) ?_
      have htrims := trims_deleteSecret s hsame
      refine ⟨htrims.harbor, htrims.accesses, fun t => ?_⟩
      rw [show (w'.serve (.deleteSecret s)).2 = (w'.deleteSecret s).2 from rfl, htrims.secrets]
      refine and_congr_right fun _ => not_congr ⟨fun ht => ⟨ht, ht ▸ hcond⟩, fun ht => ht.1⟩

theorem wp_sweepSecrets (hd : w.Distinct) (hread : ∀ ns name, may (.readAccess ns name))
    (secrets : List Secret)
    (hsame : ∀ s ∈ secrets, ∀ t ∈ w.secrets, t.ns = s.ns → t.name = s.name → t = s)
    (hdelete : ∀ s ∈ secrets, condemnedSecret c w s = true → may (.deleteSecret s)) :
    (sweepSecrets c w.accesses secrets).Wp (quiet may)
      (fun _ w' => Trims (fun t => t ∈ secrets ∧ condemnedSecret c w t = true) w w') w := by
  induction secrets generalizing w with
  | nil => exact .refl_of_not fun s hs => absurd hs.1 List.not_mem_nil
  | cons s secrets ih =>
    refine Prog.wp_seq (wp_sweepSecret hd hread s (hsame s List.mem_cons_self)
      (hdelete s List.mem_cons_self)) fun _ w₁ h₁ => ?_
    have hcond : ∀ t, condemnedSecret c w₁ t = condemnedSecret c w t := by
      intro t
      unfold condemnedSecret access
      rw [h₁.accesses]
    rw [← h₁.accesses]
    refine Prog.wp_mono (fun _ w' h' => ?_) _ _ (ih (h₁.distinct hd)
      (fun s hs t ht => hsame s (List.mem_cons_of_mem _ hs) t ((h₁.secrets t).mp ht).1)
      fun s hs hc => hdelete s (List.mem_cons_of_mem _ hs) (hcond s ▸ hc))
    refine ⟨h'.harbor.trans h₁.harbor, h'.accesses.trans h₁.accesses, fun t => ?_⟩
    rw [h'.secrets, h₁.secrets, hcond, List.mem_cons]
    tauto

/-! ## Finalizers -/

/-- HarborAccess objects that are not selected may change or go, and nothing else does. -/
structure Releases (c : Config) (w w' : Site) : Prop where
  harbor : w'.harbor = w.harbor
  secrets : w'.secrets = w.secrets
  selected : ∀ ha, c.selects ha = true → (ha ∈ w'.accesses ↔ ha ∈ w.accesses)

theorem Releases.refl (c : Config) (w : Site) : Releases c w w := ⟨rfl, rfl, fun _ _ => Iff.rfl⟩

theorem Releases.trans {w' w'' : Site} (h : Releases c w w') (h' : Releases c w' w'') :
    Releases c w w'' :=
  ⟨h'.harbor.trans h.harbor, h'.secrets.trans h.secrets,
    fun ha hsel => (h'.selected ha hsel).trans (h.selected ha hsel)⟩

theorem mem_putAccess {key : ObjectKey} {new : Option HarborAccess} {ha : HarborAccess}
    (h : ha ∈ (w.putAccess key new).accesses) :
    new = some ha ∨ ha ∈ w.accesses ∧ ha.key ≠ key := by
  obtain ⟨l, hl, hla⟩ := List.mem_filterMap.mp h
  split_ifs at hla with hkey
  · exact .inl hla
  · obtain rfl := Option.some.inj hla
    exact .inr ⟨hl, hkey⟩

theorem Distinct.putAccess (hd : w.Distinct) {key : ObjectKey} {new : Option HarborAccess}
    (hnew : ∀ ha, new = some ha → ha.key = key) : (w.putAccess key new).Distinct := by
  refine ⟨fun a ha b hb hab => ?_, hd.secrets⟩
  rcases mem_putAccess ha with hna | ⟨hma, hka⟩ <;> rcases mem_putAccess hb with hnb | ⟨hmb, hkb⟩
  · exact Option.some.inj (hna.symm.trans hnb)
  · exact absurd (hab.symm.trans (hnew a hna)) hkb
  · exact absurd (hab.trans (hnew b hnb)) hka
  · exact hd.accesses a hma b hmb hab

/-- A release of an object that is not selected. -/
theorem releases_patchFinalizers (hd : w.Distinct) (ha : HarborAccess) (finalizers : List GoString)
    (hsel : ∀ l ∈ w.accesses, l.key = ha.key → c.selects l = false) :
    Releases c w (w.serve (.patchFinalizers ha finalizers)).2 ∧
      (w.serve (.patchFinalizers ha finalizers)).2.Distinct ∧
      ∀ l ∈ (w.serve (.patchFinalizers ha finalizers)).2.accesses, c.selects l = false ∨
        l ∈ w.accesses := by
  simp only [serve, writeAccess]
  have hsame : Releases c w w ∧ w.Distinct ∧ ∀ l ∈ w.accesses, c.selects l = false ∨ l ∈ w.accesses :=
    ⟨.refl c w, hd, fun l hl => .inr hl⟩
  cases haccess : w.access ha.key.ns ha.key.name with
  | none => exact hsame
  | some l =>
    obtain ⟨hl, hns, hname⟩ := hd.access_eq_some.mp haccess
    have hlsel := hsel l hl ((ObjectKey.ext_iff' _ _).mpr ⟨hns, hname⟩)
    dsimp only
    split_ifs with hversion hgone
    · refine ⟨⟨rfl, rfl, fun a hsela => ?_⟩, hd.putAccess (fun _ h => by cases h), fun a hm => ?_⟩
      · refine ⟨fun hm => ?_, fun hm => List.mem_filterMap.mpr ⟨a, hm, if_neg fun hkey => ?_⟩⟩
        · rcases mem_putAccess hm with hnew | hold
          · cases hnew
          · exact hold.1
        · rw [hd.accesses a hm l hl hkey, hlsel] at hsela
          cases hsela
      · rcases mem_putAccess hm with hnew | hold
        · cases hnew
        · exact .inr hold.1
    · refine ⟨⟨rfl, rfl, fun a hsela => ?_⟩, hd.putAccess fun a hnew => ?_, fun a hm => ?_⟩
      · refine ⟨fun hm => ?_, fun hm => List.mem_filterMap.mpr ⟨a, hm, if_neg fun hkey => ?_⟩⟩
        · rcases mem_putAccess hm with hnew | hold
          · obtain rfl := Option.some.inj hnew
            exact absurd (hsela.symm.trans hlsel) Bool.true_eq_false_eq_False
          · exact hold.1
        · rw [hd.accesses a hm l hl hkey, hlsel] at hsela
          cases hsela
      · rw [← Option.some.inj hnew]
      · rcases mem_putAccess hm with hnew | hold
        · obtain rfl := Option.some.inj hnew
          exact .inl hlsel
        · exact .inr hold.1
    · exact hsame

theorem wp_releaseAll (hd : w.Distinct) (hpatch : ∀ ha finalizers, may (.patchFinalizers ha finalizers))
    (robots : List Robot) (candidates : List HarborAccess)
    (hsel : ∀ ha ∈ candidates, ∀ l ∈ w.accesses, l.key = ha.key → c.selects l = false) :
    (releaseAll c robots candidates).Wp (quiet may) (fun _ w' => Releases c w w' ∧ w'.Distinct) w := by
  induction candidates generalizing w with
  | nil => exact ⟨.refl c w, hd⟩
  | cons ha candidates ih =>
    have hrest := fun a (hm : a ∈ candidates) => hsel a (List.mem_cons_of_mem _ hm)
    unfold releaseAll
    split_ifs
    · exact ih hd hrest
    · refine wp_kube (fun _ h => by cases h) (fun h => by cases h) (hpatch _ _) ?_
      obtain ⟨hreleases, hd', hmem⟩ := releases_patchFinalizers (c := c) hd ha
        (ha.finalizers.filter fun f => !(unselectedFinalizers c ha).contains f)
        (hsel ha List.mem_cons_self)
      refine Prog.wp_mono (fun _ _ h => ⟨hreleases.trans h.1, h.2⟩) _ _ (ih hd' fun a hm l hl hkey => ?_)
      rcases hmem l hl with hfalse | hold
      · exact hfalse
      · exact hrest a hm l hold hkey

theorem wp_releaseUnselected (hd : w.Distinct)
    (hpatch : ∀ ha finalizers, may (.patchFinalizers ha finalizers))
    (hlist : ∀ filter idFrom, may (.harbor (.listRobot filter idFrom))) (owners : List HarborAccess)
    (howners : ∀ ha ∈ owners, ∀ l ∈ w.accesses, l.key = ha.key → l = ha) :
    (releaseUnselected c owners).Wp (quiet may) (fun _ w' => Releases c w w' ∧ w'.Distinct) w := by
  unfold releaseUnselected
  dsimp only
  split_ifs
  · exact ⟨.refl c w, hd⟩
  · refine Prog.wp_seq (wp_quiet_onHarbor (Harbor.wp_serving (Client.wp_list_faulty w.harbor hlist none)))
      fun res w' h => ?_
    obtain ⟨h', rfl, rfl, -⟩ := h
    cases res with
    | error e => exact ⟨.refl c w, hd⟩
    | ok robots =>
      refine wp_releaseAll hd hpatch robots _ fun ha hm l hl hkey => ?_
      obtain ⟨hmem, hcand⟩ := List.mem_filter.mp hm
      rw [howners ha hmem l hl hkey]
      exact (of_decide_eq_true hcand).1

/-! ## The whole sweep -/

/-- What a sweep leaves of a cluster. -/
structure Swept (c : Config) (w w' : Site) : Prop where
  robots : ∀ r, r ∈ w'.harbor.robots ↔ r ∈ w.harbor.robots ∧
    ∀ robot, w.harbor.Views c r robot → condemned c w robot = false
  robotNamePrefix : w'.harbor.robotNamePrefix = w.harbor.robotNamePrefix
  secrets : ∀ s, s ∈ w'.secrets ↔ s ∈ w.secrets ∧
    ¬ (s.ns = c.ns ∧ hasLabels (matchingLabels c) s = true ∧ condemnedSecret c w s = true)
  selected : ∀ ha, c.selects ha = true → (ha ∈ w'.accesses ↔ ha ∈ w.accesses)
  distinct : w'.Distinct

def SweepCalls (may : Call → Prop) : Prop :=
  ∀ call, (∀ id, call ≠ .harbor (.deleteRobot id)) → (∀ s, call ≠ .deleteSecret s) → may call

theorem mem_without_condemned {h : Harbor} {robots : List Robot} (hl : h.Listed c none robots)
    (r : StoredRobot) : r ∈ (h.without ((robots.filter (condemned c w)).map (·.id))).robots ↔
      r ∈ h.robots ∧ ∀ robot, h.Views c r robot → condemned c w robot = false := by
  rw [Harbor.mem_without]
  refine and_congr_right fun hr => ?_
  constructor
  · intro hnot robot hv
    obtain ⟨robot', hmem, hv'⟩ := hl.all r hr rfl
    obtain rfl := Option.some.inj (hv.2.symm.trans hv'.2)
    rw [← Bool.not_eq_true]
    exact fun hcond => hnot (List.mem_map.mpr ⟨robot, List.mem_filter.mpr ⟨hmem, hcond⟩, hv.id⟩)
  · intro hnone hmem
    obtain ⟨robot, hin, hid⟩ := List.mem_map.mp hmem
    obtain ⟨hin, hcond⟩ := List.mem_filter.mp hin
    obtain ⟨r', hv, -⟩ := hl.only robot hin
    obtain rfl : r' = r := Harbor.eq_of_id hv.1 hr (hv.id.symm.trans hid)
    rw [hnone robot hv] at hcond
    cases hcond

/-- A sweep that lists the robots deletes exactly what is condemned. -/
theorem wp_sweep (hd : w.Distinct) (hmay : SweepCalls may)
    (hrobot : ∀ r robot, w.harbor.Views c r robot → condemned c w robot = true →
      may (.harbor (.deleteRobot robot.id)))
    (hsecret : ∀ s ∈ w.secrets, s.ns = c.ns → hasLabels (matchingLabels c) s = true →
      condemnedSecret c w s = true → may (.deleteSecret s)) :
    (sweep c).Wp (quiet may) (fun res w' => res = .ok () → Swept c w w') w := by
  have hread : ∀ ns name, may (.readAccess ns name) := fun ns name => hmay (.readAccess ns name) nofun nofun
  refine Prog.wp_seq (wp_quiet_onHarbor (Harbor.wp_serving (Client.wp_list_faulty w.harbor
    (fun filter idFrom => hmay (.harbor (.listRobot filter idFrom)) nofun nofun) none)))
    fun robots w₁ h => ?_
  obtain ⟨h₁, rfl, rfl, hlisted, -⟩ := h
  refine wp_kube_bind nofun nofun (hmay _ nofun nofun) ?_
  refine wp_kube_bind nofun nofun (hmay _ nofun nofun) ?_
  dsimp only [serve]
  have hfilter : ∀ s, s ∈ w.secrets.filter (fun s => s.ns = c.ns ∧ hasLabels (matchingLabels c) s) ↔
      s ∈ w.secrets ∧ s.ns = c.ns ∧ hasLabels (matchingLabels c) s = true := by
    intro s
    rw [List.mem_filter, decide_eq_true_eq]
  have hsweepSecrets : ∀ h', (sweepSecrets c w.accesses
      (w.secrets.filter fun s => s.ns = c.ns ∧ hasLabels (matchingLabels c) s)).Wp (quiet may)
      (fun _ w' => Trims (fun s => (s ∈ w.secrets ∧ s.ns = c.ns ∧
        hasLabels (matchingLabels c) s = true) ∧ condemnedSecret c w s = true)
        { w with harbor := h' } w') { w with harbor := h' } := by
    intro h'
    refine Prog.wp_mono (fun _ w' ht => ?_) _ _ (wp_sweepSecrets (w := { w with harbor := h' })
      ⟨hd.accesses, hd.secrets⟩ hread _ (fun s hs t ht hns hname => ?_) fun s hs hcond => ?_)
    · refine ⟨ht.harbor, ht.accesses, fun s => ?_⟩
      rw [ht.secrets, hfilter]
      rfl
    · exact hd.secrets t ht s ((hfilter s).mp hs).1 hns hname
    · obtain ⟨hs, hns, hlabels⟩ := (hfilter s).mp hs
      exact hsecret s hs hns hlabels hcond
  cases robots with
  | error e =>
    refine Prog.wp_seq (P := fun _ w' => w' = w) rfl fun _ w' h => ?_
    obtain rfl := h
    refine Prog.wp_seq (hsweepSecrets w'.harbor) fun _ _ _ => ?_
    nofun
  | ok robots =>
    have hl := hlisted robots rfl
    refine Prog.wp_seq (wp_sweepRobots hd hread robots fun robot hr hcond => ?_) fun _ w₂ h₂ => ?_
    · obtain ⟨r, hv, -⟩ := hl.only robot hr
      exact hrobot r robot hv hcond
    obtain rfl := h₂
    refine Prog.wp_seq (hsweepSecrets _) fun _ w₃ h₃ => ?_
    have hd₃ : w₃.Distinct := h₃.distinct ⟨hd.accesses, hd.secrets⟩
    refine Prog.wp_seq (wp_releaseUnselected hd₃ (fun _ _ => hmay _ nofun nofun)
      (fun _ _ => hmay _ nofun nofun) w.accesses fun ha hm l hl hkey => ?_) fun _ w₄ h₄ => ?_
    · rw [h₃.accesses] at hl
      exact hd.accesses l hl ha hm hkey
    obtain ⟨hreleases, hd₄⟩ := h₄
    intro _
    refine ⟨fun r => ?_, ?_, fun s => ?_, fun ha hsel => ?_, hd₄⟩
    · rw [hreleases.harbor, h₃.harbor]
      exact mem_without_condemned hl r
    · rw [hreleases.harbor, h₃.harbor]
      exact Harbor.robotNamePrefix_without _ _
    · rw [hreleases.secrets, h₃.secrets]
      tauto
    · rw [hreleases.selected ha hsel, h₃.accesses]

end Site

end HarborBridge
