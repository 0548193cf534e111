import HarborBridge.PassObserved

/-! A sweep does only what its knowledge allows, and with the passes this covers all that a
bridge does. -/
namespace HarborBridge

open GoStrings Interaction

/-- The setting in which a sweep is watched. -/
def sweepSetting (c : Config) : Setting Call Answer SweepKnows :=
  watching (fun k e r => k.learn c e r) fun k e => k.Allows c e

namespace Janitor

variable {c : Config} {k : SweepKnows}

theorem wp_ask {e : Call} {Q : Answer e → SweepKnows → Prop} (hmay : k.Allows c e)
    (hQ : ∀ r, Q r (k.learn c e r)) :
    (Prog.ask e : BridgeProg (Answer e)).Wp (sweepSetting c) Q k :=
  ⟨hmay, fun r _ hs => hs ▸ hQ r⟩

structure Knew (k k' : SweepKnows) : Prop where
  shown : k.shown ⊆ k'.shown
  secrets : k'.secrets = k.secrets
  owners : k'.owners = k.owners

theorem Knew.refl (k : SweepKnows) : Knew k k := ⟨fun _ h => h, rfl, rfl⟩

theorem Knew.trans {k k' k'' : SweepKnows} (h : Knew k k') (h' : Knew k' k'') : Knew k k'' :=
  ⟨fun _ hr => h'.shown (h.shown hr), h'.secrets.trans h.secrets, h'.owners.trans h.owners⟩

structure Rests (k k' : SweepKnows) : Prop extends Knew k k' where
  walk : k'.walk = k.walk

theorem Rests.refl (k : SweepKnows) : Rests k k := ⟨.refl k, rfl⟩

theorem Rests.trans {k k' k'' : SweepKnows} (h : Rests k k') (h' : Rests k' k'') : Rests k k'' :=
  ⟨h.toKnew.trans h'.toKnew, h'.walk.trans h.walk⟩

theorem wp_list (k : SweepKnows) (hk : k.walk.Rested) (hwalk : k.walk.robots ⊆ k.shown) :
    (onHarbor (Client.list c.harborRobotPrefix none)).Wp (sweepSetting c)
      (fun res k' => Knew k k' ∧ ∀ robots, res = .ok robots → k'.walk.filter = none ∧
        k'.walk.complete = true ∧ k'.walk.robots = robots ∧
        ∀ robot ∈ robots, robot ∈ k'.shown) k := by
  refine wp_onHarbor (Prog.wp_mono (fun res k' h => ⟨h.1.1, fun robots hres => ?_⟩) _ _
    (Client.wp_list_walk (S := harborPart (sweepSetting c)) SweepKnows.walk
      (fun k' => Knew k k' ∧ k'.walk.robots ⊆ k'.shown) (fun _ => True) none (fun _ _ => trivial) ?_ ?_ k
      ⟨.refl k, hwalk⟩ hk))
  · rintro k₁ idFrom payload k' ⟨hknew, hold⟩ rfl
    refine ⟨⟨hknew.trans ⟨List.subset_append_right _ _, rfl, rfl⟩, fun robot hmem => ?_⟩, trivial, rfl⟩
    rcases Walk.mem_readPage hmem with hmem | ⟨x, hx, hfrom⟩
    · exact List.mem_append_right _ (hold hmem)
    · exact List.mem_append_left _ (List.mem_filterMap.mpr ⟨x, hx, hfrom⟩)
  · rintro k₁ idFrom e k' hknew rfl
    exact hknew
  · obtain ⟨-, hfilter, hcomplete, rfl⟩ := h.2.1 robots hres
    exact ⟨hfilter, hcomplete, rfl, h.1.2⟩

theorem wp_liveOwner (ns name : GoString) :
    (liveOwner ns name).Wp (sweepSetting c)
      (fun res k' => Rests k k' ∧ ∀ live, res = .ok live → k'.live = some ((ns, name), live)) k := by
  refine Prog.wp_seq (P := fun r k' => k' = k.learn c (.readAccess ns name) r)
    (wp_ask trivial fun r => rfl) fun res k' h => ?_
  subst h
  match res with
  | .ok ha =>
    exact ⟨⟨⟨fun _ h => h, rfl, rfl⟩, rfl⟩, fun live h => by obtain rfl := Except.ok.inj h; rfl⟩
  | .error .notFound =>
    exact ⟨⟨⟨fun _ h => h, rfl, rfl⟩, rfl⟩, fun live h => by obtain rfl := Except.ok.inj h; rfl⟩
  | .error .conflict => exact ⟨.refl k, nofun⟩
  | .error .alreadyExists => exact ⟨.refl k, nofun⟩
  | .error .other => exact ⟨.refl k, nofun⟩

theorem wp_delete (id : Int) (h : k.DeletesRobot c id) :
    (onHarbor (Client.delete id)).Wp (sweepSetting c) (fun _ k' => k' = k) k := by
  refine wp_onHarbor ?_
  simp only [Client.delete, Sdk.deleteRobot_bind]
  refine ⟨h, ?_⟩
  rintro r k' rfl
  cases r with
  | ok _ => rfl
  | error e => rfl

theorem wp_sweepRobot (owners : List HarborAccess) (robot : Robot) (hshown : robot ∈ k.shown) :
    (sweepRobot c owners robot).Wp (sweepSetting c) (fun _ k' => Rests k k') k := by
  unfold sweepRobot
  cases howner : judgedOwner c robot with
  | none => exact .refl k
  | some owner =>
    obtain ⟨ns, name⟩ := owner
    dsimp only
    split_ifs
    · exact .refl k
    · refine Prog.wp_seq (wp_liveOwner ns name) fun res k' h => ?_
      obtain ⟨hknew, hlive⟩ := h
      cases res with
      | error e => exact hknew
      | ok live =>
        dsimp only
        split_ifs with hverdict
        · exact hknew
        · rw [Bool.not_eq_true, Option.isNone_eq_false_iff] at hverdict
          refine Prog.wp_seq (wp_delete robot.id ⟨robot, hknew.shown hshown, rfl, (ns, name), live,
            howner, hlive live rfl, hverdict⟩) fun _ k'' h => ?_
          exact h ▸ hknew

theorem wp_sweepRobots (owners : List HarborAccess) (robots : List Robot) {k : SweepKnows}
    (hshown : ∀ robot ∈ robots, robot ∈ k.shown) :
    (sweepRobots c owners robots).Wp (sweepSetting c) (fun _ k' => Rests k k') k := by
  induction robots generalizing k with
  | nil => exact .refl k
  | cons robot robots ih =>
    obtain ⟨hrobot, hrobots⟩ := List.forall_mem_cons.mp hshown
    refine Prog.wp_seq (wp_sweepRobot owners robot hrobot) fun _ k' h => ?_
    exact Prog.wp_mono (fun _ _ h' => h.trans h') _ _ (ih fun r hr => h.shown (hrobots r hr))

theorem wp_sweepSecret (owners : List HarborAccess) (s : Secret) (hs : s ∈ k.secrets) :
    (sweepSecret c owners s).Wp (sweepSetting c) (fun _ k' => Rests k k') k := by
  unfold sweepSecret
  cases howner : RobotSecret.owner s with
  | none => exact .refl k
  | some owner =>
    obtain ⟨ns, name⟩ := owner
    dsimp only
    split_ifs
    · exact .refl k
    · refine Prog.wp_seq (wp_liveOwner ns name) fun res k' h => ?_
      obtain ⟨hknew, hlive⟩ := h
      cases res with
      | error e => exact hknew
      | ok live =>
        dsimp only
        split_ifs with hverdict
        · exact hknew
        · rw [Bool.not_eq_true, Option.isNone_eq_false_iff] at hverdict
          refine Prog.wp_seq (P := fun _ k'' => Rests k k'') (wp_ask ⟨hknew.secrets ▸ hs, (ns, name),
            live, howner, hlive live rfl, hverdict⟩ fun _ => hknew) fun _ _ h => h

theorem wp_sweepSecrets (owners : List HarborAccess) (secrets : List Secret) {k : SweepKnows}
    (hsecrets : ∀ s ∈ secrets, s ∈ k.secrets) :
    (sweepSecrets c owners secrets).Wp (sweepSetting c) (fun _ k' => Rests k k') k := by
  induction secrets generalizing k with
  | nil => exact .refl k
  | cons s secrets ih =>
    obtain ⟨hs, hrest⟩ := List.forall_mem_cons.mp hsecrets
    refine Prog.wp_seq (wp_sweepSecret owners s hs) fun _ k' h => ?_
    exact Prog.wp_mono (fun _ _ h' => h.trans h') _ _
      (ih fun t ht => h.secrets.symm ▸ hrest t ht)

theorem wp_releaseAll (candidates : List HarborAccess)
    (hlisted : k.walk.filter = none ∧ k.walk.complete = true)
    (h : ∀ ha ∈ candidates, ha ∈ k.owners ∧ c.selects ha = false) :
    (releaseAll c k.walk.robots candidates).Wp (sweepSetting c) (fun _ _ => True) k := by
  induction candidates with
  | nil => trivial
  | cons ha candidates ih =>
    obtain ⟨hha, hrest⟩ := List.forall_mem_cons.mp h
    unfold releaseAll
    split_ifs with hkeeps
    · exact ih hrest
    · have hfree : ∀ robot ∈ k.walk.robots,
          robotOwnedBy c.clusterName robot ha.key.ns ha.key.name = false := by
        intro robot hr
        rw [Bool.not_eq_true] at hkeeps
        have hnot := List.any_eq_false.mp hkeeps robot hr
        rw [Bool.or_eq_true, not_or, Bool.not_eq_true] at hnot
        exact hnot.1
      exact Prog.wp_seq (P := fun _ k' => k' = k)
        (wp_ask ⟨hha.1, hha.2, rfl, hlisted, hfree⟩ fun _ => rfl) fun _ k' h' => h' ▸ ih hrest

theorem wp_releaseUnselected (hwalk : k.walk = Walk.none none) :
    (releaseUnselected c k.owners).Wp (sweepSetting c) (fun _ _ => True) k := by
  unfold releaseUnselected
  dsimp only
  split_ifs
  · trivial
  · refine Prog.wp_seq (wp_list k (hwalk ▸ Walk.rested_none none) (hwalk ▸ List.nil_subset _))
      fun res k' h => ?_
    cases res with
    | error e => trivial
    | ok robots =>
      obtain ⟨hfilter, hcomplete, rfl, -⟩ := h.2 robots rfl
      refine wp_releaseAll _ ⟨hfilter, hcomplete⟩ fun ha hha => ?_
      obtain ⟨hmem, hcond⟩ := List.mem_filter.mp hha
      exact ⟨h.1.owners.symm ▸ hmem, (of_decide_eq_true hcond).1⟩

theorem wp_sweepListed {ε α : Type} (sweep : List α → BridgeProg Unit) (listed : Except ε (List α))
    (h : ∀ xs, listed = .ok xs → (sweep xs).Wp (sweepSetting c) (fun _ k' => Rests k k') k) :
    (sweepListed sweep listed).Wp (sweepSetting c) (fun _ k' => Rests k k') k := by
  cases listed with
  | error e => exact .refl k
  | ok xs => exact h xs rfl

/-- A sweep does only what it is allowed to, whatever it is answered. -/
theorem wp_sweep (c : Config) :
    (sweep c).Wp (sweepSetting c) (fun _ _ => True) SweepKnows.start := by
  refine Prog.wp_seq (wp_list _ (Walk.rested_none none) (List.nil_subset _)) fun robots k₁ h₁ => ?_
  refine Prog.wp_seq (P := fun r k₂ => k₂.shown = k₁.shown ∧
    ∀ secrets, r = .ok secrets → k₂.secrets = secrets) (wp_ask ⟨rfl, rfl⟩ fun r => ?_)
    fun secrets k₂ h₂ => ?_
  · match r with
    | Except.error e => exact ⟨rfl, nofun⟩
    | Except.ok secrets => exact ⟨rfl, fun _ h => by obtain rfl := Except.ok.inj h; rfl⟩
  refine Prog.wp_seq (P := fun r k₃ => k₃.shown = k₂.shown ∧ k₃.secrets = k₂.secrets ∧
    ∀ owners, r = .ok owners → k₃.owners = owners ∧ k₃.walk = Walk.none none)
    (wp_ask trivial fun r => ?_) fun owners k₃ h₃ => ?_
  · match r with
    | Except.error e => exact ⟨rfl, rfl, nofun⟩
    | Except.ok owners =>
      exact ⟨rfl, rfl, fun _ h => by obtain rfl := Except.ok.inj h; exact ⟨rfl, rfl⟩⟩
  obtain ⟨hshown₃, hsecrets₃, howners₃⟩ := h₃
  cases owners with
  | error e => trivial
  | ok owners =>
    obtain ⟨rfl, hwalk₃⟩ := howners₃ owners rfl
    refine Prog.wp_seq (wp_sweepListed _ robots fun xs hxs => wp_sweepRobots _ xs fun r hr => ?_)
      fun _ k₄ h₄ => ?_
    · rw [hshown₃, h₂.1]
      exact (h₁.2 xs hxs).2.2.2 r hr
    refine Prog.wp_seq (wp_sweepListed _ secrets fun xs hxs => wp_sweepSecrets _ xs fun s hs => ?_)
      fun _ k₅ h₅ => ?_
    · rw [h₄.secrets, hsecrets₃, h₂.2 xs hxs]
      exact hs
    rw [← h₄.owners, ← h₅.owners]
    cases robots with
    | error e => trivial
    | ok robots =>
      have hwalk₅ := h₅.walk.trans (h₄.walk.trans hwalk₃)
      exact Prog.wp_seq (wp_releaseUnselected hwalk₅) fun _ _ _ => trivial

end Janitor

/-! ## All processes -/

theorem wp_pass {B : Type} {config : B → Config} {b : B} {α : Type} {Q : α → PassKnows → Prop}
    (p : BridgeProg α) (k : PassKnows) (h : p.Wp (passSetting (config b)) Q k) :
    p.Wp ((observer config).setting (b, .worker)) (fun _ _ => True) (.pass k) := by
  induction p generalizing k with
  | ret a => trivial
  | call e f ih => exact ⟨h.1, fun r k' hk => hk ▸ ih r _ (h.2 r _ rfl)⟩

theorem wp_sweeping {B : Type} {config : B → Config} {b : B} {α : Type}
    {Q : α → SweepKnows → Prop} (p : BridgeProg α) (k : SweepKnows)
    (h : p.Wp (sweepSetting (config b)) Q k) :
    p.Wp ((observer config).setting (b, .janitor)) (fun _ _ => True) (.sweep k) := by
  induction p generalizing k with
  | ret a => trivial
  | call e f ih => exact ⟨h.1, fun r k' hk => hk ▸ ih r _ (h.2 r _ rfl)⟩

theorem reconcile_observed {B : Type} (config : B → Config) (b : B) (key : ObjectKey) :
    (do let _ ← reconcile (config b) key; return () : BridgeProg Unit).Wp
      ((observer config).setting (b, .worker)) (fun _ _ => True) (.pass (PassKnows.start key)) := by
  refine wp_pass (Q := fun _ _ => True) _ _ ?_
  exact Prog.wp_seq (wp_reconcile (config b) key) fun _ _ _ => trivial

theorem sweep_observed {B : Type} (config : B → Config) (b : B) :
    (do let _ ← Janitor.sweep (config b); return () : BridgeProg Unit).Wp
      ((observer config).setting (b, .janitor)) (fun _ _ => True) (.sweep SweepKnows.start) := by
  refine wp_sweeping (Q := fun _ _ => True) _ _ ?_
  exact Prog.wp_seq (Janitor.wp_sweep (config b)) fun _ _ _ => trivial

/-- Whatever a bridge runs does only what its knowledge allows. -/
theorem runs_observed {B W : Type} {pass : B → PassKnows → W → Prop}
    {sweep : B → SweepKnows → W → Prop} (config : B → Config) {i : B × Role} {p : BridgeProg Unit}
    {w : W} (h : Runs (config i.1) i.2 p) (hpass : ∀ key, pass i.1 (PassKnows.start key) w)
    (hsweep : sweep i.1 SweepKnows.start w) :
    ∃ k, Knowledge.Fits pass sweep i k w ∧
      p.Wp ((observer config).setting i) (fun _ _ => True) k := by
  obtain ⟨b, role⟩ := i
  cases role with
  | worker =>
    obtain ⟨key, rfl⟩ := h
    exact ⟨_, .worker (hpass key), reconcile_observed config b key⟩
  | janitor =>
    obtain rfl := h
    exact ⟨_, .janitor hsweep, sweep_observed config b⟩

/-- The rule for the worker and the janitor of one bridge. What one of them does keeps the
invariant and what the other knows. -/
theorem holds_bridge {W : Type} {c : Config}
    {sem : Unit × Role → W → (call : Call) → Answer call → W → Prop} {env : W → W → Prop}
    {starts : Unit × Role → BridgeProg Unit → Prop} {inv : W → Prop}
    {pass : Unit → PassKnows → W → Prop} {sweep : Unit → SweepKnows → W → Prop}
    (hstart : ∀ i p w, starts i p → inv w → ∃ k, Knowledge.Fits pass sweep i k w ∧
      p.Wp ((observer fun _ : Unit => c).setting i) (fun _ _ => True) k)
    (henv : ∀ w v, env w v → inv w →
      inv v ∧ (∀ k, pass () k w → pass () k v) ∧ ∀ k, sweep () k w → sweep () k v)
    (hworker : ∀ k w call r w', inv w → pass () k w → k.Allows c call →
      sem ((), .worker) w call r w' →
      inv w' ∧ pass () (k.learn c call r) w' ∧ ∀ j, sweep () j w → sweep () j w')
    (hjanitor : ∀ k w call r w', inv w → sweep () k w → k.Allows c call →
      sem ((), .janitor) w call r w' →
      inv w' ∧ sweep () (k.learn c call r) w' ∧ ∀ j, pass () j w → pass () j w')
    {s s' : System (Unit × Role) Call Answer W}
    (hrun : Relation.ReflTransGen (System.Step sem env starts) s s')
    (hs : (observer fun _ : Unit => c).Holds inv (Knowledge.Fits pass sweep) s) :
    (observer fun _ : Unit => c).Holds inv (Knowledge.Fits pass sweep) s' := by
  refine Observer.holds_run hstart ?_ ?_ ?_ hrun hs
  · intro w v hv hw
    obtain ⟨hinv, hpass, hsweep⟩ := henv w v hv hw
    refine ⟨hinv, fun i k hk => ?_⟩
    cases hk with
    | worker hk => exact .worker (hpass _ hk)
    | janitor hk => exact .janitor (hsweep _ hk)
  · intro i k w call r w' hw hk hallowed hcall
    cases hk with
    | worker hk =>
      obtain ⟨hinv, hlearnt, -⟩ := hworker _ w call r w' hw hk hallowed hcall
      exact ⟨hinv, .worker hlearnt⟩
    | janitor hk =>
      obtain ⟨hinv, hlearnt, -⟩ := hjanitor _ w call r w' hw hk hallowed hcall
      exact ⟨hinv, .janitor hlearnt⟩
  · intro i k w call r w' hw hk hallowed hcall j k' hji hk'
    cases hk with
    | worker hk =>
      cases hk' with
      | worker hk' => exact absurd rfl hji
      | janitor hk' => exact .janitor ((hworker _ w call r w' hw hk hallowed hcall).2.2 _ hk')
    | janitor hk =>
      cases hk' with
      | worker hk' => exact .worker ((hjanitor _ w call r w' hw hk hallowed hcall).2.2 _ hk')
      | janitor hk' => exact absurd rfl hji

end HarborBridge
