import HarborBridge.FinalizerSafety
import HarborBridge.Site

/-! The janitor releases a HarborAccess that the bridge no longer selects, while a pass works
on an older copy of it. -/
namespace HarborBridge

open GoStrings Interaction

/-- Harbor, and how far the janitor is: it has listed the HarborAccess objects, it has begun to
list the robots again, it has read that listing to its end, and its patch of the finalizers of
the HarborAccess succeeded. -/
structure Handover where
  harbor : Harbor
  owners : Bool
  relisting : Bool
  listed : Bool
  released : Bool

namespace Handover

def note (key : ObjectKey) (w : Handover) : Role → (call : Call) → Answer call → Handover
  | .janitor, .harbor (.listRobot _ _), (r : Except HarborErr (List (Option HarborRobot))) =>
    match r with
    | .ok payload =>
      { w with
        relisting := w.relisting || w.owners
        listed := w.listed || w.owners && decide (payload.length < pageSize) }
    | .error _ => { w with relisting := w.relisting || w.owners }
  | .janitor, .listAccess, (r : Except ApiErr (List HarborAccess)) =>
    match r with
    -- the next sweep: unless the HarborAccess is released, robots may be created again
    | .ok _ => { w with owners := true, relisting := w.released, listed := w.released }
    | .error _ => w
  | .janitor, .patchFinalizers ha _, (r : Except ApiErr HarborAccess) =>
    match r with
    | .ok _ => if ha.key = key then { w with released := true } else w
    | .error _ => w
  | _, _, _ => w

/-- The janitor will come across a robot that a request makes the HarborAccess's: the listing has
not begun, or the robot is new and the listing has not come to its end. -/
def InTime (c : Config) (key : ObjectKey) (w : Handover) (h : Harbor) : Prop :=
  ∀ s ∈ h.robots, Cluster.Owned c h s key.ns key.name →
    (∃ r ∈ w.harbor.robots, r.id = s.id ∧ Cluster.Owned c w.harbor r key.ns key.name) ∨
      w.relisting = false ∨ w.listed = false ∧ w.harbor.nextId ≤ s.id

/-- How a call is answered: by Harbor, which may fail, and by anything else as one likes, with
old copies and new ones. -/
inductive Answers (c : Config) (key : ObjectKey) (role : Role) (w : Handover) :
    (call : Call) → Answer call → Handover → Prop where
  | harbor (call : HarborCall) (r : HarborAnswer call) (h : Harbor) (hf : w.harbor.Faulty call r h)
      (hseen : InTime c key w h) :
      Answers c key role w (.harbor call) r (note key { w with harbor := h } role (.harbor call) r)
  | other (call : Call) (r : Answer call) (hcall : ∀ request, call ≠ .harbor request) :
      Answers c key role w call r (note key w role call r)

/-- Runs of the worker and the janitor of a bridge. Passes and sweeps may end anywhere. -/
def Run (c : Config) (key : ObjectKey) (h : Harbor)
    (s : System (Unit × Role) Call Answer Handover) : Prop :=
  Relation.ReflTransGen (System.Step (fun i => Answers c key i.2) (fun _ _ => False)
    fun i => Runs c i.2) (System.idle ⟨h, false, false, false, false⟩) s

/-! ## The invariant -/

/-- Once the HarborAccess is released, Harbor has no robot of it. -/
structure Safe (c : Config) (key : ObjectKey) (w : Handover) : Prop where
  listed : w.released = true → w.relisting = true ∧ w.listed = true
  free : w.released = true → ∀ r ∈ w.harbor.robots, ¬ Cluster.Owned c w.harbor r key.ns key.name

/-- For each robot of the HarborAccess up to the cursor of the listing, it shows one. -/
structure Finds (c : Config) (key : ObjectKey) (walk : Walk) (h : Harbor) : Prop where
  cursor : 0 ≤ walk.cursor ∧ walk.cursor < h.nextId
  finds : walk.filter = none → ∀ r ∈ h.robots, Cluster.Owned c h r key.ns key.name →
    walk.complete = true ∨ r.id ≤ walk.cursor →
      ∃ robot ∈ walk.robots, robotOwnedBy c.clusterName robot key.ns key.name = true

/-- The listing that a sweep makes after that of the owners shows what is there. -/
structure Fits (c : Config) (key : ObjectKey) (_ : Unit) (k : SweepKnows) (w : Handover) : Prop where
  owners : k.owners ≠ [] → w.owners = true
  finds : w.owners = true → Finds c key k.walk w.harbor
  unlisted : w.owners = true → w.relisting = false → k.walk = Walk.none none
  complete : w.owners = true → k.walk.complete = true → w.listed = true

section Steps

variable {c : Config} {key : ObjectKey} {w w' : Handover} {u : Unit} {k : SweepKnows}

theorem finds_none (filter : Option GoString) (h : Harbor) : Finds c key (Walk.none filter) h := by
  refine ⟨⟨le_refl 0, h.nextId_pos⟩, fun _ r hr _ hcase => ?_⟩
  rcases hcase with hcase | hle
  · cases hcase
  · have hpos := (h.bounds r hr).1
    change r.id ≤ 0 at hle
    omega

theorem fits_start : Fits c key u SweepKnows.start w :=
  ⟨fun h => absurd rfl h, fun _ => finds_none none _, fun _ _ => rfl, fun _ h => by cases h⟩

/-- The cursor of a listing is the id of a robot. -/
theorem readPage_cursor_lt {walk : Walk} {h : Harbor} (hlt : walk.cursor < h.nextId)
    (robotPrefix : GoString) (filter : Option GoString) (idFrom : Int) :
    (walk.readPage robotPrefix filter idFrom (h.page filter idFrom)).cursor < h.nextId := by
  rcases walk.readPage_cases robotPrefix filter idFrom (h.page filter idFrom) with
    heq | ⟨start, cursor, new, hstart, rfl, htake, heq⟩
  · rw [heq]
    exact h.nextId_pos
  rw [heq]
  change cursor < h.nextId
  obtain ⟨-, -, -, -, hlast⟩ := Client.takePage_ok robotPrefix _ _ _ _ _ htake
  rcases getLastD_cases (((h.page filter (int64 (start.cursor + 1))).filterMap id).map (·.id))
    start.cursor with hsame | hmem
  · rw [hlast, hsame]
    rcases hstart with ⟨rfl, -⟩ | rfl
    · exact hlt
    · exact h.nextId_pos
  · obtain ⟨x, hx, hid⟩ := List.mem_map.mp hmem
    obtain ⟨r, hr, -, rfl⟩ := h.page_report _ _ x hx
    rw [hlast, ← hid]
    exact (h.bounds r hr).2

theorem length_lt_of_complete {walk : Walk} {robotPrefix : GoString} {filter : Option GoString}
    {idFrom : Int} {payload : List (Option HarborRobot)}
    (h : (walk.readPage robotPrefix filter idFrom payload).complete = true) :
    payload.length < pageSize := by
  rcases walk.readPage_cases robotPrefix filter idFrom payload with
    heq | ⟨start, cursor, new, -, -, -, heq⟩ <;> rw [heq] at h
  · cases h
  · exact of_decide_eq_true h

theorem Finds.readPage {walk : Walk} {h : Harbor} (hw : Finds c key walk h) (filter : Option GoString)
    (idFrom : Int) :
    Finds c key (walk.readPage c.harborRobotPrefix filter idFrom (h.page filter idFrom)) h := by
  obtain ⟨hcursor, hfilter, hreach⟩ := Walk.readPage_reaches hw.cursor.1 filter idFrom rfl
  refine ⟨⟨hcursor, readPage_cursor_lt hw.cursor.2 _ _ _⟩, fun hnone r hr howned hcase => ?_⟩
  rw [hfilter] at hnone
  subst hnone
  rcases hreach r hr rfl hcase with ⟨robot, hmem, hview⟩ | ⟨hsame, hle, hsub⟩
  · obtain ⟨robot', hview', howned'⟩ := howned
    obtain rfl := Option.some.inj (hview.symm.trans hview')
    exact ⟨robot, hmem, howned'⟩
  · obtain ⟨robot, hmem, howned'⟩ := hw.finds hsame r hr howned (.inr hle)
    exact ⟨robot, hsub hmem, howned'⟩

/-- A listing that was read to its end shows every robot. -/
theorem Fits.not_owned (hk : Fits c key u k w) {ha : HarborAccess} {finalizers : List GoString}
    (hreleases : k.Releases c ha finalizers) (hkey : ha.key = key) :
    (w.relisting = true ∧ w.listed = true) ∧
      ∀ r ∈ w.harbor.robots, ¬ Cluster.Owned c w.harbor r key.ns key.name := by
  have howners := hk.owners (List.ne_nil_of_mem hreleases.owner)
  obtain ⟨hfilter, hcomplete⟩ := hreleases.listed
  refine ⟨⟨?_, hk.complete howners hcomplete⟩, fun r hr howned => ?_⟩
  · by_contra hnot
    rw [hk.unlisted howners (Bool.eq_false_of_not_eq_true hnot)] at hcomplete
    cases hcomplete
  · obtain ⟨robot, hmem, hown⟩ := (hk.finds howners).finds hfilter r hr howned (.inl hcomplete)
    rw [← hkey, hreleases.free robot hmem] at hown
    cases hown

theorem Safe.request (hw : Safe c key w) {h : Harbor} (hseen : InTime c key w h) :
    Safe c key { w with harbor := h } := by
  refine ⟨hw.listed, fun hreleased s hs howned => ?_⟩
  obtain ⟨hrelisting, hlisted⟩ := hw.listed hreleased
  rcases hseen s hs howned with ⟨r, hr, -, hbefore⟩ | hnot | ⟨hnot, -⟩
  · exact hw.free hreleased r hr hbefore
  · exact absurd hrelisting (Bool.eq_false_iff.mp hnot)
  · exact absurd hlisted (Bool.eq_false_iff.mp hnot)

theorem Fits.request (hk : Fits c key u k w) {call : HarborCall} {h : Harbor}
    (he : w.harbor.Effect call h) (hseen : InTime c key w h) :
    Fits c key u k { w with harbor := h } := by
  refine ⟨hk.owners, fun howners => ?_, hk.unlisted, hk.complete⟩
  obtain ⟨⟨hcursor, hlt⟩, hfinds⟩ := hk.finds howners
  refine ⟨⟨hcursor, hlt.trans_le he.nextId_le⟩, fun hfilter s hs howned hcase => ?_⟩
  rcases hseen s hs howned with ⟨r, hr, hid, hbefore⟩ | hnot | ⟨hnot, hnew⟩
  · exact hfinds hfilter r hr hbefore (hid ▸ hcase)
  · -- the second listing has not begun
    rw [hk.unlisted howners hnot] at hcase ⊢
    exact (finds_none none h).finds rfl s hs howned hcase
  · -- the robot comes after all that were read
    rcases hcase with hcomplete | hle
    · exact absurd (hk.complete howners hcomplete) (Bool.eq_false_iff.mp hnot)
    · change s.id ≤ k.walk.cursor at hle
      omega

theorem Answers.worker {call : Call} {r : Answer call} (hs : Answers c key .worker w call r w') :
    w' = w ∨ ∃ request h, w.harbor.Effect request h ∧ InTime c key w h ∧
      w' = { w with harbor := h } := by
  cases hs with
  | harbor request r h hf hseen => exact .inr ⟨request, h, hf.effect, hseen, rfl⟩
  | other call r hcall =>
    left
    cases call with
    | harbor request => exact absurd rfl (hcall request)
    | _ => rfl

theorem Fits.answers (hk : Fits c key u k w) (hw : Safe c key w) {call : Call}
    (hallowed : k.Allows c call) {r : Answer call} (hs : Answers c key .janitor w call r w') :
    Safe c key w' ∧ Fits c key u (k.learn c call r) w' := by
  cases hs with
  | harbor request r h hf hseen =>
    have he := hf.effect
    cases request with
    | deleteRobot id => exact ⟨hw.request hseen, hk.request he hseen⟩
    | listRobot filter idFrom =>
      obtain rfl : h = w.harbor := by
        cases he
        rfl
      have hbegun : w.owners = true → (w.relisting || w.owners) = false → False := by
        intro howners hnot
        rw [howners, Bool.or_true] at hnot
        cases hnot
      have hrelisting (h : w.relisting = true) : (w.relisting || w.owners) = true := by
        rw [h, Bool.true_or]
      match r with
      | Except.error e =>
        exact ⟨⟨fun hr => ⟨hrelisting (hw.listed hr).1, (hw.listed hr).2⟩, hw.free⟩, hk.owners, hk.finds,
          fun h hnot => (hbegun h hnot).elim, hk.complete⟩
      | Except.ok payload =>
        obtain ⟨rfl, -⟩ := hf.of_listRobot
        refine ⟨⟨fun hr => ⟨hrelisting (hw.listed hr).1, ?_⟩, hw.free⟩, hk.owners,
          fun howners => (hk.finds howners).readPage filter idFrom,
          fun h hnot => (hbegun h hnot).elim, fun howners hcomplete => ?_⟩
        · change (w.listed || _) = true
          rw [(hw.listed hr).2, Bool.true_or]
        · have hshort := length_lt_of_complete hcomplete
          change (w.listed || w.owners && _) = true
          rw [decide_eq_true hshort, Bool.and_true]
          exact Bool.or_eq_true_iff.mpr (.inr howners)
    | _ => exact hallowed.elim
  | other call r hcall =>
    cases call with
    | harbor request => exact absurd rfl (hcall request)
    | listAccess =>
      match r with
      | Except.error e => exact ⟨hw, hk⟩
      | Except.ok owners =>
        exact ⟨⟨fun h => ⟨h, h⟩, hw.free⟩, fun _ => rfl, fun _ => finds_none none _, fun _ _ => rfl,
          fun _ h => by cases h⟩
    | patchFinalizers ha finalizers =>
      match r with
      | Except.error e => exact ⟨hw, hk⟩
      | Except.ok new =>
        unfold note
        dsimp only
        split_ifs with hkey
        · obtain ⟨hlisted, hfree⟩ := hk.not_owned hallowed hkey
          exact ⟨⟨fun _ => hlisted, fun _ => hfree⟩, hk.owners, hk.finds, hk.unlisted, hk.complete⟩
        · exact ⟨hw, hk⟩
    | readAccess ns name =>
      match r with
      | Except.ok ha => exact ⟨hw, hk.owners, hk.finds, hk.unlisted, hk.complete⟩
      | Except.error e => cases e <;> exact ⟨hw, hk.owners, hk.finds, hk.unlisted, hk.complete⟩
    | listSecrets ns labels =>
      match r with
      | Except.ok secrets => exact ⟨hw, hk.owners, hk.finds, hk.unlisted, hk.complete⟩
      | Except.error e => exact ⟨hw, hk⟩
    | deleteSecret s => exact ⟨hw, hk⟩
    | _ => exact hallowed.elim

theorem Run.safe {h : Harbor} {s : System (Unit × Role) Call Answer Handover}
    (hrun : Run c key h s) : Safe c key s.world := by
  have hholds : (observer fun _ : Unit => c).Holds (Safe c key)
      (Knowledge.Fits (fun _ _ _ => True) (Fits c key)) s := by
    refine holds_bridge ?_ ?_ ?_ ?_ hrun (Observer.holds_idle ⟨nofun, nofun⟩)
    · exact fun i p w hp _ => runs_observed (fun _ : Unit => c) hp (fun _ => trivial) fits_start
    · exact fun w w' henv => henv.elim
    · intro k w call r w' hw _ hallowed hs
      rcases hs.worker with rfl | ⟨request, h, he, hseen, rfl⟩
      · exact ⟨hw, trivial, fun _ hk => hk⟩
      · exact ⟨hw.request hseen, trivial, fun _ hk => hk.request he hseen⟩
    · intro k w call r w' hw hk hallowed hs
      obtain ⟨hsafe, hfits⟩ := hk.answers hw hallowed hs
      exact ⟨hsafe, hfits, fun _ _ => trivial⟩
  exact hholds.1

end Steps

/-- In every state after the janitor's patch of the finalizers has succeeded, Harbor holds no
robot of the HarborAccess, provided that none was changed to be the HarborAccess's after the
janitor had begun to list the robots for the second time, and none was created for it after that
listing had come to its end. -/
theorem released_leaves_no_robot (c : Config) (key : ObjectKey) (h : Harbor)
    (s : System (Unit × Role) Call Answer Handover) (hrun : Run c key h s)
    (hreleased : s.world.released = true) (r : StoredRobot) (hr : r ∈ s.world.harbor.robots)
    (robot : Robot)
    (hview : fromHarborRobot c.harborRobotPrefix (s.world.harbor.report r) = some robot) :
    robotOwnedBy c.clusterName robot key.ns key.name = false := by
  by_contra hnot
  exact hrun.safe.free hreleased r hr ⟨robot, hview, Bool.eq_true_of_not_eq_false hnot⟩

/-! ## A relabelled HarborAccess -/

/-- A bridge that selects by the label `team`. -/
def selective : Config :=
  { sampleConfig with
    harborAccessSelector := some ⟨false, fun labels => labels.get (lit "team") == lit "blue"⟩
    instanceName := lit "a" }

def cachedCopy : HarborAccess :=
  { sampleAccess sampleKey ⟨lit "team", lit "app"⟩ with
    labels := Finmap.singleton (lit "team") (lit "blue")
    finalizers := [selective.finalizer] }

def relabelled : HarborAccess :=
  { cachedCopy with labels := Finmap.singleton (lit "team") (lit "red"), resourceVersion := 2 }

def relabelledSite : Site where
  harbor := emptyHarbor
  accesses := [relabelled]
  secrets := []
  revision := 2
  clock := 0

/-- How a cluster answers whose cache is behind. -/
inductive Lags (w : Site) : (call : Call) → Answer call → Site → Prop where
  | cached (key : ObjectKey) : Lags w (.getAccess key) (Except.ok cachedCopy) w
  | harbor (call : HarborCall) (r : HarborAnswer call) (h : Harbor) (hf : w.harbor.Faulty call r h) :
      Lags w (.harbor call) r { w with harbor := h }
  | kube (call : Call) (hharbor : ∀ request, call ≠ .harbor request) :
      Lags w call (w.serve call).1 (w.serve call).2

def lagging (w : Site) : (call : Call) → Answer call × Site
  | .getAccess _ => (Except.ok cachedCopy, w)
  | call => w.serve call

theorem lagging_lags (w : Site) (call : Call) : Lags w call (lagging w call).1 (lagging w call).2 := by
  cases call with
  | getAccess key => exact .cached key
  | harbor request => exact .harbor request _ _ (w.harbor.serve_faulty request)
  | _ => exact .kube _ nofun

theorem served (role : Role) :
    System.Served (fun _ : Unit × Role => Lags) ((), role) (fun _ => True) lagging :=
  ⟨fun w _ call => lagging_lags w call, fun _ _ _ => trivial⟩

/-- A run of the bridge whose cache is behind. -/
def Leads : System (Unit × Role) Call Answer Site → System (Unit × Role) Call Answer Site → Prop :=
  Relation.ReflTransGen (System.Step (fun _ => Lags) (fun _ _ => False) fun i => Runs selective i.2)

def pass : BridgeProg Unit := do let _ ← reconcile selective sampleKey; return ()

def sweeping : BridgeProg Unit := do let _ ← Janitor.sweep selective; return ()

def begun : BridgeProg Unit × Site := pass.advance lagging 4 relabelledSite

def afterSweep : Site := (sweeping.exec lagging begun.2).2

def afterPass : Site := (begun.1.exec lagging afterSweep).2

/-- The finalizer is released, and the robot that the pass created stays. -/
theorem robot_survives_release : ∃ r robot live,
    Leads (System.idle relabelledSite) (System.idle afterPass) ∧
    selective.selects relabelled = false ∧ selective.selects cachedCopy = true ∧
    selective.finalizer ∈ relabelled.finalizers ∧
    afterPass.access sampleKey.ns sampleKey.name = some live ∧ live.finalizers = [] ∧
    r ∈ afterPass.harbor.robots ∧
    fromHarborRobot selective.harborRobotPrefix (afterPass.harbor.report r) = some robot ∧
    robotOwnedBy selective.clusterName robot sampleKey.ns sampleKey.name = true := by
  have hworker : Leads (System.idle relabelledSite) _ :=
    System.run_advance (served .worker) 4 pass ⟨sampleKey, rfl⟩ trivial (fun _ => none) rfl
  have hsweep : Leads ⟨begun.2, Function.update (fun _ => none) ((), .worker) (some begun.1)⟩ _ :=
    System.run_exec (served .janitor) sweeping rfl trivial _ rfl
  have hrest : Leads ⟨afterSweep, Function.update (fun _ => none) ((), .worker) (some begun.1)⟩ _ :=
    System.run_rest (served .worker) begun.1 trivial (fun _ => none) rfl
  refine ⟨_, _, _, (hworker.trans hsweep).trans hrest, ?_, ?_, ?_, rfl, ?_, List.mem_cons_self, rfl,
    ?_⟩
  all_goals decide +kernel

/-! ## A release beside a robot of another HarborAccess -/

def otherKey : ObjectKey :=
  { sampleKey with name := lit "other", name_valid := by decide, name_length := by decide }

/-- Harbor shows its robots but takes no write, and `otherKey` is relabelled. -/
def answer (w : Handover) : (call : Call) → Answer call
  | .harbor (.listRobot filter idFrom) => Except.ok (w.harbor.page filter idFrom)
  | .listAccess => Except.ok [{ relabelled with key := otherKey }]
  | call => sampleAnswer (fun request => harborFailure request .transport) call

def serve (w : Handover) (call : Call) : Answer call × Handover :=
  (answer w call, note otherKey w .janitor call (answer w call))

theorem serve_answers (w : Handover) (call : Call) :
    Answers selective otherKey .janitor w call (serve w call).1 (serve w call).2 := by
  have hsame : InTime selective otherKey w w.harbor := fun s hs howned => .inl ⟨s, hs, rfl, howned⟩
  cases call with
  | harbor request =>
    cases request with
    | listRobot filter idFrom =>
      exact .harbor _ _ w.harbor (.served _ _ _ (.listRobot filter idFrom)) hsame
    | _ => exact .harbor _ _ w.harbor (.failed _ .transport rfl) hsame
  | _ => exact .other _ _ nofun

/-- The sweep releases one HarborAccess while Harbor keeps the robot of another one. -/
theorem released_leaves_no_robot_other : ∃ s r robot, Run selective otherKey afterPass.harbor s ∧
    s.world.released = true ∧ r ∈ s.world.harbor.robots ∧
    fromHarborRobot selective.harborRobotPrefix (s.world.harbor.report r) = some robot ∧
    robotOwnedBy selective.clusterName robot otherKey.ns otherKey.name = false := by
  have hserve : System.Served (fun i : Unit × Role => Answers selective otherKey i.2) ((), .janitor)
      (fun _ => True) serve := ⟨fun w _ call => serve_answers w call, fun _ _ _ => trivial⟩
  have hrun : Run selective otherKey afterPass.harbor _ :=
    System.run_exec hserve sweeping rfl trivial (fun _ => none) rfl
  refine ⟨_, _, _, hrun, by decide +kernel, List.mem_cons_self, rfl, ?_⟩
  exact released_leaves_no_robot selective otherKey _ _ hrun (by decide +kernel) _
    List.mem_cons_self _ rfl

end Handover

end HarborBridge
