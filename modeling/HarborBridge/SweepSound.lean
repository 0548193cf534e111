import HarborBridge.Site
import HarborBridge.SweepObserved

/-! What a sweep deletes, whatever happens to the cluster and to Harbor meanwhile. -/
namespace HarborBridge

open GoStrings Interaction

abbrev Event := Σ call : Call, Answer call

namespace Janitor

def HonoursLabels : (call : Call) → Answer call → Prop
  | .listSecrets _ labels, (r : Except ApiErr (List Secret)) =>
    ∀ secrets, r = .ok secrets → ∀ s ∈ secrets, Site.hasLabels labels s = true
  | _, _ => True

/-- Calls and answers are written down, the latest first. Of the answers only the above is
known: anybody may act at any time, and calls may fail. -/
def recording (may : List Event → Call → Prop) : Setting Call Answer (List Event) where
  sem events call r events' := HonoursLabels call r ∧ events' = ⟨call, r⟩ :: events
  may := may

variable (c : Config)

def ShowsRobot (robot : Robot) (event : Event) : Prop :=
  ∃ filter idFrom payload x,
    event = ⟨.harbor (.listRobot filter idFrom), (Except.ok payload : Except HarborErr _)⟩ ∧
    x ∈ payload.filterMap id ∧ fromHarborRobot c.harborRobotPrefix x = some robot

def ShowsSecret (s : Secret) (event : Event) : Prop :=
  ∃ secrets, event = ⟨.listSecrets c.ns (matchingLabels c), (Except.ok secrets : Except ApiErr _)⟩ ∧
    s ∈ secrets

/-- The owner was read, as `live`, after an event of the kind `shows`. -/
def ReadAfter (shows : Event → Prop) (events : List Event) (ns name : GoString)
    (live : Option HarborAccess) : Prop :=
  ∃ later earlier, events = later ++ ⟨.readAccess ns name, Kube.found live⟩ :: earlier ∧
    ∃ event ∈ earlier, shows event

def Orphan (robot : Robot) (live : Option HarborAccess) : Prop :=
  ∀ ha, live = some ha → c.selects ha = false ∨ ownsLegacyRobot c.clusterName robot.name = true ∨
    (∃ name, robotName c.clusterName ha.spec.serviceAccountRef.ns ha.spec.serviceAccountRef.name =
      .error (.invalidRobotName name)) ∨
    ∃ name, robotName c.clusterName ha.spec.serviceAccountRef.ns ha.spec.serviceAccountRef.name =
      .ok name ∧ name ≠ robot.name

def OrphanSecret (s : Secret) (live : Option HarborAccess) : Prop :=
  ∀ ha, live = some ha → c.selects ha = false ∨ s.name ≠ RobotSecret.name ha.key.ns ha.key.name

/-- The robot has a name of this cluster, its tag and an owner. -/
structure Tagged (robot : Robot) (ns name : GoString) : Prop where
  named : ownsRobot c.clusterName robot.name = true ∨ ownsLegacyRobot c.clusterName robot.name = true
  tag : robotBelongsToCluster robot.description c.clusterName = true
  owner : parseRobotDescription robot.description = some (ns, name)

/-- What has to be known before something is deleted. -/
def Justified (events : List Event) : Call → Prop
  | .harbor (.deleteRobot id) => ∃ robot ns name live, robot.id = id ∧ Tagged c robot ns name ∧
      ReadAfter (ShowsRobot c robot) events ns name live ∧ Orphan c robot live
  | .deleteSecret s => ∃ ns name live, s.labels.get RobotSecret.labelCluster = c.clusterName ∧
      RobotSecret.owner s = some (ns, name) ∧
      ReadAfter (ShowsSecret c s) events ns name live ∧ OrphanSecret c s live
  | _ => True

variable {c}

theorem judgedOwner_eq_some {robot : Robot} {ns name : GoString} :
    judgedOwner c robot = some (ns, name) ↔ Tagged c robot ns name := by
  unfold judgedOwner
  split_ifs with hname htag
  · refine ⟨nofun, fun h => ?_⟩
    rcases h.named with hcur | hleg
    · rw [hname.1] at hcur
      cases hcur
    · rw [hname.2] at hleg
      cases hleg
  · refine ⟨nofun, fun h => ?_⟩
    rw [h.tag] at htag
    cases htag
  · refine ⟨fun h => ⟨?_, by simpa using htag, h⟩, fun h => h.owner⟩
    simpa [or_iff_not_imp_left] using hname

/-- The owner keeps the robot: it is selected, and the robot stands at its current name. -/
def Keeps (c : Config) (robot : Robot) (ha : HarborAccess) : Prop :=
  c.selects ha = true ∧ robotName c.clusterName ha.spec.serviceAccountRef.ns
    ha.spec.serviceAccountRef.name = .ok robot.name

theorem Keeps.not_legacy {robot : Robot} {ha : HarborAccess} (h : Keeps c robot ha) :
    ownsLegacyRobot c.clusterName robot.name = false :=
  ownsLegacyRobot_of_ownsRobot _ _ (ownsRobot_robotName _ _ _ _ c.clusterName_valid.ne_nil h.2)

theorem robotVerdict_eq_none {robot : Robot} {live : Option HarborAccess} :
    robotVerdict c robot (ownsLegacyRobot c.clusterName robot.name) live = none ↔
      ∃ ha, live = some ha ∧ Keeps c robot ha := by
  unfold robotVerdict
  cases live with
  | none => simp
  | some ha =>
    simp only [Option.some.injEq, exists_eq_left']
    constructor
    · intro h
      split_ifs at h with hsel hlegacy
      refine ⟨by simpa using hsel, ?_⟩
      cases hname : robotName c.clusterName ha.spec.serviceAccountRef.ns
          ha.spec.serviceAccountRef.name with
      | error e =>
        obtain ⟨name, rfl⟩ := robotName_error _ _ _ c.clusterName_length e hname
        rw [hname] at h
        cases h
      | ok want =>
        rw [hname] at h
        dsimp only at h
        split_ifs at h with hwant
        rw [hwant]
    · intro h
      rw [if_neg (by simp [h.1]), if_neg (by simp [h.not_legacy]), h.2]
      exact if_pos rfl

theorem orphan_of_robotVerdict {robot : Robot} {live : Option HarborAccess}
    (h : robotVerdict c robot (ownsLegacyRobot c.clusterName robot.name) live ≠ none) :
    Orphan c robot live := by
  intro ha hlive
  by_cases hsel : c.selects ha = true
  · cases hname : robotName c.clusterName ha.spec.serviceAccountRef.ns
        ha.spec.serviceAccountRef.name with
    | error e =>
      obtain ⟨name, rfl⟩ := robotName_error _ _ _ c.clusterName_length e hname
      exact .inr (.inr (.inl ⟨name, rfl⟩))
    | ok want =>
      refine .inr (.inr (.inr ⟨want, rfl, fun hwant => h ?_⟩))
      exact robotVerdict_eq_none.mpr ⟨ha, hlive, hsel, hwant ▸ hname⟩
  · exact .inl (by simpa using hsel)

theorem secretVerdict_eq_none {s : Secret} {live : Option HarborAccess} :
    secretVerdict c s live = none ↔ ∃ ha, live = some ha ∧ c.selects ha = true ∧
      s.name = RobotSecret.name ha.key.ns ha.key.name := by
  unfold secretVerdict
  cases live with
  | none => simp
  | some ha => by_cases hsel : c.selects ha = true <;> simp [hsel]

theorem orphanSecret_of_secretVerdict {s : Secret} {live : Option HarborAccess}
    (h : secretVerdict c s live ≠ none) : OrphanSecret c s live := by
  intro ha hlive
  by_cases hsel : c.selects ha = true
  · exact .inr fun hname => h (secretVerdict_eq_none.mpr ⟨ha, hlive, hsel, hname⟩)
  · exact .inl (by simpa using hsel)

theorem labelled_of_matching {s : Secret} (h : Site.hasLabels (matchingLabels c) s = true) :
    s.labels.get RobotSecret.labelCluster = c.clusterName := by
  have hunion : matchingLabels c ∪ s.labels = s.labels := of_decide_eq_true h
  rw [← hunion]
  exact RobotSecret.get_union_of_lookup _ _ _ _ (Finmap.lookup_insert _)

/-! ## The sweep -/

/-- What a sweep knows was written down: it was shown the robots and the Secrets, and then it read the
owner. -/
structure Recorded (c : Config) (k : SweepKnows) (events : List Event) : Prop where
  shown : ∀ robot ∈ k.shown, ∃ event ∈ events, ShowsRobot c robot event
  secrets : ∀ s ∈ k.secrets, Site.hasLabels (matchingLabels c) s = true ∧
    ∃ event ∈ events, ShowsSecret c s event
  live : ∀ ns name live, k.live = some ((ns, name), live) → ∃ later earlier,
    events = later ++ ⟨.readAccess ns name, Kube.found live⟩ :: earlier ∧
    (∀ robot ∈ k.shown, ∃ event ∈ earlier, ShowsRobot c robot event) ∧
    ∀ s ∈ k.secrets, ∃ event ∈ earlier, ShowsSecret c s event

namespace Recorded

variable {k : SweepKnows} {events : List Event}

theorem cons (h : Recorded c k events) (event : Event) : Recorded c k (event :: events) := by
  have hmem {P : Event → Prop} : (∃ e ∈ events, P e) → ∃ e ∈ event :: events, P e :=
    fun ⟨e, he, hP⟩ => ⟨e, List.mem_cons_of_mem _ he, hP⟩
  refine ⟨fun robot hr => hmem (h.shown robot hr), fun s hs => (h.secrets s hs).imp_right hmem,
    fun ns name live hlive => ?_⟩
  obtain ⟨later, earlier, rfl, hread⟩ := h.live ns name live hlive
  exact ⟨event :: later, earlier, rfl, hread⟩

theorem read (h : Recorded c k events) (ns name : GoString) (live : Option HarborAccess) :
    Recorded c { k with live := some ((ns, name), live) }
      (⟨.readAccess ns name, Kube.found live⟩ :: events) := by
  refine ⟨(h.cons _).shown, (h.cons _).secrets, fun ns' name' live' hlive => ?_⟩
  cases hlive
  exact ⟨[], events, rfl, h.shown, fun s hs => (h.secrets s hs).2⟩

theorem learn (h : Recorded c k events) {call : Call} (hallowed : k.Allows c call) {r : Answer call}
    (hr : HonoursLabels call r) : Recorded c (k.learn c call r) (⟨call, r⟩ :: events) := by
  have hcons := h.cons ⟨call, r⟩
  cases call with
  | harbor request =>
    cases request with
    | listRobot filter idFrom =>
      match r with
      | Except.error e => exact hcons
      | Except.ok payload =>
        refine ⟨fun robot hrobot => ?_, hcons.secrets, nofun⟩
        rcases List.mem_append.mp hrobot with hpage | hold
        · obtain ⟨x, hx, hfrom⟩ := List.mem_filterMap.mp hpage
          exact ⟨_, List.mem_cons_self, filter, idFrom, payload, x, rfl, hx, hfrom⟩
        · exact hcons.shown robot hold
    | _ => exact hcons
  | readAccess ns name =>
    match r with
    | Except.ok ha => exact h.read ns name (some ha)
    | Except.error .notFound => exact h.read ns name none
    | Except.error .conflict => exact hcons
    | Except.error .alreadyExists => exact hcons
    | Except.error .other => exact hcons
  | listAccess =>
    match r with
    | Except.ok owners => exact ⟨hcons.shown, hcons.secrets, hcons.live⟩
    | Except.error e => exact hcons
  | listSecrets ns labels =>
    obtain ⟨rfl, rfl⟩ := hallowed
    match r with
    | Except.error e => exact hcons
    | Except.ok secrets =>
      exact ⟨hcons.shown, fun s hs => ⟨hr secrets rfl s hs, _, List.mem_cons_self, secrets, rfl, hs⟩, nofun⟩
  | _ => exact hcons

theorem justified (h : Recorded c k events) {call : Call} (hallowed : k.Allows c call) :
    Justified c events call := by
  cases call with
  | harbor request =>
    cases request with
    | deleteRobot id =>
      obtain ⟨robot, hmem, hid, ⟨ns, name⟩, live, hjudged, hlive, hverdict⟩ := hallowed
      obtain ⟨later, earlier, heq, hshown, -⟩ := h.live ns name live hlive
      exact ⟨robot, ns, name, live, hid, judgedOwner_eq_some.mp hjudged,
        ⟨later, earlier, heq, hshown robot hmem⟩,
        orphan_of_robotVerdict (Option.isSome_iff_ne_none.mp hverdict)⟩
    | _ => trivial
  | deleteSecret s =>
    obtain ⟨hmem, ⟨ns, name⟩, live, howner, hlive, hverdict⟩ := hallowed
    obtain ⟨later, earlier, heq, -, hshown⟩ := h.live ns name live hlive
    exact ⟨ns, name, live, labelled_of_matching (h.secrets s hmem).1, howner,
      ⟨later, earlier, heq, hshown s hmem⟩,
      orphanSecret_of_secretVerdict (Option.isSome_iff_ne_none.mp hverdict)⟩
  | _ => trivial

end Recorded

/-- A sweep deletes only what it has seen, and then read the owner of, and found to be an
orphan. -/
theorem wp_sweep_recorded : (sweep c).Wp (recording (Justified c)) (fun _ _ => True) [] := by
  refine Prog.wp_mono (fun _ _ _ => trivial) _ _ (wp_follow (I := Recorded c)
    (fun _ _ _ h hallowed => h.justified hallowed) ?_ (wp_sweep c) ⟨nofun, nofun, nofun⟩)
  rintro k events call r _ h hallowed ⟨hr, rfl⟩
  exact h.learn hallowed hr

end Janitor

end HarborBridge
