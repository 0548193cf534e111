import HarborBridge.HarborSeen
import HarborBridge.Lib.History

/-! A robot never exists without the finalizer that revokes it: one worker, HarborAccess
objects that others edit, delete and create again, reads that lag, and calls that fail. -/
namespace HarborBridge

open GoStrings Interaction Versions

/-- Harbor, the HarborAccess objects with the versions that the cache may still show, and the
last resource version. -/
structure Cluster where
  harbor : Harbor
  access : ObjectKey → History HarborAccess
  revision : Nat

namespace Cluster

/-- The object as the apiserver stores it under the key, with the next resource version. -/
def stamped (w : Cluster) (key : ObjectKey) (ha : HarborAccess) : HarborAccess :=
  { ha with key := key, resourceVersion := w.revision + 1 }

def publish (w : Cluster) (key : ObjectKey) (ha : Option HarborAccess) : Cluster :=
  { w with
    access := Function.update w.access key ((w.access key).publish (ha.map (w.stamped key)))
    revision := w.revision + 1 }

def read (w : Cluster) (key : ObjectKey) (h : History HarborAccess) : Cluster :=
  { w with access := Function.update w.access key h }

/-- The object as the apiserver keeps it: without finalizers, a deleted one is gone. -/
def kept (ha : HarborAccess) : Option HarborAccess :=
  if ha.deleting = true ∧ ha.finalizers = [] then none else some ha

/-- A write of a HarborAccess, which carries a resource version, was answered with `r`: it
took effect, with an error or not, or it failed. -/
inductive Written (w : Cluster) (key : ObjectKey) (version : Nat)
    (change : HarborAccess → HarborAccess) : Except ApiErr HarborAccess → Cluster → Prop where
  | done (l : HarborAccess) (hl : (w.access key).live = some l)
      (hlock : l.resourceVersion = version) :
      Written w key version change (.ok (w.stamped key (change l)))
        (w.publish key (kept (change l)))
  | lost (l : HarborAccess) (hl : (w.access key).live = some l)
      (hlock : l.resourceVersion = version) (e : ApiErr) :
      Written w key version change (.error e) (w.publish key (kept (change l)))
  | failed (e : ApiErr) : Written w key version change (.error e) w

def Tracked : Call → Prop
  | .harbor _ => True
  | .getAccess _ => True
  | .patchFinalizers _ _ => True
  | .updateStatus _ => True
  | _ => False

/-- How a call of the worker is answered. Everything else that it may ask has any answer. -/
inductive Answers (w : Cluster) : (call : Call) → Answer call → Cluster → Prop where
  | harbor (call : HarborCall) (r : HarborAnswer call) (h : Harbor)
      (hf : w.harbor.Faulty call r h) : Answers w (.harbor call) r { w with harbor := h }
  | getAccess (key : ObjectKey) (v : Option HarborAccess) (h : History HarborAccess)
      (ho : (w.access key).Observes v h) :
      Answers w (.getAccess key) (Kube.found v) (w.read key h)
  | getAccessFailed (key : ObjectKey) (e : ApiErr) :
      Answers w (.getAccess key) (Except.error e) w
  | patchFinalizers (ha : HarborAccess) (finalizers : List GoString)
      (r : Except ApiErr HarborAccess) (w' : Cluster)
      (hw : w.Written ha.key ha.resourceVersion (fun l => { l with finalizers := finalizers }) r w') :
      Answers w (.patchFinalizers ha finalizers) r w'
  | updateStatus (ha : HarborAccess) (r : Except ApiErr HarborAccess) (w' : Cluster)
      (hw : w.Written ha.key ha.resourceVersion (fun l => { l with status := ha.status }) r w') :
      Answers w (.updateStatus ha) r w'
  | other (call : Call) (r : Answer call) (hcall : ¬ Tracked call) : Answers w call r w

/-- What others do: edit a HarborAccess or request its deletion, which leaves the finalizers
of the bridge alone, see an object go that no finalizer holds, and create one. -/
inductive Others (c : Config) (w : Cluster) : Cluster → Prop where
  | edit (key : ObjectKey) (l ha : HarborAccess) (hl : (w.access key).live = some l)
      (hfinalizers : ∀ f ∈ c.releasedFinalizers, f ∈ l.finalizers → f ∈ ha.finalizers) :
      Others c w (w.publish key (some ha))
  | gone (key : ObjectKey) (l : HarborAccess) (hl : (w.access key).live = some l)
      (hfree : l.finalizers = []) : Others c w (w.publish key none)
  | create (key : ObjectKey) (ha : HarborAccess) (hl : (w.access key).live = none) :
      Others c w (w.publish key (some ha))

/-- Where a run starts: no robot, and HarborAccess objects that the cache shows as they are. -/
structure Start (w : Cluster) : Prop where
  robots : w.harbor.robots = []
  access : ∀ key, (w.access key).older = [] ∧ ∀ ha, (w.access key).live = some ha →
    ha.key = key ∧ ha.resourceVersion ≤ w.revision

/-- A run of one worker, in which passes may end anywhere. -/
def Run (c : Config) (w : Cluster) (s : System (Unit × Role) Call Answer Cluster) : Prop :=
  Relation.ReflTransGen (System.Step (fun _ => Answers) (Others c)
    fun i p => i.2 = .worker ∧ Runs c i.2 p) (System.idle w) s

/-! ## The invariant -/

def Holds (c : Config) (w : Cluster) (key : ObjectKey) : Prop :=
  ∃ ha, (w.access key).live = some ha ∧ c.finalizer ∈ ha.finalizers

/-- Harbor's robot, as the client reads it, is the HarborAccess's. -/
def Owned (c : Config) (h : Harbor) (r : StoredRobot) (ns name : GoString) : Prop :=
  ∃ robot, fromHarborRobot c.harborRobotPrefix (h.report r) = some robot ∧
    robotOwnedBy c.clusterName robot ns name = true

/-- A pass over this version would go on to create a robot without adding the finalizer. -/
def Serving (c : Config) (ha : HarborAccess) : Prop :=
  ha.deleting = false ∧ (∃ name, admission c ha = .ok name) ∧ c.finalizer ∈ ha.finalizers

structure Safe (c : Config) (w : Cluster) : Prop where
  described : ∀ r ∈ w.harbor.robots, ∃ key : ObjectKey,
    Describes c.clusterName key.ns key.name r.description
  held : ∀ r ∈ w.harbor.robots, ∀ key : ObjectKey, Owned c w.harbor r key.ns key.name →
    w.Holds c key
  serving : ∀ key ha, (w.access key).Visible ha → Serving c ha → w.Holds c key
  versions : ∀ key ha, (w.access key).Visible ha → ha.key = key ∧ ha.resourceVersion ≤ w.revision
  ordered : ∀ key, (w.access key).Ordered (·.resourceVersion)

def Agrees (a b : HarborAccess) : Prop :=
  a.key = b.key ∧ a.spec = b.spec ∧ a.deleting = b.deleting

structure Fits (c : Config) (_ : Unit) (k : PassKnows) (w : Cluster) : Prop where
  sees : Sees c k w.harbor
  begun : k.first = none → k.copy = none ∧ k.patched = false
  first : ∀ ha, k.first = some ha → ha.key = k.key
  copy : ∀ ha, k.copy = some ha → ha.resourceVersion ≤ w.revision ∧
    (∃ first, k.first = some first ∧ Agrees first ha) ∧
    (w.access k.key).Current (·.resourceVersion) Agrees ha
  covered : ∀ name ha, k.Accepted c name → k.copy = some ha →
    c.finalizer ∈ ha.finalizers ∨ k.patched = true → w.Holds c k.key

/-! ## Robots and their owners -/

/-- The client recognises the robot, and its name is one of the cluster's. -/
def NameOwned (c : Config) (h : Harbor) (r : StoredRobot) : Prop :=
  (fromHarborRobot c.harborRobotPrefix (h.report r)).isSome ∧
    (ownsRobot c.clusterName (trimPrefix (h.wireName r) c.harborRobotPrefix) = true ∨
      ownsLegacyRobot c.clusterName (trimPrefix (h.wireName r) c.harborRobotPrefix) = true)

theorem owned_iff {c : Config} {h : Harbor} {r : StoredRobot} {ns name : GoString} :
    Owned c h r ns name ↔ NameOwned c h r ∧
      robotBelongsToCluster r.description c.clusterName = true ∧
      parseRobotDescription r.description = some (ns, name) := by
  constructor
  · rintro ⟨robot, hview, howned⟩
    obtain ⟨-, -, hdesc, -, -, hname⟩ := fromHarborRobot_some _ _ _ hview
    obtain ⟨hnames, htag, hparse⟩ := (robotOwnedBy_iff ..).mp howned
    rw [hname] at hnames
    rw [hdesc] at htag hparse
    exact ⟨⟨by rw [hview]; rfl, hnames⟩, htag, hparse⟩
  · rintro ⟨⟨hview, hnames⟩, htag, hparse⟩
    obtain ⟨robot, hview⟩ := Option.isSome_iff_exists.mp hview
    obtain ⟨-, -, hdesc, -, -, hname⟩ := fromHarborRobot_some _ _ _ hview
    refine ⟨robot, hview, (robotOwnedBy_iff ..).mpr ?_⟩
    rw [hname, hdesc]
    exact ⟨hnames, htag, hparse⟩

/-- Only the name decides whether the client recognises a robot. -/
theorem nameOwned_congr {c : Config} {h h' : Harbor} {r r' : StoredRobot}
    (hedit : r'.editable = r.editable) (hwire : h'.wireName r' = h.wireName r) :
    NameOwned c h' r' ↔ NameOwned c h r := by
  have hview : (fromHarborRobot c.harborRobotPrefix (h'.report r')).isSome =
      (fromHarborRobot c.harborRobotPrefix (h.report r)).isSome :=
    fromHarborRobot_isSome_congr hedit hwire
  unfold NameOwned
  rw [hview, hwire]

/-- A robot that a HarborAccess is described to own has no other owner. -/
theorem owner_of_describes {c : Config} {h : Harbor} {r : StoredRobot} {key : ObjectKey}
    {ns name : GoString} (hdesc : Describes c.clusterName key.ns key.name r.description)
    (howned : Owned c h r ns name) : ns = key.ns ∧ name = key.name := by
  have hparse := (owned_iff.mp howned).2.2
  rw [hdesc.parseRobotDescription_eq c.clusterName_word] at hparse
  have hpair := Prod.mk.inj (Option.some.inj hparse)
  exact ⟨hpair.1.symm, hpair.2.symm⟩

/-- The robot that a pass may take over belongs to its HarborAccess already. -/
theorem key_of_adoptable {c : Config} {k : PassKnows} {h : Harbor} (hsees : Sees c k h)
    {ha : HarborAccess} {robot : Robot} {r : StoredRobot} {key : ObjectKey}
    (hdesc : Describes c.clusterName key.ns key.name r.description) (hmem : robot ∈ k.shown)
    (hr : r ∈ h.robots) (hid : r.id = robot.id) (hadopt : PassKnows.Adoptable c ha robot) :
    key = ha.key := by
  have hsame := ((hsees.shown robot hmem).2 r hr hid).1
  rw [hsame] at hdesc
  have howner := hadopt.2 _ (hdesc.parseRobotDescription_eq c.clusterName_word)
  exact (ObjectKey.ext_iff' ..).mpr (Prod.mk.inj howner)

/-! ## Writes -/

section Publish

variable {c : Config} {w : Cluster} {key : ObjectKey} {new : Option HarborAccess}

theorem publish_access_self :
    (w.publish key new).access key = (w.access key).publish (new.map (w.stamped key)) :=
  Function.update_self ..

theorem publish_access_of_ne {key' : ObjectKey} (hne : key' ≠ key) :
    (w.publish key new).access key' = w.access key' :=
  Function.update_of_ne hne ..

theorem Holds.publish {key' : ObjectKey} (hw : w.Holds c key')
    (hkeep : key' = key → ∃ ha, new = some ha ∧ c.finalizer ∈ ha.finalizers) :
    (w.publish key new).Holds c key' := by
  by_cases hne : key' = key
  · obtain ⟨ha, rfl, hfinalizer⟩ := hkeep hne
    subst hne
    refine ⟨w.stamped key' ha, ?_, hfinalizer⟩
    rw [publish_access_self]
    rfl
  · unfold Holds
    rw [publish_access_of_ne hne]
    exact hw

theorem visible_publish {key' : ObjectKey} {ha : HarborAccess}
    (h : ((w.publish key new).access key').Visible ha) :
    (w.access key').Visible ha ∨ key' = key ∧ ∃ ha', new = some ha' ∧
      ha = w.stamped key ha' := by
  by_cases hne : key' = key
  · subst hne
    rw [publish_access_self, History.visible_publish, Option.map_eq_some_iff] at h
    rcases h with ⟨ha', hnew, heq⟩ | h
    · exact .inr ⟨rfl, ha', hnew, heq.symm⟩
    · exact .inl h
  · rw [publish_access_of_ne hne] at h
    exact .inl h

/-- A write keeps the invariant if it keeps the finalizer, or if the HarborAccess has no
robot and no version of it is served. -/
theorem Safe.publish (hw : Safe c w) (hkeep : w.Holds c key →
      (∃ ha, new = some ha ∧ c.finalizer ∈ ha.finalizers) ∨
        (∀ ha, (w.access key).Visible ha → ¬ Serving c ha) ∧
          ∀ r ∈ w.harbor.robots, ¬ Owned c w.harbor r key.ns key.name) :
    Safe c (w.publish key new) := by
  refine ⟨hw.described, ?_, ?_, ?_, ?_⟩
  · intro r hr key' howned
    refine (hw.held r hr key' howned).publish fun hkey => ?_
    subst hkey
    rcases hkeep (hw.held r hr key' howned) with hnew | ⟨-, hnone⟩
    · exact hnew
    · exact absurd howned (hnone r hr)
  · intro key' ha hvisible hserving
    rcases visible_publish hvisible with hold | ⟨rfl, ha', rfl, rfl⟩
    · refine (hw.serving key' ha hold hserving).publish fun hkey => ?_
      subst hkey
      rcases hkeep (hw.serving key' ha hold hserving) with hnew | ⟨hnone, -⟩
      · exact hnew
      · exact absurd hserving (hnone ha hold)
    · -- the version that was just written is the live one
      refine ⟨_, ?_, hserving.2.2⟩
      rw [publish_access_self]
      rfl
  · intro key' ha hvisible
    rcases visible_publish hvisible with hold | ⟨rfl, ha', -, rfl⟩
    · obtain ⟨hkey, hle⟩ := hw.versions key' ha hold
      exact ⟨hkey, hle.trans (Nat.le_succ _)⟩
    · exact ⟨rfl, le_refl _⟩
  · intro key'
    by_cases hne : key' = key
    · subst hne
      rw [publish_access_self]
      refine History.Ordered.publish fun x hx l hl => ?_
      obtain ⟨ha', -, rfl⟩ := Option.map_eq_some_iff.mp hl
      exact Nat.lt_succ_of_le (hw.versions key' x hx).2
    · rw [publish_access_of_ne hne]
      exact hw.ordered key'

theorem Fits.publish {u : Unit} {k : PassKnows} (hk : Fits c u k w)
    (hkeep : w.Holds c key → ∃ ha, new = some ha ∧ c.finalizer ∈ ha.finalizers) :
    Fits c u k (w.publish key new) := by
  refine ⟨hk.sees, hk.begun, hk.first, ?_, ?_⟩
  · intro ha hcopy
    obtain ⟨hle, hfirst, hcurrent⟩ := hk.copy ha hcopy
    refine ⟨hle.trans (Nat.le_succ _), hfirst, ?_⟩
    by_cases hne : k.key = key
    · subst hne
      rw [publish_access_self]
      refine History.Current.publish_other fun l hl => ?_
      obtain ⟨ha', -, rfl⟩ := Option.map_eq_some_iff.mp hl
      change w.revision + 1 ≠ ha.resourceVersion
      omega
    · rw [publish_access_of_ne hne]
      exact hcurrent
  · intro name ha haccepted hcopy hcase
    have hholds := hk.covered name ha haccepted hcopy hcase
    refine hholds.publish fun hkey => ?_
    subst hkey
    exact hkeep hholds

end Publish

/-! ## Requests to Harbor -/

section Requests

variable {c : Config} {w : Cluster} {u : Unit} {k : PassKnows}

theorem Fits.copy_key (hk : Fits c u k w) {ha : HarborAccess} (hcopy : k.copy = some ha) :
    ha.key = k.key := by
  obtain ⟨-, ⟨first, hfirst, hagrees⟩, -⟩ := hk.copy ha hcopy
  rw [← hagrees.1]
  exact hk.first first hfirst

/-- A robot that an update changes is the HarborAccess's before and after. -/
theorem Fits.describes_update (hk : Fits c u k w) (hw : Safe c w) {r : StoredRobot}
    (hr : r ∈ w.harbor.robots) {body : RobotUpdate} (hallowed : k.Updates c r.id body) :
    Describes c.clusterName k.key.ns k.key.name r.description ∧
      Describes c.clusterName k.key.ns k.key.name body.description := by
  obtain ⟨key, hdesc⟩ := hw.described r hr
  -- whichever kind of update it is, the robot was shown and may be taken over
  have hbefore : ∀ ha robot, k.copy = some ha → robot.id = r.id → robot ∈ k.shown →
      PassKnows.Adoptable c ha robot →
      Describes c.clusterName k.key.ns k.key.name r.description := by
    intro ha robot hcopy hid hmem hadopt
    have hkey := key_of_adoptable hk.sees hdesc hmem hr hid.symm hadopt
    rw [← hk.copy_key hcopy, ← hkey]
    exact hdesc
  cases hallowed with
  | suspends ha robot hcopy hdismissed hid hmem howned hdisable hbody =>
    refine ⟨hbefore ha robot hcopy hid hmem (PassKnows.adoptable_of_robotOwnedBy howned), ?_⟩
    rw [← hk.copy_key hcopy]
    exact .inr hbody
  | aligns ha robot hfound hid hactive hdisable hbody =>
    refine ⟨hbefore ha robot hfound.1 hid hfound.2.2.1 hfound.2.2.2, ?_⟩
    rw [← hk.copy_key hfound.1]
    exact .inl hbody
  | resumes ha robot hfound hid hsuspended password hpassword hdisable hbody =>
    refine ⟨hbefore ha robot hfound.1 hid hfound.2.2.1 hfound.2.2.2, ?_⟩
    rw [← hk.copy_key hfound.1]
    exact .inl hbody

theorem Safe.harbor (hw : Safe c w) (hk : Fits c u k w) {call : HarborCall}
    (hallowed : k.AllowsHarbor c call) {h : Harbor} (he : w.harbor.Effect call h) :
    Safe c { w with harbor := h } := by
  -- each robot of `h` is described, and its owner owned a robot or has the finalizer
  have hrobots : ∀ s ∈ h.robots, (∃ key : ObjectKey,
      Describes c.clusterName key.ns key.name s.description) ∧
      ∀ key : ObjectKey, Owned c h s key.ns key.name → w.Holds c key := by
    intro s hs
    rcases he.mem hs with ⟨r, hr, hrs, hname, hedit, hcase⟩ | ⟨body, rfl, hid, hname, hdesc, -⟩
    · have hwire : h.wireName s = w.harbor.wireName r := by
        unfold Harbor.wireName
        rw [he.robotNamePrefix, ← hname, ← hedit]
      have hnames := nameOwned_congr (c := c) hedit.symm hwire
      rcases hcase with ⟨hdesc, -⟩ | ⟨body, rfl, hdesc, -⟩
      · rw [hdesc]
        refine ⟨hw.described r hr, fun key howned => hw.held r hr key (owned_iff.mpr ?_)⟩
        have hs := owned_iff.mp howned
        rw [hdesc, hnames] at hs
        exact hs
      · rw [← hrs] at hallowed
        obtain ⟨hbefore, hafter⟩ := hk.describes_update hw hr hallowed
        rw [← hdesc] at hafter
        refine ⟨⟨k.key, hafter⟩, fun key howned => hw.held r hr key (owned_iff.mpr ?_)⟩
        obtain ⟨hns, hn⟩ := owner_of_describes hafter howned
        rw [hns, hn]
        refine ⟨hnames.mp (owned_iff.mp howned).1, ?_, ?_⟩
        · exact (hbefore.robotBelongsToCluster_iff c.clusterName_word _).mpr rfl
        · exact hbefore.parseRobotDescription_eq c.clusterName_word
    · -- the robot that was created
      obtain ⟨ha, hcopy, haccepted, hfinalizer, hbody⟩ := hallowed
      have hafter : Describes c.clusterName k.key.ns k.key.name s.description := by
        rw [hdesc, ← hk.copy_key hcopy]
        exact .inl hbody
      refine ⟨⟨k.key, hafter⟩, fun key howned => ?_⟩
      obtain ⟨hns, hn⟩ := owner_of_describes hafter howned
      rw [(ObjectKey.ext_iff' ..).mpr ⟨hns, hn⟩]
      exact hk.covered _ ha haccepted hcopy hfinalizer
  exact ⟨fun s hs => (hrobots s hs).1, fun s hs => (hrobots s hs).2, hw.serving, hw.versions,
    hw.ordered⟩

theorem Fits.harbor (hk : Fits c u k w) {call : HarborCall} (hallowed : k.AllowsHarbor c call)
    {r : HarborAnswer call} {h : Harbor} (hf : w.harbor.Faulty call r h) :
    Fits c u (k.learnHarbor c call r) { w with harbor := h } := by
  obtain ⟨hkey, hfirst, hcopy, hpatched, -⟩ := k.learn_harbor (c := c) call r
  have hsees := hk.sees.learnHarbor hallowed hf
  refine ⟨hsees, ?_, ?_, ?_, ?_⟩
  · rw [hfirst, hcopy, hpatched]
    exact hk.begun
  · rw [hfirst, hkey]
    exact hk.first
  · rw [hfirst, hcopy, hkey]
    exact hk.copy
  · unfold PassKnows.Accepted
    rw [hfirst, hcopy, hpatched, hkey]
    exact hk.covered

end Requests

/-! ## Reads and writes of the pass -/

section Passes

variable {c : Config} {w : Cluster} {u : Unit} {k : PassKnows} {key : ObjectKey}
  {v : Option HarborAccess} {h : History HarborAccess}

theorem read_access_self : (w.read key h).access key = h := Function.update_self ..

theorem read_access_of_ne {key' : ObjectKey} (hne : key' ≠ key) :
    (w.read key h).access key' = w.access key' :=
  Function.update_of_ne hne ..

theorem live_read (ho : (w.access key).Observes v h) (key' : ObjectKey) :
    ((w.read key h).access key').live = (w.access key').live := by
  by_cases hne : key' = key
  · subst hne
    rw [read_access_self]
    exact ho.live
  · rw [read_access_of_ne hne]

theorem visible_read (ho : (w.access key).Observes v h) {key' : ObjectKey} {ha : HarborAccess}
    (hvisible : ((w.read key h).access key').Visible ha) : (w.access key').Visible ha := by
  by_cases hne : key' = key
  · subst hne
    rw [read_access_self] at hvisible
    exact ho.visible hvisible
  · rwa [read_access_of_ne hne] at hvisible

theorem Safe.read (hw : Safe c w) (ho : (w.access key).Observes v h) : Safe c (w.read key h) := by
  have hholds : ∀ key', w.Holds c key' → (w.read key h).Holds c key' := by
    rintro key' ⟨ha, hlive, hfinalizer⟩
    exact ⟨ha, (live_read ho key').trans hlive, hfinalizer⟩
  refine ⟨hw.described, fun r hr key' howned => hholds key' (hw.held r hr key' howned), ?_, ?_, ?_⟩
  · intro key' ha hvisible hserving
    exact hholds key' (hw.serving key' ha (visible_read ho hvisible) hserving)
  · intro key' ha hvisible
    exact hw.versions key' ha (visible_read ho hvisible)
  · intro key'
    by_cases hne : key' = key
    · subst hne
      rw [read_access_self]
      exact ho.ordered (hw.ordered key')
    · rw [read_access_of_ne hne]
      exact hw.ordered key'

/-- The first read of a pass: its copy is current, or the object has moved on, and a copy
that would be served means that the HarborAccess carries the finalizer. -/
theorem Fits.read (hk : Fits c u k w) (hw : Safe c w) (hfirst : k.first = none)
    (ho : (w.access k.key).Observes v h) :
    Fits c u (k.learn c (.getAccess k.key) (Kube.found v)) (w.read k.key h) := by
  obtain ⟨hnone, hpatched⟩ := hk.begun hfirst
  have hsees := hk.sees.learn_kube
    (nofun : ∀ request, Call.getAccess k.key ≠ .harbor request) (Kube.found v)
  cases v with
  | none =>
    refine ⟨hsees, hk.begun, hk.first, fun ha hcopy => ?_, fun name ha _ hcopy => ?_⟩
    · cases hnone.symm.trans hcopy
    · cases hnone.symm.trans hcopy
  | some ha =>
    have hvisible := ho.visible_self
    obtain ⟨hkey, hle⟩ := hw.versions k.key ha hvisible
    refine ⟨hsees, nofun, ?_, ?_, ?_⟩
    · intro ha' heq
      obtain rfl := Option.some.inj heq
      exact hkey
    · intro ha' heq
      obtain rfl := Option.some.inj heq
      refine ⟨hle, ⟨ha, rfl, rfl, rfl, rfl⟩, ?_⟩
      change ((w.read k.key h).access k.key).Current _ _ _
      rw [read_access_self]
      exact ho.current (hw.ordered k.key)
    · rintro name ha' ⟨first, hfirst', hdeleting, -, hadmission⟩ heq hcase
      obtain rfl := Option.some.inj heq
      obtain rfl := Option.some.inj hfirst'
      have hfinalizer : c.finalizer ∈ ha.finalizers := by
        rcases hcase with hcase | hcase
        · exact hcase
        · cases hpatched.symm.trans hcase
      obtain ⟨l, hl, hfin⟩ := hw.serving k.key ha hvisible ⟨hdeleting, ⟨name, hadmission⟩, hfinalizer⟩
      exact ⟨l, (live_read ho k.key).trans hl, hfin⟩

/-- What a write under the lock finds: the copy itself, and visible versions like it. -/
theorem Fits.locked (hk : Fits c u k w) {old l : HarborAccess} (hcopy : k.copy = some old)
    (hl : (w.access k.key).live = some l) (hlock : l.resourceVersion = old.resourceVersion) :
    l = old ∧ ∀ ha, (w.access k.key).Visible ha → Agrees ha old := by
  obtain ⟨-, -, hcurrent⟩ := hk.copy old hcopy
  obtain ⟨rfl, holder⟩ := hcurrent l hl hlock
  refine ⟨rfl, fun ha hvisible => ?_⟩
  rcases hvisible with hlive | hmem
  · obtain rfl := Option.some.inj (hl.symm.trans hlive)
    exact ⟨rfl, rfl, rfl⟩
  · exact holder ha hmem

theorem Written.harbor {version : Nat} {change : HarborAccess → HarborAccess}
    {r : Except ApiErr HarborAccess} {w' : Cluster} (hw : w.Written key version change r w') :
    w'.harbor = w.harbor := by
  cases hw <;> rfl

theorem kept_of_mem {ha : HarborAccess} {f : GoString} (h : f ∈ ha.finalizers) :
    kept ha = some ha := by
  unfold kept
  rw [if_neg]
  rintro ⟨-, hnil⟩
  rw [hnil] at h
  cases h

/-- The pass writes its HarborAccess. The write does not touch what a pass decides by, and it
keeps the finalizer or releases a HarborAccess without robots. -/
theorem Fits.written (hk : Fits c u k w) (hw : Safe c w) {old : HarborAccess}
    (hcopy : k.copy = some old) {change : HarborAccess → HarborAccess}
    {r : Except ApiErr HarborAccess} {w' : Cluster}
    (hwritten : w.Written k.key old.resourceVersion change r w')
    (hchange : ∀ l, (change l).spec = l.spec ∧ (change l).deleting = l.deleting)
    (hkeep : (c.finalizer ∈ old.finalizers → c.finalizer ∈ (change old).finalizers) ∨
      k.Dismissed c ∧ ∀ r ∈ w.harbor.robots, ¬ Owned c w.harbor r k.key.ns k.key.name) :
    Safe c w' ∧ ∀ new, r = .ok new →
      new.finalizers = (change old).finalizers ∧ new.resourceVersion ≤ w'.revision ∧
      (∃ first, k.first = some first ∧ Agrees first new) ∧
      (w'.access k.key).Current (·.resourceVersion) Agrees new ∧
      (c.finalizer ∈ new.finalizers → w'.Holds c k.key) := by
  have hsafe : ∀ l, (w.access k.key).live = some l → l.resourceVersion = old.resourceVersion →
      Safe c (w.publish k.key (kept (change l))) := by
    intro l hl hlock
    obtain ⟨rfl, hlike⟩ := hk.locked hcopy hl hlock
    refine hw.publish fun hholds => ?_
    rcases hkeep with hkeep | ⟨⟨first, hfirst, hdismissed⟩, hnone⟩
    · left
      obtain ⟨l', hl', hfinalizer⟩ := hholds
      obtain rfl := Option.some.inj (hl.symm.trans hl')
      exact ⟨change l, kept_of_mem (hkeep hfinalizer), hkeep hfinalizer⟩
    · refine .inr ⟨fun ha hvisible hserving => ?_, hnone⟩
      -- every visible version is like the first copy, which was refused or is being deleted
      obtain ⟨-, ⟨first', hfirst', hagrees⟩, -⟩ := hk.copy l hcopy
      obtain rfl := Option.some.inj (hfirst.symm.trans hfirst')
      obtain ⟨hkey, hspec, hdeleting⟩ := hlike ha hvisible
      obtain ⟨hserved, ⟨name, hadmission⟩, -⟩ := hserving
      rcases hdismissed with hdel | ⟨refusal, hrefused⟩
      · rw [hdeleting, ← hagrees.2.2, hdel] at hserved
        cases hserved
      · have hsame : admission c ha = admission c first := by
          unfold admission
          rw [hspec, hkey, ← hagrees.2.1, ← hagrees.1]
        rw [hsame, hrefused] at hadmission
        cases hadmission
  cases hwritten with
  | failed e => exact ⟨hw, nofun⟩
  | lost l hl hlock e => exact ⟨hsafe l hl hlock, nofun⟩
  | done l hl hlock =>
    refine ⟨hsafe l hl hlock, fun new hnew => ?_⟩
    obtain rfl := Except.ok.inj hnew
    obtain ⟨rfl, -⟩ := hk.locked hcopy hl hlock
    obtain ⟨-, ⟨first, hfirst, hagrees⟩, hcurrent⟩ := hk.copy l hcopy
    have hlike : Agrees l (w.stamped k.key (change l)) :=
      ⟨hk.copy_key hcopy, (hchange l).1.symm, (hchange l).2.symm⟩
    have htrans : ∀ x, Agrees x l →
        Agrees x (w.stamped k.key (change l)) := by
      rintro x ⟨hkey, hspec, hdeleting⟩
      exact ⟨hkey.trans hlike.1, hspec.trans hlike.2.1, hdeleting.trans hlike.2.2⟩
    refine ⟨rfl, le_refl _, ⟨first, hfirst, htrans first hagrees⟩, ?_, fun hfinalizer => ?_⟩
    · rw [publish_access_self]
      by_cases hkept : kept (change l) = none
      · rw [hkept]
        exact History.Current.publish_other nofun
      · have hsome : kept (change l) = some (change l) := by
          unfold kept at hkept ⊢
          split_ifs with hcond
          · exact absurd (if_pos hcond) hkept
          · rfl
        rw [hsome]
        exact hcurrent.publish_same hl rfl hlike htrans
    · refine ⟨w.stamped k.key (change l), ?_, hfinalizer⟩
      have hkept : kept (change l) = some (change l) := kept_of_mem hfinalizer
      rw [publish_access_self, hkept]
      rfl

end Passes

/-! ## Runs -/

section Runs

variable {c : Config} {w w' : Cluster} {u : Unit} {k : PassKnows}

/-- Once the listed robots of the HarborAccess are deleted, it has none. -/
theorem Fits.revoked (hk : Fits c u k w) {ha : HarborAccess} (hcopy : k.copy = some ha)
    (hrevoked : k.Revoked c ha) :
    ∀ r ∈ w.harbor.robots, ¬ Owned c w.harbor r k.key.ns k.key.name := by
  rintro r hr ⟨robot, hview, howned⟩
  obtain ⟨hfilter, hcomplete, hdeleted⟩ := hrevoked
  have hmatching : w.harbor.matching k.walk.filter r = true := by
    rw [hfilter]
    rfl
  obtain ⟨robot', hmem, hview'⟩ := hk.sees.covers.2 r hr hmatching (.inl hcomplete)
  obtain rfl := Option.some.inj (hview'.symm.trans hview)
  rw [← hk.copy_key hcopy] at howned
  have hgone := (hk.sees.deleted _ (hdeleted robot' hmem howned)).2 r hr
  exact hgone (fromHarborRobot_some _ _ _ hview').1.symm

/-- Calls that are about neither leave alone what is known of the HarborAccess. -/
theorem learn_untracked {call : Call} (hcall : ¬ Tracked call) (r : Answer call) :
    (k.learn c call r).first = k.first ∧ (k.learn c call r).copy = k.copy ∧
      (k.learn c call r).patched = k.patched := by
  cases call with
  | harbor | getAccess | patchFinalizers | updateStatus => exact absurd trivial hcall
  | readSecret | deleteSecret =>
    match r with
    | Except.ok s => exact ⟨rfl, rfl, rfl⟩
    | Except.error e => cases e <;> exact ⟨rfl, rfl, rfl⟩
  | _ => exact ⟨rfl, rfl, rfl⟩

theorem Fits.patched (hk : Fits c u k w) (hw : Safe c w) {ha : HarborAccess}
    {finalizers : List GoString} (hallowed : k.Patches c ha finalizers)
    {r : Except ApiErr HarborAccess} (hwritten : w.Written ha.key ha.resourceVersion
      (fun l => { l with finalizers := finalizers }) r w') :
    Safe c w' ∧ Fits c u (k.learn c (.patchFinalizers ha finalizers) r) w' := by
  have hcopy : k.copy = some ha := by cases hallowed <;> assumption
  -- the finalizer is added, or nothing is left that it would have to hold
  have hkeep : c.finalizer ∈ finalizers ∨
      k.Dismissed c ∧ ∀ r ∈ w.harbor.robots, ¬ Owned c w.harbor r k.key.ns k.key.name := by
    cases hallowed with
    | adds name hcopy haccepted hfinalizers =>
      left
      rw [hfinalizers]
      exact List.mem_append_right _ List.mem_cons_self
    | releases hcopy hdismissed hrevoked hfinalizers =>
      exact .inr ⟨hdismissed, hk.revoked hcopy hrevoked⟩
  rw [hk.copy_key hcopy] at hwritten
  obtain ⟨hsafe, hnew⟩ := hk.written hw hcopy hwritten (fun _ => ⟨rfl, rfl⟩)
    (hkeep.imp_left fun hmem _ => hmem)
  have hsees : Sees c k w'.harbor := hwritten.harbor ▸ hk.sees
  have hsees' := hsees.learn_kube
    (nofun : ∀ request, Call.patchFinalizers ha finalizers ≠ .harbor request) r
  refine ⟨hsafe, ?_⟩
  match r with
  | Except.error e =>
    refine ⟨hsees', fun h => ⟨rfl, (hk.begun h).2⟩, hk.first, fun ha' h => ?_, fun _ ha' _ h _ => ?_⟩
    · exact absurd h (Option.some_ne_none ha').symm
    · exact absurd h (Option.some_ne_none ha').symm
  | Except.ok new =>
    obtain ⟨hfin, hle, hfirst, hcurrent, hholds⟩ := hnew new rfl
    refine ⟨hsees', fun h => ?_, hk.first, fun ha' h => ?_, fun name ha' haccepted h _ => ?_⟩
    · cases (hk.begun h).1.symm.trans hcopy
    · obtain rfl := Option.some.inj h
      exact ⟨hle, hfirst, hcurrent⟩
    · obtain rfl := Option.some.inj h
      rcases hkeep with hmem | ⟨hdismissed, -⟩
      · rw [hfin] at hholds
        exact hholds hmem
      · exact absurd hdismissed haccepted.not_dismissed

theorem Fits.statusUpdated (hk : Fits c u k w) (hw : Safe c w) {old : HarborAccess}
    {status : HarborAccessStatus} (hcopy : k.copy = some old)
    {r : Except ApiErr HarborAccess} (hwritten : w.Written old.key old.resourceVersion
      (fun l => { l with status := status }) r w') :
    Safe c w' ∧ Fits c u (k.learn c (.updateStatus { old with status := status }) r) w' := by
  rw [hk.copy_key hcopy] at hwritten
  obtain ⟨hsafe, hnew⟩ := hk.written hw hcopy hwritten (fun _ => ⟨rfl, rfl⟩) (.inl fun h => h)
  have hsees : Sees c k w'.harbor := hwritten.harbor ▸ hk.sees
  have hsees' := hsees.learn_kube
    (nofun : ∀ request, Call.updateStatus { old with status := status } ≠ .harbor request) r
  refine ⟨hsafe, ?_⟩
  match r with
  | Except.error e =>
    refine ⟨hsees', fun h => ⟨rfl, (hk.begun h).2⟩, hk.first, fun ha' h => ?_, fun _ ha' _ h _ => ?_⟩
    · exact absurd h (Option.some_ne_none ha').symm
    · exact absurd h (Option.some_ne_none ha').symm
  | Except.ok new =>
    obtain ⟨hfin, hle, hfirst, hcurrent, hholds⟩ := hnew new rfl
    refine ⟨hsees', fun h => ?_, hk.first, fun ha' h => ?_, fun name ha' haccepted h hcase => ?_⟩
    · cases (hk.begun h).1.symm.trans hcopy
    · obtain rfl := Option.some.inj h
      exact ⟨hle, hfirst, hcurrent⟩
    · obtain rfl := Option.some.inj h
      -- the live object is the copy, so the finalizer that it has stays
      have hcase' : c.finalizer ∈ old.finalizers ∨ k.patched = true := by
        rw [hfin] at hcase
        exact hcase
      obtain ⟨l, hl, hfinalizer⟩ := hk.covered name old haccepted hcopy hcase'
      apply hholds
      rw [hfin]
      cases hwritten with
      | done l' hl' hlock =>
        obtain rfl := Option.some.inj (hl.symm.trans hl')
        obtain ⟨rfl, -⟩ := hk.locked hcopy hl hlock
        exact hfinalizer

theorem Safe.answers (hw : Safe c w) (hk : Fits c u k w) {call : Call}
    (hallowed : k.Allows c call) {r : Answer call} (hs : w.Answers call r w') :
    Safe c w' ∧ Fits c u (k.learn c call r) w' := by
  cases hs with
  | harbor call r h hf => exact ⟨hw.harbor hk hallowed hf.effect, hk.harbor hallowed hf⟩
  | getAccess key v h ho =>
    obtain ⟨rfl, hfirst⟩ := hallowed
    exact ⟨hw.read ho, hk.read hw hfirst ho⟩
  | getAccessFailed key e => exact ⟨hw, hk⟩
  | patchFinalizers ha finalizers r w' hwritten => exact hk.patched hw hallowed hwritten
  | updateStatus ha r w' hwritten =>
    obtain ⟨old, status, hcopy, rfl⟩ := hallowed
    exact hk.statusUpdated hw hcopy hwritten
  | other call r hcall =>
    have hharbor : ∀ request, call ≠ .harbor request := by
      rintro request rfl
      exact hcall trivial
    obtain ⟨hkey, -⟩ := k.learn_kube (c := c) hharbor r
    obtain ⟨hfirst, hcopy, hpatched⟩ := learn_untracked (c := c) (k := k) hcall r
    refine ⟨hw, hk.sees.learn_kube hharbor r, ?_, ?_, ?_, ?_⟩
    · rw [hfirst, hcopy, hpatched]
      exact hk.begun
    · rw [hfirst, hkey]
      exact hk.first
    · rw [hfirst, hcopy, hkey]
      exact hk.copy
    · unfold PassKnows.Accepted
      rw [hfirst, hcopy, hpatched, hkey]
      exact hk.covered

theorem Safe.others (hw : Safe c w) (hs : w.Others c w') :
    Safe c w' ∧ ∀ k, Fits c u k w → Fits c u k w' := by
  cases hs with
  | edit key l ha hl hfinalizers =>
    have hkeep : w.Holds c key → ∃ ha', some ha = some ha' ∧ c.finalizer ∈ ha'.finalizers := by
      rintro ⟨l', hl', hfinalizer⟩
      obtain rfl := Option.some.inj (hl.symm.trans hl')
      exact ⟨ha, rfl, hfinalizers _ c.finalizer_mem_releasedFinalizers hfinalizer⟩
    exact ⟨hw.publish fun h => .inl (hkeep h), fun k hk => hk.publish hkeep⟩
  | gone key l hl hfree =>
    have hkeep : ¬ w.Holds c key := by
      rintro ⟨l', hl', hfinalizer⟩
      obtain rfl := Option.some.inj (hl.symm.trans hl')
      rw [hfree] at hfinalizer
      cases hfinalizer
    exact ⟨hw.publish fun h => absurd h hkeep, fun k hk => hk.publish fun h => absurd h hkeep⟩
  | create key ha hl =>
    have hkeep : ¬ w.Holds c key := by
      rintro ⟨l', hl', -⟩
      cases hl.symm.trans hl'
    exact ⟨hw.publish fun h => absurd h hkeep, fun k hk => hk.publish fun h => absurd h hkeep⟩

theorem Start.safe (hw : w.Start) : Safe c w := by
  have hvisible : ∀ key ha, (w.access key).Visible ha → (w.access key).live = some ha := by
    intro key ha h
    rcases h with h | h
    · exact h
    · rw [(hw.access key).1] at h
      cases h
  refine ⟨?_, ?_, ?_, ?_, ?_⟩
  · intro r hr
    rw [hw.robots] at hr
    cases hr
  · intro r hr
    rw [hw.robots] at hr
    cases hr
  · exact fun key ha h hserving => ⟨ha, hvisible key ha h, hserving.2.2⟩
  · exact fun key ha h => (hw.access key).2 ha (hvisible key ha h)
  · intro key v l hv
    rw [(hw.access key).1] at hv
    cases hv

theorem Fits.start (key : ObjectKey) : Fits c u (PassKnows.start key) w := by
  have hnone : ∀ ha : HarborAccess, (none : Option HarborAccess) ≠ some ha :=
    fun ha => (Option.some_ne_none ha).symm
  exact ⟨Sees.start c key w.harbor, fun _ => ⟨rfl, rfl⟩, fun ha h => absurd h (hnone ha),
    fun ha h => absurd h (hnone ha), fun _ ha _ h _ => absurd h (hnone ha)⟩

theorem Run.safe {s : System (Unit × Role) Call Answer Cluster} (hrun : Run c w s)
    (hw : w.Start) : Safe c s.world := by
  have hholds : (observer fun _ : Unit => c).Holds (Safe c)
      (Knowledge.Fits (Fits c) fun _ _ _ => False) s := by
    refine holds_bridge ?_ ?_ ?_ ?_ hrun (Observer.holds_idle hw.safe)
    · rintro ⟨u, role⟩ p w ⟨rfl, key, rfl⟩ -
      exact ⟨_, .worker (Fits.start key), reconcile_observed _ u key⟩
    · intro w v hs hw
      obtain ⟨hsafe, hkeep⟩ := hw.others hs
      exact ⟨hsafe, hkeep, fun _ hk => hk.elim⟩
    · intro k w call r w' hw hk hallowed hs
      obtain ⟨hsafe, hfits⟩ := hw.answers hk hallowed hs
      exact ⟨hsafe, hfits, fun _ hk => hk.elim⟩
    · exact fun k w call r w' hw hk => hk.elim
  exact hholds.1

end Runs

/-- In every state that one worker reaches, the HarborAccess that owns a robot exists and
carries a finalizer of the bridge. -/
theorem robot_has_finalizer (c : Config) (w : Cluster) (hw : w.Start)
    (s : System (Unit × Role) Call Answer Cluster) (hrun : Run c w s) (r : StoredRobot)
    (hr : r ∈ s.world.harbor.robots) (robot : Robot)
    (hview : fromHarborRobot c.harborRobotPrefix (s.world.harbor.report r) = some robot)
    (ns name : GoString) (howned : robotOwnedBy c.clusterName robot ns name = true) :
    ∃ key : ObjectKey, key.ns = ns ∧ key.name = name ∧ ∃ ha,
      (s.world.access key).live = some ha ∧ ∃ f ∈ c.releasedFinalizers, f ∈ ha.finalizers := by
  have hsafe := hrun.safe hw
  obtain ⟨key, hdesc⟩ := hsafe.described r hr
  obtain ⟨rfl, rfl⟩ := owner_of_describes hdesc ⟨robot, hview, howned⟩
  obtain ⟨ha, hlive, hfinalizer⟩ := hsafe.held r hr key ⟨robot, hview, howned⟩
  exact ⟨key, rfl, rfl, ha, hlive, _, c.finalizer_mem_releasedFinalizers, hfinalizer⟩

def write (w : Cluster) (key : ObjectKey) (version : Nat) (change : HarborAccess → HarborAccess) :
    Except ApiErr HarborAccess × Cluster :=
  match (w.access key).live with
  | none => (.error .notFound, w)
  | some l =>
    if l.resourceVersion = version then
      (.ok (w.stamped key (change l)), w.publish key (kept (change l)))
    else (.error .conflict, w)

def serve (w : Cluster) : (call : Call) → Answer call × Cluster
  | .harbor call => ((w.harbor.serve call).1, { w with harbor := (w.harbor.serve call).2 })
  | .getAccess key => (Kube.found (w.access key).live, w.read key ⟨(w.access key).live, []⟩)
  | .patchFinalizers ha finalizers =>
    w.write ha.key ha.resourceVersion fun l => { l with finalizers := finalizers }
  | .updateStatus ha => w.write ha.key ha.resourceVersion fun l => { l with status := ha.status }
  | .readAccess _ _ => (Except.error .other, w)
  | .listAccess => (Except.error .other, w)
  | .readSecret _ _ => (Except.error .notFound, w)
  | .listSecrets _ _ => (Except.ok [], w)
  | .createSecret _ => (Except.ok (), w)
  | .updateSecret _ => (Except.ok (), w)
  | .deleteSecret _ => (Except.ok (), w)
  | .now => ((0 : Int), w)
  | .logRotation _ _ => ((), w)

theorem write_written (w : Cluster) (key : ObjectKey) (version : Nat)
    (change : HarborAccess → HarborAccess) :
    w.Written key version change (w.write key version change).1 (w.write key version change).2 := by
  unfold write
  split
  · exact .failed .notFound
  · next l hl =>
    split_ifs with hlock
    · exact .done l hl hlock
    · exact .failed .conflict

theorem serve_answers (w : Cluster) (call : Call) :
    w.Answers call (w.serve call).1 (w.serve call).2 := by
  cases call with
  | harbor call => exact .harbor call _ _ (w.harbor.serve_faulty call)
  | getAccess key => exact .getAccess key _ _ .newest
  | patchFinalizers ha finalizers => exact .patchFinalizers _ _ _ _ (write_written ..)
  | updateStatus ha => exact .updateStatus _ _ _ (write_written ..)
  | _ => exact .other _ _ fun h => h

def sampleCluster : Cluster where
  harbor := emptyHarbor
  access key := ⟨if key = sampleKey then some (sampleAccess sampleKey ⟨lit "team", lit "app"⟩)
    else none, []⟩
  revision := 1

theorem sampleCluster_start : sampleCluster.Start := by
  refine ⟨rfl, fun key => ⟨rfl, fun ha hlive => ?_⟩⟩
  simp only [sampleCluster] at hlive
  split_ifs at hlive with hkey
  obtain rfl := Option.some.inj hlive
  exact ⟨hkey.symm, le_refl 1⟩

/-- A pass creates the robot, and the HarborAccess carries the finalizer. -/
theorem robot_has_finalizer_created : ∃ s r robot, Run sampleConfig sampleCluster s ∧
    r ∈ s.world.harbor.robots ∧
    fromHarborRobot sampleConfig.harborRobotPrefix (s.world.harbor.report r) = some robot ∧
    robotOwnedBy sampleConfig.clusterName robot (lit "team") (lit "app") = true ∧
    ∃ key : ObjectKey, key.ns = lit "team" ∧ key.name = lit "app" ∧ ∃ ha,
      (s.world.access key).live = some ha ∧
        ∃ f ∈ sampleConfig.releasedFinalizers, f ∈ ha.finalizers := by
  have hrun : Run sampleConfig sampleCluster _ :=
    System.run_exec (i := ((), .worker)) (I := fun _ => True)
      ⟨fun w _ e => serve_answers w e, fun _ _ _ => trivial⟩
      (do let _ ← reconcile sampleConfig sampleKey; return ()) ⟨rfl, sampleKey, rfl⟩ trivial
      (fun _ => none) rfl
  refine ⟨_, _, _, hrun, List.mem_cons_self, rfl, by decide +kernel, ?_⟩
  exact robot_has_finalizer sampleConfig sampleCluster sampleCluster_start _ hrun _
    List.mem_cons_self _ rfl _ _ (by decide +kernel)

end Cluster

end HarborBridge
