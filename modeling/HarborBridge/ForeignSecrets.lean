import HarborBridge.FixedPoint
import HarborBridge.Suspension
import HarborBridge.Vault

/-! The Secrets of a bridge with another cluster name that shares the namespace: a bridge that
reconciles and sweeps does not delete them, unless it resumes a robot. -/
namespace HarborBridge

open GoStrings Interaction

/-- The Secrets by namespace and name and the UIDs that were given out, and what the processes of
the bridge go by: the HarborAccess that the worker got for its pass, and the Secrets that each of
them last read, which it may delete. -/
structure Lockers where
  stored : GoString → GoString → Option Secret
  uids : List GoString
  pass : Option HarborAccess
  targets : Role → List Secret

namespace Lockers

/-- A managed Secret whose cluster label names the cluster. -/
def Stamped (cluster : GoString) (s : Secret) : Prop :=
  RobotSecret.isManaged s = true ∧ s.labels.get RobotSecret.labelCluster = cluster

instance (cluster : GoString) (s : Secret) : Decidable (Stamped cluster s) :=
  inferInstanceAs (Decidable (_ ∧ _))

variable (w : Lockers)

def slot (s : Secret) : Option Secret := w.stored s.ns s.name

/-- The Secret at the place of `s` becomes `new`, or goes. -/
def put (s : Secret) (new : Option Secret) : Lockers :=
  { w with
    stored := fun ns name => if ns = s.ns ∧ name = s.name then new else w.stored ns name
    uids := (new.map Secret.uid).toList ++ w.uids }

def told : (role : Role) → (call : Call) → Answer call → Lockers
  | .worker, .getAccess _, (r : Except ApiErr HarborAccess) =>
    match r with
    | .ok ha => { w with pass := some ha }
    | .error _ => w
  | .worker, .readSecret _ _, (r : Except ApiErr Secret) =>
    match r with
    | .ok s => { w with targets := Function.update w.targets .worker [s] }
    | .error .notFound => { w with targets := Function.update w.targets .worker [] }
    | .error _ => w
  | .janitor, .listSecrets _ _, (r : Except ApiErr (List Secret)) =>
    match r with
    | .ok secrets => { w with targets := Function.update w.targets .janitor secrets }
    | .error _ => w
  | _, _, _ => w

def Tracked : Call → Prop
  | .harbor (.listRobot _ _) => True
  | .listSecrets _ _ => True
  | call => Vault.Tracked call

/-- The worker's pass has accepted its HarborAccess, with this name for the robot, and the Secret
that it has read is one of the cluster by now. -/
structure AtStake (c : Config) (cluster : GoString) (ha : HarborAccess) (name : GoString) : Prop where
  pass : w.pass = some ha
  deleting : ha.deleting = false
  selected : c.selects ha = true
  accepted : admission c ha = .ok name
  stamped : ∃ s ∈ w.targets .worker, ∃ l, w.slot s = some l ∧ l.uid = s.uid ∧ Stamped cluster l

/-- Harbor shows a pass with such a Secret no suspended robot that the pass would resume. -/
def ShowsNoSuspended (c : Config) (cluster : GoString) (payload : List (Option HarborRobot)) :
    Prop :=
  ∀ ha name, w.AtStake c cluster ha name → ∀ x ∈ payload.filterMap id, ∀ robot,
    fromHarborRobot c.harborRobotPrefix x = some robot → robot.name = name →
    PassKnows.Adoptable c ha robot → ¬ PassKnows.Suspended robot

/-- How a call of the bridge is served. Calls may fail, before or after they took effect. A
deletion is for the Secret with the UID. -/
inductive Serves (c : Config) (cluster : GoString) (role : Role) :
    (call : Call) → Answer call → Lockers → Prop where
  | read (ns name : GoString) :
      Serves c cluster role (.readSecret ns name) (Kube.found (w.stored ns name)) w
  | readFailed (ns name : GoString) (e : ApiErr) :
      Serves c cluster role (.readSecret ns name) (Except.error e) w
  | listed (ns : GoString) (labels : StringMap) (secrets : List Secret)
      (h : ∀ s ∈ secrets, w.slot s = some s ∧ Site.hasLabels labels s = true) :
      Serves c cluster role (.listSecrets ns labels) (Except.ok secrets) w
  | listFailed (ns : GoString) (labels : StringMap) (e : ApiErr) :
      Serves c cluster role (.listSecrets ns labels) (Except.error e) w
  | created (s new : Secret) (habsent : w.slot s = none) (hns : new.ns = s.ns)
      (hname : new.name = s.name) (hlabels : new.labels = s.labels) (huid : new.uid ∉ w.uids)
      (r : Except ApiErr Unit) : Serves c cluster role (.createSecret s) r (w.put s (some new))
  | createFailed (s : Secret) (e : ApiErr) :
      Serves c cluster role (.createSecret s) (Except.error e) w
  | updated (s l new : Secret) (hl : w.slot s = some l) (hns : new.ns = s.ns)
      (hname : new.name = s.name) (hlabels : new.labels = s.labels) (huid : new.uid = l.uid)
      (r : Except ApiErr Unit) : Serves c cluster role (.updateSecret s) r (w.put s (some new))
  | updateFailed (s : Secret) (e : ApiErr) :
      Serves c cluster role (.updateSecret s) (Except.error e) w
  | deleted (s l : Secret) (hl : w.slot s = some l) (huid : l.uid = s.uid)
      (r : Except ApiErr Unit) : Serves c cluster role (.deleteSecret s) r (w.put s none)
  | deleteFailed (s : Secret) (e : ApiErr) :
      Serves c cluster role (.deleteSecret s) (Except.error e) w
  | robots (filter : Option GoString) (idFrom : Int) (payload : List (Option HarborRobot))
      (h : role = .worker → w.ShowsNoSuspended c cluster payload) :
      Serves c cluster role (.harbor (.listRobot filter idFrom)) (Except.ok payload) w
  | robotsFailed (filter : Option GoString) (idFrom : Int) (e : HarborErr) :
      Serves c cluster role (.harbor (.listRobot filter idFrom)) (Except.error e) w
  | other (call : Call) (r : Answer call) (hcall : ¬ Tracked call) (hr : RightObject call r) :
      Serves c cluster role call r w

def Answers (c : Config) (cluster : GoString) (role : Role) (call : Call) (r : Answer call)
    (w' : Lockers) : Prop := ∃ v, w.Serves c cluster role call r v ∧ w' = v.told role call r

/-- What others do to a Secret, the other bridge among them: they create, change and delete
Secrets. They may stamp for the cluster one that was not, but not one that a process of the bridge
may delete by its UID. -/
inductive Others (cluster : GoString) : Lockers → Prop where
  | create (new : Secret) (habsent : w.slot new = none) (huid : new.uid ∉ w.uids) :
      Others cluster (w.put new (some new))
  | update (l new : Secret) (hl : w.slot new = some l) (huid : new.uid = l.uid)
      (hstamp : Stamped cluster new → Stamped cluster l ∨
        ∀ role, ∀ s ∈ w.targets role, s.uid ≠ l.uid) : Others cluster (w.put new (some new))
  | delete (s : Secret) : Others cluster (w.put s none)

/-- A run of a bridge beside the bridge of the cluster. -/
def Run (c : Config) (cluster : GoString) (w : Lockers)
    (s : System (Unit × Role) Call Answer Lockers) : Prop :=
  Relation.ReflTransGen (System.Step (fun i w => Answers w c cluster i.2) (Others · cluster)
    fun i => Runs c i.2) (System.idle w) s

structure Ok : Prop where
  place : ∀ ns name s, w.stored ns name = some s → s.ns = ns ∧ s.name = name
  uid : ∀ ns name s, w.stored ns name = some s → s.uid ∈ w.uids

/-! ## The invariant -/

variable {w} {v w' : Lockers} {c : Config} {cluster : GoString} {u : Unit} {role : Role}

theorem told_store (call : Call) (r : Answer call) :
    (w.told role call r).stored = w.stored ∧ (w.told role call r).uids = w.uids := by
  unfold told
  split <;> (try split) <;> exact ⟨rfl, rfl⟩

theorem Ok.told (hw : w.Ok) (call : Call) (r : Answer call) : (w.told role call r).Ok := by
  obtain ⟨hstored, huids⟩ := @told_store w role call r
  constructor
  · rw [hstored]
    exact hw.place
  · rw [hstored, huids]
    exact hw.uid

/-- A deletion of the Secret that was read as `s` does not hit one of the cluster. -/
structure Spares (cluster : GoString) (w : Lockers) (s : Secret) : Prop where
  uid : s.uid ∈ w.uids
  other : ∀ l, w.slot s = some l → l.uid = s.uid → ¬ Stamped cluster l

theorem Spares.told {s : Secret} (hs : Spares cluster w s) (call : Call) (r : Answer call) :
    Spares cluster (w.told role call r) s := by
  obtain ⟨hstored, huids⟩ := @told_store w role call r
  constructor
  · rw [huids]
    exact hs.uid
  · unfold slot
    rw [hstored]
    exact hs.other

/-- What a step may do: a Secret that is stamped for the cluster afterwards is a new one, was so
before, or is one that no process of the bridge may delete. -/
structure Moves (cluster : GoString) (w w' : Lockers) : Prop where
  ok : w'.Ok
  uids : w.uids ⊆ w'.uids
  stamped : ∀ ns name l', w'.stored ns name = some l' → Stamped cluster l' → l'.uid ∉ w.uids ∨
    (∃ l, w.stored ns name = some l ∧ l.uid = l'.uid ∧ Stamped cluster l) ∨
    ∀ role, ∀ s ∈ w.targets role, s.uid ≠ l'.uid
  pass : w'.pass = w.pass
  targets : w'.targets = w.targets

theorem Moves.refl (hw : w.Ok) : Moves cluster w w :=
  ⟨hw, List.Subset.refl _, fun _ _ l' hl' hs => .inr (.inl ⟨l', hl', rfl, hs⟩), rfl, rfl⟩

theorem Moves.put (hw : w.Ok) {s : Secret} {new : Option Secret}
    (hplace : ∀ x, new = some x → x.ns = s.ns ∧ x.name = s.name)
    (hstamped : ∀ x, new = some x → Stamped cluster x → x.uid ∉ w.uids ∨
      (∃ l, w.slot s = some l ∧ l.uid = x.uid ∧ Stamped cluster l) ∨
      ∀ role, ∀ t ∈ w.targets role, t.uid ≠ x.uid) :
    Moves cluster w (w.put s new) := by
  have hcases : ∀ ns name x, (w.put s new).stored ns name = some x →
      ns = s.ns ∧ name = s.name ∧ new = some x ∨ w.stored ns name = some x := by
    intro ns name x hx
    change (if ns = s.ns ∧ name = s.name then new else w.stored ns name) = some x at hx
    split_ifs at hx with hsame
    · exact .inl ⟨hsame.1, hsame.2, hx⟩
    · exact .inr hx
  refine ⟨⟨fun ns name x hx => ?_, fun ns name x hx => ?_⟩, List.subset_append_right _ _,
    fun ns name x hx hs => ?_, rfl, rfl⟩
  · rcases hcases ns name x hx with ⟨rfl, rfl, hnew⟩ | hold
    · exact hplace x hnew
    · exact hw.place ns name x hold
  · rcases hcases ns name x hx with ⟨-, -, rfl⟩ | hold
    · exact List.mem_append_left _ (List.mem_singleton.mpr rfl)
    · exact List.mem_append_right _ (hw.uid ns name x hold)
  · rcases hcases ns name x hx with ⟨rfl, rfl, hnew⟩ | hold
    · exact hstamped x hnew hs
    · exact .inr (.inl ⟨x, hold, rfl, hs⟩)

theorem Spares.moves {s : Secret} (hs : Spares cluster w s) (hm : Moves cluster w w')
    (htarget : s ∈ w.targets role) : Spares cluster w' s := by
  refine ⟨hm.uids hs.uid, fun l' hl' huid hstamped => ?_⟩
  rcases hm.stamped s.ns s.name l' hl' hstamped with hnew | ⟨l, hl, hlid, hstamped'⟩ | hfree
  · rw [huid] at hnew
    exact hnew hs.uid
  · exact hs.other l hl (hlid.trans huid) hstamped'
  · exact hfree role s htarget huid.symm

theorem Others.moves (h : w.Others cluster w') (hw : w.Ok) : Moves cluster w w' := by
  cases h with
  | create new habsent huid =>
    refine .put hw (fun x hx => ?_) fun x hx _ => ?_
    · rw [← Option.some.inj hx]
      exact ⟨rfl, rfl⟩
    · rw [← Option.some.inj hx]
      exact .inl huid
  | update l new hl huid hstamp =>
    refine .put hw (fun x hx => ?_) fun x hx hs => ?_
    · rw [← Option.some.inj hx]
      exact ⟨rfl, rfl⟩
    · obtain rfl := Option.some.inj hx
      rcases hstamp hs with hbefore | hfree
      · exact .inr (.inl ⟨l, hl, huid.symm, hbefore⟩)
      · refine .inr (.inr fun role s hmem => ?_)
        rw [huid]
        exact hfree role s hmem
  | delete s => exact .put hw nofun nofun

def Resumable (c : Config) (k : PassKnows) (robot : Robot) : Prop :=
  ∃ ha, k.first = some ha ∧ ha.deleting = false ∧ c.selects ha = true ∧
    admission c ha = .ok robot.name ∧ PassKnows.Adoptable c ha robot ∧ PassKnows.Suspended robot

/-- What a pass knows is so: it has read the robot Secret of its HarborAccess, and unless that
was one of the cluster's or a suspended robot has been seen, it spares those. -/
structure Fits (c : Config) (cluster : GoString) (_ : Unit) (k : PassKnows) (w : Lockers) :
    Prop where
  own : k.OwnCopy
  walked : k.Walked
  first : ∀ ha, k.first = some ha → w.pass = some ha ∧ ha.key = k.key
  begun : k.first = none → k.copy = none ∧ ∀ s, k.secret ≠ some (some s)
  target : ∀ s, k.secret = some (some s) → s ∈ w.targets .worker
  read : ∀ s, k.secret = some (some s) → s.uid ∈ w.uids ∧ (¬ Stamped cluster s → Spares cluster w s)
  resumes : k.wrote = true ∨ ∀ robot ∈ k.shown, Resumable c k robot →
    ∀ s, k.secret = some (some s) → Spares cluster w s

/-- A sweep spares them with all Secrets that it listed. -/
structure SweepFits (cluster : GoString) (_ : Unit) (k : SweepKnows) (w : Lockers) : Prop where
  target : ∀ s ∈ k.secrets, s ∈ w.targets .janitor
  spares : ∀ s ∈ k.secrets, Spares cluster w s

variable {k : PassKnows}

theorem Fits.moves (hk : Fits c cluster u k w) (hm : Moves cluster w w') :
    Fits c cluster u k w' := by
  refine ⟨hk.own, hk.walked, fun ha hfirst => ?_, hk.begun, fun s hs => ?_, fun s hs => ?_, ?_⟩
  · rw [hm.pass]
    exact hk.first ha hfirst
  · rw [hm.targets]
    exact hk.target s hs
  · obtain ⟨huid, hspares⟩ := hk.read s hs
    exact ⟨hm.uids huid, fun h => (hspares h).moves hm (hk.target s hs)⟩
  · refine hk.resumes.imp_right fun hall robot hr hresumable s hs => ?_
    exact (hall robot hr hresumable s hs).moves hm (hk.target s hs)

theorem SweepFits.moves {k : SweepKnows} (hk : SweepFits cluster u k w) (hm : Moves cluster w w') :
    SweepFits cluster u k w' := by
  refine ⟨fun s hs => ?_, fun s hs => (hk.spares s hs).moves hm (hk.target s hs)⟩
  rw [hm.targets]
  exact hk.target s hs

theorem Fits.told_janitor (hk : Fits c cluster u k w) (call : Call) (r : Answer call) :
    Fits c cluster u k (w.told .janitor call r) := by
  have hsame : (w.told .janitor call r).pass = w.pass ∧
      (w.told .janitor call r).targets .worker = w.targets .worker := by
    have hne : Role.worker ≠ Role.janitor := by decide
    cases call with
    | listSecrets ns labels =>
      match r with
      | Except.ok secrets => exact ⟨rfl, Function.update_of_ne hne secrets w.targets⟩
      | Except.error e => exact ⟨rfl, rfl⟩
    | _ => exact ⟨rfl, rfl⟩
  refine ⟨hk.own, hk.walked, fun ha hfirst => ?_, hk.begun, fun s hs => ?_, fun s hs => ?_, ?_⟩
  · rw [hsame.1]
    exact hk.first ha hfirst
  · rw [hsame.2]
    exact hk.target s hs
  · obtain ⟨huid, hspares⟩ := hk.read s hs
    rw [(told_store call r).2]
    exact ⟨huid, fun h => (hspares h).told call r⟩
  · exact hk.resumes.imp_right fun hall robot hr hresumable s hs =>
      (hall robot hr hresumable s hs).told call r

theorem SweepFits.told_worker {k : SweepKnows} (hk : SweepFits cluster u k w) (call : Call)
    (r : Answer call) : SweepFits cluster u k (w.told .worker call r) := by
  have hsame : (w.told .worker call r).targets .janitor = w.targets .janitor := by
    have hne : Role.janitor ≠ Role.worker := by decide
    cases call with
    | getAccess key =>
      match r with
      | Except.ok ha => rfl
      | Except.error e => rfl
    | readSecret ns name =>
      match r with
      | Except.ok s => exact Function.update_of_ne hne [s] w.targets
      | Except.error e =>
        cases e with
        | notFound => exact Function.update_of_ne hne [] w.targets
        | _ => rfl
    | _ => rfl
  refine ⟨fun s hs => ?_, fun s hs => (hk.spares s hs).told call r⟩
  rw [hsame]
  exact hk.target s hs

theorem fits_start (key : ObjectKey) : Fits c cluster u (PassKnows.start key) w where
  own _ h := absurd h (Option.some_ne_none _).symm
  walked := List.nil_subset _
  first _ h := absurd h (Option.some_ne_none _).symm
  begun _ := ⟨rfl, fun _ h => absurd h (Option.some_ne_none _).symm⟩
  target _ h := absurd h (Option.some_ne_none _).symm
  read _ h := absurd h (Option.some_ne_none _).symm
  resumes := .inr fun _ _ _ _ h => absurd h (Option.some_ne_none _).symm

/-- A deletion that a pass makes spares the Secrets of the cluster. -/
theorem Fits.deleteSecret (hk : Fits c cluster u k w) (hne : c.clusterName ≠ cluster) {s : Secret}
    (hallowed : k.Allows c (.deleteSecret s)) : Spares cluster w s := by
  obtain ⟨hsecret, hwrote, hdeletes⟩ := hallowed
  cases hdeletes with
  | own ha robotName hcopy hfree =>
    refine (hk.read s hsecret).2 fun hstamped => ?_
    unfold secretDeleteConflict at hfree
    split at hfree
    · cases hfree
    · dsimp only at hfree
      rw [if_pos ⟨hstamped.1, hstamped.2.trans_ne hne.symm⟩] at hfree
      cases hfree
  | resumes ha robot hfound hsuspended =>
    obtain ⟨hcopy, ⟨first, hfirst, hdeleting, hselected, hadmission⟩, hshown, hadopt⟩ := hfound
    rcases hk.resumes with hwrote' | hall
    · rw [hwrote] at hwrote'
      cases hwrote'
    · -- the copy that the pass works on and the one that it accepted are of one object
      have hkey : first.key = ha.key := (hk.first first hfirst).2.trans (hk.own ha hcopy).symm
      refine hall robot hshown ⟨first, hfirst, hdeleting, hselected, hadmission, ⟨hadopt.1, ?_⟩,
        hsuspended⟩ s hsecret
      rw [hkey]
      exact hadopt.2

/-- The bridge stamps the Secrets that it writes for its own cluster. -/
theorem get_labelCluster {s : Secret} (hallowed : k.Allows c (.createSecret s) ∨
    k.Allows c (.updateSecret s)) : s.labels.get RobotSecret.labelCluster = c.clusterName := by
  rcases hallowed with ⟨ha, robot, password, notBefore, -, -, rfl⟩ |
    ⟨ha, robot, password, notBefore, existing, -, -, -, rfl⟩
  · change (RobotSecret.labels ..).get RobotSecret.labelCluster = _
    rw [StringMap.get, (RobotSecret.lookup_labels ..).2.1, Option.getD_some]
  · exact RobotSecret.get_union_of_lookup _ _ _ _ (RobotSecret.lookup_labels ..).2.1

/-- What the bridge writes is not stamped for the cluster. -/
theorem Moves.write (hw : w.Ok) (hne : c.clusterName ≠ cluster) {s new : Secret}
    (hns : new.ns = s.ns) (hname : new.name = s.name) (hlabels : new.labels = s.labels)
    (hcluster : s.labels.get RobotSecret.labelCluster = c.clusterName) :
    Moves cluster w (w.put s (some new)) := by
  refine .put hw (fun x hx => ?_) fun x hx hs => ?_
  · rw [← Option.some.inj hx]
    exact ⟨hns, hname⟩
  · obtain rfl := Option.some.inj hx
    have hsame := hs.2
    rw [hlabels, hcluster] at hsame
    exact absurd hsame hne

theorem Fits.serves_moves (hw : w.Ok) (hne : c.clusterName ≠ cluster) {call : Call}
    (hallowed : k.Allows c call) {r : Answer call} (hs : w.Serves c cluster role call r v) :
    Moves cluster w v := by
  cases hs with
  | created s new habsent hns hname hlabels huid r =>
    exact .write hw hne hns hname hlabels (get_labelCluster (.inl hallowed))
  | updated s l new hl hns hname hlabels huid r =>
    exact .write hw hne hns hname hlabels (get_labelCluster (.inr hallowed))
  | deleted => exact .put hw nofun nofun
  | _ => exact .refl hw

theorem SweepFits.serves_moves {k : SweepKnows} (hw : w.Ok) {call : Call}
    (hallowed : k.Allows c call) {r : Answer call} (hs : w.Serves c cluster role call r v) :
    Moves cluster w v := by
  cases hs with
  | created => exact hallowed.elim
  | updated => exact hallowed.elim
  | deleted => exact .put hw nofun nofun
  | _ => exact .refl hw

theorem begun_learn (h : k.first = none → k.copy = none ∧ ∀ s, k.secret ≠ some (some s)) {call : Call}
    (hallowed : k.Allows c call) (r : Answer call) (hfirst : (k.learn c call r).first = none) :
    (k.learn c call r).copy = none ∧ ∀ s, (k.learn c call r).secret ≠ some (some s) := by
  have hbefore : k.first = none := by
    cases hk : k.first with
    | none => rfl
    | some ha => exact absurd (hfirst.symm.trans (k.learn_first hallowed r hk)) nofun
  obtain ⟨hcopy, hsecret⟩ := h hbefore
  cases call with
  | harbor request =>
    obtain ⟨-, -, hcopy', -, hsecret', -⟩ := k.learn_harbor (c := c) request r
    exact ⟨hcopy'.trans hcopy, fun s hs => hsecret s (hsecret'.symm.trans hs)⟩
  | getAccess key =>
    match r with
    | Except.ok ha => cases hfirst
    | Except.error e => exact ⟨hcopy, hsecret⟩
  | patchFinalizers ha finalizers =>
    cases hallowed with
    | adds name hhas => exact absurd (hcopy.symm.trans hhas) nofun
    | releases hhas => exact absurd (hcopy.symm.trans hhas) nofun
  | updateStatus ha =>
    obtain ⟨old, status, hhas, -⟩ := hallowed
    exact absurd (hcopy.symm.trans hhas) nofun
  | readSecret ns name =>
    obtain ⟨ha, hhas, -⟩ := hallowed
    exact absurd (hcopy.symm.trans hhas) nofun
  | deleteSecret s => exact absurd hallowed.1 (hsecret s)
  | _ => exact ⟨hcopy, hsecret⟩

/-- The pass learns nothing of the Secret and sees no suspended robot. -/
theorem Fits.of_eq (hk : Fits c cluster u k w) {k' : PassKnows} (hown : k'.OwnCopy)
    (hwalked : k'.Walked) (hkey : k'.key = k.key) (hfirst : k'.first = k.first)
    (hbegun : k'.first = none → k'.copy = none ∧ ∀ s, k'.secret ≠ some (some s))
    (hsecret : k'.secret = k.secret) (hwrote : k'.wrote = k.wrote)
    (hshown : k'.Dismissed c ∨ ∀ robot ∈ k'.shown, PassKnows.Suspended robot → robot ∈ k.shown) :
    Fits c cluster u k' w := by
  refine ⟨hown, hwalked, fun ha hha => ?_, hbegun, fun s hs => hk.target s (hsecret.symm.trans hs),
    fun s hs => hk.read s (hsecret.symm.trans hs), ?_⟩
  · rw [hkey]
    exact hk.first ha (hfirst.symm.trans hha)
  rw [hwrote]
  refine hk.resumes.imp_right fun hall robot hr hresumable s hs => ?_
  obtain ⟨ha, hha, hdeleting, hselected, hadmission, hadopt, hsuspended⟩ := hresumable
  rcases hshown with hdismissed | hshown
  · have haccepted : k'.Accepted c robot.name := ⟨ha, hha, hdeleting, hselected, hadmission⟩
    exact absurd hdismissed haccepted.not_dismissed
  · refine hall robot (hshown robot hr hsuspended) ⟨ha, ?_, hdeleting, hselected, hadmission, hadopt,
      hsuspended⟩ s (hsecret.symm.trans hs)
    rw [← hfirst, hha]

/-- A request that changes robots shows no suspended one to a pass that has accepted its
HarborAccess. -/
theorem shown_learnHarbor {call : HarborCall} (hlist : ¬ Tracked (.harbor call))
    (hallowed : k.Allows c (.harbor call)) (r : HarborAnswer call) :
    k.Dismissed c ∨ ∀ robot ∈ (k.learnHarbor c call r).shown, PassKnows.Suspended robot →
      robot ∈ k.shown := by
  cases call with
  | listRobot => exact absurd trivial hlist
  | createRobot | refreshSec =>
    match r with
    | Except.ok none => exact .inr fun _ h _ => h
    | Except.ok (some _) => exact .inr fun _ h _ => h
    | Except.error e => exact .inr fun _ h _ => h
  | deleteRobot id =>
    match r with
    | Except.ok () => exact .inr fun _ h _ => h
    | Except.error e =>
      right
      unfold PassKnows.learnHarbor
      dsimp only
      split_ifs <;> exact fun _ h _ => h
  | updateRobot id body =>
    match r with
    | Except.error e => exact .inr fun _ h _ => List.mem_of_mem_filter h
    | Except.ok () =>
      by_cases hbody : body.disable = true ∧ robotSuspended body.description = true
      · exact .inl (Suspension.dismissed_of_suspended hallowed hbody.1 hbody.2)
      · refine .inr fun robot hr hsuspended => ?_
        obtain ⟨old, hold, rfl⟩ := List.mem_map.mp hr
        split_ifs at hsuspended ⊢ with hid
        · exact absurd hsuspended hbody
        · exact hold

theorem Fits.read_access (hk : Fits c cluster u k w) {key : ObjectKey}
    (hallowed : k.Allows c (.getAccess key)) {ha : HarborAccess} (hkey : ha.key = key) :
    Fits c cluster u { k with first := some ha, copy := some ha } { w with pass := some ha } := by
  obtain ⟨rfl, hfirst⟩ := hallowed
  obtain ⟨-, hsecret⟩ := hk.begun hfirst
  refine ⟨fun ha' h => ?_, hk.walked, fun ha' h => ?_, nofun, fun s hs => absurd hs (hsecret s),
    fun s hs => absurd hs (hsecret s), .inr fun _ _ _ s hs => absurd hs (hsecret s)⟩
  · rw [← Option.some.inj h]
    exact hkey
  · rw [← Option.some.inj h]
    exact ⟨rfl, hkey⟩

theorem Fits.learn_other (hk : Fits c cluster u k w) {call : Call} (hallowed : k.Allows c call)
    (hcall : ¬ Tracked call) {r : Answer call} (hr : RightObject call r) :
    Fits c cluster u (k.learn c call r) (w.told .worker call r) := by
  have huntracked : ¬ Vault.Tracked call := by
    intro h
    cases call with
    | readSecret | createSecret | updateSecret | deleteSecret => exact hcall h
    | _ => exact h
  obtain ⟨hsecret, hwrote⟩ := Vault.learn_untracked (c := c) (k := k) huntracked r
  have hof (hfirst : (k.learn c call r).first = k.first)
      (hshown : (k.learn c call r).Dismissed c ∨ ∀ robot ∈ (k.learn c call r).shown,
        PassKnows.Suspended robot → robot ∈ k.shown) : Fits c cluster u (k.learn c call r) w :=
    hk.of_eq (hk.own.learn hallowed hr) (hk.walked.learn call r) (PassKnows.learn_key call r) hfirst
      (begun_learn hk.begun hallowed r) hsecret hwrote hshown
  cases call with
  | harbor request =>
    refine hof (k.learn_harbor (c := c) request r).2.1 ?_
    exact (shown_learnHarbor hcall hallowed r).imp_left fun hd => hd.learn (.harbor request) hallowed r
  | getAccess key =>
    match r with
    | Except.ok ha => exact hk.read_access hallowed (hr ha rfl)
    | Except.error e => exact hk
  | patchFinalizers | updateStatus =>
    match r with
    | Except.ok ha => exact hof rfl (.inr fun _ h _ => h)
    | Except.error e => exact hof rfl (.inr fun _ h _ => h)
  | readSecret | createSecret | updateSecret | deleteSecret => exact absurd trivial huntracked
  | now => exact hof rfl (.inr fun _ h _ => h)
  | logRotation => exact hk
  | readAccess | listAccess | listSecrets => exact hallowed.elim

theorem Fits.read_secret (hk : Fits c cluster u k w) (hw : w.Ok) {ns name : GoString}
    (hallowed : k.Allows c (.readSecret ns name)) {s : Secret} (hs : w.stored ns name = some s) :
    Fits c cluster u { k with secret := some (some s) }
      { w with targets := Function.update w.targets .worker [s] } := by
  obtain ⟨ha, hcopy, rfl, rfl, hreads⟩ := hallowed
  obtain ⟨hns, hname⟩ := hw.place _ _ s hs
  have huid := hw.uid _ _ s hs
  refine ⟨hk.own, hk.walked, hk.first, fun hfirst => ?_, fun x hx => ?_, fun x hx => ?_, ?_⟩
  · exact absurd ((hk.begun hfirst).1.symm.trans hcopy) nofun
  · obtain rfl := Option.some.inj (Option.some.inj hx)
    change s ∈ Function.update w.targets .worker [s] .worker
    rw [Function.update_self]
    exact List.mem_singleton_self s
  · obtain rfl := Option.some.inj (Option.some.inj hx)
    refine ⟨huid, fun hstamped => ⟨huid, fun l hl _ => ?_⟩⟩
    change w.stored s.ns s.name = some l at hl
    rw [hns, hname, hs] at hl
    exact Option.some.inj hl ▸ hstamped
  · rcases hreads with hshown | hwrote | hdismissed
    · refine .inr fun robot hr => ?_
      change robot ∈ k.shown at hr
      rw [hshown] at hr
      cases hr
    · exact .inl hwrote
    · -- a pass that reads the Secret to delete it has not accepted its HarborAccess
      refine .inr fun robot _ hresumable => ?_
      obtain ⟨first, hfirst, hdeleting, hselected, hadmission, -⟩ := hresumable
      have haccepted : k.Accepted c robot.name := ⟨first, hfirst, hdeleting, hselected, hadmission⟩
      exact absurd hdismissed haccepted.not_dismissed

theorem Fits.no_secret (hk : Fits c cluster u k w) {secret : Option (Option Secret)}
    (hsecret : secret = some none ∨ secret = none) (targets : Role → List Secret) :
    Fits c cluster u { k with secret := secret } { w with targets := targets } := by
  have hnone : ∀ s, secret ≠ some (some s) := by
    rintro s rfl
    rcases hsecret with h | h <;> cases h
  exact ⟨hk.own, hk.walked, hk.first, fun hfirst => ⟨(hk.begun hfirst).1, hnone⟩,
    fun s hs => absurd hs (hnone s), fun s hs => absurd hs (hnone s),
    .inr fun _ _ _ s hs => absurd hs (hnone s)⟩

theorem Fits.wrote (hk : Fits c cluster u k w) : Fits c cluster u { k with wrote := true } w :=
  ⟨hk.own, hk.walked, hk.first, hk.begun, hk.target, hk.read, .inl rfl⟩

theorem Fits.list_robots (hk : Fits c cluster u k w) {filter : Option GoString} {idFrom : Int}
    {payload : List (Option HarborRobot)} (h : w.ShowsNoSuspended c cluster payload) :
    Fits c cluster u (k.learn c (.harbor (.listRobot filter idFrom)) (Except.ok payload)) w := by
  refine ⟨hk.own, hk.walked.learn (.harbor (.listRobot filter idFrom)) _, hk.first, hk.begun,
    hk.target, hk.read, hk.resumes.imp_right fun hall robot hr hresumable s hs => ?_⟩
  have hcases : robot ∈ k.shown ∨
      ∃ x ∈ payload.filterMap id, fromHarborRobot c.harborRobotPrefix x = some robot := by
    rcases List.mem_append.mp hr with hpage | hold
    · exact (Walk.mem_readPage hpage).imp_left fun hmem => hk.walked hmem
    · exact .inl hold
  rcases hcases with hold | ⟨x, hx, hfrom⟩
  · exact hall robot hold hresumable s hs
  · -- such a robot on the page would be one that the pass resumes over a Secret of the cluster
    obtain ⟨ha, hfirst, hdeleting, hselected, hadmission, hadopt, hsuspended⟩ := hresumable
    refine ⟨(hk.read s hs).1, fun l hl huid hstamped => ?_⟩
    have hstake : w.AtStake c cluster ha robot.name := ⟨(hk.first ha hfirst).1, hdeleting, hselected,
      hadmission, s, hk.target s hs, l, hl, huid, hstamped⟩
    exact h ha robot.name hstake x hx robot hfrom rfl hadopt hsuspended

theorem Fits.serves (hk : Fits c cluster u k w) (hw : w.Ok) (hne : c.clusterName ≠ cluster)
    {call : Call} (hallowed : k.Allows c call) {r : Answer call}
    (hs : w.Serves c cluster .worker call r v) :
    Fits c cluster u (k.learn c call r) (v.told .worker call r) := by
  have hk' := hk.moves (serves_moves hw hne hallowed hs)
  cases hs with
  | read ns name =>
    cases hstored : w.stored ns name with
    | none => exact hk.no_secret (.inl rfl) _
    | some s => exact hk.read_secret hw hallowed hstored
  | readFailed ns name e =>
    cases e with
    | notFound => exact hk.no_secret (.inl rfl) _
    | _ => exact hk
  | created => exact hk'.wrote
  | createFailed => exact hk.wrote
  | updated => exact hk'.wrote
  | updateFailed => exact hk.wrote
  | deleted s l hl huid r =>
    match r with
    | Except.ok () => exact hk'.no_secret (.inl rfl) _
    | Except.error e =>
      cases e with
      | notFound => exact hk'.no_secret (.inl rfl) _
      | _ => exact hk'.no_secret (.inr rfl) _
  | deleteFailed s e =>
    cases e with
    | notFound => exact hk.no_secret (.inl rfl) _
    | _ => exact hk.no_secret (.inr rfl) _
  | listed => exact hallowed.elim
  | listFailed => exact hallowed.elim
  | robots filter idFrom payload h => exact hk.list_robots (h rfl)
  | robotsFailed => exact hk
  | other call r hcall hr => exact hk.learn_other hallowed hcall hr

theorem get_of_hasLabels {s : Secret} (h : Site.hasLabels (Janitor.matchingLabels c) s = true) :
    s.labels.get RobotSecret.labelCluster = c.clusterName := by
  rw [← of_decide_eq_true h]
  exact RobotSecret.get_union_of_lookup _ _ _ _ (Finmap.lookup_insert _)

theorem SweepFits.serves {k : SweepKnows} (hk : SweepFits cluster u k w) (hw : w.Ok)
    (hne : c.clusterName ≠ cluster) {call : Call} (hallowed : k.Allows c call) {r : Answer call}
    (hs : w.Serves c cluster .janitor call r v) :
    SweepFits cluster u (k.learn c call r) (v.told .janitor call r) := by
  have hk' := hk.moves (serves_moves hw hallowed hs)
  cases hs with
  | listed ns labels secrets h =>
    obtain ⟨-, rfl⟩ := hallowed
    refine ⟨fun s hs => ?_, fun s hs => ?_⟩
    · change s ∈ Function.update w.targets .janitor secrets .janitor
      rw [Function.update_self]
      exact hs
    · obtain ⟨hstored, hlabels⟩ := h s hs
      refine ⟨hw.uid _ _ s hstored, fun l hl _ hstamped => ?_⟩
      obtain rfl := Option.some.inj (hstored.symm.trans hl)
      exact hne (get_of_hasLabels hlabels ▸ hstamped.2)
  | created => exact hallowed.elim
  | createFailed => exact hallowed.elim
  | updated => exact hallowed.elim
  | updateFailed => exact hallowed.elim
  | read => exact hallowed.elim
  | readFailed => exact hallowed.elim
  | listFailed => exact hk
  | deleted => exact hk'
  | deleteFailed => exact hk
  | robots => exact ⟨hk.target, hk.spares⟩
  | robotsFailed => exact hk
  | other call r hcall hr =>
    cases call with
    | harbor request =>
      cases request with
      | deleteRobot id => exact hk
      | listRobot => exact absurd trivial hcall
      | _ => exact hallowed.elim
    | readAccess ns name =>
      match r with
      | Except.ok ha => exact ⟨hk.target, hk.spares⟩
      | Except.error e => cases e <;> exact ⟨hk.target, hk.spares⟩
    | listAccess =>
      match r with
      | Except.ok owners => exact ⟨hk.target, hk.spares⟩
      | Except.error e => exact hk
    | patchFinalizers => exact hk
    | listSecrets => exact absurd trivial hcall
    | deleteSecret => exact absurd trivial hcall
    | _ => exact hallowed.elim

/-- A run keeps what each program knows. -/
theorem Run.holds (hne : c.clusterName ≠ cluster) (hw : w.Ok)
    {s : System (Unit × Role) Call Answer Lockers} (hrun : Run c cluster w s) :
    (observer fun _ : Unit => c).Holds Ok
      (Knowledge.Fits (Fits c cluster) (SweepFits cluster)) s := by
  refine holds_bridge ?_ ?_ ?_ ?_ hrun (Observer.holds_idle hw)
  · exact fun i p v hp _ => runs_observed (fun _ : Unit => c) hp fits_start
      ⟨fun _ hs => absurd hs List.not_mem_nil, fun _ hs => absurd hs List.not_mem_nil⟩
  · intro v v' henv hv
    have hm := henv.moves hv
    exact ⟨hm.ok, fun _ hk => hk.moves hm, fun _ hk => hk.moves hm⟩
  · rintro k v call r v' hv hk hallowed ⟨served, hs, rfl⟩
    have hm := Fits.serves_moves hv hne hallowed hs
    exact ⟨hm.ok.told call r, hk.serves hv hne hallowed hs, fun _ hj => (hj.moves hm).told_worker call r⟩
  · rintro k v call r v' hv hk hallowed ⟨served, hs, rfl⟩
    have hm := SweepFits.serves_moves hv hallowed hs
    exact ⟨hm.ok.told call r, hk.serves hv hne hallowed hs, fun _ hj => (hj.moves hm).told_janitor call r⟩

end Lockers

/-! ## A pass that resumes a robot -/

namespace Site

/-- Nobody else acts, no call fails, and nothing takes the Secret away. -/
def keeping (l : Secret) : Setting Call Answer Site where
  sem w call r w' := w.Serves call r w' ∧ ∃ l', w'.secret l.ns l.name = some l' ∧ l'.uid = l.uid
  may _ _ := True

variable {c : Config} {w : Site} {l : Secret} {ha : HarborAccess} {name : GoString} {r : StoredRobot}
  {robot : Robot} {α : Type}

theorem wp_keeping {p : BridgeProg α} {Q : α → Site → Prop} (hp : p.Wp (quiet fun _ => True) Q w) :
    p.Wp (keeping l) Q w :=
  Prog.wp_weaken (S := keeping l) (T := quiet fun _ => True) (fun _ _ _ => trivial)
    (fun _ _ _ _ hs => hs.1) hp

/-- A deletion of the Secret would take it away. -/
theorem wp_keeping_deleteSecret {ended : ApiErr → Ended} {f : Unit → Pass α} {Q : Except Ended α → Site → Prop}
    (hl : w.secret l.ns l.name = some l) :
    (Pass.attempt (HarborBridge.deleteSecret l) ended >>= f).run.Wp (keeping l) Q w := by
  refine wp_attempt_seq (P := fun _ _ => False) ?_ (fun _ _ h => h.elim) fun _ _ h => h.elim
  refine Prog.wp_ask_bind.mpr ⟨trivial, fun res w' hs => ?_⟩
  obtain ⟨hserves, l', hl', -⟩ := hs
  have hserves : w.Serves (.deleteSecret l) res w' := hserves
  cases hserves with
  | kube =>
    have hdeleted : w.serve (.deleteSecret l) = (.ok (), w.putSecret l.ns l.name none) := by
      change w.deleteSecret l = _
      unfold Site.deleteSecret
      rw [hl]
      exact if_pos rfl
    rw [hdeleted, secret_putSecret_none] at hl'
    cases hl'

theorem wp_ensureRobot_chosen (hc : w.harbor.Chosen c name r robot) (hadopt : PassKnows.Adoptable c ha robot)
    (description : GoString) (perms : List ProjectPermission) :
    (ensureRobot c ha name description perms).run.Wp (quiet fun _ => True) (fun res w' => w' = w ∧
      (res = .ok (robot, false) ∨ ∃ e, res = .error (.transient (.lookupRobot e)))) w := by
  unfold ensureRobot
  refine wp_lift (wp_quiet_onHarbor (Harbor.wp_serving (Client.wp_getByName_faulty w.harbor
    (fun _ _ => trivial) name))) fun res w₁ hget => ?_
  obtain ⟨h₁, rfl, rfl, hfound, hmissing⟩ := hget
  split
  · next existing =>
    obtain ⟨r', hc'⟩ := hfound existing rfl
    obtain ⟨-, rfl⟩ := hc.unique hc'
    unfold ensureRobot.adopt
    rw [hadopt.1, if_neg Bool.true_eq_false_eq_False]
    split
    · next owner howner =>
      rw [if_pos (hadopt.2 owner howner)]
      exact ⟨rfl, .inl rfl⟩
    · exact ⟨rfl, .inl rfl⟩
  · exact absurd hc.named (hmissing rfl r robot hc.views)
  · next e _ => exact ⟨rfl, .inr ⟨e, rfl⟩⟩

/-- A pass over a suspended robot deletes the Secret that it has read. -/
theorem wp_converge_suspended (hc : w.harbor.Chosen c name r robot)
    (hadopt : PassKnows.Adoptable c ha robot) (hsuspended : PassKnows.Suspended robot)
    (hl : w.secret l.ns l.name = some l) :
    (converge c ha (some l) name).run.Wp (keeping l)
      (fun res _ => ∃ e, res = .error (.transient (.lookupRobot e))) w := by
  unfold converge
  refine Prog.wp_run_seq (wp_keeping (wp_ensureRobot_chosen hc hadopt _ _)) (fun out w₁ h => ?_)
    fun e w₁ h => ?_
  · obtain ⟨rfl, hout | ⟨e, he⟩⟩ := h
    · obtain rfl := Except.ok.inj hout
      refine wp_lift (wp_keeping (wp_clockNow fun _ _ => trivial)) fun now w₂ h => ?_
      subst h
      have hrenew : renew c ha (some l) name robot false now = (do
          Pass.attempt (HarborBridge.deleteSecret l) fun e => .transient (.deleteSuspendedSecret e)
          enable robot (robotDescription c.clusterName ha.key.ns ha.key.name) ha.spec.permissions now) := by
        unfold renew
        rw [if_neg Bool.false_ne_true, if_pos (Bool.and_eq_true_iff.mpr hsuspended)]
        rfl
      refine Prog.wp_run_seq (P := fun _ _ => False) ?_ (fun _ _ h => h.elim) fun _ _ h => h.elim
      rw [hrenew]
      exact wp_keeping_deleteSecret hl
    · cases he
  · obtain ⟨-, hout | ⟨e', he⟩⟩ := h
    · cases hout
    · obtain rfl := Except.error.inj he
      exact ⟨e', rfl⟩

end Site

/-- The pass has ended because the lookup of the robot failed. -/
def LookupFailed (res : Except PassErr Result) : Prop :=
  ∃ e, res = .error (.lookupRobot e) ∨ ∃ e', res = .error (.updateStatusAfter (.lookupRobot e) e')

namespace Lockers

variable {w : Lockers} {w' : Lockers} {c : Config} {cluster : GoString}

/-- The HarborAccess is accepted and its robot is suspended, while the Secret at its name, which is
no one else's in the eyes of the bridge, is stamped for the cluster. -/
structure Clash (c : Config) (cluster : GoString) (w : Site) (ha : HarborAccess) (l : Secret) : Prop where
  access : w.access ha.key.ns ha.key.name = some ha
  deleting : ha.deleting = false
  selected : c.selects ha = true
  secret : w.secret c.ns (RobotSecret.name ha.key.ns ha.key.name) = some l
  stamped : Stamped cluster l
  robot : ∃ name r robot, admission c ha = .ok name ∧ secretConflict c ha (some l) name = none ∧
    w.harbor.Chosen c name r robot ∧ PassKnows.Adoptable c ha robot ∧ PassKnows.Suspended robot

/-- Left alone, a pass in such a state takes the Secret away, if it finds the robot. -/
theorem Clash.taken {w : Site} {ha : HarborAccess} {l : Secret} (h : Clash c cluster w ha l) :
    (reconcile c ha.key).Wp (Site.keeping l) (fun res _ => LookupFailed res) w := by
  obtain ⟨name, r, robot, hadmitted, hfree, hchosen, hadopt, hsuspended⟩ := h.robot
  obtain ⟨hns, hname⟩ := Site.secret_name h.secret
  have howns : ownsRobot c.clusterName name = true :=
    ownsRobot_robotName _ _ _ _ c.clusterName_valid.ne_nil (admission_ok hadmitted).2.2.2
  have hl : w.secret l.ns l.name = some l := by
    rw [hns, hname]
    exact h.secret
  have hread : (w.serve (.getAccess ha.key)).1 = .ok ha := congrArg Kube.found h.access
  unfold reconcile
  refine Prog.wp_seq (P := fun res w' => res = .ok ha ∧ w' = w)
    (Site.wp_keeping (Site.wp_kube nofun nofun trivial ⟨hread, rfl⟩)) fun res w₁ h₁ => ?_
  obtain ⟨rfl, rfl⟩ := h₁
  dsimp only
  rw [if_neg (by rw [h.selected]; exact Bool.true_eq_false_eq_False), if_neg (by rw [h.deleting]; decide)]
  unfold reconcileNormal
  rw [hadmitted]
  dsimp only
  rw [if_neg (by rw [howns]; exact Bool.true_eq_false_eq_False)]
  refine Prog.wp_seq (Site.wp_keeping (Site.wp_readRobotSecret trivial)) fun res w₂ h₂ => ?_
  obtain ⟨rfl, rfl⟩ := h₂
  rw [h.secret]
  dsimp only
  rw [hfree, Option.isSome_none, if_neg Bool.false_ne_true]
  refine Prog.wp_seq (Site.wp_keeping (Prog.wp_and _ _ (Site.wp_ensureFinalizer (fun _ _ => trivial) h.access)
    (Site.wp_ensureFinalizer_ok (fun _ _ => trivial) h.access))) fun res w₃ h₃ => ?_
  obtain ⟨hfinal, ha₁, rfl⟩ := h₃
  obtain ⟨hobject, -, -, hsame, -⟩ := hfinal ha₁ rfl
  have hadopt₁ : PassKnows.Adoptable c ha₁ robot := by
    unfold PassKnows.Adoptable
    rw [hobject.key]
    exact hadopt
  have hl₁ : w₃.secret l.ns l.name = some l := by
    unfold Site.secret
    rw [hsame.secrets]
    exact hl
  refine Prog.wp_seq (Site.wp_converge_suspended (hsame.harbor ▸ hchosen) hadopt₁ hsuspended hl₁)
    fun res w₄ h₄ => ?_
  obtain ⟨e, rfl⟩ := h₄
  refine Prog.wp_ask_bind.mpr ⟨trivial, fun res w₅ _ => ?_⟩
  cases res with
  | error e' => exact ⟨e, .inr ⟨e', rfl⟩⟩
  | ok _ => exact ⟨e, .inl rfl⟩

/-- The Secret of the neighbour is there, Harbor is empty, and no Secret is written. -/
def answer (w : Lockers) : (call : Call) → Answer call
  | .readSecret ns name => Kube.found (w.stored ns name)
  | .createSecret _ => Except.error .other
  | .updateSecret _ => Except.error .other
  | .deleteSecret _ => Except.error .other
  | call => sampleAnswer (fun call => (emptyHarbor.serve call).1) call

def serve (w : Lockers) (call : Call) : Answer call × Lockers :=
  (w.answer call, w.told .worker call (w.answer call))

theorem serve_answers (w : Lockers) (call : Call) :
    w.Answers sampleConfig neighbour.clusterName .worker call (serve w call).1 (serve w call).2 := by
  have hright := sampleAnswer_rightObject (fun call => (emptyHarbor.serve call).1) call
  refine ⟨w, ?_, rfl⟩
  cases call with
  | readSecret ns name => exact .read ns name
  | createSecret s => exact .createFailed s _
  | updateSecret s => exact .updateFailed s _
  | deleteSecret s => exact .deleteFailed s _
  | listSecrets ns labels => exact .listed ns labels [] nofun
  | harbor request =>
    cases request with
    | listRobot filter idFrom => exact .robots filter idFrom [] fun _ _ _ _ _ hx => absurd hx List.not_mem_nil
    | _ => exact .other _ _ nofun hright
  | _ => exact .other _ _ nofun hright

end Lockers

end HarborBridge
