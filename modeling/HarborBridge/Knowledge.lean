import HarborBridge.Janitor

/-! What a pass and a sweep have learned from the answers so far, and which calls they make
on the strength of it. -/
namespace HarborBridge

open GoStrings Interaction

/-- A listing, as far as its pages have been read. -/
structure Walk where
  filter : Option GoString
  cursor : Int
  robots : List Robot
  complete : Bool

def Walk.none (filter : Option GoString) : Walk := ⟨filter, 0, [], false⟩

def Walk.before (k : Walk) (filter : Option GoString) (idFrom : Int) : Walk :=
  if k.complete = false ∧ k.filter = filter ∧ idFrom = int64 (k.cursor + 1) then k
  else Walk.none filter

/-- A page of robots has been read: it continues the listing, or starts another one. -/
def Walk.readPage (robotPrefix : GoString) (k : Walk) (filter : Option GoString) (idFrom : Int)
    (payload : List (Option HarborRobot)) : Walk :=
  let start := k.before filter idFrom
  if idFrom ≠ int64 (start.cursor + 1) then Walk.none filter
  else
    match Client.takePage robotPrefix payload start.cursor start.robots with
    | .error _ => Walk.none filter
    | .ok (cursor, robots) => ⟨filter, cursor, robots, payload.length < pageSize⟩

/-- What a pass over the HarborAccess `key` knows. -/
structure PassKnows where
  key : ObjectKey
  /-- The copy of the HarborAccess that the pass read. -/
  first : Option HarborAccess
  /-- The copy that the pass works on. -/
  copy : Option HarborAccess
  /-- The pass has patched the finalizers. -/
  patched : Bool
  /-- The robot Secret as the pass last read it or left it; the inner none says that it
  does not exist. -/
  secret : Option (Option Secret)
  /-- The pass has tried to write the robot Secret. -/
  wrote : Bool
  clock : Option Int
  walk : Walk
  /-- The robots that listings showed, with the changes that the pass made. -/
  shown : List Robot
  deleted : List Int
  created : Option Int
  /-- The id of a robot and the password that Harbor gave it in this pass. -/
  password : Option (Int × GoString)

namespace PassKnows

variable (c : Config) (k : PassKnows)

def start (key : ObjectKey) : PassKnows where
  key := key
  first := none
  copy := none
  patched := false
  secret := none
  wrote := false
  clock := none
  walk := Walk.none none
  shown := []
  deleted := []
  created := none
  password := none

def learnHarbor : (call : HarborCall) → HarborAnswer call → PassKnows
  | .listRobot filter idFrom, (r : Except HarborErr (List (Option HarborRobot))) =>
    match r with
    | .error _ => k
    | .ok payload =>
      let walk := k.walk.readPage c.harborRobotPrefix filter idFrom payload
      { k with walk := walk, shown := walk.robots ++ k.shown }
  | .createRobot _, (r : Except HarborErr (Option RobotCreated)) =>
    match r with
    | .ok (some payload) =>
      { k with
        walk := Walk.none none
        created := some payload.id
        password := some (payload.id, payload.secret) }
    | _ => { k with walk := Walk.none none }
  | .updateRobot id body, (r : Except HarborErr Unit) =>
    match r with
    | .ok () =>
      { k with
        walk := Walk.none none
        shown := k.shown.map fun robot =>
          if robot.id = id then
            { robot with description := body.description, disabled := body.disable }
          else robot }
    | .error _ =>
      { k with walk := Walk.none none, shown := k.shown.filter fun robot => robot.id ≠ id }
  | .refreshSec id, (r : Except HarborErr (Option GoString)) =>
    match r with
    | .ok (some password) => { k with password := some (id, password) }
    | _ => { k with password := none }
  | .deleteRobot id, (r : Except HarborErr Unit) =>
    match r with
    | .ok () => { k with deleted := id :: k.deleted }
    | .error e => if e.isNotFound then { k with deleted := id :: k.deleted } else k

def learn : (call : Call) → Answer call → PassKnows
  | .harbor call, r => k.learnHarbor c call r
  | .getAccess _, (r : Except ApiErr HarborAccess) =>
    match r with
    | .ok ha => { k with first := some ha, copy := some ha }
    | .error _ => k
  | .patchFinalizers _ _, (r : Except ApiErr HarborAccess) =>
    match r with
    | .ok ha => { k with copy := some ha, patched := true }
    | .error _ => { k with copy := none }
  | .updateStatus _, (r : Except ApiErr HarborAccess) =>
    match r with
    | .ok ha => { k with copy := some ha }
    | .error _ => { k with copy := none }
  | .readSecret _ _, (r : Except ApiErr Secret) =>
    match r with
    | .ok s => { k with secret := some (some s) }
    | .error .notFound => { k with secret := some none }
    | .error _ => k
  | .deleteSecret _, (r : Except ApiErr Unit) =>
    match r with
    | .ok () => { k with secret := some none }
    | .error .notFound => { k with secret := some none }
    | .error _ => { k with secret := none }
  | .createSecret _, _ => { k with wrote := true }
  | .updateSecret _, _ => { k with wrote := true }
  | .now, (t : Int) => { k with clock := some t }
  | .readAccess _ _, _ => k
  | .listAccess, _ => k
  | .listSecrets _ _, _ => k
  | .logRotation _ _, _ => k

/-! ## What a pass does -/

/-- The HarborAccess was accepted, with this name for its robot. -/
def Accepted (name : GoString) : Prop :=
  ∃ ha, k.first = some ha ∧ ha.deleting = false ∧ c.selects ha = true ∧ admission c ha = .ok name

def Dismissed : Prop :=
  ∃ ha, k.first = some ha ∧ (ha.deleting = true ∨ ∃ refusal, admission c ha = .error refusal)

variable {c k} in
theorem Accepted.not_dismissed {name : GoString} (haccepted : k.Accepted c name) :
    ¬ k.Dismissed c := by
  obtain ⟨ha, hfirst, hdeleting, -, hadmission⟩ := haccepted
  rintro ⟨ha', hfirst', hdismissed⟩
  obtain rfl := Option.some.inj (hfirst.symm.trans hfirst')
  rcases hdismissed with hdel | ⟨refusal, hrefused⟩
  · cases hdeleting.symm.trans hdel
  · cases hadmission.symm.trans hrefused

/-- The robot may be taken over for the HarborAccess. -/
def Adoptable (ha : HarborAccess) (robot : Robot) : Prop :=
  robotBelongsToCluster robot.description c.clusterName = true ∧
    ∀ owner, parseRobotDescription robot.description = some owner →
      owner = (ha.key.ns, ha.key.name)

theorem adoptable_of_robotOwnedBy {c : Config} {ha : HarborAccess} {robot : Robot}
    (h : robotOwnedBy c.clusterName robot ha.key.ns ha.key.name = true) :
    Adoptable c ha robot := by
  obtain ⟨-, hcluster, hparse⟩ := (robotOwnedBy_iff ..).mp h
  refine ⟨hcluster, fun owner h => ?_⟩
  rw [hparse] at h
  exact (Option.some.inj h).symm

def Suspended (robot : Robot) : Prop :=
  robot.disabled = true ∧ robotSuspended robot.description = true

/-- The robot of the accepted HarborAccess, as a lookup found it. -/
def Found (ha : HarborAccess) (robot : Robot) : Prop :=
  k.copy = some ha ∧ k.Accepted c robot.name ∧ robot ∈ k.shown ∧ Adoptable c ha robot

/-- An update of a robot disables one of a HarborAccess that was refused, or it changes one
that a lookup found: as it is, or, when the bridge has disabled it, with another password. -/
inductive Updates (id : Int) (body : RobotUpdate) : Prop where
  | suspends (ha : HarborAccess) (robot : Robot) (hcopy : k.copy = some ha)
      (hdismissed : k.Dismissed c) (hid : robot.id = id) (hshown : robot ∈ k.shown)
      (howned : robotOwnedBy c.clusterName robot ha.key.ns ha.key.name = true)
      (hdisable : body.disable = true)
      (hdesc : body.description = suspendedRobotDescription c.clusterName ha.key.ns ha.key.name)
  | aligns (ha : HarborAccess) (robot : Robot) (hfound : k.Found c ha robot) (hid : robot.id = id)
      (hactive : ¬ Suspended robot) (hdisable : body.disable = robot.disabled)
      (hdesc : body.description = robotDescription c.clusterName ha.key.ns ha.key.name)
  | resumes (ha : HarborAccess) (robot : Robot) (hfound : k.Found c ha robot) (hid : robot.id = id)
      (hsuspended : Suspended robot) (password : GoString)
      (hpassword : k.password = some (id, password)) (hdisable : body.disable = false)
      (hdesc : body.description = robotDescription c.clusterName ha.key.ns ha.key.name)

/-- A password is rotated because the robot is suspended and its Secret is gone, or for a
reason. -/
inductive Refreshes (id : Int) : Prop where
  | resumes (ha : HarborAccess) (robot : Robot) (hfound : k.Found c ha robot) (hid : robot.id = id)
      (hsuspended : Suspended robot) (hsecret : k.secret = some none) (hwrote : k.wrote = false)
  | rotates (ha : HarborAccess) (robot : Robot) (hfound : k.Found c ha robot) (hid : robot.id = id)
      (hactive : ¬ Suspended robot) (secret : Option Secret) (hsecret : k.secret = some secret)
      (hwrote : k.wrote = false) (now : Int) (hnow : k.clock = some now) (why : RotationReason)
      (hwhy : rotationReason ha secret robot now = some why)

/-- A robot is deleted that this pass created or that is the HarborAccess's. -/
inductive DeletesRobot (id : Int) : Prop where
  | created (h : k.created = some id)
  | owned (ha : HarborAccess) (robot : Robot) (hcopy : k.copy = some ha) (hid : robot.id = id)
      (hshown : robot ∈ k.shown)
      (howned : robotOwnedBy c.clusterName robot ha.key.ns ha.key.name = true)

/-- A robot is created for an accepted HarborAccess that carries the finalizer. -/
def Creates (body : RobotCreate) : Prop :=
  ∃ ha, k.copy = some ha ∧ k.Accepted c body.name ∧
    (c.finalizer ∈ ha.finalizers ∨ k.patched = true) ∧
    body.description = robotDescription c.clusterName ha.key.ns ha.key.name

def AllowsHarbor : HarborCall → Prop
  | .listRobot _ _ => True
  | .createRobot body => k.Creates c body
  | .updateRobot id body => k.Updates c id body
  | .refreshSec id => k.Refreshes c id
  | .deleteRobot id => k.DeletesRobot c id

/-- The robots of the HarborAccess that the last listing showed are deleted. -/
def Revoked (ha : HarborAccess) : Prop :=
  k.walk.filter = none ∧ k.walk.complete = true ∧ ∀ robot ∈ k.walk.robots,
    robotOwnedBy c.clusterName robot ha.key.ns ha.key.name = true → robot.id ∈ k.deleted

/-- The finalizer is added before the robot is there, or finalizers of the bridge are
removed once the robots are gone. -/
inductive Patches (ha : HarborAccess) (finalizers : List GoString) : Prop where
  | adds (name : GoString) (hcopy : k.copy = some ha) (haccepted : k.Accepted c name)
      (hfinalizers : finalizers = ha.finalizers ++ [c.finalizer])
  | releases (hcopy : k.copy = some ha) (hdismissed : k.Dismissed c) (hrevoked : k.Revoked c ha)
      (hfinalizers : ∃ released ⊆ c.releasedFinalizers,
        finalizers = ha.finalizers.filter fun f => !released.contains f)

/-- The robot Secret is written with a password that Harbor gave in this pass and the promise
of a whole interval, or with the password that it has and a promise that stays. -/
inductive Stores (ha : HarborAccess) (robot : Robot) (password : GoString) (notBefore : Int) :
    Prop where
  | new (hpassword : k.password = some (robot.id, password)) (hne : password ≠ []) (now : Int)
      (hnow : k.clock = some now) (hnb : notBefore = now + passwordRotationInterval)
  | same (hpassword : password = []) (secret : Secret) (hsecret : k.secret = some (some secret))
      (hwrote : k.wrote = false) (now : Int) (hnow : k.clock = some now)
      (hwhy : rotationReason ha (some secret) robot now = none)
      (hnb : notBefore = rotationNotBefore ha (some secret) now none)

/-- The robot Secret is deleted because it is the HarborAccess's and this cluster's, or because
the robot is suspended. -/
inductive DeletesSecret (s : Secret) : Prop where
  | own (ha : HarborAccess) (robotName : GoString) (hcopy : k.copy = some ha)
      (hfree : secretDeleteConflict c ha s robotName = none)
  | resumes (ha : HarborAccess) (robot : Robot) (hfound : k.Found c ha robot)
      (hsuspended : Suspended robot)

/-- The robot Secret is read before any robot is, after a write of it, or to delete it. -/
def ReadsSecret : Prop := k.shown = [] ∨ k.wrote = true ∨ k.Dismissed c

def Allows : Call → Prop
  | .harbor call => k.AllowsHarbor c call
  | .getAccess key => key = k.key ∧ k.first = none
  | .patchFinalizers ha finalizers => k.Patches c ha finalizers
  | .updateStatus ha => ∃ old status, k.copy = some old ∧ ha = { old with status := status }
  | .readSecret ns name => ∃ ha, k.copy = some ha ∧ ns = c.ns ∧
      name = RobotSecret.name ha.key.ns ha.key.name ∧ k.ReadsSecret c
  | .createSecret s => ∃ ha robot password notBefore, k.copy = some ha ∧
      k.Stores ha robot password notBefore ∧ s = newRobotSecret c ha robot password notBefore
  | .updateSecret s => ∃ ha robot password notBefore existing, k.copy = some ha ∧
      k.Stores ha robot password notBefore ∧ k.secret = some (some existing) ∧
      s = updatedRobotSecret c ha existing robot password notBefore
  | .deleteSecret s => k.secret = some (some s) ∧ k.wrote = false ∧ k.DeletesSecret c s
  | .now => k.wrote = false
  | .logRotation name why => ∃ ha robot secret now, k.Found c ha robot ∧ robot.name = name ∧
      k.secret = some secret ∧ k.wrote = false ∧ k.clock = some now ∧
      rotationReason ha secret robot now = some why
  | .readAccess _ _ => False
  | .listAccess => False
  | .listSecrets _ _ => False

end PassKnows

/-! ## Sweeps -/

/-- What a sweep knows: the robots, the Secrets and the HarborAccess objects that were listed,
the last owner that was read since robots or Secrets were listed, and the listing of robots since
the owners were listed. -/
structure SweepKnows where
  shown : List Robot
  secrets : List Secret
  owners : List HarborAccess
  live : Option ((GoString × GoString) × Option HarborAccess)
  walk : Walk

namespace SweepKnows

variable (c : Config) (k : SweepKnows)

def start : SweepKnows := ⟨[], [], [], none, Walk.none none⟩

def learnHarbor : (call : HarborCall) → HarborAnswer call → SweepKnows
  | .listRobot filter idFrom, (r : Except HarborErr (List (Option HarborRobot))) =>
    match r with
    | .error _ => k
    | .ok payload =>
      { k with
        shown := (payload.filterMap id).filterMap (fromHarborRobot c.harborRobotPrefix) ++ k.shown
        live := none
        walk := k.walk.readPage c.harborRobotPrefix filter idFrom payload }
  | _, _ => k

def learn : (call : Call) → Answer call → SweepKnows
  | .harbor call, r => k.learnHarbor c call r
  | .readAccess ns name, (r : Except ApiErr HarborAccess) =>
    match r with
    | .ok ha => { k with live := some ((ns, name), some ha) }
    | .error .notFound => { k with live := some ((ns, name), none) }
    | .error _ => k
  | .listAccess, (r : Except ApiErr (List HarborAccess)) =>
    match r with
    | .ok owners => { k with owners := owners, walk := Walk.none none }
    | .error _ => k
  | .listSecrets _ _, (r : Except ApiErr (List Secret)) =>
    match r with
    | .ok secrets => { k with secrets := secrets, live := none }
    | .error _ => k
  | _, _ => k

/-- A robot is deleted whose owner was read after it was listed, and condemns it. -/
def DeletesRobot (id : Int) : Prop :=
  ∃ robot ∈ k.shown, robot.id = id ∧ ∃ owner live, Janitor.judgedOwner c robot = some owner ∧
    k.live = some (owner, live) ∧
    (Janitor.robotVerdict c robot (ownsLegacyRobot c.clusterName robot.name) live).isSome

def DeletesSecret (s : Secret) : Prop :=
  s ∈ k.secrets ∧ ∃ owner live, RobotSecret.owner s = some owner ∧
    k.live = some (owner, live) ∧ (Janitor.secretVerdict c s live).isSome

/-- Finalizers of the bridge are removed from a HarborAccess that it does not select, when a
listing has shown no robot of it. -/
structure Releases (ha : HarborAccess) (finalizers : List GoString) : Prop where
  owner : ha ∈ k.owners
  unselected : c.selects ha = false
  finalizers_eq : finalizers =
    ha.finalizers.filter fun f => !(Janitor.unselectedFinalizers c ha).contains f
  listed : k.walk.filter = none ∧ k.walk.complete = true
  free : ∀ robot ∈ k.walk.robots, robotOwnedBy c.clusterName robot ha.key.ns ha.key.name = false

def AllowsHarbor : HarborCall → Prop
  | .listRobot _ _ => True
  | .deleteRobot id => k.DeletesRobot c id
  | _ => False

def Allows : Call → Prop
  | .harbor call => k.AllowsHarbor c call
  | .readAccess _ _ => True
  | .listAccess => True
  | .listSecrets ns labels => ns = c.ns ∧ labels = Janitor.matchingLabels c
  | .deleteSecret s => k.DeletesSecret c s
  | .patchFinalizers ha finalizers => k.Releases c ha finalizers
  | _ => False

end SweepKnows

/-! ## The processes of a bridge -/

/-- A bridge runs the passes one after the other, and the janitor beside them. -/
inductive Role where
  | worker
  | janitor
  deriving DecidableEq

inductive Knowledge where
  | pass (k : PassKnows)
  | sweep (k : SweepKnows)

namespace Knowledge

variable (c : Config)

def learn : Knowledge → (call : Call) → Answer call → Knowledge
  | pass k, call, r => pass (k.learn c call r)
  | sweep k, call, r => sweep (k.learn c call r)

def Allows : Knowledge → Call → Prop
  | pass k, call => k.Allows c call
  | sweep k, call => k.Allows c call

end Knowledge

inductive Knowledge.Fits {B W : Type} (pass : B → PassKnows → W → Prop)
    (sweep : B → SweepKnows → W → Prop) : B × Role → Knowledge → W → Prop where
  | worker {b : B} {k : PassKnows} {w : W} (h : pass b k w) :
      Fits pass sweep (b, .worker) (.pass k) w
  | janitor {b : B} {k : SweepKnows} {w : W} (h : sweep b k w) :
      Fits pass sweep (b, .janitor) (.sweep k) w

/-- The programs that the processes of a bridge run, one after the other. -/
def Runs (c : Config) : Role → BridgeProg Unit → Prop
  | .worker, p => ∃ key, p = do let _ ← reconcile c key; return ()
  | .janitor, p => p = do let _ ← Janitor.sweep c; return ()

def observer {B : Type} (config : B → Config) : Observer (B × Role) Call Answer Knowledge where
  learn i k e r := k.learn (config i.1) e r
  allowed i k e := k.Allows (config i.1) e

end HarborBridge
