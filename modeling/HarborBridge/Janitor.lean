import HarborBridge.Reconciler

/-! The janitor (package controlplane, janitor.go): sweeps over all robots and robot Secrets
of the bridge. -/
namespace HarborBridge

open GoStrings Interaction

inductive SweepErr where
  | listAccess (e : ApiErr)
  | listRobots (e : ClientErr)
  deriving DecidableEq

/-- Why a robot is deleted. -/
inductive RobotVerdict where
  | ownerGone
  | ownerNotSelected
  | superseded
  | noRobotName
  | ownerUses (robotName : GoString)
  deriving DecidableEq

/-- Why a Secret is deleted. -/
inductive SecretVerdict where
  | ownerGone
  | ownerNotSelected
  | ownerUses (secretName : GoString)
  deriving DecidableEq

namespace Janitor

variable (c : Config)

/-- Indexing the map of `listOwners`: of two entries with one key the later one counts. -/
def ownerAt (owners : List HarborAccess) (ns name : GoString) : Option HarborAccess :=
  owners.reverse.find? fun ha => ha.key.ns = ns ∧ ha.key.name = name

/-- The owner as it is in the apiserver, none when there is none. -/
def liveOwner (ns name : GoString) : BridgeProg (Except ApiErr (Option HarborAccess)) := do
  match ← Kube.readAccess ns name with
  | .ok ha => return .ok (some ha)
  | .error .notFound => return .ok none
  | .error e => return .error e

def robotVerdict (robot : Robot) (legacy : Bool) (owner : Option HarborAccess) :
    Option RobotVerdict :=
  match owner with
  | none => some .ownerGone
  | some ha =>
    if c.selects ha = false then some .ownerNotSelected
    else if legacy then some .superseded
    else
      match robotName c.clusterName ha.spec.serviceAccountRef.ns ha.spec.serviceAccountRef.name with
      | .error (.invalidRobotName _) => some .noRobotName
      | .error (.clusterNameTooLong _) => none
      | .ok want => if want = robot.name then none else some (.ownerUses want)

/-- The owner of a robot that the sweep judges, none for a robot that it skips. -/
def judgedOwner (robot : Robot) : Option (GoString × GoString) :=
  if ownsRobot c.clusterName robot.name = false ∧
      ownsLegacyRobot c.clusterName robot.name = false then none
  else if robotBelongsToCluster robot.description c.clusterName = false then none
  else parseRobotDescription robot.description

def sweepRobot (owners : List HarborAccess) (robot : Robot) : BridgeProg Unit :=
  match judgedOwner c robot with
  | none => return ()
  | some (ns, name) =>
    let legacy := ownsLegacyRobot c.clusterName robot.name
    if (robotVerdict c robot legacy (ownerAt owners ns name)).isNone then return ()
    else do
      match ← liveOwner ns name with
      | .error _ => return ()
      | .ok live =>
        if (robotVerdict c robot legacy live).isNone then return ()
        else
          let _ ← onHarbor (Client.delete robot.id)
          return ()

def sweepRobots (owners : List HarborAccess) : List Robot → BridgeProg Unit
  | [] => return ()
  | robot :: robots => do
    sweepRobot c owners robot
    sweepRobots owners robots

def secretVerdict (s : Secret) (owner : Option HarborAccess) : Option SecretVerdict :=
  match owner with
  | none => some .ownerGone
  | some ha =>
    if c.selects ha = false then some .ownerNotSelected
    else if s.name ≠ RobotSecret.name ha.key.ns ha.key.name then
      some (.ownerUses (RobotSecret.name ha.key.ns ha.key.name))
    else none

def sweepSecret (owners : List HarborAccess) (s : Secret) : BridgeProg Unit :=
  match RobotSecret.owner s with
  | none => return ()
  | some (ns, name) =>
    if (secretVerdict c s (ownerAt owners ns name)).isNone then return ()
    else do
      match ← liveOwner ns name with
      | .error _ => return ()
      | .ok live =>
        if (secretVerdict c s live).isNone then return ()
        else
          let _ ← Kube.deleteSecret s
          return ()

def sweepSecrets (owners : List HarborAccess) : List Secret → BridgeProg Unit
  | [] => return ()
  | s :: secrets => do
    sweepSecret c owners s
    sweepSecrets owners secrets

def servedHere (ha : HarborAccess) : Bool := ha.status.robot.isSome && c.statusRobotIsOurs ha

/-- The finalizers that an unselected HarborAccess is released from. -/
def unselectedFinalizers (ha : HarborAccess) : List GoString :=
  (heldFinalizers c ha).filter fun f => f ≠ finalizerName ∨ servedHere c ha = true

/-- A robot of the HarborAccess, also one whose name the bridge cannot recognise, keeps the
finalizer. -/
def keepsFinalizer (robots : List Robot) (ha : HarborAccess) : Bool :=
  robots.any fun r => robotOwnedBy c.clusterName r ha.key.ns ha.key.name ||
    (misnamedRobot c.clusterName r == some (ha.key.ns, ha.key.name))

def releaseAll (robots : List Robot) : List HarborAccess → BridgeProg Unit
  | [] => return ()
  | ha :: candidates => do
    if keepsFinalizer c robots ha then releaseAll robots candidates
    else
      let _ ← Kube.patchFinalizers ha
        (ha.finalizers.filter fun f => !(unselectedFinalizers c ha).contains f)
      releaseAll robots candidates

/-- The owners are visited in the order of the list, which stands for the order in which the
map of the source is walked. -/
def releaseUnselected (owners : List HarborAccess) : BridgeProg Unit :=
  let candidates := owners.filter fun ha =>
    c.selects ha = false ∧ unselectedFinalizers c ha ≠ []
  if c.finalizer = finalizerName ∨ candidates = [] then return ()
  else do
    match ← onHarbor (Client.list c.harborRobotPrefix none) with
    | .error _ => return ()
    | .ok robots => releaseAll c robots candidates

/-- The labels by which the janitor lists robot Secrets. -/
def matchingLabels : StringMap :=
  (Finmap.singleton RobotSecret.labelManagedBy RobotSecret.labelManagedByValue).insert
    RobotSecret.labelCluster c.clusterName

/-- What could not be listed is not swept. -/
def sweepListed {ε α : Type} (sweep : List α → BridgeProg Unit) :
    Except ε (List α) → BridgeProg Unit
  | .ok listed => sweep listed
  | .error _ => return ()

/-- The source's `Sweep`. -/
def sweep : BridgeProg (Except SweepErr Unit) := do
  let robots ← onHarbor (Client.list c.harborRobotPrefix none)
  let secrets ← Kube.listSecrets c.ns (matchingLabels c)
  match ← Kube.listAccess with
  | .error e => return .error (.listAccess e)
  | .ok owners =>
    sweepListed (sweepRobots c owners) robots
    sweepListed (sweepSecrets c owners) secrets
    match robots with
    | .error e => return .error (.listRobots e)
    | .ok _ =>
      releaseUnselected c owners
      return .ok ()

end Janitor

end HarborBridge
