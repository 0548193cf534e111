import HarborBridge.Calls

/-! The reconciler (package controlplane, reconciler.go): one pass over a HarborAccess. -/
namespace HarborBridge

open GoStrings Interaction

/-- Why a Secret at the robot Secret's name is left alone. -/
inductive SecretConflict where
  | otherHarborAccess
  | notManaged
  | otherCluster (cluster : GoString)
  deriving DecidableEq

/-- The errors of a pass: what failed, and how. -/
inductive PassErr where
  | getAccess (e : ApiErr)
  | addFinalizer (e : ApiErr)
  | notInPrefix (robotName cluster : GoString)
  | readSecret (e : ApiErr)
  | lookupRobot (e : ClientErr)
  | createRobot (e : ClientErr)
  | recoverRobot (e : ClientErr)
  | deleteSuspendedSecret (e : ApiErr)
  | rotateSuspended (e : ClientErr)
  | resumeRobot (e : ClientErr)
  | updateRobot (e : ClientErr)
  | refreshSecret (e : ClientErr)
  | rereadSecret (e : ApiErr)
  | storeConflict (conflict : SecretConflict)
  | secretMissing
  | createSecret (e : ApiErr)
  | updateSecret (e : ApiErr)
  | deleteSecret (e : ApiErr)
  | listRobots (e : ClientErr)
  | misnamed (wireName : GoString) (id : Int)
  | deleteRobot (wireName : GoString) (e : HarborErr)
  | disableRobot (wireName : GoString) (e : ClientErr)
  | releaseFinalizer (e : ApiErr)
  | removeFinalizer (e : ApiErr)
  | updateStatus (e : ApiErr)
  | updateStatusAfter (cause : PassErr) (e : ApiErr)
  | join (e e' : PassErr)
  deriving DecidableEq

structure Result where
  requeueAfter : Int
  deriving DecidableEq

/-- Why a HarborAccess is refused. -/
inductive Refusal where
  | missingSpec
  | issuer (got want : GoString)
  | audience (got want : GoString)
  | nameTooLong (length : Nat)
  | project (name : GoString)
  | tokenTTL (raw : GoString)
  | robotName (e : RobotNameErr)
  deriving DecidableEq

def Refusal.reason : Refusal → Reason
  | issuer _ _ => .issuerMismatch
  | audience _ _ => .audienceMismatch
  | _ => .invalidSpec

/-- How a pass ends before the robot is ready. -/
inductive Ended where
  | notReady (reason : Reason)
  | transient (cause : PassErr)
  deriving DecidableEq

abbrev Pass := ExceptT Ended BridgeProg

/-- A step of a pass that cannot end it. -/
def Pass.lift {α : Type} (p : BridgeProg α) : Pass α := ExceptT.lift p

/-- A step whose error ends the pass. -/
def Pass.attempt {ε α : Type} (p : BridgeProg (Except ε α)) (ended : ε → Ended) : Pass α :=
  ExceptT.mk do
    match ← p with
    | .ok a => return .ok a
    | .error e => return .error (ended e)

section

variable (c : Config)

/-- The checks with which `reconcileNormal` starts: the name of the robot, or why the
HarborAccess is refused. -/
def admission (ha : HarborAccess) : Except Refusal GoString :=
  if ha.spec.serviceAccountRef = ⟨[], []⟩ ∧ ha.spec.trustPolicy = ⟨[], []⟩ ∧
      ha.spec.permissions = [] then .error .missingSpec
  else if ha.spec.trustPolicy.issuer ≠ c.oidcIssuer then
    .error (.issuer ha.spec.trustPolicy.issuer c.oidcIssuer)
  else if ha.spec.trustPolicy.audience ≠ c.audience then
    .error (.audience ha.spec.trustPolicy.audience c.audience)
  else if harborAccessNameMaxLen < ha.key.name.length then
    .error (.nameTooLong ha.key.name.length)
  else
    match ha.spec.permissions.find? fun p => !validProjectName p.project with
    | some p => .error (.project p.project)
    | none =>
      if ha.spec.tokenTTL.hasErr then .error (.tokenTTL ha.spec.tokenTTL.invalid)
      else
        match robotName c.clusterName ha.spec.serviceAccountRef.ns
          ha.spec.serviceAccountRef.name with
        | .error e => .error (.robotName e)
        | .ok name => .ok name

variable {c} in
theorem admission_ok {ha : HarborAccess} {name : GoString}
    (h : admission c ha = .ok name) :
    ha.spec.trustPolicy.issuer = c.oidcIssuer ∧ ha.spec.trustPolicy.audience = c.audience ∧
      ha.spec.tokenTTL.hasErr = false ∧
      robotName c.clusterName ha.spec.serviceAccountRef.ns ha.spec.serviceAccountRef.name =
        .ok name := by
  unfold admission at h
  split_ifs at h with hspec hissuer haudience hlength httl
  · split at h <;> cases h
  · split at h
    · cases h
    · split at h
      · cases h
      · next name' hname =>
        obtain rfl := Except.ok.inj h
        exact ⟨not_not.mp hissuer, not_not.mp haudience, by simpa using httl, hname⟩

/-! ## The status -/

def withCondition (ha : HarborAccess) (type : ConditionType) (status : Bool) (reason : Reason) :
    HarborAccess :=
  { ha with status := { ha.status with
      conditions := setStatusCondition ha.status.conditions ⟨type, status, reason, ha.generation⟩ } }

def setNotReady (ha : HarborAccess) (reason : Reason) : BridgeProg (Except ApiErr HarborAccess) :=
  Kube.updateStatus (withCondition ha .ready false reason)

def markNotReadyWithRequeue (ha : HarborAccess) (reason : Reason) :
    BridgeProg (Except PassErr Result) := do
  match ← setNotReady ha reason with
  | .error e => return .error (.updateStatus e)
  | .ok ha => return .ok ⟨resyncAfter ha⟩

def markTransientError (ha : HarborAccess) (cause : PassErr) :
    BridgeProg (Except PassErr Result) := do
  match ← setNotReady ha .harborError with
  | .error e => return .error (.updateStatusAfter cause e)
  | .ok _ => return .error cause

/-- The status that `markReady` records. An instant is written in whole seconds. -/
def readyStatus (ha : HarborAccess) (robot : Robot) (rotatedAt : Option Int) : HarborAccess :=
  let recorded := match ha.status.robot with
    | none => none
    | some ref => ref.lastRotated
  let lastRotated := match rotatedAt with
    | none => recorded
    | some t => some (t - t % Rfc3339.second)
  let ha := { ha with status := { ha.status with
    robot := some ⟨robot.wireName, robot.id, RobotSecret.name ha.key.ns ha.key.name, lastRotated⟩
    enforcedByBridge := true
    observedGeneration := ha.generation } }
  let ha := withCondition ha .robotProvisioned true .reconcileSucceeded
  let ha := withCondition ha .trustPolicyApplied true .enforcedByBridge
  withCondition ha .ready true .reconcileSucceeded

def markReady (ha : HarborAccess) (robot : Robot) (rotatedAt : Option Int) (requeueAfter : Int) :
    BridgeProg (Except PassErr Result) := do
  match ← Kube.updateStatus (readyStatus ha robot rotatedAt) with
  | .error e => return .error (.updateStatus e)
  | .ok _ => return .ok ⟨requeueAfter⟩

/-! ## The robot Secret -/

/-- The robot Secret as it is in the apiserver, none when there is none. -/
def getRobotSecret (ha : HarborAccess) : BridgeProg (Except ApiErr (Option Secret)) := do
  match ← Kube.readSecret c.ns (RobotSecret.name ha.key.ns ha.key.name) with
  | .ok s => return .ok (some s)
  | .error .notFound => return .ok none
  | .error e => return .error e

def secretConflict (ha : HarborAccess) (secret : Option Secret) (robotName : GoString) :
    Option SecretConflict :=
  match secret with
  | none => none
  | some s =>
    if RobotSecret.stampedForOther s ha.key.ns ha.key.name then some .otherHarborAccess
    else if RobotSecret.isManaged s then none
    else
      match RobotSecret.credentials s with
      | none => some .notManaged
      | some (user, _) => if user = c.harborRobotPrefix ++ robotName then none else some .notManaged

def secretDeleteConflict (ha : HarborAccess) (secret : Secret) (robotName : GoString) :
    Option SecretConflict :=
  match secretConflict c ha (some secret) robotName with
  | some conflict => some conflict
  | none =>
    let cluster := secret.labels.get RobotSecret.labelCluster
    if RobotSecret.isManaged secret ∧ cluster ≠ c.clusterName then some (.otherCluster cluster)
    else none

/-- A Secret that is gone already counts as deleted. -/
def deleteSecret (secret : Secret) : BridgeProg (Except ApiErr Unit) := do
  match ← Kube.deleteSecret secret with
  | .error .notFound => return .ok ()
  | r => return r

def deleteOwnRobotSecret (ha : HarborAccess) (robotName : GoString) :
    BridgeProg (Option PassErr) := do
  match ← getRobotSecret c ha with
  | .error e => return some (.readSecret e)
  | .ok none => return none
  | .ok (some secret) =>
    if (secretDeleteConflict c ha secret robotName).isSome then return none
    else
      match ← deleteSecret secret with
      | .error e => return some (.deleteSecret e)
      | .ok () => return none

/-- The annotations that a write of the robot Secret sets. -/
def robotAnnotations (robot : Robot) (notBefore : Int) : StringMap :=
  (Finmap.singleton RobotSecret.annotationRobotID (RobotSecret.formatRobotID robot.id)).insert
    RobotSecret.annotationRotationNotBefore (RobotSecret.formatRotationNotBefore notBefore)

def robotData (robot : Robot) (password : GoString) : StringMap :=
  (Finmap.singleton RobotSecret.keyUsername robot.wireName).insert RobotSecret.keyPassword password

def newRobotSecret (ha : HarborAccess) (robot : Robot) (password : GoString) (notBefore : Int) :
    Secret where
  ns := c.ns
  name := RobotSecret.name ha.key.ns ha.key.name
  uid := []
  resourceVersion := 0
  labels := RobotSecret.labels c.clusterName ha.key.ns ha.key.name
  annotations := robotAnnotations robot notBefore
  data := robotData robot password

/-- The Secret that replaces an existing one. Without a password the data stay. -/
def updatedRobotSecret (ha : HarborAccess) (existing : Secret) (robot : Robot)
    (password : GoString) (notBefore : Int) : Secret :=
  { existing with
    labels := RobotSecret.labels c.clusterName ha.key.ns ha.key.name ∪ existing.labels
    annotations := robotAnnotations robot notBefore ∪ existing.annotations
    data := if password = [] then existing.data else robotData robot password }

def putRobotSecret (ha : HarborAccess) (existing : Option Secret) (robot : Robot)
    (password : GoString) (notBefore : Int) : BridgeProg (Except PassErr Unit) :=
  match existing with
  | none =>
    if password = [] then return .error .secretMissing
    else do
      match ← Kube.createSecret (newRobotSecret c ha robot password notBefore) with
      | .error e => return .error (.createSecret e)
      | .ok () => return .ok ()
  | some existing =>
    let updated := updatedRobotSecret c ha existing robot password notBefore
    if updated.labels = existing.labels ∧ updated.annotations = existing.annotations ∧
        password = [] then return .ok ()
    else do
      match ← Kube.updateSecret updated with
      | .error e => return .error (.updateSecret e)
      | .ok () => return .ok ()

def ApiErr.isWriteRace : ApiErr → Bool
  | .other => false
  | _ => true

/-- The error wraps one with which a write lost a race. -/
def isSecretWriteRace : PassErr → Bool
  | .createSecret e => e.isWriteRace
  | .updateSecret e => e.isWriteRace
  | .rereadSecret e => e.isWriteRace
  | _ => false

/-- One attempt to store a new password: the version to try next, and the outcome. -/
def storeOnce (ha : HarborAccess) (current : Option Secret) (robot : Robot) (password : GoString)
    (notBefore : Int) : BridgeProg (Option Secret × Except PassErr Unit) := do
  match ← putRobotSecret c ha current robot password notBefore with
  | .ok () => return (current, .ok ())
  | .error e =>
    if isSecretWriteRace e = false then return (current, .error e)
    else
      match ← getRobotSecret c ha with
      | .error readErr => return (current, .error (.rereadSecret readErr))
      | .ok fresh =>
        match secretConflict c ha fresh robot.name with
        | some conflict => return (current, .error (.storeConflict conflict))
        | none => return (fresh, .error e)

/-- `retry.OnError`: the attempts go on as long as they lose races. -/
def storeRobotSecret (ha : HarborAccess) (robot : Robot) (password : GoString) (notBefore : Int) :
    (retries : Nat) → (current : Option Secret) → BridgeProg (Except PassErr Unit)
  | 0, current => do
    let (_, res) ← storeOnce c ha current robot password notBefore
    return res
  | retries + 1, current => do
    match ← storeOnce c ha current robot password notBefore with
    | (_, .ok ()) => return .ok ()
    | (next, .error e) =>
      if isSecretWriteRace e then storeRobotSecret ha robot password notBefore retries next
      else return .error e

/-- The number of attempts of `retry.DefaultRetry`. -/
def retrySteps : Nat := 5

def writeRobotSecret (ha : HarborAccess) (existing : Option Secret) (robot : Robot)
    (password : GoString) (notBefore : Int) : BridgeProg (Except PassErr Unit) :=
  if password = [] then putRobotSecret c ha existing robot [] notBefore
  else storeRobotSecret c ha robot password notBefore (retrySteps - 1) existing

/-! ## Robots -/

/-- The first robot whose description assigns it to the HarborAccess although its name is
not in the ownership prefixes. -/
def misnamedOf (ha : HarborAccess) (robot : Robot) : Option PassErr :=
  if misnamedRobot c.clusterName robot = some (ha.key.ns, ha.key.name) then
    some (.misnamed robot.wireName robot.id)
  else none

/-- Harbor's robot at the name, created if there is none, and whether this pass created it.
A robot of someone else is not adopted. -/
def ensureRobot (ha : HarborAccess) (robotName description : GoString)
    (perms : List ProjectPermission) : Pass (Robot × Bool) := do
  match ← Pass.lift (onHarbor (Client.getByName c.harborRobotPrefix robotName)) with
  | .ok existing => adopt existing
  | .error .robotNotFound =>
    match ← Pass.lift (onHarbor
      (Client.create c.harborRobotPrefix robotName description perms)) with
    | .ok robot => return (robot, true)
    | .error e =>
      if e.isAlreadyExists = false then throw (.transient (.createRobot e))
      else
        let existing ← Pass.attempt (onHarbor (Client.getByName c.harborRobotPrefix robotName))
          fun e => .transient (.recoverRobot e)
        adopt existing
  | .error e => throw (.transient (.lookupRobot e))
where
  adopt (existing : Robot) : Pass (Robot × Bool) :=
    if robotBelongsToCluster existing.description c.clusterName = false then
      throw (.notReady .robotConflict)
    else
      match parseRobotDescription existing.description with
      | some owner =>
        if owner = (ha.key.ns, ha.key.name) then return (existing, false)
        else throw (.notReady .robotConflict)
      | none => return (existing, false)

def harborNeverExpires : Int := -1

/-- What a pass has in hand when it writes the robot Secret: the robot, the Secret that it
read, and a new password with its time if there is one. -/
structure InHand where
  robot : Robot
  secret : Option Secret
  password : GoString
  rotatedAt : Option Int

/-- A suspended robot gets another password before it is enabled again. -/
def enable (robot : Robot) (description : GoString) (perms : List ProjectPermission) (now : Int) :
    Pass InHand := do
  let newSecret ← Pass.attempt (onHarbor (Client.refreshSecret robot.id))
    fun e => .transient (.rotateSuspended e)
  Pass.attempt (onHarbor (Client.update { robot with disabled := false } description perms))
    fun e => .transient (.resumeRobot e)
  return ⟨{ robot with disabled := false, description := description }, none, newSecret, some now⟩

/-- The Secret with the old password is gone before a suspended robot is enabled. -/
def resume (secret : Option Secret) (robot : Robot) (description : GoString)
    (perms : List ProjectPermission) (now : Int) : Pass InHand :=
  match secret with
  | none => enable robot description perms now
  | some secret => do
    Pass.attempt (deleteSecret secret) fun e => .transient (.deleteSuspendedSecret e)
    enable robot description perms now

/-- The robot is changed to match the spec where it does not. -/
def alignRobot (robot : Robot) (description : GoString) (perms : List ProjectPermission) :
    Pass Unit :=
  if permissionsMatch robot perms = false ∨ robot.description ≠ description ∨
      robot.expiresAt ≠ harborNeverExpires then
    Pass.attempt (onHarbor (Client.update robot description perms))
      fun e => .transient (.updateRobot e)
  else return ()

/-- The password is rotated if there is a reason to. -/
def rotate (ha : HarborAccess) (secret : Option Secret) (robot : Robot) (robotName : GoString)
    (now : Int) : Pass InHand := do
  match rotationReason ha secret robot now with
  | none => return ⟨robot, secret, [], none⟩
  | some why =>
    Pass.lift (logRotation robotName why)
    let newSecret ← Pass.attempt (onHarbor (Client.refreshSecret robot.id))
      fun e => .transient (.refreshSecret e)
    return ⟨robot, secret, newSecret, some now⟩

/-- The robots of the HarborAccess other than the one to keep are deleted. -/
def deleteStale (ha : HarborAccess) (keepID : Int) : List Robot → BridgeProg (Except PassErr Unit)
  | [] => return .ok ()
  | robot :: robots => do
    match misnamedOf c ha robot with
    | some e => return .error e
    | none =>
      if robot.id = keepID ∨ robotOwnedBy c.clusterName robot ha.key.ns ha.key.name = false then
        deleteStale ha keepID robots
      else
        match ← onHarbor (Client.delete robot.id) with
        | .error e => return .error (.deleteRobot robot.wireName e)
        | .ok () => deleteStale ha keepID robots

def deleteStaleRobots (ha : HarborAccess) (keepID : Int) : BridgeProg (Except PassErr Unit) := do
  match ← onHarbor (Client.list c.harborRobotPrefix none) with
  | .error e => return .error (.listRobots e)
  | .ok robots => deleteStale c ha keepID robots

/-- The robots of an earlier identity may still be there. -/
def mayBeStale (ha : HarborAccess) (robot : Robot) (created : Bool) : Bool :=
  created || ha.status.observedGeneration != ha.generation ||
    match ha.status.robot with
    | none => false
    | some ref => ref.id != 0 && ref.id != robot.id

def cleanUp (ha : HarborAccess) (robot : Robot) (created : Bool) : Pass Unit :=
  if mayBeStale ha robot created then
    Pass.attempt (deleteStaleRobots c ha robot.id) .transient
  else return ()

structure Ready where
  robot : Robot
  rotatedAt : Option Int
  requeueAfter : Int

/-- A robot with a password that its Secret may be written with. -/
def renew (ha : HarborAccess) (secret : Option Secret) (robotName : GoString) (robot : Robot)
    (created : Bool) (now : Int) : Pass InHand :=
  let description := robotDescription c.clusterName ha.key.ns ha.key.name
  let perms := ha.spec.permissions
  if created then return ⟨robot, secret, robot.secret, some now⟩
  else if robot.disabled && robotSuspended robot.description then
    resume secret robot description perms now
  else do
    alignRobot robot description perms
    rotate ha secret robot robotName now

/-- The part of `reconcileNormal` after the finalizer is set. -/
def converge (ha : HarborAccess) (secret : Option Secret) (robotName : GoString) : Pass Ready := do
  let (robot, created) ← ensureRobot c ha robotName
    (robotDescription c.clusterName ha.key.ns ha.key.name) ha.spec.permissions
  let now ← Pass.lift clockNow
  let hand ← renew c ha secret robotName robot created now
  let notBefore := rotationNotBefore ha hand.secret now hand.rotatedAt
  Pass.attempt (writeRobotSecret c ha hand.secret hand.robot hand.password notBefore) .transient
  cleanUp c ha hand.robot created
  if hand.robot.disabled then throw (.notReady .robotDisabled)
  else return ⟨hand.robot, hand.rotatedAt, requeueAfter ha notBefore now⟩

/-! ## Refusal -/

/-- The name of the robot, empty when there is no valid one. -/
def currentRobotName (ha : HarborAccess) : GoString :=
  match robotName c.clusterName ha.spec.serviceAccountRef.ns ha.spec.serviceAccountRef.name with
  | .ok name => name
  | .error _ => []

/-- The grants can be sent back in an update. -/
def canWriteBack (perms : List ProjectPermission) : Bool :=
  perms.all (fun p => validProjectName p.project) && !perms.isEmpty

/-- Disable the robot, or delete it if it cannot be updated. Whether a robot is kept. -/
def suspendRobot (ha : HarborAccess) (robotName : GoString) : BridgeProg (Except PassErr Bool) :=
  if robotName = [] ∨ ownsRobot c.clusterName robotName = false then return .ok false
  else do
    match ← onHarbor (Client.getByName c.harborRobotPrefix robotName) with
    | .error .robotNotFound => return .ok false
    | .error e => return .error (.lookupRobot e)
    | .ok robot =>
      if robotOwnedBy c.clusterName robot ha.key.ns ha.key.name = false then return .ok false
      else if robot.disabled then return .ok true
      else if canWriteBack robot.permissions then
        match ← onHarbor (Client.update { robot with disabled := true }
          (suspendedRobotDescription c.clusterName ha.key.ns ha.key.name) robot.permissions) with
        | .error e => return .error (.disableRobot robot.wireName e)
        | .ok () => return .ok true
      else
        match ← onHarbor (Client.delete robot.id) with
        | .error e => return .error (.deleteRobot robot.wireName e)
        | .ok () => return .ok false

/-- The finalizers of this bridge that the HarborAccess holds. -/
def heldFinalizers (ha : HarborAccess) : List GoString :=
  c.releasedFinalizers.filter fun f => ha.finalizers.contains f

/-- Whether the HarborAccess may be released, and the error if there is one. -/
def suspend (ha : HarborAccess) : BridgeProg (Bool × Option PassErr) := do
  let secretErr ← deleteOwnRobotSecret c ha (currentRobotName c ha)
  if heldFinalizers c ha = [] then return (false, secretErr)
  else
    match ← suspendRobot c ha (currentRobotName c ha) with
    | .error e =>
      match secretErr with
      | some secretErr => return (false, some (.join secretErr e))
      | none => return (false, some e)
    | .ok kept => return (!kept && secretErr.isNone, secretErr)

/-- The finalizers that a refused HarborAccess without a robot gives up. -/
def refusedFinalizers (ha : HarborAccess) : List GoString :=
  let sharedIsOurs := c.finalizer = finalizerName ∧ c.statusRobotIsOurs ha
  (heldFinalizers c ha).filter fun f => f ≠ finalizerName ∨ sharedIsOurs

/-- Go through the robots before the finalizers are released: an error stops it, and a robot
of the HarborAccess keeps them. -/
def releasable (ha : HarborAccess) : List Robot → Except PassErr Bool
  | [] => .ok true
  | robot :: robots =>
    match misnamedOf c ha robot with
    | some e => .error e
    | none =>
      if robotOwnedBy c.clusterName robot ha.key.ns ha.key.name then .ok false
      else releasable ha robots

def releaseRefused (ha : HarborAccess) : BridgeProg (Option PassErr) :=
  if refusedFinalizers c ha = [] then return none
  else do
    match ← onHarbor (Client.list c.harborRobotPrefix none) with
    | .error e => return some (.listRobots e)
    | .ok robots =>
      match releasable c ha robots with
      | .error e => return some e
      | .ok false => return none
      | .ok true =>
        match ← Kube.patchFinalizers ha
          (ha.finalizers.filter fun f => !(refusedFinalizers c ha).contains f) with
        | .ok _ => return none
        | .error .notFound => return none
        | .error e => return some (.releaseFinalizer e)

def refuse (ha : HarborAccess) (reason : Reason) : BridgeProg (Except PassErr Result) := do
  let (releasable, suspendErr) ← suspend c ha
  match ← setNotReady (withCondition ha .robotProvisioned false reason) reason with
  | .error e => return .error (.updateStatus e)
  | .ok ha =>
    match suspendErr with
    | some e => return .error e
    | none =>
      if releasable then
        if let some e ← releaseRefused c ha then return .error e
      return .ok ⟨resyncAfter ha⟩

/-! ## Passes -/

def ensureFinalizer (ha : HarborAccess) : BridgeProg (Except ApiErr HarborAccess) :=
  if ha.finalizers.contains c.finalizer then return .ok ha
  else Kube.patchFinalizers ha (ha.finalizers ++ [c.finalizer])

def reconcileNormal (ha : HarborAccess) : BridgeProg (Except PassErr Result) := do
  match admission c ha with
  | .error refusal => refuse c ha refusal.reason
  | .ok robotName =>
    if ownsRobot c.clusterName robotName = false then
      return .error (.notInPrefix robotName c.clusterName)
    else
      match ← getRobotSecret c ha with
      | .error e => markTransientError ha (.readSecret e)
      | .ok secret =>
        if (secretConflict c ha secret robotName).isSome then
          markNotReadyWithRequeue ha .robotConflict
        else
          match ← ensureFinalizer c ha with
          | .error e => return .error (.addFinalizer e)
          | .ok ha =>
            match ← (converge c ha secret robotName).run with
            | .ok ready => markReady ha ready.robot ready.rotatedAt ready.requeueAfter
            | .error (.notReady reason) => markNotReadyWithRequeue ha reason
            | .error (.transient cause) => markTransientError ha cause

def blockDeletion (ha : HarborAccess) (cause : PassErr) : BridgeProg (Except PassErr Result) := do
  let _ ← setNotReady ha .deletionBlocked
  return .error cause

/-- Delete the robots of the HarborAccess. -/
def deleteOwned (ha : HarborAccess) : List Robot → BridgeProg (Option PassErr)
  | [] => return none
  | robot :: robots => do
    match misnamedOf c ha robot with
    | some e => return some e
    | none =>
      if robotOwnedBy c.clusterName robot ha.key.ns ha.key.name = false then deleteOwned ha robots
      else
        match ← onHarbor (Client.delete robot.id) with
        | .error e => return some (.deleteRobot robot.wireName e)
        | .ok () => deleteOwned ha robots

def reconcileDelete (ha : HarborAccess) : BridgeProg (Except PassErr Result) :=
  let held := heldFinalizers c ha
  if held = [] then return .ok ⟨0⟩
  else do
    match ← onHarbor (Client.list c.harborRobotPrefix none) with
    | .error e => blockDeletion ha (.listRobots e)
    | .ok robots =>
      match ← deleteOwned c ha robots with
      | some e => blockDeletion ha e
      | none =>
        match ← deleteOwnRobotSecret c ha (currentRobotName c ha) with
        | some e => blockDeletion ha e
        | none =>
          match ← Kube.patchFinalizers ha (ha.finalizers.filter fun f => !held.contains f) with
          | .ok _ => return .ok ⟨0⟩
          | .error .notFound => return .ok ⟨0⟩
          | .error e => return .error (.removeFinalizer e)

/-- The source's `Reconcile`, for the HarborAccess of the request. -/
def reconcile (key : ObjectKey) : BridgeProg (Except PassErr Result) := do
  match ← Kube.getAccess key with
  | .error .notFound => return .ok ⟨0⟩
  | .error e => return .error (.getAccess e)
  | .ok ha =>
    if c.selects ha = false then return .ok ⟨0⟩
    else if ha.deleting then reconcileDelete c ha
    else reconcileNormal c ha

end

end HarborBridge
