import HarborBridge.BridgeConfig

/-! When a robot's password is rotated, and when a HarborAccess is looked at again (package
controlplane, reconciler.go). -/
namespace HarborBridge

open GoStrings Rfc3339

inductive RotationReason where
  | secretMissing
  | secretIncomplete
  | otherRobot
  | recreated
  | scheduled
  | noRecord
  deriving DecidableEq

/-- The Secret, or else the status, records the id of another robot. -/
def recordsOtherRobot (ha : HarborAccess) (secret : Secret) (robot : Robot) : Bool :=
  match RobotSecret.robotID secret with
  | some id => id != robot.id
  | none =>
    match ha.status.robot with
    | some ref => ref.id != 0 && ref.id != robot.id
    | none => false

/-- Why the password has to be rotated, none for the empty string of the source. -/
def rotationReason (ha : HarborAccess) (secret : Option Secret) (robot : Robot) (now : Int) :
    Option RotationReason :=
  match secret with
  | none => some .secretMissing
  | some secret =>
    match RobotSecret.credentials secret with
    | none => some .secretIncomplete
    | some (username, _) =>
      if username ≠ robot.wireName then some .otherRobot
      else if recordsOtherRobot ha secret robot then some .recreated
      else
        match RobotSecret.rotationNotBefore secret with
        | some nb => if nb + rotationSafetyMargin ≤ now then some .scheduled else none
        | none =>
          match ha.status.robot.bind (·.lastRotated) with
          | none => some .noRecord
          | some t =>
            if t + (passwordRotationInterval + rotationSafetyMargin) ≤ now then some .scheduled
            else none

/-- The promise that is stored with the password. -/
def rotationNotBefore (ha : HarborAccess) (secret : Option Secret) (now : Int)
    (rotatedAt : Option Int) : Int :=
  match rotatedAt with
  | some t => t + passwordRotationInterval
  | none =>
    match secret.bind RobotSecret.rotationNotBefore with
    | some nb => nb
    | none =>
      match ha.status.robot.bind (·.lastRotated) with
      | some t => t + passwordRotationInterval
      | none => now

/-- The FNV-1a hash of hash/fnv. -/
def fnv32a (s : GoString) : UInt32 :=
  s.foldl (fun h b => (h ^^^ b.toUInt32) * 16777619) 2166136261

def resyncAfter (ha : HarborAccess) : Int :=
  let jitter := (fnv32a ha.uid).toNat % (resyncInterval / 10 / second)
  resyncInterval - jitter * second

def requeueAfter (ha : HarborAccess) (notBefore now : Int) : Int :=
  max second (min (resyncAfter ha) (timeSub (notBefore + rotationSafetyMargin) now))

end HarborBridge
