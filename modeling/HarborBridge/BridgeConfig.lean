import HarborBridge.Contract

/-! The configuration of a bridge (package controlplane, config.go). -/
namespace HarborBridge

open GoStrings DnsNames

/-- A label selector: whether it is empty, and the label sets that it matches. -/
structure Selector where
  empty : Bool
  matches_ : StringMap → Bool

/-- What `LoadFromEnv` admits, as far as the modelled functions read it. -/
structure Config where
  clusterName : GoString
  ns : GoString
  oidcIssuer : GoString
  harborRobotPrefix : GoString
  audience : GoString
  harborAccessSelector : Option Selector
  instanceName : GoString
  clusterName_valid : DnsLabel clusterName
  clusterName_length : clusterName.length ≤ 63
  clusterName_hyphens : ¬ lit "--" <:+: clusterName

namespace Config

variable (c : Config)

def selective : Bool :=
  match c.harborAccessSelector with
  | none => false
  | some sel => !sel.empty

def finalizer : GoString :=
  if c.selective then finalizerName ++ 45 :: c.instanceName else finalizerName

/-- The finalizers that this bridge removes once it has revoked the robots. -/
def releasedFinalizers : List GoString :=
  if c.selective then [c.finalizer, finalizerName]
  else if c.instanceName ≠ [] then [finalizerName, finalizerName ++ 45 :: c.instanceName]
  else [finalizerName]

/-- The robot that the status records, if any, has this cluster's prefix. -/
def statusRobotIsOurs (ha : HarborAccess) : Bool :=
  match ha.status.robot with
  | none => true
  | some robot => ownsRobot c.clusterName (trimPrefix robot.name c.harborRobotPrefix)

def selects (ha : HarborAccess) : Bool :=
  match c.harborAccessSelector with
  | none => true
  | some sel => sel.empty || sel.matches_ ha.labels

theorem clusterName_word : Word c.clusterName := c.clusterName_valid.word

theorem finalizer_mem_releasedFinalizers : c.finalizer ∈ c.releasedFinalizers := by
  unfold releasedFinalizers finalizer
  split_ifs <;> simp_all

end Config

/-- The username of the robot of a ServiceAccount, as `main` wires it into the data
plane. -/
def robotUsername (c : Config) (saNamespace saName : GoString) : Except RobotNameErr GoString := do
  let name ← robotName c.clusterName saNamespace saName
  .ok (c.harborRobotPrefix ++ name)

def sampleConfig : Config where
  clusterName := lit "prod"
  ns := lit "bridge"
  oidcIssuer := lit "https://issuer"
  harborRobotPrefix := lit "robot$"
  audience := lit "harbor"
  harborAccessSelector := none
  instanceName := []
  clusterName_valid := by decide
  clusterName_length := by decide
  clusterName_hyphens := by decide

/-- A bridge for another cluster, in the namespace of `sampleConfig`. -/
def neighbour : Config :=
  { sampleConfig with
    clusterName := lit "prod-eu"
    clusterName_valid := by decide
    clusterName_length := by decide
    clusterName_hyphens := by decide }

end HarborBridge
