import Mathlib.Data.Finmap
import HarborBridge.Lib.DnsNames
import HarborBridge.Lib.Rfc3339

/-! The objects that the bridge keeps in Kubernetes: HarborAccess (api/v1alpha1) and
the parts of a Secret that it uses. -/
namespace HarborBridge

open GoStrings DnsNames Rfc3339

/-- A Go map from strings to strings. -/
abbrev StringMap := Finmap fun _ : GoString => GoString

/-- Indexing a Go map: a missing key reads as the empty string. -/
def StringMap.get (m : StringMap) (k : GoString) : GoString := (m.lookup k).getD []

/-- The namespace and the name of an object, as the apiserver admits them. -/
structure ObjectKey where
  ns : GoString
  name : GoString
  ns_valid : DnsLabel ns
  ns_length : ns.length ≤ 63
  name_valid : DnsSubdomain name
  name_length : name.length ≤ 253
  deriving DecidableEq

theorem ObjectKey.ext_iff' (a b : ObjectKey) : a = b ↔ a.ns = b.ns ∧ a.name = b.name := by
  cases a
  cases b
  simp

structure ServiceAccountRef where
  ns : GoString
  name : GoString
  deriving DecidableEq

structure TrustPolicy where
  issuer : GoString
  audience : GoString
  deriving DecidableEq

/-- A grant as the bridge writes it: the action is pull, push or pull,push. -/
structure ProjectPermission where
  project : GoString
  action : GoString
  deriving DecidableEq

/-- The type Duration of the API: `invalid` holds the raw JSON of a value that does not
parse, and is empty otherwise. -/
structure TokenTTL where
  /-- In nanoseconds. -/
  duration : Int
  invalid : GoString
  deriving DecidableEq

/-- `Duration.Err` returns an error. -/
def TokenTTL.hasErr (d : TokenTTL) : Bool := d.invalid != []

structure HarborAccessSpec where
  serviceAccountRef : ServiceAccountRef
  trustPolicy : TrustPolicy
  permissions : List ProjectPermission
  tokenTTL : TokenTTL
  deriving DecidableEq

structure RobotRef where
  name : GoString
  id : Int
  passwordSecretRef : GoString
  lastRotated : Option Int
  deriving DecidableEq

inductive ConditionType where
  | ready
  | robotProvisioned
  | trustPolicyApplied
  deriving DecidableEq

inductive Reason where
  | reconcileSucceeded
  | issuerMismatch
  | robotConflict
  | robotDisabled
  | invalidSpec
  | audienceMismatch
  | harborError
  | deletionBlocked
  | enforcedByBridge
  deriving DecidableEq

structure Condition where
  type : ConditionType
  status : Bool
  reason : Reason
  observedGeneration : Int
  deriving DecidableEq

structure HarborAccessStatus where
  robot : Option RobotRef
  enforcedByBridge : Bool
  observedGeneration : Int
  conditions : List Condition
  deriving DecidableEq

structure HarborAccess where
  key : ObjectKey
  uid : GoString
  resourceVersion : Nat
  generation : Int
  /-- A deletion timestamp is set. -/
  deleting : Bool
  labels : StringMap
  finalizers : List GoString
  spec : HarborAccessSpec
  status : HarborAccessStatus
  deriving DecidableEq

/-- `meta.SetStatusCondition`: one condition for each type. -/
def setStatusCondition (conditions : List Condition) (c : Condition) : List Condition :=
  if conditions.any (fun d => d.type = c.type) then
    conditions.map fun d => if d.type = c.type then c else d
  else conditions ++ [c]

structure Secret where
  ns : GoString
  name : GoString
  uid : GoString
  resourceVersion : Nat
  labels : StringMap
  annotations : StringMap
  data : StringMap
  deriving DecidableEq

/-- What the predicates IsNotFound, IsConflict and IsAlreadyExists tell about an error
of the apiserver. -/
inductive ApiErr where
  | notFound
  | conflict
  | alreadyExists
  | other
  deriving DecidableEq

def sampleKey : ObjectKey where
  ns := lit "team"
  name := lit "app"
  ns_valid := by decide
  ns_length := by decide
  name_valid := by decide
  name_length := by decide

/-- A HarborAccess that the bridge accepts, as it is created. -/
def sampleAccess (key : ObjectKey) (ref : ServiceAccountRef) : HarborAccess where
  key := key
  uid := lit "1"
  resourceVersion := 1
  generation := 1
  deleting := false
  labels := ∅
  finalizers := []
  spec := {
    serviceAccountRef := ref
    trustPolicy := ⟨lit "https://issuer", lit "harbor"⟩
    permissions := [⟨lit "library", lit "pull"⟩]
    tokenTTL := ⟨hour, []⟩ }
  status := ⟨none, false, 0, []⟩

end HarborBridge
