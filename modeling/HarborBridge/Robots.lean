import Mathlib.Data.List.Dedup
import Mathlib.Data.List.Sort
import HarborBridge.Api
import HarborBridge.Naming

/-! Robots and their grants as the Harbor client reads and writes them (package harbor,
client.go). -/
namespace HarborBridge

open GoStrings

/-! ## The models of the generated SDK; an entry of a list may be nil -/

structure Access where
  resource : GoString
  action : GoString
  effect : GoString
  deriving DecidableEq

structure RobotPermission where
  kind : GoString
  ns : GoString
  access : List (Option Access)
  deriving DecidableEq

/-- A robot as Harbor's API shows it. -/
structure HarborRobot where
  id : Int
  name : GoString
  description : GoString
  editable : Bool
  disable : Bool
  expiresAt : Int
  permissions : List (Option RobotPermission)
  secret : GoString
  deriving DecidableEq

/-- A robot as the bridge sees it: `name` without Harbor's robot name prefix, `wireName`
with it. -/
structure Robot where
  id : Int
  name : GoString
  wireName : GoString
  description : GoString
  disabled : Bool
  expiresAt : Int
  permissions : List ProjectPermission
  foreignAccess : Bool
  secret : GoString
  deriving DecidableEq

def robotResourceRepository : GoString := lit "repository"

def robotPermissionKindProject : GoString := lit "project"

def robotDurationNeverExpires : Int := -1

/-! ## Grants -/

def actionRank (a b : GoString) : Bool :=
  let order (s : GoString) : Option Nat :=
    if s = lit "pull" then some 0 else if s = lit "push" then some 1 else none
  match order a, order b with
  | some ra, some rb => ra < rb
  | some _, none => true
  | none, some _ => false
  | none, none => a < b

/-- The actions of an entry: the parts between commas, trimmed, without empty ones. -/
def entryActions (p : ProjectPermission) : List GoString :=
  ((split p.action 44).map trimSpace).filter (· ≠ [])

/-- The actions that the entries grant on a project, in canonical order. -/
def projectActions (perms : List ProjectPermission) (project : GoString) : List GoString :=
  (((perms.filter (·.project = project)).flatMap entryActions).dedup).insertionSort
    fun a b => actionRank b a = false

/-- One entry for each project, the projects sorted. -/
def normalizePermissions (perms : List ProjectPermission) : List ProjectPermission :=
  (((perms.map (·.project)).dedup).insertionSort (· ≤ ·)).map fun project =>
    ⟨project, join (projectActions perms project) 44⟩

/-- The grants of the robot are exactly the desired ones. -/
def permissionsMatch (r : Robot) (desired : List ProjectPermission) : Bool :=
  if r.foreignAccess then false
  else normalizePermissions r.permissions == normalizePermissions desired

def toHarborPermissions (perms : List ProjectPermission) : List (Option RobotPermission) :=
  (normalizePermissions perms).map fun p => some {
    kind := robotPermissionKindProject
    ns := p.project
    access := ((split p.action 44).filter (· ≠ [])).map fun action =>
      some ⟨robotResourceRepository, action, []⟩ }

/-- `validatePermissions` returns no error. -/
def validPermissions (perms : List ProjectPermission) : Bool :=
  perms.all fun p => validProjectName p.project

/-- An access that the bridge never writes: another resource, or a deny effect. -/
def foreignEntry (a : Access) : Bool :=
  a.resource != robotResourceRepository || (a.effect != [] && a.effect != lit "allow")

/-- The accesses of a grant on a project. -/
def projectEntries (p : RobotPermission) : List ProjectPermission :=
  (p.access.filterMap id).filterMap fun a =>
    if foreignEntry a then none else some ⟨p.ns, a.action⟩

/-- A grant that the bridge never writes. -/
def foreignPermission (p : RobotPermission) : Bool :=
  p.kind != robotPermissionKindProject || (p.access.filterMap id).any foreignEntry

/-- `fromHarborRobot`, with none for ErrRobotPrefixMismatch. -/
def fromHarborRobot (robotPrefix : GoString) (r : HarborRobot) : Option Robot :=
  let accounted := match cutPrefix r.name robotPrefix with
    | none => false
    | some rest => robotNameRegex rest
  if r.editable && !accounted then none
  else
    let permissions := r.permissions.filterMap id
    some {
      id := r.id
      name := trimPrefix r.name robotPrefix
      wireName := r.name
      description := r.description
      disabled := r.disable
      expiresAt := r.expiresAt
      permissions := normalizePermissions
        ((permissions.filter (·.kind = robotPermissionKindProject)).flatMap projectEntries)
      foreignAccess := permissions.any foreignPermission
      secret := r.secret }

theorem fromHarborRobot_some (robotPrefix : GoString) (r : HarborRobot) (robot : Robot)
    (h : fromHarborRobot robotPrefix r = some robot) :
    robot.id = r.id ∧ robot.wireName = r.name ∧ robot.description = r.description ∧
      robot.disabled = r.disable ∧ robot.expiresAt = r.expiresAt ∧
      robot.name = trimPrefix r.name robotPrefix := by
  unfold fromHarborRobot at h
  dsimp only at h
  split_ifs at h
  obtain rfl := Option.some.inj h
  exact ⟨rfl, rfl, rfl, rfl, rfl, rfl⟩

theorem exists_fromHarborRobot {robotPrefix name : GoString} (hregex : robotNameRegex name = true)
    (r : HarborRobot) (hname : r.name = robotPrefix ++ name) :
    ∃ robot, fromHarborRobot robotPrefix r = some robot := by
  unfold fromHarborRobot
  simp [hname, hregex]

/-- Only its name decides whether a robot is read. -/
theorem fromHarborRobot_isSome_congr {robotPrefix : GoString} {r r' : HarborRobot}
    (hedit : r'.editable = r.editable) (hname : r'.name = r.name) :
    (fromHarborRobot robotPrefix r').isSome = (fromHarborRobot robotPrefix r).isSome := by
  obtain ⟨id, name, description, editable, disable, expiresAt, permissions, secret⟩ := r
  obtain ⟨id', name', description', editable', disable', expiresAt', permissions', secret'⟩ := r'
  dsimp only at hedit hname
  subst hedit hname
  unfold fromHarborRobot
  dsimp only
  split_ifs <;> rfl

end HarborBridge
