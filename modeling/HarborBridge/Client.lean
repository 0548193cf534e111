import HarborBridge.Lib.Program
import HarborBridge.Robots

/-! The Harbor client (package harbor, client.go) as programs over the calls of the
generated SDK. -/
namespace HarborBridge

open GoStrings Interaction

inductive HarborErr where
  | status (code : Nat)
  | transport
  deriving DecidableEq

def HarborErr.isNotFound : HarborErr → Bool
  | status code => code == 404
  | transport => false

def HarborErr.isConflict : HarborErr → Bool
  | status code => code == 409
  | transport => false

structure RobotCreate where
  name : GoString
  description : GoString
  duration : Int
  permissions : List (Option RobotPermission)
  deriving DecidableEq

structure RobotCreated where
  id : Int
  name : GoString
  secret : GoString
  deriving DecidableEq

structure RobotUpdate where
  id : Int
  name : GoString
  description : GoString
  duration : Int
  disable : Bool
  permissions : List (Option RobotPermission)
  deriving DecidableEq

/-- The requests to Harbor. `listRobot` asks for the first page, sorted by id, of the
robots from the id `idFrom` on, and with a filter only for those of that name. -/
inductive HarborCall where
  | listRobot (filter : Option GoString) (idFrom : Int)
  | createRobot (body : RobotCreate)
  | updateRobot (id : Int) (body : RobotUpdate)
  | refreshSec (id : Int)
  | deleteRobot (id : Int)

/-- The answers. A payload may be nil. -/
def HarborAnswer : HarborCall → Type
  | .listRobot _ _ => Except HarborErr (List (Option HarborRobot))
  | .createRobot _ => Except HarborErr (Option RobotCreated)
  | .updateRobot _ _ => Except HarborErr Unit
  | .refreshSec _ => Except HarborErr (Option GoString)
  | .deleteRobot _ => Except HarborErr Unit

abbrev HarborProg := Prog HarborCall HarborAnswer

inductive ClientErr where
  | robotNotFound
  | harbor (e : HarborErr)
  /-- ErrRobotPrefixMismatch; `cleanup` is why a new robot could not be deleted again. -/
  | prefixMismatch (cleanup : Option HarborErr)
  | invalidProject
  | noSecret
  | noWireName
  | idNotIncreasing (id cursor : Int)
  | tooManyPages
  deriving DecidableEq

/-- errors.Is with ErrRobotAlreadyExists, which a wrapped conflict carries. -/
def ClientErr.isAlreadyExists : ClientErr → Bool
  | harbor e => e.isConflict
  | prefixMismatch (some e) => e.isConflict
  | _ => false

def pageSize : Nat := 100

def maxPages : Nat := 1000

/-- Arithmetic of the type int64. -/
def int64 (i : Int) : Int := i.bmod (2 ^ 64)

namespace Sdk

/-! The methods of the generated client. -/

def listRobot (filter : Option GoString) (idFrom : Int) :
    HarborProg (Except HarborErr (List (Option HarborRobot))) := Prog.ask (HarborCall.listRobot filter idFrom)

def createRobot (body : RobotCreate) : HarborProg (Except HarborErr (Option RobotCreated)) :=
  Prog.ask (HarborCall.createRobot body)

def updateRobot (id : Int) (body : RobotUpdate) : HarborProg (Except HarborErr Unit) :=
  Prog.ask (HarborCall.updateRobot id body)

def refreshSec (id : Int) : HarborProg (Except HarborErr (Option GoString)) :=
  Prog.ask (HarborCall.refreshSec id)

def deleteRobot (id : Int) : HarborProg (Except HarborErr Unit) := Prog.ask (HarborCall.deleteRobot id)

variable {β : Type}

@[simp] theorem listRobot_bind (filter : Option GoString) (idFrom : Int)
    (f : Except HarborErr (List (Option HarborRobot)) → HarborProg β) :
    listRobot filter idFrom >>= f = Prog.call (HarborCall.listRobot filter idFrom) f := rfl

@[simp] theorem createRobot_bind (body : RobotCreate)
    (f : Except HarborErr (Option RobotCreated) → HarborProg β) :
    createRobot body >>= f = Prog.call (HarborCall.createRobot body) f := rfl

@[simp] theorem updateRobot_bind (id : Int) (body : RobotUpdate)
    (f : Except HarborErr Unit → HarborProg β) :
    updateRobot id body >>= f = Prog.call (HarborCall.updateRobot id body) f := rfl

@[simp] theorem refreshSec_bind (id : Int)
    (f : Except HarborErr (Option GoString) → HarborProg β) :
    refreshSec id >>= f = Prog.call (HarborCall.refreshSec id) f := rfl

@[simp] theorem deleteRobot_bind (id : Int) (f : Except HarborErr Unit → HarborProg β) :
    deleteRobot id >>= f = Prog.call (HarborCall.deleteRobot id) f := rfl

end Sdk

namespace Client

variable (robotPrefix : GoString)

/-- The loop over the entries of one page. -/
def takePage : (payload : List (Option HarborRobot)) → (cursor : Int) → (out : List Robot) →
    Except ClientErr (Int × List Robot)
  | [], cursor, out => .ok (cursor, out)
  | none :: payload, cursor, out => takePage payload cursor out
  | some r :: payload, cursor, out =>
    if r.id ≤ cursor then .error (.idNotIncreasing r.id cursor)
    else
      match fromHarborRobot robotPrefix r with
      | none => .error (.prefixMismatch none)
      | some robot => takePage payload r.id (out ++ [robot])

/-- The loop over the pages, with at most `pages` requests left. -/
def listFrom (filter : Option GoString) : (pages : Nat) → (cursor : Int) → (out : List Robot) →
    HarborProg (Except ClientErr (List Robot))
  | 0, _, _ => return .error .tooManyPages
  | pages + 1, cursor, out => do
    match ← Sdk.listRobot filter (int64 (cursor + 1)) with
    | .error e => return .error (.harbor e)
    | .ok payload =>
      match takePage robotPrefix payload cursor out with
      | .error e => return .error e
      | .ok (cursor, out) =>
        if payload.length < pageSize then return .ok out
        else listFrom filter pages cursor out

/-- The source's `list`; the filter is a name, or none. -/
def list (filter : Option GoString) : HarborProg (Except ClientErr (List Robot)) :=
  listFrom robotPrefix filter maxPages 0 []

def matchName (robots : List Robot) (name : GoString) : Option Robot :=
  robots.find? fun r => r.name = name

def checkSuffixHit (name : GoString) : (robots : List Robot) → HarborProg (Option ClientErr)
  | [] => return none
  | r :: robots =>
    if r.wireName = robotPrefix ++ name ∨ hasSuffix r.wireName name = false then
      checkSuffixHit name robots
    else do
      match ← list robotPrefix (some r.name) with
      | .error e => return some e
      | .ok again =>
        if again.any fun o => o.id = r.id then return none
        else return some (.prefixMismatch none)

def getByName (name : GoString) : HarborProg (Except ClientErr Robot) := do
  match ← list robotPrefix (some name) with
  | .error e => return .error e
  | .ok robots =>
    match matchName robots name with
    | some r => return .ok r
    | none =>
      match ← checkSuffixHit robotPrefix name robots with
      | some e => return .error e
      | none =>
        match ← list robotPrefix none with
        | .error e => return .error e
        | .ok robots =>
          match matchName robots name with
          | some r => return .ok r
          | none => return .error .robotNotFound

def delete (id : Int) : HarborProg (Except HarborErr Unit) := do
  match ← Sdk.deleteRobot id with
  | .ok () => return .ok ()
  | .error e => return if e.isNotFound then .ok () else .error e

/-- The source's `Create`. A robot that Harbor named in an unexpected way could not be
recognised later, so it is deleted again. -/
def create (name description : GoString) (perms : List ProjectPermission) :
    HarborProg (Except ClientErr Robot) :=
  if validPermissions perms = false then return .error .invalidProject
  else do
    match ← Sdk.createRobot
      ⟨name, description, robotDurationNeverExpires, toHarborPermissions perms⟩ with
    | .error e => return .error (.harbor e)
    | .ok none => return .error .noSecret
    | .ok (some payload) =>
      if payload.secret = [] then return .error .noSecret
      else if payload.name = [] ∨ payload.name = name ∨ payload.name = robotPrefix ++ name then
        return .ok {
          id := payload.id
          name := name
          wireName := robotPrefix ++ name
          description := description
          disabled := false
          expiresAt := robotDurationNeverExpires
          permissions := normalizePermissions perms
          foreignAccess := false
          secret := payload.secret }
      else
        match ← delete payload.id with
        | .ok () => return .error (.prefixMismatch none)
        | .error e => return .error (.prefixMismatch (some e))

def refreshSecret (id : Int) : HarborProg (Except ClientErr GoString) := do
  match ← Sdk.refreshSec id with
  | .error e => return .error (.harbor e)
  | .ok none => return .error .noSecret
  | .ok (some secret) => return if secret = [] then .error .noSecret else .ok secret

/-- The source's `Update`: the name and the disable flag of `current` are sent back. -/
def update (current : Robot) (description : GoString) (perms : List ProjectPermission) :
    HarborProg (Except ClientErr Unit) :=
  if current.wireName = [] then return .error .noWireName
  else if validPermissions perms = false then return .error .invalidProject
  else do
    match ← Sdk.updateRobot current.id
      ⟨current.id, current.wireName, description, robotDurationNeverExpires, current.disabled,
        toHarborPermissions perms⟩ with
    | .error e => return .error (.harbor e)
    | .ok () => return .ok ()

end Client

end HarborBridge
