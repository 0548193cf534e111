import HarborBridge.Client

/-! Harbor as its API documents it: the robots that it keeps, and how it answers the
requests of the client. -/
namespace HarborBridge

open GoStrings Interaction

/-- A robot as Harbor keeps it: the name without the robot name prefix, and the password
that it accepts. -/
structure StoredRobot where
  id : Int
  name : GoString
  editable : Bool
  description : GoString
  disable : Bool
  expiresAt : Int
  permissions : List (Option RobotPermission)
  password : GoString
  deriving DecidableEq

/-- Robots in the order of their ids, which are positive and never used twice. `issued`
are the passwords that were ever handed out. -/
structure Harbor where
  robotNamePrefix : GoString
  /-- A name filter restricts a listing to robots of that name. -/
  honoursFilter : Bool
  robots : List StoredRobot
  nextId : Int
  issued : List GoString
  sorted : robots.Pairwise fun r s => r.id < s.id
  bounds : ∀ r ∈ robots, 0 < r.id ∧ r.id < nextId
  nextId_pos : 0 < nextId
  nextId_le : nextId ≤ 2 ^ 63
  password_issued : ∀ r ∈ robots, r.password ∈ issued

/-- The bounds of the samples with two robots. -/
theorem nextId_three_pos : (0 : Int) < 3 := by decide

theorem nextId_three_le : (3 : Int) ≤ 2 ^ 63 := by decide

namespace Harbor

variable (h : Harbor)

def wireName (r : StoredRobot) : GoString :=
  if r.editable then h.robotNamePrefix ++ r.name else r.name

def report (r : StoredRobot) : HarborRobot :=
  ⟨r.id, h.wireName r, r.description, r.editable, r.disable, r.expiresAt, r.permissions, []⟩

def matching (filter : Option GoString) (r : StoredRobot) : Bool :=
  match filter with
  | none => true
  | some name => !h.honoursFilter || r.name == name

def page (filter : Option GoString) (idFrom : Int) : List (Option HarborRobot) :=
  ((h.robots.filter fun r => idFrom ≤ r.id && h.matching filter r).take pageSize).map
    fun r => some (h.report r)

def updated (body : RobotUpdate) (r : StoredRobot) : StoredRobot :=
  { r with
    description := body.description
    disable := body.disable
    expiresAt := if body.duration = -1 then -1 else r.expiresAt
    permissions := body.permissions }

/-- The robot of an id changed by `f`, which keeps ids; `passwords` become issued. -/
def modify (id : Int) (f : StoredRobot → StoredRobot) (hf : ∀ r, (f r).id = r.id)
    (passwords : List GoString) (hp : ∀ r, (f r).password = r.password ∨ (f r).password ∈ passwords) :
    Harbor :=
  { h with
    robots := h.robots.map fun r => if r.id = id then f r else r
    issued := passwords ++ h.issued
    sorted := by
      rw [List.pairwise_map]
      refine h.sorted.imp fun {r s} hrs => ?_
      split_ifs <;> simpa only [hf] using hrs
    bounds := by
      intro s hs
      obtain ⟨r, hr, rfl⟩ := List.mem_map.mp hs
      split_ifs
      · simpa only [hf] using h.bounds r hr
      · exact h.bounds r hr
    password_issued := by
      intro s hs
      obtain ⟨r, hr, rfl⟩ := List.mem_map.mp hs
      have hold := List.mem_append_right passwords (h.password_issued r hr)
      split_ifs
      · rcases hp r with hsame | hnew
        · exact hsame ▸ hold
        · exact List.mem_append_left _ hnew
      · exact hold }

def update (id : Int) (body : RobotUpdate) : Harbor :=
  h.modify id (updated body) (fun _ => rfl) [] fun _ => .inl rfl

def refresh (id : Int) (password : GoString) : Harbor :=
  h.modify id (fun r => { r with password := password }) (fun _ => rfl) [password]
    fun _ => .inr List.mem_cons_self

def delete (id : Int) : Harbor :=
  { h with
    robots := h.robots.filter fun r => r.id ≠ id
    sorted := h.sorted.filter _
    bounds := fun r hr => h.bounds r (List.mem_of_mem_filter hr)
    password_issued := fun r hr => h.password_issued r (List.mem_of_mem_filter hr) }

def created (body : RobotCreate) (password : GoString) : StoredRobot :=
  ⟨h.nextId, body.name, true, body.description, false, body.duration, body.permissions, password⟩

def create (body : RobotCreate) (password : GoString) (hid : h.nextId < 2 ^ 63) : Harbor :=
  { h with
    robots := h.robots ++ [h.created body password]
    nextId := h.nextId + 1
    issued := password :: h.issued
    sorted := by
      rw [List.pairwise_append]
      refine ⟨h.sorted, List.pairwise_singleton _ _, fun r hr s hs => ?_⟩
      rw [List.mem_singleton.mp hs]
      exact (h.bounds r hr).2
    bounds := by
      intro r hr
      rcases List.mem_append.mp hr with hr | hr
      · exact ⟨(h.bounds r hr).1, by have := (h.bounds r hr).2; omega⟩
      · rw [List.mem_singleton.mp hr]
        exact ⟨h.nextId_pos, by simp [created]⟩
    nextId_pos := by have := h.nextId_pos; omega
    nextId_le := by omega
    password_issued := by
      intro r hr
      rcases List.mem_append.mp hr with hr | hr
      · exact List.mem_cons_of_mem _ (h.password_issued r hr)
      · rw [List.mem_singleton.mp hr]
        exact List.mem_cons_self }

/-- A password that Harbor may generate: not empty and never handed out before. -/
def Fresh (password : GoString) : Prop := password ≠ [] ∧ password ∉ h.issued

/-- How Harbor answers a request that it processes. It may turn down an update, for one
whose name is not the robot's it does. -/
inductive Serves : (call : HarborCall) → HarborAnswer call → Harbor → Prop where
  | listRobot (filter : Option GoString) (idFrom : Int) :
      Serves (.listRobot filter idFrom) (Except.ok (h.page filter idFrom)) h
  | createRobot (body : RobotCreate) (password : GoString) (hid : h.nextId < 2 ^ 63)
      (hname : ∀ r ∈ h.robots, r.name ≠ body.name) (hp : h.Fresh password) :
      Serves (.createRobot body)
        (Except.ok (some ⟨h.nextId, h.robotNamePrefix ++ body.name, password⟩))
        (h.create body password hid)
  | createRobotTaken (body : RobotCreate) (hname : ∃ r ∈ h.robots, r.name = body.name) :
      Serves (.createRobot body) (Except.error (.status 409)) h
  | updateRobot (id : Int) (body : RobotUpdate) (r : StoredRobot) (hr : r ∈ h.robots)
      (hid : r.id = id) (hname : h.wireName r = body.name) :
      Serves (.updateRobot id body) (Except.ok ()) (h.update id body)
  | updateRobotRefused (id : Int) (body : RobotUpdate) (code : Nat) :
      Serves (.updateRobot id body) (Except.error (.status code)) h
  | refreshSec (id : Int) (password : GoString) (hr : ∃ r ∈ h.robots, r.id = id)
      (hp : h.Fresh password) :
      Serves (.refreshSec id) (Except.ok (some password)) (h.refresh id password)
  | refreshSecMissing (id : Int) (hr : ∀ r ∈ h.robots, r.id ≠ id) :
      Serves (.refreshSec id) (Except.error (.status 404)) h
  | deleteRobot (id : Int) (hr : ∃ r ∈ h.robots, r.id = id) :
      Serves (.deleteRobot id) (Except.ok ()) (h.delete id)
  | deleteRobotMissing (id : Int) (hr : ∀ r ∈ h.robots, r.id ≠ id) :
      Serves (.deleteRobot id) (Except.error (.status 404)) h

end Harbor

def harborFailure : (call : HarborCall) → HarborErr → HarborAnswer call
  | .listRobot _ _, e => Except.error e
  | .createRobot _, e => Except.error e
  | .updateRobot _ _, e => Except.error e
  | .refreshSec _, e => Except.error e
  | .deleteRobot _, e => Except.error e

namespace Harbor

variable (h : Harbor)

/-- A request is processed, or it fails, before or after it took effect. A failure does
not claim that something does not exist. -/
inductive Faulty : (call : HarborCall) → HarborAnswer call → Harbor → Prop where
  | served (call : HarborCall) (r : HarborAnswer call) (h' : Harbor) (hs : h.Serves call r h') :
      Faulty call r h'
  | failed (call : HarborCall) (e : HarborErr) (he : e.isNotFound = false) :
      Faulty call (harborFailure call e) h
  | lost (call : HarborCall) (e : HarborErr) (he : e.isNotFound = false) (r : HarborAnswer call)
      (h' : Harbor) (hs : h.Serves call r h') :
      Faulty call (harborFailure call e) h'

/-! ## What a request does -/

/-- The change that a request makes, whether it fails or not. -/
inductive Effect : HarborCall → Harbor → Prop where
  | none (call : HarborCall) : Effect call h
  | created (body : RobotCreate) (password : GoString) (hid : h.nextId < 2 ^ 63)
      (hname : ∀ r ∈ h.robots, r.name ≠ body.name) (hp : h.Fresh password) :
      Effect (.createRobot body) (h.create body password hid)
  | updated (id : Int) (body : RobotUpdate) : Effect (.updateRobot id body) (h.update id body)
  | refreshed (id : Int) (password : GoString) (hp : h.Fresh password) :
      Effect (.refreshSec id) (h.refresh id password)
  | deleted (id : Int) : Effect (.deleteRobot id) (h.delete id)

variable {h}

theorem Serves.effect {call : HarborCall} {r : HarborAnswer call} {h' : Harbor}
    (hs : h.Serves call r h') : h.Effect call h' := by
  cases hs with
  | listRobot => exact .none _
  | createRobot body password hid hname hp => exact .created body password hid hname hp
  | createRobotTaken => exact .none _
  | updateRobot id body => exact .updated id body
  | updateRobotRefused => exact .none _
  | refreshSec id password hr hp => exact .refreshed id password hp
  | refreshSecMissing => exact .none _
  | deleteRobot id => exact .deleted id
  | deleteRobotMissing => exact .none _

theorem Faulty.effect {call : HarborCall} {r : HarborAnswer call} {h' : Harbor}
    (hf : h.Faulty call r h') : h.Effect call h' := by
  cases hf with
  | served _ _ hs => exact hs.effect
  | failed => exact .none _
  | lost _ _ _ _ hs => exact hs.effect

theorem mem_update {id : Int} {body : RobotUpdate} {s : StoredRobot}
    (hs : s ∈ (h.update id body).robots) :
    ∃ r ∈ h.robots, r.id = s.id ∧ s = if r.id = id then updated body r else r := by
  obtain ⟨r, hr, rfl⟩ := List.mem_map.mp hs
  refine ⟨r, hr, ?_, rfl⟩
  split_ifs <;> rfl

theorem mem_refresh {id : Int} {password : GoString} {s : StoredRobot}
    (hs : s ∈ (h.refresh id password).robots) :
    ∃ r ∈ h.robots, r.id = s.id ∧ s = if r.id = id then { r with password := password } else r := by
  obtain ⟨r, hr, rfl⟩ := List.mem_map.mp hs
  refine ⟨r, hr, ?_, rfl⟩
  split_ifs <;> rfl

theorem mem_delete {id : Int} {s : StoredRobot} :
    s ∈ (h.delete id).robots ↔ s ∈ h.robots ∧ s.id ≠ id := by
  simp [delete]

theorem mem_create {body : RobotCreate} {password : GoString} (hid : h.nextId < 2 ^ 63)
    {s : StoredRobot} : s ∈ (h.create body password hid).robots ↔
      s ∈ h.robots ∨ s = h.created body password := by
  simp [create]

/-- A robot after a request: it is new, or it was there before, and unless the request was an
update of it, its description and its flag are as before. -/
theorem Effect.mem {call : HarborCall} {h' : Harbor} (he : h.Effect call h') {s : StoredRobot}
    (hs : s ∈ h'.robots) :
    (∃ r ∈ h.robots, r.id = s.id ∧ r.name = s.name ∧ r.editable = s.editable ∧
      ((s.description = r.description ∧ s.disable = r.disable) ∨
        ∃ body, call = .updateRobot s.id body ∧ s.description = body.description ∧
          s.disable = body.disable)) ∨
    ∃ body, call = .createRobot body ∧ s.id = h.nextId ∧ s.name = body.name ∧
      s.description = body.description ∧ s.disable = false := by
  cases he with
  | none => exact .inl ⟨s, hs, rfl, rfl, rfl, .inl ⟨rfl, rfl⟩⟩
  | created body password hid hname hp =>
    rcases (mem_create hid).mp hs with hs | rfl
    · exact .inl ⟨s, hs, rfl, rfl, rfl, .inl ⟨rfl, rfl⟩⟩
    · exact .inr ⟨body, rfl, rfl, rfl, rfl, rfl⟩
  | updated id body =>
    obtain ⟨r, hr, hid, rfl⟩ := mem_update hs
    refine .inl ⟨r, hr, hid, ?_⟩
    split_ifs with hrid
    · exact ⟨rfl, rfl, .inr ⟨body, hrid ▸ rfl, rfl, rfl⟩⟩
    · exact ⟨rfl, rfl, .inl ⟨rfl, rfl⟩⟩
  | refreshed id password hp =>
    obtain ⟨r, hr, hid, rfl⟩ := mem_refresh hs
    refine .inl ⟨r, hr, hid, ?_⟩
    split_ifs <;> exact ⟨rfl, rfl, .inl ⟨rfl, rfl⟩⟩
  | deleted id => exact .inl ⟨s, (mem_delete.mp hs).1, rfl, rfl, rfl, .inl ⟨rfl, rfl⟩⟩

theorem Effect.nextId_le {call : HarborCall} {h' : Harbor} (he : h.Effect call h') :
    h.nextId ≤ h'.nextId := by
  cases he with
  | created body password hid hname hp => exact Int.le_add_one (le_refl _)
  | _ => exact le_refl _

theorem Effect.robotNamePrefix {call : HarborCall} {h' : Harbor} (he : h.Effect call h') :
    h'.robotNamePrefix = h.robotNamePrefix := by
  cases he <;> rfl

theorem eq_of_id {r s : StoredRobot} (hr : r ∈ h.robots) (hs : s ∈ h.robots) (hid : r.id = s.id) :
    r = s := by
  have hnodup : (h.robots.map (·.id)).Nodup :=
    List.pairwise_map.mpr (h.sorted.imp fun hlt => ne_of_lt hlt)
  exact List.inj_on_of_nodup_map hnodup hr hs hid

/-! ## What an answer tells -/

theorem Faulty.of_listRobot {filter : Option GoString} {idFrom : Int}
    {payload : List (Option HarborRobot)} {h' : Harbor}
    (hf : h.Faulty (.listRobot filter idFrom) (Except.ok payload) h') :
    payload = h.page filter idFrom ∧ h' = h := by
  obtain ⟨r, hr⟩ : ∃ r : HarborAnswer (.listRobot filter idFrom), r = Except.ok payload := ⟨_, rfl⟩
  rw [← hr] at hf
  cases hf with
  | served _ _ hs =>
    cases hs
    exact ⟨(Except.ok.inj hr).symm, rfl⟩
  | failed => cases hr
  | lost => cases hr

theorem Faulty.of_createRobot {body : RobotCreate} {payload : RobotCreated} {h' : Harbor}
    (hf : h.Faulty (.createRobot body) (Except.ok (some payload)) h') :
    ∃ hid, payload.id = h.nextId ∧ h.Fresh payload.secret ∧
      h' = h.create body payload.secret hid := by
  obtain ⟨r, hr⟩ : ∃ r : HarborAnswer (.createRobot body), r = Except.ok (some payload) := ⟨_, rfl⟩
  rw [← hr] at hf
  cases hf with
  | served _ _ hs =>
    cases hs with
    | createRobot _ password hid hname hp =>
      obtain rfl := Option.some.inj (Except.ok.inj hr)
      exact ⟨hid, rfl, hp, rfl⟩
    | createRobotTaken => cases hr
  | failed => cases hr
  | lost => cases hr

theorem Faulty.name_of_createRobot {body : RobotCreate} {payload : RobotCreated} {h' : Harbor}
    (hf : h.Faulty (.createRobot body) (Except.ok (some payload)) h') :
    payload.name = h.robotNamePrefix ++ body.name := by
  obtain ⟨r, hr⟩ : ∃ r : HarborAnswer (.createRobot body), r = Except.ok (some payload) := ⟨_, rfl⟩
  rw [← hr] at hf
  cases hf with
  | served _ _ hs =>
    cases hs with
    | createRobot _ password hid hname hp =>
      obtain rfl := Option.some.inj (Except.ok.inj hr)
      rfl
    | createRobotTaken => cases hr
  | failed => cases hr
  | lost => cases hr

theorem Faulty.of_updateRobot {id : Int} {body : RobotUpdate} {h' : Harbor}
    (hf : h.Faulty (.updateRobot id body) (Except.ok ()) h') : h' = h.update id body := by
  obtain ⟨r, hr⟩ : ∃ r : HarborAnswer (.updateRobot id body), r = Except.ok () := ⟨_, rfl⟩
  rw [← hr] at hf
  cases hf with
  | served _ _ hs =>
    cases hs with
    | updateRobot => rfl
    | updateRobotRefused => cases hr
  | failed => cases hr
  | lost => cases hr

theorem Faulty.of_refreshSec {id : Int} {password : GoString} {h' : Harbor}
    (hf : h.Faulty (.refreshSec id) (Except.ok (some password)) h') :
    h.Fresh password ∧ (∃ r ∈ h.robots, r.id = id) ∧ h' = h.refresh id password := by
  obtain ⟨r, hr⟩ : ∃ r : HarborAnswer (.refreshSec id), r = Except.ok (some password) := ⟨_, rfl⟩
  rw [← hr] at hf
  cases hf with
  | served _ _ hs =>
    cases hs with
    | refreshSec _ _ hrobot hp =>
      obtain rfl := Option.some.inj (Except.ok.inj hr)
      exact ⟨hp, hrobot, rfl⟩
    | refreshSecMissing => cases hr
  | failed => cases hr
  | lost => cases hr

/-- A deletion that succeeds, or that reports that there is no such robot, leaves none. -/
theorem Faulty.of_deleteRobot {id : Int} {r : HarborAnswer (.deleteRobot id)} {h' : Harbor}
    (hf : h.Faulty (.deleteRobot id) r h')
    (hr : r = Except.ok () ∨ ∃ e, r = Except.error e ∧ e.isNotFound = true) :
    ∀ s ∈ h'.robots, s.id ≠ id := by
  have hfail : ∀ e : HarborErr, e.isNotFound = false →
      ¬ (harborFailure (.deleteRobot id) e = Except.ok () ∨
        ∃ e', harborFailure (.deleteRobot id) e = Except.error e' ∧ e'.isNotFound = true) := by
    rintro e he (h | ⟨e', h, he'⟩)
    · cases h
    · obtain rfl := Except.error.inj h
      rw [he] at he'
      cases he'
  cases hf with
  | served _ _ hs =>
    cases hs with
    | deleteRobot => exact fun s hs => (mem_delete.mp hs).2
    | deleteRobotMissing _ hmissing => exact hmissing
  | failed e he => exact absurd hr (hfail e he)
  | lost e he => exact absurd hr (hfail e he)

/-! ## A Harbor that answers -/

def freshPassword (issued : List GoString) : GoString := 112 :: issued.flatten

variable (h)

theorem fresh_freshPassword : h.Fresh (freshPassword h.issued) := by
  refine ⟨List.cons_ne_nil _ _, fun hmem => ?_⟩
  have hle := (List.sublist_flatten_of_mem hmem).length_le
  rw [freshPassword, List.length_cons] at hle
  omega

/-- Harbor processes a creation, or fails it when the ids are used up. -/
def serveCreate (body : RobotCreate) : Except HarborErr (Option RobotCreated) × Harbor :=
  if ∃ r ∈ h.robots, r.name = body.name then (.error (.status 409), h)
  else if hid : h.nextId < 2 ^ 63 then
    let password := freshPassword h.issued
    (.ok (some ⟨h.nextId, h.robotNamePrefix ++ body.name, password⟩), h.create body password hid)
  else (.error (.status 500), h)

def serveUpdate (id : Int) (body : RobotUpdate) : Except HarborErr Unit × Harbor :=
  if ∃ r ∈ h.robots, r.id = id ∧ h.wireName r = body.name then (.ok (), h.update id body)
  else (.error (.status 404), h)

def serveRefresh (id : Int) : Except HarborErr (Option GoString) × Harbor :=
  let password := freshPassword h.issued
  if ∃ r ∈ h.robots, r.id = id then (.ok (some password), h.refresh id password)
  else (.error (.status 404), h)

def serveDelete (id : Int) : Except HarborErr Unit × Harbor :=
  if ∃ r ∈ h.robots, r.id = id then (.ok (), h.delete id) else (.error (.status 404), h)

def serve : (call : HarborCall) → HarborAnswer call × Harbor
  | .listRobot filter idFrom => (Except.ok (h.page filter idFrom), h)
  | .createRobot body => h.serveCreate body
  | .updateRobot id body => h.serveUpdate id body
  | .refreshSec id => h.serveRefresh id
  | .deleteRobot id => h.serveDelete id

/-- Requests are processed, a creation as long as there are ids left. -/
theorem serve_serves (call : HarborCall)
    (hlt : ∀ body, call = .createRobot body → h.nextId < 2 ^ 63) :
    h.Serves call (h.serve call).1 (h.serve call).2 := by
  cases call with
  | listRobot filter idFrom => exact .listRobot filter idFrom
  | createRobot body =>
    change h.Serves (.createRobot body) (h.serveCreate body).1 (h.serveCreate body).2
    unfold serveCreate
    rw [dif_pos (hlt body rfl)]
    split_ifs with hname
    · exact .createRobotTaken body hname
    · exact .createRobot body _ (hlt body rfl) (fun r hr heq => hname ⟨r, hr, heq⟩)
        h.fresh_freshPassword
  | updateRobot id body =>
    change h.Serves (.updateRobot id body) (h.serveUpdate id body).1 (h.serveUpdate id body).2
    unfold serveUpdate
    split_ifs with hrobot
    · obtain ⟨r, hr, hid, hname⟩ := hrobot
      exact .updateRobot id body r hr hid hname
    · exact .updateRobotRefused id body 404
  | refreshSec id =>
    change h.Serves (.refreshSec id) (h.serveRefresh id).1 (h.serveRefresh id).2
    unfold serveRefresh
    dsimp only
    split_ifs with hrobot
    · exact .refreshSec id _ hrobot h.fresh_freshPassword
    · exact .refreshSecMissing id fun r hr heq => hrobot ⟨r, hr, heq⟩
  | deleteRobot id =>
    change h.Serves (.deleteRobot id) (h.serveDelete id).1 (h.serveDelete id).2
    unfold serveDelete
    split_ifs with hrobot
    · exact .deleteRobot id hrobot
    · exact .deleteRobotMissing id fun r hr heq => hrobot ⟨r, hr, heq⟩

theorem serve_faulty (call : HarborCall) : h.Faulty call (h.serve call).1 (h.serve call).2 := by
  cases call with
  | createRobot body =>
    by_cases hlt : h.nextId < 2 ^ 63
    · exact .served _ _ _ (h.serve_serves _ fun _ _ => hlt)
    · change h.Faulty (.createRobot body) (h.serveCreate body).1 (h.serveCreate body).2
      unfold serveCreate
      rw [dif_neg hlt]
      split_ifs with hname
      · exact .served _ _ _ (.createRobotTaken body hname)
      · exact .failed _ (.status 500) rfl
  | _ => exact .served _ _ _ (h.serve_serves _ nofun)

end Harbor

def emptyHarbor : Harbor where
  robotNamePrefix := lit "robot$"
  honoursFilter := true
  robots := []
  nextId := 1
  issued := []
  sorted := by decide
  bounds := by decide
  nextId_pos := by decide
  nextId_le := by decide
  password_issued := by decide

end HarborBridge
