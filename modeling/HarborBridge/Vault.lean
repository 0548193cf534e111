import HarborBridge.SweepObserved

/-! The robot Secret in the apiserver: its versions, and how the calls about it are
answered. -/
namespace HarborBridge

open GoStrings Interaction

/-- The Secret, the versions that were ever stored, and the last resource version. -/
structure Vault where
  secret : Option Secret
  stored : List Secret
  revision : Nat

namespace Vault

/-- A version is stored. A new object gets a UID. -/
def put (v : Vault) (s : Secret) : Vault :=
  let uid := match v.secret with
    | none => formatNat (v.revision + 1)
    | some l => l.uid
  let new := { s with uid := uid, resourceVersion := v.revision + 1 }
  ⟨some new, new :: v.stored, v.revision + 1⟩

def Elsewhere (ns name : GoString) : Call → Prop
  | .readSecret ns' name' => ¬ (ns' = ns ∧ name' = name)
  | .createSecret s => ¬ (s.ns = ns ∧ s.name = name)
  | .updateSecret s => ¬ (s.ns = ns ∧ s.name = name)
  | .deleteSecret s => ¬ (s.ns = ns ∧ s.name = name)
  | _ => False

/-- How a call about the Secret at this name is answered. A write may fail before or after it
took effect, an update carries the resource version of the object that it replaces, and a
deletion its UID. A failure does not claim that the Secret does not exist. -/
inductive Answers (ns name : GoString) (v : Vault) : (call : Call) → Answer call → Vault → Prop
    where
  | read : Answers ns name v (.readSecret ns name) (Kube.found v.secret) v
  | readFailed (e : ApiErr) (he : e ≠ .notFound) :
      Answers ns name v (.readSecret ns name) (Except.error e) v
  | created (s : Secret) (hname : s.ns = ns ∧ s.name = name) (habsent : v.secret = none)
      (r : Except ApiErr Unit) : Answers ns name v (.createSecret s) r (v.put s)
  | createFailed (s : Secret) (e : ApiErr) :
      Answers ns name v (.createSecret s) (Except.error e) v
  | updated (s l : Secret) (hl : v.secret = some l) (hlock : l.resourceVersion = s.resourceVersion)
      (r : Except ApiErr Unit) : Answers ns name v (.updateSecret s) r (v.put s)
  | updateFailed (s : Secret) (e : ApiErr) :
      Answers ns name v (.updateSecret s) (Except.error e) v
  | deleted (s l : Secret) (hl : v.secret = some l) (huid : l.uid = s.uid)
      (r : Except ApiErr Unit) (hr : r ≠ .error .notFound) :
      Answers ns name v (.deleteSecret s) r { v with secret := none }
  | deleteFailed (s : Secret) (e : ApiErr) (he : e = .notFound → v.secret = none) :
      Answers ns name v (.deleteSecret s) (Except.error e) v
  | elsewhere (call : Call) (r : Answer call) (h : Elsewhere ns name call) :
      Answers ns name v call r v

def Tracked : Call → Prop
  | .readSecret _ _ => True
  | .createSecret _ => True
  | .updateSecret _ => True
  | .deleteSecret _ => True
  | _ => False

/-- The versions of the Secret are at its name and have different resource versions, and the
Secret is one of them. -/
structure Ok (ns name : GoString) (v : Vault) : Prop where
  live : ∀ s, v.secret = some s → s ∈ v.stored
  named : ∀ s ∈ v.stored, s.ns = ns ∧ s.name = name ∧ s.resourceVersion ≤ v.revision
  unique : ∀ s ∈ v.stored, ∀ t ∈ v.stored, s.resourceVersion = t.resourceVersion → s = t

/-- What a pass knows of the Secret is so: it read a version that was stored, and as long as
it has not written, the Secret is that version or gone. -/
structure Fits (v : Vault) (k : PassKnows) : Prop where
  version : ∀ s, k.secret = some (some s) → s ∈ v.stored
  still : k.wrote = false → ∀ x, k.secret = some x → v.secret = x ∨ v.secret = none

variable {ns name : GoString} {v v' : Vault}

theorem fits_start (key : ObjectKey) : Fits v (PassKnows.start key) := by
  have hnone : ∀ x : Option Secret, (none : Option (Option Secret)) ≠ some x :=
    fun x => (Option.some_ne_none x).symm
  exact ⟨fun s h => absurd h (hnone _), fun _ x h => absurd h (hnone x)⟩

theorem stored_put (v : Vault) (s : Secret) : ∃ new, (v.put s).secret = some new ∧
    (v.put s).stored = new :: v.stored ∧ new.ns = s.ns ∧ new.name = s.name ∧
    new.labels = s.labels ∧ new.annotations = s.annotations ∧ new.data = s.data ∧
    new.resourceVersion = v.revision + 1 ∧ (v.put s).revision = v.revision + 1 :=
  ⟨_, rfl, rfl, rfl, rfl, rfl, rfl, rfl, rfl, rfl⟩

theorem Ok.put (hv : Ok ns name v) {s : Secret} (hname : s.ns = ns ∧ s.name = name) :
    Ok ns name (v.put s) := by
  obtain ⟨new, hsecret, hstored, hns, hn, -, -, -, hversion, hrevision⟩ := stored_put v s
  have hle : ∀ x ∈ v.stored, x.resourceVersion < new.resourceVersion := by
    intro x hx
    have := (hv.named x hx).2.2
    omega
  constructor
  · intro x hx
    rw [hsecret] at hx
    rw [hstored, ← Option.some.inj hx]
    exact List.mem_cons_self
  · intro x hx
    rw [hstored] at hx
    rcases List.mem_cons.mp hx with rfl | hx
    · exact ⟨hns.trans hname.1, hn.trans hname.2, by omega⟩
    · obtain ⟨hxns, hxname, hxle⟩ := hv.named x hx
      exact ⟨hxns, hxname, by omega⟩
  · intro x hx y hy heq
    rw [hstored] at hx hy
    rcases List.mem_cons.mp hx with hx | hx
    · rcases List.mem_cons.mp hy with hy | hy
      · rw [hx, hy]
      · have hlt := hle y hy
        rw [← heq, hx] at hlt
        omega
    · rcases List.mem_cons.mp hy with hy | hy
      · have hlt := hle x hx
        rw [heq, hy] at hlt
        omega
      · exact hv.unique x hx y hy heq

theorem Ok.delete (hv : Ok ns name v) : Ok ns name { v with secret := none } :=
  ⟨nofun, hv.named, hv.unique⟩

theorem Ok.eq_of_lock (hv : Ok ns name v) {k : PassKnows} (hk : Fits v k) {existing l : Secret}
    (hsecret : k.secret = some (some existing)) (hl : v.secret = some l)
    (hlock : l.resourceVersion = existing.resourceVersion) : l = existing :=
  hv.unique l (hv.live l hl) existing (hk.version existing hsecret) hlock

/-- What a call about the Secret does: nothing, it deletes the Secret, or it stores a version
that the pass was allowed to create or to write over the one that it read. -/
inductive Change (c : Config) (k : PassKnows) (v : Vault) : Vault → Prop where
  | kept : Change c k v v
  | deleted : Change c k v { v with secret := none }
  | created (ha : HarborAccess) (robot : Robot) (password : GoString) (notBefore : Int)
      (hcopy : k.copy = some ha) (hstores : k.Stores ha robot password notBefore)
      (habsent : v.secret = none) :
      Change c k v (v.put (newRobotSecret c ha robot password notBefore))
  | updated (ha : HarborAccess) (robot : Robot) (password : GoString) (notBefore : Int)
      (existing : Secret) (hcopy : k.copy = some ha) (hstores : k.Stores ha robot password notBefore)
      (hsecret : k.secret = some (some existing)) (hlive : v.secret = some existing) :
      Change c k v (v.put (updatedRobotSecret c ha existing robot password notBefore))

theorem Answers.change {c : Config} {k : PassKnows} (hv : Ok ns name v) (hk : Fits v k)
    {call : Call} {r : Answer call} (hallowed : k.Allows c call)
    (hs : v.Answers ns name call r v') : Change c k v v' := by
  cases hs with
  | read => exact .kept
  | readFailed => exact .kept
  | createFailed => exact .kept
  | updateFailed => exact .kept
  | deleteFailed => exact .kept
  | elsewhere => exact .kept
  | deleted => exact .deleted
  | created s hname habsent r =>
    obtain ⟨ha, robot, password, notBefore, hcopy, hstores, rfl⟩ := hallowed
    exact .created ha robot password notBefore hcopy hstores habsent
  | updated s l hl hlock r =>
    obtain ⟨ha, robot, password, notBefore, existing, hcopy, hstores, hsecret, rfl⟩ := hallowed
    have heq : l = existing := hv.eq_of_lock hk hsecret hl hlock
    rw [heq] at hl
    exact .updated ha robot password notBefore existing hcopy hstores hsecret hl

theorem Answers.ok {c : Config} {k : PassKnows} (hv : Ok ns name v) (hk : Fits v k) {call : Call}
    {r : Answer call} (hallowed : k.Allows c call) (hs : v.Answers ns name call r v') :
    Ok ns name v' := by
  cases hs with
  | read => exact hv
  | readFailed => exact hv
  | createFailed => exact hv
  | updateFailed => exact hv
  | deleteFailed => exact hv
  | elsewhere => exact hv
  | deleted => exact hv.delete
  | created s hname habsent r => exact hv.put hname
  | updated s l hl hlock r =>
    obtain ⟨ha, robot, password, notBefore, existing, hcopy, hstores, hsecret, rfl⟩ := hallowed
    obtain ⟨hns, hname, -⟩ := hv.named existing (hk.version existing hsecret)
    exact hv.put ⟨hns, hname⟩

/-- What a pass learns about the Secret of its HarborAccess is so. -/
theorem Answers.fits {c : Config} {k : PassKnows} (hv : Ok ns name v) (hk : Fits v k)
    (hslot : ∀ ha, k.copy = some ha → ns = c.ns ∧ name = RobotSecret.name ha.key.ns ha.key.name)
    {call : Call} {r : Answer call} (hallowed : k.Allows c call)
    (hs : v.Answers ns name call r v') : Fits v' (k.learn c call r) := by
  -- a write leaves the version that was read among those that were stored
  have hwrote : ∀ s k', k'.secret = k.secret → k'.wrote = true → Fits (v.put s) k' := by
    intro s k' hsecret hwrote
    obtain ⟨new, -, hstored, -⟩ := stored_put v s
    constructor
    · intro x hx
      rw [hstored]
      exact List.mem_cons_of_mem _ (hk.version x (hsecret.symm.trans hx))
    · intro h
      rw [hwrote] at h
      cases h
  cases hs with
  | read =>
    obtain ⟨secret, stored, revision⟩ := v
    cases secret with
    | none =>
      refine ⟨fun s h => ?_, fun _ x h => ?_⟩
      · cases Option.some.inj h
      · exact .inl (Option.some.inj h)
    | some s =>
      refine ⟨fun x h => ?_, fun _ x h => ?_⟩
      · obtain rfl := Option.some.inj (Option.some.inj h)
        exact hv.live s rfl
      · exact .inl (Option.some.inj h)
  | readFailed e he =>
    cases e with
    | notFound => exact absurd rfl he
    | _ => exact hk
  | createFailed => exact ⟨hk.version, fun h => absurd (show true = false from h) (by decide)⟩
  | updateFailed => exact ⟨hk.version, fun h => absurd (show true = false from h) (by decide)⟩
  | created s hname habsent r => exact hwrote s _ rfl rfl
  | updated s l hl hlock r => exact hwrote s _ rfl rfl
  | deleted s l hl huid r hr =>
    have hgone : ∀ s : Secret, (some none : Option (Option Secret)) ≠ some (some s) :=
      fun s h => Option.some_ne_none s (Option.some.inj h).symm
    have hlost : ∀ s : Secret, (none : Option (Option Secret)) ≠ some (some s) :=
      fun s => (Option.some_ne_none _).symm
    match r with
    | Except.ok () => exact ⟨fun s h => absurd h (hgone s), fun _ x _ => .inr rfl⟩
    | Except.error .notFound => exact absurd rfl hr
    | Except.error .conflict => exact ⟨fun s h => absurd h (hlost s), fun _ x _ => .inr rfl⟩
    | Except.error .alreadyExists => exact ⟨fun s h => absurd h (hlost s), fun _ x _ => .inr rfl⟩
    | Except.error .other => exact ⟨fun s h => absurd h (hlost s), fun _ x _ => .inr rfl⟩
  | deleteFailed s e he =>
    have hnone : ∀ x : Option Secret, (none : Option (Option Secret)) ≠ some x :=
      fun x => (Option.some_ne_none x).symm
    cases e with
    | notFound =>
      refine ⟨fun s h => ?_, fun _ x _ => .inr (he rfl)⟩
      exact absurd (Option.some.inj h).symm (Option.some_ne_none s)
    | _ => exact ⟨fun s h => absurd h (hnone _), fun _ x h => absurd h (hnone x)⟩
  | elsewhere call r h =>
    cases call with
    | readSecret ns' name' =>
      obtain ⟨ha, hcopy, rfl, rfl, -⟩ := hallowed
      obtain ⟨rfl, rfl⟩ := hslot ha hcopy
      exact absurd ⟨rfl, rfl⟩ h
    | deleteSecret s =>
      obtain ⟨hns, hname, -⟩ := hv.named s (hk.version s hallowed.1)
      exact absurd ⟨hns, hname⟩ h
    | createSecret s => exact ⟨hk.version, fun h => absurd (show true = false from h) (by decide)⟩
    | updateSecret s => exact ⟨hk.version, fun h => absurd (show true = false from h) (by decide)⟩
    | _ => exact h.elim

theorem learn_untracked {c : Config} {k : PassKnows} {call : Call} (hcall : ¬ Tracked call)
    (r : Answer call) : (k.learn c call r).secret = k.secret ∧
      (k.learn c call r).wrote = k.wrote := by
  cases call with
  | harbor request =>
    obtain ⟨-, -, -, -, hsecret, hwrote, -⟩ := k.learn_harbor (c := c) request r
    exact ⟨hsecret, hwrote⟩
  | readSecret | createSecret | updateSecret | deleteSecret => exact absurd trivial hcall
  | getAccess | patchFinalizers | updateStatus =>
    match r with
    | Except.ok s => exact ⟨rfl, rfl⟩
    | Except.error e => exact ⟨rfl, rfl⟩
  | _ => exact ⟨rfl, rfl⟩

theorem Fits.learn_untracked {c : Config} {k : PassKnows} (hk : Fits v k) {call : Call}
    (hcall : ¬ Tracked call) (r : Answer call) : Fits v (k.learn c call r) := by
  obtain ⟨hsecret, hwrote⟩ := Vault.learn_untracked (c := c) (k := k) hcall r
  constructor
  · rw [hsecret]
    exact hk.version
  · rw [hsecret, hwrote]
    exact hk.still

theorem Answers.sweep {c : Config} {k : SweepKnows} {call : Call} {r : Answer call}
    (hallowed : k.Allows c call) (hs : v.Answers ns name call r v') :
    v' = v ∨ v' = { v with secret := none } := by
  cases hs with
  | read => exact .inl rfl
  | readFailed => exact .inl rfl
  | createFailed => exact .inl rfl
  | updateFailed => exact .inl rfl
  | deleteFailed => exact .inl rfl
  | elsewhere => exact .inl rfl
  | deleted => exact .inr rfl
  | created => exact hallowed.elim
  | updated => exact hallowed.elim

theorem Fits.delete {k : PassKnows} (hk : Fits v k) : Fits { v with secret := none } k :=
  ⟨hk.version, fun _ _ _ => .inr rfl⟩

/-! ## What a version records -/

theorem lookup_robotAnnotations (robot : Robot) (notBefore : Int) :
    (robotAnnotations robot notBefore).lookup RobotSecret.annotationRobotID =
      some (RobotSecret.formatRobotID robot.id) ∧
    (robotAnnotations robot notBefore).lookup RobotSecret.annotationRotationNotBefore =
      some (RobotSecret.formatRotationNotBefore notBefore) := by
  unfold robotAnnotations
  constructor
  · rw [Finmap.lookup_insert_of_ne _ (by decide), Finmap.lookup_singleton_eq]
  · rw [Finmap.lookup_insert]

/-- What a Secret with these annotations, over whatever it had, records. -/
theorem records_of_annotations {s : Secret} {robot : Robot} {notBefore : Int} (m : StringMap)
    (h : s.annotations = robotAnnotations robot notBefore ∪ m) :
    RobotSecret.robotID s = parseInt (RobotSecret.formatRobotID robot.id) ∧
      RobotSecret.rotationNotBefore s =
        Rfc3339.parse (RobotSecret.formatRotationNotBefore notBefore) := by
  obtain ⟨hid, hnb⟩ := lookup_robotAnnotations robot notBefore
  unfold RobotSecret.robotID RobotSecret.rotationNotBefore
  rw [h, Finmap.lookup_union_left (Finmap.mem_of_lookup_eq_some hid),
    Finmap.lookup_union_left (Finmap.mem_of_lookup_eq_some hnb), hid, hnb]
  exact ⟨Option.bind_some .., Option.bind_some ..⟩

def newCredentials (robot : Robot) (password : GoString) : Option (GoString × GoString) :=
  if robot.wireName = [] ∨ password = [] then none else some (robot.wireName, password)

theorem credentials_of_data {s : Secret} {robot : Robot} {password : GoString}
    (h : s.data = robotData robot password) :
    RobotSecret.credentials s = newCredentials robot password := by
  have husername : s.data.get RobotSecret.keyUsername = robot.wireName := by
    rw [h, robotData, RobotSecret.get_insert_of_ne _ _ _ _ (by decide)]
    rw [StringMap.get, Finmap.lookup_singleton_eq]
    rfl
  have hpassword : s.data.get RobotSecret.keyPassword = password := by
    rw [h, robotData, RobotSecret.get_insert]
  unfold RobotSecret.credentials newCredentials
  dsimp only
  rw [husername, hpassword]

/-- What a pass stores: the robot's id, the promise, and the new credentials or, without a
new password, those that the Secret had. -/
structure Records (v : Vault) (k : PassKnows) (ha : HarborAccess) (robot : Robot)
    (password : GoString) (notBefore : Int) (new : Secret) : Prop where
  copy : k.copy = some ha
  stores : k.Stores ha robot password notBefore
  robotID : RobotSecret.robotID new = parseInt (RobotSecret.formatRobotID robot.id)
  notBefore : RobotSecret.rotationNotBefore new =
    Rfc3339.parse (RobotSecret.formatRotationNotBefore notBefore)
  credentials : RobotSecret.credentials new = newCredentials robot password ∨
    password = [] ∧ ∃ existing, k.secret = some (some existing) ∧ v.secret = some existing ∧
      RobotSecret.credentials new = RobotSecret.credentials existing

theorem Change.cases {c : Config} {k : PassKnows} (h : Change c k v v') :
    (v'.stored = v.stored ∧ (v'.secret = v.secret ∨ v'.secret = none)) ∨
      ∃ ha robot password notBefore new, Records v k ha robot password notBefore new ∧
        v'.secret = some new ∧ v'.stored = new :: v.stored := by
  cases h with
  | kept => exact .inl ⟨rfl, .inl rfl⟩
  | deleted => exact .inl ⟨rfl, .inr rfl⟩
  | created ha robot password notBefore hcopy hstores habsent =>
    obtain ⟨new, hsecret, hstored, -, -, -, hannotations, hdata, -⟩ :=
      stored_put v (newRobotSecret c ha robot password notBefore)
    have hempty : robotAnnotations robot notBefore ∪ ∅ = robotAnnotations robot notBefore :=
      Finmap.union_empty
    have hrecords := records_of_annotations (s := new) ∅ (hannotations.trans hempty.symm)
    exact .inr ⟨ha, robot, password, notBefore, new, ⟨hcopy, hstores, hrecords.1, hrecords.2,
      .inl (credentials_of_data hdata)⟩, hsecret, hstored⟩
  | updated ha robot password notBefore existing hcopy hstores hknown hlive =>
    obtain ⟨new, hsecret, hstored, -, -, -, hannotations, hdata, -⟩ :=
      stored_put v (updatedRobotSecret c ha existing robot password notBefore)
    have hrecords := records_of_annotations existing.annotations hannotations
    refine .inr ⟨ha, robot, password, notBefore, new, ⟨hcopy, hstores, hrecords.1, hrecords.2,
      ?_⟩, hsecret, hstored⟩
    change new.data = (if password = [] then existing.data else robotData robot password) at hdata
    split_ifs at hdata with hempty
    · refine .inr ⟨hempty, existing, hknown, hlive, ?_⟩
      unfold RobotSecret.credentials
      rw [hdata]
    · exact .inl (credentials_of_data hdata)

/-! ## A store that answers -/

def serveRead (v : Vault) (ns name ns' name' : GoString) : Except ApiErr Secret :=
  if ns' = ns ∧ name' = name then Kube.found v.secret else .error .other

def serveCreate (v : Vault) (ns name : GoString) (s : Secret) : Except ApiErr Unit × Vault :=
  if (s.ns = ns ∧ s.name = name) ∧ v.secret = none then (.ok (), v.put s)
  else (.error .alreadyExists, v)

def serveUpdate (v : Vault) (s : Secret) : Except ApiErr Unit × Vault :=
  match v.secret with
  | none => (.error .notFound, v)
  | some l =>
    if l.resourceVersion = s.resourceVersion then (.ok (), v.put s) else (.error .conflict, v)

def serveDelete (v : Vault) (s : Secret) : Except ApiErr Unit × Vault :=
  match v.secret with
  | none => (.error .notFound, v)
  | some l => if l.uid = s.uid then (.ok (), { v with secret := none }) else (.error .conflict, v)

theorem serveRead_answers (ns name ns' name' : GoString) (v : Vault) :
    v.Answers ns name (.readSecret ns' name') (v.serveRead ns name ns' name') v := by
  unfold serveRead
  split_ifs with hname
  · obtain ⟨rfl, rfl⟩ := hname
    exact .read
  · exact .elsewhere _ _ hname

theorem serveCreate_answers (ns name : GoString) (v : Vault) (s : Secret) :
    v.Answers ns name (.createSecret s) (v.serveCreate ns name s).1 (v.serveCreate ns name s).2 := by
  unfold serveCreate
  split_ifs with h
  · exact .created s h.1 h.2 _
  · exact .createFailed s _

theorem serveUpdate_answers (ns name : GoString) (v : Vault) (s : Secret) :
    v.Answers ns name (.updateSecret s) (v.serveUpdate s).1 (v.serveUpdate s).2 := by
  unfold serveUpdate
  split
  · exact .updateFailed s _
  · next l hl =>
    split_ifs with hlock
    · exact .updated s l hl hlock _
    · exact .updateFailed s _

theorem serveDelete_answers (ns name : GoString) (v : Vault) (s : Secret) :
    v.Answers ns name (.deleteSecret s) (v.serveDelete s).1 (v.serveDelete s).2 := by
  unfold serveDelete
  split
  · next hnone => exact .deleteFailed s _ fun _ => hnone
  · next l hl =>
    split_ifs with huid
    · exact .deleted s l hl huid _ nofun
    · exact .deleteFailed s _ nofun

end Vault

end HarborBridge
