import HarborBridge.Janitor
import HarborBridge.Harbor
import HarborBridge.DataPlane

/-! A cluster with its Harbor: the objects that the apiserver stores, and how it answers the
calls of a bridge when no call fails. -/
namespace HarborBridge

open GoStrings Interaction

/-- The HarborAccess objects and the Secrets that the apiserver stores, the robots of Harbor,
the last resource version and the clock. -/
structure Site where
  harbor : Harbor
  accesses : List HarborAccess
  secrets : List Secret
  revision : Nat
  clock : Int

namespace Site

variable (w : Site)

def access (ns name : GoString) : Option HarborAccess :=
  w.accesses.find? fun ha => ha.key.ns = ns ∧ ha.key.name = name

def secret (ns name : GoString) : Option Secret :=
  w.secrets.find? fun s => s.ns = ns ∧ s.name = name

def putAccess (key : ObjectKey) (new : Option HarborAccess) : Site :=
  { w with
    accesses := w.accesses.filterMap fun ha => if ha.key = key then new else some ha
    revision := w.revision + 1 }

/-- A write of a HarborAccess, which carries the resource version of a copy. An object that
is being deleted goes with its last finalizer. -/
def writeAccess (copy : HarborAccess) (change : HarborAccess → HarborAccess) :
    Except ApiErr HarborAccess × Site :=
  match w.access copy.key.ns copy.key.name with
  | none => (.error .notFound, w)
  | some l =>
    if l.resourceVersion = copy.resourceVersion then
      let new := { change l with key := l.key, resourceVersion := w.revision + 1 }
      (.ok new, w.putAccess l.key (if new.deleting ∧ new.finalizers = [] then none else some new))
    else (.error .conflict, w)

def putSecret (ns name : GoString) (new : Option Secret) : Site :=
  { w with
    secrets := w.secrets.filterMap fun s => if s.ns = ns ∧ s.name = name then new else some s
    revision := w.revision + 1 }

def createSecret (s : Secret) : Except ApiErr Unit × Site :=
  match w.secret s.ns s.name with
  | some _ => (.error .alreadyExists, w)
  | none =>
    (.ok (), { w with
      secrets := w.secrets ++
        [{ s with uid := formatNat (w.revision + 1), resourceVersion := w.revision + 1 }]
      revision := w.revision + 1 })

def updateSecret (s : Secret) : Except ApiErr Unit × Site :=
  match w.secret s.ns s.name with
  | none => (.error .notFound, w)
  | some l =>
    if l.resourceVersion = s.resourceVersion then
      (.ok (), w.putSecret s.ns s.name
        (some { s with uid := l.uid, resourceVersion := w.revision + 1 }))
    else (.error .conflict, w)

/-- A deletion is for the object with the UID. -/
def deleteSecret (s : Secret) : Except ApiErr Unit × Site :=
  match w.secret s.ns s.name with
  | none => (.error .notFound, w)
  | some l => if l.uid = s.uid then (.ok (), w.putSecret s.ns s.name none) else (.error .conflict, w)

def hasLabels (labels : StringMap) (s : Secret) : Bool := labels ∪ s.labels = s.labels

/-- What the apiserver answers and stores. -/
def serve : (call : Call) → Answer call × Site
  | .harbor call => ((w.harbor.serve call).1, { w with harbor := (w.harbor.serve call).2 })
  | .getAccess key => (Kube.found (w.access key.ns key.name), w)
  | .readAccess ns name => (Kube.found (w.access ns name), w)
  | .listAccess => (Except.ok w.accesses, w)
  | .patchFinalizers ha finalizers => w.writeAccess ha fun l => { l with finalizers := finalizers }
  | .updateStatus ha => w.writeAccess ha fun l => { l with status := ha.status }
  | .readSecret ns name => (Kube.found (w.secret ns name), w)
  | .listSecrets ns labels => (Except.ok (w.secrets.filter fun s => s.ns = ns ∧ hasLabels labels s), w)
  | .createSecret s => w.createSecret s
  | .updateSecret s => w.updateSecret s
  | .deleteSecret s => w.deleteSecret s
  | .now => (w.clock, w)
  | .logRotation _ _ => ((), w)

theorem harbor_serve {call : Call} (hharbor : ∀ request, call ≠ .harbor request) :
    (w.serve call).2.harbor = w.harbor := by
  cases call with
  | harbor request => exact absurd rfl (hharbor request)
  | patchFinalizers | updateStatus =>
    simp only [serve, writeAccess]
    split <;> (try split) <;> rfl
  | createSecret | updateSecret | deleteSecret =>
    simp only [serve, createSecret, updateSecret, deleteSecret]
    split <;> (try split) <;> rfl
  | _ => rfl

/-- No call fails: Harbor processes each request, the apiserver answers as it stores, and the
clock does not go back. -/
inductive Serves : (call : Call) → Answer call → Site → Prop where
  | harbor (call : HarborCall) (r : HarborAnswer call) (h : Harbor) (hs : w.harbor.Serves call r h) :
      Serves (.harbor call) r { w with harbor := h }
  | now (t : Int) (hle : w.clock ≤ t) : Serves .now t { w with clock := t }
  | kube (call : Call) (hharbor : ∀ request, call ≠ .harbor request) (hnow : call ≠ .now) :
      Serves call (w.serve call).1 (w.serve call).2

variable {w} in
theorem Serves.nextId_le {call : Call} {r : Answer call} {w' : Site} (hs : w.Serves call r w') :
    w'.harbor.nextId ≤ w.harbor.nextId + 1 := by
  cases hs with
  | harbor request _ h hs =>
    have he := hs.effect
    cases he <;> simp [Harbor.create, Harbor.update, Harbor.refresh, Harbor.delete, Harbor.modify]
  | now => simp
  | kube call hharbor hnow =>
    rw [w.harbor_serve hharbor]
    omega

theorem serve_serves (hid : w.harbor.nextId < 2 ^ 63) (call : Call) :
    w.Serves call (w.serve call).1 (w.serve call).2 := by
  cases call with
  | harbor request => exact .harbor request _ _ (w.harbor.serve_serves request fun _ _ => hid)
  | now => exact .now w.clock le_rfl
  | _ => exact .kube _ nofun nofun

/-- A run against the servers is one in which no call fails, as long as Harbor has ids left. -/
theorem wp_exec {α : Type} {may : Site → Call → Prop} (Q : α → Site → Prop) (p : BridgeProg α)
    (hid : w.harbor.nextId + p.calls serve w ≤ 2 ^ 63)
    (hp : p.Wp ⟨fun w call r w' => w.Serves call r w', may⟩ Q w) :
    Q (p.exec serve w).1 (p.exec serve w).2 := by
  refine Prog.wp_exec_within serve (fun n w => w.harbor.nextId + n ≤ 2 ^ 63) (fun n w call h => ?_)
    Q p w hid hp
  have hlt : w.harbor.nextId < 2 ^ 63 := by
    push_cast at h
    omega
  refine ⟨w.serve_serves hlt call, ?_⟩
  have hnext := (w.serve_serves hlt call).nextId_le
  push_cast at h ⊢
  omega

end Site

/-! ## Calls that fail -/

/-- The answer is an error, and not the one that says that something does not exist. -/
def Failed : (call : Call) → Answer call → Prop
  | .getAccess _, (r : Except ApiErr HarborAccess) => ∃ e, e ≠ .notFound ∧ r = .error e
  | .readAccess _ _, (r : Except ApiErr HarborAccess) => ∃ e, e ≠ .notFound ∧ r = .error e
  | .listAccess, (r : Except ApiErr (List HarborAccess)) => ∃ e, e ≠ .notFound ∧ r = .error e
  | .patchFinalizers _ _, (r : Except ApiErr HarborAccess) => ∃ e, e ≠ .notFound ∧ r = .error e
  | .updateStatus _, (r : Except ApiErr HarborAccess) => ∃ e, e ≠ .notFound ∧ r = .error e
  | .readSecret _ _, (r : Except ApiErr Secret) => ∃ e, e ≠ .notFound ∧ r = .error e
  | .listSecrets _ _, (r : Except ApiErr (List Secret)) => ∃ e, e ≠ .notFound ∧ r = .error e
  | .createSecret _, (r : Except ApiErr Unit) => ∃ e, e ≠ .notFound ∧ r = .error e
  | .updateSecret _, (r : Except ApiErr Unit) => ∃ e, e ≠ .notFound ∧ r = .error e
  | .deleteSecret _, (r : Except ApiErr Unit) => ∃ e, e ≠ .notFound ∧ r = .error e
  | .harbor _, _ => False
  | .now, _ => False
  | .logRotation _ _, _ => False

namespace Site

/-- A call is answered, or it fails, before or after it took effect. -/
inductive Faulty (w : Site) : (call : Call) → Answer call → Site → Prop where
  | harbor (call : HarborCall) (r : HarborAnswer call) (h : Harbor) (hf : w.harbor.Faulty call r h) :
      Faulty w (.harbor call) r { w with harbor := h }
  | now (t : Int) (hle : w.clock ≤ t) : Faulty w .now t { w with clock := t }
  | served (call : Call) (hharbor : ∀ request, call ≠ .harbor request) (hnow : call ≠ .now) :
      Faulty w call (w.serve call).1 (w.serve call).2
  | failed (call : Call) (r : Answer call) (hr : Failed call r) : Faulty w call r w
  | lost (call : Call) (r : Answer call) (hr : Failed call r) : Faulty w call r (w.serve call).2

section

variable {w : Site}

/-- The apiserver's answer came through, or an error did. -/
theorem Faulty.kube {call : Call} {r : Answer call} {w' : Site} (hf : w.Faulty call r w')
    (hharbor : ∀ request, call ≠ .harbor request) (hnow : call ≠ .now) :
    (r = (w.serve call).1 ∧ w' = (w.serve call).2) ∨
      Failed call r ∧ (w' = w ∨ w' = (w.serve call).2) := by
  cases hf with
  | harbor request => exact absurd rfl (hharbor request)
  | now => exact absurd rfl hnow
  | served => exact .inl ⟨rfl, rfl⟩
  | failed _ _ hr => exact .inr ⟨hr, .inl rfl⟩
  | lost _ _ hr => exact .inr ⟨hr, .inr rfl⟩

theorem Faulty.of_harbor {request : HarborCall} {r : HarborAnswer request} {w' : Site}
    (hf : w.Faulty (.harbor request) r w') :
    ∃ h, w' = { w with harbor := h } ∧ w.harbor.Faulty request r h := by
  cases hf with
  | harbor _ _ h hf => exact ⟨h, rfl, hf⟩
  | served _ hharbor => exact absurd rfl (hharbor request)
  | failed _ _ hr => exact hr.elim
  | lost _ _ hr => exact hr.elim

theorem Faulty.effect {call : Call} {r : Answer call} {w' : Site} (hf : w.Faulty call r w')
    (hharbor : ∀ request, call ≠ .harbor request) (hnow : call ≠ .now) :
    w' = w ∨ w' = (w.serve call).2 := by
  rcases hf.kube hharbor hnow with ⟨-, hserved⟩ | ⟨-, h⟩
  · exact .inr hserved
  · exact h

end

theorem serve_faulty (w : Site) (call : Call) : w.Faulty call (w.serve call).1 (w.serve call).2 := by
  cases call with
  | harbor request => exact .harbor request _ _ (w.harbor.serve_faulty request)
  | now => exact .now w.clock le_rfl
  | _ => exact .served _ nofun nofun

variable (w : Site)

/-- The data plane of the bridge, when its caches have caught up. -/
def handler (c : Config) (validate : GoString → Except ValidateErr Claims) : Handler where
  config := ⟨c.ns, true, c.audience, some (robotUsername c)⟩
  allow := true
  validate := validate
  harborAccesses := .ok w.accesses
  getSecret ns name := Kube.found (w.secret ns name)
  now := w.clock

end Site

end HarborBridge
