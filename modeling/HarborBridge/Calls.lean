import HarborBridge.Client
import HarborBridge.Rotation

/-! What the control plane of a bridge asks of Harbor, of the apiserver and of the clock. -/
namespace HarborBridge

open GoStrings Interaction

/-- The calls of the control plane. The copy of a HarborAccess that `getAccess` returns may
be an old one; `readAccess`, `listAccess` and `readSecret` ask the apiserver. A patch of the
finalizers and a status update carry the resource version of the copy that they start from,
and the deletion of a Secret its UID. -/
inductive Call where
  | harbor (call : HarborCall)
  | getAccess (key : ObjectKey)
  | readAccess (ns name : GoString)
  | listAccess
  | patchFinalizers (ha : HarborAccess) (finalizers : List GoString)
  | updateStatus (ha : HarborAccess)
  | readSecret (ns name : GoString)
  | listSecrets (ns : GoString) (matchingLabels : StringMap)
  | createSecret (s : Secret)
  | updateSecret (s : Secret)
  | deleteSecret (s : Secret)
  | now
  | logRotation (robotName : GoString) (reason : RotationReason)

/-- The answers. A patch and a status update return the object as it is then. -/
def Answer : Call → Type
  | .harbor call => HarborAnswer call
  | .getAccess _ => Except ApiErr HarborAccess
  | .readAccess _ _ => Except ApiErr HarborAccess
  | .listAccess => Except ApiErr (List HarborAccess)
  | .patchFinalizers _ _ => Except ApiErr HarborAccess
  | .updateStatus _ => Except ApiErr HarborAccess
  | .readSecret _ _ => Except ApiErr Secret
  | .listSecrets _ _ => Except ApiErr (List Secret)
  | .createSecret _ => Except ApiErr Unit
  | .updateSecret _ => Except ApiErr Unit
  | .deleteSecret _ => Except ApiErr Unit
  | .now => Int
  | .logRotation _ _ => Unit

/-- The answer is about the object that was asked for. -/
def RightObject : (call : Call) → Answer call → Prop
  | .getAccess key, (r : Except ApiErr HarborAccess) => ∀ ha, r = .ok ha → ha.key = key
  | .patchFinalizers ha _, (r : Except ApiErr HarborAccess) => ∀ ha', r = .ok ha' → ha'.key = ha.key
  | .updateStatus ha, (r : Except ApiErr HarborAccess) => ∀ ha', r = .ok ha' → ha'.key = ha.key
  | _, _ => True

abbrev BridgeProg := Prog Call Answer

/-- A request of the Harbor client, made by the control plane. -/
def onHarbor {α : Type} (p : HarborProg α) : BridgeProg α := p.relabel Call.harbor fun _ r => r

/-- A setting of the control plane as the Harbor client sees it. -/
def harborPart {W : Type} (S : Setting Call Answer W) : Setting HarborCall HarborAnswer W where
  sem w call r w' := S.sem w (.harbor call) r w'
  may w call := S.may w (.harbor call)

theorem wp_onHarbor {W α : Type} {S : Setting Call Answer W} {p : HarborProg α}
    {Q : α → W → Prop} {w : W} (h : p.Wp (harborPart S) Q w) : (onHarbor p).Wp S Q w := by
  induction p generalizing w with
  | ret a => exact h
  | call e k ih => exact ⟨h.1, fun r w' hs => ih r (h.2 r w' hs)⟩

namespace Kube

/-- How a read of an object is answered. -/
def found {α : Type} : Option α → Except ApiErr α
  | none => .error .notFound
  | some a => .ok a

/-! The methods of the clients of the apiserver. -/

def getAccess (key : ObjectKey) : BridgeProg (Except ApiErr HarborAccess) :=
  Prog.ask (Call.getAccess key)

def readAccess (ns name : GoString) : BridgeProg (Except ApiErr HarborAccess) :=
  Prog.ask (Call.readAccess ns name)

def listAccess : BridgeProg (Except ApiErr (List HarborAccess)) := Prog.ask Call.listAccess

def patchFinalizers (ha : HarborAccess) (finalizers : List GoString) :
    BridgeProg (Except ApiErr HarborAccess) := Prog.ask (Call.patchFinalizers ha finalizers)

def updateStatus (ha : HarborAccess) : BridgeProg (Except ApiErr HarborAccess) :=
  Prog.ask (Call.updateStatus ha)

def readSecret (ns name : GoString) : BridgeProg (Except ApiErr Secret) :=
  Prog.ask (Call.readSecret ns name)

def listSecrets (ns : GoString) (matchingLabels : StringMap) :
    BridgeProg (Except ApiErr (List Secret)) := Prog.ask (Call.listSecrets ns matchingLabels)

def createSecret (s : Secret) : BridgeProg (Except ApiErr Unit) := Prog.ask (Call.createSecret s)

def updateSecret (s : Secret) : BridgeProg (Except ApiErr Unit) := Prog.ask (Call.updateSecret s)

def deleteSecret (s : Secret) : BridgeProg (Except ApiErr Unit) := Prog.ask (Call.deleteSecret s)

end Kube

def clockNow : BridgeProg Int := Prog.ask Call.now

def logRotation (robotName : GoString) (reason : RotationReason) : BridgeProg Unit :=
  Prog.ask (Call.logRotation robotName reason)

/-! ## An apiserver with one HarborAccess -/

def sampleGet (key : ObjectKey) : Except ApiErr HarborAccess :=
  if key = sampleKey then .ok (sampleAccess sampleKey ⟨lit "team", lit "app"⟩)
  else .error .notFound

/-- The apiserver shows `sampleAccess` and no Secret, and takes every write. -/
def sampleAnswer (harbor : (call : HarborCall) → HarborAnswer call) : (call : Call) → Answer call
  | .harbor call => harbor call
  | .getAccess key => sampleGet key
  | .patchFinalizers ha finalizers => Except.ok { ha with finalizers := finalizers }
  | .updateStatus ha => Except.ok ha
  | .readAccess _ _ => Except.error .notFound
  | .listAccess => Except.ok [sampleAccess sampleKey ⟨lit "team", lit "app"⟩]
  | .readSecret _ _ => Except.error .notFound
  | .listSecrets _ _ => Except.ok []
  | .createSecret _ => Except.ok ()
  | .updateSecret _ => Except.ok ()
  | .deleteSecret _ => Except.ok ()
  | .now => (0 : Int)
  | .logRotation _ _ => ()

theorem sampleAnswer_rightObject (harbor : (call : HarborCall) → HarborAnswer call) (call : Call) :
    RightObject call (sampleAnswer harbor call) := by
  cases call with
  | getAccess key =>
    intro ha h
    simp only [sampleAnswer, sampleGet] at h
    split_ifs at h with hkey
    rw [← Except.ok.inj h, hkey]
    rfl
  | patchFinalizers ha finalizers =>
    intro ha' h
    rw [← Except.ok.inj h]
  | updateStatus ha =>
    intro ha' h
    rw [← Except.ok.inj h]
  | _ => trivial

end HarborBridge
