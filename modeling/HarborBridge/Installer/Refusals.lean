import HarborBridge.Installer.Footprint
import HarborBridge.Installer.SampleNode

/-!
# Refused passes

Package main of the installer, run.go: what can refuse a pass runs before the pass writes
anything, so a refused pass leaves the node as it found it. The exception is a pass that other
installs keep on the old directories: it stages its files in the new ones when it is done on the
old, and what it meets there can still refuse it.
-/

namespace HarborBridge.Installer

open GoStrings Document Interaction

/-! ## Passes that write nothing, and passes that are not refused -/

def NodeCall.touches : NodeCall → Bool
  | .act (.replace _ _ _) | .act (.chmod _ _ _) | .act (.remove _ _) | .act .restart => true
  | _ => false

def NodeCall.locksOnly : NodeCall → Prop
  | .act (.lock p) => hasSuffix p lockSuffix = true
  | _ => True

section

variable {α β : Type}

end

/-! ## The writes of a pass are not refused -/

section

variable {L : Library} {cfg : Config}

end

/-! ## The node after a refusal -/

/-- Nothing is different but for new directories and new lock files. -/
structure Untouched (h h' : Host) : Prop where
  files : ∀ p, h'.disk.lookup p = h.disk.lookup p ∨ h.disk.lookup p = none ∧
    (h'.disk.lookup p = some .dir ∨
      hasSuffix p lockSuffix = true ∧ h'.disk.lookup p = some (.file ⟨[], 0o600, root⟩))
  cmdline : h'.cmdline = h.cmdline
  started : h'.started = h.started

section

variable {launches : Disk → Option (List GoString) → Prop} {h w w' : Host}

theorem Untouched.refl (h : Host) : Untouched h h := ⟨fun _ => .inl rfl, rfl, rfl⟩

theorem Untouched.missing (hw : Untouched h w) {p : GoString} (hp : w.disk.lookup p = none) :
    h.disk.lookup p = none := by
  rcases hw.files p with heq | ⟨hnone, -⟩
  · rw [← heq, hp]
  · exact hnone

theorem Untouched.mkdirs (hw : Untouched h w) {d : Disk} (hd : Disk.Mkdirs w.disk d) :
    Untouched h { w with disk := d } := by
  refine ⟨fun p => ?_, hw.cmdline, hw.started⟩
  rcases hd p with heq | ⟨hnone, hdir⟩
  · have hfiles := hw.files p
    rwa [← heq] at hfiles
  · exact .inr ⟨hw.missing hnone, .inl hdir⟩

theorem Untouched.locks (hw : Untouched h w) {d : Disk} {q : GoString} (hq : hasSuffix q lockSuffix = true)
    (hd : w.disk.Locks q d) : Untouched h { w with disk := d } := by
  rcases hd with rfl | ⟨hnone, rfl⟩
  · exact hw
  · refine ⟨fun p => ?_, hw.cmdline, hw.started⟩
    by_cases hpq : p = q
    · subst hpq
      exact .inr ⟨hw.missing hnone, .inr ⟨hq, Disk.lookup_put_self _ _ _⟩⟩
    · have hfiles := hw.files p
      rwa [← w.disk.lookup_put_of_ne hpq] at hfiles

theorem Untouched.step {c : NodeCall} {r : c.Answer} (hw : Untouched h w) (hsem : Host.Sem launches w c r w')
    (htouches : c.touches = false) (hlocks : c.locksOnly) : Untouched h w' := by
  cases hsem with
  | act a ok d hact ha hwell =>
    cases hact with
    | mkdir dir _ _ hd _ => exact hw.mkdirs hd
    | probe dir _ _ hd _ => exact hw.mkdirs hd
    | lock q _ _ hd => exact hw.locks hlocks hd
    | replace => cases htouches
    | chmod => cases htouches
    | remove => cases htouches
    | fails => exact hw
    | restart => exact hw
    | healthy => exact hw
  | restart => cases htouches
  | restartFails => cases htouches
  | _ => exact hw

/-! ## Passes on a node -/

variable {α β : Type}

variable (launches) (L : Library) (cfg : Config)

variable {launches L cfg}

end

/-! ## A staging that is refused too late -/

end HarborBridge.Installer
