import HarborBridge.Lib.Program
import HarborBridge.Installer.ProviderConfig
import HarborBridge.Installer.Settings
import HarborBridge.Installer.UnitEnv

/-!
# What an install pass asks of the node

Package main of the installer: the effects of a pass, one call each, and on top of them the
writes of files.go and the locks of lock.go. A file is replaced in one call, the rename that ends
`replaceFile`.
-/

namespace HarborBridge.Installer

open GoStrings Interaction

/-- The files of the container that a pass copies to the node. -/
inductive Source where
  | config
  | plugin
  | ca
  | clientCert
  | clientKey
  deriving DecidableEq

inductive Role where
  | config
  | environment
  | binary
  | record
  | aux
  | state
  | backup
  | directory
  deriving DecidableEq

inductive Act where
  /-- The directory and what is missing above it. -/
  | mkdir (dir : GoString)
  | lock (p : GoString)
  | replace (r : Role) (p : GoString) (f : HostFile)
  | chmod (r : Role) (p : GoString) (mode : Nat)
  | remove (r : Role) (p : GoString)
  /-- `ensureWritableDir`. -/
  | probe (dir : GoString)
  | restart
  /-- `waitKubeletHealthy`, with the wiring the running kubelet must have. -/
  | healthy (want : Option Wiring)
  deriving DecidableEq

inductive NodeCall where
  | source (s : Source)
  /-- A read; the answer is what the node holds then. -/
  | look (r : Role) (p : GoString)
  /-- The read of the file that a write is about to replace. -/
  | compare (r : Role) (p : GoString)
  | unlock (p : GoString)
  /-- The command line of the one kubelet process of the node, `findKubelet`. -/
  | cmdline
  /-- What `kubeletIdentity` hashes, none when it cannot tell. -/
  | identity
  | environment
  | act (a : Act)
  deriving DecidableEq

abbrev NodeCall.Answer : NodeCall → Type
  | source _ => Except ReadError GoString
  | look _ _ | compare _ _ => Disk
  | unlock _ => Unit
  | cmdline => Option (List GoString)
  | identity => Option (List GoString)
  | environment => Option UnitEnvironment
  | act _ => Bool

/-- Why a pass refuses to go on. -/
inductive Refusal where
  | noRendered
  | nodeIP (e : NodeIPError)
  | document (e : DocumentError)
  | entry (problems : List EntryProblem)
  | lock (p : GoString)
  | noKubelet
  | flags
  | notWired
  | rewire (others : List GoString)
  | overlap
  | insideConfigDir
  | directory
  | missingConfig
  | environment (e : EnvSelectError)
  | extraArgs (file : GoString) (e : EnvFileError)
  | startProblems (problems : List StartProblem)
  | rejected
  | foreignBinary (dst : GoString)
  deriving DecidableEq

inductive Err where
  | refused (r : Refusal)
  /-- A file operation that failed. -/
  | failed (p : GoString)
  /-- A systemctl call that failed. -/
  | systemctl
  /-- A kubelet restart that failed or did not verify. -/
  | unverified
  deriving DecidableEq

abbrev NodeProg := Prog NodeCall NodeCall.Answer

abbrev Pass := ExceptT Err NodeProg

def refuse {α : Type} (r : Refusal) : Pass α := throw (.refused r)

def ask (c : NodeCall) : Pass c.Answer := ExceptT.lift (Prog.ask c)

/-- Go on only after an act that succeeds. -/
def attempt (a : Act) (e : Err) : Pass Unit := do
  let ok ← ask (.act a)
  if ok then pure () else throw e

def onlyIf (b : Bool) (p : Pass Unit) : Pass Unit := if b then p else pure ()

def mkdir (dir : GoString) : Pass Unit := attempt (.mkdir dir) (.failed dir)

def replaceFile (r : Role) (p : GoString) (f : HostFile) : Pass Unit :=
  attempt (.replace r p f) (.failed p)

/-- An error of `d` as an error of the pass. -/
def orRefuse {ε α : Type} (f : ε → Refusal) : Except ε α → Pass α
  | .ok a => pure a
  | .error e => refuse (f e)

theorem wp_ask {W : Type} {S : Setting NodeCall NodeCall.Answer W} {c : NodeCall}
    {Q : Except Err c.Answer → W → Prop} {w : W} (hmay : S.may w c)
    (h : ∀ r w', S.sem w c r w' → Q (.ok r) w') : (ask c).run.Wp S Q w := ⟨hmay, h⟩

theorem wp_attempt {W : Type} {S : Setting NodeCall NodeCall.Answer W} {a : Act} {e : Err}
    {Q : Except Err Unit → W → Prop} {w : W} (hmay : S.may w (.act a))
    (hok : ∀ w', S.sem w (.act a) true w' → Q (.ok ()) w')
    (hfail : ∀ w', S.sem w (.act a) false w' → Q (.error e) w') : (attempt a e).run.Wp S Q w := by
  refine ⟨hmay, fun ok w' hsem => ?_⟩
  cases ok with
  | true => exact hok w' hsem
  | false => exact hfail w' hsem

/-- Whatever the node answers, the pass goes on with such values only. -/
def Yields {α : Type} (Q : α → Prop) (p : Pass α) : Prop := p.run.Returns fun r => ∀ a, r = .ok a → Q a

section

variable {α β : Type}

theorem yields_pure {Q : α → Prop} {a : α} (h : Q a) : Yields Q (pure a : Pass α) := by
  intro b hb
  cases hb
  exact h

theorem yields_throw {Q : α → Prop} (e : Err) : Yields Q (throw e : Pass α) := by
  intro b hb
  cases hb

theorem yields_bind {P : α → Prop} {Q : β → Prop} {p : Pass α} {f : α → Pass β} (hp : Yields P p)
    (hf : ∀ a, P a → Yields Q (f a)) : Yields Q (p >>= f) := by
  refine Prog.returns_bind hp fun r hr => ?_
  cases r with
  | ok a => exact hf a (hr a rfl)
  | error e => exact yields_throw e

/-- The values of the first part do not matter. -/
theorem yields_seq {Q : β → Prop} {p : Pass α} {f : α → Pass β} (hf : ∀ a, Yields Q (f a)) :
    Yields Q (p >>= f) :=
  yields_bind (P := fun _ => True) (Prog.returns_mono (fun _ _ _ _ => trivial) _ (Prog.returns_true _))
    fun a _ => hf a

theorem yields_orRefuse {ε : Type} (f : ε → Refusal) (r : Except ε α) :
    Yields (fun a => r = .ok a) (orRefuse f r) := by
  cases r with
  | ok a => exact yields_pure rfl
  | error e => exact yields_throw _

end

/-! ## files.go -/

/-- The permission bits and the owner a written file gets; the installer's own without one. -/
structure FileMeta where
  perm : Nat
  owner : Option FileOwner

def root : FileOwner := ⟨0, 0⟩

def FileMeta.file (m : FileMeta) (data : GoString) : HostFile := ⟨data, m.perm, m.owner.getD root⟩

def backupSuffix : GoString := lit ".bak"

/-- The content as the file at the path, with the metadata `m` returns for the file that is
there. Whether the content changed. -/
def writeIn (r : Role) (p data : GoString) (m : Option HostFile → FileMeta) : Pass Bool := do
  let d ← ask (.compare r p)
  match d.openRegular p with
  | .error .failed => throw (.failed p)
  | .error .notExist => do
    replaceFile r p ((m none).file data)
    return true
  | .ok f =>
    if f.data = data then do
      onlyIf (f.mode ≠ (m (some f)).perm) (attempt (.chmod r p (m (some f)).perm) (.failed p))
      return false
    else do
      replaceFile .backup (p ++ backupSuffix) ((m (some f)).file f.data)
      replaceFile r p ((m (some f)).file data)
      return true

/-- A file of the installer's own. -/
def writeFileIn (r : Role) (p data : GoString) (perm : Nat) : Pass Bool :=
  writeIn r p data fun _ => ⟨perm, none⟩

def writeFileAtomic (r : Role) (p data : GoString) (perm : Nat) : Pass Bool := do
  mkdir (pathDir p)
  writeFileIn r p data perm

def foreignFileMode : Nat := 0o644

/-- A file of the node's keeps its owner and at most its permissions. -/
def foreignMeta : Option HostFile → FileMeta
  | none => ⟨foreignFileMode, none⟩
  | some f => ⟨f.perm &&& foreignFileMode, some f.owner⟩

def writeForeignIn (r : Role) (p data : GoString) : Pass Bool := writeIn r p data foreignMeta

def writeForeignFile (r : Role) (p data : GoString) : Pass Bool := do
  mkdir (pathDir p)
  writeForeignIn r p data

def priorIn (d : Disk) (p : GoString) : Pass (Option HostFile) :=
  match d.openRegular p with
  | .ok f => pure (some f)
  | .error .notExist => pure none
  | .error .failed => throw (.failed p)

/-- The file as the pass finds it before its own write, none when it is missing. -/
def readPrior (r : Role) (p : GoString) : Pass (Option HostFile) := do
  let d ← ask (.look r p)
  priorIn d p

def removeRegularIn (r : Role) (p : GoString) : Pass Unit := do
  let d ← ask (.compare r p)
  match d.lookup p with
  | none => return ()
  | some (.file _) => attempt (.remove r p) (.failed p)
  | some _ => throw (.failed p)

/-- The file back as the pass found it: content, permission bits and owner. -/
def restoreIn (r : Role) (p : GoString) : Option HostFile → Pass Unit
  | some f => do
    let _ ← writeIn r p f.data fun _ => ⟨f.perm, some f.owner⟩
    return ()
  | none => removeRegularIn r p

def copyFileIn (r : Role) (s : Source) (p : GoString) (perm : Nat) : Pass Bool := do
  match ← ask (.source s) with
  | .error _ => throw (.failed p)
  | .ok data => writeFileIn r p data perm

def copyFile (r : Role) (s : Source) (p : GoString) (perm : Nat) : Pass Bool := do
  match ← ask (.source s) with
  | .error _ => throw (.failed p)
  | .ok data => writeFileAtomic r p data perm

/-! ## lock.go -/

def nodeLockPath : GoString := lit "/run/harbor-bridge-installer.lock"

def lockSuffix : GoString := lit ".lock"

/-- The rest of a pass under a lock, which it gives back at its end whatever it returns. -/
def locked {α : Type} (p : GoString) (body : Pass α) : Pass α := do
  attempt (.lock p) (.refused (.lock p))
  ExceptT.mk (do
    let r ← body.run
    let _ ← Prog.ask (NodeCall.unlock p)
    return r)

/-- The chart-owned config that a patch- or none-mode install keeps at kubelet's config path. -/
def chartOwnedPathIn (d : Disk) (configPath : GoString) : GoString :=
  if d.isHostDir configPath then pathJoin configPath configFileName else configPath

def configLockPath (d : Disk) (configPath : GoString) : GoString :=
  chartOwnedPathIn d configPath ++ lockSuffix

/-- A config lock, in a directory that is created when it is missing. -/
def lockConfig {α : Type} (lockPath : GoString) (body : Pass α) : Pass α := do
  mkdir (pathDir lockPath)
  locked lockPath body

end HarborBridge.Installer
