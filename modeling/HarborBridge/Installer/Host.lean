import HarborBridge.Installer.Run

/-!
# The node under an install pass

What each call of a pass does to the node. An operation can fail, before or after it took effect;
a file is replaced or not, never in part. Whoever waits for a lock gets an answer once the lock
is free or the wait timed out.
-/

namespace HarborBridge.Installer

open GoStrings Interaction

namespace Disk

/-- Directories were created, and nothing else happened. -/
def Mkdirs (d d' : Disk) : Prop :=
  ∀ p, d'.lookup p = d.lookup p ∨ d.lookup p = none ∧ d'.lookup p = some .dir

/-- A lock file is created when it is missing. -/
def Locks (d : Disk) (p : GoString) (d' : Disk) : Prop :=
  d' = d ∨ d.lookup p = none ∧ d' = d.put p (.file ⟨[], 0o600, root⟩)

def file (d : Disk) (p : GoString) : Option HostFile :=
  match d.lookup p with
  | some (.file f) => some f
  | _ => none

/-- What an act does to the files of the node, and whether it succeeds. -/
inductive Acts (d : Disk) : Act → Bool → Disk → Prop where
  | mkdir (dir : GoString) (ok : Bool) (d' : Disk) (h : Mkdirs d d') (hdir : ok = true → d'.isDir dir = true) :
      Acts d (.mkdir dir) ok d'
  | probe (dir : GoString) (ok : Bool) (d' : Disk) (h : Mkdirs d d') (hdir : ok = true → d'.isDir dir = true) :
      Acts d (.probe dir) ok d'
  | lock (p : GoString) (ok : Bool) (d' : Disk) (h : Locks d p d') : Acts d (.lock p) ok d'
  | replace (r : Role) (p : GoString) (f : HostFile) (ok : Bool) (hdir : d.isDir p = false) :
      Acts d (.replace r p f) ok (d.put p (.file f))
  | chmod (r : Role) (p : GoString) (f : HostFile) (mode : Nat) (ok : Bool) (h : d.lookup p = some (.file f)) :
      Acts d (.chmod r p mode) ok (d.put p (.file { f with mode := mode }))
  | remove (r : Role) (p : GoString) (f : HostFile) (ok : Bool) (h : d.lookup p = some (.file f)) :
      Acts d (.remove r p) ok (d.erase p)
  /-- A failure that left everything as it was. -/
  | fails (a : Act) : Acts d a false d
  | restart (ok : Bool) : Acts d .restart ok d
  | healthy (want : Option Wiring) (ok : Bool) : Acts d (.healthy want) ok d

end Disk

structure Host where
  disk : Disk
  /-- The files of the container. -/
  sources : Source → Except ReadError GoString
  /-- The command line of the running kubelet. -/
  cmdline : Option (List GoString)
  /-- Where systemd takes the environment of the kubelet unit from. -/
  environment : Option UnitEnvironment
  identity : Option (List GoString)
  /-- What the node held when the installer last started kubelet. -/
  started : Option Disk

namespace Host

/-- What the calls of a pass may answer and what they leave. `launches d c` says that kubelet, started
while the node holds `d`, may then run with the command line `c`, or not run. -/
inductive Sem (launches : Disk → Option (List GoString) → Prop) :
    Host → (c : NodeCall) → c.Answer → Host → Prop where
  | source (h : Host) (s : Source) : Sem launches h (.source s) (h.sources s) h
  | look (h : Host) (r : Role) (p : GoString) : Sem launches h (.look r p) h.disk h
  | compare (h : Host) (r : Role) (p : GoString) : Sem launches h (.compare r p) h.disk h
  | unlock (h : Host) (p : GoString) : Sem launches h (.unlock p) () h
  | cmdline (h : Host) : Sem launches h .cmdline h.cmdline h
  | identity (h : Host) (parts : Option (List GoString)) (hparts : parts = none ∨ parts = h.identity) :
      Sem launches h .identity parts h
  | environment (h : Host) (env : Option UnitEnvironment) (henv : env = none ∨ env = h.environment) :
      Sem launches h .environment env h
  | act (h : Host) (a : Act) (ok : Bool) (d : Disk) (hact : h.disk.Acts a ok d) (ha : a ≠ .restart)
      (hwell : ∀ want, a = .healthy want → ok = true → ∃ argv, h.cmdline = some argv ∧
        ∀ w, want = some w → wiringOf argv = w) :
      Sem launches h (.act a) ok { h with disk := d }
  | restart (h : Host) (ok : Bool) (c : Option (List GoString)) (hc : launches h.disk c) :
      Sem launches h (.act .restart) ok { h with cmdline := c, started := some h.disk }
  /-- systemctl failed before it started kubelet. -/
  | restartFails (h : Host) : Sem launches h (.act .restart) false h

end Host

end HarborBridge.Installer
