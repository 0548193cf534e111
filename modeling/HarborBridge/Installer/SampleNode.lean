import HarborBridge.Installer.Host
import HarborBridge.Installer.PlainLibrary

/-!
# A node to run the installer on

A node on which every act succeeds that can, to evaluate passes with.
-/

namespace HarborBridge.Installer

open GoStrings Interaction

/-- Whether an act succeeds, and what it leaves; kubelet is never restarted. -/
def Act.tried (d : Disk) : Act → Bool × Disk
  | .mkdir dir | .probe dir => if d.lookup dir = none then (true, d.put dir .dir) else (d.isDir dir, d)
  | .lock p => (true, if d.lookup p = none then d.put p (.file ⟨[], 0o600, root⟩) else d)
  | .replace _ p f =>
    if d.isDir p = false ∧ f.data.length ≤ maxHostFileSize then (true, d.put p (.file f)) else (false, d)
  | .chmod _ p mode =>
    match d.lookup p with
    | some (.file f) => (true, d.put p (.file { f with mode := mode }))
    | _ => (false, d)
  | .remove _ p =>
    match d.lookup p with
    | some (.file _) => (true, d.erase p)
    | _ => (false, d)
  | .restart | .healthy _ => (false, d)

theorem acts_tried (d : Disk) (a : Act) : d.Acts a (a.tried d).1 (a.tried d).2 := by
  have hput : ∀ dir, d.lookup dir = none → Disk.Mkdirs d (d.put dir .dir) ∧ (d.put dir .dir).isDir dir = true := by
    intro dir hdir
    refine ⟨fun p => ?_, by rw [Disk.isDir, d.lookup_put_self]; simp⟩
    by_cases hp : p = dir
    · exact .inr ⟨hp ▸ hdir, by rw [hp, d.lookup_put_self]⟩
    · exact .inl (d.lookup_put_of_ne hp _)
  cases a with
  | mkdir dir =>
    unfold Act.tried
    dsimp only
    split_ifs with h
    · exact .mkdir dir true _ (hput dir h).1 fun _ => (hput dir h).2
    · exact .mkdir dir _ d (fun _ => .inl rfl) id
  | probe dir =>
    unfold Act.tried
    dsimp only
    split_ifs with h
    · exact .probe dir true _ (hput dir h).1 fun _ => (hput dir h).2
    · exact .probe dir _ d (fun _ => .inl rfl) id
  | lock p =>
    refine .lock p true _ ?_
    unfold Act.tried
    dsimp only
    split_ifs with h
    · exact .inr ⟨h, rfl⟩
    · exact .inl rfl
  | replace r p f =>
    unfold Act.tried
    dsimp only
    split_ifs with h
    · exact .replace r p f true h.1
    · exact .fails _
  | chmod r p mode =>
    unfold Act.tried
    dsimp only
    split
    · exact .chmod r p _ mode true ‹_›
    · exact .fails _
  | remove r p =>
    unfold Act.tried
    dsimp only
    split
    · exact .remove r p _ true ‹_›
    · exact .fails _
  | restart => exact .fails _
  | healthy want => exact .fails _

/-- The answers of such a node to an installer whose container has these files. -/
def Host.serve (sources : Source → Except ReadError GoString) (h : Host) : (c : NodeCall) → c.Answer × Host
  | .source s => (sources s, h)
  | .look _ _ => (h.disk, h)
  | .compare _ _ => (h.disk, h)
  | .unlock _ => ((), h)
  | .cmdline => (h.cmdline, h)
  | .identity => (none, h)
  | .environment => (none, h)
  | .act a => ((a.tried h.disk).1, { h with disk := (a.tried h.disk).2 })

theorem Host.sem_serve (launches : Disk → Option (List GoString) → Prop) (h : Host) (c : NodeCall) :
    Host.Sem launches h c (h.serve h.sources c).1 (h.serve h.sources c).2 := by
  cases c with
  | source s => exact .source h s
  | look r p => exact .look h r p
  | compare r p => exact .compare h r p
  | unlock p => exact .unlock h p
  | cmdline => exact .cmdline h
  | identity => exact .identity h none (.inl rfl)
  | environment => exact .environment h none (.inl rfl)
  | act a =>
    cases a with
    | restart => exact .restartFails h
    | healthy want => exact .act h _ false _ (acts_tried _ _) (fun ha => by cases ha) fun _ _ hok => by cases hok
    | _ => exact .act h _ _ _ (acts_tried _ _) (fun ha => by cases ha) fun _ ha => by cases ha

def sampleSources (rendered : GoString) : Source → Except ReadError GoString
  | .config => .ok rendered
  | _ => .ok (lit "p")

def sampleHost (d : Disk) : Host where
  disk := d
  sources _ := .error .failed
  cmdline := none
  environment := none
  identity := none
  started := none

end HarborBridge.Installer
