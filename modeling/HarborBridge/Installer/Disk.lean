import HarborBridge.Installer.NodePath

/-!
# The node's files

What is at each clean node path, and how the installer reads it (files.go). Directories are
never symlinks here, so no two paths name one file.
-/

namespace HarborBridge.Installer

open GoStrings

/-- `maxHostFileSize`, the bound of every read of a host file. -/
def maxHostFileSize : Nat := 67108864

structure FileOwner where
  uid : Nat
  gid : Nat
  deriving DecidableEq

/-- A regular file; `mode` are its permission bits and those above them (setuid, setgid,
sticky). -/
structure HostFile where
  data : GoString
  mode : Nat
  owner : FileOwner
  deriving DecidableEq

namespace HostFile

def perm (f : HostFile) : Nat := f.mode % 512

def executable (f : HostFile) : Bool :=
  f.mode % 2 == 1 || f.mode / 8 % 2 == 1 || f.mode / 64 % 2 == 1

end HostFile

inductive Node where
  | file (f : HostFile)
  | dir
  | symlink
  | other
  deriving DecidableEq

/-- What is at each path; a path stands at most once in the list. -/
structure Disk where
  entries : List (GoString × Node)
  nodup : (entries.map Prod.fst).Nodup

/-- Why a host file cannot be read: `fs.ErrNotExist`, or anything else. -/
inductive ReadError where
  | notExist
  | failed
  deriving DecidableEq

namespace Disk

def empty : Disk := ⟨[], by simp⟩

def lookup (d : Disk) (p : GoString) : Option Node := (d.entries.find? fun e => e.1 == p).map (·.2)

def put (d : Disk) (p : GoString) (n : Node) : Disk where
  entries :=
    if p ∈ d.entries.map Prod.fst then d.entries.map fun e => if e.1 = p then (p, n) else e
    else d.entries ++ [(p, n)]
  nodup := by
    split_ifs with h
    · have hkeys : (d.entries.map fun e => if e.1 = p then (p, n) else e).map Prod.fst =
          d.entries.map Prod.fst := by
        rw [List.map_map]
        refine List.map_congr_left fun e _ => ?_
        simp only [Function.comp_apply]
        split_ifs with he
        · exact he.symm
        · rfl
      rw [hkeys]
      exact d.nodup
    · rw [List.map_append, List.nodup_append]
      refine ⟨d.nodup, by simp, ?_⟩
      intro a ha b hb
      simp only [List.map_cons, List.map_nil, List.mem_singleton] at hb
      rintro rfl
      exact h (hb ▸ ha)

def erase (d : Disk) (p : GoString) : Disk where
  entries := d.entries.filter fun e => decide (e.1 ≠ p)
  nodup := d.nodup.sublist (List.Sublist.map _ List.filter_sublist)

theorem lookup_of_mem (d : Disk) {e : GoString × Node} (he : e ∈ d.entries) : d.lookup e.1 = some e.2 := by
  have hfind : ∀ l : List (GoString × Node), (l.map Prod.fst).Nodup → e ∈ l →
      l.find? (fun x => x.1 == e.1) = some e := by
    intro l
    induction l with
    | nil => simp
    | cons x l ih =>
      intro hnodup hmem
      rw [List.map_cons, List.nodup_cons] at hnodup
      rcases List.mem_cons.mp hmem with rfl | hmem
      · simp
      · have hne : x.1 ≠ e.1 := fun heq => hnodup.1 (heq ▸ List.mem_map_of_mem hmem)
        rw [List.find?_cons_of_neg (by simpa using hne)]
        exact ih hnodup.2 hmem
  rw [lookup, hfind d.entries d.nodup he]
  rfl

theorem lookup_eq_none (d : Disk) (p : GoString) : d.lookup p = none ↔ p ∉ d.entries.map Prod.fst := by
  rw [lookup, Option.map_eq_none_iff, List.find?_eq_none]
  constructor
  · intro h hmem
    obtain ⟨e, he, rfl⟩ := List.mem_map.mp hmem
    exact h e he (by simp)
  · intro h e he heq
    exact h (List.mem_map.mpr ⟨e, he, by simpa using heq⟩)

theorem lookup_put_self (d : Disk) (p : GoString) (n : Node) : (d.put p n).lookup p = some n := by
  have hmap : ∀ l : List (GoString × Node), p ∈ l.map Prod.fst →
      (l.map fun e => if e.1 = p then (p, n) else e).find? (fun e => e.1 == p) = some (p, n) := by
    intro l
    induction l with
    | nil => simp
    | cons e l ih =>
      intro hmem
      by_cases he : e.1 = p
      · simp [he]
      · have hmem' : p ∈ l.map Prod.fst := by
          rw [List.map_cons, List.mem_cons] at hmem
          exact hmem.resolve_left fun h => he h.symm
        rw [List.map_cons, if_neg he, List.find?_cons_of_neg (by simpa using he)]
        exact ih hmem'
  simp only [lookup, put]
  by_cases hmem : p ∈ d.entries.map Prod.fst
  · rw [if_pos hmem, hmap d.entries hmem]
    rfl
  · have hnone : d.entries.find? (fun e => e.1 == p) = none := by
      rw [List.find?_eq_none]
      intro e he heq
      exact hmem (List.mem_map.mpr ⟨e, he, by simpa using heq⟩)
    rw [if_neg hmem, List.find?_append, hnone]
    simp

theorem lookup_put_of_ne (d : Disk) {p q : GoString} (hne : q ≠ p) (n : Node) :
    (d.put p n).lookup q = d.lookup q := by
  have hmap : ∀ l : List (GoString × Node),
      (l.map fun e => if e.1 = p then (p, n) else e).find? (fun e => e.1 == q) =
        l.find? (fun e => e.1 == q) := by
    intro l
    induction l with
    | nil => rfl
    | cons e l ih =>
      rw [List.map_cons]
      by_cases he : e.1 = p
      · rw [if_pos he, List.find?_cons_of_neg (by simpa using hne.symm),
          List.find?_cons_of_neg (by simpa [he] using hne.symm), ih]
      · rw [if_neg he, List.find?_cons, List.find?_cons, ih]
  simp only [lookup, put]
  split_ifs
  · rw [hmap]
  · rw [List.find?_append]
    have hlast : [(p, n)].find? (fun e => e.1 == q) = none := by simp [hne.symm]
    rw [hlast, Option.or_none]

theorem lookup_erase (d : Disk) (p q : GoString) :
    (d.erase p).lookup q = if q = p then none else d.lookup q := by
  simp only [lookup, erase]
  rw [List.find?_filter]
  split_ifs with h
  · subst h
    rw [Option.map_eq_none_iff, List.find?_eq_none]
    intro e _
    simp
  · congr 2
    funext e
    by_cases he : e.1 = q
    · simp [he, h]
    · simp [he]

def isDir (d : Disk) (p : GoString) : Bool := p == [47] || d.lookup p == some .dir

/-- Whether something above the path is not a directory. -/
def blocked (d : Disk) (p : GoString) : Bool :=
  (components p).inits.dropLast.any fun above =>
    match d.lookup (47 :: join above 47) with
    | none | some .dir => false
    | some _ => true

/-- `openRegular`: the regular file at the path. -/
def openRegular (d : Disk) (p : GoString) : Except ReadError HostFile :=
  match d.lookup p with
  | some (.file f) => if f.data.length ≤ maxHostFileSize then .ok f else .error .failed
  | some _ => .error .failed
  | none => if d.blocked p then .error .failed else .error .notExist

theorem openRegular_eq_ok {d : Disk} {p : GoString} {f : HostFile} (h : d.openRegular p = .ok f) :
    d.lookup p = some (.file f) := by
  unfold openRegular at h
  split at h
  · rename_i g hg
    split_ifs at h
    cases h
    exact hg
  · cases h
  · split_ifs at h

theorem openRegular_notExist {d : Disk} {p : GoString} (h : d.openRegular p = .error .notExist) :
    d.lookup p = none := by
  unfold openRegular at h
  split at h
  · split_ifs at h
    cases h
  · cases h
  · assumption

def readHostFile (d : Disk) (p : GoString) : Except ReadError GoString :=
  (d.openRegular p).map HostFile.data

theorem readHostFile_eq_ok {d : Disk} {p data : GoString} (h : d.readHostFile p = .ok data) :
    ∃ f, d.lookup p = some (.file f) ∧ f.data = data := by
  unfold readHostFile at h
  cases hopen : d.openRegular p with
  | error e =>
    rw [hopen] at h
    cases h
  | ok f =>
    rw [hopen] at h
    cases h
    exact ⟨f, openRegular_eq_ok hopen, rfl⟩

theorem readHostFile_notExist {d : Disk} {p : GoString} (h : d.readHostFile p = .error .notExist) :
    d.lookup p = none := by
  unfold readHostFile at h
  cases hopen : d.openRegular p with
  | error e =>
    rw [hopen] at h
    cases h
    exact openRegular_notExist hopen
  | ok f =>
    rw [hopen] at h
    cases h

def isHostDir (d : Disk) (p : GoString) : Bool := d.lookup p == some .dir

def isRegularHostFile (d : Disk) (p : GoString) : Bool :=
  match d.lookup p with
  | some (.file _) => true
  | _ => false

def isExecutableHostFile (d : Disk) (p : GoString) : Bool :=
  match d.lookup p with
  | some (.file f) => f.executable
  | _ => false

def children (d : Disk) (dir : GoString) : List (GoString × Node) :=
  d.entries.filterMap fun e =>
    if e.1 ≠ [47] ∧ pathDir e.1 = dir then some (pathBase e.1, e.2) else none

end Disk

end HarborBridge.Installer
