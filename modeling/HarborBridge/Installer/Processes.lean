import HarborBridge.Lib.GoText
import HarborBridge.Installer.Host

/-!
# The kubelet among the processes of the node

Package main of the installer, discover.go: the process that a pass takes for the kubelet of the
node. Every process of the node shows under /proc, those of pods with it, and a pod chooses the
name, the command line and the time of death of its processes.
-/

namespace HarborBridge.Installer

open GoStrings GoText

/-! ## discover.go -/

/-- A directory of /proc as its files are read, none where a read fails. -/
structure ProcEntry where
  name : GoString
  comm : Option GoString
  stat : Option GoString
  cgroup : Option GoString
  /-- The target of the link ns/mnt. -/
  mnt : Option GoString
  cmdline : Option GoString
  deriving DecidableEq

structure ProcRoot where
  /-- os.ReadDir, none on an error. -/
  entries : Option (List ProcEntry)
  /-- The link ns/mnt of process 1. -/
  hostMnt : Option GoString

/-- What follows the last `sep` in the text. -/
def afterLast (sep : UInt8) : GoString → Option GoString
  | [] => none
  | b :: s =>
    match afterLast sep s with
    | some rest => some rest
    | none => if b = sep then some s else none

inductive PPIDError where
  | read
  | malformed
  | ppid (field : GoString)
  deriving DecidableEq

/-- The parent in the content of a stat file, whose name of the process is in parentheses. -/
def readPPID (stat : Option GoString) : Except PPIDError Int :=
  match stat with
  | none => .error .read
  | some raw =>
    match afterLast 41 raw with
    | none => .error .malformed
    | some rest =>
      match fields rest with
      | _ :: field :: _ =>
        match parseInt field with
        | some ppid => .ok ppid
        | none => .error (.ppid field)
      | _ => .error .malformed

/-- The arguments in the content of a cmdline file. -/
def splitCmdline (raw : GoString) : List GoString :=
  (split (trimRight raw [0]) 0).filter fun part => decide (part ≠ [])

/-- Why a process of kubelet's name is not the kubelet of the node. -/
inductive NotKubelet where
  | stat (e : PPIDError)
  | parent (ppid : Int)
  | cgroup
  | pod
  | mount
  deriving DecidableEq

inductive Verdict where
  | ignored
  | rejected (pid : Int) (why : NotKubelet)
  | found (pid : Int) (cmdline : List GoString)
  deriving DecidableEq

/-- One turn of the loop of `findKubelet`. -/
def judge (hostMnt : GoString) (e : ProcEntry) : Verdict :=
  match parseInt e.name with
  | none => .ignored
  | some pid =>
    if e.comm.map trimSpace ≠ some (lit "kubelet") then .ignored
    else
      match readPPID e.stat with
      | .error err => .rejected pid (.stat err)
      | .ok ppid =>
        if ppid ≠ 1 then .rejected pid (.parent ppid)
        else
          match e.cgroup with
          | none => .rejected pid .cgroup
          | some cg =>
            if contains cg (lit "kubepods") then .rejected pid .pod
            else if e.mnt ≠ some hostMnt then .rejected pid .mount
            else
              match e.cmdline with
              | none => .ignored
              | some raw => if splitCmdline raw = [] then .ignored else .found pid (splitCmdline raw)

namespace Verdict

def found? : Verdict → Option (Int × List GoString)
  | found pid cmdline => some (pid, cmdline)
  | _ => none

def rejected? : Verdict → Option (Int × NotKubelet)
  | rejected pid why => some (pid, why)
  | _ => none

end Verdict

inductive FindError where
  | procRoot
  | hostMnt
  | missing (rejected : List (Int × NotKubelet))
  | several (pids : List Int)
  deriving DecidableEq

/-- The process id and the command line of the kubelet of the node. -/
def findKubelet (root : ProcRoot) : Except FindError (Int × List GoString) :=
  match root.entries with
  | none => .error .procRoot
  | some entries =>
    match root.hostMnt with
    | none => .error .hostMnt
    | some hostMnt =>
      let verdicts := entries.map (judge hostMnt)
      match verdicts.filterMap Verdict.found? with
      | [] => .error (.missing (verdicts.filterMap Verdict.rejected?))
      | [kubelet] => .ok kubelet
      | found => .error (.several (found.map Prod.fst))

/-! ## The texts of the kernel -/

theorem afterLast_eq_none {sep : UInt8} {s : GoString} (h : sep ∉ s) : afterLast sep s = none := by
  induction s with
  | nil => rfl
  | cons b s ih =>
    rw [List.mem_cons, not_or] at h
    simp [afterLast, ih h.2, Ne.symm h.1]

theorem afterLast_append (sep : UInt8) (a : GoString) {s : GoString} (h : sep ∉ s) :
    afterLast sep (a ++ sep :: s) = some s := by
  induction a with
  | nil => simp [afterLast, afterLast_eq_none h]
  | cons b a ih => simp [afterLast, ih]

theorem fields_space (s : GoString) : fields (32 :: s) = fields s := by
  have hspace : spaceLen wideSpaces (32 :: s) = 1 := by simp [spaceLen, asciiSpace]
  simp only [fields, fieldsFrom, hspace]
  rfl

theorem word_formatNat (n : Nat) : Word (formatNat n) := by
  intro b hb
  have hdigit := List.all_eq_true.mp (formatNat_isDigit n) b hb
  simp only [isDigit, Bool.and_eq_true, decide_eq_true_eq, UInt8.le_iff_toNat_le] at hdigit
  obtain ⟨hlow, hhigh⟩ := hdigit
  constructor
  · apply UInt8.lt_iff_toNat_lt.mpr
    exact Nat.lt_of_lt_of_le (by decide) hlow
  · apply UInt8.lt_iff_toNat_lt.mpr
    exact Nat.lt_of_le_of_lt hhigh (by decide)

/-- A process as the kernel has it. All of it is the process's own choice but the ids, the cgroup
and the namespace. -/
structure Task where
  pid : Nat
  comm : GoString
  state : UInt8
  ppid : Nat
  /-- The numbers of the stat file after the parent. -/
  counters : GoString
  cgroup : GoString
  mntNs : Nat
  cmdline : GoString
  pid_small : pid < 2 ^ 22
  ppid_small : ppid < 2 ^ 22
  state_letter : 65 ≤ state ∧ state ≤ 122
  counters_plain : 41 ∉ counters

namespace Task

variable (t : Task)

def statText (name : GoString) : GoString :=
  formatNat t.pid ++ lit " (" ++ name ++ 41 :: 32 :: t.state :: 32 :: (formatNat t.ppid ++ 32 :: t.counters)

def mntText (ns : Nat) : GoString := lit "mnt:[" ++ formatNat ns ++ lit "]"

def entry : ProcEntry where
  name := formatNat t.pid
  comm := some (t.comm ++ [10])
  stat := some (t.statText t.comm)
  cgroup := some t.cgroup
  mnt := some (mntText t.mntNs)
  cmdline := some t.cmdline

/-- What a pass may read of the process: any of the files can be gone, and the process can have
another name by the time its stat file is read. -/
structure Shows (e : ProcEntry) : Prop where
  name : e.name = formatNat t.pid
  comm : ∀ text, e.comm = some text → text = t.comm ++ [10]
  stat : ∀ text, e.stat = some text → ∃ name, text = t.statText name
  cgroup : ∀ text, e.cgroup = some text → text = t.cgroup
  mnt : ∀ text, e.mnt = some text → text = mntText t.mntNs
  cmdline : ∀ text, e.cmdline = some text → text = t.cmdline

theorem shows_entry : t.Shows t.entry where
  name := rfl
  comm _ h := (Option.some.inj h).symm
  stat _ h := ⟨t.comm, (Option.some.inj h).symm⟩
  cgroup _ h := (Option.some.inj h).symm
  mnt _ h := (Option.some.inj h).symm
  cmdline _ h := (Option.some.inj h).symm

theorem mntText_injective : Function.Injective mntText := by
  intro m n h
  have hdigits : formatNat m = formatNat n := List.append_cancel_left (List.append_cancel_right h)
  rw [← digitsValue_formatNat m, hdigits, digitsValue_formatNat]

theorem parseInt_small {n : Nat} (h : n < 2 ^ 22) : parseInt (formatNat n) = some (n : Int) := by
  have hformat : formatInt (n : Int) = formatNat n := by simp [formatInt]
  rw [← hformat]
  apply parseInt_formatInt
  constructor
  · have : (0 : Int) ≤ n := Int.natCast_nonneg n
    omega
  · omega

/-- Whatever the process calls itself, parentheses and spaces included, the parent that is read is
the one the kernel wrote. -/
theorem readPPID_statText (name : GoString) : readPPID (some (t.statText name)) = .ok (t.ppid : Int) := by
  have hletter : Word [t.state] := by
    intro b hb
    rw [List.mem_singleton.mp hb]
    obtain ⟨hlow, hhigh⟩ := t.state_letter
    exact ⟨lt_of_lt_of_le (by decide) hlow, lt_of_le_of_lt hhigh (by decide)⟩
  -- no parenthesis follows the name, so the last one of the line is the one that ends it
  have hclosed : (41 : UInt8) ∉ 32 :: t.state :: 32 :: (formatNat t.ppid ++ 32 :: t.counters) := by
    have hstate : (41 : UInt8) ≠ t.state := by
      intro h
      exact absurd (h ▸ t.state_letter.1) (by decide)
    have hdigits : (41 : UInt8) ∉ formatNat t.ppid := by
      intro h
      exact absurd (List.all_eq_true.mp (formatNat_isDigit _) _ h) (by decide)
    simp [hstate, hdigits, t.counters_plain]
  have hfields : fields (32 :: t.state :: 32 :: (formatNat t.ppid ++ 32 :: t.counters)) =
      [t.state] :: formatNat t.ppid :: fields t.counters := by
    rw [fields_space]
    have hstate := fields_word_space [t.state] (formatNat t.ppid ++ 32 :: t.counters) hletter (by simp)
    rw [List.singleton_append] at hstate
    rw [hstate, fields_word_space _ _ (word_formatNat _) (formatNat_ne_nil _)]
  unfold readPPID statText
  dsimp only
  rw [afterLast_append 41 _ hclosed]
  dsimp only
  rw [hfields]
  dsimp only
  rw [parseInt_small t.ppid_small]

/-- The kubelet of the node: a child of init, outside the pods' cgroups and in the mount namespace
of init. -/
def HostKubelet (initNs : Nat) : Prop :=
  trimSpace (t.comm ++ [10]) = lit "kubelet" ∧ t.ppid = 1 ∧ contains t.cgroup (lit "kubepods") = false ∧
    t.mntNs = initNs ∧ splitCmdline t.cmdline ≠ []

instance (initNs : Nat) : Decidable (t.HostKubelet initNs) := inferInstanceAs (Decidable (_ ∧ _))

/-- The content of the cmdline file of a process that left its arguments as they were. -/
def cmdlineText (argv : List GoString) : GoString := argv.flatMap fun arg => arg ++ [0]

end Task

/-! ## Command lines -/

/-- Only empty parts stand behind trailing separators. -/
theorem splitCmdline_eq (raw : GoString) :
    splitCmdline raw = (split raw 0).filter fun part => decide (part ≠ []) := by
  unfold splitCmdline trimRight
  induction raw using List.reverseRecOn with
  | nil => rfl
  | append_singleton s b ih =>
    rw [List.rdropWhile_concat]
    split_ifs with hb
    · obtain rfl : b = 0 := by simpa using hb
      have hsplit : split (s ++ [0]) 0 = split s 0 ++ [[]] := List.splitOn_append_cons_self ..
      rw [ih, hsplit, List.filter_append]
      simp
    · rfl

/-- The arguments that a process was started with are read back, but for empty ones. -/
theorem splitCmdline_cmdlineText {argv : List GoString} (h : ∀ arg ∈ argv, 0 ∉ arg) :
    splitCmdline (Task.cmdlineText argv) = argv.filter fun arg => decide (arg ≠ []) := by
  have hsplit : split (Task.cmdlineText argv) 0 = argv ++ [[]] := by
    induction argv with
    | nil => rfl
    | cons arg argv ih =>
      have hcons : Task.cmdlineText (arg :: argv) = arg ++ 0 :: Task.cmdlineText argv := by
        simp [Task.cmdlineText]
      have harg : split arg 0 = [arg] := List.splitOn_eq_singleton (h arg List.mem_cons_self)
      have happend : split (arg ++ 0 :: Task.cmdlineText argv) 0 = split arg 0 ++ split (Task.cmdlineText argv) 0 :=
        List.splitOn_append_cons_self ..
      rw [hcons, happend, harg, ih fun a ha => h a (List.mem_cons_of_mem arg ha)]
      rfl
  rw [splitCmdline_eq, hsplit, List.filter_append]
  simp

/-! ## The verdict on one process -/

/-- Everything that a process must pass to be found. -/
theorem judge_eq_found {hostMnt : GoString} {e : ProcEntry} {pid : Int} {argv : List GoString} :
    judge hostMnt e = .found pid argv ↔
      parseInt e.name = some pid ∧ e.comm.map trimSpace = some (lit "kubelet") ∧ readPPID e.stat = .ok 1 ∧
        (∃ cg, e.cgroup = some cg ∧ contains cg (lit "kubepods") = false) ∧ e.mnt = some hostMnt ∧
        ∃ raw, e.cmdline = some raw ∧ splitCmdline raw = argv ∧ argv ≠ [] := by
  constructor
  · intro h
    unfold judge at h
    split at h
    · cases h
    next pid' hpid =>
    obtain ⟨hcomm, h⟩ := of_ite_eq (by simp) h
    split at h
    · cases h
    next ppid hppid =>
    obtain ⟨hparent, h⟩ := of_ite_eq (by simp) h
    split at h
    · cases h
    next cg hcg =>
    obtain ⟨hpod, h⟩ := of_ite_eq (by simp) h
    obtain ⟨hmnt, h⟩ := of_ite_eq (by simp) h
    split at h
    · cases h
    next raw hraw =>
    obtain ⟨hargs, h⟩ := of_ite_eq (by simp) h
    cases h
    rw [not_not] at hcomm hparent hmnt
    exact ⟨hpid, hcomm, hparent ▸ hppid, ⟨cg, hcg, by simpa using hpod⟩, hmnt, raw, hraw, rfl, hargs⟩
  · rintro ⟨hpid, hcomm, hppid, ⟨cg, hcg, hpod⟩, hmnt, raw, hraw, rfl, hargs⟩
    unfold judge
    simp only [hpid, hcomm, hppid, hcg, hpod, hmnt, hraw, hargs, ne_eq, not_true_eq_false, if_false,
      Bool.false_eq_true]

theorem judge_of_not_number {hostMnt : GoString} {e : ProcEntry} (h : parseInt e.name = none) :
    judge hostMnt e = .ignored := by
  unfold judge
  rw [h]

theorem found?_eq_some {v : Verdict} {x : Int × List GoString} :
    v.found? = some x ↔ v = .found x.1 x.2 := by
  cases v with
  | ignored => simp [Verdict.found?]
  | rejected pid why => simp [Verdict.found?]
  | found pid argv => simp [Verdict.found?, Prod.ext_iff]

/-- A process is found only when it is the kubelet of the node. -/
theorem Task.Shows.hostKubelet {t : Task} {e : ProcEntry} {initNs : Nat} {pid : Int} {argv : List GoString}
    (hshows : t.Shows e) (h : judge (Task.mntText initNs) e = .found pid argv) :
    t.HostKubelet initNs ∧ pid = t.pid ∧ argv = splitCmdline t.cmdline := by
  obtain ⟨hpid, hcomm, hppid, ⟨cg, hcg, hpod⟩, hmnt, raw, hraw, rfl, hargs⟩ := judge_eq_found.mp h
  obtain ⟨comm, hcommRead, hname⟩ := Option.map_eq_some_iff.mp hcomm
  rw [hshows.name, Task.parseInt_small t.pid_small] at hpid
  obtain rfl := hshows.comm comm hcommRead
  obtain rfl := hshows.cgroup cg hcg
  obtain rfl := hshows.cmdline raw hraw
  have hparent : t.ppid = 1 := by
    cases hstat : e.stat with
    | none =>
      rw [hstat] at hppid
      cases hppid
    | some text =>
      obtain ⟨name, rfl⟩ := hshows.stat text hstat
      rw [hstat, t.readPPID_statText] at hppid
      exact_mod_cast Except.ok.inj hppid
  have hns := Task.mntText_injective (hshows.mnt _ hmnt)
  exact ⟨⟨hname, hparent, hpod, hns.symm, hargs⟩, (Option.some.inj hpid).symm, rfl⟩

/-- And a kubelet of the node that can be read is found. -/
theorem judge_entry (initNs : Nat) (t : Task) : (judge (Task.mntText initNs) t.entry).found? =
    if t.HostKubelet initNs then some ((t.pid : Int), splitCmdline t.cmdline) else none := by
  split_ifs with h
  · obtain ⟨hname, hparent, hpod, hns, hargs⟩ := h
    apply found?_eq_some.mpr
    apply judge_eq_found.mpr
    refine ⟨Task.parseInt_small t.pid_small, congrArg some hname, ?_, ⟨_, rfl, hpod⟩, ?_, _, rfl, rfl, hargs⟩
    · rw [Task.entry, t.readPPID_statText, hparent]
      rfl
    · rw [Task.entry, hns]
  · cases hfound : (judge (Task.mntText initNs) t.entry).found? with
    | none => rfl
    | some x => exact absurd (t.shows_entry.hostKubelet (found?_eq_some.mp hfound)).1 h

/-! ## The whole table -/

def only {α : Type} : List α → Option α
  | [a] => some a
  | _ => none

theorem only_perm {α : Type} {l l' : List α} (h : l.Perm l') : only l = only l' := by
  have hlen := h.length_eq
  rcases l with _ | ⟨a, _ | ⟨b, l⟩⟩
  · rw [h.nil_eq]
  · rw [List.singleton_perm.mp h]
  · rcases l' with _ | ⟨a', _ | ⟨b', l'⟩⟩
    · cases hlen
    · simp at hlen
    · rfl

theorem mem_of_only {α : Type} {l : List α} {a : α} (h : only l = some a) : a ∈ l := by
  rcases l with _ | ⟨b, _ | ⟨c, l⟩⟩
  · cases h
  · rw [Option.some.inj h]
    exact List.mem_cons_self
  · cases h

theorem only_map {α β : Type} (f : α → β) (l : List α) : only (l.map f) = (only l).map f := by
  rcases l with _ | ⟨a, _ | ⟨b, l⟩⟩ <;> rfl

theorem findKubelet_toOption {root : ProcRoot} {entries : List ProcEntry} {hostMnt : GoString}
    (hentries : root.entries = some entries) (hmnt : root.hostMnt = some hostMnt) :
    (findKubelet root).toOption = only (entries.filterMap fun e => (judge hostMnt e).found?) := by
  have hmap : (entries.map (judge hostMnt)).filterMap Verdict.found? =
      entries.filterMap fun e => (judge hostMnt e).found? := List.filterMap_map ..
  unfold findKubelet
  rw [hentries, hmnt]
  dsimp only
  rw [hmap]
  generalize entries.filterMap (fun e => (judge hostMnt e).found?) = found
  rcases found with _ | ⟨x, _ | ⟨y, l⟩⟩ <;> rfl

/-- The root of /proc on a node with these processes: their directories, in any order, and others
that are not named by a number. -/
structure ProcRoot.Lists (root : ProcRoot) (initNs : Nat) (tasks : List Task) : Prop where
  hostMnt : root.hostMnt = some (Task.mntText initNs)
  entries : ∃ entries, root.entries = some entries ∧
    (entries.filter fun e => (parseInt e.name).isSome).Perm (tasks.map Task.entry)

/-- The process that is the kubelet of the node, if there is exactly one. -/
def nodeKubelet (initNs : Nat) (tasks : List Task) : Option Task :=
  only (tasks.filter fun t => decide (t.HostKubelet initNs))

theorem findKubelet_lists {root : ProcRoot} {initNs : Nat} {tasks : List Task}
    (h : root.Lists initNs tasks) : (findKubelet root).toOption =
      (nodeKubelet initNs tasks).map fun t => ((t.pid : Int), splitCmdline t.cmdline) := by
  obtain ⟨entries, hentries, hperm⟩ := h.entries
  -- an entry that is not named by a number is never found, so that only the processes count
  have hnumbered : (entries.filterMap fun e => (judge (Task.mntText initNs) e).found?) =
      (entries.filter fun e => (parseInt e.name).isSome).filterMap
        fun e => (judge (Task.mntText initNs) e).found? := by
    rw [List.filterMap_filter]
    apply List.filterMap_congr
    intro e _
    cases hname : parseInt e.name with
    | none => simp [judge_of_not_number hname, Verdict.found?]
    | some pid => simp
  have htasks : (tasks.map Task.entry).filterMap (fun e => (judge (Task.mntText initNs) e).found?) =
      (tasks.filter fun t => decide (t.HostKubelet initNs)).map
        fun t => ((t.pid : Int), splitCmdline t.cmdline) := by
    rw [List.filterMap_map, ← List.filterMap_eq_map, List.filterMap_filter]
    apply List.filterMap_congr
    intro t _
    simp [judge_entry]
  rw [findKubelet_toOption hentries h.hostMnt, hnumbered, only_perm (hperm.filterMap _), htasks, only_map]
  rfl

/-- Whatever the pods of the node run, whatever they call it and whichever files of /proc are gone by
the time they are read: what a pass takes for kubelet is a child of init in the namespace of the host,
and its arguments are those that this process was started with. -/
theorem findKubelet_host {root : ProcRoot} {initNs : Nat} {tasks : List Task} {pid : Int} {argv : List GoString}
    (hmnt : root.hostMnt = some (Task.mntText initNs))
    (hshown : ∀ entries, root.entries = some entries → ∀ e ∈ entries, parseInt e.name ≠ none →
      ∃ t ∈ tasks, t.Shows e)
    (hfound : findKubelet root = .ok (pid, argv)) :
    ∃ t ∈ tasks, t.HostKubelet initNs ∧ pid = t.pid ∧ ∀ args : List GoString, (∀ arg ∈ args, 0 ∉ arg) →
      t.cmdline = Task.cmdlineText args → argv = args.filter fun arg => decide (arg ≠ []) := by
  cases hentries : root.entries with
  | none =>
    rw [findKubelet, hentries] at hfound
    cases hfound
  | some entries =>
    have honly : only (entries.filterMap fun e => (judge (Task.mntText initNs) e).found?) = some (pid, argv) := by
      rw [← findKubelet_toOption hentries hmnt, hfound]
      rfl
    obtain ⟨e, he, hjudge⟩ := List.mem_filterMap.mp (mem_of_only honly)
    have hverdict := found?_eq_some.mp hjudge
    have hnumber : parseInt e.name ≠ none := by
      intro hnone
      rw [judge_of_not_number hnone] at hverdict
      cases hverdict
    obtain ⟨t, ht, hshows⟩ := hshown entries hentries e he hnumber
    obtain ⟨hhost, hpid, hargv⟩ := hshows.hostKubelet hverdict
    refine ⟨t, ht, hhost, hpid, fun args hargs hcmdline => ?_⟩
    rw [← splitCmdline_cmdlineText hargs, ← hcmdline]
    exact hargv

def sampleKubelet : Task where
  pid := 812
  comm := lit "kubelet"
  state := 83
  ppid := 1
  counters := lit "812 812 0 -1"
  cgroup := lit "0::/system.slice/kubelet.service"
  mntNs := 40
  cmdline := Task.cmdlineText [lit "/usr/bin/kubelet", flagBinDir ++ lit "=/opt/bin"]
  pid_small := by decide
  ppid_small := by decide
  state_letter := by decide
  counters_plain := by decide

def podImpostor : Task where
  pid := 97
  comm := lit "kubelet"
  state := 83
  ppid := 90
  counters := lit "90 90 0 -1"
  cgroup := lit "0::/kubepods.slice/pod7"
  mntNs := 52
  cmdline := Task.cmdlineText [lit "kubelet", flagBinDir ++ lit "=/tmp"]
  pid_small := by decide
  ppid_small := by decide
  state_letter := by decide
  counters_plain := by decide

def sampleProc : ProcRoot where
  entries := some [⟨lit "self", none, none, none, none, none⟩, { podImpostor.entry with cgroup := none },
    sampleKubelet.entry]
  hostMnt := some (Task.mntText 40)

theorem findKubelet_host_impostor : findKubelet sampleProc =
      .ok (812, [lit "/usr/bin/kubelet", flagBinDir ++ lit "=/opt/bin"]) ∧
    ∃ t ∈ [podImpostor, sampleKubelet], t.HostKubelet 40 ∧ t.pid = 812 := by
  have hfound : findKubelet sampleProc =
      .ok (812, [lit "/usr/bin/kubelet", flagBinDir ++ lit "=/opt/bin"]) := by decide +kernel
  have hshown : ∀ entries, sampleProc.entries = some entries → ∀ e ∈ entries, parseInt e.name ≠ none →
      ∃ t ∈ [podImpostor, sampleKubelet], t.Shows e := by
    intro entries hentries e he hnumber
    cases hentries
    simp only [List.mem_cons, List.not_mem_nil, or_false] at he
    rcases he with rfl | rfl | rfl
    · exact absurd (by decide) hnumber
    · exact ⟨podImpostor, by simp, { podImpostor.shows_entry with cgroup := fun _ h => by cases h }⟩
    · exact ⟨sampleKubelet, by simp, sampleKubelet.shows_entry⟩
  obtain ⟨t, ht, hhost, hpid, -⟩ := findKubelet_host rfl hshown hfound
  exact ⟨hfound, t, ht, hhost, by exact_mod_cast hpid.symm⟩

/-- On a node whose processes can all be read, the result depends on the processes of the host alone:
no set of processes in pods, or in containers of any other kind, changes it. -/
theorem findKubelet_pods_irrelevant {root root' : ProcRoot} {initNs : Nat} {tasks tasks' : List Task}
    (h : root.Lists initNs tasks) (h' : root'.Lists initNs tasks')
    (hhost : (tasks.filter fun t => decide (t.mntNs = initNs)).Perm
      (tasks'.filter fun t => decide (t.mntNs = initNs))) :
    (findKubelet root).toOption = (findKubelet root').toOption := by
  have hkubelets : ∀ l : List Task, (l.filter fun t => decide (t.HostKubelet initNs)) =
      (l.filter fun t => decide (t.mntNs = initNs)).filter fun t => decide (t.HostKubelet initNs) := by
    intro l
    rw [List.filter_filter]
    apply List.filter_congr
    intro t _
    by_cases hk : t.HostKubelet initNs
    · simp [hk, hk.2.2.2.1]
    · simp [hk]
  have hsame : nodeKubelet initNs tasks = nodeKubelet initNs tasks' := by
    unfold nodeKubelet
    rw [hkubelets tasks, hkubelets tasks']
    exact only_perm (hhost.filter _)
  rw [findKubelet_lists h, findKubelet_lists h', hsame]

theorem findKubelet_pods_irrelevant_impostor :
    (findKubelet ⟨some [podImpostor.entry, sampleKubelet.entry], some (Task.mntText 40)⟩).toOption =
      (findKubelet ⟨some [sampleKubelet.entry], some (Task.mntText 40)⟩).toOption := by
  apply @findKubelet_pods_irrelevant _ _ 40 [podImpostor, sampleKubelet] [sampleKubelet]
  · exact ⟨rfl, _, rfl, by decide +kernel⟩
  · exact ⟨rfl, _, rfl, by decide +kernel⟩
  · exact .refl _

end HarborBridge.Installer
