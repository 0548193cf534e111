import HarborBridge.Installer.UnitEnv
import HarborBridge.Installer.MergeExtraArgs

/-!
# What patch mode changes in kubelet's environment

systemd reads the files of the unit's settings in order, each as `parseEnvFile` does, and the last
assignment of a variable wins. Replacing the file that `kubeletEnvFile` picks by the output of
`mergeExtraArgs` changes `KUBELET_EXTRA_ARGS` in the two flags and no other variable.
-/

namespace HarborBridge.Installer

open GoStrings
open EnvParser (kv)

/-! ## The environment of the unit -/

/-- The assignments systemd takes from the file; `optional` is set behind a "-" setting. -/
def loadEnvFile (d : Disk) (f : GoString) (optional : Bool) :
    Except EnvSelectError (List EnvAssignment) :=
  match d.lookup (clean (47 :: f)) with
  | none => .ok []
  | some (.file m) =>
    match parseEnvFile m.data with
    | .error e => if e.unloadable && optional then .ok [] else .error (.parse f e)
    | .ok assignments => .ok assignments
  | some .dir => if optional then .ok [] else .error (.read f)
  | some _ => .error (.read f)

/-- The files of the settings in order, each with whether its setting is an optional one. -/
def listFiles (d : Disk) : List EnvFileRef → Except EnvSelectError (List (GoString × Bool))
  | [] => .ok []
  | ref :: refs =>
    if !isAbs ref.path then .error (.notAbsolute ref.path)
    else
      match expandEnvFile d ref.path with
      | .error e => .error (.glob ref.path e)
      | .ok files => do
        let more ← listFiles d refs
        .ok (files.map (fun f => (f, ref.optional)) ++ more)

def readFiles (d : Disk) : List (GoString × Bool) →
    Except EnvSelectError (List (GoString × List EnvAssignment))
  | [] => .ok []
  | (f, optional) :: files => do
    let assignments ← loadEnvFile d f optional
    let more ← readFiles d files
    .ok ((f, assignments) :: more)

/-- All assignments systemd reads, in order. -/
def systemdReads (d : Disk) (refs : List EnvFileRef) : Except EnvSelectError (List EnvAssignment) := do
  let files ← listFiles d refs
  let read ← readFiles d files
  .ok (read.flatMap (·.2))

/-- The value in effect: the last assignment wins. -/
def effective (all : List EnvAssignment) (key : GoString) : Option GoString :=
  (((all.map kv).filter fun x => decide (x.1 = key)).getLast?).map (·.2)

/-! ## The file that is picked -/

def hasExtra (assignments : List EnvAssignment) : Bool :=
  assignments.any fun a => decide (a.key = extraArgsKey)

theorem hasExtra_eq_false {all : List EnvAssignment} : hasExtra all = false ↔ extraAssignments all = [] := by
  simp [hasExtra, extraAssignments]

def pick (sel : EnvSelection) (x : GoString × List EnvAssignment) : EnvSelection where
  assigning := if hasExtra x.2 then some x.1 else sel.assigning
  lastOperator := if decide (x.1 ∈ kubeletEnvFiles) then some x.1 else sel.lastOperator

theorem readFiles_append (d : Disk) (files more : List (GoString × Bool)) :
    readFiles d (files ++ more) = readFiles d files >>= fun read =>
      readFiles d more >>= fun read' => .ok (read ++ read') := by
  induction files with
  | nil =>
    rw [List.nil_append]
    cases readFiles d more with
    | error e => rfl
    | ok read => rfl
  | cons x files ih =>
    obtain ⟨f, optional⟩ := x
    rw [List.cons_append, readFiles, readFiles, ih]
    cases loadEnvFile d f optional with
    | error e => rfl
    | ok assignments =>
      cases readFiles d files with
      | error e => rfl
      | ok read =>
        cases readFiles d more with
        | error e => rfl
        | ok read' => rfl

inductive EnvRead (d : Disk) (f : GoString) (skippable : Bool) (a : List EnvAssignment) : Prop
  | missing (hnode : d.lookup (clean (47 :: f)) = none) (ha : a = [])
  | parsed (m : HostFile) (hnode : d.lookup (clean (47 :: f)) = some (.file m))
      (ha : parseEnvFile m.data = .ok a)
  | unloadable (m : HostFile) (e : EnvFileError) (hskip : skippable = true)
      (hnode : d.lookup (clean (47 :: f)) = some (.file m)) (he : parseEnvFile m.data = .error e)
      (hun : e.unloadable = true) (ha : a = [])
  | dir (hskip : skippable = true) (hnode : d.lookup (clean (47 :: f)) = some .dir) (ha : a = [])

theorem readEnvFile_eq_ok {d : Disk} {f : GoString} {skippable : Bool} {a : List EnvAssignment}
    (h : readEnvFile d f skippable = .ok a) : EnvRead d f skippable a := by
  unfold readEnvFile at h
  split at h
  · rename_i hread
    cases h
    exact .missing (Disk.readHostFile_notExist hread) rfl
  · split_ifs at h with hskip
    cases h
    obtain ⟨hs, hdir⟩ := Bool.and_eq_true_iff.mp hskip
    exact .dir hs (by simpa [Disk.isHostDir] using hdir) rfl
  · rename_i data hread
    obtain ⟨m, hnode, rfl⟩ := Disk.readHostFile_eq_ok hread
    cases hparse : parseEnvFile m.data with
    | ok all =>
      rw [hparse] at h
      cases h
      exact .parsed m hnode hparse
    | error e =>
      simp only [hparse] at h
      split_ifs at h with hskip
      cases h
      obtain ⟨hun, hs⟩ := Bool.and_eq_true_iff.mp hskip
      exact .unloadable m e hs hnode hparse hun rfl

theorem loadEnvFile_of_read {d : Disk} {f : GoString} {optional operator : Bool} {a : List EnvAssignment}
    (h : readEnvFile d f (optional && !operator) = .ok a) : loadEnvFile d f optional = .ok a := by
  unfold loadEnvFile
  cases readEnvFile_eq_ok h with
  | missing hnode ha => rw [hnode, ha]
  | parsed m hnode ha => simp only [hnode, ha]
  | unloadable m e hskip hnode he hun ha =>
    have hopt := (Bool.and_eq_true_iff.mp hskip).1
    simp [hnode, he, hun, hopt, ha]
  | dir hskip hnode ha =>
    have hopt := (Bool.and_eq_true_iff.mp hskip).1
    simp [hnode, hopt, ha]

/-- A file that patch mode may edit is missing or one that systemd loads. -/
def Loaded (d : Disk) (f : GoString) (a : List EnvAssignment) : Prop :=
  d.lookup (clean (47 :: f)) = none ∧ a = [] ∨
    ∃ m, d.lookup (clean (47 :: f)) = some (.file m) ∧ parseEnvFile m.data = .ok a

theorem loaded_of_read {d : Disk} {f : GoString} {a : List EnvAssignment}
    (h : readEnvFile d f false = .ok a) : Loaded d f a := by
  cases readEnvFile_eq_ok h with
  | missing hnode ha => exact .inl ⟨hnode, ha⟩
  | parsed m hnode ha => exact .inr ⟨m, hnode, ha⟩
  | unloadable m e hskip => cases hskip
  | dir hskip => cases hskip

theorem selectFiles_eq_ok {d : Disk} {optional : Bool} {files : List GoString} {sel sel' : EnvSelection}
    (h : files.foldlM (selectFile d optional) sel = .ok sel') :
    ∃ read, readFiles d (files.map fun f => (f, optional)) = .ok read ∧ sel' = read.foldl pick sel ∧
      ∀ x ∈ read, x.1 ∈ kubeletEnvFiles → Loaded d x.1 x.2 := by
  induction files generalizing sel with
  | nil =>
    cases h
    exact ⟨[], rfl, rfl, by simp⟩
  | cons f files ih =>
    rw [List.foldlM_cons] at h
    obtain ⟨mid, hmid, hrest⟩ := bind_eq_ok h
    obtain ⟨assignments, hread, hsel⟩ := bind_eq_ok hmid
    cases hsel
    obtain ⟨read, hfiles, rfl, hloaded⟩ := ih hrest
    refine ⟨(f, assignments) :: read, ?_, rfl, fun x hx hop => ?_⟩
    · rw [List.map_cons, readFiles, loadEnvFile_of_read hread, ok_bind, hfiles]
      rfl
    · rcases List.mem_cons.mp hx with rfl | hx
      · refine loaded_of_read ?_
        rwa [decide_eq_true hop, Bool.not_true, Bool.and_false] at hread
      · exact hloaded x hx hop

theorem selectRefs_eq_ok {d : Disk} {refs : List EnvFileRef} {sel sel' : EnvSelection}
    (h : refs.foldlM (selectRef d) sel = .ok sel') :
    ∃ files read, listFiles d refs = .ok files ∧ readFiles d files = .ok read ∧
      sel' = read.foldl pick sel ∧ ∀ x ∈ read, x.1 ∈ kubeletEnvFiles → Loaded d x.1 x.2 := by
  induction refs generalizing sel with
  | nil =>
    cases h
    exact ⟨[], [], rfl, rfl, rfl, by simp⟩
  | cons ref refs ih =>
    rw [List.foldlM_cons] at h
    obtain ⟨mid, hmid, hrest⟩ := bind_eq_ok h
    obtain ⟨files, read, hfiles, hread, rfl, hloaded⟩ := ih hrest
    unfold selectRef at hmid
    rw [listFiles]
    split_ifs at hmid ⊢ with habs
    cases hexp : expandEnvFile d ref.path with
    | error e => simp [hexp] at hmid
    | ok paths =>
      rw [hexp] at hmid
      obtain ⟨first, hfirst, rfl, hloaded'⟩ := selectFiles_eq_ok hmid
      refine ⟨paths.map (fun f => (f, ref.optional)) ++ files, first ++ read, ?_, ?_, ?_, ?_⟩
      · simp only [hfiles, ok_bind]
      · rw [readFiles_append, hfirst, ok_bind, hread, ok_bind]
      · rw [List.foldl_append]
      · intro x hx
        rcases List.mem_append.mp hx with hx | hx
        · exact hloaded' x hx
        · exact hloaded x hx

/-- The last file that assigns the variable. -/
theorem pick_assigning {read : List (GoString × List EnvAssignment)} {sel : EnvSelection} :
    ((read.foldl pick sel).assigning = sel.assigning ∧ ∀ x ∈ read, hasExtra x.2 = false) ∨
      ∃ pre f a post, read = pre ++ (f, a) :: post ∧ (read.foldl pick sel).assigning = some f ∧
        hasExtra a = true ∧ ∀ x ∈ post, hasExtra x.2 = false := by
  induction read generalizing sel with
  | nil => exact .inl ⟨rfl, by simp⟩
  | cons x read ih =>
    obtain ⟨f, a⟩ := x
    rw [List.foldl_cons]
    rcases @ih (pick sel (f, a)) with ⟨hsame, hnone⟩ | ⟨pre, g, b, post, rfl, hsel, hb, hpost⟩
    · cases ha : hasExtra a with
      | false =>
        refine .inl ⟨hsame.trans (by simp [pick, ha]), ?_⟩
        intro x hx
        rcases List.mem_cons.mp hx with rfl | hx
        · exact ha
        · exact hnone x hx
      | true => exact .inr ⟨[], f, a, read, rfl, hsame.trans (by simp [pick, ha]), ha, hnone⟩
    · exact .inr ⟨(f, a) :: pre, g, b, post, rfl, hsel, hb, hpost⟩

theorem pick_lastOperator {read : List (GoString × List EnvAssignment)} {sel : EnvSelection} {f : GoString}
    (h : (read.foldl pick sel).lastOperator = some f) :
    sel.lastOperator = some f ∨ f ∈ kubeletEnvFiles ∧ f ∈ read.map Prod.fst := by
  induction read generalizing sel with
  | nil => exact .inl h
  | cons x read ih =>
    rcases ih h with hsel | ⟨hf, hmem⟩
    · by_cases hx : x.1 ∈ kubeletEnvFiles
      · simp only [pick, hx, decide_true, if_true, Option.some.injEq] at hsel
        exact .inr ⟨hsel ▸ hx, by simp [hsel]⟩
      · simp only [pick, hx, decide_false, Bool.false_eq_true, if_false] at hsel
        exact .inl hsel
    · exact .inr ⟨hf, List.mem_cons_of_mem _ hmem⟩

/-- Where the picked file stands among those systemd reads: it is the last that assigns the
variable, or none does. -/
theorem kubeletEnvFile_eq_ok {d : Disk} {env : UnitEnvironment} {f : GoString}
    (h : kubeletEnvFile d env = .ok f) :
    f ∈ kubeletEnvFiles ∧ ∃ files read, listFiles d env.files = .ok files ∧
      readFiles d files = .ok read ∧ (∀ x ∈ read, x.1 = f → Loaded d f x.2) ∧
      ((∃ pre a post, read = pre ++ (f, a) :: post ∧ hasExtra a = true ∧
          ∀ x ∈ post, hasExtra x.2 = false) ∨
        f ∈ read.map Prod.fst ∧ ∀ x ∈ read, hasExtra x.2 = false) := by
  obtain ⟨sel, hsel, h⟩ := bind_eq_ok h
  obtain ⟨files, read, hfiles, hread, rfl, hloaded⟩ := selectRefs_eq_ok hsel
  have hself : ∀ {g : GoString}, g ∈ kubeletEnvFiles → ∀ x ∈ read, x.1 = g → Loaded d g x.2 := by
    rintro g hg x hx rfl
    exact hloaded x hx hg
  rcases @pick_assigning read ⟨none, none⟩ with
    ⟨hnone, hno⟩ | ⟨pre, g, a, post, hsplit, hassign, ha, hpost⟩
  · simp only [hnone] at h
    cases hlast : (read.foldl pick ⟨none, none⟩).lastOperator with
    | none => simp [hlast] at h
    | some g =>
      simp only [hlast] at h
      split_ifs at h
      cases h
      obtain hfalse | ⟨hf, hmem⟩ := pick_lastOperator hlast
      · cases hfalse
      · exact ⟨hf, files, read, hfiles, hread, hself hf, .inr ⟨hmem, hno⟩⟩
  · simp only [hassign] at h
    split_ifs at h with hf
    cases h
    exact ⟨hf, files, read, hfiles, hread, hself hf, .inl ⟨pre, a, post, hsplit, ha, hpost⟩⟩

/-! ## The files after the replacement -/

/-- What a wildcard sees of a directory entry: regular files are as other files. -/
def shape : Node → Node
  | .file _ => .other
  | n => n

theorem globEntries_shape (dir pattern : GoString) (last : Bool) {l l' : List (GoString × Node)}
    (h : l'.map (fun e => (e.1, shape e.2)) = l.map fun e => (e.1, shape e.2)) :
    globEntries dir pattern last l' = globEntries dir pattern last l := by
  induction l generalizing l' with
  | nil =>
    rw [List.map_nil, List.map_eq_nil_iff] at h
    rw [h]
  | cons e l ih =>
    cases l' with
    | nil => simp at h
    | cons e' l' =>
      obtain ⟨name, node⟩ := e
      obtain ⟨name', node'⟩ := e'
      simp only [List.map_cons, List.cons.injEq, Prod.mk.injEq] at h
      obtain ⟨⟨rfl, hshape⟩, htail⟩ := h
      have hrest := ih htail
      simp only [globEntries, hrest]
      cases node <;> cases node' <;> first | rfl | simp [shape] at hshape

/-- An entry that is no directory and no symlink adds at most itself, and only at the end of the
expression. -/
theorem globEntries_append {dir pattern : GoString} {last : Bool} {l : List (GoString × Node)}
    {name : GoString} {f : HostFile} {out : List GoString}
    (h : globEntries dir pattern last (l ++ [(name, .file f)]) = .ok out) :
    ∃ before, globEntries dir pattern last l = .ok before ∧
      (out = before ∨ last = true ∧ out = before ++ [pathJoin dir name]) := by
  induction l generalizing out with
  | nil =>
    refine ⟨[], rfl, ?_⟩
    simp only [List.nil_append, globEntries] at h
    obtain ⟨ok, -, h⟩ := bind_eq_ok h
    cases ok with
    | false =>
      cases h
      exact .inl rfl
    | true =>
      cases last with
      | false =>
        cases h
        exact .inl rfl
      | true =>
        cases h
        exact .inr ⟨rfl, rfl⟩
  | cons e l ih =>
    obtain ⟨name', node⟩ := e
    simp only [List.cons_append, globEntries] at h ⊢
    obtain ⟨ok, hok, h⟩ := bind_eq_ok h
    rw [hok, ok_bind]
    have hcons : ∀ {out}, (do
          let out ← globEntries dir pattern last (l ++ [(name, .file f)])
          Except.ok (pathJoin dir name' :: out)) = Except.ok out →
        ∃ before, (do
          let out ← globEntries dir pattern last l
          Except.ok (pathJoin dir name' :: out)) = Except.ok before ∧
            (out = before ∨ last = true ∧ out = before ++ [pathJoin dir name]) := by
      intro out h
      obtain ⟨rest, hrest, hout⟩ := bind_eq_ok h
      cases hout
      obtain ⟨before, hbefore, hcase⟩ := ih hrest
      refine ⟨pathJoin dir name' :: before, by rw [hbefore]; rfl, ?_⟩
      rcases hcase with rfl | ⟨hlast, rfl⟩
      · exact .inl rfl
      · exact .inr ⟨hlast, rfl⟩
    cases ok with
    | false => exact ih h
    | true =>
      cases last with
      | true => exact hcons h
      | false =>
        cases node with
        | dir => exact hcons h
        | symlink => cases h
        | file _ => exact ih h
        | other => exact ih h

structure SameBut (f : GoString) (l l' : List GoString) : Prop where
  rest : l'.filter (fun g => decide (g ≠ f)) = l.filter fun g => decide (g ≠ f)
  mem : f ∈ l → f ∈ l'

theorem SameBut.refl (f : GoString) (l : List GoString) : SameBut f l l := ⟨rfl, id⟩

theorem SameBut.append {f : GoString} {l l' m m' : List GoString} (h : SameBut f l l')
    (h' : SameBut f m m') : SameBut f (l ++ m) (l' ++ m') where
  rest := by rw [List.filter_append, List.filter_append, h.rest, h'.rest]
  mem hf := by
    rcases List.mem_append.mp hf with hf | hf
    · exact List.mem_append_left _ (h.mem hf)
    · exact List.mem_append_right _ (h'.mem hf)

theorem SameBut.sort {f : GoString} {l l' : List GoString} (h : SameBut f l l') :
    SameBut f (l.insertionSort (· ≤ ·)) (l'.insertionSort (· ≤ ·)) where
  rest := by
    have hfilter : ∀ m : List GoString, List.Pairwise (· ≤ ·)
        ((m.insertionSort (· ≤ ·)).filter fun g => decide (g ≠ f)) := fun m =>
      (List.pairwise_insertionSort _ m).sublist List.filter_sublist
    have hperm : ∀ m : List GoString, ((m.insertionSort (· ≤ ·)).filter fun g => decide (g ≠ f)).Perm
        (m.filter fun g => decide (g ≠ f)) := fun m => (List.perm_insertionSort _ m).filter _
    refine List.Perm.eq_of_pairwise' (hfilter l') (hfilter l) ((hperm l').trans ?_)
    rw [h.rest]
    exact (hperm l).symm
  mem hf := by
    rw [List.mem_insertionSort] at hf ⊢
    exact h.mem hf

section Replaced

variable {d : Disk} {f : GoString} {m : HostFile}

theorem children_put_file {old : HostFile} (hold : d.lookup f = some (.file old)) (dir : GoString) :
    ((d.put f (.file m)).children dir).map (fun e => (e.1, shape e.2)) =
      (d.children dir).map fun e => (e.1, shape e.2) := by
  have hmem : f ∈ d.entries.map Prod.fst := by
    by_contra h
    rw [← Disk.lookup_eq_none, hold] at h
    cases h
  have hentries : (d.put f (.file m)).entries = d.entries.map fun e => if e.1 = f then (f, .file m) else e :=
    if_pos hmem
  simp only [Disk.children, hentries, List.filterMap_map, List.map_filterMap]
  refine List.filterMap_congr fun e he => ?_
  simp only [Function.comp_apply]
  by_cases hf : e.1 = f
  · have hnode : e.2 = .file old := by
      have := d.lookup_of_mem he
      rw [hf, hold] at this
      exact (Option.some.inj this).symm
    rw [if_pos hf, hf, hnode]
    split_ifs <;> rfl
  · rw [if_neg hf]

theorem children_put_new (hold : d.lookup f = none) (dir : GoString) :
    (d.put f (.file m)).children dir =
      d.children dir ++ if f ≠ [47] ∧ pathDir f = dir then [(pathBase f, .file m)] else [] := by
  have hentries : (d.put f (.file m)).entries = d.entries ++ [(f, .file m)] :=
    if_neg ((Disk.lookup_eq_none d f).mp hold)
  simp only [Disk.children, hentries, List.filterMap_append, List.filterMap_cons, List.filterMap_nil]
  split_ifs <;> rfl

theorem isDir_put (hold : d.lookup f ≠ some .dir) (hroot : f ≠ [47]) (dir : GoString) :
    (d.put f (.file m)).isDir dir = d.isDir dir := by
  unfold Disk.isDir
  by_cases h : dir = f
  · subst h
    rw [Disk.lookup_put_self]
    have hfile : (some (Node.file m) == some Node.dir) = false := beq_eq_false_iff_ne.mpr (by simp)
    have hbefore : (d.lookup dir == some Node.dir) = false := beq_eq_false_iff_ne.mpr hold
    rw [hfile, hbefore]
  · rw [Disk.lookup_put_of_ne d h]

theorem globDir_put_file {old : HostFile} (hold : d.lookup f = some (.file old)) (hroot : f ≠ [47])
    (dir pattern : GoString) (last : Bool) :
    globDir (d.put f (.file m)) dir pattern last = globDir d dir pattern last := by
  unfold globDir
  rw [isDir_put (by simp [hold]) hroot, globEntries_shape _ _ _ (children_put_file hold dir)]
  by_cases h : dir = f
  · subst h
    rw [Disk.lookup_put_self, hold]
  · rw [Disk.lookup_put_of_ne d h]

theorem expandFrom_put_file {old : HostFile} (hold : d.lookup f = some (.file old)) (hroot : f ≠ [47])
    (comps paths : List GoString) :
    expandFrom (d.put f (.file m)) paths comps = expandFrom d paths comps := by
  induction comps generalizing paths with
  | nil => rfl
  | cons comp comps ih =>
    unfold expandFrom
    simp only [ih, globDir_put_file hold hroot]

theorem expandEnvFile_put_file {old : HostFile} (hold : d.lookup f = some (.file old)) (hroot : f ≠ [47])
    (pattern : GoString) : expandEnvFile (d.put f (.file m)) pattern = expandEnvFile d pattern := by
  unfold expandEnvFile
  simp only [expandFrom_put_file hold hroot]

/-- A new file is at most one more match of the last component. -/
theorem globDir_put_new (hold : d.lookup f = none) (hroot : f ≠ [47])
    (hself : pathJoin (pathDir f) (pathBase f) = f) {dir pattern : GoString} {last : Bool}
    {out' : List GoString} (h : globDir (d.put f (.file m)) dir pattern last = .ok out') :
    ∃ out, globDir d dir pattern last = .ok out ∧ (last = false → out' = out) ∧ SameBut f out out' := by
  unfold globDir at h ⊢
  rw [isDir_put (by simp [hold]) hroot] at h
  by_cases hdir : d.isDir dir = true
  · rw [if_pos hdir, children_put_new hold] at h
    rw [if_pos hdir]
    by_cases hin : f ≠ [47] ∧ pathDir f = dir
    · rw [if_pos hin] at h
      obtain ⟨out, hout, rfl | ⟨hlast, rfl⟩⟩ := globEntries_append h
      · exact ⟨out', hout, fun _ => rfl, .refl _ _⟩
      · refine ⟨out, hout, fun hfalse => ?_, ?_, fun hf => List.mem_append_left _ hf⟩
        · rw [hfalse] at hlast
          cases hlast
        · rw [← hin.2, hself, List.filter_append]
          simp
    · rw [if_neg hin, List.append_nil] at h
      exact ⟨out', h, fun _ => rfl, .refl _ _⟩
  · rw [if_neg hdir] at h ⊢
    by_cases hf : dir = f
    · subst hf
      rw [Disk.lookup_put_self] at h
      cases h
      rw [hold]
      exact ⟨[], rfl, fun _ => rfl, .refl _ _⟩
    · rw [Disk.lookup_put_of_ne d hf] at h
      exact ⟨out', h, fun _ => rfl, .refl _ _⟩

theorem globDirs_put_new (hold : d.lookup f = none) (hroot : f ≠ [47])
    (hself : pathJoin (pathDir f) (pathBase f) = f) {pattern : GoString} {last : Bool}
    (paths : List GoString) {next' : List (List GoString)}
    (h : paths.mapM (fun dir => globDir (d.put f (.file m)) dir pattern last) = .ok next') :
    ∃ next, paths.mapM (fun dir => globDir d dir pattern last) = .ok next ∧
      (last = false → next' = next) ∧ SameBut f next.flatten next'.flatten := by
  induction paths generalizing next' with
  | nil =>
    cases h
    exact ⟨[], rfl, fun _ => rfl, .refl _ _⟩
  | cons dir paths ih =>
    rw [List.mapM_cons] at h
    obtain ⟨out', hout', h⟩ := bind_eq_ok h
    obtain ⟨rest', hrest', h⟩ := bind_eq_ok h
    cases h
    obtain ⟨out, hout, heq, hsame⟩ := globDir_put_new hold hroot hself hout'
    obtain ⟨rest, hrest, heq', hsame'⟩ := ih hrest'
    refine ⟨out :: rest, ?_, fun hlast => ?_, ?_⟩
    · rw [List.mapM_cons, hout, ok_bind, hrest]
      rfl
    · rw [heq hlast, heq' hlast]
    · exact hsame.append hsame'

theorem expandFrom_put_new (hold : d.lookup f = none) (hroot : f ≠ [47])
    (hself : pathJoin (pathDir f) (pathBase f) = f) (comps : List GoString) {paths out' : List GoString}
    (h : expandFrom (d.put f (.file m)) paths comps = .ok out') :
    ∃ out, expandFrom d paths comps = .ok out ∧ SameBut f out out' := by
  induction comps generalizing paths with
  | nil =>
    cases h
    exact ⟨out', rfl, .refl _ _⟩
  | cons comp comps ih =>
    unfold expandFrom at h ⊢
    split_ifs at h ⊢ with hmagic
    · exact ih h
    · obtain ⟨next', hnext', h⟩ := bind_eq_ok h
      obtain ⟨next, hnext, heq, hsame⟩ := globDirs_put_new hold hroot hself paths hnext'
      rw [hnext, ok_bind]
      cases comps with
      | nil =>
        cases h
        exact ⟨next.flatten, rfl, hsame⟩
      | cons comp' comps =>
        rw [heq rfl] at h
        exact ih h

theorem expandEnvFile_put_new (hold : d.lookup f = none) (hroot : f ≠ [47])
    (hself : pathJoin (pathDir f) (pathBase f) = f) {pattern : GoString} {out' : List GoString}
    (h : expandEnvFile (d.put f (.file m)) pattern = .ok out') :
    ∃ out, expandEnvFile d pattern = .ok out ∧ SameBut f out out' := by
  unfold expandEnvFile at h ⊢
  simp only at h ⊢
  split_ifs at h ⊢ with hmagic
  · cases h
    exact ⟨_, rfl, .refl _ _⟩
  · obtain ⟨paths', hpaths', h⟩ := bind_eq_ok h
    cases h
    obtain ⟨paths, hpaths, hsame⟩ := expandFrom_put_new hold hroot hself _ hpaths'
    exact ⟨_, by rw [hpaths]; rfl, hsame.sort⟩

theorem listFiles_put_file {old : HostFile} (hold : d.lookup f = some (.file old)) (hroot : f ≠ [47])
    (refs : List EnvFileRef) : listFiles (d.put f (.file m)) refs = listFiles d refs := by
  induction refs with
  | nil => rfl
  | cons ref refs ih =>
    unfold listFiles
    rw [expandEnvFile_put_file hold hroot, ih]

theorem listFiles_put_new (hold : d.lookup f = none) (hroot : f ≠ [47])
    (hself : pathJoin (pathDir f) (pathBase f) = f) {refs : List EnvFileRef}
    {files' : List (GoString × Bool)} (h : listFiles (d.put f (.file m)) refs = .ok files') :
    ∃ files, listFiles d refs = .ok files ∧
      files'.filter (fun x => decide (x.1 ≠ f)) = files.filter (fun x => decide (x.1 ≠ f)) ∧
      (f ∈ files.map Prod.fst → f ∈ files'.map Prod.fst) := by
  induction refs generalizing files' with
  | nil =>
    cases h
    exact ⟨[], rfl, rfl, id⟩
  | cons ref refs ih =>
    unfold listFiles at h ⊢
    split_ifs at h ⊢ with habs
    cases hexp : expandEnvFile (d.put f (.file m)) ref.path with
    | error e => simp [hexp] at h
    | ok paths' =>
      simp only [hexp] at h
      obtain ⟨more', hmore', h⟩ := bind_eq_ok h
      cases h
      obtain ⟨more, hmore, hfilter, hmem⟩ := ih hmore'
      obtain ⟨paths, hpaths, hsame⟩ := expandEnvFile_put_new hold hroot hself hexp
      refine ⟨paths.map (fun g => (g, ref.optional)) ++ more, ?_, ?_, ?_⟩
      · simp only [hpaths, hmore, ok_bind]
      · have hmap : ∀ l : List GoString, (l.map fun g => (g, ref.optional)).filter
            (fun x => decide (x.1 ≠ f)) = (l.filter fun g => decide (g ≠ f)).map
              fun g => (g, ref.optional) := by
          intro l
          rw [List.filter_map]
          rfl
        rw [List.filter_append, List.filter_append, hmap, hmap, hsame.rest, hfilter]
      · intro hf
        rw [List.map_append, List.mem_append, List.map_map] at hf ⊢
        rcases hf with hf | hf
        · refine .inl ?_
          have hf' : f ∈ paths := by simpa using hf
          simpa using hsame.mem hf'
        · exact .inr (hmem hf)

end Replaced

/-! ## What is in effect -/

def load (d : Disk) (x : GoString × Bool) : List EnvAssignment :=
  match loadEnvFile d x.1 x.2 with
  | .ok a => a
  | .error _ => []

theorem readFiles_eq_ok {d : Disk} {files : List (GoString × Bool)}
    {read : List (GoString × List EnvAssignment)} (h : readFiles d files = .ok read) :
    read = files.map fun x => (x.1, load d x) := by
  induction files generalizing read with
  | nil =>
    cases h
    rfl
  | cons x files ih =>
    obtain ⟨f, optional⟩ := x
    rw [readFiles] at h
    obtain ⟨a, ha, h⟩ := bind_eq_ok h
    obtain ⟨more, hmore, h⟩ := bind_eq_ok h
    cases h
    rw [List.map_cons, ← ih hmore, load, ha]

theorem readFiles_of_load {d : Disk} {files : List (GoString × Bool)}
    (h : ∀ x ∈ files, ∃ a, loadEnvFile d x.1 x.2 = .ok a) :
    readFiles d files = .ok (files.map fun x => (x.1, load d x)) := by
  induction files with
  | nil => rfl
  | cons x files ih =>
    obtain ⟨a, ha⟩ := h x List.mem_cons_self
    rw [readFiles, ha, ok_bind, ih fun y hy => h y (List.mem_cons_of_mem x hy), ok_bind, List.map_cons,
      load, ha]

theorem load_of_readFiles {d : Disk} {files : List (GoString × Bool)}
    {read : List (GoString × List EnvAssignment)} (h : readFiles d files = .ok read) :
    ∀ x ∈ files, ∃ a, loadEnvFile d x.1 x.2 = .ok a := by
  induction files generalizing read with
  | nil => simp
  | cons x files ih =>
    obtain ⟨f, optional⟩ := x
    rw [readFiles] at h
    obtain ⟨a, ha, h⟩ := bind_eq_ok h
    obtain ⟨more, hmore, -⟩ := bind_eq_ok h
    intro y hy
    rcases List.mem_cons.mp hy with rfl | hy
    · exact ⟨a, ha⟩
    · exact ih hmore y hy

def extras (all : List EnvAssignment) : List GoString := (extraAssignments all).map EnvAssignment.value

theorem extras_append (all all' : List EnvAssignment) : extras (all ++ all') = extras all ++ extras all' := by
  rw [extras, extraAssignments_append, List.map_append, extras, extras]

theorem effective_extra (all : List EnvAssignment) : effective all extraArgsKey = (extras all).getLast? := by
  have hfilter : (all.map kv).filter (fun x => decide (x.1 = extraArgsKey)) =
      (extraAssignments all).map kv := by
    rw [List.filter_map]
    rfl
  rw [effective, hfilter, List.getLast?_map, extras, List.getLast?_map, Option.map_map]
  rfl

theorem effective_other {key : GoString} (hkey : key ≠ extraArgsKey) (all : List EnvAssignment) :
    effective all key = (((others all).filter fun x => decide (x.1 = key)).getLast?).map (·.2) := by
  rw [effective, others, List.filter_filter]
  congr 2
  refine List.filter_congr fun x _ => ?_
  by_cases hx : x.1 = key
  · simp [hx, hkey]
  · simp [hx]

theorem Merged.extras {all all' : List EnvAssignment} {args : List GoString} (h : Merged all all' args) :
    extras all' = [join args 32] := by
  obtain ⟨pre, post, hsplit, hno, -⟩ := h
  have hvalues : Installer.extras all' =
      ((all'.map kv).filter fun x => decide (x.1 = extraArgsKey)).map (·.2) := by
    rw [List.filter_map, List.map_map]
    rfl
  have hnone : ∀ l : List (GoString × GoString), (∀ x ∈ l, x.1 ≠ extraArgsKey) →
      l.filter (fun x => decide (x.1 = extraArgsKey)) = [] := by
    intro l hl
    rw [List.filter_eq_nil_iff]
    intro x hx
    simpa using hl x hx
  rw [hvalues, hsplit, List.filter_append, List.filter_cons, hnone pre fun x hx => hno x (by simp [hx]),
    hnone post fun x hx => hno x (by simp [hx])]
  simp

theorem Merged.others {all all' : List EnvAssignment} {args : List GoString} (h : Merged all all' args) :
    others all' = others all := by
  obtain ⟨pre, post, hsplit, hno, hothers⟩ := h
  have hkeep : ∀ l : List (GoString × GoString), (∀ x ∈ l, x.1 ≠ extraArgsKey) →
      l.filter (fun x => decide (x.1 ≠ extraArgsKey)) = l := by
    intro l hl
    rw [List.filter_eq_self]
    exact fun x hx => decide_eq_true (hl x hx)
  rw [hothers, Installer.others, hsplit, List.filter_append, List.filter_cons,
    hkeep pre fun x hx => hno x (by simp [hx]), hkeep post fun x hx => hno x (by simp [hx])]
  simp

section Effect

variable {d : Disk} {f : GoString} {m : HostFile} {all all' : List EnvAssignment} {args : List GoString}

theorem loadEnvFile_put (hm : parseEnvFile m.data = .ok all') (g : GoString) (optional : Bool) :
    loadEnvFile (d.put f (.file m)) g optional =
      if clean (47 :: g) = f then .ok all' else loadEnvFile d g optional := by
  unfold loadEnvFile
  by_cases h : clean (47 :: g) = f
  · rw [if_pos h, h, Disk.lookup_put_self]
    simp only [hm]
  · rw [if_neg h, Disk.lookup_put_of_ne d h]

theorem Loaded.load (hf : Loaded d f all) (hclean : clean (47 :: f) = f) {g : GoString}
    (hg : clean (47 :: g) = f) (optional : Bool) : loadEnvFile d g optional = .ok all := by
  unfold loadEnvFile
  rw [hg]
  rcases hf with ⟨hnode, rfl⟩ | ⟨m, hnode, hparse⟩
  · rw [hclean] at hnode
    rw [hnode]
  · rw [hclean] at hnode
    simp only [hnode, hparse]

theorem load_put (hclean : clean (47 :: f) = f) (hf : Loaded d f all)
    (hm : parseEnvFile m.data = .ok all') (hmerged : Merged all all' args) (x : GoString × Bool) :
    others (Installer.load (d.put f (.file m)) x) = others (Installer.load d x) ∧
      extras (Installer.load (d.put f (.file m)) x) =
        if clean (47 :: x.1) = f then [join args 32] else extras (Installer.load d x) := by
  have hafter := loadEnvFile_put (d := d) (f := f) hm x.1 x.2
  unfold Installer.load
  by_cases hx : clean (47 :: x.1) = f
  · rw [if_pos hx] at hafter
    rw [if_pos hx, hafter, hf.load hclean hx]
    exact ⟨hmerged.others, hmerged.extras⟩
  · rw [if_neg hx] at hafter
    rw [if_neg hx, hafter]
    exact ⟨rfl, rfl⟩

theorem others_flatMap (files : List (GoString × Bool)) (part : GoString × Bool → List EnvAssignment) :
    others (files.flatMap part) = files.flatMap fun x => others (part x) := by
  induction files with
  | nil => rfl
  | cons x files ih => rw [List.flatMap_cons, others_append, ih, List.flatMap_cons]

theorem extras_flatMap (files : List (GoString × Bool)) (part : GoString × Bool → List EnvAssignment) :
    extras (files.flatMap part) = files.flatMap fun x => extras (part x) := by
  induction files with
  | nil => rfl
  | cons x files ih => rw [List.flatMap_cons, extras_append, ih, List.flatMap_cons]

theorem flatMap_filter {α β : Type} (l : List α) (p : α → Bool) (g : α → List β)
    (h : ∀ x ∈ l, p x = false → g x = []) : (l.filter p).flatMap g = l.flatMap g := by
  induction l with
  | nil => rfl
  | cons x l ih =>
    have hrest := ih fun y hy => h y (List.mem_cons_of_mem x hy)
    cases hx : p x with
    | true => rw [List.filter_cons_of_pos hx, List.flatMap_cons, List.flatMap_cons, hrest]
    | false =>
      rw [List.filter_cons_of_neg (by simp [hx]), List.flatMap_cons, h x List.mem_cons_self hx, hrest,
        List.nil_append]

theorem getLast?_of_all {α : Type} {l : List α} {v : α} (hne : l ≠ []) (h : ∀ x ∈ l, x = v) :
    l.getLast? = some v := by
  rw [List.getLast?_eq_some_getLast hne]
  exact congrArg some (h _ (List.getLast_mem hne))

inductive Relisted (f : GoString) (all : List EnvAssignment) (files files' : List (GoString × Bool)) : Prop
  | same (h : files' = files)
  | new (hall : all = [])
      (h : files'.filter (fun x => decide (x.1 ≠ f)) = files.filter fun x => decide (x.1 ≠ f))
      (hmem : f ∈ files.map Prod.fst → f ∈ files'.map Prod.fst)

/-- Whatever each file adds, the new file apart, is added again. -/
theorem Relisted.flatMap {files files' : List (GoString × Bool)} (h : Relisted f all files files')
    {β : Type} (g : GoString × Bool → List β) (hg : all = [] → ∀ x, x.1 = f → g x = []) :
    files'.flatMap g = files.flatMap g := by
  cases h with
  | same h => rw [h]
  | new hall h hmem =>
    have hskip : ∀ l : List (GoString × Bool),
        (l.filter fun x => decide (x.1 ≠ f)).flatMap g = l.flatMap g := by
      intro l
      refine flatMap_filter l _ g fun x _ hx => hg hall x ?_
      simpa using hx
    rw [← hskip files', h, hskip]

theorem Relisted.mem {files files' : List (GoString × Bool)} (h : Relisted f all files files') :
    (f ∈ files.map Prod.fst → f ∈ files'.map Prod.fst) ∧ ∀ x ∈ files', x.1 = f ∨ x ∈ files := by
  cases h with
  | same h =>
    subst h
    exact ⟨id, fun x hx => .inr hx⟩
  | new hall h hmem =>
    refine ⟨hmem, fun x hx => ?_⟩
    by_cases hf : x.1 = f
    · exact .inl hf
    · have hin : x ∈ files'.filter fun x => decide (x.1 ≠ f) := List.mem_filter.mpr ⟨hx, decide_eq_true hf⟩
      rw [h] at hin
      exact .inr (List.mem_filter.mp hin).1

/-- The other variables keep what is in effect. -/
theorem others_after {files files' : List (GoString × Bool)} (h : Relisted f all files files')
    (hclean : clean (47 :: f) = f) (hf : Loaded d f all) (hm : parseEnvFile m.data = .ok all')
    (hmerged : Merged all all' args) :
    others (files'.flatMap (load (d.put f (.file m)))) = others (files.flatMap (load d)) := by
  rw [others_flatMap, others_flatMap]
  simp only [fun x => (load_put (d := d) hclean hf hm hmerged x).1]
  refine h.flatMap _ fun hall x hx => ?_
  subst hx
  rw [load, hf.load hclean hclean, hall]
  rfl

inductive Picked (d : Disk) (f : GoString) (all : List EnvAssignment) (files : List (GoString × Bool)) : Prop
  | assigns (pre : List (GoString × Bool)) (x : GoString × Bool) (post : List (GoString × Bool))
      (hfiles : files = pre ++ x :: post) (hx : x.1 = f) (hne : extras all ≠ [])
      (hpost : ∀ y ∈ post, extras (load d y) = [])
  | none (hmem : f ∈ files.map Prod.fst) (hnone : ∀ x ∈ files, extras (load d x) = [])

/-- The variable gets the new arguments. -/
theorem extras_after {files files' : List (GoString × Bool)} (h : Relisted f all files files')
    (hclean : clean (47 :: f) = f) (hf : Loaded d f all) (hm : parseEnvFile m.data = .ok all')
    (hmerged : Merged all all' args) (hpick : Picked d f all files) :
    (extras (files'.flatMap (load (d.put f (.file m))))).getLast? = some (join args 32) := by
  rw [extras_flatMap]
  simp only [fun x => (load_put (d := d) hclean hf hm hmerged x).2]
  cases hpick with
  | assigns pre x post hfiles hxf hne hpost =>
    subst hfiles
    -- the file is there, so the same files are read, and none after it assigns the variable
    have hsame : files' = pre ++ x :: post := by
      cases h with
      | same h => exact h
      | new hall =>
        subst hall
        exact absurd rfl hne
    have hlater : post.flatMap (fun x => if clean (47 :: x.1) = f then [join args 32] else
        extras (load d x)) = [] := by
      rw [List.flatMap_eq_nil_iff]
      intro x hx
      have hx' := hpost x hx
      rw [if_neg, hx']
      intro halias
      rw [load, hf.load hclean halias] at hx'
      exact hne hx'
    rw [hsame, List.flatMap_append, List.flatMap_cons, hlater, hxf, if_pos hclean]
    simp
  | none hmem hnone =>
    have hmem' := h.mem.1 hmem
    refine getLast?_of_all ?_ ?_
    · obtain ⟨x, hx, hxf⟩ := List.mem_map.mp hmem'
      refine List.ne_nil_of_mem (a := join args 32) (List.mem_flatMap.mpr ⟨x, hx, ?_⟩)
      rw [hxf, if_pos hclean]
      exact List.mem_singleton_self _
    · intro v hv
      obtain ⟨x, hx, hv⟩ := List.mem_flatMap.mp hv
      split_ifs at hv with halias
      · exact List.mem_singleton.mp hv
      · rcases h.mem.2 x hx with hxf | hx
        · exact absurd (hxf ▸ hclean) halias
        · rw [hnone x hx] at hv
          cases hv

end Effect

def content (d : Disk) (p : GoString) : GoString :=
  match d.lookup p with
  | some (.file m) => m.data
  | _ => []

/-- One of the two flags. -/
def ProviderFlag (flag : GoString) : Prop := flag = flagBinDir ∨ flag = flagConfigFile

/-- The arguments without the two flags, each with its value in the same argument or in the
next. -/
inductive Stripped : List GoString → List GoString → Prop
  | nil : Stripped [] []
  | keep {arg : GoString} {args kept : List GoString} (h : Foreign arg) (hrest : Stripped args kept) :
      Stripped (arg :: args) (arg :: kept)
  | joined {flag value : GoString} {args kept : List GoString} (h : ProviderFlag flag)
      (hrest : Stripped args kept) : Stripped ((flag ++ [61] ++ value) :: args) kept
  | apart {flag value : GoString} {args kept : List GoString} (h : ProviderFlag flag)
      (hrest : Stripped args kept) : Stripped (flag :: value :: args) kept
  | last {flag : GoString} (h : ProviderFlag flag) : Stripped [flag] []

theorem stripped_strip (args : List GoString) : Stripped args (stripCredentialProviderFlags args) := by
  have hlen : ∀ n, ∀ args : List GoString, args.length ≤ n → Stripped args (stripFrom false args) := by
    intro n
    induction n with
    | zero =>
      intro args hargs
      rw [List.length_eq_zero_iff.mp (Nat.le_zero.mp hargs)]
      exact .nil
    | succ n ih =>
      intro args hargs
      cases args with
      | nil => exact .nil
      | cons arg rest =>
        rw [stripFrom]
        rw [List.length_cons] at hargs
        split_ifs with hflag hjoined
        · cases rest with
          | nil => exact .last hflag
          | cons value rest =>
            rw [List.length_cons] at hargs
            exact .apart hflag (ih rest (by omega))
        · rw [Bool.or_eq_true, hasPrefix_iff, hasPrefix_iff] at hjoined
          rcases hjoined with ⟨value, rfl⟩ | ⟨value, rfl⟩
          · exact .joined (.inl rfl) (ih rest (by omega))
          · exact .joined (.inr rfl) (ih rest (by omega))
        · rw [not_or] at hflag
          rw [Bool.or_eq_true, not_or, Bool.not_eq_true, Bool.not_eq_true] at hjoined
          exact .keep ⟨hflag.1, hflag.2, hjoined.1, hjoined.2⟩ (ih rest (by omega))
  exact hlen args.length args le_rfl

/-- The arguments that count: those in effect or, in the shape an earlier installer left, those of
the operator's line. -/
inductive PreviousArgs (existing : GoString) (before : List EnvAssignment) (args : List GoString) : Prop
  | repaired (all : List EnvAssignment) (a b : EnvAssignment) (hparse : parseEnvFile existing = .ok all)
      (hextra : extraAssignments all = [a, b])
      (hshape : appendedByEarlierInstaller a b (contentLines existing) = true)
      (hargs : args = splitArgs a.value)
  | inEffect (hshape : ∀ all, parseEnvFile existing = .ok all → ¬ TwoLines existing all)
      (hargs : args = splitArgs ((effective before extraArgsKey).getD []))

theorem kubeletEnvFiles_path {f : GoString} (hf : f ∈ kubeletEnvFiles) :
    clean (47 :: f) = f ∧ f ≠ [47] ∧ pathJoin (pathDir f) (pathBase f) = f := by
  simp only [kubeletEnvFiles, List.mem_cons, List.not_mem_nil, or_false] at hf
  rcases hf with rfl | rfl <;> decide

theorem loaded_content {d : Disk} {f : GoString} (hclean : clean (47 :: f) = f) {a all : List EnvAssignment}
    (hf : Loaded d f a) (hparse : parseEnvFile (content d f) = .ok all) : a = all := by
  unfold content at hparse
  rcases hf with ⟨hnode, rfl⟩ | ⟨m, hnode, ha⟩
  · rw [hclean] at hnode
    rw [hnode] at hparse
    have hempty : parseEnvFile [] = .ok [] := by decide
    rw [hempty] at hparse
    exact Except.ok.inj hparse
  · rw [hclean] at hnode
    rw [hnode, ha] at hparse
    exact Except.ok.inj hparse

theorem extras_eq_nil {all : List EnvAssignment} : extras all = [] ↔ hasExtra all = false := by
  rw [hasExtra_eq_false, extras, List.map_eq_nil_iff]

theorem operatorArgs_isArg {all : List EnvAssignment} : ∀ x ∈ operatorArgs all, IsArg x := by
  intro x hx
  unfold operatorArgs at hx
  split at hx
  · cases hx
  · exact (splitArgsFrom_mem _ [] x (by simp) hx).1

/-- The arguments of the first assignment are those that counted before. -/
theorem previousArgs {existing : GoString} {all before : List EnvAssignment}
    (hparse : parseEnvFile existing = .ok all)
    (hcount : (extraAssignments all).length ≤ 1 ∨ TwoLines existing all)
    (hlast : (extras before).getLast? = (extras all).getLast?) :
    PreviousArgs existing before (operatorArgs all) := by
  by_cases htwo : TwoLines existing all
  · obtain ⟨a, b, hextra, hshape⟩ := htwo
    exact .repaired all a b hparse hextra hshape (by rw [operatorArgs, hextra])
  · refine .inEffect ?_ ?_
    · intro all' hparse'
      rw [hparse] at hparse'
      cases hparse'
      exact htwo
    · rw [effective_extra, hlast, operatorArgs, extras]
      rcases hextra : extraAssignments all with _ | ⟨a, _ | ⟨b, rest⟩⟩
      · rfl
      · rfl
      · rw [hextra] at hcount
        rcases hcount with hcount | hcount
        · simp at hcount
        · exact absurd hcount htwo

/-- What systemd reads before, and where the picked file stands in it. -/
theorem picked {d : Disk} {env : UnitEnvironment} {f : GoString} {all : List EnvAssignment}
    (hf : kubeletEnvFile d env = .ok f) (hparse : parseEnvFile (content d f) = .ok all) :
    ∃ files, listFiles d env.files = .ok files ∧
      (∀ x ∈ files, ∃ a, loadEnvFile d x.1 x.2 = .ok a) ∧
      systemdReads d env.files = .ok (files.flatMap (load d)) ∧ Loaded d f all ∧ Picked d f all files ∧
      (extras (files.flatMap (load d))).getLast? = (extras all).getLast? := by
  obtain ⟨hop, files, read, hfiles, hread, hloaded, hpick⟩ := kubeletEnvFile_eq_ok hf
  obtain ⟨hclean, -, -⟩ := kubeletEnvFiles_path hop
  have hread' := readFiles_eq_ok hread
  have hbefore : systemdReads d env.files = .ok (files.flatMap (load d)) := by
    rw [systemdReads, hfiles, ok_bind, hread, ok_bind, hread', List.flatMap_map]
  have hself : ∀ x ∈ files, x.1 = f → Loaded d f all ∧ load d x = all := by
    intro x hx hxf
    have hmem : (x.1, load d x) ∈ read := by
      rw [hread']
      exact List.mem_map_of_mem hx
    have hload := hloaded _ hmem hxf
    have heq := loaded_content hclean hload hparse
    exact ⟨heq ▸ hload, heq⟩
  refine ⟨files, hfiles, load_of_readFiles hread, hbefore, ?_⟩
  rcases hpick with ⟨pre, a, post, hsplit, ha, hpost⟩ | ⟨hmem, hno⟩
  · rw [hread', List.map_eq_append_iff] at hsplit
    obtain ⟨pre', rest, rfl, -, hrest⟩ := hsplit
    rw [List.map_eq_cons_iff] at hrest
    obtain ⟨x, post', rfl, hx, rfl⟩ := hrest
    obtain ⟨hxf, hxa⟩ := Prod.mk.inj hx
    obtain ⟨hall, heq⟩ := hself x (by simp) hxf
    have hne : extras all ≠ [] := by
      rw [Ne, extras_eq_nil, ← heq, hxa, ha]
      simp
    have hpost' : ∀ x ∈ post', extras (load d x) = [] := fun x hx =>
      extras_eq_nil.mpr (hpost _ (List.mem_map_of_mem hx))
    refine ⟨hall, .assigns pre' x post' rfl hxf hne hpost', ?_⟩
    have hlater : post'.flatMap (fun x => extras (load d x)) = [] := List.flatMap_eq_nil_iff.mpr hpost'
    rw [extras_flatMap, List.flatMap_append, List.flatMap_cons, hlater, heq, List.append_nil,
      List.getLast?_append_of_ne_nil _ hne]
  · rw [hread', List.map_map] at hmem
    obtain ⟨x, hx, hxf⟩ := List.mem_map.mp hmem
    obtain ⟨hall, heq⟩ := hself x hx hxf
    have hno' : ∀ x ∈ files, extras (load d x) = [] := by
      intro y hy
      refine extras_eq_nil.mpr (hno (y.1, load d y) ?_)
      rw [hread']
      exact List.mem_map_of_mem hy
    refine ⟨hall, .none (List.mem_map.mpr ⟨x, hx, hxf⟩) hno', ?_⟩
    rw [extras_flatMap, List.flatMap_eq_nil_iff.mpr hno', ← heq, hno' x hx]

/-- Patch mode changes exactly two flags: when the file that `kubeletEnvFile` picks is replaced by
the output of `mergeExtraArgs`, the arguments in effect are those that counted before without the
credential-provider flags, followed by the two new ones, and every other variable is as before. A
new file may be one more match of a wildcard, so the files are those the settings expand to
then. -/
theorem patch_changes_two_flags {d : Disk} {env : UnitEnvironment} {f binDir configFile out : GoString}
    (hbin : validNodePath binDir = true) (hconfig : validNodePath configFile = true)
    (hf : kubeletEnvFile d env = .ok f)
    (hmerge : mergeExtraArgs (content d f) binDir configFile = .ok out) (mode : Nat) (owner : FileOwner) :
    ∃ before args kept, systemdReads d env.files = .ok before ∧
      PreviousArgs (content d f) before args ∧ Stripped args kept ∧
      ((d.lookup f).isSome = true →
        listFiles (d.put f (.file ⟨out, mode, owner⟩)) env.files = listFiles d env.files) ∧
      ∀ files, listFiles (d.put f (.file ⟨out, mode, owner⟩)) env.files = .ok files →
        ∃ after v, systemdReads (d.put f (.file ⟨out, mode, owner⟩)) env.files = .ok after ∧
          effective after extraArgsKey = some v ∧
          splitArgs v = kept ++ ourFlags binDir configFile ∧
          flagValue (splitArgs v) flagBinDir = binDir ∧
          flagValue (splitArgs v) flagConfigFile = configFile ∧
          ∀ key, key ≠ extraArgsKey → effective after key = effective before key := by
  obtain ⟨hclean, hroot, hself⟩ := kubeletEnvFiles_path (kubeletEnvFile_eq_ok hf).1
  obtain ⟨all, all', hparse, hparse', hcount, hmerged⟩ := mergeExtraArgs_reads hbin hconfig hmerge
  obtain ⟨files, hfiles, hloads, hbefore, hall, hpick, hlast⟩ := picked hf hparse
  refine ⟨files.flatMap (load d), operatorArgs all, stripCredentialProviderFlags (operatorArgs all), hbefore,
    previousArgs hparse hcount hlast, stripped_strip _, fun hsome => ?_, fun files' hfiles' => ?_⟩
  · rcases hall with ⟨hnode, -⟩ | ⟨m, hnode, -⟩
    · rw [hclean] at hnode
      rw [hnode] at hsome
      cases hsome
    · exact listFiles_put_file (hclean ▸ hnode) hroot env.files
  · have hrel : Relisted f all files files' := by
      rcases hall with ⟨hnode, hnil⟩ | ⟨m, hnode, -⟩
      · obtain ⟨files₀, hfiles₀, hfilter, hmem⟩ := listFiles_put_new (hclean ▸ hnode) hroot hself hfiles'
        rw [hfiles] at hfiles₀
        cases hfiles₀
        exact .new hnil hfilter hmem
      · rw [listFiles_put_file (hclean ▸ hnode) hroot, hfiles] at hfiles'
        cases hfiles'
        exact .same rfl
    have hread : readFiles (d.put f (.file ⟨out, mode, owner⟩)) files' = .ok (files'.map fun x =>
        (x.1, load (d.put f (.file ⟨out, mode, owner⟩)) x)) := by
      refine readFiles_of_load fun x hx => ?_
      rw [loadEnvFile_put hparse']
      split_ifs with halias
      · exact ⟨all', rfl⟩
      · rcases hrel.mem.2 x hx with hxf | hx
        · exact absurd (hxf ▸ hclean) halias
        · exact hloads x hx
    have hkept : ∀ x ∈ stripCredentialProviderFlags (operatorArgs all) ++ ourFlags binDir configFile,
        IsArg x := by
      intro x hx
      rcases List.mem_append.mp hx with hx | hx
      · exact operatorArgs_isArg x (stripFrom_foreign false _ x hx).1
      · exact (ourFlags_plain hbin hconfig x hx).arg
    have hsplit := splitArgs_join hkept
    obtain ⟨hflagBin, hflagConfig⟩ := flagValue_ourFlags
      (stripCredentialProviderFlags (operatorArgs all)) binDir configFile
    refine ⟨files'.flatMap (load (d.put f (.file ⟨out, mode, owner⟩))), _, ?_, ?_, hsplit, ?_, ?_, ?_⟩
    · rw [systemdReads, hfiles', ok_bind, hread, ok_bind, List.flatMap_map]
    · rw [effective_extra]
      exact extras_after hrel hclean hall hparse' hmerged hpick
    · rw [hsplit, hflagBin]
    · rw [hsplit, hflagConfig]
    · intro key hkey
      rw [effective_other hkey, effective_other hkey, others_after hrel hclean hall hparse' hmerged]

/-- A node whose operator set one flag of kubelet, and a provider flag of their own. -/
def operatorNode : Disk where
  entries := [(lit "/etc", .dir), (lit "/etc/default", .dir), (defaultKubeletPath, .file
    ⟨lit "KUBELET_EXTRA_ARGS=--v=2 --image-credential-provider-config=/old.yaml\nTZ=UTC\n", 420, ⟨0, 0⟩⟩)]
  nodup := by decide

def kubeadmUnit : UnitEnvironment where
  files := [⟨lit "/var/lib/kubelet/kubeadm-flags.env", true⟩, ⟨defaultKubeletPath, true⟩]
  assignments := []

theorem operatorNode_patched : ∃ out after v,
    mergeExtraArgs (content operatorNode defaultKubeletPath) (lit "/opt/bin") (lit "/opt/p.yaml") = .ok out ∧
    systemdReads (operatorNode.put defaultKubeletPath (.file ⟨out, 420, ⟨0, 0⟩⟩)) kubeadmUnit.files = .ok after ∧
    effective after extraArgsKey = some v ∧
    flagValue (splitArgs v) flagConfigFile = lit "/opt/p.yaml" := by
  have hfile : kubeletEnvFile operatorNode kubeadmUnit = .ok defaultKubeletPath := by decide +kernel
  have hmerge : mergeExtraArgs (content operatorNode defaultKubeletPath) (lit "/opt/bin") (lit "/opt/p.yaml") =
      .ok (lit ("KUBELET_EXTRA_ARGS=\"--v=2 --image-credential-provider-bin-dir=/opt/bin " ++
        "--image-credential-provider-config=/opt/p.yaml\"\nTZ=UTC\n")) := by decide +kernel
  obtain ⟨before, args, kept, -, -, -, hsame, hafter⟩ := patch_changes_two_flags
    (by decide +kernel) (by decide +kernel) hfile hmerge 420 ⟨0, 0⟩
  have hsome : (operatorNode.lookup defaultKubeletPath).isSome = true := by decide +kernel
  have hlist : ∃ files, listFiles operatorNode kubeadmUnit.files = .ok files :=
    ⟨[(lit "/var/lib/kubelet/kubeadm-flags.env", true), (defaultKubeletPath, true)], by decide +kernel⟩
  obtain ⟨files, hfiles⟩ := hlist
  obtain ⟨after, v, hread, heff, -, -, hconfig, -⟩ := hafter files ((hsame hsome).trans hfiles)
  exact ⟨_, after, v, hmerge, hread, heff, hconfig⟩

end HarborBridge.Installer
