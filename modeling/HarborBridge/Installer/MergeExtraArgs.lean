import HarborBridge.Installer.EnvValues
import HarborBridge.Installer.NodePath

/-!
# The rewritten environment file

What systemd reads from the output of `mergeExtraArgs`: one `KUBELET_EXTRA_ARGS` assignment,
with the operator's arguments and the two flags, and every other assignment as before.
-/

namespace HarborBridge.Installer

open GoStrings EnvParser

/-! ## mergeExtraArgs -/

def extraAssignments (all : List EnvAssignment) : List EnvAssignment :=
  all.filter fun a => decide (a.key = extraArgsKey)

/-- What can be rewritten as one line. -/
structure Rewritable (lines : List GoString) (a : EnvAssignment) (val : GoString) : Prop where
  one : a.first = a.last
  after : a.afterContinuedComment = false
  val : unquoteExtraArgs (trimEnv (((cut (lines.getD a.first []) 61).map (·.2)).getD [])) = .ok val

/-- The three things `mergeExtraArgs` does: it adds a line, it rewrites the one assignment, or it
rewrites the operator's and drops the line an earlier installer added. -/
inductive MergeCase (existing binDir configFile out : GoString) (all : List EnvAssignment) : Prop
  | adds (hall : extraAssignments all = []) (hopen : openAtEnd existing = false)
      (hout : out = join (contentLines existing ++ [extraArgsLine (ourFlags binDir configFile)]) 10 ++ [10])
  | rewrites (a : EnvAssignment) (val : GoString) (hall : extraAssignments all = [a])
      (ha : Rewritable (contentLines existing) a val)
      (hend : hasSuffix existing [10] = true ∨ openAtEnd existing = false)
      (hout : out = join ((contentLines existing).set a.first (extraArgsLine
        (stripCredentialProviderFlags (splitArgs val) ++ ourFlags binDir configFile))) 10 ++ [10])
  | repairs (a b : EnvAssignment) (val : GoString) (hall : extraAssignments all = [a, b])
      (hearlier : appendedByEarlierInstaller a b (contentLines existing) = true)
      (ha : Rewritable (contentLines existing) a val)
      (hend : hasSuffix existing [10] = true ∨ openAtEnd existing = false)
      (hout : out = join (((contentLines existing).set a.first (extraArgsLine
        (stripCredentialProviderFlags (splitArgs val) ++ ourFlags binDir configFile))).eraseIdx b.first)
          10 ++ [10])

theorem rewriteLine_eq_ok {a : EnvAssignment} {lines ours : List GoString} {line : GoString}
    (h : rewriteLine a lines ours = .ok line) :
    ∃ val, Rewritable lines a val ∧
      line = extraArgsLine (stripCredentialProviderFlags (splitArgs val) ++ ours) := by
  unfold rewriteLine at h
  split_ifs at h with hone hafter
  obtain ⟨val, hval, hline⟩ := bind_eq_ok h
  cases hline
  exact ⟨val, ⟨not_not.mp hone, Bool.eq_false_of_not_eq_true hafter, hval⟩, rfl⟩

theorem mergeExtraArgs_eq_ok {existing binDir configFile out : GoString}
    (h : mergeExtraArgs existing binDir configFile = .ok out) :
    ∃ all, parseEnvFile existing = .ok all ∧ MergeCase existing binDir configFile out all := by
  unfold mergeExtraArgs at h
  obtain ⟨all, hall, h⟩ := bind_eq_ok h
  refine ⟨all, hall, ?_⟩
  have hends : ¬ (hasSuffix existing [10] = false ∧ openAtEnd existing = true) →
      hasSuffix existing [10] = true ∨ openAtEnd existing = false := by
    intro hnot
    rw [not_and_or, Bool.not_eq_false, Bool.not_eq_true] at hnot
    exact hnot
  match hextra : extraAssignments all with
  | [] =>
    have hfilter : all.filter (fun a => decide (a.key = extraArgsKey)) = [] := hextra
    simp only [hfilter] at h
    split_ifs at h with hopen
    cases h
    exact .adds hextra (Bool.eq_false_of_not_eq_true hopen) rfl
  | [a] =>
    have hfilter : all.filter (fun a => decide (a.key = extraArgsKey)) = [a] := hextra
    simp only [hfilter] at h
    obtain ⟨line, hline, h⟩ := bind_eq_ok h
    obtain ⟨val, ha, rfl⟩ := rewriteLine_eq_ok hline
    split_ifs at h with hopen
    cases h
    exact .rewrites a val hextra ha (hends hopen) rfl
  | [a, b] =>
    have hfilter : all.filter (fun a => decide (a.key = extraArgsKey)) = [a, b] := hextra
    simp only [hfilter] at h
    by_cases hearlier : appendedByEarlierInstaller a b (contentLines existing) = true
    · simp only [hearlier, if_true] at h
      obtain ⟨line, hline, h⟩ := bind_eq_ok h
      obtain ⟨val, ha, rfl⟩ := rewriteLine_eq_ok hline
      split_ifs at h with hopen
      cases h
      exact .repairs a b val hextra hearlier ha (hends hopen) rfl
    · simp only [hearlier] at h
      cases h
  | a :: b :: c :: rest =>
    have hfilter : all.filter (fun a => decide (a.key = extraArgsKey)) = a :: b :: c :: rest := hextra
    simp only [hfilter] at h
    cases h

/-! ## The arguments written -/

structure PlainArg (x : GoString) : Prop where
  arg : IsArg x
  valid : systemdValidUTF8 x = true
  plain : ∀ b ∈ x, b ∉ quotingChars ∧ b ≠ 0

theorem plainArg_of_bounds {x : GoString} (hne : x ≠ [])
    (hx : ∀ b ∈ x, 45 ≤ b.toNat ∧ b.toNat ≤ 122 ∧ b ≠ 92 ∧ b ≠ 96) : PlainArg x := by
  refine ⟨⟨hne, fun b hb hws => ?_⟩, systemdValidUTF8_of_ascii fun b hb => ?_, fun b hb => ⟨fun hq => ?_, ?_⟩⟩
  · obtain ⟨hlow, -⟩ := hx b hb
    simp only [envWhitespace, List.mem_cons, List.not_mem_nil, or_false] at hws
    rcases hws with rfl | rfl | rfl | rfl <;> exact absurd hlow (by decide)
  · obtain ⟨-, hhigh, -⟩ := hx b hb
    rw [UInt8.lt_iff_toNat_lt]
    have : (0x80 : UInt8).toNat = 128 := by decide
    omega
  · obtain ⟨hlow, -, h92, h96⟩ := hx b hb
    have hchars : quotingChars = [34, 39, 92, 36, 96] := by decide
    rw [hchars] at hq
    simp only [List.mem_cons, List.not_mem_nil, or_false] at hq
    rcases hq with rfl | rfl | rfl | rfl | rfl
    · exact absurd hlow (by decide)
    · exact absurd hlow (by decide)
    · exact h92 rfl
    · exact absurd hlow (by decide)
    · exact h96 rfl
  · rintro rfl
    exact absurd (hx 0 hb).1 (by decide)

theorem validNodePath_bounds {p : GoString} (h : validNodePath p = true) :
    ∀ b ∈ p, 45 ≤ b.toNat ∧ b.toNat ≤ 122 ∧ b ≠ 92 ∧ b ≠ 96 := by
  have hchars := (Bool.and_eq_true_iff.mp h).2
  unfold nodePathChars at hchars
  split at hchars
  · rename_i rest
    intro b hb
    rcases List.mem_cons.mp hb with rfl | hb
    · decide
    · exact nodePathChar_bounds (List.all_eq_true.mp (Bool.and_eq_true_iff.mp hchars).2 b hb)
  · cases hchars

theorem ourFlags_plain {binDir configFile : GoString} (hbin : validNodePath binDir = true)
    (hconfig : validNodePath configFile = true) : ∀ x ∈ ourFlags binDir configFile, PlainArg x := by
  have hflag : ∀ {flag path : GoString}, (∀ b ∈ flag ++ [61], 45 ≤ b.toNat ∧ b.toNat ≤ 122 ∧ b ≠ 92 ∧ b ≠ 96) →
      validNodePath path = true → PlainArg (flag ++ [61] ++ path) := by
    intro flag path hflag hpath
    refine plainArg_of_bounds (by simp) fun b hb => ?_
    rcases List.mem_append.mp hb with hb | hb
    · exact hflag b hb
    · exact validNodePath_bounds hpath b hb
  intro x hx
  simp only [ourFlags, List.mem_cons, List.not_mem_nil, or_false] at hx
  rcases hx with rfl | rfl
  · exact hflag (by decide +kernel) hbin
  · exact hflag (by decide +kernel) hconfig

theorem kept_plain {val : GoString} (hvalid : systemdValidUTF8 val = true)
    (hval : ∀ b ∈ val, b ∉ quotingChars ∧ b ≠ 0) :
    ∀ x ∈ stripCredentialProviderFlags (splitArgs val), PlainArg x := by
  intro x hx
  obtain ⟨hmem, -⟩ := stripFrom_foreign false _ x hx
  obtain ⟨harg, hbytes, hvalid'⟩ := splitArgsFrom_mem val [] x (by simp) hmem
  exact ⟨harg, hvalid' (by simpa using hvalid), fun b hb => hval b (by simpa using hbytes b hb)⟩

theorem unquoteExtraArgs_eq_ok {s val : GoString} (h : unquoteExtraArgs s = .ok val) :
    (∀ b ∈ val, b ∈ s) ∧ ∀ b ∈ val, b ∉ quotingChars := by
  have hplain : ∀ {t : GoString}, ¬ t.any (fun b => decide (b ∈ quotingChars)) = true →
      ∀ b ∈ t, b ∉ quotingChars := by
    intro t hany b hb hq
    exact hany (List.any_eq_true.mpr ⟨b, hb, decide_eq_true hq⟩)
  simp only [unquoteExtraArgs] at h
  split_ifs at h with hquoted hany hany
  · cases h
    exact ⟨fun b hb => List.mem_of_mem_tail (List.mem_of_mem_dropLast hb), hplain hany⟩
  · cases h
    exact ⟨fun b hb => hb, hplain hany⟩

theorem mem_of_mem_trimEnv {s : GoString} {b : UInt8} (h : b ∈ trimEnv s) : b ∈ s := by
  obtain ⟨before, after, hparts, -⟩ := trimEnv_parts s
  rw [hparts]
  simp [h]

theorem Rewritable.mem {lines : List GoString} {a : EnvAssignment} {val : GoString}
    (h : Rewritable lines a val) : ∀ b ∈ val, b ∈ lines.getD a.first [] := by
  intro b hb
  have hraw := mem_of_mem_trimEnv ((unquoteExtraArgs_eq_ok h.val).1 b hb)
  cases hcut : cut (lines.getD a.first []) 61 with
  | none =>
    rw [hcut] at hraw
    cases hraw
  | some parts =>
    obtain ⟨pre, raw⟩ := parts
    obtain ⟨-, hline⟩ := (cut_eq_some _ _ _ _).mp hcut
    rw [hline]
    simp only [hcut, Option.map_some, Option.getD_some] at hraw
    simp [hraw]

/-- The line written for plain arguments is a line, and reads as them. -/
theorem extraArgsLine_plain {args : List GoString} (hargs : ∀ x ∈ args, PlainArg x) :
    IsLine (extraArgsLine args) ∧ 0 ∉ extraArgsLine args ∧
      systemdValidUTF8 (join args 32) = true ∧ ∀ c ∈ join args 32, c ≠ 34 ∧ c ≠ 92 ∧ c ≠ 10 := by
  have hjoin : ∀ c ∈ join args 32, c ∉ quotingChars ∧ c ≠ 0 ∧ c ∉ envNewline := by
    intro c hc
    rcases mem_join args 32 c hc with rfl | ⟨x, hx, hc⟩
    · decide
    · obtain ⟨harg, -, hplain⟩ := hargs x hx
      refine ⟨(hplain c hc).1, (hplain c hc).2, fun hnl => harg.2 c hc ?_⟩
      simp only [envNewline, List.mem_cons, List.not_mem_nil, or_false] at hnl
      rcases hnl with rfl | rfl <;> decide
  have hkey : ∀ c ∈ extraArgsKey ++ lit "=\"", c ≠ 0 ∧ c ∉ envNewline := by decide +kernel
  have hquote : ∀ c ∈ lit "\"", c ≠ 0 ∧ c ∉ envNewline := by decide +kernel
  have hline : ∀ c ∈ extraArgsLine args, c ≠ 0 ∧ c ∉ envNewline := by
    intro c hc
    rcases List.mem_append.mp hc with hc | hc
    · rcases List.mem_append.mp hc with hc | hc
      · exact hkey c hc
      · exact (hjoin c hc).2
    · exact hquote c hc
  refine ⟨⟨_, [], (List.append_nil _).symm, fun c hc => (hline c hc).2, .inl rfl⟩,
    fun h0 => (hline 0 h0).1 rfl, systemdValidUTF8_join fun x hx => (hargs x hx).valid, fun c hc => ?_⟩
  obtain ⟨hquoting, -, hnl⟩ := hjoin c hc
  refine ⟨?_, ?_, ?_⟩
  · rintro rfl
    exact hquoting (by decide)
  · rintro rfl
    exact hquoting (by decide)
  · rintro rfl
    exact hnl (by decide)

/-! ## What is read back -/

theorem parseEnvFile_of_lines {lines : List GoString} (hnul : 0 ∉ terminated lines)
    (hlines : ∀ L ∈ lines, IsLine L) {r : EnvParser} (hr : readLines start lines = .ok r)
    {all : List EnvAssignment} (hall : r.finish = .ok all) :
    parseEnvFile (terminated lines) = .ok all := by
  have hparse : parseEnvFile (terminated lines ++ []) = .ok all ↔ _ :=
    parseEnvFile_terminated (fun L hL => isLine_feed (hlines L hL)) (by simp) all
  rw [List.append_nil] at hparse
  exact hparse.mpr ⟨hnul, hlines, by simp, r, r, hr, rfl, hall⟩

structure Located (lines : List GoString) (p r : EnvParser) (a : EnvAssignment)
    (before : List GoString) (L : GoString) (after : List GoString) (q q' : EnvParser) : Prop where
  lines_eq : lines = before ++ L :: after
  first : a.first = p.line + before.length
  read : readLines p before = .ok q
  atLine : AtLine q
  state : q.state = .preKey
  line : q.line = a.first
  continued : q.continuedComment = a.afterContinuedComment
  readLine : readLine q L = .ok q'
  out : q'.out = q.out ++ [a]
  state' : q'.state = .preKey
  rest : readLines q' after = .ok r

/-- Every assignment that starts and ends on one line has been read when the lines are. -/
theorem mem_out_of_finish {r : EnvParser} (hr : AtLine r) {all : List EnvAssignment}
    (hall : r.finish = .ok all) {a : EnvAssignment} (ha : a ∈ all) (hone : a.first = a.last) :
    a ∈ r.out := by
  rcases finish_out hall with rfl | ⟨hreading, key, value, rfl⟩
  · exact ha
  · rcases List.mem_append.mp ha with ha | ha
    · exact ha
    · rw [List.mem_singleton.mp ha] at hone
      have := hr.started hreading
      simp only at hone
      omega

theorem located {lines : List GoString} (hlines : ∀ L ∈ lines, IsLine L) {p r : EnvParser}
    (hp : AtLine p) (hr : readLines p lines = .ok r) {a : EnvAssignment} (ha : a ∈ r.out)
    (hone : a.first = a.last) (hle : p.line ≤ a.first) :
    ∃ before L after q q', Located lines p r a before L after q q' := by
  obtain ⟨before, L, after, q, q', hsplit, hfirst, hread, hat, hstate, hline, hcontinued, hreadL, hout, hstate',
    hrest⟩ := readLines_locate hlines hp hr ha hone hle
  exact ⟨before, L, after, q, q', hsplit, hfirst, hread, hat, hstate, hline, hcontinued, hreadL, hout, hstate', hrest⟩

section Located

variable {lines : List GoString} {p r : EnvParser} {a : EnvAssignment} {before : List GoString}
  {L : GoString} {after : List GoString} {q q' : EnvParser}

theorem Located.tidy (h : Located lines p r a before L after q q') (hp : Tidy p) : Tidy q ∧ Tidy q' := by
  have hq := readLines_tidy before hp h.read
  exact ⟨hq, fold_keeps (fun _ _ _ _ => read_tidy) hq h.readLine⟩

theorem Located.value (h : Located lines start r a before L after q q') (hL : IsLine L)
    (hkey : a.key = extraArgsKey) {val : GoString} (ha : Rewritable lines a val) : a.value = val := by
  have hget : lines.getD a.first [] = L := by
    rw [h.first, h.lines_eq]
    simp [start]
  have hval := ha.val
  rw [hget] at hval
  exact readLine_value hL h.state (h.tidy tidy_start).1 h.readLine h.out (by rw [hkey]; decide) hval

/-- Another line of the installer in its place is read, and what follows as before. -/
theorem Located.rewrite (h : Located lines p r a before L after q q') (hp : Tidy p)
    {args : List GoString} (hargs : ∀ x ∈ args, PlainArg x) :
    ∃ q₁, EnvParser.readLine q (extraArgsLine args) = .ok q₁ ∧ Alike q' q₁ ∧
      q₁.out = q.out ++ [⟨extraArgsKey, join args 32, a.first, a.first, a.afterContinuedComment⟩] := by
  obtain ⟨-, -, hvalid, hplain⟩ := extraArgsLine_plain hargs
  obtain ⟨htidy, htidy'⟩ := h.tidy hp
  obtain ⟨q₁, hq₁, hstate, hout⟩ := readLine_extraArgsLine hvalid hplain h.state htidy
  have htidy₁ : Tidy q₁ := fold_keeps (fun _ _ _ _ => read_tidy) htidy hq₁
  rw [h.line, h.continued] at hout
  exact ⟨q₁, hq₁, alike_of_preKey h.state' hstate htidy' htidy₁, hout⟩

end Located

theorem reads_on {after : List GoString} {q r q₁ : EnvParser} (hlike : Alike q q₁)
    (hr : readLines q after = .ok r) {all : List EnvAssignment} (hall : r.finish = .ok all) :
    ∃ r₁ all₁ post post₁, readLines q₁ after = .ok r₁ ∧ r₁.finish = .ok all₁ ∧
      all = q.out ++ post ∧ all₁ = q₁.out ++ post₁ ∧ post₁.map kv = post.map kv := by
  obtain ⟨r₁, hr₁, hlike', added, added₁, hout, hout₁, hkv⟩ := readLines_alike after hlike hr
  obtain ⟨ended, ended₁, hall', hfinish₁, hkv'⟩ := finish_alike hlike' hall
  refine ⟨r₁, _, added ++ ended, added₁ ++ ended₁, hr₁, hfinish₁, ?_, ?_, ?_⟩
  · rw [hall', hout, List.append_assoc]
  · rw [hout₁, List.append_assoc]
  · rw [List.map_append, List.map_append, hkv, hkv']

def operatorArgs (all : List EnvAssignment) : List GoString :=
  match extraAssignments all with
  | [] => []
  | a :: _ => splitArgs a.value

/-- The assignments of other variables, without their places in the file. -/
def others (all : List EnvAssignment) : List (GoString × GoString) :=
  (all.map kv).filter fun x => decide (x.1 ≠ extraArgsKey)

/-- The output has one assignment of the variable, with these arguments, among the other
assignments in their order. -/
def Merged (all all' : List EnvAssignment) (args : List GoString) : Prop :=
  ∃ pre post, all'.map kv = pre ++ (extraArgsKey, join args 32) :: post ∧
    (∀ x ∈ pre ++ post, x.1 ≠ extraArgsKey) ∧ others all = pre ++ post

/-- The output's one assignment of the variable is on a line of its own, the line the installer
writes. -/
def OwnLine (lines : List GoString) (all : List EnvAssignment) (args : List GoString) : Prop :=
  ∃ a, extraAssignments all = [a] ∧ a.first = a.last ∧ a.afterContinuedComment = false ∧
    lines[a.first]? = some (extraArgsLine args)

theorem extraAssignments_append (all all' : List EnvAssignment) :
    extraAssignments (all ++ all') = extraAssignments all ++ extraAssignments all' :=
  List.filter_append ..

theorem extraAssignments_cons {a : EnvAssignment} (ha : a.key = extraArgsKey) (all : List EnvAssignment) :
    extraAssignments (a :: all) = a :: extraAssignments all := by
  simp [extraAssignments, ha]

theorem mem_extraAssignments {a : EnvAssignment} {all : List EnvAssignment} :
    a ∈ extraAssignments all ↔ a ∈ all ∧ a.key = extraArgsKey := by
  simp [extraAssignments]

theorem others_append (all all' : List EnvAssignment) : others (all ++ all') = others all ++ others all' := by
  simp [others]

theorem others_cons {a : EnvAssignment} (ha : a.key = extraArgsKey) (all : List EnvAssignment) :
    others (a :: all) = others all := by
  simp [others, kv, ha]

theorem others_of_none {all : List EnvAssignment} (h : extraAssignments all = []) :
    others all = all.map kv ∧ ∀ x ∈ all.map kv, x.1 ≠ extraArgsKey := by
  have hne : ∀ x ∈ all.map kv, x.1 ≠ extraArgsKey := by
    intro x hx hkey
    obtain ⟨a, ha, rfl⟩ := List.mem_map.mp hx
    have : a ∈ extraAssignments all := mem_extraAssignments.mpr ⟨ha, hkey⟩
    rw [h] at this
    cases this
  exact ⟨List.filter_eq_self.mpr fun x hx => decide_eq_true (hne x hx), hne⟩

theorem extraAssignments_of_kv {all all' : List EnvAssignment} (hkv : all'.map kv = all.map kv)
    (h : extraAssignments all = []) : extraAssignments all' = [] := by
  have hne := (others_of_none h).2
  rw [← hkv] at hne
  rw [List.eq_nil_iff_forall_not_mem]
  intro a ha
  obtain ⟨ha, hkey⟩ := mem_extraAssignments.mp ha
  exact hne (kv a) (List.mem_map_of_mem ha) hkey

theorem ownLine_between {pre post : List EnvAssignment} {a : EnvAssignment} {lines args : List GoString}
    (hpre : extraAssignments pre = []) (hpost : extraAssignments post = []) (hkey : a.key = extraArgsKey)
    (hone : a.first = a.last) (hafter : a.afterContinuedComment = false)
    (hline : lines[a.first]? = some (extraArgsLine args)) : OwnLine lines (pre ++ a :: post) args := by
  refine ⟨a, ?_, hone, hafter, hline⟩
  rw [extraAssignments_append, extraAssignments_cons hkey, hpre, hpost, List.nil_append]

/-- The installer's assignment in the place of another one of the variable. -/
theorem merged_between {pre tail tail' : List EnvAssignment} {a b : EnvAssignment}
    {args : List GoString} (hpre : extraAssignments pre = []) (htail : extraAssignments tail' = [])
    (hothers : others tail = others tail') (ha : a.key = extraArgsKey)
    (hb : kv b = (extraArgsKey, join args 32)) :
    Merged (pre ++ a :: tail) (pre ++ b :: tail') args := by
  refine ⟨pre.map kv, tail'.map kv, ?_, fun x hx => ?_, ?_⟩
  · rw [List.map_append, List.map_cons, hb]
  · rcases List.mem_append.mp hx with hx | hx
    · exact (others_of_none hpre).2 x hx
    · exact (others_of_none htail).2 x hx
  · rw [others_append, others_cons ha, hothers, (others_of_none hpre).1, (others_of_none htail).1]

theorem terminated_nul {lines : List GoString} : 0 ∉ terminated lines ↔ ∀ L ∈ lines, 0 ∉ L := by
  induction lines with
  | nil => simp
  | cons L lines ih => simp [ih]

section Merge

variable {existing binDir configFile out : GoString} {all : List EnvAssignment}

theorem merge_adds (hparse : parseEnvFile existing = .ok all) (hextra : extraAssignments all = [])
    (hopen : openAtEnd existing = false) {args : List GoString} (hargs : ∀ x ∈ args, PlainArg x) :
    ∃ all', parseEnvFile (join (contentLines existing ++ [extraArgsLine args]) 10 ++ [10]) = .ok all' ∧
      Merged all all' args ∧ OwnLine (contentLines existing ++ [extraArgsLine args]) all' args := by
  obtain ⟨hnul, hlines, r, hr, hfinish, hstate⟩ := parseEnvFile_lines hparse (.inr hopen)
  obtain ⟨hline, hnulLine, hvalid, hplain⟩ := extraArgsLine_plain hargs
  have htidy := readLines_tidy _ tidy_start hr
  obtain ⟨q, hq, hstate', hout⟩ := readLine_extraArgsLine hvalid hplain (hstate hopen) htidy
  rw [finish_preKey (hstate hopen)] at hfinish
  cases hfinish
  have hread : readLines start (contentLines existing ++ [extraArgsLine args]) = .ok q := by
    rw [readLines_append, hr, ok_bind, readLines_cons, hq]
    rfl
  have hrline : r.line = (contentLines existing).length := by
    simpa [start] using (readLines_ends hlines rfl hr).1
  refine ⟨q.out, ?_, ⟨r.out.map kv, [], ?_, ?_, ?_⟩, ?_⟩
  · rw [join_feed (by simp)]
    refine parseEnvFile_of_lines (terminated_nul.mpr ?_) ?_ hread (finish_preKey hstate')
    · intro L hL
      rcases List.mem_append.mp hL with hL | hL
      · exact terminated_nul.mp hnul L hL
      · rwa [List.mem_singleton.mp hL]
    · intro L hL
      rcases List.mem_append.mp hL with hL | hL
      · exact hlines L hL
      · rwa [List.mem_singleton.mp hL]
  · rw [hout, List.map_append]
    rfl
  · simpa using (others_of_none hextra).2
  · simpa using (others_of_none hextra).1
  · rw [hout]
    refine ownLine_between hextra rfl rfl rfl (openAtEnd_continued hopen hr) ?_
    rw [hrline]
    simp

theorem Rewritable.plain {lines : List GoString} (hnul : ∀ L ∈ lines, 0 ∉ L) {a : EnvAssignment}
    {val : GoString} (h : Rewritable lines a val) : ∀ b ∈ val, b ∉ quotingChars ∧ b ≠ 0 := by
  intro b hb
  refine ⟨(unquoteExtraArgs_eq_ok h.val).2 b hb, ?_⟩
  rintro rfl
  have hmem := h.mem 0 hb
  rw [List.getD_eq_getElem?_getD] at hmem
  cases hget : lines[a.first]? with
  | none => simp [hget] at hmem
  | some L =>
    rw [hget] at hmem
    exact hnul L (List.mem_of_getElem? hget) hmem

/-- The assignment that is rewritten, its line, and the arguments for the line. -/
theorem operator_located (hparse : parseEnvFile existing = .ok all)
    (hend : hasSuffix existing [10] = true ∨ openAtEnd existing = false) {a : EnvAssignment}
    (hmem : a ∈ extraAssignments all) {val : GoString}
    (ha : Rewritable (contentLines existing) a val) {ours : List GoString}
    (hours : ∀ x ∈ ours, PlainArg x) :
    (∀ L ∈ contentLines existing, IsLine L ∧ 0 ∉ L) ∧ a.value = val ∧
      (∀ x ∈ stripCredentialProviderFlags (splitArgs val) ++ ours, PlainArg x) ∧
      ∃ r before L after q q', r.finish = .ok all ∧ AtLine r ∧
        Located (contentLines existing) start r a before L after q q' := by
  obtain ⟨hnul, hlines, r, hr, hfinish, -⟩ := parseEnvFile_lines hparse hend
  rw [terminated_nul] at hnul
  obtain ⟨hmem, hkey⟩ := mem_extraAssignments.mp hmem
  have hat : AtLine r := (readLines_out hlines atLine_start hr).choose_spec.2.2
  have hout : a ∈ r.out := mem_out_of_finish hat hfinish hmem ha.one
  obtain ⟨before, L, after, q, q', hloc⟩ := located hlines atLine_start hr hout ha.one (Nat.zero_le _)
  have hvalue : a.value = val := hloc.value (hlines L (by simp [hloc.lines_eq])) hkey ha
  have hvalid : systemdValidUTF8 val = true := hvalue ▸ readLines_valid _ valid_start hr a hout
  refine ⟨fun L hL => ⟨hlines L hL, hnul L hL⟩, hvalue, fun x hx => ?_,
    r, before, L, after, q, q', hfinish, hat, hloc⟩
  rcases List.mem_append.mp hx with hx | hx
  · exact kept_plain hvalid (ha.plain hnul) x hx
  · exact hours x hx

theorem parseEnvFile_rewritten {lines lines' : List GoString} {L' : GoString}
    (hlines : ∀ M ∈ lines, IsLine M ∧ 0 ∉ M) (hL' : IsLine L' ∧ 0 ∉ L')
    (hsub : ∀ M ∈ lines', M = L' ∨ M ∈ lines) (hne : lines' ≠ []) {r : EnvParser}
    (hr : readLines start lines' = .ok r) (hall : r.finish = .ok all) :
    parseEnvFile (join lines' 10 ++ [10]) = .ok all := by
  have hlines' : ∀ M ∈ lines', IsLine M ∧ 0 ∉ M := by
    intro M hM
    rcases hsub M hM with rfl | hM
    · exact hL'
    · exact hlines M hM
  rw [join_feed hne]
  exact parseEnvFile_of_lines (terminated_nul.mpr fun M hM => (hlines' M hM).2)
    (fun M hM => (hlines' M hM).1) hr hall

theorem extraAssignments_only {pre post : List EnvAssignment} {a : EnvAssignment}
    (ha : a.key = extraArgsKey) (h : extraAssignments (pre ++ a :: post) = [a]) :
    extraAssignments pre = [] ∧ extraAssignments post = [] := by
  rw [extraAssignments_append, extraAssignments_cons ha] at h
  cases hpre : extraAssignments pre with
  | nil => simpa [hpre] using h
  | cons x xs => simp [hpre] at h

theorem merge_rewrites (hparse : parseEnvFile existing = .ok all)
    (hend : hasSuffix existing [10] = true ∨ openAtEnd existing = false) {a : EnvAssignment}
    (hextra : extraAssignments all = [a]) {val : GoString}
    (ha : Rewritable (contentLines existing) a val) {ours : List GoString}
    (hours : ∀ x ∈ ours, PlainArg x) :
    a.value = val ∧ (∀ x ∈ stripCredentialProviderFlags (splitArgs val) ++ ours, PlainArg x) ∧
      ∃ all', parseEnvFile (join ((contentLines existing).set a.first (extraArgsLine
        (stripCredentialProviderFlags (splitArgs val) ++ ours))) 10 ++ [10]) = .ok all' ∧
      Merged all all' (stripCredentialProviderFlags (splitArgs val) ++ ours) ∧
      OwnLine ((contentLines existing).set a.first (extraArgsLine
        (stripCredentialProviderFlags (splitArgs val) ++ ours))) all'
        (stripCredentialProviderFlags (splitArgs val) ++ ours) := by
  have hmem : a ∈ extraAssignments all := by simp [hextra]
  have hkey := (mem_extraAssignments.mp hmem).2
  obtain ⟨hlines, hvalue, hargs, r, before, L, after, q, q', hfinish, -, hloc⟩ :=
    operator_located hparse hend hmem ha hours
  generalize stripCredentialProviderFlags (splitArgs val) ++ ours = args at hargs ⊢
  obtain ⟨hline, hnulLine, -⟩ := extraArgsLine_plain hargs
  obtain ⟨q₁, hq₁, hlike, hout₁⟩ := hloc.rewrite tidy_start hargs
  obtain ⟨r₁, all₁, post, post₁, hr₁, hfinish₁, hall, hall₁, hpost⟩ := reads_on hlike hloc.rest hfinish
  have hset : (contentLines existing).set a.first (extraArgsLine args) =
      before ++ extraArgsLine args :: after := by
    rw [hloc.lines_eq, hloc.first]
    simp [start]
  have hread : readLines start (before ++ extraArgsLine args :: after) = .ok r₁ := by
    rw [readLines_append, hloc.read, ok_bind, readLines_cons, hq₁, ok_bind, hr₁]
  have hall' : all = q.out ++ a :: post := by simp [hall, hloc.out]
  have hall₁' : all₁ = q.out ++ ⟨extraArgsKey, join args 32, a.first, a.first, a.afterContinuedComment⟩ :: post₁ := by
    simp [hall₁, hout₁]
  obtain ⟨hpre, hrest⟩ := extraAssignments_only hkey (hall' ▸ hextra)
  have hrest₁ := extraAssignments_of_kv hpost hrest
  refine ⟨hvalue, hargs, all₁, ?_, ?_, ?_⟩
  · rw [hset]
    refine parseEnvFile_rewritten hlines ⟨hline, hnulLine⟩ (fun M hM => ?_) (by simp) hread hfinish₁
    rw [hloc.lines_eq]
    simp only [List.mem_append, List.mem_cons] at hM ⊢
    tauto
  · rw [hall', hall₁']
    exact merged_between hpre hrest₁ (by rw [others, others, hpost]) hkey rfl
  · rw [hall₁', hset]
    exact ownLine_between hpre hrest₁ rfl rfl ha.after (by simp [hloc.first, start])

theorem extraAssignments_split {pre post rest : List EnvAssignment} {a : EnvAssignment}
    (ha : a.key = extraArgsKey) (hnot : a ∉ pre)
    (h : extraAssignments (pre ++ a :: post) = a :: rest) :
    extraAssignments pre = [] ∧ extraAssignments post = rest := by
  rw [extraAssignments_append, extraAssignments_cons ha] at h
  cases hpre : extraAssignments pre with
  | nil => simpa [hpre] using h
  | cons x xs =>
    rw [hpre, List.cons_append, List.cons.injEq] at h
    have hx : x ∈ extraAssignments pre := by simp [hpre]
    exact absurd (h.1 ▸ (mem_extraAssignments.mp hx).1) hnot

theorem merge_repairs (hparse : parseEnvFile existing = .ok all)
    (hend : hasSuffix existing [10] = true ∨ openAtEnd existing = false) {a b : EnvAssignment}
    (hextra : extraAssignments all = [a, b]) (hone : b.first = b.last) {val : GoString}
    (ha : Rewritable (contentLines existing) a val) {ours : List GoString}
    (hours : ∀ x ∈ ours, PlainArg x) :
    a.value = val ∧ (∀ x ∈ stripCredentialProviderFlags (splitArgs val) ++ ours, PlainArg x) ∧
      ∃ all', parseEnvFile (join (((contentLines existing).set a.first (extraArgsLine
        (stripCredentialProviderFlags (splitArgs val) ++ ours))).eraseIdx b.first) 10 ++ [10]) = .ok all' ∧
      Merged all all' (stripCredentialProviderFlags (splitArgs val) ++ ours) ∧
      OwnLine (((contentLines existing).set a.first (extraArgsLine
        (stripCredentialProviderFlags (splitArgs val) ++ ours))).eraseIdx b.first) all'
        (stripCredentialProviderFlags (splitArgs val) ++ ours) := by
  have hmem : a ∈ extraAssignments all := by simp [hextra]
  have hmem' : b ∈ extraAssignments all := by simp [hextra]
  have hkey := (mem_extraAssignments.mp hmem).2
  have hkey' := (mem_extraAssignments.mp hmem').2
  obtain ⟨hlines, hvalue, hargs, r, before, L, after, q, q', hfinish, hat, hloc⟩ :=
    operator_located hparse hend hmem ha hours
  generalize stripCredentialProviderFlags (splitArgs val) ++ ours = args at hargs ⊢
  obtain ⟨hline, hnulLine, -⟩ := extraArgsLine_plain hargs
  have hafter : ∀ M ∈ after, IsLine M := fun M hM => (hlines M (by simp [hloc.lines_eq, hM])).1
  have hq' : AtLine q' := hloc.atLine.readLine (hlines L (by simp [hloc.lines_eq])).1 hloc.readLine
  obtain ⟨rest, hrout, hrest, -⟩ := readLines_out hafter hq' hloc.rest
  have hnot : a ∉ q.out := by
    intro hin
    have := hloc.atLine.ended a hin
    have := hloc.line
    have := ha.one
    omega
  -- the added line comes after the operator's
  have hb : b ∈ rest := by
    obtain ⟨more, hmore, hlate⟩ : ∃ more, all = r.out ++ more ∧ ∀ x ∈ more, x.first < x.last := by
      rcases finish_out hfinish with rfl | ⟨hreading, key, value, rfl⟩
      · exact ⟨[], by simp, by simp⟩
      · exact ⟨_, rfl, by simpa using hat.started hreading⟩
    rw [hmore, hrout, hloc.out] at hextra
    have hextra' : extraAssignments (q.out ++ a :: (rest ++ more)) = [a, b] := by simpa using hextra
    have hsplit := extraAssignments_split hkey hnot hextra'
    have hin : b ∈ extraAssignments (rest ++ more) := by simp [hsplit.2]
    refine (List.mem_append.mp (mem_extraAssignments.mp hin).1).resolve_right fun hin => ?_
    have := hlate b hin
    omega
  obtain ⟨before', L', after', p, p', hloc'⟩ := located hafter hq' hloc.rest
    (by rw [hrout]; exact List.mem_append_right _ hb) hone (hone ▸ hrest b hb)
  obtain ⟨q₁, hq₁, hlike, hout₁⟩ := hloc.rewrite tidy_start hargs
  obtain ⟨p₁, hp₁, hlike', mid, mid₁, hmid, hmid₁, hmidkv⟩ := readLines_alike before' hlike hloc'.read
  have htidy' := (hloc.tidy tidy_start).2
  have htidy₁ : Tidy p₁ := by
    have hq := (hloc.tidy tidy_start).1
    exact readLines_tidy _ (fold_keeps (fun _ _ _ _ => read_tidy) hq hq₁) hp₁
  have hskip : Alike p' p₁ := alike_of_preKey hloc'.state' (hlike'.state.trans hloc'.state)
    (hloc'.tidy htidy').2 htidy₁
  obtain ⟨r₁, all₁, post, post₁, hr₁, hfinish₁, hall, hall₁, hpost⟩ := reads_on hskip hloc'.rest hfinish
  have hall' : all = q.out ++ a :: (mid ++ b :: post) := by
    rw [hall, hloc'.out, hmid, hloc.out]
    simp
  rw [hall'] at hextra
  obtain ⟨hpre, hrest⟩ := extraAssignments_split hkey hnot hextra
  obtain ⟨hmidNone, hpostNone⟩ := extraAssignments_only hkey' hrest
  have htail₁ : extraAssignments (mid₁ ++ post₁) = [] := by
    rw [extraAssignments_append, extraAssignments_of_kv hmidkv hmidNone,
      extraAssignments_of_kv hpost hpostNone, List.append_nil]
  have hlinesEq : contentLines existing = before ++ L :: (before' ++ L' :: after') := by
    rw [hloc.lines_eq, hloc'.lines_eq]
  have herase : ((contentLines existing).set a.first (extraArgsLine args)).eraseIdx b.first =
      before ++ extraArgsLine args :: (before' ++ after') := by
    have hfirst : a.first = before.length := by rw [hloc.first]; simp [start]
    have hfirst' : b.first = (before ++ extraArgsLine args :: before').length := by
      have hline := (readLine_ends (hlines L (by simp [hlinesEq])).1 hloc.readLine).2.1
      rw [hloc'.first, hline, hloc.line, hfirst]
      simp
      omega
    have hset : (contentLines existing).set a.first (extraArgsLine args) =
        (before ++ extraArgsLine args :: before') ++ L' :: after' := by
      rw [hlinesEq, hfirst]
      simp
    rw [hset, hfirst', List.eraseIdx_append_of_length_le (le_refl _)]
    simp
  have hread : readLines start (before ++ extraArgsLine args :: (before' ++ after')) = .ok r₁ := by
    rw [readLines_append, hloc.read, ok_bind, readLines_cons, hq₁, ok_bind, readLines_append, hp₁,
      ok_bind, hr₁]
  have hall₁' : all₁ = q.out ++ ⟨extraArgsKey, join args 32, a.first, a.first, a.afterContinuedComment⟩ ::
      (mid₁ ++ post₁) := by
    simp [hall₁, hmid₁, hout₁]
  refine ⟨hvalue, hargs, all₁, ?_, ?_, ?_⟩
  · rw [herase]
    refine parseEnvFile_rewritten hlines ⟨hline, hnulLine⟩ (fun M hM => ?_) (by simp) hread hfinish₁
    rw [hlinesEq]
    simp only [List.mem_append, List.mem_cons] at hM ⊢
    tauto
  · rw [hall', hall₁']
    refine merged_between hpre htail₁ ?_ hkey rfl
    rw [others_append, others_cons hkey', others_append, others, others, others, others, hpost, hmidkv]
  · rw [hall₁', herase]
    exact ownLine_between hpre htail₁ rfl rfl ha.after (by simp [hloc.first, start])

/-- The two-line shape an earlier installer left. -/
def TwoLines (existing : GoString) (all : List EnvAssignment) : Prop :=
  ∃ a b, extraAssignments all = [a, b] ∧ appendedByEarlierInstaller a b (contentLines existing) = true

theorem appendedByEarlierInstaller_one {a b : EnvAssignment} {lines : List GoString}
    (h : appendedByEarlierInstaller a b lines = true) : b.first = b.last := by
  unfold appendedByEarlierInstaller at h
  split_ifs at h with hprefixed hone
  exact not_not.mp (not_or.mp hone).1

/-- The lines of the output: those of the input but for the one that is added, rewritten or
dropped. -/
inductive LinesKept (existing : GoString) (all : List EnvAssignment) (line : GoString)
    (lines : List GoString) : Prop
  | added (hall : extraAssignments all = []) (hlines : lines = contentLines existing ++ [line])
  | rewritten (a : EnvAssignment) (hall : extraAssignments all = [a])
      (hlines : lines = (contentLines existing).set a.first line)
  | repaired (a b : EnvAssignment) (hall : extraAssignments all = [a, b])
      (hearlier : appendedByEarlierInstaller a b (contentLines existing) = true)
      (hlines : lines = ((contentLines existing).set a.first line).eraseIdx b.first)

theorem contentLines_join {lines : List GoString} (hne : lines ≠ []) (hlines : ∀ L ∈ lines, (10 : UInt8) ∉ L) :
    contentLines (join lines 10 ++ [10]) = lines := by
  rw [join_feed hne, ← List.append_nil (terminated lines), contentLines_terminated hlines (by simp),
    if_pos rfl]

structure Output (existing binDir configFile out : GoString) (all all' : List EnvAssignment)
    (args : List GoString) : Prop where
  args_eq : args = stripCredentialProviderFlags (operatorArgs all) ++ ourFlags binDir configFile
  plain : ∀ x ∈ args, PlainArg x
  merged : Merged all all' args
  kept : LinesKept existing all (extraArgsLine args) (contentLines out)
  own : OwnLine (contentLines out) all' args
  ended : out = join (contentLines out) 10 ++ [10]

theorem Output.of_lines {all' : List EnvAssignment} {args lines : List GoString}
    (hargs : args = stripCredentialProviderFlags (operatorArgs all) ++ ourFlags binDir configFile)
    (hplain : ∀ x ∈ args, PlainArg x) (hmerged : Merged all all' args)
    (hkept : LinesKept existing all (extraArgsLine args) lines) (hown : OwnLine lines all' args)
    (hlines : ∀ L ∈ lines, L = extraArgsLine args ∨ L ∈ contentLines existing)
    (hout : out = join lines 10 ++ [10]) : Output existing binDir configFile out all all' args := by
  have hne : lines ≠ [] := by
    rintro rfl
    obtain ⟨a, -, -, -, hline⟩ := hown
    cases hline
  have hcontent : contentLines out = lines := by
    rw [hout]
    apply contentLines_join hne
    intro L hL
    rcases hlines L hL with rfl | hL
    · exact isLine_feed (extraArgsLine_plain hplain).1
    · exact contentLines_feed existing L hL
  exact ⟨hargs, hplain, hmerged, by rwa [hcontent], by rwa [hcontent], by rw [hcontent, hout]⟩

theorem mergeExtraArgs_spec (hbin : validNodePath binDir = true)
    (hconfig : validNodePath configFile = true)
    (h : mergeExtraArgs existing binDir configFile = .ok out) :
    ∃ all all' args, parseEnvFile existing = .ok all ∧ parseEnvFile out = .ok all' ∧
      Output existing binDir configFile out all all' args := by
  obtain ⟨all, hparse, hcase⟩ := mergeExtraArgs_eq_ok h
  have hours := ourFlags_plain hbin hconfig
  cases hcase with
  | adds hall hopen hout =>
    obtain ⟨all', hparse', hmerged, hown⟩ := merge_adds hparse hall hopen hours
    refine ⟨all, all', _, hparse, hout ▸ hparse', .of_lines ?_ hours hmerged (.added hall rfl) hown ?_ hout⟩
    · rw [operatorArgs, hall]
      rfl
    · intro L hL
      rcases List.mem_append.mp hL with hL | hL
      · exact .inr hL
      · exact .inl (List.mem_singleton.mp hL)
  | rewrites a val hall ha hend hout =>
    obtain ⟨hvalue, hplain, all', hparse', hmerged, hown⟩ := merge_rewrites hparse hend hall ha hours
    refine ⟨all, all', _, hparse, hout ▸ hparse',
      .of_lines ?_ hplain hmerged (.rewritten a hall rfl) hown ?_ hout⟩
    · rw [operatorArgs, hall, ← hvalue]
    · intro L hL
      exact (List.mem_or_eq_of_mem_set hL).symm
  | repairs a b val hall hearlier ha hend hout =>
    obtain ⟨hvalue, hplain, all', hparse', hmerged, hown⟩ := merge_repairs hparse hend hall
      (appendedByEarlierInstaller_one hearlier) ha hours
    refine ⟨all, all', _, hparse, hout ▸ hparse',
      .of_lines ?_ hplain hmerged (.repaired a b hall hearlier rfl) hown ?_ hout⟩
    · rw [operatorArgs, hall, ← hvalue]
    · intro L hL
      exact (List.mem_or_eq_of_mem_set (List.mem_of_mem_eraseIdx hL)).symm

/-- What is read from the output: the operator's arguments without the credential-provider flags,
followed by the new ones, and the other assignments as they were. -/
theorem mergeExtraArgs_reads (hbin : validNodePath binDir = true)
    (hconfig : validNodePath configFile = true)
    (h : mergeExtraArgs existing binDir configFile = .ok out) :
    ∃ all all', parseEnvFile existing = .ok all ∧ parseEnvFile out = .ok all' ∧
      ((extraAssignments all).length ≤ 1 ∨ TwoLines existing all) ∧
      Merged all all' (stripCredentialProviderFlags (operatorArgs all) ++ ourFlags binDir configFile) := by
  obtain ⟨all, all', args, hparse, hparse', hout⟩ := mergeExtraArgs_spec hbin hconfig h
  refine ⟨all, all', hparse, hparse', ?_, hout.args_eq ▸ hout.merged⟩
  cases hout.kept with
  | added hall => exact .inl (by simp [hall])
  | rewritten a hall => exact .inl (by simp [hall])
  | repaired a b hall hearlier => exact .inr ⟨a, b, hall, hearlier⟩

end Merge

end HarborBridge.Installer
