import HarborBridge.Installer.ExtraArgs

/-!
# Assignments on one line

The value of an assignment that starts and ends on one line, the line the installer writes, and
when a line added at the end of the file is one of its own (`openAtEnd`).
-/

namespace HarborBridge.Installer

open GoStrings EnvParser

/-! ## Between assignments -/

namespace EnvParser

def Calm (p : EnvParser) : Prop :=
  p.state = .preKey ∨ p.state = .inKey ∨ p.state = .comment ∨ p.state = .commentEscape

def Tidy (p : EnvParser) : Prop := Calm p → p.value = []

theorem tidy_start : Tidy start := fun _ => rfl

theorem next_tidy {p q : EnvParser} {c : UInt8} (hp : Tidy p) (h : p.next c = .ok q) : Tidy q := by
  intro hq
  unfold next at h
  cases hs : p.state
  all_goals simp only [hs] at h
  case preKey | inKey | comment | commentEscape =>
    have hvalue : p.value = [] := hp (by simp [Calm, hs])
    split_ifs at h
    all_goals cases h
    all_goals exact hvalue
  case preValue | inValue =>
    by_cases hnl : c ∈ envNewline
    · simp only [hnl, decide_true, if_true] at h
      obtain ⟨_, _, _, _, hvalue⟩ := push_eq_ok h
      exact hvalue
    · simp only [hnl, decide_false, Bool.false_eq_true, if_false] at h
      split_ifs at h
      all_goals cases h
      all_goals simp [Calm, hs] at hq
  all_goals
    try split_ifs at h
    all_goals cases h
    all_goals simp [Calm] at hq

theorem read_tidy {p q : EnvParser} {c : UInt8} (hp : Tidy p) (h : p.read c = .ok q) : Tidy q := by
  obtain ⟨r, hr, -, hstate, -, hvalue, -⟩ := read_eq_ok h
  have hnext := next_tidy hp hr
  intro hq
  rw [hvalue]
  exact hnext (by rwa [Calm, ← hstate])

/-- What each byte keeps, a text keeps. -/
theorem fold_keeps {P : EnvParser → Prop} {s : GoString}
    (hstep : ∀ c ∈ s, ∀ p q, P p → p.read c = .ok q → P q) {p q : EnvParser} (hp : P p)
    (h : s.foldlM read p = .ok q) : P q := by
  induction s generalizing p with
  | nil =>
    cases h
    exact hp
  | cons c s ih =>
    rw [List.foldlM_cons] at h
    obtain ⟨r, hr, hq⟩ := bind_eq_ok h
    exact ih (fun d hd => hstep d (List.mem_cons_of_mem c hd)) (hstep c List.mem_cons_self p r hp hr) hq

theorem readLines_tidy (lines : List GoString) {p q : EnvParser} (hp : Tidy p)
    (h : readLines p lines = .ok q) : Tidy q := by
  induction lines generalizing p with
  | nil =>
    cases h
    exact hp
  | cons L lines ih =>
    rw [readLines_cons] at h
    obtain ⟨r, hr, hq⟩ := bind_eq_ok h
    exact ih (fold_keeps (fun _ _ _ _ => read_tidy) hp hr) hq

/-- Two states between assignments go on alike. -/
theorem alike_of_preKey {p p' : EnvParser} (hp : p.state = .preKey) (hp' : p'.state = .preKey)
    (ht : Tidy p) (ht' : Tidy p') : Alike p p' where
  state := hp'.trans hp.symm
  value := (ht' (.inl hp')).trans (ht (.inl hp)).symm
  key h := absurd hp h.1
  trim h := absurd hp h.1

/-! ## Up to the equals sign -/

def name (p : EnvParser) : GoString :=
  match p.lastKeyWS with
  | some n => p.key.take n
  | none => p.key

theorem push_name {p q : EnvParser} (h : p.push = .ok q) :
    q.out = p.out ++ [⟨p.name, p.value, p.first, p.line, p.startsContinued⟩] := by
  simp only [push] at h
  split_ifs at h
  cases h
  rfl

/-- Nothing before an equals sign starts a value. -/
theorem fold_calm {s : GoString} (hs : ∀ c ∈ s, c ∉ envNewline ∧ c ≠ 61) {p q : EnvParser}
    (hp : Calm p) (h : s.foldlM read p = .ok q) : Calm q := by
  refine fold_keeps (fun c hc p q hp hread => ?_) hp h
  obtain ⟨hnl, hne⟩ := hs c hc
  obtain ⟨r, hr, -, hstate, -⟩ := read_eq_ok hread
  have hcalm : Calm r := by
    unfold next at hr
    rcases hp with hp | hp | hp | hp
    all_goals simp only [hp, hnl, hne, decide_false, Bool.false_eq_true, if_false] at hr
    all_goals try split_ifs at hr
    all_goals cases hr
    all_goals simp [Calm, hp]
  unfold Calm
  rwa [hstate]

def InComment (p : EnvParser) : Prop := p.state = .comment ∨ p.state = .commentEscape

theorem fold_comment {s : GoString} (hs : ∀ c ∈ s, c ∉ envNewline) {p q : EnvParser}
    (hp : InComment p) (h : s.foldlM read p = .ok q) : InComment q := by
  refine fold_keeps (fun c hc p q hp hread => ?_) hp h
  have hnl := hs c hc
  obtain ⟨r, hr, -, hstate, -⟩ := read_eq_ok hread
  have hin : InComment r := by
    unfold next at hr
    rcases hp with hp | hp
    all_goals simp only [hp, hnl, decide_false, Bool.false_eq_true, if_false] at hr
    all_goals try split_ifs at hr
    all_goals cases hr
    all_goals simp [InComment, hp]
  unfold InComment
  rwa [hstate]

def Opened (b : UInt8) (p : EnvParser) : Prop :=
  Reading p ∧ p.key.head? = some b ∧ ∀ n, p.lastKeyWS = some n → 0 < n

theorem Opened.name {b : UInt8} {p : EnvParser} (h : Opened b p) : p.name.head? = some b := by
  obtain ⟨-, hhead, hpos⟩ := h
  unfold EnvParser.name
  cases hlast : p.lastKeyWS with
  | none => exact hhead
  | some n => simpa [List.head?_take, (hpos n hlast).ne'] using hhead

theorem Opened.congr {b : UInt8} {p q : EnvParser} (h : Opened b p) (hstate : q.state = p.state)
    (hkey : q.key = p.key) (hws : q.lastKeyWS = p.lastKeyWS) : Opened b q := by
  unfold Opened Reading
  rwa [hstate, hkey, hws]

theorem next_opened {b c : UInt8} (hc : c ∉ envNewline) {p q : EnvParser} (hp : Opened b p)
    (h : p.next c = .ok q) : Opened b q := by
  obtain ⟨hreading, hhead, hpos⟩ := hp
  unfold next at h
  simp only [hc, decide_false, Bool.false_eq_true, if_false] at h
  cases hs : p.state
  all_goals simp only [hs] at h
  case preKey => exact absurd hs hreading.1
  case comment => exact absurd hs hreading.2.1
  case commentEscape => exact absurd hs hreading.2.2
  case inKey =>
    split_ifs at h
    · cases h
      exact ⟨by simp [Reading], hhead, hpos⟩
    all_goals
      cases h
      refine ⟨by simp [Reading], by simp [List.head?_append, hhead], ?_⟩
    · simp
    · intro n hn
      cases hlast : p.lastKeyWS with
      | some m =>
        have := hpos m hlast
        simp_all
      | none =>
        have hlen : 0 < p.key.length := by
          cases hkey : p.key with
          | nil => simp [hkey] at hhead
          | cons => simp
        simp_all
  all_goals
    try split_ifs at h
    all_goals cases h
    all_goals exact ⟨by simp [Reading, hs], hhead, hpos⟩

/-- The end of a line closes the assignment under its name, or goes on with it. -/
theorem newline_opened {b c : UInt8} (hc : c ∈ envNewline) {p q : EnvParser} (hp : Opened b p)
    (h : p.next c = .ok q) :
    (q.state = .preKey ∧ ∃ added, q.out = p.out ++ added ∧ ∀ a ∈ added, a.key.head? = some b) ∨
      Opened b q ∧ q.out = p.out := by
  have hname := hp.name
  obtain ⟨hreading, hhead, hpos⟩ := hp
  have hclose : ∀ v, { p with state := .preKey, value := v }.push = .ok q →
      q.state = .preKey ∧ ∃ added, q.out = p.out ++ added ∧ ∀ a ∈ added, a.key.head? = some b := by
    intro v hpush
    obtain ⟨_, _, hstate, _, _⟩ := push_eq_ok hpush
    have hout := push_name hpush
    refine ⟨hstate, _, hout, ?_⟩
    intro a ha
    rw [List.mem_singleton.mp ha]
    exact hname
  unfold next at h
  simp only [hc, decide_true, if_true] at h
  cases hs : p.state
  all_goals simp only [hs] at h
  case preKey => exact absurd hs hreading.1
  case comment => exact absurd hs hreading.2.1
  case commentEscape => exact absurd hs hreading.2.2
  case inKey =>
    cases h
    exact .inl ⟨rfl, [], by simp, by simp⟩
  case preValue => exact .inl (hclose _ h)
  case inValue => exact .inl (hclose _ h)
  all_goals
    try split_ifs at h
    all_goals cases h
    all_goals exact .inr ⟨⟨by simp [Reading], hhead, hpos⟩, rfl⟩

theorem fold_opened {b : UInt8} {s : GoString} (hs : ∀ c ∈ s, c ∉ envNewline) {p q : EnvParser}
    (hp : Opened b p) (h : s.foldlM read p = .ok q) : Opened b q := by
  refine fold_keeps (fun c hc p q hp hread => ?_) hp h
  obtain ⟨r, hr, -, hstate, hkey, -, hws, -⟩ := read_eq_ok hread
  exact (next_opened (hs c hc) hp hr).congr hstate hkey hws

/-! ## The end of a line -/

def IsLineEnd (cr : GoString) : Prop := cr = [] ∨ cr = [13]

theorem read_preKey_newline {c : UInt8} (hc : c ∈ envNewline) {p q : EnvParser}
    (hp : p.state = .preKey) (h : p.read c = .ok q) : q.state = .preKey ∧ q.out = p.out := by
  have hends := read_newline hc h
  cases hends with
  | blank hstate hout => exact ⟨hstate, hout⟩
  | ended _ hreading => exact absurd hp hreading.1
  | goesOn hreading => exact absurd hp hreading.1

/-- What the first of the bytes that end a line does decides. -/
theorem lineEnd_keeps {P : EnvParser → Prop} {cr : GoString} (hcr : IsLineEnd cr)
    (hP : ∀ p q : EnvParser, P p → p.state = .preKey → q.out = p.out → q.state = .preKey → P q)
    {p q : EnvParser}
    (hfirst : ∀ c ∈ envNewline, ∀ r, p.read c = .ok r → P r ∧ r.state = .preKey)
    (h : (cr ++ [10]).foldlM read p = .ok q) : P q := by
  rcases hcr with rfl | rfl
  · have hread : p.read 10 = .ok q := by simpa using h
    exact (hfirst 10 (by decide) q hread).1
  · rw [List.cons_append, List.foldlM_cons] at h
    obtain ⟨r, hr, hq⟩ := bind_eq_ok h
    have hread : r.read 10 = .ok q := by simpa using hq
    obtain ⟨hPr, hstate⟩ := hfirst 13 (by decide) r hr
    obtain ⟨hstate', hout⟩ := read_preKey_newline (by decide) hstate hread
    exact hP r q hPr hstate hout hstate'

/-- A line without a value adds nothing. -/
theorem lineEnd_calm {cr : GoString} (hcr : IsLineEnd cr) {p q : EnvParser} (hp : Calm p)
    (h : (cr ++ [10]).foldlM read p = .ok q) : q.out = p.out ∧ q.state = .preKey := by
  refine lineEnd_keeps (P := fun r => r.out = p.out ∧ r.state = .preKey) hcr
    (fun _ _ hr _ hout hstate => ⟨hout.trans hr.1, hstate⟩) (fun c hc r hread => ?_) h
  obtain ⟨hescape, hcomment, hws⟩ : c ≠ 92 ∧ c ∉ envComments ∧ c ∈ envWhitespace := by
    simp only [envNewline, List.mem_cons, List.not_mem_nil, or_false] at hc
    rcases hc with rfl | rfl <;> decide
  obtain ⟨r', hr', hout, hstate, -⟩ := read_eq_ok hread
  rw [hout, hstate]
  unfold next at hr'
  simp only [hc, decide_true, if_true] at hr'
  rcases hp with hp | hp | hp | hp
  all_goals simp only [hp, hcomment, hescape, hws, if_false] at hr'
  all_goals cases hr'
  all_goals simp [hp]

/-- Whatever a line adds for an open assignment, it adds under its name. -/
theorem lineEnd_opened {b : UInt8} {cr : GoString} (hcr : IsLineEnd cr) {p q : EnvParser}
    (hp : Opened b p) (h : (cr ++ [10]).foldlM read p = .ok q) :
    ∃ added, q.out = p.out ++ added ∧ ∀ a ∈ added, a.key.head? = some b := by
  have hfeed : ∀ {c : UInt8}, c ∈ envNewline → ∀ {p q : EnvParser}, Opened b p → p.read c = .ok q →
      (q.state = .preKey ∧ ∃ added, q.out = p.out ++ added ∧ ∀ a ∈ added, a.key.head? = some b) ∨
        Opened b q ∧ q.out = p.out := by
    intro c hc p q hp hread
    obtain ⟨r, hr, hout, hstate, hkey, -, hws, -⟩ := read_eq_ok hread
    rw [hout, hstate]
    rcases newline_opened hc hp hr with hclosed | ⟨hopen, hsame⟩
    · exact .inl hclosed
    · exact .inr ⟨hopen.congr hstate hkey hws, hsame⟩
  have hlast : ∀ {p q : EnvParser}, Opened b p → p.read 10 = .ok q →
      ∃ added, q.out = p.out ++ added ∧ ∀ a ∈ added, a.key.head? = some b := by
    intro p q hp hread
    rcases hfeed (by decide) hp hread with ⟨-, hadded⟩ | ⟨-, hsame⟩
    · exact hadded
    · exact ⟨[], by simp [hsame], by simp⟩
  rcases hcr with rfl | rfl
  · exact hlast hp (by simpa using h)
  · rw [List.cons_append, List.foldlM_cons] at h
    obtain ⟨r, hr, hq⟩ := bind_eq_ok h
    have hread : r.read 10 = .ok q := by simpa using hq
    rcases hfeed (by decide) hp hr with ⟨hstate, hadded⟩ | ⟨hopen, hsame⟩
    · rwa [(read_preKey_newline (by decide) hstate hread).2]
    · rw [← hsame]
      exact hlast hopen hread

/-- The value is what was read of it. -/
theorem lineEnd_value {cr : GoString} (hcr : IsLineEnd cr) {p q : EnvParser} {v : GoString}
    (hp : p.state = .preValue ∧ p.value = v ∨ p.state = .inValue ∧ p.trimmed = v)
    (h : (cr ++ [10]).foldlM read p = .ok q) :
    q.out = p.out ++ [⟨p.name, v, p.first, p.line, p.startsContinued⟩] := by
  refine lineEnd_keeps
    (P := fun r => r.out = p.out ++ [⟨p.name, v, p.first, p.line, p.startsContinued⟩]) hcr
    (fun _ _ hr _ hout _ => hout.trans hr) (fun c hc r hread => ?_) h
  obtain ⟨r', hr', hout, hstate, -⟩ := read_eq_ok hread
  rw [hout, hstate]
  unfold next at hr'
  simp only [hc, decide_true, if_true] at hr'
  rcases hp with ⟨hp, rfl⟩ | ⟨hp, rfl⟩
  all_goals
    simp only [hp] at hr'
    have hpush := push_name hr'
    obtain ⟨_, _, hstate', _, _⟩ := push_eq_ok hr'
    exact ⟨hpush, hstate'⟩

/-! ## The assignment on a line -/

/-- A byte adds an assignment only by ending it. -/
theorem next_out {p q : EnvParser} {c : UInt8} (h : p.next c = .ok q) :
    q.out = p.out ∨ ∃ v, { p with state := .preKey, value := v }.push = .ok q := by
  unfold next at h
  cases hs : p.state
  all_goals simp only [hs] at h
  case preValue | inValue =>
    by_cases hnl : c ∈ envNewline
    · simp only [hnl, decide_true, if_true] at h
      exact .inr ⟨_, h⟩
    · simp only [hnl, decide_false, Bool.false_eq_true, if_false] at h
      split_ifs at h
      all_goals cases h
      all_goals exact .inl rfl
  all_goals
    try split_ifs at h
    all_goals cases h
    all_goals exact .inl rfl

def Valid (p : EnvParser) : Prop := ∀ a ∈ p.out, systemdValidUTF8 a.value = true

theorem valid_start : Valid start := by simp [Valid, start]

theorem read_valid {p q : EnvParser} {c : UInt8} (hp : Valid p) (h : p.read c = .ok q) : Valid q := by
  obtain ⟨r, hr, hout, -⟩ := read_eq_ok h
  intro a ha
  rw [hout] at ha
  rcases next_out hr with hsame | ⟨v, hpush⟩
  · exact hp a (hsame ▸ ha)
  · simp only [push] at hpush
    split_ifs at hpush with hvalid
    cases hpush
    rcases List.mem_append.mp ha with ha | ha
    · exact hp a ha
    · rw [List.mem_singleton.mp ha]
      exact (Bool.and_eq_true_iff.mp hvalid).2

theorem readLines_valid (lines : List GoString) {p q : EnvParser} (hp : Valid p)
    (h : readLines p lines = .ok q) : Valid q := by
  induction lines generalizing p with
  | nil =>
    cases h
    exact hp
  | cons L lines ih =>
    rw [readLines_cons] at h
    obtain ⟨r, hr, hq⟩ := bind_eq_ok h
    exact ih (fold_keeps (fun _ _ _ _ => read_valid) hp hr) hq

theorem trimEnv_append {s w : GoString} (hw : ∀ b ∈ w, b ∈ envWhitespace) :
    trimEnv (s ++ w) = trimEnv s := by
  have hright : ∀ t : GoString, trimRight (t ++ w) envWhitespace = trimRight t envWhitespace := by
    intro t
    rw [trimRight, trimRight, List.rdropWhile, List.rdropWhile, List.reverse_append,
      List.dropWhile_append_of_pos]
    intro b hb
    exact decide_eq_true (hw b (List.mem_reverse.mp hb))
  unfold trimEnv
  rw [List.dropWhile_append]
  split_ifs with hempty
  · have hnil : w.dropWhile (fun b => decide (b ∈ envWhitespace)) = [] := by
      rw [List.dropWhile_eq_nil_iff]
      exact fun b hb => decide_eq_true (hw b hb)
    rw [hnil, List.isEmpty_iff.mp hempty]
  · exact hright _

/-- An assignment on one line has the value that the text after its first equals sign stands
for. -/
theorem readLine_value {q q' : EnvParser} {L : GoString} {a : EnvAssignment} {val : GoString}
    (hL : IsLine L) (hq : q.state = .preKey) (ht : Tidy q) (h : readLine q L = .ok q')
    (hout : q'.out = q.out ++ [a]) (hkey : a.key.head? ≠ some 61)
    (hval : unquoteExtraArgs (trimEnv (((cut L 61).map (·.2)).getD [])) = .ok val) :
    a.value = val := by
  obtain ⟨body, cr, rfl, hbody, hcr⟩ := hL
  rw [readLine, List.append_assoc, List.foldlM_append] at h
  obtain ⟨r, hr, hend⟩ := bind_eq_ok h
  obtain ⟨r', hr', hwithin, -⟩ := fold_within body hbody q
  obtain rfl : r' = r := by
    rw [hr'] at hr
    exact Except.ok.inj hr
  -- a line that adds an assignment does not end before its value
  have hcalm : ¬ Calm r' := by
    intro hcalm
    have := lineEnd_calm hcr hcalm hend
    rw [hout, hwithin.out] at this
    simp at this
  have hin : (61 : UInt8) ∈ body := by
    by_contra hno
    exact hcalm (fold_calm (fun c hc => ⟨hbody c hc, fun heq => hno (heq ▸ hc)⟩) (.inl hq) hr')
  obtain ⟨pre, raw, rfl, hno⟩ := List.eq_append_cons_of_mem hin
  have hraw : ∀ c ∈ raw, c ∉ envNewline := fun c hc => hbody c (by simp [hc])
  have hcrWS : ∀ b ∈ cr, b ∈ envWhitespace := by
    rcases hcr with rfl | rfl
    · simp
    · simp [envWhitespace]
  rw [List.append_assoc, List.cons_append, cut_append _ _ _ hno, Option.map_some, Option.getD_some,
    trimEnv_append hcrWS] at hval
  rw [List.foldlM_append] at hr'
  obtain ⟨r₀, hr₀, hrest⟩ := bind_eq_ok hr'
  have hcalm₀ : Calm r₀ := by
    refine fold_calm (fun c hc => ⟨hbody c (by simp [hc]), ?_⟩) (.inl hq) hr₀
    rintro rfl
    exact hno hc
  have hvalue₀ : r₀.value = [] := fold_keeps (fun _ _ _ _ => read_tidy) ht hr₀ hcalm₀
  have hkeep := hrest
  rw [List.foldlM_cons] at hrest
  obtain ⟨r₁, hr₁, hrest⟩ := bind_eq_ok hrest
  rcases hcalm₀ with hs | hs | hs
  · -- the equals sign is the first byte of the name
    have hnext : r₀.next 61 = .ok { r₀ with
        state := .inKey, lastKeyWS := none, first := r₀.line, startsContinued := r₀.continuedComment,
        key := [61] } := by
      simp [next, hs, envComments, envWhitespace]
      decide
    rw [read_inline (by decide) hnext] at hr₁
    cases hr₁
    have hopened : Opened 61 r' := fold_opened hraw ⟨by simp [Reading], rfl, by simp⟩ hrest
    obtain ⟨added, hadded, hheads⟩ := lineEnd_opened hcr hopened hend
    rw [hout, hwithin.out, List.append_cancel_left_eq] at hadded
    exact absurd (hheads a (by simp [← hadded])) hkey
  · have hnext : r₀.next 61 = .ok { r₀ with state := .preValue, lastValueWS := none } := by
      simp [next, hs, envNewline]
    rw [read_inline (by decide) hnext] at hr₁
    cases hr₁
    obtain ⟨r, hr, hread⟩ := fold_value hraw hval (p := { r₀ with
      state := .preValue, lastValueWS := none, text := r₀.text ++ [61] }) rfl hvalue₀ rfl
    obtain rfl : r = r' := by
      rw [hr] at hrest
      exact Except.ok.inj hrest
    have hadded := lineEnd_value hcr hread hend
    rw [hout, hwithin.out, List.append_cancel_left_eq] at hadded
    rw [List.singleton_inj.mp hadded]
  · have hcomment : InComment r' := fold_comment (fun c hc => hbody c (by simp_all)) hs hkeep
    exact absurd (.inr (.inr hcomment)) hcalm

/-! ## A line of the installer -/

theorem fold_inKey {s : GoString} (hs : ∀ c ∈ s, c ∉ envWhitespace ∧ c ≠ 61) {p : EnvParser}
    (hp : p.state = .inKey) (hws : p.lastKeyWS = none) :
    s.foldlM read p = .ok { p with key := p.key ++ s, text := p.text ++ s } := by
  induction s generalizing p with
  | nil => simp; rfl
  | cons c s ih =>
    obtain ⟨hc, hne⟩ := hs c List.mem_cons_self
    have hnl : c ∉ envNewline := fun h => hc (by
      simp only [envNewline, List.mem_cons, List.not_mem_nil, or_false] at h
      rcases h with rfl | rfl <;> decide)
    have h10 : c ≠ 10 := fun h => hnl (by simp [envNewline, h])
    have hnext : p.next c = .ok { p with key := p.key ++ [c] } := by
      simp [next, hp, hnl, hne, hc, hws]
    rw [List.foldlM_cons, read_inline h10 hnext, ok_bind]
    refine (ih (fun d hd => hs d (List.mem_cons_of_mem c hd)) ?_ ?_).trans ?_
    · exact hp
    · exact hws
    · simp

theorem fold_name {c : UInt8} {s : GoString} (hc : c ∉ envWhitespace ∧ c ∉ envComments)
    (hs : ∀ c ∈ s, c ∉ envWhitespace ∧ c ≠ 61) {p : EnvParser} (hp : p.state = .preKey) :
    (c :: s ++ [61]).foldlM read p = .ok { p with
      state := .preValue, lastKeyWS := none, lastValueWS := none, first := p.line,
      startsContinued := p.continuedComment, key := c :: s, text := p.text ++ (c :: s ++ [61]) } := by
  obtain ⟨hws, hcomment⟩ := hc
  have h10 : c ≠ 10 := by
    rintro rfl
    exact hws (by decide)
  have hnext : p.next c = .ok { p with
      state := .inKey, lastKeyWS := none, first := p.line, startsContinued := p.continuedComment,
      key := [c] } := by
    simp [next, hp, hws, hcomment]
  have hequals : ∀ q : EnvParser, q.state = .inKey →
      q.next 61 = .ok { q with state := .preValue, lastValueWS := none } := by
    intro q hq
    simp [next, hq, envNewline]
  rw [List.cons_append, List.foldlM_cons, read_inline h10 hnext, ok_bind, List.foldlM_append,
    fold_inKey hs rfl rfl, ok_bind, List.foldlM_cons, read_inline (by decide) (hequals _ rfl), ok_bind]
  simp
  rfl

/-- The line the installer writes is read as the arguments in it. -/
theorem readLine_extraArgsLine {args : List GoString}
    (hvalid : systemdValidUTF8 (join args 32) = true)
    (hplain : ∀ c ∈ join args 32, c ≠ 34 ∧ c ≠ 92 ∧ c ≠ 10) {p : EnvParser} (hp : p.state = .preKey)
    (ht : Tidy p) :
    ∃ q, readLine p (extraArgsLine args) = .ok q ∧ q.state = .preKey ∧
      q.out = p.out ++ [⟨extraArgsKey, join args 32, p.line, p.line, p.continuedComment⟩] := by
  have hkey : extraArgsKey = 75 :: extraArgsKey.tail := by decide
  have hline : extraArgsLine args ++ [10] =
      (75 :: extraArgsKey.tail ++ [61]) ++ (34 :: (join args 32 ++ 34 :: ([] : GoString)) ++ [10]) := by
    rw [extraArgsLine, ← hkey]
    have hquote : lit "=\"" = [61, 34] := by decide
    have hquote' : lit "\"" = [34] := by decide
    rw [hquote, hquote']
    simp
  have hname := fold_name (c := 75) (s := extraArgsKey.tail) (by decide) (by decide +kernel) hp
  have hnone : ∀ c ∈ ([] : GoString), c ∈ envWhitespace ∧ c ∉ envNewline := by simp
  have hquoted := fold_value_quoted (.inl rfl) hplain hnone (p := { p with
      state := .preValue, lastKeyWS := none, lastValueWS := none, first := p.line,
      startsContinued := p.continuedComment, key := 75 :: extraArgsKey.tail,
      text := p.text ++ (75 :: extraArgsKey.tail ++ [61]) }) rfl (ht (.inl hp))
  have hvalidKey : systemdValidUTF8 extraArgsKey = true := by decide
  rw [readLine, hline, List.foldlM_append, hname, ok_bind, List.foldlM_append, hquoted, ok_bind]
  simp [EnvParser.read, next, push, envNewline, hvalidKey, hvalid, ← hkey]

/-! ## The end of the file -/

def AtStart (p : EnvParser) : Prop :=
  p.state = .preKey ∨ p.state = .inValue ∨ p.state = .singleQuote ∨ p.state = .doubleQuote

theorem read_feed_atStart {p q : EnvParser} (h : p.read 10 = .ok q) : AtStart q := by
  obtain ⟨r, hr, -, hstate, -⟩ := read_eq_ok h
  unfold AtStart
  rw [hstate]
  unfold next at hr
  cases hs : p.state
  all_goals simp only [hs] at hr
  case preValue | inValue =>
    obtain ⟨_, _, hpush, _, _⟩ := push_eq_ok hr
    exact .inl hpush
  case preKey =>
    cases hr
    exact .inl hs
  all_goals
    cases hr
    simp [envNewline]

theorem readLine_feed {p q : EnvParser} {L : GoString} (h : readLine p L = .ok q) :
    ∃ r, L.foldlM read p = .ok r ∧ r.read 10 = .ok q := by
  rw [readLine, List.foldlM_append] at h
  obtain ⟨r, hr, hread⟩ := bind_eq_ok h
  exact ⟨r, hr, by simpa using hread⟩

theorem readLines_atStart (lines : List GoString) {p q : EnvParser} (hp : AtStart p)
    (h : readLines p lines = .ok q) : AtStart q := by
  induction lines generalizing p with
  | nil =>
    cases h
    exact hp
  | cons L lines ih =>
    rw [readLines_cons] at h
    obtain ⟨r, hr, hq⟩ := bind_eq_ok h
    obtain ⟨_, _, hread⟩ := readLine_feed hr
    exact ih (read_feed_atStart hread) hq

theorem push_state (p : EnvParser) (s : EnvState) :
    ({ p with state := s }.push).map EnvParser.out = p.push.map EnvParser.out := by
  simp only [push]
  split_ifs <;> rfl

theorem finish_of_feed {p q : EnvParser} (h : p.read 10 = .ok q) (hq : q.state = .preKey) :
    p.finish = .ok q.out := by
  obtain ⟨r, hr, hout, hstate, -⟩ := read_eq_ok h
  rw [hout]
  rw [hstate] at hq
  unfold next at hr
  unfold finish
  cases hs : p.state
  all_goals simp only [hs] at hr ⊢
  case preKey | inKey | comment | commentEscape =>
    cases hr
    rfl
  case preValue =>
    have hpush : { p with state := .preKey }.push = .ok r := hr
    rw [← push_state p .preKey, hpush]
    rfl
  case inValue =>
    have hpush : { p with state := .preKey, value := p.trimmed }.push = .ok r := hr
    have hsame := push_state { p with value := p.trimmed, state := .inValue } .preKey
    rw [hpush] at hsame
    exact hsame.symm
  all_goals
    cases hr
    simp at hq

theorem push_out {p : EnvParser} {all : List EnvAssignment}
    (h : p.push.map EnvParser.out = .ok all) :
    ∃ key, all = p.out ++ [⟨key, p.value, p.first, p.line, p.startsContinued⟩] := by
  cases hpush : p.push with
  | error e =>
    rw [hpush] at h
    cases h
  | ok q =>
    rw [hpush] at h
    cases h
    exact ⟨_, push_name hpush⟩

theorem finish_out {p : EnvParser} {all : List EnvAssignment} (h : p.finish = .ok all) :
    all = p.out ∨
      Reading p ∧ ∃ key value, all = p.out ++ [⟨key, value, p.first, p.line, p.startsContinued⟩] := by
  unfold finish at h
  cases hs : p.state
  all_goals simp only [hs] at h
  case preKey | inKey | comment | commentEscape =>
    cases h
    exact .inl rfl
  all_goals
    obtain ⟨key, hout⟩ := push_out h
    exact .inr ⟨by simp [Reading, hs], key, _, hout⟩

theorem fold_inValue_solid {s : GoString} (hs : ∀ d ∈ s, d ∉ envWhitespace ∧ d ≠ 92) (hne : s ≠ [])
    {p : EnvParser} (hp : p.state = .inValue) :
    s.foldlM read p =
      .ok { p with lastValueWS := none, value := p.value ++ s, text := p.text ++ s } := by
  induction s generalizing p with
  | nil => exact absurd rfl hne
  | cons c s ih =>
    obtain ⟨hws, hescape⟩ := hs c List.mem_cons_self
    have hnl : c ∉ envNewline := fun h => hws (by
      simp only [envNewline, List.mem_cons, List.not_mem_nil, or_false] at h
      rcases h with rfl | rfl <;> decide)
    have h10 : c ≠ 10 := fun h => hnl (by simp [envNewline, h])
    have hnext : p.next c = .ok { p with lastValueWS := none, value := p.value ++ [c] } := by
      simp [next, hp, hnl, hws, hescape]
    rw [List.foldlM_cons, read_inline h10 hnext, ok_bind]
    by_cases hnil : s = []
    · subst hnil
      rfl
    · refine (ih (fun d hd => hs d (List.mem_cons_of_mem c hd)) hnil ?_).trans ?_
      · exact hp
      · simp

def probeLine : GoString := probeKey ++ lit "=x"

theorem probeLine_plain : ∀ c ∈ probeLine, c ∉ envWhitespace ∧ c ≠ 34 ∧ c ≠ 39 ∧ c ≠ 92 ∧ c ≠ 10 := by
  decide +kernel

theorem finish_preKey {p : EnvParser} (hp : p.state = .preKey) : p.finish = .ok p.out := by
  simp [finish, hp]

theorem readLine_probe_open {p q : EnvParser}
    (hp : p.state = .inValue ∨ p.state = .singleQuote ∨ p.state = .doubleQuote)
    (h : readLine p probeLine = .ok q) {all : List EnvAssignment} (hall : q.finish = .ok all) :
    ∃ before a, all = before ++ [a] ∧ probeLine.length ≤ a.value.length := by
  obtain ⟨r, hr, hread⟩ := readLine_feed h
  rcases hp with hp | hp
  · obtain ⟨hinside, htrimmed⟩ : r.state = .inValue ∧ r.trimmed = p.value ++ probeLine := by
      have hplain : ∀ c ∈ probeLine, c ∉ envWhitespace ∧ c ≠ 92 := fun c hc =>
        ⟨(probeLine_plain c hc).1, (probeLine_plain c hc).2.2.2.1⟩
      rw [fold_inValue_solid hplain (by decide) hp] at hr
      cases hr
      exact ⟨hp, rfl⟩
    have hend : (([] : GoString) ++ [10]).foldlM read r = .ok q := by simpa using hread
    have hout := lineEnd_value (.inl rfl) (.inr ⟨hinside, htrimmed⟩) hend
    have hstate : q.state = .preKey := by
      obtain ⟨r', hr', -, hstate, -⟩ := read_eq_ok hread
      simp only [next, hinside] at hr'
      obtain ⟨_, _, hpush, _, _⟩ := push_eq_ok hr'
      exact hstate.trans hpush
    rw [finish_preKey hstate] at hall
    cases hall
    refine ⟨_, _, hout, ?_⟩
    simp
  · have hquoted : ∃ quote : UInt8, (quote = 39 ∨ quote = 34) ∧
        (p.state = .singleQuote ∧ quote = 39 ∨ p.state = .doubleQuote ∧ quote = 34) := by
      rcases hp with hp | hp
      · exact ⟨39, .inl rfl, .inl ⟨hp, rfl⟩⟩
      · exact ⟨34, .inr rfl, .inr ⟨hp, rfl⟩⟩
    obtain ⟨quote, hquote, hin⟩ := hquoted
    have hplain : ∀ c ∈ probeLine, c ≠ quote ∧ c ≠ 92 ∧ c ≠ 10 := by
      intro c hc
      obtain ⟨-, h34, h39, h92, h10⟩ := probeLine_plain c hc
      rcases hquote with rfl | rfl
      · exact ⟨h39, h92, h10⟩
      · exact ⟨h34, h92, h10⟩
    rw [fold_quoted hplain hin] at hr
    cases hr
    obtain ⟨r', hr', -, hstate, -, hvalue, -⟩ := read_eq_ok hread
    have hgoes : r'.state = p.state ∧ r'.value = p.value ++ probeLine ++ [10] := by
      rcases hp with hp | hp
      all_goals
        simp only [next, hp] at hr'
        cases hr'
        exact ⟨hp.symm, rfl⟩
    have hpush : q.push.map EnvParser.out = .ok all := by
      rw [← hall]
      rcases hp with hp | hp
      all_goals simp [finish, hstate, hgoes.1, hp]
    obtain ⟨key, hout⟩ := push_out hpush
    refine ⟨_, _, hout, ?_⟩
    rw [hvalue, hgoes.2]
    simp
    omega

end EnvParser

/-- A text with its last line ended. -/
theorem terminated_contentLines (content : GoString) :
    terminated (contentLines content) =
      if content ≠ [] ∧ hasSuffix content [10] = false then content ++ [10] else content := by
  obtain ⟨lines, last, rfl, hlines, hlast⟩ := exists_terminated content
  have hsuffix : hasSuffix (terminated lines ++ last) [10] = true ↔ _ := hasSuffix_feed hlast
  rw [contentLines_terminated hlines hlast]
  by_cases hnil : last = []
  · subst hnil
    rw [if_pos rfl, List.append_nil, if_neg]
    rintro ⟨hne, hfalse⟩
    have hlinesNil : lines ≠ [] := by
      rintro rfl
      exact hne rfl
    rw [List.append_nil] at hsuffix
    rw [hsuffix.mpr ⟨rfl, hlinesNil⟩] at hfalse
    cases hfalse
  · rw [if_neg hnil, if_pos, terminated_append]
    · simp
    · refine ⟨by simp [hnil], ?_⟩
      rw [← Bool.not_eq_true, hsuffix]
      exact fun h => hnil h.1

theorem contentLines_feed (content : GoString) : ∀ L ∈ contentLines content, (10 : UInt8) ∉ L := by
  obtain ⟨lines, last, rfl, hlines, hlast⟩ := exists_terminated content
  rw [contentLines_terminated hlines hlast]
  split_ifs with hnil
  · exact hlines
  · intro L hL
    rcases List.mem_append.mp hL with hL | hL
    · exact hlines L hL
    · rwa [List.mem_singleton.mp hL]

theorem fold_text {s : GoString} (hs : (10 : UInt8) ∉ s) {p q : EnvParser}
    (h : s.foldlM read p = .ok q) : q.text = p.text ++ s := by
  induction s generalizing p with
  | nil =>
    cases h
    simp
  | cons c s ih =>
    rw [List.mem_cons, not_or] at hs
    rw [List.foldlM_cons] at h
    obtain ⟨r, hr, hq⟩ := bind_eq_ok h
    obtain ⟨_, -, -, -, -, -, -, -, -, -, -, hrest⟩ := read_eq_ok hr
    rw [ih hs.2 hq, (hrest (Ne.symm hs.1)).2.2, List.append_assoc, List.singleton_append]

/-- A line that a continued comment may end is itself such a comment. -/
theorem readLine_continued {p q : EnvParser} {L : GoString} (hL : (10 : UInt8) ∉ L) (hp : p.text = [])
    (h : readLine p L = .ok q) (hq : q.continuedComment = true) : commentEndsInBackslash L = true := by
  obtain ⟨r, hr, hread⟩ := readLine_feed h
  have htext := fold_text hL hr
  rw [hp, List.nil_append] at htext
  obtain ⟨u, -, hu⟩ := bind_eq_ok hread
  rw [if_pos rfl] at hu
  cases hu
  rw [Bool.and_eq_true, htext] at hq
  exact hq.2

theorem isLine_feed {L : GoString} (h : IsLine L) : (10 : UInt8) ∉ L := by
  obtain ⟨body, cr, rfl, hbody, hcr⟩ := h
  intro h10
  rcases List.mem_append.mp h10 with h10 | h10
  · exact hbody 10 h10 (by decide)
  · rcases hcr with rfl | rfl
    · cases h10
    · exact absurd h10 (by decide)

theorem readLines_ends {lines : List GoString} (hlines : ∀ L ∈ lines, IsLine L) {p r : EnvParser}
    (hp : p.text = []) (h : readLines p lines = .ok r) :
    r.line = p.line + lines.length ∧ r.text = [] := by
  induction lines generalizing p with
  | nil =>
    cases h
    exact ⟨rfl, hp⟩
  | cons L lines ih =>
    rw [readLines_cons] at h
    obtain ⟨q, hq, hr⟩ := bind_eq_ok h
    obtain ⟨-, hline, htext⟩ := readLine_ends (hlines L List.mem_cons_self) hq
    obtain ⟨hline', htext'⟩ := ih (fun M hM => hlines M (List.mem_cons_of_mem L hM)) htext hr
    refine ⟨?_, htext'⟩
    rw [hline', hline, List.length_cons]
    omega

theorem commentEndsInBackslash_spec {L : GoString} (hL : IsLine L) (h : commentEndsInBackslash L = true) :
    ∃ body cr, L = body ++ [92] ++ cr ∧ ∀ c ∈ cr, c ∈ ([13, 10] : GoString) := by
  have hslash : lit "\\" = [92] := by decide
  unfold commentEndsInBackslash at h
  dsimp only at h
  split at h
  · cases h
  · rw [Bool.and_eq_true, hslash] at h
    obtain ⟨body, hbody⟩ := (hasSuffix_iff _ _).mp h.2
    by_cases hcr : hasSuffix L [13] = true
    · rw [if_pos hcr] at hbody
      obtain ⟨front, rfl⟩ := (hasSuffix_iff _ _).mp hcr
      rw [List.dropLast_concat] at hbody
      exact ⟨body, [13], by rw [hbody], by simp⟩
    · rw [if_neg hcr] at hbody
      exact ⟨body, [], by rw [hbody, List.append_nil], by simp⟩

/-- When nothing is open at its end, the lines of the content are read one after the other, and
the next line is one of its own. -/
theorem openAtEnd_eq_false {content : GoString} (h : openAtEnd content = false) :
    0 ∉ terminated (contentLines content) ∧ (∀ L ∈ contentLines content, IsLine L) ∧
      ∃ r, readLines start (contentLines content) = .ok r ∧ r.state = .preKey := by
  have hlines : ∀ L ∈ contentLines content ++ [probeLine], (10 : UInt8) ∉ L := by
    intro L hL
    rcases List.mem_append.mp hL with hL | hL
    · exact contentLines_feed content L hL
    · rw [List.mem_singleton.mp hL]
      decide
  have hprobe : (if content ≠ [] ∧ hasSuffix content [10] = false then content ++ [10] else content) ++
      probeKey ++ lit "=x" ++ [10] = terminated (contentLines content ++ [probeLine]) ++ [] := by
    rw [← terminated_contentLines, terminated_append]
    simp [probeLine]
  have hescape : ¬ hasSuffix (trimRight content [13, 10]) (lit "\\") = true := by
    intro hescape
    rw [openAtEnd, if_pos hescape] at h
    cases h
  rw [openAtEnd, if_neg hescape] at h
  simp only [hprobe] at h
  split at h
  · cases h
  · rename_i all hall
    rw [parseEnvFile_terminated hlines (by simp)] at hall
    obtain ⟨hnul, hline, -, q, q', hq, hq', hfinish⟩ := hall
    cases hq'
    rw [readLines_append] at hq
    obtain ⟨r, hr, hread⟩ := bind_eq_ok hq
    have hread' : readLine r probeLine = .ok q := by simpa [readLines] using hread
    refine ⟨?_, fun L hL => hline L (List.mem_append_left _ hL), r, hr, ?_⟩
    · rw [List.append_nil, terminated_append] at hnul
      exact fun h0 => hnul (List.mem_append_left _ h0)
    · rcases readLines_atStart _ (.inl rfl) hr with hstate | hstate
      · exact hstate
      · obtain ⟨before, a, rfl, hlong⟩ := readLine_probe_open hstate hread' hfinish
        rw [List.getLast?_concat] at h
        simp only [Bool.or_eq_false_iff, decide_eq_false_iff_not, not_not] at h
        rw [h.2] at hlong
        exact absurd hlong (by decide)

/-- The text without its line ends is the same whether or not the last line is ended. -/
theorem trimRight_contentLines (content : GoString) :
    trimRight (terminated (contentLines content)) [13, 10] = trimRight content [13, 10] := by
  rw [terminated_contentLines]
  split_ifs
  · unfold trimRight
    rw [List.rdropWhile_concat_pos _ _ _ (by decide)]
  · rfl

/-- A line that is added does not follow a continued comment. -/
theorem openAtEnd_continued {content : GoString} (h : openAtEnd content = false) {r : EnvParser}
    (hr : readLines start (contentLines content) = .ok r) : r.continuedComment = false := by
  obtain ⟨-, hlines, -⟩ := openAtEnd_eq_false h
  have hescape : ¬ hasSuffix (trimRight content [13, 10]) (lit "\\") = true := by
    intro hescape
    rw [openAtEnd, if_pos hescape] at h
    cases h
  by_contra hcontinued
  rw [Bool.not_eq_false] at hcontinued
  -- the last line is the comment, and it ends the text but for its line end
  rcases List.eq_nil_or_concat (contentLines content) with hnil | ⟨front, L, hconcat⟩
  · rw [hnil] at hr
    cases hr
    cases hcontinued
  · rw [hconcat, List.concat_eq_append] at hlines
    rw [hconcat, List.concat_eq_append, readLines_append] at hr
    obtain ⟨p, hp, hread⟩ := bind_eq_ok hr
    have hread' : readLine p L = .ok r := by simpa [readLines] using hread
    have hL : IsLine L := hlines L (by simp)
    have htext : p.text = [] :=
      (readLines_ends (fun M hM => hlines M (List.mem_append_left _ hM)) rfl hp).2
    have hcomment := readLine_continued (isLine_feed hL) htext hread' hcontinued
    obtain ⟨body, cr, rfl, hcr⟩ := commentEndsInBackslash_spec hL hcomment
    apply hescape
    rw [← trimRight_contentLines, hconcat, List.concat_eq_append, terminated_append]
    have hend : terminated front ++ terminated [body ++ [92] ++ cr] =
        (terminated front ++ body) ++ 92 :: (cr ++ [10]) := by simp
    have hnone : trimRight (cr ++ [10]) [13, 10] = [] := by
      unfold trimRight
      rw [List.rdropWhile_eq_nil_iff]
      intro c hc
      rcases List.mem_append.mp hc with hc | hc
      · simpa using hcr c hc
      · rw [List.mem_singleton.mp hc]
        decide
    have hslash : lit "\\" = [92] := by decide
    rw [hend, trimRight_append _ _ _ _ (by decide), hnone, hasSuffix_iff, hslash]
    exact ⟨_, rfl⟩

/-- What `parseEnvFile` reads is what the lines, each of them ended, are read as. -/
theorem parseEnvFile_lines {content : GoString} {all : List EnvAssignment}
    (hparse : parseEnvFile content = .ok all)
    (hend : hasSuffix content [10] = true ∨ openAtEnd content = false) :
    0 ∉ terminated (contentLines content) ∧ (∀ L ∈ contentLines content, IsLine L) ∧
      ∃ r, readLines start (contentLines content) = .ok r ∧ r.finish = .ok all ∧
        (openAtEnd content = false → r.state = .preKey) := by
  obtain ⟨lines, last, rfl, hlines, hlast⟩ := exists_terminated content
  rw [parseEnvFile_terminated hlines hlast] at hparse
  obtain ⟨hnul, hline, -, q, r, hq, hr, hfinish⟩ := hparse
  by_cases hnil : last = []
  · subst hnil
    cases hr
    have hcontent : contentLines (terminated lines ++ []) = lines := by
      rw [contentLines_terminated hlines hlast, if_pos rfl]
    rw [List.append_nil] at hnul
    refine ⟨by rwa [hcontent], by rwa [hcontent], q, by rwa [hcontent], hfinish, fun hopen => ?_⟩
    obtain ⟨-, -, r, hr, hstate⟩ := openAtEnd_eq_false hopen
    rw [hcontent, hq] at hr
    cases hr
    exact hstate
  · have hopen : openAtEnd (terminated lines ++ last) = false := by
      refine hend.resolve_left fun hsuffix => ?_
      exact hnil ((hasSuffix_feed hlast).mp hsuffix).1
    obtain ⟨hnul', hline', r', hr', hstate⟩ := openAtEnd_eq_false hopen
    refine ⟨hnul', hline', r', hr', ?_, fun _ => hstate⟩
    rw [contentLines_terminated hlines hlast, if_neg hnil, readLines_append, hq, ok_bind] at hr'
    obtain ⟨r₁, hr₁, hread⟩ := readLine_feed (by simpa [readLines] using hr' : readLine q last = .ok r')
    rw [hr] at hr₁
    cases hr₁
    rw [finish_preKey hstate, ← finish_of_feed hread hstate, hfinish]

end HarborBridge.Installer
