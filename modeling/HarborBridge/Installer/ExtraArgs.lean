import HarborBridge.Installer.EnvLines

/-!
# The arguments of KUBELET_EXTRA_ARGS

The arguments of the variable: what splitting, stripping and joining them keeps, and the value
that the text after an equals sign is read as.
-/

namespace HarborBridge.Installer

open GoStrings

/-! ## Valid text, cut at ASCII bytes -/

namespace Utf8

/-- The byte that a reader inside a rune waits for is not an ASCII one. -/
def Sound : Utf8 → Prop
  | .inside _ low _ _ => 0x80 ≤ low
  | _ => True

theorem sound_first (b : UInt8) : Sound (first b) := by
  unfold first
  split_ifs <;> simp [Sound]

theorem sound_next (u : Utf8) (b : UInt8) : Sound (u.next b) := by
  cases u with
  | idle => exact sound_first b
  | bad => trivial
  | inside left low high value =>
    cases left with
    | zero =>
      simp only [next]
      split_ifs <;> trivial
    | succ n =>
      simp only [next]
      split_ifs
      · simp [Sound]
      · trivial

theorem sound_foldl (s : GoString) {u : Utf8} (hu : Sound u) : Sound (s.foldl next u) := by
  induction s generalizing u with
  | nil => exact hu
  | cons b s ih => exact ih (sound_next u b)

theorem foldl_bad (s : GoString) : s.foldl next .bad = .bad := by
  induction s with
  | nil => rfl
  | cons b s ih => exact ih

theorem next_idle_ascii {b : UInt8} (hb : b < 0x80) : next .idle b = .idle := by
  simp [next, first, hb]

/-- An ASCII byte can only stand between two runes. -/
theorem next_ascii {u : Utf8} (hu : Sound u) {b : UInt8} (hb : b < 0x80) :
    u.next b = .idle ∧ u = .idle ∨ u.next b = .bad := by
  cases u with
  | idle => exact .inl ⟨next_idle_ascii hb, rfl⟩
  | bad => exact .inr rfl
  | inside left low high value =>
    have hlow : ¬ low ≤ b := fun hle => absurd (hu.trans hle) (not_le.mpr hb)
    exact .inr (by simp [next, hlow])

end Utf8

theorem systemdValidUTF8_append_ascii (s t : GoString) {b : UInt8} (hb : b < 0x80) :
    systemdValidUTF8 (s ++ b :: t) = true ↔
      systemdValidUTF8 s = true ∧ systemdValidUTF8 t = true := by
  simp only [systemdValidUTF8, List.foldl_append, List.foldl_cons, beq_iff_eq]
  have hsound : (s.foldl Utf8.next .idle).Sound := Utf8.sound_foldl s trivial
  rcases Utf8.next_ascii hsound hb with ⟨hnext, hidle⟩ | hbad
  · rw [hnext, hidle]
    simp
  · rw [hbad, Utf8.foldl_bad]
    constructor
    · intro h
      cases h
    · rintro ⟨hidle, -⟩
      rw [hidle, Utf8.next_idle_ascii hb] at hbad
      cases hbad

theorem systemdValidUTF8_of_ascii {s : GoString} (hs : ∀ b ∈ s, b < 0x80) :
    systemdValidUTF8 s = true := by
  have hfold : s.foldl Utf8.next .idle = .idle := by
    induction s with
    | nil => rfl
    | cons b s ih =>
      rw [List.foldl_cons, Utf8.next_idle_ascii (hs b List.mem_cons_self)]
      exact ih fun c hc => hs c (List.mem_cons_of_mem b hc)
  simp [systemdValidUTF8, hfold]

theorem systemdValidUTF8_join {args : List GoString} (h : ∀ a ∈ args, systemdValidUTF8 a = true) :
    systemdValidUTF8 (join args 32) = true := by
  induction args with
  | nil => rfl
  | cons a args ih =>
    cases args with
    | nil => simpa [join] using h a List.mem_cons_self
    | cons b args =>
      have hcons : join (a :: b :: args) 32 = a ++ 32 :: join (b :: args) 32 := by simp [join]
      rw [hcons, systemdValidUTF8_append_ascii _ _ (by decide)]
      exact ⟨h a List.mem_cons_self, ih fun c hc => h c (List.mem_cons_of_mem a hc)⟩

/-! ## Arguments -/

theorem ascii_of_envWhitespace {b : UInt8} (hb : b ∈ envWhitespace) : b < 0x80 := by
  simp only [envWhitespace, List.mem_cons, List.not_mem_nil, or_false] at hb
  rcases hb with rfl | rfl | rfl | rfl <;> decide

def IsArg (a : GoString) : Prop := a ≠ [] ∧ ∀ b ∈ a, b ∉ envWhitespace

theorem splitArgsFrom_mem (s field a : GoString) (hfield : ∀ b ∈ field, b ∉ envWhitespace)
    (h : a ∈ splitArgsFrom s field) :
    IsArg a ∧ (∀ b ∈ a, b ∈ field ++ s) ∧
      (systemdValidUTF8 (field ++ s) = true → systemdValidUTF8 a = true) := by
  induction s generalizing field with
  | nil =>
    simp only [splitArgsFrom] at h
    split_ifs at h with hnil
    · cases h
    · rw [List.mem_singleton] at h
      subst h
      exact ⟨⟨hnil, hfield⟩, by simp, by simp⟩
  | cons c s ih =>
    simp only [splitArgsFrom] at h
    split_ifs at h with hws hnil
    · obtain ⟨harg, hmem, hvalid⟩ := ih [] (by simp) h
      subst hnil
      refine ⟨harg, fun b hb => List.mem_cons_of_mem c (hmem b hb), fun hv => hvalid ?_⟩
      exact ((systemdValidUTF8_append_ascii [] s (ascii_of_envWhitespace hws)).mp hv).2
    · rcases List.mem_cons.mp h with rfl | h
      · refine ⟨⟨hnil, hfield⟩, fun b hb => List.mem_append_left _ hb, fun hv => ?_⟩
        exact ((systemdValidUTF8_append_ascii _ s (ascii_of_envWhitespace hws)).mp hv).1
      · obtain ⟨harg, hmem, hvalid⟩ := ih [] (by simp) h
        refine ⟨harg, fun b hb => ?_, fun hv => hvalid ?_⟩
        · exact List.mem_append_right _ (List.mem_cons_of_mem c (hmem b hb))
        · exact ((systemdValidUTF8_append_ascii _ s (ascii_of_envWhitespace hws)).mp hv).2
    · have hfield' : ∀ b ∈ field ++ [c], b ∉ envWhitespace := by
        intro b hb
        rcases List.mem_append.mp hb with hb | hb
        · exact hfield b hb
        · rwa [List.mem_singleton.mp hb]
      have := ih (field ++ [c]) hfield' h
      simpa using this

theorem splitArgsFrom_append {w : GoString} (hw : ∀ b ∈ w, b ∉ envWhitespace) (s field : GoString) :
    splitArgsFrom (w ++ s) field = splitArgsFrom s (field ++ w) := by
  induction w generalizing field with
  | nil => simp
  | cons b w ih =>
    rw [List.cons_append, splitArgsFrom, if_neg (hw b List.mem_cons_self),
      ih fun c hc => hw c (List.mem_cons_of_mem b hc)]
    simp

/-- Joined arguments split as they were. -/
theorem splitArgs_join {args : List GoString} (h : ∀ a ∈ args, IsArg a) :
    splitArgs (join args 32) = args := by
  induction args with
  | nil => rfl
  | cons a args ih =>
    obtain ⟨hne, hws⟩ := h a List.mem_cons_self
    cases args with
    | nil =>
      have hjoin : join [a] 32 = a ++ [] := by simp [join]
      rw [splitArgs, hjoin, splitArgsFrom_append hws]
      simp [splitArgsFrom, hne]
    | cons b args =>
      have hcons : join (a :: b :: args) 32 = a ++ 32 :: join (b :: args) 32 := by simp [join]
      have hspace : (32 : UInt8) ∈ envWhitespace := by decide
      rw [splitArgs, hcons, splitArgsFrom_append hws, splitArgsFrom, if_pos hspace, List.nil_append,
        if_neg hne]
      exact congrArg (a :: ·) (ih fun c hc => h c (List.mem_cons_of_mem a hc))

def Foreign (arg : GoString) : Prop :=
  arg ≠ flagBinDir ∧ arg ≠ flagConfigFile ∧
    hasPrefix arg (flagBinDir ++ [61]) = false ∧ hasPrefix arg (flagConfigFile ++ [61]) = false

theorem stripFrom_foreign (skip : Bool) (args : List GoString) (a : GoString)
    (h : a ∈ stripFrom skip args) : a ∈ args ∧ Foreign a := by
  induction args generalizing skip with
  | nil => cases skip <;> cases h
  | cons b args ih =>
    cases skip with
    | true =>
      have hmem := ih false h
      exact ⟨List.mem_cons_of_mem b hmem.1, hmem.2⟩
    | false =>
      simp only [stripFrom] at h
      split_ifs at h with hflag hprefixed
      · have hmem := ih true h
        exact ⟨List.mem_cons_of_mem b hmem.1, hmem.2⟩
      · have hmem := ih false h
        exact ⟨List.mem_cons_of_mem b hmem.1, hmem.2⟩
      · rcases List.mem_cons.mp h with rfl | h
        · rw [not_or] at hflag
          rw [Bool.or_eq_true, not_or] at hprefixed
          exact ⟨List.mem_cons_self, hflag.1, hflag.2, Bool.eq_false_of_not_eq_true hprefixed.1,
            Bool.eq_false_of_not_eq_true hprefixed.2⟩
        · have hmem := ih false h
          exact ⟨List.mem_cons_of_mem b hmem.1, hmem.2⟩

theorem stripFrom_append {args : List GoString} (h : ∀ a ∈ args, Foreign a) (rest : List GoString) :
    stripFrom false (args ++ rest) = args ++ stripFrom false rest := by
  induction args with
  | nil => rfl
  | cons a args ih =>
    obtain ⟨hbin, hconfig, hbin', hconfig'⟩ := h a List.mem_cons_self
    rw [List.cons_append, stripFrom, if_neg (by simp [hbin, hconfig]), if_neg (by simp [hbin', hconfig']),
      ih fun b hb => h b (List.mem_cons_of_mem a hb)]
    rfl

def ourFlags (binDir configFile : GoString) : List GoString :=
  [flagBinDir ++ [61] ++ binDir, flagConfigFile ++ [61] ++ configFile]

theorem flags_differ (s : GoString) :
    flagConfigFile ++ [61] ++ s ≠ flagBinDir ∧ flagBinDir ++ [61] ++ s ≠ flagConfigFile ∧
      hasPrefix (flagConfigFile ++ [61] ++ s) (flagBinDir ++ [61]) = false ∧
      hasPrefix (flagBinDir ++ [61] ++ s) (flagConfigFile ++ [61]) = false := by
  refine ⟨fun h => ?_, fun h => ?_, rfl, rfl⟩
  · have htake : (flagConfigFile ++ [61] ++ s).take 30 = flagConfigFile.take 30 := rfl
    exact absurd (htake.symm.trans (congrArg (List.take 30) h)) (by decide)
  · have htake : (flagBinDir ++ [61] ++ s).take 30 = flagBinDir.take 30 := rfl
    exact absurd (htake.symm.trans (congrArg (List.take 30) h)) (by decide)

theorem flag_append_ne (flag s : GoString) : flag ++ [61] ++ s ≠ flag := by
  intro h
  have hlen := congrArg List.length h
  simp at hlen

theorem stripFrom_ourFlags (binDir configFile : GoString) :
    stripFrom false (ourFlags binDir configFile) = [] := by
  obtain ⟨-, hbin, -, hbin'⟩ := flags_differ binDir
  obtain ⟨hconfig, -, hconfig', -⟩ := flags_differ configFile
  have hown (flag s : GoString) : hasPrefix (flag ++ [61] ++ s) (flag ++ [61]) = true :=
    hasPrefix_append _ s
  rw [ourFlags, stripFrom, if_neg (not_or.mpr ⟨flag_append_ne flagBinDir binDir, hbin⟩), hown,
    Bool.true_or, if_pos rfl, stripFrom,
    if_neg (not_or.mpr ⟨hconfig, flag_append_ne flagConfigFile configFile⟩), hown, Bool.or_true,
    if_pos rfl]
  rfl

/-- Whatever stands before them, the last two flags are the ones that count. -/
theorem flagValue_ourFlags (args : List GoString) (binDir configFile : GoString) :
    flagValue (args ++ ourFlags binDir configFile) flagBinDir = binDir ∧
      flagValue (args ++ ourFlags binDir configFile) flagConfigFile = configFile := by
  have hbefore : ∀ (flag value : GoString) (args rest : List GoString),
      (∀ v, flagValueFrom flag v rest = flagValueFrom flag [] rest) →
      flagValueFrom flag value (args ++ rest) = flagValueFrom flag [] rest := by
    intro flag value args rest hrest
    induction args generalizing value with
    | nil => exact hrest value
    | cons a args ih =>
      rw [List.cons_append, flagValueFrom.eq_def]
      simp only
      split
      · exact ih _
      · split
        · exact ih _
        · rename_i heq
          obtain ⟨rfl, rfl⟩ := List.append_eq_nil_iff.mp heq
          exact hrest value
  obtain ⟨-, hbin, -, hbin'⟩ := flags_differ binDir
  obtain ⟨hconfig, -, hconfig', -⟩ := flags_differ configFile
  have hown (flag s : GoString) : cutPrefix (flag ++ [61] ++ s) (flag ++ [61]) = some s :=
    cutPrefix_append _ s
  have hnone {s p : GoString} (h : hasPrefix s p = false) : cutPrefix s p = none := by
    simp [cutPrefix, h]
  have hfirst (v : GoString) :
      flagValueFrom flagBinDir v (ourFlags binDir configFile) = binDir := by
    rw [ourFlags, flagValueFrom, hown]
    simp only [flagValueFrom, hnone hconfig']
  have hsecond (v : GoString) :
      flagValueFrom flagConfigFile v (ourFlags binDir configFile) = configFile := by
    rw [ourFlags, flagValueFrom, hnone hbin']
    simp only [flagValueFrom, hown]
  constructor
  · rw [flagValue, hbefore _ _ _ _ fun v => (hfirst v).trans (hfirst []).symm, hfirst]
  · rw [flagValue, hbefore _ _ _ _ fun v => (hsecond v).trans (hsecond []).symm, hsecond]

/-! ## The value on a line -/

open EnvParser

theorem read_inline {p q : EnvParser} {c : UInt8} (hc : c ≠ 10) (h : p.next c = .ok q) :
    p.read c = .ok { q with text := p.text ++ [c] } := by
  rw [EnvParser.read, h, ok_bind, if_neg hc]

theorem fold_preValue_blank {s : GoString} (hs : ∀ c ∈ s, c ∈ envWhitespace ∧ c ∉ envNewline)
    {p : EnvParser} (hp : p.state = .preValue) :
    s.foldlM read p = .ok { p with text := p.text ++ s } := by
  induction s generalizing p with
  | nil => simp; rfl
  | cons c s ih =>
    obtain ⟨hws, hnl⟩ := hs c List.mem_cons_self
    have hnot : c ≠ 39 ∧ c ≠ 34 ∧ c ≠ 92 := by
      simp only [envWhitespace, List.mem_cons, List.not_mem_nil, or_false] at hws
      rcases hws with rfl | rfl | rfl | rfl <;> decide
    have hnext : p.next c = .ok p := by
      simp [next, hp, hnl, hws, hnot]
    have hne : c ≠ 10 := fun h => hnl (by simp [envNewline, h])
    rw [List.foldlM_cons, read_inline hne hnext, ok_bind]
    refine (ih (fun d hd => hs d (List.mem_cons_of_mem c hd)) ?_).trans ?_
    · exact hp
    · simp

theorem fold_quoted {quote : UInt8} {s : GoString} (hs : ∀ c ∈ s, c ≠ quote ∧ c ≠ 92 ∧ c ≠ 10)
    {p : EnvParser} (hp : p.state = .singleQuote ∧ quote = 39 ∨ p.state = .doubleQuote ∧ quote = 34) :
    s.foldlM read p = .ok { p with value := p.value ++ s, text := p.text ++ s } := by
  induction s generalizing p with
  | nil => simp; rfl
  | cons c s ih =>
    obtain ⟨hquote, hescape, hne⟩ := hs c List.mem_cons_self
    have hnext : p.next c = .ok { p with value := p.value ++ [c] } := by
      rcases hp with ⟨hp, rfl⟩ | ⟨hp, rfl⟩ <;> simp [next, hp, hquote, hescape]
    rw [List.foldlM_cons, read_inline hne hnext, ok_bind]
    refine (ih (fun d hd => hs d (List.mem_cons_of_mem c hd)) ?_).trans ?_
    · exact hp
    · simp

/-- The value an unquoted text stands for when the line ends. -/
def EnvParser.trimmed (p : EnvParser) : GoString :=
  match p.lastValueWS with
  | some n => p.value.take n
  | none => p.value

theorem fold_inValue {s : GoString} (hs : ∀ c ∈ s, c ∉ envNewline ∧ c ≠ 92) {p : EnvParser}
    (hp : p.state = .inValue) (hws : p.lastValueWS = none) :
    ∃ q, s.foldlM read p = .ok q ∧ q.state = .inValue ∧ q.value = p.value ++ s ∧
      q.trimmed = p.value ++ trimRight s envWhitespace ∧
      (∀ n, q.lastValueWS = some n → n ≤ q.value.length) := by
  induction s using List.reverseRecOn with
  | nil => exact ⟨p, rfl, hp, by simp, by simp [trimmed, hws, trimRight], by simp [hws]⟩
  | append_singleton s c ih =>
    obtain ⟨q, hq, hstate, hvalue, htrim, hbound⟩ :=
      ih fun d hd => hs d (List.mem_append_left _ hd)
    obtain ⟨hnl, hescape⟩ := hs c (by simp)
    have hne : c ≠ 10 := fun h => hnl (by simp [envNewline, h])
    have hnext : q.next c = .ok { q with
        lastValueWS := if !decide (c ∈ envWhitespace) then none else some (q.lastValueWS.getD q.value.length)
        value := q.value ++ [c] } := by
      simp [next, hstate, hnl, hescape]
    have hread := read_inline hne hnext
    have hfold : (s ++ [c]).foldlM EnvParser.read p = q.read c := by
      rw [List.foldlM_append, hq, ok_bind, List.foldlM_cons, hread]
      rfl
    refine ⟨_, hfold.trans hread, ?_, ?_, ?_, ?_⟩
    · exact hstate
    · simp [hvalue]
    · rw [trimRight, List.rdropWhile_concat]
      by_cases hc : c ∈ envWhitespace
      · rw [if_pos (decide_eq_true hc), ← trimRight, ← htrim]
        cases hlast : q.lastValueWS with
        | none => simp [trimmed, hc, hlast]
        | some n =>
          have hle := hbound n hlast
          simp [trimmed, hc, hlast, List.take_append_of_le_length hle]
      · simp [trimmed, hc, hvalue]
    · intro n hn
      by_cases hc : c ∈ envWhitespace
      · cases hlast : q.lastValueWS with
        | none =>
          simp [hc, hlast] at hn
          simp
          omega
        | some m =>
          have hle := hbound m hlast
          simp [hc, hlast] at hn
          simp
          omega
      · simp [hc] at hn

theorem trimEnv_parts (s : GoString) :
    ∃ before after, s = before ++ (trimEnv s ++ after) ∧ (∀ b ∈ before, b ∈ envWhitespace) ∧
      (∀ b ∈ after, b ∈ envWhitespace) ∧ (∀ b, (trimEnv s).head? = some b → b ∉ envWhitespace) ∧
      trimRight (trimEnv s ++ after) envWhitespace = trimEnv s := by
  let ws : UInt8 → Bool := fun b => decide (b ∈ envWhitespace)
  have hrest : trimEnv s ++ (s.dropWhile ws).rtakeWhile ws = s.dropWhile ws :=
    List.rdropWhile_append_rtakeWhile
  refine ⟨s.takeWhile ws, (s.dropWhile ws).rtakeWhile ws, ?_, ?_, ?_, ?_, ?_⟩
  · rw [hrest, List.takeWhile_append_dropWhile]
  · intro b hb
    have hb' : ws b = true := List.mem_takeWhile_imp hb
    exact of_decide_eq_true hb'
  · intro b hb
    have hb' : ws b = true := List.mem_rtakeWhile_imp hb
    exact of_decide_eq_true hb'
  · intro b hb hmem
    have hhead : (s.dropWhile ws).head? = some b := by
      rw [← hrest, List.head?_append, hb]
      rfl
    have hnot := List.head?_dropWhile_not ws s
    rw [hhead] at hnot
    simp [ws, hmem] at hnot
  · rw [hrest]
    rfl

theorem fold_value_quoted {quote : UInt8} (hquote : quote = 34 ∨ quote = 39) {mid after : GoString}
    (hmid : ∀ c ∈ mid, c ≠ quote ∧ c ≠ 92 ∧ c ≠ 10)
    (hafter : ∀ c ∈ after, c ∈ envWhitespace ∧ c ∉ envNewline) {p : EnvParser}
    (hp : p.state = .preValue) (hvalue : p.value = []) :
    (quote :: (mid ++ quote :: after)).foldlM read p =
      .ok { p with value := mid, text := p.text ++ quote :: (mid ++ quote :: after) } := by
  have hne : quote ≠ 10 := by rcases hquote with rfl | rfl <;> decide
  obtain ⟨inside, hinside, hopen, hclose⟩ : ∃ inside,
      (inside = EnvState.singleQuote ∧ quote = 39 ∨ inside = EnvState.doubleQuote ∧ quote = 34) ∧
      p.next quote = .ok { p with state := inside } ∧
      ∀ q : EnvParser, q.state = inside → q.next quote = .ok { q with state := .preValue } := by
    rcases hquote with rfl | rfl
    · exact ⟨.doubleQuote, .inr ⟨rfl, rfl⟩, by simp [next, hp, envNewline], fun q hq => by simp [next, hq]⟩
    · exact ⟨.singleQuote, .inl ⟨rfl, rfl⟩, by simp [next, hp, envNewline], fun q hq => by simp [next, hq]⟩
  have hread := read_inline hne hopen
  rw [List.foldlM_cons, hread, ok_bind, List.foldlM_append, fold_quoted hmid (by exact hinside), ok_bind,
    List.foldlM_cons, read_inline hne (hclose _ (by rfl)), ok_bind, fold_preValue_blank hafter rfl]
  simp [hvalue, hp]

theorem fold_value_plain {c : UInt8} {rest : GoString}
    (hc : c ∉ envWhitespace ∧ c ≠ 34 ∧ c ≠ 39 ∧ c ≠ 92)
    (hrest : ∀ d ∈ rest, d ∉ envNewline ∧ d ≠ 92) {p : EnvParser} (hp : p.state = .preValue)
    (hvalue : p.value = []) (htrim : p.lastValueWS = none) :
    ∃ q, (c :: rest).foldlM read p = .ok q ∧ q.state = .inValue ∧
      q.trimmed = trimRight (c :: rest) envWhitespace := by
  obtain ⟨hws, h34, h39, h92⟩ := hc
  have hnl : c ∉ envNewline := by
    intro h
    simp only [envNewline, List.mem_cons, List.not_mem_nil, or_false] at h
    rcases h with rfl | rfl <;> exact hws (by decide)
  have hne : c ≠ 10 := fun h => hnl (by simp [envNewline, h])
  have hnext : p.next c = .ok { p with state := .inValue, value := p.value ++ [c] } := by
    simp [next, hp, hnl, hws, h34, h39, h92]
  obtain ⟨q, hq, hstate, -, htrimmed, -⟩ := fold_inValue hrest
    (p := { p with state := .inValue, value := p.value ++ [c], text := p.text ++ [c] }) rfl htrim
  refine ⟨q, ?_, hstate, ?_⟩
  · rw [List.foldlM_cons, read_inline hne hnext]
    exact hq
  · rw [htrimmed, hvalue]
    exact (trimRight_append [] rest envWhitespace c hws).symm

theorem exists_quoted {s : GoString} (hlen : 2 ≤ s.length) (hends : s.getLast? = s.head?) :
    ∃ quote mid, s = quote :: (mid ++ [quote]) := by
  match s with
  | quote :: next :: rest =>
    refine ⟨quote, (next :: rest).dropLast, ?_⟩
    have hlast : (next :: rest).getLast (by simp) = quote := by
      simpa [List.getLast?_cons_cons, List.getLast?_eq_some_getLast] using hends
    conv_lhs => rw [← List.dropLast_append_getLast (l := next :: rest) (by simp), hlast]

/-- The text after the equals sign, when it is one the installer rewrites, is read as the
arguments it takes from it. -/
theorem fold_value {body val : GoString} (hbody : ∀ c ∈ body, c ∉ envNewline)
    (hval : unquoteExtraArgs (trimEnv body) = .ok val) {p : EnvParser} (hp : p.state = .preValue)
    (hvalue : p.value = []) (htrim : p.lastValueWS = none) :
    ∃ q, body.foldlM read p = .ok q ∧
      (q.state = .preValue ∧ q.value = val ∨ q.state = .inValue ∧ q.trimmed = val) := by
  obtain ⟨before, after, hparts, hbefore, hafter, hhead, hright⟩ := trimEnv_parts body
  have hnl : ∀ c ∈ before ++ (trimEnv body ++ after), c ∉ envNewline := hparts ▸ hbody
  have hblank : ∀ c ∈ before, c ∈ envWhitespace ∧ c ∉ envNewline := fun c hc =>
    ⟨hbefore c hc, hnl c (List.mem_append_left _ hc)⟩
  have hblank' : ∀ c ∈ after, c ∈ envWhitespace ∧ c ∉ envNewline := fun c hc =>
    ⟨hafter c hc, hnl c (List.mem_append_right _ (List.mem_append_right _ hc))⟩
  have htext : ∀ c ∈ trimEnv body ++ after, c ∉ envNewline := fun c hc =>
    hnl c (List.mem_append_right _ hc)
  have hfold : body.foldlM read p =
      (trimEnv body ++ after).foldlM read { p with text := p.text ++ before } := by
    conv_lhs => rw [hparts]
    rw [List.foldlM_append, fold_preValue_blank hblank hp, ok_bind]
  have hplain : ∀ {s : GoString}, ¬ s.any (fun b => decide (b ∈ quotingChars)) = true →
      ∀ c ∈ s, c ≠ 34 ∧ c ≠ 39 ∧ c ≠ 92 := by
    intro s hs c hc
    have hnot : c ∉ quotingChars := fun hin => hs (List.any_eq_true.mpr ⟨c, hc, decide_eq_true hin⟩)
    refine ⟨?_, ?_, ?_⟩ <;> rintro rfl <;> exact hnot (by decide)
  rw [hfold]
  simp only [unquoteExtraArgs] at hval
  split_ifs at hval with hquoted hquoting hquoting
  · cases hval
    obtain ⟨hlen, hquote, hlast⟩ := hquoted
    obtain ⟨quote, mid, heq⟩ := exists_quoted hlen hlast
    rw [heq] at hquoting hquote htext ⊢
    simp only [List.tail_cons, List.dropLast_concat] at hquoting ⊢
    have hquote' : quote = 34 ∨ quote = 39 := by simpa using hquote
    have hmid : ∀ c ∈ mid, c ≠ quote ∧ c ≠ 92 ∧ c ≠ 10 := by
      intro c hc
      obtain ⟨h34, h39, h92⟩ := hplain hquoting c hc
      refine ⟨?_, h92, ?_⟩
      · rcases hquote' with rfl | rfl
        · exact h34
        · exact h39
      · rintro rfl
        exact htext 10 (by simp [hc]) (by decide)
    have hfold := fold_value_quoted hquote' hmid hblank' (p := { p with text := p.text ++ before })
      hp hvalue
    have happend : quote :: (mid ++ [quote]) ++ after = quote :: (mid ++ quote :: after) := by simp
    rw [happend]
    exact ⟨_, hfold, .inl ⟨hp, rfl⟩⟩
  · cases hval
    cases heq : trimEnv body with
    | nil =>
      rw [List.nil_append, fold_preValue_blank hblank' (by exact hp)]
      exact ⟨_, rfl, .inl ⟨hp, hvalue⟩⟩
    | cons c rest =>
      rw [heq] at hquoting htext hright hhead
      have hrest : ∀ d ∈ rest ++ after, d ∉ envNewline ∧ d ≠ 92 := by
        intro d hd
        refine ⟨htext d (List.mem_cons_of_mem _ hd), ?_⟩
        rcases List.mem_append.mp hd with hd | hd
        · exact (hplain hquoting d (List.mem_cons_of_mem _ hd)).2.2
        · rintro rfl
          exact absurd (hafter _ hd) (by decide)
      obtain ⟨q, hq, hstate, hv⟩ := fold_value_plain (p := { p with text := p.text ++ before })
        ⟨hhead c rfl, hplain hquoting c List.mem_cons_self⟩ hrest hp hvalue htrim
      exact ⟨q, hq, .inr ⟨hstate, hv.trans hright⟩⟩

end HarborBridge.Installer
