import Mathlib.Data.List.GetD
import HarborBridge.Installer.EnvValues

/-!
# Where assignments are

The lines that `parseEnvFile` reports for an assignment: they follow one another, and the first
of them has the variable's name. And what `openAtEnd` finds with its probe holds for any line
that is added.
-/

namespace HarborBridge.Installer

open GoStrings EnvParser

/-- The name on a line: what stands before the equals sign, without the blanks around it. An
equals sign that comes first is part of the name. -/
def keyOnLine (L : GoString) : Option GoString :=
  match L.dropWhile fun b => decide (b ∈ envWhitespace) with
  | [] => none
  | c :: t => (cut t 61).map fun kv => trimRight (c :: kv.1) envWhitespace

theorem dropWhile_blank {blank : GoString} (rest : GoString) {c : UInt8}
    (hblank : ∀ b ∈ blank, b ∈ envWhitespace) (hc : c ∉ envWhitespace) :
    (blank ++ c :: rest).dropWhile (fun b => decide (b ∈ envWhitespace)) = c :: rest := by
  rw [List.dropWhile_append_of_pos (by simpa using hblank), List.dropWhile_cons_of_neg (by simpa using hc)]

theorem keyOnLine_eq (more : GoString) {blank rest : GoString} {c : UInt8}
    (hblank : ∀ b ∈ blank, b ∈ envWhitespace) (hc : c ∉ envWhitespace) (hrest : 61 ∉ rest) :
    keyOnLine (blank ++ c :: (rest ++ 61 :: more)) = some (trimRight (c :: rest) envWhitespace) := by
  simp [keyOnLine, dropWhile_blank _ hblank hc, cut_append _ _ _ hrest]

/-- A line with a name has something before the equals sign that is no blank. -/
theorem exists_of_keyOnLine {L key : GoString} (h : keyOnLine L = some key) :
    ∃ blank c rest more, L = blank ++ c :: (rest ++ 61 :: more) ∧ (∀ b ∈ blank, b ∈ envWhitespace) ∧
      c ∉ envWhitespace ∧ 61 ∉ rest ∧ key = trimRight (c :: rest) envWhitespace := by
  have hsplit : L.takeWhile (fun b => decide (b ∈ envWhitespace)) ++
      L.dropWhile (fun b => decide (b ∈ envWhitespace)) = L := List.takeWhile_append_dropWhile
  have hblank : ∀ b ∈ L.takeWhile (fun b => decide (b ∈ envWhitespace)), b ∈ envWhitespace :=
    fun b hb => by simpa using List.mem_takeWhile_imp hb
  unfold keyOnLine at h
  split at h
  · cases h
  · rename_i c t hdrop
    obtain ⟨⟨k, v⟩, hcut, rfl⟩ := Option.map_eq_some_iff.mp h
    obtain ⟨hk, ht⟩ := (cut_eq_some t 61 k v).mp hcut
    have hc : c ∉ envWhitespace := by
      have hhead := List.head_dropWhile_not (fun b => decide (b ∈ envWhitespace)) (l := L) (by rw [hdrop]; simp)
      simpa [hdrop] using hhead
    rw [hdrop, ht] at hsplit
    exact ⟨_, c, k, v, hsplit.symm, hblank, hc, hk, rfl⟩

theorem keyOnLine_append {L key : GoString} (h : keyOnLine L = some key) (M : GoString) :
    keyOnLine (L ++ M) = some key := by
  obtain ⟨blank, c, rest, more, rfl, hblank, hc, hrest, rfl⟩ := exists_of_keyOnLine h
  simpa using keyOnLine_eq (more ++ M) hblank hc hrest

/-- The text before the first equals sign, without the blanks around it. -/
def beforeEquals (L : GoString) : Option GoString := (cut L 61).map fun kv => trimEnv kv.1

/-- An equals sign comes first on the line, and another one after it. -/
def leadingEquals (L : GoString) : Bool :=
  match L.dropWhile fun b => decide (b ∈ envWhitespace) with
  | 61 :: t => decide (61 ∈ t)
  | _ => false

theorem leadingEquals_eq {blank : GoString} (rest : GoString) {c : UInt8}
    (hblank : ∀ b ∈ blank, b ∈ envWhitespace) (hc : c ∉ envWhitespace) :
    leadingEquals (blank ++ c :: rest) = (decide (c = 61) && decide (61 ∈ rest)) := by
  unfold leadingEquals
  rw [dropWhile_blank _ hblank hc]
  split
  · rename_i heq
    cases heq
    simp
  · rename_i hne
    have : c ≠ 61 := by
      rintro rfl
      exact hne rest rfl
    simp [this]

theorem leadingEquals_blank {L : GoString} (h : ∀ b ∈ L, b ∈ envWhitespace) :
    leadingEquals L = false := by
  unfold leadingEquals
  rw [List.dropWhile_eq_nil_iff.mpr (by simpa using h)]

theorem leadingEquals_append {L cr : GoString} (hcr : IsLineEnd cr) :
    leadingEquals (L ++ cr) = leadingEquals L := by
  have hblank : ∀ b ∈ cr, b ∈ envWhitespace := by
    rcases hcr with rfl | rfl <;> simp [envWhitespace]
  have h61 : 61 ∉ cr := fun h => absurd (hblank 61 h) (by decide)
  unfold leadingEquals
  rw [List.dropWhile_append]
  cases hdrop : L.dropWhile fun b => decide (b ∈ envWhitespace) with
  | nil =>
    rw [List.isEmpty_nil, if_pos rfl, List.dropWhile_eq_nil_iff.mpr (by simpa using hblank)]
  | cons c t =>
    rw [List.isEmpty_cons, if_neg (by decide), List.cons_append]
    by_cases hc : c = 61
    · subst hc
      simp [h61]
    · split <;> simp_all

/-- The name is the text before the equals sign, unless that comes first. -/
theorem beforeEquals_iff {L key : GoString} (h : keyOnLine L = some key) :
    beforeEquals L = some key ↔ leadingEquals L = false := by
  obtain ⟨blank, c, rest, more, rfl, hblank, hc, hrest, rfl⟩ := exists_of_keyOnLine h
  have h61 : 61 ∉ blank := fun h => absurd (hblank 61 h) (by decide)
  rw [leadingEquals_eq _ hblank hc]
  by_cases heq : c = 61
  · subst heq
    have hempty : trimEnv blank = [] := by
      rw [trimEnv, List.dropWhile_eq_nil_iff.mpr (by simpa using hblank)]
      rfl
    have hsolid : trimRight (61 :: rest) envWhitespace ≠ [] := by
      unfold trimRight
      intro hnil
      have hall := List.rdropWhile_eq_nil_iff.mp hnil 61 List.mem_cons_self
      exact absurd hall (by decide)
    simp [beforeEquals, cut_append _ _ _ h61, hempty, hsolid.symm]
  · have hno : 61 ∉ blank ++ c :: rest := by simp [h61, hrest, Ne.symm heq]
    have htext : blank ++ c :: (rest ++ 61 :: more) = (blank ++ c :: rest) ++ 61 :: more := by simp
    rw [beforeEquals, htext, cut_append _ _ _ hno, Option.map_some, trimEnv, dropWhile_blank _ hblank hc]
    simp [heq]

namespace EnvParser

def Named (k : GoString) (p : EnvParser) : Prop := ¬ Calm p ∧ p.name = k

structure NameRead (p : EnvParser) : Prop where
  trimmed : p.name = trimRight p.key envWhitespace
  blanks : ∀ n, p.lastKeyWS = some n → n ≤ p.key.length
  text : ∃ blank c rest, p.text = blank ++ c :: rest ∧ (∀ b ∈ blank, b ∈ envWhitespace) ∧
    c ∉ envWhitespace ∧ 61 ∉ rest ∧ p.key = c :: rest

def KeyRead (p : EnvParser) : Prop :=
  match p.state with
  | .preKey => ∀ b ∈ p.text, b ∈ envWhitespace
  | .inKey => NameRead p
  | .comment | .commentEscape => ∃ blank c rest, p.text = blank ++ c :: rest ∧
      (∀ b ∈ blank, b ∈ envWhitespace) ∧ c ∈ envComments
  | _ => keyOnLine p.text = some p.name

theorem KeyRead.congr {p q : EnvParser} (h : KeyRead p) (hstate : q.state = p.state)
    (htext : q.text = p.text) (hkey : q.key = p.key) (hws : q.lastKeyWS = p.lastKeyWS) : KeyRead q := by
  have hname : q.name = p.name := by simp [name, hkey, hws]
  unfold KeyRead at h ⊢
  rw [hstate]
  cases hs : p.state
  all_goals simp only [hs] at h ⊢
  case preKey => rwa [htext]
  case inKey =>
    obtain ⟨htrimmed, hblanks, htext'⟩ := h
    exact ⟨by rw [hname, hkey, htrimmed], by rwa [hkey, hws], by rwa [htext, hkey]⟩
  case comment | commentEscape => rwa [htext]
  all_goals rwa [htext, hname]

theorem trimRight_snoc_blank {s : GoString} {c : UInt8} (hc : c ∈ envWhitespace) :
    trimRight (s ++ [c]) envWhitespace = trimRight s envWhitespace := by
  unfold trimRight
  rw [List.rdropWhile_concat_pos _ _ _ (by simpa using hc)]

theorem trimRight_snoc_solid {s : GoString} {c : UInt8} (hc : c ∉ envWhitespace) :
    trimRight (s ++ [c]) envWhitespace = s ++ [c] := by
  unfold trimRight
  rw [List.rdropWhile_concat_neg _ _ _ (by simpa using hc)]

theorem NameRead.next {p : EnvParser} (h : NameRead p) {c : UInt8} (hc : c ≠ 61) :
    NameRead { p with
      lastKeyWS := if !decide (c ∈ envWhitespace) then none else some (p.lastKeyWS.getD p.key.length)
      key := p.key ++ [c], text := p.text ++ [c] } := by
  obtain ⟨htrimmed, hblanks, blank, d, rest, htext, hblank, hd, hrest, hkey⟩ := h
  have htext' : ∃ blank d rest', p.text ++ [c] = blank ++ d :: rest' ∧ (∀ b ∈ blank, b ∈ envWhitespace) ∧
      d ∉ envWhitespace ∧ 61 ∉ rest' ∧ p.key ++ [c] = d :: rest' := by
    refine ⟨blank, d, rest ++ [c], by simp [htext], hblank, hd, ?_, by simp [hkey]⟩
    simp [hrest, Ne.symm hc]
  by_cases hws : c ∈ envWhitespace
  · refine ⟨?_, ?_, htext'⟩
    · simp only [hws, decide_true, Bool.not_true, Bool.false_eq_true, if_false, name,
        trimRight_snoc_blank hws]
      cases hlast : p.lastKeyWS with
      | none =>
        simp only [name, hlast] at htrimmed
        simpa using htrimmed
      | some n =>
        simp only [name, hlast] at htrimmed
        rw [Option.getD_some, List.take_append_of_le_length (hblanks n hlast), htrimmed]
    · intro n hn
      simp only [hws, decide_true, Bool.not_true, Bool.false_eq_true, if_false, Option.some.injEq] at hn
      subst hn
      cases hlast : p.lastKeyWS with
      | none => simp
      | some n =>
        have := hblanks n hlast
        simp only [Option.getD_some, List.length_append, List.length_singleton]
        omega
  · refine ⟨?_, ?_, htext'⟩
    · simp [hws, name, trimRight_snoc_solid hws]
    · simp [hws]

theorem read_keyRead {p q : EnvParser} {c : UInt8} (hc : c ∉ envNewline) (hp : KeyRead p)
    (h : p.read c = .ok q) : KeyRead q := by
  have h10 : c ≠ 10 := fun h => hc (by simp [envNewline, h])
  obtain ⟨r, hr, -, hstate, hkey, -, hws, -, -, -, -, hrest⟩ := read_eq_ok h
  obtain ⟨-, -, htext⟩ := hrest h10
  suffices hsuff : KeyRead { r with text := p.text ++ [c] } from
    hsuff.congr hstate htext hkey hws
  unfold KeyRead at hp
  unfold EnvParser.next at hr
  simp only [hc, decide_false, Bool.false_eq_true, if_false] at hr
  cases hs : p.state
  all_goals simp only [hs] at hp hr
  case preKey =>
    split_ifs at hr with hcomment hblank
    · cases hr
      exact ⟨p.text, c, [], rfl, hp, hcomment⟩
    · cases hr
      have hc' : c ∉ envWhitespace := by simpa using hblank
      refine ⟨?_, by simp, p.text, c, [], rfl, hp, hc', by simp, rfl⟩
      simp only [name]
      exact (trimRight_snoc_solid (s := []) hc').symm
    · cases hr
      have hc' : c ∈ envWhitespace := by simpa using hblank
      simp only [KeyRead, hs]
      intro b hb
      rcases List.mem_append.mp hb with hb | hb
      · exact hp b hb
      · rwa [List.mem_singleton.mp hb]
  case inKey =>
    by_cases heq : c = 61
    · rw [if_pos heq] at hr
      cases hr
      obtain ⟨htrimmed, -, blank, d, rest, htext', hblank, hd, hrest', hkey'⟩ := hp
      subst heq
      simp only [KeyRead]
      have hname : name { p with state := .preValue, lastValueWS := none, text := p.text ++ [61] } =
          trimRight (d :: rest) envWhitespace := by
        rw [← hkey', ← htrimmed]
        rfl
      rw [hname, htext']
      simpa using keyOnLine_eq [] hblank hd hrest'
    · rw [if_neg heq] at hr
      cases hr
      simp only [KeyRead]
      exact hs ▸ hp.next heq
  case comment | commentEscape =>
    obtain ⟨blank, d, rest, htext', hblank, hd⟩ := hp
    have hcomment : ∃ blank d rest, p.text ++ [c] = blank ++ d :: rest ∧
        (∀ b ∈ blank, b ∈ envWhitespace) ∧ d ∈ envComments :=
      ⟨blank, d, rest ++ [c], by simp [htext'], hblank, hd⟩
    try split_ifs at hr
    all_goals
      cases hr
      simpa only [KeyRead, hs] using hcomment
  all_goals
    have hname : ∀ state value trim,
        keyOnLine (p.text ++ [c]) = some (name { p with
          state := state, value := value, lastValueWS := trim, text := p.text ++ [c] }) :=
      fun _ _ _ => keyOnLine_append hp [c]
    try split_ifs at hr
    all_goals cases hr
    all_goals
      simp only [KeyRead, hs]
      exact hname _ _ _

theorem fold_keyRead {s : GoString} (hs : ∀ c ∈ s, c ∉ envNewline) {p q : EnvParser}
    (hp : KeyRead p) (h : s.foldlM read p = .ok q) : KeyRead q :=
  fold_keeps (fun c hc _ _ => read_keyRead (hs c hc)) hp h

/-- The value of `k` is being read, or its assignment has just ended. -/
def After (k : GoString) (out : List EnvAssignment) (p : EnvParser) : Prop :=
  p.out = out ∧ Named k p ∨ ∃ a, p.out = out ++ [a] ∧ a.key = k ∧ p.state = .preKey

theorem named_of_keyRead {p : EnvParser} (h : KeyRead p) (hp : ¬ Calm p) :
    keyOnLine p.text = some p.name := by
  unfold KeyRead at h
  unfold Calm at hp
  cases hs : p.state
  all_goals simp_all

theorem calm_of_keyRead {p : EnvParser} (h : KeyRead p) (hp : Calm p) : leadingEquals p.text = false := by
  unfold KeyRead at h
  rcases hp with hs | hs | hs | hs
  all_goals simp only [hs] at h
  case inl => exact leadingEquals_blank h
  case inr.inl =>
    obtain ⟨-, -, blank, c, rest, htext, hblank, hc, hrest, -⟩ := h
    rw [htext, leadingEquals_eq _ hblank hc]
    simp [hrest]
  all_goals
    obtain ⟨blank, c, rest, htext, hblank, hc⟩ := h
    have hc' : c ∉ envWhitespace ∧ c ≠ 61 := by
      have hcomments : envComments = [35, 59] := by decide
      simp only [hcomments, List.mem_cons, List.not_mem_nil, or_false] at hc
      rcases hc with rfl | rfl <;> decide
    rw [htext, leadingEquals_eq _ hblank hc'.1]
    simp [hc'.2]

/-- A byte of a value ends it, at a line's end only, or keeps the name. -/
theorem next_value {p q : EnvParser} {c : UInt8} (hp : ¬ Calm p) (h : p.next c = .ok q) :
    q.out = p.out ∧ ¬ Calm q ∧ q.key = p.key ∧ q.lastKeyWS = p.lastKeyWS ∨
      c ∈ envNewline ∧ q.state = .preKey ∧ ∃ a, q.out = p.out ++ [a] ∧ a.key = p.name := by
  unfold EnvParser.next at h
  cases hs : p.state
  all_goals simp only [hs] at h
  case preKey | inKey | comment | commentEscape => exact absurd (by simp [Calm, hs]) hp
  case preValue | inValue =>
    by_cases hc : c ∈ envNewline
    · simp only [hc, decide_true, if_true] at h
      obtain ⟨_, _, hstate, -⟩ := push_eq_ok h
      have hout := push_name h
      exact .inr ⟨hc, hstate, _, hout, rfl⟩
    · simp only [hc, decide_false, Bool.false_eq_true, if_false] at h
      left
      split_ifs at h
      all_goals
        cases h
        simp [Calm, hs]
  all_goals
    left
    try split_ifs at h
    all_goals
      cases h
      simp_all [Calm]

theorem read_value {k : GoString} {p q : EnvParser} {c : UInt8} (hp : Named k p)
    (h : p.read c = .ok q) :
    q.out = p.out ∧ Named k q ∨
      c ∈ envNewline ∧ q.state = .preKey ∧ ∃ a, q.out = p.out ++ [a] ∧ a.key = k := by
  obtain ⟨hcalm, hname⟩ := hp
  obtain ⟨r, hr, hout, hstate, hkey, -, hws, -⟩ := read_eq_ok h
  rcases next_value hcalm hr with ⟨hout', hcalm', hkey', hws'⟩ | ⟨hc, hstate', a, hout', ha⟩
  · refine .inl ⟨hout.trans hout', ?_, ?_⟩
    · unfold Calm at hcalm' ⊢
      rwa [hstate]
    · simpa [name, hkey, hws, hkey', hws'] using hname
  · exact .inr ⟨hc, hstate.trans hstate', a, hout.trans hout', ha.trans hname⟩

theorem fold_value_name {k : GoString} {s : GoString} (hs : ∀ c ∈ s, c ∉ envNewline) {p q : EnvParser}
    (hp : Named k p) (h : s.foldlM read p = .ok q) : q.out = p.out ∧ Named k q := by
  refine fold_keeps (P := fun r => r.out = p.out ∧ Named k r) (fun c hc r u hr hread => ?_) ⟨rfl, hp⟩ h
  rcases read_value hr.2 hread with ⟨hout, hnamed⟩ | ⟨hnl, -⟩
  · exact ⟨hout.trans hr.1, hnamed⟩
  · exact absurd hnl (hs c hc)

theorem lineEnd_after {k : GoString} {out : List EnvAssignment} {cr : GoString} (hcr : IsLineEnd cr)
    {p q : EnvParser} (hout : p.out = out) (hp : Named k p) (h : (cr ++ [10]).foldlM read p = .ok q) :
    After k out q := by
  refine fold_keeps (P := After k out) (fun c hc r u hr hread => ?_) (.inl ⟨hout, hp⟩) h
  have hnl : c ∈ envNewline := by
    have hmem : c = 13 ∨ c = 10 := by
      rcases hcr with rfl | rfl
      · exact .inr (by simpa using hc)
      · simpa using hc
    rcases hmem with rfl | rfl <;> decide
  rcases hr with ⟨hr, hnamed⟩ | ⟨a, hr, ha, hstate⟩
  · rcases read_value hnamed hread with ⟨hout', hnamed'⟩ | ⟨-, hstate, a, hout', ha⟩
    · exact .inl ⟨hout'.trans hr, hnamed'⟩
    · exact .inr ⟨a, by rw [hout', hr], ha, hstate⟩
  · obtain ⟨hstate', hout'⟩ := read_preKey_newline hnl hstate hread
    exact .inr ⟨a, hout'.trans hr, ha, hstate'⟩

/-- A line that starts outside of an assignment: what it adds or leaves open has the name on
it. -/
theorem readLine_key {p q : EnvParser} {L : GoString} (hL : IsLine L) (hp : p.state = .preKey)
    (htext : p.text = []) (h : readLine p L = .ok q) :
    q.out = p.out ∧ q.state = .preKey ∧ leadingEquals L = false ∨
      ∃ k, keyOnLine L = some k ∧ After k p.out q := by
  obtain ⟨body, cr, rfl, hbody, hcr⟩ := hL
  rw [readLine, List.append_assoc, List.foldlM_append] at h
  obtain ⟨r, hr, hend⟩ := bind_eq_ok h
  obtain ⟨_, hr', hwithin, htext'⟩ := fold_within body hbody p
  rw [hr] at hr'
  cases hr'
  rw [htext, List.nil_append] at htext'
  have hkey : KeyRead r := by
    refine fold_keyRead hbody ?_ hr
    simp [KeyRead, hp, htext]
  by_cases hcalm : Calm r
  · obtain ⟨hout, hstate⟩ := lineEnd_calm hcr hcalm hend
    have hleading := calm_of_keyRead hkey hcalm
    rw [htext', ← leadingEquals_append hcr] at hleading
    exact .inl ⟨hout.trans hwithin.out, hstate, hleading⟩
  · have hname := named_of_keyRead hkey hcalm
    rw [htext'] at hname
    refine .inr ⟨r.name, keyOnLine_append hname cr, ?_⟩
    exact lineEnd_after hcr hwithin.out ⟨hcalm, rfl⟩ hend

theorem readLine_value_name {k : GoString} {p q : EnvParser} {L : GoString} (hL : IsLine L)
    (hp : Named k p) (h : readLine p L = .ok q) : After k p.out q := by
  obtain ⟨body, cr, rfl, hbody, hcr⟩ := hL
  rw [readLine, List.append_assoc, List.foldlM_append] at h
  obtain ⟨r, hr, hend⟩ := bind_eq_ok h
  obtain ⟨hout, hnamed⟩ := fold_value_name hbody hp hr
  exact lineEnd_after hcr hout hnamed hend

/-- The lines before this one leave no value open. -/
def StartsAt (lines : List GoString) (i : Nat) : Prop :=
  ∃ p, readLines start (lines.take i) = .ok p ∧ p.state = .preKey

theorem startsAt_append {lines : List GoString} {i : Nat} (hi : i ≤ lines.length)
    (more : List GoString) : StartsAt (lines ++ more) i ↔ StartsAt lines i := by
  rw [StartsAt, StartsAt, List.take_append_of_le_length hi]

/-- The assignment has its name on its first line, and its lines are there. -/
structure PlacedOn (lines : List GoString) (a : EnvAssignment) : Prop where
  ordered : a.first ≤ a.last
  within : a.last < lines.length
  starts : StartsAt lines a.first
  key : keyOnLine (lines.getD a.first []) = some a.key

theorem PlacedOn.append {lines : List GoString} {a : EnvAssignment} (h : PlacedOn lines a)
    (more : List GoString) : PlacedOn (lines ++ more) a := by
  obtain ⟨hle, hlast, hstarts, hkey⟩ := h
  refine ⟨hle, by rw [List.length_append]; omega, (startsAt_append (by omega) more).mpr hstarts, ?_⟩
  rwa [List.getD_append _ _ _ _ (by omega)]

def Begun (i : Nat) (p : EnvParser) : Prop :=
  (∃ a ∈ p.out, a.first = i) ∨ ¬ Calm p ∧ p.first = i

structure Positions (lines : List GoString) (p : EnvParser) : Prop where
  reads : readLines start lines = .ok p
  line : p.line = lines.length
  text : p.text = []
  placed : ∀ a ∈ p.out, PlacedOn lines a
  sorted : p.out.Pairwise fun a b => a.last < b.first
  between : p.state = .preKey ∨ ∃ k, Named k p ∧ p.first < lines.length ∧
    (∀ a ∈ p.out, a.last < p.first) ∧ StartsAt lines p.first ∧
    keyOnLine (lines.getD p.first []) = some k
  begun : ∀ i < lines.length, StartsAt lines i → leadingEquals (lines.getD i []) = true → Begun i p

theorem positions_start : Positions [] start :=
  ⟨rfl, rfl, rfl, by simp [start], by simp [start], .inl rfl, by simp⟩

theorem Named.reading {k : GoString} {p : EnvParser} (h : Named k p) : Reading p :=
  ⟨fun hs => h.1 (.inl hs), fun hs => h.1 (.inr (.inr (.inl hs))),
    fun hs => h.1 (.inr (.inr (.inr hs)))⟩

/-- An assignment that starts on a line that follows all the others. -/
theorem pairwise_snoc {out : List EnvAssignment} {a : EnvAssignment}
    (h : out.Pairwise fun a b => a.last < b.first) (ha : ∀ b ∈ out, b.last < a.first) :
    (out ++ [a]).Pairwise fun a b => a.last < b.first := by
  refine List.pairwise_append.mpr ⟨h, List.pairwise_singleton _ _, fun b hb c hc => ?_⟩
  rw [List.mem_singleton.mp hc]
  exact ha b hb

theorem After.first {k : GoString} {p q : EnvParser} {first : Nat} (h : After k p.out q)
    (hends : LineEnds p q) (hopen : Reading p → p.first = first) (hnew : ¬ Reading p → p.line = first) :
    q.out = p.out ∧ Named k q ∧ q.first = first ∨
      ∃ a, q.out = p.out ++ [a] ∧ a.key = k ∧ a.first = first ∧ a.last = p.line ∧ q.state = .preKey := by
  rcases h with ⟨hout, hnamed⟩ | ⟨a, hout, ha, hstate⟩
  · refine .inl ⟨hout, hnamed, ?_⟩
    cases hends with
    | blank hstate => exact absurd hstate hnamed.reading.1
    | ended hstate => exact absurd hstate hnamed.reading.1
    | goesOn _ _ hopen' hnew' =>
      by_cases hr : Reading p
      · rw [(hopen' hr).1, hopen hr]
      · rw [(hnew' hr).1, hnew hr]
  · refine .inr ⟨a, hout, ha, ?_⟩
    cases hends with
    | blank _ hout' | goesOn _ hout' =>
      rw [hout'] at hout
      simp at hout
    | ended _ b hout' hblast hopen' hnew' =>
      rw [hout', List.append_cancel_left_eq, List.singleton_inj] at hout
      subst hout
      refine ⟨?_, hblast, hstate⟩
      by_cases hr : Reading p
      · rw [(hopen' hr).1, hopen hr]
      · rw [(hnew' hr).1, hnew hr]

theorem Positions.readLine {lines : List GoString} {p q : EnvParser} {L : GoString}
    (hp : Positions lines p) (hL : IsLine L) (h : readLine p L = .ok q) :
    Positions (lines ++ [L]) q := by
  obtain ⟨hends, hline, htext⟩ := readLine_ends hL h
  have hlen : q.line = (lines ++ [L]).length := by rw [hline, hp.line]; simp
  have hreads : readLines start (lines ++ [L]) = .ok q := by
    rw [readLines_append, hp.reads, ok_bind]
    simpa [EnvParser.readLines] using h
  have hplaced : ∀ a ∈ p.out, PlacedOn (lines ++ [L]) a := fun a ha => (hp.placed a ha).append [L]
  -- the lines before this one, where the assignment may have started
  have hbefore : ∀ i < lines.length, StartsAt (lines ++ [L]) i →
      leadingEquals ((lines ++ [L]).getD i []) = true → Begun i p := by
    intro i hi hstarts hleading
    rw [List.getD_append _ _ _ _ hi] at hleading
    exact hp.begun i hi ((startsAt_append hi.le [L]).mp hstarts) hleading
  have hhere : StartsAt (lines ++ [L]) lines.length → p.state = .preKey := by
    rintro ⟨p', hp', hstate⟩
    rw [List.take_left, hp.reads] at hp'
    cases hp'
    exact hstate
  -- the name of what the line adds or leaves open, and where it starts
  have hafter : (q.out = p.out ∧ q.state = .preKey ∧ p.state = .preKey ∧ leadingEquals L = false) ∨
      ∃ k first, After k p.out q ∧
        keyOnLine ((lines ++ [L]).getD first []) = some k ∧ first ≤ lines.length ∧
        StartsAt (lines ++ [L]) first ∧ (∀ a ∈ p.out, a.last < first) ∧
        (Reading p → p.first = first) ∧ (¬ Reading p → p.line = first) ∧
        (p.state = .preKey → first = lines.length) := by
    rcases hp.between with hstate | ⟨k, hnamed, hfirst, hlast, hstarts, hkey⟩
    · rcases readLine_key hL hstate hp.text h with ⟨hout, hblank, hleading⟩ | ⟨k, hkey, hafter⟩
      · exact .inl ⟨hout, hblank, hstate, hleading⟩
      · have hstarts : StartsAt (lines ++ [L]) lines.length := ⟨p, by rw [List.take_left, hp.reads], hstate⟩
        exact .inr ⟨k, lines.length, hafter, by simpa using hkey, le_rfl, hstarts,
          fun a ha => (hp.placed a ha).within, fun hr => absurd hstate hr.1, fun _ => hp.line,
          fun _ => rfl⟩
    · refine .inr ⟨k, p.first, readLine_value_name hL hnamed h, ?_, hfirst.le,
        (startsAt_append hfirst.le [L]).mpr hstarts, hlast, fun _ => rfl,
        fun hr => absurd hnamed.reading hr, fun hstate => absurd hstate hnamed.reading.1⟩
      rwa [List.getD_append _ _ _ _ hfirst]
  rcases hafter with ⟨hout, hstate, hpstate, hleading⟩ |
      ⟨k, first, hafter, hkey, hfirst, hstarts, hlast, hopen, hnew, hpfirst⟩
  · refine ⟨hreads, hlen, htext, by rwa [hout], by rw [hout]; exact hp.sorted, .inl hstate, ?_⟩
    intro i hi hstarts hi'
    rw [List.length_append, List.length_singleton] at hi
    rcases Nat.lt_succ_iff_lt_or_eq.mp hi with hi | rfl
    · rcases hbefore i hi hstarts hi' with hout' | ⟨hcalm, -⟩
      · exact .inl (by rwa [hout])
      · exact absurd (.inl hpstate) hcalm
    · simp [hleading] at hi'
  · -- what has started goes on
    have hbegun : ∀ i < (lines ++ [L]).length, StartsAt (lines ++ [L]) i →
        leadingEquals ((lines ++ [L]).getD i []) = true → (∃ a ∈ p.out, a.first = i) ∨ i = first := by
      intro i hi hstarts' hleading
      rw [List.length_append, List.length_singleton] at hi
      rcases Nat.lt_succ_iff_lt_or_eq.mp hi with hi | rfl
      · rcases hbefore i hi hstarts' hleading with hout' | ⟨hcalm, hfirst'⟩
        · exact .inl hout'
        · exact .inr (hfirst'.symm.trans (hopen (Named.reading (k := p.name) ⟨hcalm, rfl⟩)))
      · exact .inr (hpfirst (hhere hstarts')).symm
    rcases hafter.first hends hopen hnew with ⟨hout, hnamed, hq⟩ | ⟨a, hout, ha, hafirst, halast, hstate⟩
    · refine ⟨hreads, hlen, htext, by rwa [hout], by rw [hout]; exact hp.sorted,
        .inr ⟨k, hnamed, ?_, ?_, ?_, ?_⟩, fun i hi hi' hi'' => ?_⟩
      · rw [hq, List.length_append, List.length_singleton]
        omega
      · rw [hq, hout]
        exact hlast
      · rwa [hq]
      · rwa [hq]
      · rcases hbegun i hi hi' hi'' with hmem | rfl
        · exact .inl (by rwa [hout])
        · exact .inr ⟨hnamed.1, hq⟩
    · have hpa : PlacedOn (lines ++ [L]) a := by
        refine ⟨?_, ?_, by rwa [hafirst], ?_⟩
        · rw [hafirst, halast, hp.line]
          exact hfirst
        · rw [halast, hp.line]
          simp
        · rw [hafirst, ha]
          exact hkey
      refine ⟨hreads, hlen, htext, ?_, ?_, .inl hstate, fun i hi hi' hi'' => ?_⟩
      · rw [hout]
        intro b hb
        rcases List.mem_append.mp hb with hb | hb
        · exact hplaced b hb
        · rwa [List.mem_singleton.mp hb]
      · rw [hout]
        exact pairwise_snoc hp.sorted (by rwa [hafirst])
      · left
        rw [hout]
        rcases hbegun i hi hi' hi'' with ⟨b, hb, hbi⟩ | rfl
        · exact ⟨b, List.mem_append_left _ hb, hbi⟩
        · exact ⟨a, by simp, hafirst⟩

theorem Positions.readLines {more : List GoString} (hmore : ∀ L ∈ more, IsLine L) :
    ∀ {lines : List GoString} {p q : EnvParser}, Positions lines p → readLines p more = .ok q →
      Positions (lines ++ more) q := by
  induction more with
  | nil =>
    intro lines p q hp h
    cases h
    simpa using hp
  | cons L more ih =>
    intro lines p q hp h
    rw [readLines_cons] at h
    obtain ⟨r, hr, hq⟩ := bind_eq_ok h
    have hrest := ih (fun M hM => hmore M (List.mem_cons_of_mem L hM))
      (hp.readLine (hmore L List.mem_cons_self) hr) hq
    simpa using hrest

/-- The assignment that the end of the file ends has the name that was read. -/
theorem finish_name {p : EnvParser} {all : List EnvAssignment} (h : p.finish = .ok all) :
    all = p.out ∧ Calm p ∨
      ¬ Calm p ∧ ∃ value, all = p.out ++ [⟨p.name, value, p.first, p.line, p.startsContinued⟩] := by
  have hpush {p : EnvParser} (h : p.push.map EnvParser.out = .ok all) :
      all = p.out ++ [⟨p.name, p.value, p.first, p.line, p.startsContinued⟩] := by
    cases hq : p.push with
    | error e => rw [hq] at h; cases h
    | ok q =>
      rw [hq] at h
      cases h
      exact push_name hq
  unfold finish at h
  cases hs : p.state
  all_goals simp only [hs] at h
  case preKey | inKey | comment | commentEscape =>
    cases h
    exact .inl ⟨rfl, by simp [Calm, hs]⟩
  all_goals
    have hall := hpush h
    exact .inr ⟨by simp [Calm, hs], _, hall⟩

/-- The assignments of the lines, each where it starts, and none left out whose line has an equals
sign first. -/
structure Placed (lines : List GoString) (all : List EnvAssignment) : Prop where
  placed : ∀ a ∈ all, PlacedOn lines a
  sorted : all.Pairwise fun a b => a.last < b.first
  begun : ∀ i < lines.length, StartsAt lines i → leadingEquals (lines.getD i []) = true →
    ∃ a ∈ all, a.first = i

theorem Positions.finish {lines : List GoString} {p r : EnvParser} {last : GoString}
    {all : List EnvAssignment} (hp : Positions lines p) (hlast : ∀ c ∈ last, c ∉ envNewline)
    (hr : last.foldlM read p = .ok r) (hall : r.finish = .ok all) : Placed (lines ++ [last]) all := by
  obtain ⟨_, hr', hwithin, htext⟩ := fold_within last hlast p
  rw [hr] at hr'
  cases hr'
  rw [hp.text, List.nil_append] at htext
  have hread : p.state = .preKey → KeyRead r := fun hstate =>
    fold_keyRead hlast (by simp [KeyRead, hstate, hp.text]) hr
  have hplaced : ∀ a ∈ r.out, PlacedOn (lines ++ [last]) a := by
    rw [hwithin.out]
    exact fun a ha => (hp.placed a ha).append [last]
  have hsorted : r.out.Pairwise fun a b => a.last < b.first := by
    rw [hwithin.out]
    exact hp.sorted
  have hbegun : ∀ i < (lines ++ [last]).length, StartsAt (lines ++ [last]) i →
      leadingEquals ((lines ++ [last]).getD i []) = true → Begun i r := by
    intro i hi hstarts hleading
    rw [List.length_append, List.length_singleton] at hi
    rcases Nat.lt_succ_iff_lt_or_eq.mp hi with hi | rfl
    · rw [List.getD_append _ _ _ _ hi] at hleading
      rcases hp.begun i hi ((startsAt_append hi.le [last]).mp hstarts) hleading with hout | ⟨hcalm, hfirst⟩
      · exact .inl (by rwa [hwithin.out])
      · have hnamed : Named p.name p := ⟨hcalm, rfl⟩
        refine .inr ⟨(fold_value_name hlast hnamed hr).2.1, ?_⟩
        rw [(hwithin.reading hnamed.reading).2.1, hfirst]
    · obtain ⟨p', hp', hstate⟩ := hstarts
      rw [List.take_left, hp.reads] at hp'
      cases hp'
      have hcalm : ¬ Calm r := fun hcalm => by
        have hnone := calm_of_keyRead (hread hstate) hcalm
        rw [htext] at hnone
        simp [hnone] at hleading
      have hreading : Reading r := Named.reading (k := r.name) ⟨hcalm, rfl⟩
      exact .inr ⟨hcalm, (hwithin.started (fun h => h.1 hstate) hreading).1.trans hp.line⟩
  rcases finish_name hall with ⟨rfl, hcalm⟩ | ⟨hcalm, value, rfl⟩
  · refine ⟨hplaced, hsorted, fun i hi hstarts hleading => ?_⟩
    exact (hbegun i hi hstarts hleading).resolve_right fun h => h.1 hcalm
  · have hreading : Reading r := Named.reading (k := r.name) ⟨hcalm, rfl⟩
    obtain ⟨hfirst, hbefore, hstarts, hkey⟩ : r.first ≤ lines.length ∧
        (∀ a ∈ p.out, a.last < r.first) ∧ StartsAt (lines ++ [last]) r.first ∧
        keyOnLine ((lines ++ [last]).getD r.first []) = some r.name := by
      rcases hp.between with hstate | ⟨k, hnamed, hfirst, hbefore, hstarts, hkey⟩
      · have hclosed : ¬ Reading p := fun h => h.1 hstate
        have hrfirst : r.first = lines.length := (hwithin.started hclosed hreading).1.trans hp.line
        have hname := named_of_keyRead (hread hstate) hcalm
        rw [htext] at hname
        rw [hrfirst]
        exact ⟨le_rfl, fun a ha => (hp.placed a ha).within, ⟨p, by rw [List.take_left, hp.reads], hstate⟩,
          by simpa using hname⟩
      · have hrfirst : r.first = p.first := (hwithin.reading hnamed.reading).2.1
        rw [hrfirst, List.getD_append _ _ _ _ hfirst, (fold_value_name hlast hnamed hr).2.2]
        exact ⟨hfirst.le, hbefore, (startsAt_append hfirst.le [last]).mpr hstarts, hkey⟩
    have hrline : r.line = lines.length := hwithin.line.trans hp.line
    refine ⟨fun b hb => ?_, pairwise_snoc hsorted (by rwa [hwithin.out]),
      fun i hi hstarts hleading => ?_⟩
    · rcases List.mem_append.mp hb with hb | hb
      · exact hplaced b hb
      · rw [List.mem_singleton.mp hb]
        exact ⟨by rw [hrline]; exact hfirst, by simp [hrline], hstarts, hkey⟩
    · rcases hbegun i hi hstarts hleading with ⟨b, hb, hbi⟩ | ⟨-, hfirst'⟩
      · exact ⟨b, List.mem_append_left _ hb, hbi⟩
      · exact ⟨_, List.mem_append_right _ (List.mem_singleton_self _), hfirst'⟩

end EnvParser

/-- The assignments are where they are said to be. -/
theorem parseEnvFile_placed {content : GoString} {all : List EnvAssignment}
    (h : parseEnvFile content = .ok all) : Placed (split content 10) all := by
  obtain ⟨lines, last, rfl, hlines, hlast⟩ := exists_terminated content
  rw [split_terminated hlines hlast]
  obtain ⟨-, hline, hlast', q, r, hq, hr, hfinish⟩ := (parseEnvFile_terminated hlines hlast all).mp h
  have hpos := positions_start.readLines hline hq
  rw [List.nil_append] at hpos
  exact hpos.finish hlast' hr hfinish

/-! ## A line that is added -/

/-- A letter, a digit or an underscore. A letter outside ASCII has only bytes from 0x80 on. -/
def identByte (b : UInt8) : Bool :=
  (65 ≤ b && b ≤ 90) || (97 ≤ b && b ≤ 122) || isDigit b || b == 95 || 0x80 ≤ b

def identifier (s : GoString) : Bool := s != [] && s.all identByte && systemdValidUTF8 s

/-- No white space, quote, backslash or control byte. -/
def plainByte (b : UInt8) : Bool := 32 < b && b != 127 && b != 34 && b != 39 && b != 92

def plainValue (s : GoString) : Bool := s.all plainByte && systemdValidUTF8 s

/-- What the parser gives a meaning of its own. -/
def envSpecial : GoString := [0, 9, 10, 13, 32, 34, 35, 39, 59, 61, 92]

theorem identByte_not_special {b : UInt8} (h : identByte b = true) : b ∉ envSpecial := by
  intro hb
  have hnone : envSpecial.all (fun c => !identByte c) = true := by decide
  have hnot := List.all_eq_true.mp hnone b hb
  rw [h] at hnot
  exact absurd hnot (by decide)

theorem plainByte_not_special {b : UInt8} (h : plainByte b = true) :
    b ∉ envSpecial.filter fun c => c ∉ lit "#;=" := by
  intro hb
  have hnone : (envSpecial.filter fun c => c ∉ lit "#;=").all (fun c => !plainByte c) = true := by
    decide
  have hnot := List.all_eq_true.mp hnone b hb
  rw [h] at hnot
  exact absurd hnot (by decide)

theorem identByte_spec {b : UInt8} (h : identByte b = true) :
    b ∉ envWhitespace ∧ b ∉ envComments ∧ b ≠ 61 ∧ b ∉ envNewline ∧ b ≠ 0 := by
  have hb := identByte_not_special h
  simp only [envSpecial, List.mem_cons, List.not_mem_nil, or_false, not_or] at hb
  have hcomments : envComments = [35, 59] := by decide
  simp only [hcomments, envWhitespace, envNewline, List.mem_cons, List.not_mem_nil, or_false, not_or]
  tauto

theorem plainByte_spec {b : UInt8} (h : plainByte b = true) :
    b ∉ envWhitespace ∧ b ≠ 34 ∧ b ≠ 39 ∧ b ≠ 92 ∧ b ∉ envNewline ∧ b ≠ 0 := by
  have hb := plainByte_not_special h
  have hrest : (envSpecial.filter fun c => c ∉ lit "#;=") = [0, 9, 10, 13, 32, 34, 39, 92] := by decide
  rw [hrest] at hb
  simp only [List.mem_cons, List.not_mem_nil, or_false, not_or] at hb
  simp only [envWhitespace, envNewline, List.mem_cons, List.not_mem_nil, or_false, not_or]
  tauto

theorem identifier_spec {k : GoString} (hk : identifier k = true) :
    k ≠ [] ∧ (∀ b ∈ k, identByte b = true) ∧ systemdValidUTF8 k = true := by
  simp only [identifier, Bool.and_eq_true, bne_iff_ne, List.all_eq_true] at hk
  exact and_assoc.mp hk

theorem plainValue_spec {v : GoString} (hv : plainValue v = true) :
    (∀ b ∈ v, plainByte b = true) ∧ systemdValidUTF8 v = true := by
  simpa [plainValue] using hv

namespace EnvParser

theorem fold_plain {v : GoString} (hv : ∀ b ∈ v, plainByte b = true) (hne : v ≠ []) {p : EnvParser}
    (hp : p.state = .preValue) (hws : p.lastValueWS = none) (hvalue : p.value = []) :
    v.foldlM read p = .ok { p with state := .inValue, value := v, text := p.text ++ v } := by
  obtain ⟨c, t, rfl⟩ := List.exists_cons_of_ne_nil hne
  obtain ⟨hblank, h34, h39, h92, hnl, -⟩ := plainByte_spec (hv c List.mem_cons_self)
  have h10 : c ≠ 10 := fun h => hnl (by simp [envNewline, h])
  have hnext : p.next c = .ok { p with state := .inValue, value := [c] } := by
    simp [EnvParser.next, hp, hnl, h34, h39, h92, hblank, hvalue]
  rw [List.foldlM_cons, read_inline h10 hnext, ok_bind]
  by_cases hnil : t = []
  · subst hnil
    rfl
  · have hsolid : ∀ d ∈ t, d ∉ envWhitespace ∧ d ≠ 92 := fun d hd => by
      obtain ⟨hd₁, -, -, hd₂, -⟩ := plainByte_spec (hv d (List.mem_cons_of_mem c hd))
      exact ⟨hd₁, hd₂⟩
    rw [fold_inValue_solid hsolid hnil rfl]
    simp [hws]

theorem fold_assignment {k v : GoString} (hk : identifier k = true) (hv : plainValue v = true)
    {p : EnvParser} (hp : p.state = .preKey) (ht : Tidy p) :
    ∃ q, (k ++ 61 :: v).foldlM read p = .ok q ∧ (q.state = .preValue ∨ q.state = .inValue) ∧
      q.lastKeyWS = none ∧ q.lastValueWS = none ∧ q.key = k ∧ q.value = v ∧ q.out = p.out ∧
      q.first = p.line ∧ q.line = p.line ∧ q.startsContinued = p.continuedComment := by
  obtain ⟨hne, hident, -⟩ := identifier_spec hk
  obtain ⟨hplain, -⟩ := plainValue_spec hv
  obtain ⟨c, s, rfl⟩ := List.exists_cons_of_ne_nil hne
  obtain ⟨hws, hcomment, -⟩ := identByte_spec (hident c List.mem_cons_self)
  have hs : ∀ b ∈ s, b ∉ envWhitespace ∧ b ≠ 61 := fun b hb => by
    obtain ⟨hb₁, -, hb₂, -⟩ := identByte_spec (hident b (List.mem_cons_of_mem c hb))
    exact ⟨hb₁, hb₂⟩
  have hvalue : p.value = [] := ht (.inl hp)
  have hline : c :: s ++ 61 :: v = (c :: s ++ [61]) ++ v := by simp
  rw [hline, List.foldlM_append, fold_name ⟨hws, hcomment⟩ hs hp, ok_bind]
  by_cases hnil : v = []
  · subst hnil
    exact ⟨_, rfl, .inl rfl, rfl, rfl, rfl, hvalue, rfl, rfl, rfl, rfl⟩
  · rw [fold_plain hplain hnil (by rfl) (by rfl) (by exact hvalue)]
    exact ⟨_, rfl, .inr rfl, rfl, rfl, rfl, rfl, rfl, rfl, rfl, rfl⟩

theorem readLine_assignment {k v : GoString} (hk : identifier k = true) (hv : plainValue v = true)
    {p : EnvParser} (hp : p.state = .preKey) (ht : Tidy p) :
    (∃ q, readLine p (k ++ 61 :: v) = .ok q ∧
      q.finish = .ok (p.out ++ [⟨k, v, p.line, p.line, p.continuedComment⟩])) ∧
    ∃ q, (k ++ 61 :: v).foldlM read p = .ok q ∧
      q.finish = .ok (p.out ++ [⟨k, v, p.line, p.line, p.continuedComment⟩]) := by
  obtain ⟨q, hq, hstate, hkeyWS, hvalueWS, hqk, hqv, hout, hfirst, hqline, hcontinued⟩ :=
    fold_assignment hk hv hp ht
  have hkey : systemdValidUTF8 q.key = true := hqk ▸ (identifier_spec hk).2.2
  have hvalue : systemdValidUTF8 q.value = true := hqv ▸ (plainValue_spec hv).2
  rw [readLine, List.foldlM_append, hq, ok_bind, ← hqk, ← hqv, ← hout, ← hcontinued]
  constructor
  · rcases hstate with hstate | hstate <;>
      simp [EnvParser.read, EnvParser.next, push, finish, envNewline, hstate, hkeyWS, hvalueWS, hkey,
        hvalue, hfirst, hqline]
  · refine ⟨q, rfl, ?_⟩
    rcases hstate with hstate | hstate <;>
      simp [finish, push, hstate, hkeyWS, hvalueWS, hkey, hvalue, hfirst, hqline, Except.map]

end EnvParser

theorem isLine_assignment {k v : GoString} (hk : identifier k = true) (hv : plainValue v = true) :
    (∀ b ∈ k ++ 61 :: v, b ∉ envNewline) ∧ 0 ∉ k ++ 61 :: v := by
  have hbyte : ∀ b ∈ k ++ 61 :: v, b ∉ envNewline ∧ b ≠ 0 := by
    intro b hb
    simp only [List.mem_append, List.mem_cons] at hb
    rcases hb with hb | rfl | hb
    · exact (identByte_spec ((identifier_spec hk).2.1 b hb)).2.2.2
    · decide
    · exact (plainByte_spec ((plainValue_spec hv).1 b hb)).2.2.2.2
  exact ⟨fun b hb => (hbyte b hb).1, fun h => (hbyte 0 h).2 rfl⟩

def completed (content : GoString) : GoString :=
  if hasSuffix content [10] then content else content ++ [10]

/-- The lines of the completed content; the empty content gets one. -/
theorem exists_completed {content : GoString} {all : List EnvAssignment}
    (hparse : parseEnvFile content = .ok all) (hopen : openAtEnd content = false) :
    ∃ lines r, completed content = terminated lines ∧ (∀ L ∈ lines, 10 ∉ L) ∧
      0 ∉ terminated lines ∧ (∀ L ∈ lines, IsLine L) ∧ readLines start lines = .ok r ∧
      r.state = .preKey ∧ r.out = all := by
  by_cases hnil : content = []
  · subst hnil
    cases hparse
    refine ⟨[[]], _, rfl, by simp, by decide, ?_, rfl, rfl, rfl⟩
    intro L hL
    rw [List.mem_singleton.mp hL]
    exact ⟨[], [], rfl, by simp, .inl rfl⟩
  · obtain ⟨hnul, hline, r, hr, hfinish, hstate⟩ := parseEnvFile_lines hparse (.inr hopen)
    have hout : r.out = all := by
      rw [finish_preKey (hstate hopen)] at hfinish
      exact Except.ok.inj hfinish
    refine ⟨contentLines content, r, ?_, contentLines_feed content, hnul, hline, hr, hstate hopen, hout⟩
    rw [terminated_contentLines, completed]
    cases hasSuffix content [10] <;> simp [hnil]

theorem parseEnvFile_added {content k v eol : GoString} {all : List EnvAssignment}
    (hparse : parseEnvFile content = .ok all) (hopen : openAtEnd content = false)
    (hk : identifier k = true) (hv : plainValue v = true) (heol : eol = [] ∨ eol = [10]) :
    ∃ a, parseEnvFile (completed content ++ (k ++ 61 :: v) ++ eol) = .ok (all ++ [a]) ∧
      a.key = k ∧ a.value = v := by
  obtain ⟨lines, r, hcompleted, hfeed, hnul, hline, hr, hstate, rfl⟩ := exists_completed hparse hopen
  obtain ⟨hnl, hzero⟩ := isLine_assignment hk hv
  have hno : (10 : UInt8) ∉ k ++ 61 :: v := fun h => hnl 10 h (by decide)
  obtain ⟨⟨q, hq, hfinish⟩, q', hq', hfinish'⟩ :=
    readLine_assignment hk hv hstate (readLines_tidy lines tidy_start hr)
  refine ⟨⟨k, v, r.line, r.line, r.continuedComment⟩, ?_, rfl, rfl⟩
  rcases heol with rfl | rfl
  · rw [List.append_nil, hcompleted, parseEnvFile_terminated hfeed hno]
    refine ⟨?_, hline, hnl, r, q', hr, hq', hfinish'⟩
    rw [List.mem_append, not_or]
    exact ⟨hnul, hzero⟩
  · have htext : completed content ++ (k ++ 61 :: v) ++ [10] =
        terminated (lines ++ [k ++ 61 :: v]) ++ [] := by
      rw [hcompleted, terminated_append]
      simp
    have hall : ∀ L ∈ lines ++ [k ++ 61 :: v], 10 ∉ L ∧ IsLine L := by
      intro L hL
      rcases List.mem_append.mp hL with hL | hL
      · exact ⟨hfeed L hL, hline L hL⟩
      · rw [List.mem_singleton.mp hL]
        exact ⟨hno, _, [], by simp, hnl, .inl rfl⟩
    rw [htext, parseEnvFile_terminated (fun L hL => (hall L hL).1) (by simp)]
    refine ⟨?_, fun L hL => (hall L hL).2, by simp, q, q, ?_, rfl, hfinish⟩
    · rw [terminated_append]
      simp only [terminated_cons, terminated_nil, List.append_nil, List.mem_append, not_or]
      exact ⟨hnul, by simpa using hzero, by decide⟩
    · rw [readLines_append, hr, ok_bind]
      simpa [readLines] using hq

/-! ## The report -/

/-- The lines of the assignments follow one another, and the text before the equals sign on the
first of them is the variable's name. -/
def ReportsPositions (content : GoString) (all : List EnvAssignment) : Prop :=
  (∀ a ∈ all, a.first ≤ a.last ∧ a.last < (split content 10).length ∧
    beforeEquals ((split content 10).getD a.first []) = some a.key) ∧
  all.Pairwise fun a b => a.last < b.first

/-- A line with an assignment may be added at the end, ended or not. -/
def SafeToAppend (content : GoString) (all : List EnvAssignment) : Prop :=
  ∀ key value eol : GoString, identifier key = true → plainValue value = true →
    eol = [] ∨ eol = [10] →
    ∃ a, parseEnvFile (completed content ++ (key ++ 61 :: value) ++ eol) = .ok (all ++ [a]) ∧
      a.key = key ∧ a.value = value

/-- The report is right exactly if no assignment starts with an equals sign. The parser takes such a
sign into the name, although the name is said to be what stands before the first one. -/
theorem parseEnvFile_reports_iff {content : GoString} {all : List EnvAssignment}
    (hparse : parseEnvFile content = .ok all) :
    ReportsPositions content all ∧ (openAtEnd content = false → SafeToAppend content all) ↔
      ∀ i < (split content 10).length, StartsAt (split content 10) i →
        leadingEquals ((split content 10).getD i []) = false := by
  have hplaced := parseEnvFile_placed hparse
  have hadded : openAtEnd content = false → SafeToAppend content all :=
    fun hopen _ _ _ hk hv heol => parseEnvFile_added hparse hopen hk hv heol
  constructor
  · rintro ⟨⟨hkeys, -⟩, -⟩ i hi hstarts
    by_contra hleading
    rw [Bool.not_eq_false] at hleading
    obtain ⟨a, ha, rfl⟩ := hplaced.begun i hi hstarts hleading
    have hnone := (beforeEquals_iff (hplaced.placed a ha).key).mp (hkeys a ha).2.2
    rw [hleading] at hnone
    cases hnone
  · intro hnone
    refine ⟨⟨fun a ha => ?_, hplaced.sorted⟩, hadded⟩
    obtain ⟨hle, hlast, hstarts, hkey⟩ := hplaced.placed a ha
    exact ⟨hle, hlast, (beforeEquals_iff hkey).mpr (hnone a.first (by omega) hstarts)⟩

/-- A comment, a plain assignment, and one whose quoted value goes over two lines. -/
def sampleFile : GoString := lit "# c\nNAME = v\nARGS=\"a\nb\"\n"

def sampleAssignments : List EnvAssignment :=
  [⟨lit "NAME", lit "v", 1, 1, false⟩, ⟨lit "ARGS", lit "a\nb", 2, 3, false⟩]

theorem parseEnvFile_reports_iff_plain : parseEnvFile sampleFile = .ok sampleAssignments ∧
    openAtEnd sampleFile = false ∧ ReportsPositions sampleFile sampleAssignments ∧
    SafeToAppend sampleFile sampleAssignments := by
  have hparse : parseEnvFile sampleFile = .ok sampleAssignments := by decide +kernel
  have hopen : openAtEnd sampleFile = false := by decide +kernel
  -- no line starts with an equals sign
  have hlines : ∀ i < (split sampleFile 10).length,
      leadingEquals ((split sampleFile 10).getD i []) = false := by decide +kernel
  obtain ⟨hpositions, hsafe⟩ := (parseEnvFile_reports_iff hparse).mpr fun i hi _ => hlines i hi
  exact ⟨hparse, hopen, hpositions, hsafe hopen⟩

/-- `=a=b` sets a variable `=a`, and nothing stands before the first equals sign. -/
theorem leading_equals_is_reported :
    parseEnvFile (lit "=a=b") = .ok [⟨lit "=a", lit "b", 0, 0, false⟩] ∧
      ¬ ReportsPositions (lit "=a=b") [⟨lit "=a", lit "b", 0, 0, false⟩] := by
  refine ⟨by decide +kernel, fun h => ?_⟩
  have hkey := (h.1 _ List.mem_cons_self).2.2
  exact absurd hkey (by decide +kernel)

end HarborBridge.Installer
