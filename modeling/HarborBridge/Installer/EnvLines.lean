import HarborBridge.Installer.EnvFile

/-!
# An environment file, line by line

`parseEnvFile` reads bytes. Here is what a whole line does to it: it ends at most one
assignment, and what it ends depends on the lines before only through an assignment left
open. So a line that is an assignment of its own can be replaced, dropped or appended
without changing what the other lines mean.
-/

namespace HarborBridge.Installer

open GoStrings

theorem bind_eq_ok {ε α β : Type} {x : Except ε α} {f : α → Except ε β} {b : β}
    (h : (x >>= f) = .ok b) : ∃ a, x = .ok a ∧ f a = .ok b := by
  cases x with
  | error e => cases h
  | ok a => exact ⟨a, rfl, h⟩

@[simp] theorem ok_bind {ε α β : Type} (a : α) (f : α → Except ε β) :
    (Except.ok a >>= f) = f a := rfl

namespace EnvParser

def Reading (p : EnvParser) : Prop :=
  p.state ≠ .preKey ∧ p.state ≠ .comment ∧ p.state ≠ .commentEscape

instance (p : EnvParser) : Decidable (Reading p) := inferInstanceAs (Decidable (_ ∧ _))

/-! ## One byte -/

/-- What the bytes of a line leave as it is, and where an assignment they start begins. -/
structure Within (p q : EnvParser) : Prop where
  out : q.out = p.out
  line : q.line = p.line
  continuedComment : q.continuedComment = p.continuedComment
  reading : Reading p → Reading q ∧ q.first = p.first ∧ q.startsContinued = p.startsContinued
  started : ¬ Reading p → Reading q → q.first = p.line ∧ q.startsContinued = p.continuedComment

theorem Within.refl (p : EnvParser) : Within p p :=
  ⟨rfl, rfl, rfl, fun h => ⟨h, rfl, rfl⟩, fun h h' => absurd h' h⟩

theorem Within.trans {p q r : EnvParser} (h : Within p q) (h' : Within q r) : Within p r where
  out := h'.out.trans h.out
  line := h'.line.trans h.line
  continuedComment := h'.continuedComment.trans h.continuedComment
  reading hp := by
    obtain ⟨hq, hfirst, hstarts⟩ := h.reading hp
    obtain ⟨hr, hfirst', hstarts'⟩ := h'.reading hq
    exact ⟨hr, hfirst'.trans hfirst, hstarts'.trans hstarts⟩
  started hp hr := by
    by_cases hq : Reading q
    · obtain ⟨-, hfirst, hstarts⟩ := h'.reading hq
      obtain ⟨hfirst', hstarts'⟩ := h.started hp hq
      exact ⟨hfirst.trans hfirst', hstarts.trans hstarts'⟩
    · obtain ⟨hfirst, hstarts⟩ := h'.started hq hr
      exact ⟨hfirst.trans h.line, hstarts.trans h.continuedComment⟩

theorem read_within (p : EnvParser) {c : UInt8} (hc : c ∉ envNewline) :
    ∃ q, p.read c = .ok q ∧ Within p q ∧ q.text = p.text ++ [c] := by
  have hne : c ≠ 10 := fun h => hc (h ▸ List.mem_cons_self)
  have hnext : ∃ q, p.next c = .ok q ∧ Within p q := by
    unfold next
    simp only [hc, decide_false, Bool.false_eq_true, if_false]
    split
    all_goals rename_i hstate
    all_goals try split_ifs
    all_goals refine ⟨_, rfl, ?_⟩
    all_goals constructor
    all_goals simp [Reading, hstate]
  obtain ⟨q, hq, hwithin⟩ := hnext
  refine ⟨{ q with text := p.text ++ [c] }, ?_, ⟨hwithin.out, hwithin.line, hwithin.continuedComment,
    hwithin.reading, hwithin.started⟩, rfl⟩
  simp [read, hq, hne, bind, Except.bind]

/-- What the end of a line does, by either of its two bytes: nothing is read, an assignment
ends, or it goes on. -/
inductive Ends (p q : EnvParser) : Prop
  | blank (hstate : q.state = .preKey) (hout : q.out = p.out)
  | ended (hstate : q.state = .preKey) (hp : Reading p) (key value : GoString)
      (hout : q.out = p.out ++ [⟨key, value, p.first, p.line, p.startsContinued⟩])
  | goesOn (hp : Reading p) (hq : Reading q) (hout : q.out = p.out) (hfirst : q.first = p.first)
      (hstarts : q.startsContinued = p.startsContinued)

theorem push_eq_ok {p q : EnvParser} (h : p.push = .ok q) :
    ∃ key, q.out = p.out ++ [⟨key, p.value, p.first, p.line, p.startsContinued⟩] ∧
      q.state = p.state ∧ q.line = p.line ∧ q.value = [] := by
  simp only [push] at h
  split_ifs at h
  cases h
  exact ⟨_, rfl, rfl, rfl, rfl⟩

theorem next_newline {p q : EnvParser} {c : UInt8} (hc : c ∈ envNewline) (h : p.next c = .ok q) :
    Ends p q ∧ q.line = p.line := by
  have h61 : c ≠ 61 ∧ c ≠ 39 ∧ c ≠ 34 ∧ c ≠ 92 ∧ c ∉ envComments ∧ c ∈ envWhitespace ∧
      c ∉ envShellNeedEscape := by
    simp only [envNewline, List.mem_cons, List.not_mem_nil, or_false] at hc
    rcases hc with rfl | rfl <;> decide
  obtain ⟨h61, h39, h34, h92, hcomment, hws, hescape⟩ := h61
  unfold next at h
  simp only [hc, hws, hcomment, hescape, h61, h39, h34, h92, decide_true, Bool.not_true, if_true,
    if_false, Bool.false_eq_true] at h
  split at h
  case h_1 hstate =>
    cases h
    exact ⟨.blank hstate rfl, rfl⟩
  case h_2 hstate =>
    cases h
    exact ⟨.blank rfl rfl, rfl⟩
  case h_3 hstate =>
    obtain ⟨key, hout, hstate', hline, -⟩ := push_eq_ok h
    exact ⟨.ended hstate' (by simp [Reading, hstate]) key _ hout, hline⟩
  case h_4 hstate =>
    obtain ⟨key, hout, hstate', hline, -⟩ := push_eq_ok h
    exact ⟨.ended hstate' (by simp [Reading, hstate]) key _ hout, hline⟩
  case h_9 hstate =>
    cases h
    exact ⟨.blank rfl rfl, rfl⟩
  case h_10 hstate =>
    cases h
    exact ⟨.blank rfl rfl, rfl⟩
  all_goals
    rename_i hstate
    cases h
    exact ⟨.goesOn (by simp [Reading, hstate]) (by simp [Reading, hstate]) rfl rfl rfl, rfl⟩

/-! ## One line -/

/-- A line of a file without stray carriage returns. -/
def IsLine (L : GoString) : Prop :=
  ∃ body cr, L = body ++ cr ∧ (∀ c ∈ body, c ∉ envNewline) ∧ (cr = [] ∨ cr = [13])

def readLine (p : EnvParser) (L : GoString) : Except EnvFileError EnvParser :=
  (L ++ [10]).foldlM read p

theorem fold_within (body : GoString) (hbody : ∀ c ∈ body, c ∉ envNewline) (p : EnvParser) :
    ∃ q, body.foldlM read p = .ok q ∧ Within p q ∧ q.text = p.text ++ body := by
  induction body generalizing p with
  | nil => exact ⟨p, rfl, .refl p, by simp⟩
  | cons c body ih =>
    obtain ⟨r, hr, hwithin, htext⟩ := read_within p (hbody c List.mem_cons_self)
    obtain ⟨q, hq, hwithin', htext'⟩ := ih (fun b hb => hbody b (List.mem_cons_of_mem c hb)) r
    refine ⟨q, ?_, hwithin.trans hwithin', ?_⟩
    · rw [List.foldlM_cons, hr]
      exact hq
    · rw [htext', htext, List.append_assoc]
      rfl

/-- What a line does: nothing, it ends the assignment that was open or that it starts, or
leaves it open. -/
inductive LineEnds (p q : EnvParser) : Prop
  | blank (hstate : q.state = .preKey) (hout : q.out = p.out)
  | ended (hstate : q.state = .preKey) (a : EnvAssignment) (hout : q.out = p.out ++ [a])
      (hlast : a.last = p.line)
      (hopen : Reading p → a.first = p.first ∧ a.afterContinuedComment = p.startsContinued)
      (hnew : ¬ Reading p → a.first = p.line ∧ a.afterContinuedComment = p.continuedComment)
  | goesOn (hq : Reading q) (hout : q.out = p.out)
      (hopen : Reading p → q.first = p.first ∧ q.startsContinued = p.startsContinued)
      (hnew : ¬ Reading p → q.first = p.line ∧ q.startsContinued = p.continuedComment)

theorem LineEnds.of_within {p q r : EnvParser} (h : Within p q) (h' : Ends q r) : LineEnds p r := by
  cases h' with
  | blank hstate hout => exact .blank hstate (hout.trans h.out)
  | ended hstate hq key value hout =>
    refine .ended hstate _ (hout.trans (by rw [h.out])) h.line (fun hp => ?_) (fun hp => ?_)
    · exact (h.reading hp).2
    · exact h.started hp hq
  | goesOn hq hr hout hfirst hstarts =>
    refine .goesOn hr (hout.trans h.out) (fun hp => ?_) (fun hp => ?_)
    · exact ⟨hfirst.trans (h.reading hp).2.1, hstarts.trans (h.reading hp).2.2⟩
    · exact ⟨hfirst.trans (h.started hp hq).1, hstarts.trans (h.started hp hq).2⟩

/-- After the first byte of a line's end the second one ends nothing more, or ends what the
first left open. -/
theorem LineEnds.trans {p q r : EnvParser} (h : LineEnds p q) (hline : q.line = p.line)
    (h' : Ends q r) : LineEnds p r := by
  cases h with
  | blank hstate hout =>
    cases h' with
    | blank hstate' hout' => exact .blank hstate' (hout'.trans hout)
    | ended _ hq => exact absurd hstate hq.1
    | goesOn hq => exact absurd hstate hq.1
  | ended hstate a hout hlast hopen hnew =>
    cases h' with
    | blank hstate' hout' => exact .ended hstate' a (hout'.trans hout) hlast hopen hnew
    | ended _ hq => exact absurd hstate hq.1
    | goesOn hq => exact absurd hstate hq.1
  | goesOn hq hout hopen hnew =>
    cases h' with
    | blank hstate' hout' => exact .blank hstate' (hout'.trans hout)
    | ended hstate' hq' key value hout' =>
      exact .ended hstate' _ (hout'.trans (by rw [hout])) hline hopen hnew
    | goesOn _ hr hout' hfirst hstarts =>
      refine .goesOn hr (hout'.trans hout) (fun hp => ?_) (fun hp => ?_)
      · exact ⟨hfirst.trans (hopen hp).1, hstarts.trans (hopen hp).2⟩
      · exact ⟨hfirst.trans (hnew hp).1, hstarts.trans (hnew hp).2⟩

theorem read_eq_ok {p q : EnvParser} {c : UInt8} (h : p.read c = .ok q) :
    ∃ r, p.next c = .ok r ∧ q.out = r.out ∧ q.state = r.state ∧ q.key = r.key ∧ q.value = r.value ∧
      q.lastKeyWS = r.lastKeyWS ∧ q.lastValueWS = r.lastValueWS ∧ q.first = r.first ∧
      q.startsContinued = r.startsContinued ∧
      (c = 10 → q.line = r.line + 1 ∧ q.text = []) ∧
      (c ≠ 10 → q.line = r.line ∧ q.continuedComment = r.continuedComment ∧
        q.text = p.text ++ [c]) := by
  obtain ⟨r, hr, hq⟩ := bind_eq_ok h
  split_ifs at hq with hc
  · cases hq
    exact ⟨r, hr, rfl, rfl, rfl, rfl, rfl, rfl, rfl, rfl, fun _ => ⟨rfl, rfl⟩, fun hne => absurd hc hne⟩
  · cases hq
    exact ⟨r, hr, rfl, rfl, rfl, rfl, rfl, rfl, rfl, rfl, fun heq => absurd heq hc,
      fun _ => ⟨rfl, rfl, rfl⟩⟩

theorem Ends.congr {p r q : EnvParser} (h : Ends p r) (hout : q.out = r.out)
    (hstate : q.state = r.state) (hfirst : q.first = r.first)
    (hstarts : q.startsContinued = r.startsContinued) : Ends p q := by
  cases h with
  | blank hs ho => exact .blank (hstate.trans hs) (hout.trans ho)
  | ended hs hp key value ho => exact .ended (hstate.trans hs) hp key value (hout.trans ho)
  | goesOn hp hr ho hf hc =>
    refine .goesOn hp ?_ (hout.trans ho) (hfirst.trans hf) (hstarts.trans hc)
    unfold Reading
    rwa [hstate]

theorem read_newline {p q : EnvParser} {c : UInt8} (hc : c ∈ envNewline) (h : p.read c = .ok q) :
    Ends p q := by
  obtain ⟨r, hr, hout, hstate, -, -, -, -, hfirst, hstarts, -, -⟩ := read_eq_ok h
  exact (next_newline hc hr).1.congr hout hstate hfirst hstarts

theorem read_return {p q : EnvParser} (h : p.read 13 = .ok q) : q.line = p.line := by
  obtain ⟨r, hr, -, -, -, -, -, -, -, -, -, hline⟩ := read_eq_ok h
  rw [(hline (by decide)).1]
  exact (next_newline (by decide) hr).2

theorem read_feed {p q : EnvParser} (h : p.read 10 = .ok q) : q.line = p.line + 1 ∧ q.text = [] := by
  obtain ⟨r, hr, -, -, -, -, -, -, -, -, hline, -⟩ := read_eq_ok h
  rw [← (next_newline (by decide) hr).2]
  exact hline rfl

theorem readLine_ends {p q : EnvParser} {L : GoString} (hL : IsLine L) (h : readLine p L = .ok q) :
    LineEnds p q ∧ q.line = p.line + 1 ∧ q.text = [] := by
  obtain ⟨body, cr, rfl, hbody, hcr⟩ := hL
  obtain ⟨r, hr, hwithin, -⟩ := fold_within body hbody p
  rw [readLine, List.append_assoc, List.foldlM_append, hr] at h
  rcases hcr with rfl | rfl
  · have hread : r.read 10 = .ok q := by simpa using h
    obtain ⟨hline, htext⟩ := read_feed hread
    rw [hwithin.line] at hline
    exact ⟨.of_within hwithin (read_newline (by decide) hread), hline, htext⟩
  · obtain ⟨u, hu, hread⟩ : ∃ u, r.read 13 = .ok u ∧ u.read 10 = .ok q := by
      have h' : (r.read 13 >>= fun u => u.read 10) = .ok q := by simpa using h
      exact bind_eq_ok h'
    obtain ⟨hline, htext⟩ := read_feed hread
    have hline' : u.line = p.line := (read_return hu).trans hwithin.line
    rw [hline'] at hline
    have hends := LineEnds.of_within hwithin (read_newline (by decide) hu)
    exact ⟨hends.trans hline' (read_newline (by decide) hread), hline, htext⟩

/-! ## The lines before and after an assignment -/

def readLines (p : EnvParser) (lines : List GoString) : Except EnvFileError EnvParser :=
  lines.foldlM readLine p

/-- At the start of a line: what ended did so on an earlier line, and what is open started on
one. -/
structure AtLine (p : EnvParser) : Prop where
  ended : ∀ a ∈ p.out, a.last < p.line
  started : Reading p → p.first < p.line
  closed : ¬ Reading p → p.state = .preKey

theorem atLine_start : AtLine start :=
  ⟨by simp [start], fun h => absurd rfl h.1, fun _ => rfl⟩

theorem AtLine.readLine {p q : EnvParser} {L : GoString} (hp : AtLine p) (hL : IsLine L)
    (h : readLine p L = .ok q) : AtLine q := by
  obtain ⟨hends, hline, -⟩ := readLine_ends hL h
  have hout : ∀ a ∈ p.out, a.last < q.line := fun a ha => by
    have := hp.ended a ha
    omega
  cases hends with
  | blank hstate hq =>
    exact ⟨by rwa [hq], fun hr => absurd hstate hr.1, fun _ => hstate⟩
  | ended hstate a hq hlast hopen hnew =>
    refine ⟨?_, fun hr => absurd hstate hr.1, fun _ => hstate⟩
    intro b hb
    rw [hq, List.mem_append, List.mem_singleton] at hb
    rcases hb with hb | rfl
    · exact hout b hb
    · omega
  | goesOn hr hq hopen hnew =>
    refine ⟨by rwa [hq], fun _ => ?_, fun hn => absurd hr hn⟩
    by_cases hp' : Reading p
    · have := hp.started hp'
      have := (hopen hp').1
      omega
    · have := (hnew hp').1
      omega

theorem readLines_append (p : EnvParser) (before after : List GoString) :
    readLines p (before ++ after) = readLines p before >>= fun q => readLines q after :=
  List.foldlM_append

theorem readLines_cons (p : EnvParser) (L : GoString) (after : List GoString) :
    readLines p (L :: after) = readLine p L >>= fun q => readLines q after :=
  List.foldlM_cons

theorem readLines_out {lines : List GoString} (hlines : ∀ L ∈ lines, IsLine L) {p r : EnvParser}
    (hp : AtLine p) (h : readLines p lines = .ok r) :
    ∃ added, r.out = p.out ++ added ∧ (∀ a ∈ added, p.line ≤ a.last) ∧ AtLine r := by
  induction lines generalizing p with
  | nil =>
    cases h
    exact ⟨[], by simp, by simp, hp⟩
  | cons L lines ih =>
    rw [readLines_cons] at h
    obtain ⟨q, hq, hr⟩ := bind_eq_ok h
    have hL := hlines L List.mem_cons_self
    obtain ⟨added, hout, hlast, hr'⟩ := ih (fun M hM => hlines M (List.mem_cons_of_mem L hM))
      (hp.readLine hL hq) hr
    obtain ⟨hends, hline, -⟩ := readLine_ends hL hq
    have hlater : ∀ a ∈ added, p.line ≤ a.last := fun a ha => by
      have := hlast a ha
      omega
    cases hends with
    | blank _ hq' | goesOn _ hq' => exact ⟨added, by rw [hout, hq'], hlater, hr'⟩
    | ended _ a hq' hlast' =>
      refine ⟨a :: added, by rw [hout, hq', List.append_assoc]; rfl, ?_, hr'⟩
      intro b hb
      rcases List.mem_cons.mp hb with rfl | hb
      · exact hlast'.ge
      · exact hlater b hb

/-- An assignment that starts and ends on one line: the lines before it leave nothing open,
and the line is what it comes from. -/
theorem readLines_locate {lines : List GoString} (hlines : ∀ L ∈ lines, IsLine L)
    {p r : EnvParser} (hp : AtLine p) (h : readLines p lines = .ok r) {a : EnvAssignment}
    (ha : a ∈ r.out) (hone : a.first = a.last) (hle : p.line ≤ a.first) :
    ∃ before L after q q', lines = before ++ L :: after ∧ a.first = p.line + before.length ∧
      readLines p before = .ok q ∧ AtLine q ∧ q.state = .preKey ∧ q.line = a.first ∧
      q.continuedComment = a.afterContinuedComment ∧
      readLine q L = .ok q' ∧ q'.out = q.out ++ [a] ∧ q'.state = .preKey ∧
      readLines q' after = .ok r := by
  induction lines generalizing p with
  | nil =>
    cases h
    have := hp.ended a ha
    omega
  | cons L lines ih =>
    rw [readLines_cons] at h
    obtain ⟨q, hq, hr⟩ := bind_eq_ok h
    have hL := hlines L List.mem_cons_self
    have hlines' : ∀ M ∈ lines, IsLine M := fun M hM => hlines M (List.mem_cons_of_mem L hM)
    have hq' := hp.readLine hL hq
    obtain ⟨hends, hline, -⟩ := readLine_ends hL hq
    by_cases hlater : q.line ≤ a.first
    · obtain ⟨before, M, after, u, u', rfl, hfirst, hu, hrest⟩ := ih hlines' hq' hr hlater
      refine ⟨L :: before, M, after, u, u', rfl, ?_, ?_, hrest⟩
      · rw [hfirst, hline, List.length_cons]
        omega
      · rw [readLines_cons, hq]
        exact hu
    · -- it ended on this very line
      have hlast : a.last = p.line := by omega
      obtain ⟨added, hout, hadded, -⟩ := readLines_out hlines' hq' hr
      have hmem : a ∈ q.out := by
        rw [hout, List.mem_append] at ha
        refine ha.resolve_right fun hin => ?_
        have := hadded a hin
        omega
      have hnot : a ∉ p.out := fun hin => by
        have := hp.ended a hin
        omega
      cases hends with
      | blank _ hout' | goesOn _ hout' => exact absurd (hout' ▸ hmem) hnot
      | ended hstate b hout' hlast' hopen hnew =>
        rw [hout', List.mem_append, List.mem_singleton] at hmem
        have hab := hmem.resolve_left hnot
        subst hab
        have hclosed : ¬ Reading p := fun hreading => by
          have := hp.started hreading
          have := (hopen hreading).1
          omega
        exact ⟨[], L, lines, p, q, rfl, by simpa using (hnew hclosed).1, rfl, hp, hp.closed hclosed,
          (hnew hclosed).1.symm, (hnew hclosed).2.symm, hq, hout', hstate, hr⟩

/-! ## What is read does not depend on where -/

/-- Two parsers that read the same from here on: they agree on all that a byte is looked at
with, though not on positions. -/
structure Alike (p p' : EnvParser) : Prop where
  state : p'.state = p.state
  value : p'.value = p.value
  key : Reading p → p'.key = p.key ∧ p'.lastKeyWS = p.lastKeyWS
  trim : Reading p → p.state ≠ .inKey → p'.lastValueWS = p.lastValueWS

def kv (a : EnvAssignment) : GoString × GoString := (a.key, a.value)

def Adds (p q p' q' : EnvParser) : Prop :=
  ∃ added added', q.out = p.out ++ added ∧ q'.out = p'.out ++ added' ∧
    added'.map kv = added.map kv

theorem Adds.refl (p p' : EnvParser) : Adds p p p' p' := ⟨[], [], by simp, by simp, rfl⟩

theorem Adds.trans {p q r p' q' r' : EnvParser} (h : Adds p q p' q') (h' : Adds q r q' r') :
    Adds p r p' r' := by
  obtain ⟨a, a', ha, ha', hkv⟩ := h
  obtain ⟨b, b', hb, hb', hkv'⟩ := h'
  refine ⟨a ++ b, a' ++ b', ?_, ?_, ?_⟩
  · rw [hb, ha, List.append_assoc]
  · rw [hb', ha', List.append_assoc]
  · rw [List.map_append, List.map_append, hkv, hkv']

theorem push_alike {p p' q : EnvParser} (v : GoString) (trim : Option Nat) (hkey : p'.key = p.key)
    (hws : p'.lastKeyWS = p.lastKeyWS)
    (h : { p with state := .preKey, value := v }.push = .ok q) :
    ∃ q', { p' with state := .preKey, value := v, lastValueWS := trim }.push = .ok q' ∧
      Alike q q' ∧ Adds p q p' q' := by
  simp only [push] at h ⊢
  rw [hkey, hws]
  split_ifs at h with hvalid
  cases h
  rw [if_pos hvalid]
  exact ⟨_, rfl, ⟨rfl, rfl, fun hr => absurd rfl hr.1, fun hr => absurd rfl hr.1⟩, _, _, rfl, rfl, rfl⟩

theorem next_alike {p p' q : EnvParser} {c : UInt8} (hp : Alike p p') (h : p.next c = .ok q) :
    ∃ q', p'.next c = .ok q' ∧ Alike q q' ∧ Adds p q p' q' := by
  obtain ⟨hstate, hvalue, hkey, htrim⟩ := hp
  unfold next at h ⊢
  rw [hstate]
  cases hs : p.state
  all_goals simp only [hs] at h hstate ⊢
  case preValue =>
    obtain ⟨hk, hws⟩ := hkey (by simp [Reading, hs])
    have hlast := htrim (by simp [Reading, hs]) (by simp [hs])
    rw [hvalue]
    split_ifs at h ⊢
    · exact push_alike p.value p'.lastValueWS hk hws h
    all_goals
      cases h
      refine ⟨_, rfl, ⟨?_, ?_, ?_, ?_⟩, _, _, (List.append_nil _).symm, (List.append_nil _).symm, rfl⟩
      all_goals simp [hk, hws, hlast, hvalue, hstate, hs]
  case inValue =>
    obtain ⟨hk, hws⟩ := hkey (by simp [Reading, hs])
    have hlast := htrim (by simp [Reading, hs]) (by simp [hs])
    rw [hvalue, hlast]
    split_ifs at h ⊢
    · exact push_alike _ p.lastValueWS hk hws h
    all_goals
      cases h
      refine ⟨_, rfl, ⟨?_, ?_, ?_, ?_⟩, _, _, (List.append_nil _).symm, (List.append_nil _).symm, rfl⟩
      all_goals simp [hk, hws]
  case inKey =>
    obtain ⟨hk, hws⟩ := hkey (by simp [Reading, hs])
    rw [hk, hws]
    split_ifs at h ⊢
    all_goals
      cases h
      refine ⟨_, rfl, ⟨?_, ?_, ?_, ?_⟩, _, _, (List.append_nil _).symm, (List.append_nil _).symm, rfl⟩
      all_goals simp [Reading, hvalue]
  case preKey | comment | commentEscape =>
    split_ifs at h ⊢
    all_goals
      cases h
      refine ⟨_, rfl, ⟨?_, ?_, ?_, ?_⟩, _, _, (List.append_nil _).symm, (List.append_nil _).symm, rfl⟩
      all_goals simp [Reading, hvalue, hstate, hs]
  all_goals
    obtain ⟨hk, hws⟩ := hkey (by simp [Reading, hs])
    have hlast := htrim (by simp [Reading, hs]) (by simp [hs])
    rw [hvalue]
    try split_ifs at h ⊢
    all_goals
      cases h
      refine ⟨_, rfl, ⟨?_, ?_, ?_, ?_⟩, _, _, (List.append_nil _).symm, (List.append_nil _).symm, rfl⟩
      all_goals simp [hk, hws, hlast]

theorem read_alike {p p' q : EnvParser} {c : UInt8} (hp : Alike p p') (h : p.read c = .ok q) :
    ∃ q', p'.read c = .ok q' ∧ Alike q q' ∧ Adds p q p' q' := by
  obtain ⟨r, hr, hout, hstate, hkey, hvalue, hkeyWS, hvalueWS, -⟩ := read_eq_ok h
  obtain ⟨r', hr', hlike, added, added', hadds, hadds', hkv⟩ := next_alike hp hr
  have hq' : ∃ q', p'.read c = .ok q' := by
    rw [read, hr', ok_bind]
    split_ifs
    · exact ⟨_, rfl⟩
    · exact ⟨_, rfl⟩
  obtain ⟨q', hq'⟩ := hq'
  obtain ⟨u, hu, hout', hstate', hkey', hvalue', hkeyWS', hvalueWS', -⟩ := read_eq_ok hq'
  rw [hr'] at hu
  cases hu
  refine ⟨q', hq', ⟨?_, ?_, fun hq => ?_, fun hq hne => ?_⟩, added, added', ?_, ?_, hkv⟩
  · rw [hstate', hlike.state, hstate]
  · rw [hvalue', hlike.value, hvalue]
  · have hreading : Reading r := by
      unfold Reading
      rwa [← hstate]
    rw [hkey', hkey, hkeyWS', hkeyWS]
    exact hlike.key hreading
  · have hreading : Reading r := by
      unfold Reading
      rwa [← hstate]
    rw [hvalueWS', hvalueWS]
    exact hlike.trim hreading (hstate ▸ hne)
  · rw [hout, hadds]
  · rw [hout', hadds']

theorem fold_alike (s : GoString) {p p' q : EnvParser} (hp : Alike p p')
    (h : s.foldlM read p = .ok q) :
    ∃ q', s.foldlM read p' = .ok q' ∧ Alike q q' ∧ Adds p q p' q' := by
  induction s generalizing p p' with
  | nil =>
    cases h
    exact ⟨p', rfl, hp, .refl _ _⟩
  | cons c s ih =>
    rw [List.foldlM_cons] at h
    obtain ⟨r, hr, hq⟩ := bind_eq_ok h
    obtain ⟨r', hr', hlike, hadds⟩ := read_alike hp hr
    obtain ⟨q', hq', hlike', hadds'⟩ := ih hlike hq
    refine ⟨q', ?_, hlike', hadds.trans hadds'⟩
    rw [List.foldlM_cons, hr']
    exact hq'

theorem readLines_alike (lines : List GoString) {p p' q : EnvParser} (hp : Alike p p')
    (h : readLines p lines = .ok q) :
    ∃ q', readLines p' lines = .ok q' ∧ Alike q q' ∧ Adds p q p' q' := by
  induction lines generalizing p p' with
  | nil =>
    cases h
    exact ⟨p', rfl, hp, .refl _ _⟩
  | cons L lines ih =>
    rw [readLines_cons] at h
    obtain ⟨r, hr, hq⟩ := bind_eq_ok h
    obtain ⟨r', hr', hlike, hadds⟩ := fold_alike (L ++ [10]) hp hr
    obtain ⟨q', hq', hlike', hadds'⟩ := ih hlike hq
    refine ⟨q', ?_, hlike', hadds.trans hadds'⟩
    have hL : readLine p' L = .ok r' := hr'
    rw [readLines_cons, hL]
    exact hq'

theorem push_out_alike {p p' : EnvParser} (hkey : p'.key = p.key) (hws : p'.lastKeyWS = p.lastKeyWS)
    (hvalue : p'.value = p.value) {all : List EnvAssignment}
    (h : p.push.map EnvParser.out = .ok all) :
    ∃ added added', all = p.out ++ added ∧ p'.push.map EnvParser.out = .ok (p'.out ++ added') ∧
      added'.map kv = added.map kv := by
  simp only [push] at h ⊢
  rw [hkey, hws, hvalue]
  split_ifs at h with hvalid
  · cases h
    rw [if_pos hvalid]
    exact ⟨_, _, rfl, rfl, rfl⟩
  · cases h

theorem finish_alike {p p' : EnvParser} (hp : Alike p p') {all : List EnvAssignment}
    (h : p.finish = .ok all) :
    ∃ added added', all = p.out ++ added ∧ p'.finish = .ok (p'.out ++ added') ∧
      added'.map kv = added.map kv := by
  obtain ⟨hstate, hvalue, hkey, htrim⟩ := hp
  unfold finish at h ⊢
  rw [hstate]
  cases hs : p.state
  all_goals simp only [hs] at h ⊢
  case preKey | inKey | comment | commentEscape =>
    cases h
    exact ⟨[], [], by simp, by simp, rfl⟩
  case inValue =>
    obtain ⟨hk, hws⟩ := hkey (by simp [Reading, hs])
    have hlast := htrim (by simp [Reading, hs]) (by simp [hs])
    have hpushed := fun q' hk' hws' hv' => @push_out_alike _ q' hk' hws' hv' all h
    exact hpushed _ hk hws (by simp only [hvalue, hlast])
  all_goals
    obtain ⟨hk, hws⟩ := hkey (by simp [Reading, hs])
    exact push_out_alike hk hws hvalue h

end EnvParser

/-! ## A file and its lines -/

open EnvParser

def terminated (lines : List GoString) : GoString := lines.flatMap (· ++ [10])

@[simp] theorem terminated_nil : terminated [] = [] := rfl

@[simp] theorem terminated_cons (L : GoString) (lines : List GoString) :
    terminated (L :: lines) = L ++ 10 :: terminated lines := by
  simp [terminated]

theorem terminated_append (before after : List GoString) :
    terminated (before ++ after) = terminated before ++ terminated after := by
  simp [terminated]

theorem join_feed {lines : List GoString} (hne : lines ≠ []) :
    join lines 10 ++ [10] = terminated lines := by
  induction lines with
  | nil => exact absurd rfl hne
  | cons L lines ih =>
    cases lines with
    | nil => simp [join]
    | cons M lines =>
      have hcons : join (L :: M :: lines) 10 = L ++ 10 :: join (M :: lines) 10 := by simp [join]
      rw [hcons, List.append_assoc, List.cons_append, ih (List.cons_ne_nil M lines), terminated_cons L]

/-- Every content is lines, and a rest that no line end follows. -/
theorem exists_terminated (content : GoString) :
    ∃ lines last, content = terminated lines ++ last ∧ (∀ L ∈ lines, 10 ∉ L) ∧ 10 ∉ last := by
  induction content with
  | nil => exact ⟨[], [], rfl, by simp, by simp⟩
  | cons c content ih =>
    obtain ⟨lines, last, rfl, hlines, hlast⟩ := ih
    by_cases hc : c = 10
    · exact ⟨[] :: lines, last, by simp [hc], by simpa using hlines, hlast⟩
    · cases lines with
      | nil => exact ⟨[], c :: last, rfl, by simp, by simp [Ne.symm hc, hlast]⟩
      | cons L lines =>
        refine ⟨(c :: L) :: lines, last, by simp, ?_, hlast⟩
        intro M hM
        rcases List.mem_cons.mp hM with rfl | hM
        · simpa [Ne.symm hc] using hlines L List.mem_cons_self
        · exact hlines M (List.mem_cons_of_mem L hM)

theorem split_terminated {lines : List GoString} {last : GoString} (hlines : ∀ L ∈ lines, 10 ∉ L)
    (hlast : 10 ∉ last) : split (terminated lines ++ last) 10 = lines ++ [last] := by
  have hno : ∀ {L : GoString}, 10 ∉ L → ∀ x ∈ L, (x == 10) = false := by
    intro L hL x hx
    exact beq_eq_false_iff_ne.mpr fun heq => hL (heq ▸ hx)
  induction lines with
  | nil => exact List.splitOnP_eq_singleton (hno hlast)
  | cons L lines ih =>
    have hL := hno (hlines L List.mem_cons_self)
    rw [terminated_cons, List.append_assoc, List.cons_append, List.cons_append,
      ← ih fun M hM => hlines M (List.mem_cons_of_mem L hM)]
    exact List.splitOnP_append_cons_of_forall_mem hL 10 rfl _

theorem contentLines_terminated {lines : List GoString} {last : GoString}
    (hlines : ∀ L ∈ lines, 10 ∉ L) (hlast : 10 ∉ last) :
    contentLines (terminated lines ++ last) = if last = [] then lines else lines ++ [last] := by
  simp only [contentLines, split_terminated hlines hlast, List.getLast?_append, List.getLast?_singleton,
    Option.some_or, Option.some.injEq, List.dropLast_concat]

theorem hasSuffix_feed {lines : List GoString} {last : GoString} (hlast : 10 ∉ last) :
    hasSuffix (terminated lines ++ last) [10] = true ↔ last = [] ∧ lines ≠ [] := by
  rw [hasSuffix_iff]
  constructor
  · rintro ⟨r, hr⟩
    rcases List.eq_nil_or_concat last with rfl | ⟨l, c, rfl⟩
    · refine ⟨rfl, ?_⟩
      rintro rfl
      simp at hr
    · rw [List.concat_eq_append, ← List.append_assoc] at hr
      have hc := (List.append_inj' hr rfl).2
      rw [List.concat_eq_append] at hlast
      simp at hlast hc
      exact absurd hc.symm hlast.2
  · rintro ⟨rfl, hne⟩
    obtain ⟨before, L, rfl⟩ := (List.eq_nil_or_concat lines).resolve_left hne
    exact ⟨terminated before ++ L, by simp [List.concat_eq_append, terminated_append]⟩

theorem fold_terminated (lines : List GoString) (s : GoString) (p : EnvParser) :
    (terminated lines ++ s).foldlM read p =
      readLines p lines >>= fun q => s.foldlM read q := by
  induction lines generalizing p with
  | nil => rfl
  | cons L lines ih =>
    have hsplit : terminated (L :: lines) ++ s = (L ++ [10]) ++ (terminated lines ++ s) := by simp
    rw [hsplit, List.foldlM_append, readLines_cons, bind_assoc]
    exact congrArg _ (funext ih)

/-! ## Carriage returns -/

theorem strayReturn_append_feed (L s : GoString) (hL : 10 ∉ L) :
    strayReturn (L ++ 10 :: s) = false ↔ IsLine L ∧ strayReturn s = false := by
  induction L with
  | nil =>
    have hline : IsLine [] := ⟨[], [], rfl, by simp, .inl rfl⟩
    simp [strayReturn, hline]
  | cons c L ih =>
    have hc : c ≠ 10 := fun h => hL (by simp [h])
    have hL' : 10 ∉ L := fun h => hL (List.mem_cons_of_mem c h)
    rw [List.cons_append, strayReturn, Bool.or_eq_false_iff, ih hL']
    constructor
    · rintro ⟨hstray, ⟨body, cr, rfl, hbody, hcr⟩, hs⟩
      refine ⟨?_, hs⟩
      by_cases h13 : c = 13
      · subst h13
        -- only the end of the line may follow
        have hnil : body ++ cr = [] := by
          cases hb : body ++ cr with
          | nil => rfl
          | cons d rest =>
            rw [hb] at hstray hL'
            have hd : d ≠ 10 := fun h => hL' (by simp [h])
            simp [hd] at hstray
        exact ⟨[], [13], by rw [hnil]; rfl, by simp, .inr rfl⟩
      · refine ⟨c :: body, cr, rfl, ?_, hcr⟩
        intro d hd
        rcases List.mem_cons.mp hd with rfl | hd
        · simp [envNewline, hc, h13]
        · exact hbody d hd
    · rintro ⟨⟨body, cr, hbc, hbody, hcr⟩, hs⟩
      cases body with
      | nil =>
        rcases hcr with rfl | rfl
        · cases hbc
        · obtain ⟨rfl, rfl⟩ : c = 13 ∧ L = [] := by simpa using hbc
          exact ⟨by simp, ⟨[], [], rfl, by simp, .inl rfl⟩, hs⟩
      | cons d body =>
        obtain ⟨rfl, rfl⟩ : c = d ∧ L = body ++ cr := by simpa using hbc
        have h13 : c ≠ 13 := fun h => hbody c List.mem_cons_self (by simp [envNewline, h])
        exact ⟨by simp [h13], ⟨body, cr, rfl, fun b hb => hbody b (List.mem_cons_of_mem c hb), hcr⟩, hs⟩

theorem strayReturn_of_not_mem_feed {s : GoString} (hs : 10 ∉ s) :
    strayReturn s = false ↔ ∀ c ∈ s, c ∉ envNewline := by
  induction s with
  | nil => simp [strayReturn]
  | cons c s ih =>
    have hc : c ≠ 10 := fun h => hs (by simp [h])
    have hs' : 10 ∉ s := fun h => hs (List.mem_cons_of_mem c h)
    have hhead : s.head? ≠ some 10 := by
      intro h
      exact hs' (List.mem_of_head? h)
    rw [strayReturn, Bool.or_eq_false_iff, ih hs']
    simp [envNewline, hc, hhead]

/-- Line by line there is no stray carriage return. -/
theorem strayReturn_terminated {lines : List GoString} {last : GoString}
    (hlines : ∀ L ∈ lines, 10 ∉ L) (hlast : 10 ∉ last) :
    strayReturn (terminated lines ++ last) = false ↔
      (∀ L ∈ lines, IsLine L) ∧ ∀ c ∈ last, c ∉ envNewline := by
  induction lines with
  | nil => simpa using strayReturn_of_not_mem_feed hlast
  | cons L lines ih =>
    rw [terminated_cons, List.append_assoc, List.cons_append,
      strayReturn_append_feed L _ (hlines L List.mem_cons_self),
      ih fun M hM => hlines M (List.mem_cons_of_mem L hM)]
    simp [and_assoc]

theorem parseEnvFile_terminated {lines : List GoString} {last : GoString}
    (hlines : ∀ L ∈ lines, 10 ∉ L) (hlast : 10 ∉ last) (all : List EnvAssignment) :
    parseEnvFile (terminated lines ++ last) = .ok all ↔
      0 ∉ terminated lines ++ last ∧ (∀ L ∈ lines, IsLine L) ∧ (∀ c ∈ last, c ∉ envNewline) ∧
      ∃ q r, readLines EnvParser.start lines = .ok q ∧ last.foldlM read q = .ok r ∧
        r.finish = .ok all := by
  unfold parseEnvFile
  by_cases h0 : 0 ∈ terminated lines ++ last
  · simp [h0]
  · by_cases hstray : strayReturn (terminated lines ++ last) = true
    · have hnot : ¬ ((∀ L ∈ lines, IsLine L) ∧ ∀ c ∈ last, c ∉ envNewline) := by
        rw [← strayReturn_terminated hlines hlast, hstray]
        simp
      simp only [h0, hstray, if_true, if_false]
      constructor
      · intro h
        cases h
      · rintro ⟨-, h1, h2, -⟩
        exact absurd ⟨h1, h2⟩ hnot
    · have hgood := (strayReturn_terminated hlines hlast).mp (Bool.eq_false_of_not_eq_true hstray)
      simp only [h0, hstray, if_false, not_false_eq_true, true_and, Bool.false_eq_true]
      rw [fold_terminated, bind_assoc]
      constructor
      · intro h
        obtain ⟨q, hq, h⟩ := bind_eq_ok h
        obtain ⟨r, hr, h⟩ := bind_eq_ok h
        exact ⟨hgood.1, hgood.2, q, r, hq, hr, h⟩
      · rintro ⟨-, -, q, r, hq, hr, h⟩
        rw [hq, ok_bind, hr]
        exact h

end HarborBridge.Installer
