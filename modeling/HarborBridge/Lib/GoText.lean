import Mathlib.Data.List.Infix
import HarborBridge.Lib.GoStrings

/-!
# Strings as text

How Go reads a string as UTF-8 (package utf8), lowers it (strings.ToLower) and quotes it
(strconv.Quote). What the tables of the package unicode say of the runes beyond ASCII is a
parameter.
-/

namespace GoText

open GoStrings

/-- The tables of the package unicode, for runes from 128 on. -/
structure Unicode where
  lower : Nat → Nat
  printable : Nat → Bool

def contains (s t : GoString) : Bool := decide (t <:+: s)

/-- A byte that no text `t` has keeps it from reaching across. -/
theorem infix_append_cons {t a r : GoString} {b : UInt8} (hb : b ∉ t) :
    t <:+: a ++ b :: r ↔ t <:+: a ∨ t <:+: r := by
  constructor
  · rintro ⟨before, after, h⟩
    rw [List.append_assoc] at h
    rcases List.append_eq_append_iff.mp h with ⟨c, ha, hc⟩ | ⟨c, hbefore, hc⟩
    · -- the occurrence starts before the byte, so it ends before it as well
      rcases List.append_eq_append_iff.mp hc with ⟨d, hd, -⟩ | ⟨d, hd, hafter⟩
      · exact .inl ⟨before, d, by rw [ha, hd, List.append_assoc]⟩
      · cases d with
        | nil => exact .inl ⟨before, [], by rw [ha, hd]; simp⟩
        | cons x d =>
          obtain ⟨rfl, -⟩ := List.cons.inj (hafter : b :: r = x :: (d ++ after))
          exact absurd (hd ▸ List.mem_append_right c List.mem_cons_self) hb
    · cases c with
      | nil =>
        cases t with
        | nil => exact .inl (List.nil_infix)
        | cons x t =>
          obtain ⟨rfl, -⟩ := List.cons.inj (hc : b :: r = x :: (t ++ after))
          exact absurd List.mem_cons_self hb
      | cons x c =>
        obtain ⟨-, hr⟩ := List.cons.inj (hc : b :: r = x :: (c ++ (t ++ after)))
        exact .inr ⟨c, after, by rw [List.append_assoc]; exact hr.symm⟩
  · rintro (h | h)
    · exact h.trans (List.prefix_append _ _).isInfix
    · exact h.trans ((List.suffix_cons b r).trans (List.suffix_append _ _)).isInfix

/-! ## Runes -/

/-- What the first byte of a rune of several says: how many follow, the range of the next
one, and the first bits of the rune. -/
structure Lead where
  more : Nat
  low : Nat
  high : Nat
  bits : Nat

def leadByte (b : Nat) : Option Lead :=
  if 0xC2 ≤ b ∧ b ≤ 0xDF then some ⟨1, 0x80, 0xBF, b - 0xC0⟩
  else if b = 0xE0 then some ⟨2, 0xA0, 0xBF, 0⟩
  else if b = 0xED then some ⟨2, 0x80, 0x9F, 0xD⟩
  else if 0xE1 ≤ b ∧ b ≤ 0xEF then some ⟨2, 0x80, 0xBF, b - 0xE0⟩
  else if b = 0xF0 then some ⟨3, 0x90, 0xBF, 0⟩
  else if 0xF1 ≤ b ∧ b ≤ 0xF3 then some ⟨3, 0x80, 0xBF, b - 0xF0⟩
  else if b = 0xF4 then some ⟨3, 0x80, 0x8F, 4⟩
  else none

def continues (b : UInt8) : Bool := 0x80 ≤ b && b ≤ 0xBF

def decodeRest (s : GoString) (lead : Lead) : Option (Nat × Nat) :=
  if (s.take lead.more).length = lead.more ∧ (s.take lead.more).all continues = true ∧
      ((s.take lead.more).head?.all fun c => lead.low ≤ c.toNat && c.toNat ≤ lead.high) = true then
    some ((s.take lead.more).foldl (fun r c => 64 * r + c.toNat % 64) lead.bits, lead.more + 1)
  else none

/-- The rune at the start of the string and its width; none where the first byte starts no
rune, which is read as one byte of error. -/
def decodeRune : GoString → Option (Nat × Nat)
  | [] => none
  | b :: s => if b < 0x80 then some (b.toNat, 1) else (leadByte b.toNat).bind (decodeRest s)

def appendRune (r : Nat) : GoString :=
  if r < 0x80 then [r.toUInt8]
  else if r < 0x800 then [(0xC0 + r / 64).toUInt8, (0x80 + r % 64).toUInt8]
  else if r < 0x10000 then
    [(0xE0 + r / 4096).toUInt8, (0x80 + r / 64 % 64).toUInt8, (0x80 + r % 64).toUInt8]
  else [(0xF0 + r / 262144).toUInt8, (0x80 + r / 4096 % 64).toUInt8,
    (0x80 + r / 64 % 64).toUInt8, (0x80 + r % 64).toUInt8]

def runeError : Nat := 0xFFFD

/-- A string read rune by rune: `rune` for one that decodes, `stray` for a byte that does
not; `skip` bytes belong to the rune read last. -/
def mapRunes (rune : Nat → GoString) (stray : UInt8 → GoString) : GoString → Nat → GoString
  | [], _ => []
  | _ :: s, skip + 1 => mapRunes rune stray s skip
  | b :: s, 0 =>
    match decodeRune (b :: s) with
    | none => stray b ++ mapRunes rune stray s 0
    | some (r, width) => rune r ++ mapRunes rune stray s (width - 1)

theorem decodeRest_width {s : GoString} {lead : Lead} {r width : Nat}
    (h : decodeRest s lead = some (r, width)) : width ≤ s.length + 1 := by
  unfold decodeRest at h
  split_ifs at h with hrest
  cases h
  have hlen := hrest.1
  rw [List.length_take] at hlen
  omega

theorem decodeRune_width {s : GoString} {r width : Nat} (h : decodeRune s = some (r, width)) :
    width ≤ s.length := by
  cases s with
  | nil => cases h
  | cons b s =>
    simp only [decodeRune] at h
    split_ifs at h with hb
    · cases h
      simp
    · obtain ⟨lead, -, hrest⟩ := Option.bind_eq_some_iff.mp h
      exact decodeRest_width hrest

theorem decodeRest_append {s r : GoString} {b : UInt8} (hb : continues b = false)
    (lead : Lead) : decodeRest (s ++ b :: r) lead = decodeRest s lead := by
  unfold decodeRest
  by_cases hn : lead.more ≤ s.length
  · rw [List.take_append_of_le_length hn]
  · have hlong : ¬ ((s ++ b :: r).take lead.more).all continues = true := by
      rw [List.all_eq_true]
      intro hall
      refine absurd (hall b ?_) (by simp [hb])
      rw [List.take_append]
      apply List.mem_append_right
      obtain ⟨m, hm⟩ : ∃ m, lead.more - s.length = m + 1 :=
        ⟨lead.more - s.length - 1, by omega⟩
      rw [hm, List.take_succ_cons]
      exact List.mem_cons_self
    have hshort : ¬ (s.take lead.more).length = lead.more := by
      rw [List.length_take]
      omega
    rw [if_neg fun h => hlong h.2.1, if_neg fun h => hshort h.1]

/-- A byte that continues no rune ends the rune before it. -/
theorem decodeRune_append {s r : GoString} {b : UInt8} (hs : s ≠ []) (hb : continues b = false) :
    decodeRune (s ++ b :: r) = decodeRune s := by
  obtain ⟨c, s, rfl⟩ := List.exists_cons_of_ne_nil hs
  simp only [List.cons_append, decodeRune, funext (decodeRest_append (s := s) (r := r) hb)]

theorem mapRunes_append {rune : Nat → GoString} {stray : UInt8 → GoString} {b : UInt8}
    (hb : b < 0x80) (r s : GoString) : ∀ skip ≤ s.length,
      mapRunes rune stray (s ++ b :: r) skip =
        mapRunes rune stray s skip ++ (rune b.toNat ++ mapRunes rune stray r 0) := by
  have hstop : continues b = false := by
    unfold continues
    simp only [Bool.and_eq_false_iff, decide_eq_false_iff_not]
    left
    simpa using hb
  induction s with
  | nil =>
    intro skip hskip
    obtain rfl : skip = 0 := by simpa using hskip
    simp [mapRunes, decodeRune, hb]
  | cons c s ih =>
    intro skip hskip
    cases skip with
    | succ skip => exact ih skip (by simpa using hskip)
    | zero =>
      have hdecode := decodeRune_append (r := r) (List.cons_ne_nil c s) hstop
      rw [List.cons_append] at hdecode ⊢
      simp only [mapRunes, hdecode]
      cases h : decodeRune (c :: s) with
      | none => simp [ih 0 (Nat.zero_le _)]
      | some found =>
        obtain ⟨x, width⟩ := found
        have hwidth := decodeRune_width h
        simp only [List.length_cons] at hwidth
        simp [ih (width - 1) (by omega)]

/-! ## strings.ToLower -/

def toLowerRune (u : Unicode) (r : Nat) : Nat :=
  if r < 0x80 then (if 65 ≤ r ∧ r ≤ 90 then r + 32 else r) else u.lower r

/-- The pass over the bytes that Go makes for an ASCII string gives the same. -/
def toLower (u : Unicode) (s : GoString) : GoString :=
  mapRunes (fun r => appendRune (toLowerRune u r)) (fun _ => appendRune runeError) s 0

theorem toLower_append_cons (u : Unicode) {b : UInt8} (hb : b < 0x80) (s r : GoString) :
    toLower u (s ++ b :: r) =
      toLower u s ++ (appendRune (toLowerRune u b.toNat) ++ toLower u r) :=
  mapRunes_append hb r s 0 (Nat.zero_le _)

/-- What stands left of a quote and right of it is lowered on its own. -/
theorem toLower_append_quote (u : Unicode) (s r : GoString) :
    toLower u (s ++ 34 :: r) = toLower u s ++ 34 :: toLower u r :=
  toLower_append_cons u (by decide) s r

def lowerCase (s : GoString) : Bool := s.all fun b => b < 0x80 && !(65 ≤ b && b ≤ 90)

theorem toLower_lowerCase (u : Unicode) {s : GoString} (h : lowerCase s = true) :
    toLower u s = s := by
  induction s with
  | nil => rfl
  | cons b s ih =>
    simp only [lowerCase, List.all_cons, Bool.and_eq_true, decide_eq_true_eq,
      Bool.not_eq_true', Bool.and_eq_false_iff, decide_eq_false_iff_not] at h
    obtain ⟨⟨hb, hcase⟩, hs⟩ := h
    have hlow : b.toNat < 0x80 := UInt8.lt_iff_toNat_lt.mp hb
    have hrune : toLowerRune u b.toNat = b.toNat := by
      unfold toLowerRune
      rw [if_pos hlow, if_neg]
      rintro ⟨hA, hZ⟩
      exact hcase.elim (fun h => h (UInt8.le_iff_toNat_le.mpr hA))
        fun h => h (UInt8.le_iff_toNat_le.mpr hZ)
    have hstep := toLower_append_cons u hb [] s
    rw [List.nil_append, hrune, ih (by simpa [lowerCase] using hs)] at hstep
    rw [hstep]
    simp [toLower, mapRunes, appendRune, hlow]

/-! ## strconv.Quote -/

def hexDigit (n : Nat) : UInt8 := if n < 10 then (48 + n).toUInt8 else (87 + n).toUInt8

def hex : (width n : Nat) → GoString
  | 0, _ => []
  | width + 1, n => hex width (n / 16) ++ [hexDigit (n % 16)]

def isPrint (u : Unicode) (r : Nat) : Bool :=
  if r < 0x80 then 0x20 ≤ r && r < 0x7F else u.printable r

def escapedRune (u : Unicode) (r : Nat) : GoString :=
  if r = 34 ∨ r = 92 then [92, r.toUInt8]
  else if isPrint u r then appendRune r
  else match r with
    | 7 => lit "\\a"
    | 8 => lit "\\b"
    | 12 => lit "\\f"
    | 10 => lit "\\n"
    | 13 => lit "\\r"
    | 9 => lit "\\t"
    | 11 => lit "\\v"
    | _ =>
      if r < 0x20 ∨ r = 0x7F then lit "\\x" ++ hex 2 r
      else if r < 0x10000 then lit "\\u" ++ hex 4 r
      else lit "\\U" ++ hex 8 r

def escaped (u : Unicode) (s : GoString) : GoString :=
  mapRunes (escapedRune u) (fun b => lit "\\x" ++ hex 2 b.toNat) s 0

def plainText (s : GoString) : Bool := s.all fun b => 0x20 ≤ b && b < 0x7F && b != 34 && b != 92

theorem escaped_plainText (u : Unicode) {s : GoString} (h : plainText s = true) :
    escaped u s = s := by
  induction s with
  | nil => rfl
  | cons b s ih =>
    simp only [plainText, List.all_cons, Bool.and_eq_true, decide_eq_true_eq, bne_iff_ne] at h
    obtain ⟨⟨⟨⟨hlow, hhigh⟩, hquote⟩, hslash⟩, hs⟩ := h
    have hlow' : 0x20 ≤ b.toNat := UInt8.le_iff_toNat_le.mp hlow
    have hhigh' : b.toNat < 0x7F := UInt8.lt_iff_toNat_lt.mp hhigh
    have hquote' : b.toNat ≠ 34 := fun h => hquote (UInt8.toNat_inj.mp h)
    have hslash' : b.toNat ≠ 92 := fun h => hslash (UInt8.toNat_inj.mp h)
    have hascii : b < 0x80 := UInt8.lt_iff_toNat_lt.mpr (by simpa using hhigh'.trans (by decide))
    have hstep := @mapRunes_append (escapedRune u) (fun b => lit "\\x" ++ hex 2 b.toNat) b
      hascii s [] 0 (Nat.zero_le _)
    have hrune : escapedRune u b.toNat = [b] := by
      have h80 : b.toNat < 0x80 := hhigh'.trans (by decide)
      simp [escapedRune, isPrint, appendRune, hlow', hhigh', hquote', hslash', h80]
    have hs' : escaped u s = s := ih (by simpa [plainText] using hs)
    rw [List.nil_append, hrune] at hstep
    exact hstep.trans (congrArg (b :: ·) hs')

def quote (u : Unicode) (s : GoString) : GoString := 34 :: escaped u s ++ [34]

end GoText
