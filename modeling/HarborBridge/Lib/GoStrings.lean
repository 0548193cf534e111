import Mathlib.Data.List.DropRight
import Mathlib.Data.Nat.Digits.Defs
import Mathlib.Data.Nat.Digits.Lemmas
import Mathlib.Order.Basic

/-! Go strings as byte sequences, with the functions of the packages strings and
strconv that verified programs use. -/
namespace GoStrings

abbrev GoString := List UInt8

/-- The bytes of an ASCII string literal. -/
def lit (s : String) : GoString := s.toList.map fun c => c.toNat.toUInt8

instance instLinearOrderByte : LinearOrder UInt8 where
  le_refl := UInt8.le_refl
  le_trans _ _ _ := UInt8.le_trans
  le_antisymm _ _ := UInt8.le_antisymm
  le_total := UInt8.le_total
  lt_iff_le_not_ge a b := by
    rw [UInt8.lt_iff_toNat_lt, UInt8.le_iff_toNat_le, UInt8.le_iff_toNat_le]
    omega
  toDecidableLE := inferInstance

instance instLawfulBEqGoString : LawfulBEq GoString := inferInstance

/-- strings.HasPrefix -/
def hasPrefix (s p : GoString) : Bool := p.isPrefixOf s

/-- strings.HasSuffix -/
def hasSuffix (s p : GoString) : Bool := p.isSuffixOf s

/-- strings.CutPrefix, with none for a false second result. -/
def cutPrefix (s p : GoString) : Option GoString :=
  if hasPrefix s p then some (s.drop p.length) else none

/-- strings.TrimPrefix -/
def trimPrefix (s p : GoString) : GoString := (cutPrefix s p).getD s

/-- strings.Cut for a separator of one byte, with none for a false third result. -/
def cut (s : GoString) (sep : UInt8) : Option (GoString × GoString) :=
  match s with
  | [] => none
  | b :: s => if b = sep then some ([], s) else (cut s sep).map fun p => (b :: p.1, p.2)

/-- strings.TrimRight -/
def trimRight (s cutset : GoString) : GoString := s.rdropWhile fun b => decide (b ∈ cutset)

/-- strings.Split for a separator of one byte. -/
def split (s : GoString) (sep : UInt8) : List GoString := s.splitOn sep

/-- strings.Join for a separator of one byte. -/
def join (ss : List GoString) (sep : UInt8) : GoString := [sep].intercalate ss

theorem hasPrefix_iff (s p : GoString) : hasPrefix s p = true ↔ ∃ r, s = p ++ r := by
  rw [hasPrefix, List.isPrefixOf_iff_prefix]
  exact ⟨fun ⟨r, hr⟩ => ⟨r, hr.symm⟩, fun ⟨r, hr⟩ => ⟨r, hr.symm⟩⟩

theorem hasSuffix_iff (s p : GoString) : hasSuffix s p = true ↔ ∃ r, s = r ++ p := by
  rw [hasSuffix, List.isSuffixOf_iff_suffix]
  exact ⟨fun ⟨r, hr⟩ => ⟨r, hr.symm⟩, fun ⟨r, hr⟩ => ⟨r, hr.symm⟩⟩

@[simp] theorem hasPrefix_append (p r : GoString) : hasPrefix (p ++ r) p = true :=
  (hasPrefix_iff _ _).mpr ⟨r, rfl⟩

@[simp] theorem cutPrefix_append (p r : GoString) : cutPrefix (p ++ r) p = some r := by
  simp [cutPrefix]

theorem cutPrefix_eq_some (s p r : GoString) : cutPrefix s p = some r ↔ s = p ++ r := by
  constructor
  · intro h
    unfold cutPrefix at h
    split_ifs at h with hp
    obtain ⟨r', rfl⟩ := (hasPrefix_iff s p).mp hp
    simpa using h
  · rintro rfl
    exact cutPrefix_append p r

@[simp] theorem trimPrefix_append (p r : GoString) : trimPrefix (p ++ r) p = r := by
  simp [trimPrefix]

theorem cut_append (a b : GoString) (sep : UInt8) (ha : sep ∉ a) :
    cut (a ++ sep :: b) sep = some (a, b) := by
  induction a with
  | nil => simp [cut]
  | cons x a ih =>
    simp only [List.mem_cons, not_or] at ha
    simp [cut, Ne.symm ha.1, ih ha.2]

theorem cut_eq_some (s : GoString) (sep : UInt8) (a b : GoString) :
    cut s sep = some (a, b) ↔ sep ∉ a ∧ s = a ++ sep :: b := by
  constructor
  · intro h
    induction s generalizing a with
    | nil => simp [cut] at h
    | cons x s ih =>
      unfold cut at h
      split_ifs at h with hx
      · simp only [Option.some.injEq, Prod.mk.injEq] at h
        simp [← h.1, h.2, hx]
      · simp only [Option.map_eq_some_iff, Prod.mk.injEq] at h
        obtain ⟨⟨a', b'⟩, hc, rfl, rfl⟩ := h
        obtain ⟨hs, rfl⟩ := ih a' hc
        exact ⟨by simp [hs, Ne.symm hx], rfl⟩
  · rintro ⟨ha, rfl⟩
    exact cut_append a b sep ha

theorem trimRight_append (a r cutset : GoString) (x : UInt8) (hx : x ∉ cutset) :
    trimRight (a ++ x :: r) cutset = a ++ x :: trimRight r cutset := by
  induction r using List.reverseRecOn with
  | nil => simp [trimRight, List.rdropWhile, hx]
  | append_singleton r y ih =>
    have hassoc : a ++ x :: (r ++ [y]) = a ++ x :: r ++ [y] := by simp
    unfold trimRight at ih ⊢
    rw [hassoc, List.rdropWhile_concat, List.rdropWhile_concat, ih]
    split_ifs
    · rfl
    · simp

theorem mem_join (ss : List GoString) (sep b : UInt8) (h : b ∈ join ss sep) :
    b = sep ∨ ∃ s ∈ ss, b ∈ s := by
  induction ss with
  | nil => simp [join] at h
  | cons s ss ih =>
    cases ss with
    | nil => exact .inr ⟨s, by simp, by simpa [join] using h⟩
    | cons t ss =>
      have hcons : join (s :: t :: ss) sep = s ++ sep :: join (t :: ss) sep := by simp [join]
      rw [hcons, List.mem_append, List.mem_cons] at h
      rcases h with hs | rfl | ht
      · exact .inr ⟨s, by simp, hs⟩
      · exact .inl rfl
      · rcases ih ht with rfl | ⟨u, hu, hbu⟩
        · exact .inl rfl
        · exact .inr ⟨u, List.mem_cons_of_mem s hu, hbu⟩

theorem not_mem_of_mem_split (s part : GoString) (sep : UInt8) (h : part ∈ split s sep) :
    sep ∉ part := by
  unfold split List.splitOn at h
  induction s generalizing part with
  | nil =>
    rw [List.splitOnP_nil, List.mem_singleton] at h
    simp [h]
  | cons b s ih =>
    rw [List.splitOnP_cons_eq_if_modifyHead] at h
    split_ifs at h with hb
    · rcases List.mem_cons.mp h with rfl | h
      · simp
      · exact ih part h
    · cases hs : List.splitOnP (fun x => x == sep) s with
      | nil =>
        rw [hs] at h
        cases h
      | cons first rest =>
        rw [hs, List.modifyHead_cons] at h
        rcases List.mem_cons.mp h with rfl | h
        · have hfirst := ih first (hs ▸ List.mem_cons_self)
          have hne : sep ≠ b := fun heq => hb (by simp [heq])
          simp [hfirst, hne]
        · exact ih part (hs ▸ List.mem_cons_of_mem _ h)

/-! ## White space

strings.Fields and strings.TrimSpace decode UTF-8. The first byte of a wide space
never stands inside the encoding of another rune, so looking for its bytes at each
position finds the same spaces. -/

def asciiSpace (b : UInt8) : Bool := b == 32 || (9 ≤ b && b ≤ 13)

/-- The encodings of the runes from U+0080 on for which unicode.IsSpace holds. -/
def wideSpaces : List GoString :=
  [[0xC2, 0x85], [0xC2, 0xA0], [0xE1, 0x9A, 0x80], [0xE2, 0x80, 0xA8], [0xE2, 0x80, 0xA9],
    [0xE2, 0x80, 0xAF], [0xE2, 0x81, 0x9F], [0xE3, 0x80, 0x80]] ++
  [0x80, 0x81, 0x82, 0x83, 0x84, 0x85, 0x86, 0x87, 0x88, 0x89, 0x8A].map
    fun b => [0xE2, 0x80, b]

/-- How many bytes the space at the start of the string takes, 0 when there is none. -/
def spaceLen (wide : List GoString) : GoString → Nat
  | [] => 0
  | b :: s =>
    if asciiSpace b then 1
    else if b < 128 then 0
    else ((wide.find? fun w => w.isPrefixOf (b :: s)).map List.length).getD 0

def fieldsFrom : (s : GoString) → (skip : Nat) → (field : GoString) → List GoString
  | [], _, field => if field = [] then [] else [field]
  | _ :: s, skip + 1, field => fieldsFrom s skip field
  | b :: s, 0, field =>
    match spaceLen wideSpaces (b :: s) with
    | 0 => fieldsFrom s 0 (field ++ [b])
    | n + 1 => (if field = [] then [] else [field]) ++ fieldsFrom s n []

/-- strings.Fields -/
def fields (s : GoString) : List GoString := fieldsFrom s 0 []

def trimLeftSpace (wide : List GoString) : (s : GoString) → (skip : Nat) → GoString
  | [], _ => []
  | _ :: s, skip + 1 => trimLeftSpace wide s skip
  | b :: s, 0 =>
    match spaceLen wide (b :: s) with
    | 0 => b :: s
    | n + 1 => trimLeftSpace wide s n

/-- strings.TrimSpace: the end of the string is the start of its reversal. -/
def trimSpace (s : GoString) : GoString :=
  (trimLeftSpace (wideSpaces.map List.reverse)
    (trimLeftSpace wideSpaces s 0).reverse 0).reverse

theorem trimLeftSpace_suffix (wide : List GoString) (s : GoString) (skip : Nat) :
    trimLeftSpace wide s skip <:+ s := by
  induction s generalizing skip with
  | nil => exact List.suffix_rfl
  | cons b s ih =>
    cases skip with
    | succ skip => exact (ih skip).trans (List.suffix_cons b s)
    | zero =>
      unfold trimLeftSpace
      split
      · exact List.suffix_rfl
      · next n _ => exact (ih n).trans (List.suffix_cons b s)

theorem mem_of_mem_trimSpace (s : GoString) (b : UInt8) (h : b ∈ trimSpace s) : b ∈ s := by
  have hright := (trimLeftSpace_suffix _ _ _).subset (List.mem_reverse.mp h)
  exact (trimLeftSpace_suffix _ _ _).subset (List.mem_reverse.mp hright)

/-- A string of printable ASCII characters other than the space. -/
def Word (s : GoString) : Prop := ∀ b ∈ s, 32 < b ∧ b < 128

instance (s : GoString) : Decidable (Word s) := List.decidableBAll _ s

theorem Word.append {s t : GoString} (hs : Word s) (ht : Word t) : Word (s ++ t) := by
  intro b hb
  rcases List.mem_append.mp hb with h | h
  · exact hs b h
  · exact ht b h

theorem spaceLen_word (wide : List GoString) (b : UInt8) (s : GoString)
    (hb : 32 < b ∧ b < 128) : spaceLen wide (b :: s) = 0 := by
  have hspace : asciiSpace b = false := by
    have h32 : b ≠ 32 := fun h => absurd hb.1 (by simp [h])
    have h13 : ¬ b ≤ 13 := by
      rw [UInt8.le_iff_toNat_le]
      have := UInt8.lt_iff_toNat_lt.mp hb.1
      simp at this ⊢
      omega
    simp [asciiSpace, h32, h13]
  simp [spaceLen, hspace, hb.2]

theorem fieldsFrom_word (w : GoString) (hw : Word w) (s field : GoString) :
    fieldsFrom (w ++ s) 0 field = fieldsFrom s 0 (field ++ w) := by
  induction w generalizing field with
  | nil => simp
  | cons b w ih =>
    have hb := hw b List.mem_cons_self
    simp only [List.cons_append, fieldsFrom, spaceLen_word wideSpaces b _ hb]
    rw [ih fun c hc => hw c (List.mem_cons_of_mem b hc)]
    simp

theorem fields_word_space (w s : GoString) (hw : Word w) (hne : w ≠ []) :
    fields (w ++ 32 :: s) = w :: fields s := by
  have hsp : spaceLen wideSpaces (32 :: s) = 1 := by simp [spaceLen, asciiSpace]
  rw [fields, fieldsFrom_word w hw]
  simp only [fieldsFrom, hsp, List.nil_append, if_neg hne]
  rfl

theorem fields_word (w : GoString) (hw : Word w) (hne : w ≠ []) : fields w = [w] := by
  have h := fieldsFrom_word w hw [] []
  rw [List.append_nil, List.nil_append] at h
  rw [fields, h, fieldsFrom, if_neg hne]

def Trimmed (s : GoString) : Prop := trimSpace s = s

theorem trimLeftSpace_word (wide : List GoString) (b : UInt8) (s : GoString)
    (hb : 32 < b ∧ b < 128) : trimLeftSpace wide (b :: s) 0 = b :: s := by
  simp [trimLeftSpace, spaceLen_word wide b s hb]

theorem trimSpace_word (w : GoString) (hw : Word w) : trimSpace w = w := by
  have hleft : ∀ (wide : List GoString) (u : GoString), Word u →
      trimLeftSpace wide u 0 = u := by
    intro wide u hu
    cases u with
    | nil => rfl
    | cons b u => exact trimLeftSpace_word wide b u (hu b List.mem_cons_self)
  have hrev : Word w.reverse := fun b hb => hw b (List.mem_reverse.mp hb)
  rw [trimSpace, hleft _ w hw, hleft _ _ hrev, List.reverse_reverse]

theorem spaceLen_trimLeftSpace (wide : List GoString) (s : GoString) (skip : Nat) :
    spaceLen wide (trimLeftSpace wide s skip) = 0 := by
  induction s generalizing skip with
  | nil => rfl
  | cons b s ih =>
    cases skip with
    | succ skip => exact ih skip
    | zero =>
      unfold trimLeftSpace
      split
      · next h => exact h
      · next n _ => exact ih n

theorem trimLeftSpace_of_spaceLen {wide : List GoString} {s : GoString} (h : spaceLen wide s = 0) :
    trimLeftSpace wide s 0 = s := by
  cases s with
  | nil => rfl
  | cons b s =>
    unfold trimLeftSpace
    rw [h]

/-- A string that does not start with a space still does not when its end is cut off. -/
theorem spaceLen_of_prefix {wide : List GoString} (hwide : ∀ w ∈ wide, w ≠ []) {s t : GoString}
    (hprefixed : t <+: s) (h : spaceLen wide s = 0) : spaceLen wide t = 0 := by
  cases t with
  | nil => rfl
  | cons b t =>
    obtain ⟨rest, rfl⟩ := hprefixed
    rw [List.cons_append] at h
    unfold spaceLen at h ⊢
    dsimp only at h ⊢
    split_ifs at h ⊢ with hspace hascii
    · rfl
    · have hnone : wide.find? (fun w => w.isPrefixOf (b :: (t ++ rest))) = none := by
        cases hfind : wide.find? (fun w => w.isPrefixOf (b :: (t ++ rest))) with
        | none => rfl
        | some w =>
          rw [hfind] at h
          exact absurd (List.length_eq_zero_iff.mp h) (hwide w (List.mem_of_find?_eq_some hfind))
      have hnone' : wide.find? (fun w => w.isPrefixOf (b :: t)) = none := by
        rw [List.find?_eq_none] at hnone ⊢
        intro w hw hp
        refine hnone w hw (List.isPrefixOf_iff_prefix.mpr ?_)
        exact (List.isPrefixOf_iff_prefix.mp hp).trans ⟨rest, rfl⟩
      rw [hnone']
      rfl

theorem trimSpace_trimSpace (s : GoString) : trimSpace (trimSpace s) = trimSpace s := by
  have hleft : trimSpace s <+: trimLeftSpace wideSpaces s 0 :=
    List.reverse_suffix.mp (by
      rw [trimSpace, List.reverse_reverse]
      exact trimLeftSpace_suffix _ _ _)
  have hstart : spaceLen wideSpaces (trimSpace s) = 0 :=
    spaceLen_of_prefix (by decide) hleft (spaceLen_trimLeftSpace wideSpaces s 0)
  have hend : spaceLen (wideSpaces.map List.reverse) (trimSpace s).reverse = 0 := by
    rw [trimSpace, List.reverse_reverse]
    exact spaceLen_trimLeftSpace _ _ _
  rw [trimSpace, trimLeftSpace_of_spaceLen hstart, trimLeftSpace_of_spaceLen hend,
    List.reverse_reverse]

/-! ## Decimal numbers -/

/-- The decimal digits of a number; strconv.FormatInt without a sign. -/
def formatNat (n : Nat) : GoString :=
  if n = 0 then [48] else ((Nat.digits 10 n).map fun d => (48 + d).toUInt8).reverse

/-- strconv.FormatInt in base 10 -/
def formatInt (i : Int) : GoString :=
  if i < 0 then 45 :: formatNat i.natAbs else formatNat i.natAbs

def isDigit (b : UInt8) : Bool := 48 ≤ b && b ≤ 57

def digitsValue (s : GoString) : Nat := s.foldl (fun n b => 10 * n + (b.toNat - 48)) 0

def parseNat (s : GoString) : Option Nat :=
  if s ≠ [] ∧ s.all isDigit then some (digitsValue s) else none

def InInt64 (i : Int) : Prop := -2 ^ 63 ≤ i ∧ i < 2 ^ 63

instance (i : Int) : Decidable (InInt64 i) := inferInstanceAs (Decidable (_ ∧ _))

def parseSigned (s : GoString) : Option Int :=
  if s.head? = some 45 then (parseNat s.tail).map fun n => -(n : Int)
  else if s.head? = some 43 then (parseNat s.tail).map fun n => (n : Int)
  else (parseNat s).map fun n => (n : Int)

/-- strconv.ParseInt in base 10 for 64 bits -/
def parseInt (s : GoString) : Option Int := (parseSigned s).filter fun i => decide (InInt64 i)

theorem toNat_digit (d : Nat) (hd : d < 10) : ((48 + d).toUInt8).toNat = 48 + d := by
  rw [UInt8.toNat_ofNat']
  omega

theorem isDigit_digit (d : Nat) (hd : d < 10) : isDigit (48 + d).toUInt8 = true := by
  simp only [isDigit, Bool.and_eq_true, decide_eq_true_eq, UInt8.le_iff_toNat_le,
    toNat_digit d hd]
  exact ⟨by simp, by simp; omega⟩

theorem formatNat_isDigit (n : Nat) : (formatNat n).all isDigit = true := by
  unfold formatNat
  split_ifs with hn
  · decide
  · simp only [List.all_reverse, List.all_map, List.all_eq_true, Function.comp]
    exact fun d hd => isDigit_digit d (Nat.digits_lt_base (by norm_num) hd)

theorem formatNat_ne_nil (n : Nat) : formatNat n ≠ [] := by
  unfold formatNat
  split_ifs with hn
  · simp
  · simpa using Nat.digits_ne_nil_iff_ne_zero.mpr hn

theorem digitsValue_formatNat (n : Nat) : digitsValue (formatNat n) = n := by
  have hfold : ∀ l : List Nat, (∀ d ∈ l, d < 10) →
      digitsValue ((l.map fun d => (48 + d).toUInt8).reverse) = Nat.ofDigits 10 l := by
    intro l hl
    rw [digitsValue, List.foldl_reverse]
    induction l with
    | nil => rfl
    | cons d l ih =>
      have hd : d < 10 := hl d List.mem_cons_self
      rw [List.map_cons, List.foldr_cons, ih fun x hx => hl x (List.mem_cons_of_mem d hx),
        toNat_digit d hd, Nat.ofDigits_cons]
      omega
  unfold formatNat
  split_ifs with hn
  · rw [hn]
    rfl
  · rw [hfold _ fun d hd => Nat.digits_lt_base (by norm_num) hd, Nat.ofDigits_digits]

theorem parseNat_formatNat (n : Nat) : parseNat (formatNat n) = some n := by
  rw [parseNat, if_pos ⟨formatNat_ne_nil n, formatNat_isDigit n⟩, digitsValue_formatNat]

theorem parseSigned_formatInt (i : Int) : parseSigned (formatInt i) = some i := by
  unfold parseSigned formatInt
  by_cases hi : i < 0
  · have habs : -(i.natAbs : Int) = i := by omega
    simpa [hi, parseNat_formatNat] using habs
  · have habs : (i.natAbs : Int) = i := by omega
    have hdigit : ∀ b, (formatNat i.natAbs).head? = some b → isDigit b = true := fun b hb =>
      List.all_eq_true.mp (formatNat_isDigit i.natAbs) b (List.mem_of_mem_head? hb)
    -- a digit is neither of the two signs
    have hminus : (formatNat i.natAbs).head? ≠ some 45 := fun h => absurd (hdigit 45 h) (by decide)
    have hplus : (formatNat i.natAbs).head? ≠ some 43 := fun h => absurd (hdigit 43 h) (by decide)
    simpa [hi, hminus, hplus, parseNat_formatNat] using habs

/-- Reading a rendered 64-bit integer gives it back. -/
theorem parseInt_formatInt (i : Int) (hi : InInt64 i) : parseInt (formatInt i) = some i := by
  rw [parseInt, parseSigned_formatInt, Option.filter_some, if_pos (decide_eq_true hi)]

end GoStrings
