import HarborBridge.Lib.Wildcard
import HarborBridge.Installer.EnvLines
import HarborBridge.Installer.UnitEnv

/-!
# What a wildcard component matches

The relation that `globMatch` decides, stated as fnmatch(3) reads a pattern: from left to
right, one item after the other.
-/

namespace HarborBridge.Installer

open GoStrings Wildcard

/-! ## Bracket expressions -/

/-- A byte as a bracket expression writes it, itself or after a backslash, and what follows. -/
inductive Written : GoString → UInt8 → GoString → Prop where
  | plain (b : UInt8) (rest : GoString) (h : b ≠ 92) : Written (b :: rest) b rest
  | escaped (b : UInt8) (rest : GoString) : Written (92 :: b :: rest) b rest

/-- A dash that makes a range: not the one before the closing bracket. -/
def StartsRange (s : GoString) : Prop := ∃ b rest, s = 45 :: b :: rest ∧ b ≠ 93

/-- A byte or a range of bytes in a bracket expression, with the pattern from where each end of
it is written; a single byte has no upper end of its own. -/
structure Piece where
  low : UInt8
  high : UInt8
  lowAt : GoString
  highAt : Option GoString

/-- The pieces of a bracket expression up to its closing bracket, and the pattern after it. A
closing bracket that comes first is a member. -/
inductive Members : (first : Bool) → GoString → List Piece → GoString → Prop where
  | close (rest : GoString) : Members false (93 :: rest) [] rest
  | single {first : Bool} {s rest after : GoString} {b : UInt8} {pieces : List Piece}
      (hopen : first = true ∨ s.head? ≠ some 93) (hb : Written s b rest)
      (hdash : ¬ StartsRange rest) (h : Members false rest pieces after) :
      Members first s (⟨b, b, s, none⟩ :: pieces) after
  | range {first : Bool} {s dash rest after : GoString} {lo hi : UInt8} {pieces : List Piece}
      (hopen : first = true ∨ s.head? ≠ some 93) (hlo : Written s lo (45 :: dash))
      (hdash : StartsRange (45 :: dash)) (hhi : Written dash hi rest)
      (h : Members false rest pieces after) :
      Members first s (⟨lo, hi, s, some dash⟩ :: pieces) after

/-- A bracket expression after its opening bracket. -/
inductive Bracket : GoString → (negated : Bool) → List Piece → GoString → Prop where
  | negated {c : UInt8} {rest after : GoString} {pieces : List Piece} (hc : c = 33 ∨ c = 94)
      (h : Members true rest pieces after) : Bracket (c :: rest) true pieces after
  | plain {s after : GoString} {pieces : List Piece} (hs : s.head? ≠ some 33)
      (hs' : s.head? ≠ some 94) (h : Members true s pieces after) : Bracket s false pieces after

def inPieces (pieces : List Piece) (b : UInt8) : Bool :=
  pieces.any fun p => decide (p.low ≤ b) && decide (b ≤ p.high)

def Closed (s : GoString) : Prop := ∃ negated pieces after, Bracket s negated pieces after

/-- The pattern matches the name, with bracket expressions from `A` only. -/
inductive Matches (A : List Piece → Prop) : GoString → GoString → Prop where
  | nil : Matches A [] []
  | star {pattern taken name : GoString} (h : Matches A pattern name) :
      Matches A (42 :: pattern) (taken ++ name)
  | any {pattern name : GoString} (b : UInt8) (h : Matches A pattern name) :
      Matches A (63 :: pattern) (b :: name)
  | bracket {pattern after name : GoString} {negated : Bool} {pieces : List Piece} {b : UInt8}
      (hbracket : Bracket pattern negated pieces after) (hA : A pieces)
      (hb : inPieces pieces b ≠ negated) (h : Matches A after name) :
      Matches A (91 :: pattern) (b :: name)
  | unclosed {pattern name : GoString} (hopen : ¬ Closed pattern) (h : Matches A pattern name) :
      Matches A (91 :: pattern) (91 :: name)
  | escaped {pattern name : GoString} (b : UInt8) (h : Matches A pattern name) :
      Matches A (92 :: b :: pattern) (b :: name)
  | literal {pattern name : GoString} (b : UInt8) (hb : b ∉ lit "*?[\\") (h : Matches A pattern name) :
      Matches A (b :: pattern) (b :: name)

theorem bracketByte_iff {s rest : GoString} {b : UInt8} :
    bracketByte s = some (b, rest) ↔ Written s b rest := by
  constructor
  · intro h
    unfold bracketByte at h
    split at h
    · cases h
    · split_ifs at h with hc
      · subst hc
        split at h
        · cases h
        · cases h
          exact .escaped _ _
      · cases h
        exact .plain _ _ hc
  · intro h
    cases h with
    | plain b rest h => simp [bracketByte, h]
    | escaped b rest => rfl

theorem Written.unique {s rest rest' : GoString} {b b' : UInt8} (h : Written s b rest)
    (h' : Written s b' rest') : b = b' ∧ rest = rest' := by
  rw [← bracketByte_iff] at h h'
  rw [h] at h'
  cases h'
  exact ⟨rfl, rfl⟩

theorem Written.length {s rest : GoString} {b : UInt8} (h : Written s b rest) :
    rest.length < s.length := by
  cases h <;> simp

theorem rangeEnd_range {dash : GoString} (lo : UInt8) (h : StartsRange (45 :: dash)) :
    rangeEnd lo (45 :: dash) = bracketByte dash := by
  obtain ⟨b, rest, heq, hb⟩ := h
  cases heq
  simp [rangeEnd, hb]

theorem rangeEnd_single {rest : GoString} (lo : UInt8) (h : ¬ StartsRange rest) :
    rangeEnd lo rest = some (lo, rest) := by
  unfold rangeEnd
  split
  · rename_i hi more
    split_ifs with hhi
    · rfl
    · exact absurd ⟨hi, more, rfl, hhi⟩ h
  · rfl

/-- The opening of a character class, an equivalence class or a collating symbol. -/
def OpensClass (s : GoString) : Prop :=
  s.head? = some 91 ∧ (s.tail.head? = some 58 ∨ s.tail.head? = some 61 ∨ s.tail.head? = some 46)

/-- Nowhere in the pieces such an opening is a member or the lower end of a range. -/
def PlainLow (pieces : List Piece) : Prop := ∀ p ∈ pieces, ¬ OpensClass p.lowAt

theorem Members.unique {first : Bool} {s after after' : GoString} {pieces pieces' : List Piece}
    (h : Members first s pieces after) (h' : Members first s pieces' after') :
    pieces = pieces' ∧ after = after' := by
  induction h generalizing pieces' after' with
  | close rest =>
    cases h' with
    | close => exact ⟨rfl, rfl⟩
    | single hopen => simp at hopen
    | range hopen => simp at hopen
  | single hopen hb hdash _ ih =>
    cases h' with
    | close => simp at hopen
    | single _ hb' _ h' =>
      obtain ⟨rfl, rfl⟩ := hb.unique hb'
      obtain ⟨rfl, rfl⟩ := ih h'
      exact ⟨rfl, rfl⟩
    | range _ hlo hdash' =>
      obtain ⟨-, rfl⟩ := hb.unique hlo
      exact absurd hdash' hdash
  | range hopen hlo hdash hhi _ ih =>
    cases h' with
    | close => simp at hopen
    | single _ hb hdash' =>
      obtain ⟨-, rfl⟩ := hlo.unique hb
      exact absurd hdash hdash'
    | range _ hlo' _ hhi' h' =>
      obtain ⟨rfl, hrest⟩ := hlo.unique hlo'
      cases hrest
      obtain ⟨rfl, rfl⟩ := hhi.unique hhi'
      obtain ⟨rfl, rfl⟩ := ih h'
      exact ⟨rfl, rfl⟩

theorem Members.length {first : Bool} {s after : GoString} {pieces : List Piece}
    (h : Members first s pieces after) : after.length < s.length := by
  induction h with
  | close rest => simp
  | single _ hb _ _ ih => exact ih.trans hb.length
  | range _ hlo _ hhi _ ih =>
    have hlen := hlo.length
    have hlen' := hhi.length
    simp only [List.length_cons] at hlen
    omega

section Scanner

variable {first : Bool} {s rest : GoString} {lo hi : UInt8}

theorem members_open (hopen : first = true ∨ s.head? ≠ some 93) {pieces : List Piece}
    {after : GoString} (h : Members first s pieces after) : ∃ b rest, Written s b rest := by
  cases h with
  | close => simp at hopen
  | single _ hb => exact ⟨_, _, hb⟩
  | range _ hlo => exact ⟨_, _, hlo⟩

theorem members_single (hopen : first = true ∨ s.head? ≠ some 93) (hlo : Written s lo rest)
    (hdash : ¬ StartsRange rest) (pieces : List Piece) (after : GoString) :
    Members first s pieces after ↔
      ∃ more, pieces = ⟨lo, lo, s, none⟩ :: more ∧ Members false rest more after := by
  constructor
  · intro h
    cases h with
    | close => simp at hopen
    | single _ hb _ h =>
      obtain ⟨rfl, rfl⟩ := hlo.unique hb
      exact ⟨_, rfl, h⟩
    | range _ hlo' hdash' =>
      obtain ⟨-, rfl⟩ := hlo.unique hlo'
      exact absurd hdash' hdash
  · rintro ⟨more, rfl, h⟩
    exact .single hopen hlo hdash h

theorem members_range {dash : GoString} (hopen : first = true ∨ s.head? ≠ some 93)
    (hlo : Written s lo (45 :: dash)) (hdash : StartsRange (45 :: dash)) (pieces : List Piece)
    (after : GoString) :
    Members first s pieces after ↔ ∃ hi rest more, Written dash hi rest ∧
      pieces = ⟨lo, hi, s, some dash⟩ :: more ∧ Members false rest more after := by
  constructor
  · intro h
    cases h with
    | close => simp at hopen
    | single _ hb hdash' =>
      obtain ⟨-, rfl⟩ := hlo.unique hb
      exact absurd hdash hdash'
    | range _ hlo' _ hhi h =>
      obtain ⟨rfl, hrest⟩ := hlo.unique hlo'
      cases hrest
      exact ⟨_, _, _, hhi, rfl, h⟩
  · rintro ⟨hi, rest, more, hhi, rfl, h⟩
    exact .range hopen hlo hdash hhi h

/-- The first piece starts where the text does. -/
theorem members_head (hopen : first = true ∨ s.head? ≠ some 93) {pieces : List Piece}
    {after : GoString} (h : Members first s pieces after) : ∃ p ∈ pieces, p.lowAt = s := by
  cases h with
  | close => simp at hopen
  | single => exact ⟨_, List.mem_cons_self, rfl⟩
  | range => exact ⟨_, List.mem_cons_self, rfl⟩

/-- What the scanner says about the pieces from here on: those up to the closing bracket, none
of which opens a class at its lower end, or that there is none. It refuses only an expression
with a piece that does. -/
def Scanned (negate : Bool) (b : Option UInt8) (first found : Bool) (s : GoString) :
    Except GlobError (Option (GoString × Bool)) → Prop
  | .error _ => ∀ pieces after, Members first s pieces after → ¬ PlainLow pieces
  | .ok none => ¬ ∃ pieces after, Members first s pieces after
  | .ok (some (after, matched)) => ∃ pieces, Members first s pieces after ∧ PlainLow pieces ∧
      matched = b.any fun x => (found || inPieces pieces x) != negate

theorem Scanned.cons {negate : Bool} {b : Option UInt8} {found : Bool} {p : Piece}
    {r : Except GlobError (Option (GoString × Bool))} (hlow : ¬ OpensClass p.lowAt)
    (hnext : ∀ pieces after, Members first s pieces after ↔
      ∃ more, pieces = p :: more ∧ Members false rest more after)
    (h : Scanned negate b false
      (found || b.any fun x => decide (p.low ≤ x) && decide (x ≤ p.high)) rest r) :
    Scanned negate b first found s r := by
  match r with
  | .error _ =>
    intro pieces after hpieces hplain
    obtain ⟨more, rfl, hmore⟩ := (hnext pieces after).mp hpieces
    exact h more after hmore (List.forall_mem_cons.mp hplain).2
  | .ok none =>
    rintro ⟨pieces, after, hpieces⟩
    obtain ⟨more, -, hmore⟩ := (hnext pieces after).mp hpieces
    exact h ⟨more, after, hmore⟩
  | .ok (some (after, matched)) =>
    obtain ⟨more, hmore, hplain, hmatched⟩ := h
    refine ⟨p :: more, (hnext _ _).mpr ⟨more, rfl, hmore⟩, List.forall_mem_cons.mpr ⟨hlow, hplain⟩, ?_⟩
    rw [hmatched]
    cases b with
    | none => rfl
    | some x => simp [inPieces, Bool.or_assoc]

theorem bracketFrom_spec (negate : Bool) (b : Option UInt8) (n : Nat) :
    ∀ (first found : Bool) (s : GoString), s.length ≤ n →
      Scanned negate b first found s (bracketFrom negate b n first found s) := by
  induction n with
  | zero =>
    intro first found s hs
    obtain rfl : s = [] := List.length_eq_zero_iff.mp (by omega)
    rintro ⟨pieces, after, h⟩
    exact absurd h.length (Nat.not_lt_zero _)
  | succ n ih =>
    intro first found s hs
    cases s with
    | nil =>
      rintro ⟨pieces, after, h⟩
      exact absurd h.length (Nat.not_lt_zero _)
    | cons c rest =>
      unfold bracketFrom
      by_cases hclose : c = 93 ∧ first = false
      · rw [if_pos hclose]
        obtain ⟨rfl, rfl⟩ := hclose
        refine ⟨[], .close rest, by simp [PlainLow], ?_⟩
        cases b <;> simp [inPieces]
      · rw [if_neg hclose]
        have hopen : first = true ∨ (c :: rest).head? ≠ some 93 := by
          cases first with
          | true => exact .inl rfl
          | false => exact .inr fun h => hclose ⟨Option.some.inj h, rfl⟩
        by_cases hclass : c = 91 ∧ (rest.head? = some 58 ∨ rest.head? = some 61 ∨ rest.head? = some 46)
        · rw [if_pos hclass]
          intro pieces after h hplain
          obtain ⟨p, hp, hat⟩ := members_head hopen h
          apply hplain p hp
          rw [hat]
          exact ⟨congrArg some hclass.1, hclass.2⟩
        · rw [if_neg hclass]
          have hlow : ¬ OpensClass (c :: rest) := fun h => hclass ⟨Option.some.inj h.1, h.2⟩
          cases hbyte : bracketByte (c :: rest) with
          | none =>
            rintro ⟨pieces, after, h⟩
            obtain ⟨b, r, hb⟩ := members_open hopen h
            rw [bracketByte_iff.mpr hb] at hbyte
            cases hbyte
          | some found₁ =>
            obtain ⟨lo, r₁⟩ := found₁
            have hlo := bracketByte_iff.mp hbyte
            have hlen := hlo.length
            by_cases hdash : StartsRange r₁
            · obtain ⟨d, more, rfl, hd⟩ := hdash
              have hrange : StartsRange (45 :: d :: more) := ⟨d, more, rfl, hd⟩
              simp only [rangeEnd_range lo hrange]
              cases hhigh : bracketByte (d :: more) with
              | none =>
                rintro ⟨pieces, after, h⟩
                obtain ⟨hi, r, _, hhi, -⟩ := (members_range hopen hlo hrange _ _).mp h
                rw [bracketByte_iff.mpr hhi] at hhigh
                cases hhigh
              | some found₂ =>
                obtain ⟨hi, r₂⟩ := found₂
                have hhi := bracketByte_iff.mp hhigh
                have hlen' := hhi.length
                refine Scanned.cons (p := ⟨lo, hi, c :: rest, some (d :: more)⟩) hlow
                  (fun pieces after => ?_) (ih false _ r₂ (by simp only [List.length_cons] at *; omega))
                rw [members_range hopen hlo hrange]
                constructor
                · rintro ⟨hi', r', more', hhi', hpieces, h⟩
                  obtain ⟨rfl, rfl⟩ := hhi.unique hhi'
                  exact ⟨more', hpieces, h⟩
                · rintro ⟨more', hpieces, h⟩
                  exact ⟨hi, r₂, more', hhi, hpieces, h⟩
            · simp only [rangeEnd_single lo hdash]
              exact Scanned.cons (p := ⟨lo, lo, c :: rest, none⟩) hlow
                (members_single hopen hlo hdash) (ih false _ r₁ (by simp only [List.length_cons] at *; omega))

/-- Where the expression ends, and whether it is evaluated, does not depend on the byte. -/
theorem bracketFrom_shape (negate : Bool) (b b' : Option UInt8) (n : Nat) :
    ∀ (first found found' : Bool) (s : GoString),
      (bracketFrom negate b n first found s).map (Option.map Prod.fst) =
        (bracketFrom negate b' n first found' s).map (Option.map Prod.fst) := by
  induction n with
  | zero => intros; rfl
  | succ n ih =>
    intro first found found' s
    cases s with
    | nil => rfl
    | cons c rest =>
      simp only [bracketFrom]
      split_ifs
      · rfl
      · rfl
      · split
        · rfl
        · split
          · rfl
          · exact ih _ _ _ _

end Scanner

theorem Bracket.unique {s after after' : GoString} {negated negated' : Bool}
    {pieces pieces' : List Piece} (h : Bracket s negated pieces after)
    (h' : Bracket s negated' pieces' after') :
    negated = negated' ∧ pieces = pieces' ∧ after = after' := by
  cases h with
  | negated hc h =>
    cases h' with
    | negated _ h' => exact ⟨rfl, h.unique h'⟩
    | plain hs hs' => rcases hc with rfl | rfl <;> simp_all
  | plain hs hs' h =>
    cases h' with
    | negated hc => rcases hc with rfl | rfl <;> simp_all
    | plain _ _ h' => exact ⟨rfl, h.unique h'⟩

theorem Bracket.length {s after : GoString} {negated : Bool} {pieces : List Piece}
    (h : Bracket s negated pieces after) : after.length < s.length := by
  cases h with
  | negated _ h => exact h.length.trans (by simp)
  | plain _ _ h => exact h.length

/-- `globBracket` evaluates the expression, unless it has no closing bracket or opens a class
where one of its pieces starts. -/
def Evaluated (s : GoString) (b : Option UInt8) :
    Except GlobError (Option (GoString × Bool)) → Prop
  | .error _ => ∀ negated pieces after, Bracket s negated pieces after → ¬ PlainLow pieces
  | .ok none => ¬ Closed s
  | .ok (some (after, matched)) => ∃ negated pieces, Bracket s negated pieces after ∧
      PlainLow pieces ∧ matched = b.any fun x => inPieces pieces x != negated

theorem Scanned.evaluated {s t : GoString} {negate : Bool} {b : Option UInt8}
    {r : Except GlobError (Option (GoString × Bool))}
    (hs : ∀ negated pieces after, Bracket s negated pieces after ↔
      negated = negate ∧ Members true t pieces after)
    (h : Scanned negate b true false t r) : Evaluated s b r := by
  match r with
  | .error _ => exact fun negated pieces after hbracket => h pieces after ((hs _ _ _).mp hbracket).2
  | .ok none =>
    rintro ⟨negated, pieces, after, hbracket⟩
    exact h ⟨pieces, after, ((hs _ _ _).mp hbracket).2⟩
  | .ok (some (after, matched)) =>
    obtain ⟨pieces, hpieces, hplain, hmatched⟩ := h
    exact ⟨negate, pieces, (hs _ _ _).mpr ⟨rfl, hpieces⟩, hplain, by simpa using hmatched⟩

theorem globBracket_spec (s : GoString) (b : Option UInt8) : Evaluated s b (globBracket s b) := by
  unfold globBracket
  split
  · rintro ⟨negated, pieces, after, h⟩
    exact absurd h.length (Nat.not_lt_zero _)
  · rename_i c rest
    split_ifs with hc
    · refine Scanned.evaluated (fun negated pieces after => ?_)
        (bracketFrom_spec true b _ true false rest (by simp))
      constructor
      · intro h
        cases h with
        | negated _ h => exact ⟨rfl, h⟩
        | plain hs hs' => rcases hc with rfl | rfl <;> simp_all
      · rintro ⟨rfl, h⟩
        exact .negated hc h
    · refine Scanned.evaluated (fun negated pieces after => ?_)
        (bracketFrom_spec false b _ true false (c :: rest) le_rfl)
      constructor
      · intro h
        cases h with
        | negated hc' => exact absurd hc' hc
        | plain _ _ h => exact ⟨rfl, h⟩
      · rintro ⟨rfl, h⟩
        exact .plain (fun h => hc (.inl (Option.some.inj h))) (fun h => hc (.inr (Option.some.inj h))) h

theorem globBracket_shape (s : GoString) (b b' : Option UInt8) :
    (globBracket s b).map (Option.map Prod.fst) = (globBracket s b').map (Option.map Prod.fst) := by
  unfold globBracket
  split
  · rfl
  · split_ifs
    · exact bracketFrom_shape true b b' _ _ _ _ _
    · exact bracketFrom_shape false b b' _ _ _ _ _

/-! ## The loop -/

def inBracket (s : GoString) (b : UInt8) : Bool :=
  match globBracket s (some b) with
  | .ok (some (_, matched)) => matched
  | _ => false

/-- What the pattern says next. -/
def globView : GoString → Except GlobError (View GoString UInt8)
  | [] => .ok .done
  | c :: rest =>
    if c = 42 then .ok (.star rest)
    else if c = 63 then .ok (.one (fun _ => true) rest)
    else if c = 91 then
      match globBracket rest none with
      | .error e => .error e
      | .ok none => .ok (.one (· == 91) rest)
      | .ok (some (after, _)) => .ok (.one (inBracket rest) after)
    else if c = 92 then
      match rest with
      | [] => .ok (.one (fun _ => false) [])
      | d :: rest => .ok (.one (· == d) rest)
    else .ok (.one (· == c) rest)

def takeOne (accepts : UInt8 → Bool) (rest : GoString) : GoString → Option (GoString × GoString)
  | [] => none
  | x :: name => if accepts x then some (rest, name) else none

theorem globItem_any (rest name : GoString) :
    globItem (63 :: rest) name = .ok (takeOne (fun _ => true) rest name) := by
  cases name <;> rfl

theorem globItem_open (rest name : GoString) :
    globItem (91 :: rest) name = match globBracket rest name.head? with
      | .error e => .error e
      | .ok none => if name.head? = some 91 then .ok (some (rest, name.tail)) else .ok none
      | .ok (some (rest, true)) => .ok (some (rest, name.tail))
      | .ok (some (_, false)) => .ok none := rfl

theorem globItem_backslash (name : GoString) : globItem [92] name = .ok none := by
  cases name <;> rfl

theorem globItem_escaped (d : UInt8) (rest name : GoString) :
    globItem (92 :: d :: rest) name = .ok (takeOne (· == d) rest name) := by
  cases name with
  | nil => rfl
  | cons x name =>
    change (if x = d then Except.ok (some (rest, name)) else .ok none) = _
    by_cases hx : x = d <;> simp [takeOne, hx]

theorem globItem_literal {c : UInt8} (hany : c ≠ 63) (hopen : c ≠ 91) (hslash : c ≠ 92)
    (rest name : GoString) : globItem (c :: rest) name = .ok (takeOne (· == c) rest name) := by
  unfold globItem
  dsimp only
  rw [if_neg hany, if_neg hopen, if_neg hslash]
  cases name with
  | nil => rfl
  | cons x name => by_cases hx : x = c <;> simp [takeOne, hx]

theorem globItem_bracket (rest name : GoString) :
    globItem (91 :: rest) name = match globBracket rest none with
      | .error e => .error e
      | .ok none => .ok (takeOne (· == 91) rest name)
      | .ok (some (after, _)) => .ok (takeOne (inBracket rest) after name) := by
  rw [globItem_open]
  cases name with
  | nil =>
    have hspec := globBracket_spec rest none
    cases h : globBracket rest none with
    | error e => simp [h]
    | ok r =>
      rw [h] at hspec
      match r with
      | none => simp [h, takeOne]
      | some (after, matched) =>
        obtain ⟨_, _, -, -, rfl⟩ := hspec
        simp [h, takeOne]
  | cons x name =>
    have hshape := globBracket_shape rest none (some x)
    cases h : globBracket rest none with
    | error e =>
      rw [h] at hshape
      cases hx : globBracket rest (some x) with
      | error e' =>
        rw [hx] at hshape
        cases hshape
        simp [hx]
      | ok r' => rw [hx] at hshape; cases hshape
    | ok r =>
      rw [h] at hshape
      cases hx : globBracket rest (some x) with
      | error e' => rw [hx] at hshape; cases hshape
      | ok r' =>
        rw [hx] at hshape
        have hshape' : r.map Prod.fst = r'.map Prod.fst := Except.ok.inj hshape
        match r, r' with
        | none, none =>
          simp only [List.head?_cons, hx, takeOne]
          by_cases hopen : x = 91 <;> simp [hopen]
        | some (after, _), some (after', matched) =>
          obtain rfl : after = after' := Option.some.inj hshape'
          cases matched <;> simp [hx, takeOne, inBracket]

theorem globItem_eq {pattern : GoString} (h : ∀ rest, pattern ≠ 42 :: rest) (name : GoString) :
    globItem pattern name = match globView pattern with
      | .error e => .error e
      | .ok (.one accepts rest) => .ok (takeOne accepts rest name)
      | .ok _ => .ok none := by
  cases pattern with
  | nil => rfl
  | cons c rest =>
    have hstar : c ≠ 42 := fun hc => h rest (hc ▸ rfl)
    by_cases hany : c = 63
    · subst hany
      exact globItem_any rest name
    by_cases hopen : c = 91
    · subst hopen
      rw [globItem_bracket]
      simp only [globView]
      split <;> simp_all
    by_cases hslash : c = 92
    · subst hslash
      cases rest with
      | nil =>
        rw [globItem_backslash]
        cases name <;> rfl
      | cons d rest => exact globItem_escaped d rest name
    · rw [globItem_literal hany hopen hslash]
      simp [globView, hstar, hany, hopen, hslash]

inductive Reading : GoString → View GoString UInt8 → Prop where
  | done : Reading [] .done
  | star (rest : GoString) : Reading (42 :: rest) (.star rest)
  | any (rest : GoString) : Reading (63 :: rest) (.one (fun _ => true) rest)
  | unclosed (rest : GoString) (h : ¬ Closed rest) : Reading (91 :: rest) (.one (· == 91) rest)
  | bracket {rest after : GoString} {negated : Bool} {pieces : List Piece}
      (h : Bracket rest negated pieces after) (hplain : PlainLow pieces)
      (hin : ∀ b, inBracket rest b = (inPieces pieces b != negated)) :
      Reading (91 :: rest) (.one (inBracket rest) after)
  | backslash : Reading [92] (.one (fun _ => false) [])
  | escaped (b : UInt8) (rest : GoString) : Reading (92 :: b :: rest) (.one (· == b) rest)
  | literal (b : UInt8) (rest : GoString) (hb : b ∉ lit "*?[\\") :
      Reading (b :: rest) (.one (· == b) rest)

theorem inBracket_eq {rest after after' : GoString} {negated matched : Bool} {pieces : List Piece}
    (hclosed : globBracket rest none = .ok (some (after', matched)))
    (h : Bracket rest negated pieces after) (b : UInt8) :
    inBracket rest b = (inPieces pieces b != negated) := by
  have hshape := globBracket_shape rest none (some b)
  have hspec := globBracket_spec rest (some b)
  rw [hclosed] at hshape
  unfold inBracket
  cases hb : globBracket rest (some b) with
  | error e => rw [hb] at hshape; cases hshape
  | ok r =>
    rw [hb] at hshape hspec
    match r with
    | none => cases hshape
    | some (after'', matched') =>
      obtain ⟨negated', pieces', hbracket, -, hmatched⟩ := hspec
      obtain ⟨rfl, rfl, -⟩ := h.unique hbracket
      simpa using hmatched

theorem globView_reading {pattern : GoString} {view : View GoString UInt8}
    (h : globView pattern = .ok view) : Reading pattern view := by
  cases pattern with
  | nil =>
    cases h
    exact .done
  | cons c rest =>
    simp only [globView] at h
    by_cases hstar : c = 42
    · rw [if_pos hstar] at h
      cases h
      exact hstar ▸ .star rest
    rw [if_neg hstar] at h
    by_cases hany : c = 63
    · rw [if_pos hany] at h
      cases h
      exact hany ▸ .any rest
    rw [if_neg hany] at h
    by_cases hopen : c = 91
    · rw [if_pos hopen] at h
      subst hopen
      have hspec := globBracket_spec rest none
      cases hr : globBracket rest none with
      | error e => rw [hr] at h; cases h
      | ok r =>
        rw [hr] at h hspec
        match r with
        | none =>
          cases h
          exact .unclosed rest hspec
        | some (after, matched) =>
          cases h
          obtain ⟨negated, pieces, hbracket, hplain, -⟩ := hspec
          exact .bracket hbracket hplain (inBracket_eq hr hbracket)
    rw [if_neg hopen] at h
    by_cases hslash : c = 92
    · rw [if_pos hslash] at h
      subst hslash
      cases rest with
      | nil => cases h; exact .backslash
      | cons b rest => cases h; exact .escaped b rest
    · rw [if_neg hslash] at h
      cases h
      refine .literal c rest ?_
      simp [lit, hstar, hany, hopen, hslash]

theorem globLoop_eq (n : Nat) : ∀ pattern name star,
    globLoop n pattern name star = loop globView n pattern name star := by
  induction n with
  | zero => intros; rfl
  | succ n ih =>
    intro pattern name star
    have hretry : retry (globLoop n) star = retry (loop globView n) star :=
      congrArg (retry · star) (funext fun _ => funext fun _ => funext fun _ => ih _ _ _)
    unfold globLoop
    by_cases hend : pattern = [] ∧ name = []
    · obtain ⟨rfl, rfl⟩ := hend
      rfl
    · rw [if_neg hend]
      split
      · exact ih _ _ _
      · rename_i hstar
        rw [globItem_eq hstar]
        unfold loop
        cases hview : globView pattern with
        | error e => rfl
        | ok view =>
          cases view with
          | done =>
            have hpattern : pattern = [] := by
              cases globView_reading hview
              rfl
            have hname : name.isEmpty = false := by
              cases name with
              | nil => exact absurd ⟨hpattern, rfl⟩ hend
              | cons x name => rfl
            simp only [hname, Bool.false_eq_true, if_false]
            rcases star with _ | ⟨_, _ | ⟨_, _⟩⟩ <;> exact hretry
          | star rest =>
            cases globView_reading hview
            exact (hstar rest rfl).elim
          | one accepts rest =>
            cases name with
            | nil => rcases star with _ | ⟨_, _ | ⟨_, _⟩⟩ <;> exact hretry
            | cons x name =>
              by_cases hx : accepts x = true
              · simp only [takeOne, hx, if_true]
                exact ih _ _ _
              · simp only [takeOne, hx]
                rcases star with _ | ⟨_, _ | ⟨_, _⟩⟩ <;> exact hretry

theorem globView_shrinks : Shrinks globView List.length where
  star h := by
    cases globView_reading h
    simp
  one h := by
    cases globView_reading h with
    | bracket h => exact h.length.trans (by simp)
    | _ => simp

theorem globLoop_ne_none (pattern name : GoString) :
    globLoop (globTurns pattern name) pattern name none ≠ none := by
  rw [globLoop_eq]
  refine globView_shrinks.loop_ne_none _ pattern name none ⟨le_rfl, le_rfl, fun _ _ h => by cases h⟩ ?_
  simp only [turns, globTurns]
  nlinarith

theorem matches_star {A : List Piece → Prop} {rest name : GoString} :
    Matches A (42 :: rest) name ↔ ∃ k ≤ name.length, Matches A rest (name.drop k) := by
  constructor
  · intro h
    cases h with
    | @star _ taken name h => exact ⟨taken.length, by simp, by simpa using h⟩
    | literal _ hb => exact absurd (by decide) hb
  · rintro ⟨k, -, h⟩
    have hstar : Matches A (42 :: rest) (name.take k ++ name.drop k) := .star h
    rwa [List.take_append_drop] at hstar

/-- The relation reads a pattern as the loop does, as long as it has every bracket expression
that the scanner evaluates. -/
theorem matches_reads {A : List Piece → Prop} (hA : ∀ pieces, PlainLow pieces → A pieces) :
    Reads globView (Matches A) where
  done hview name := by
    cases globView_reading hview
    constructor
    · intro h
      cases h
      rfl
    · rintro rfl
      exact .nil
  star hview name := by
    cases globView_reading hview
    exact matches_star
  one hview name := by
    cases globView_reading hview with
    | any rest =>
      constructor
      · intro h
        cases h with
        | any b h => exact ⟨b, _, rfl, rfl, h⟩
        | literal _ hb => exact absurd (by decide) hb
      · rintro ⟨x, t, rfl, -, h⟩
        exact .any x h
    | unclosed rest hopen =>
      constructor
      · intro h
        cases h with
        | bracket hbracket => exact absurd ⟨_, _, _, hbracket⟩ hopen
        | unclosed _ h => exact ⟨91, _, rfl, rfl, h⟩
        | literal _ hb => exact absurd (by decide) hb
      · rintro ⟨x, t, rfl, hx, h⟩
        obtain rfl : x = 91 := by simpa using hx
        exact .unclosed hopen h
    | bracket hbracket hplain hin =>
      constructor
      · intro h
        cases h with
        | bracket hbracket' _ hb h =>
          obtain ⟨rfl, rfl, rfl⟩ := hbracket.unique hbracket'
          exact ⟨_, _, rfl, by simpa [hin] using hb, h⟩
        | unclosed hopen => exact absurd ⟨_, _, _, hbracket⟩ hopen
        | literal _ hb => exact absurd (by decide) hb
      · rintro ⟨x, t, rfl, hx, h⟩
        rw [hin] at hx
        exact .bracket hbracket (hA _ hplain) (by simpa using hx) h
    | backslash =>
      constructor
      · intro h
        cases h with
        | literal _ hb => exact absurd (by decide) hb
      · rintro ⟨x, t, -, hx, -⟩
        cases hx
    | escaped b rest =>
      constructor
      · intro h
        cases h with
        | escaped _ h => exact ⟨b, _, rfl, by simp, h⟩
        | literal _ hb => exact absurd (by decide) hb
      · rintro ⟨x, t, rfl, hx, h⟩
        obtain rfl : x = b := by simpa using hx
        exact .escaped x h
    | literal b rest hb =>
      constructor
      · intro h
        cases h with
        | star => exact absurd (by decide) hb
        | any => exact absurd (by decide) hb
        | bracket => exact absurd (by decide) hb
        | unclosed => exact absurd (by decide) hb
        | escaped => exact absurd (by decide) hb
        | literal _ _ h => exact ⟨b, _, rfl, by simp, h⟩
      · rintro ⟨x, t, rfl, hx, h⟩
        obtain rfl : x = b := by simpa using hx
        exact .literal x hb h

/-- A leading period of the name is matched by a period that the pattern starts with. -/
def PeriodRule (pattern name : GoString) : Prop :=
  name.head? = some 46 → pattern.head? = some 46 ∨ ∃ rest, pattern = 92 :: 46 :: rest

theorem periodRule_iff (pattern name : GoString) :
    (hasPrefix name [46] && !hasPrefix pattern [46] && !hasPrefix pattern [92, 46]) = false ↔
      PeriodRule pattern name := by
  have hhead (s : GoString) : hasPrefix s [46] = true ↔ s.head? = some 46 :=
    (hasPrefix_iff s [46]).trans List.head?_eq_some_iff.symm
  have hescaped : hasPrefix pattern [92, 46] = true ↔ ∃ rest, pattern = 92 :: 46 :: rest :=
    hasPrefix_iff pattern [92, 46]
  unfold PeriodRule
  rw [← hhead, ← hhead, ← hescaped]
  cases hasPrefix name [46] <;> cases hasPrefix pattern [46] <;>
    cases hasPrefix pattern [92, 46] <;> simp

/-- What `globMatch` answers is whether the pattern matches, by bracket expressions of any
collection that has all those it evaluates. -/
theorem globMatch_ok {A : List Piece → Prop} (hA : ∀ pieces, PlainLow pieces → A pieces)
    {pattern name : GoString} {r : Bool} (h : globMatch pattern name = .ok r) :
    r = true ↔ PeriodRule pattern name ∧ Matches A pattern name := by
  have hperiod := periodRule_iff pattern name
  unfold globMatch at h
  cases hrule : (hasPrefix name [46] && !hasPrefix pattern [46] && !hasPrefix pattern [92, 46]) with
  | true =>
    rw [hrule] at h hperiod
    cases h
    simp only [Bool.true_eq_false, false_iff] at hperiod
    simp [hperiod]
  | false =>
    rw [hrule] at h hperiod
    simp only [true_iff] at hperiod
    have hne := globLoop_ne_none pattern name
    obtain ⟨found, hfound⟩ := Option.ne_none_iff_exists'.mp hne
    rw [hfound] at h
    have hr : found = .ok r := h
    rw [hr, globLoop_eq] at hfound
    have hiff := (matches_reads hA).loop_iff _ pattern name none (fun _ _ h => by cases h) hfound
    rw [hiff]
    constructor
    · rintro (hmatch | ⟨rest, s, hnone, -⟩)
      · exact ⟨hperiod, hmatch⟩
      · cases hnone
    · exact fun h => .inl h.2

/-- `globMatch` ends, and its answer is fnmatch's. -/
theorem globMatch_refines_fnmatch (pattern name : GoString) :
    globLoop (globTurns pattern name) pattern name none ≠ none ∧
      ∀ r, globMatch pattern name = .ok r →
        (r = true ↔ PeriodRule pattern name ∧ Matches (fun _ => True) pattern name) :=
  ⟨globLoop_ne_none pattern name, fun _ h => globMatch_ok (fun _ _ => trivial) h⟩

theorem globMatch_refines_fnmatch_range :
    PeriodRule (lit "k*[a-f]") (lit "kube") ∧ Matches (fun _ => True) (lit "k*[a-f]") (lit "kube") :=
  ((globMatch_refines_fnmatch (lit "k*[a-f]") (lit "kube")).2 true (by decide +kernel)).mp rfl

/-! ## Classes -/

/-- Nowhere in the pieces the opening of a class is the upper end of a range. -/
def PlainHigh (pieces : List Piece) : Prop :=
  ∀ p ∈ pieces, ∀ t, p.highAt = some t → ¬ OpensClass t

def ClassFree (pieces : List Piece) : Prop := PlainLow pieces ∧ PlainHigh pieces

/-- The pieces of a bracket expression that the pattern, read item by item, consists of. -/
inductive HasBracket : GoString → List Piece → Prop where
  | here {rest after : GoString} {negated : Bool} {pieces : List Piece}
      (h : Bracket rest negated pieces after) : HasBracket (91 :: rest) pieces
  | behind {rest after : GoString} {negated : Bool} {pieces pieces' : List Piece}
      (hbracket : Bracket rest negated pieces' after) (h : HasBracket after pieces) :
      HasBracket (91 :: rest) pieces
  | unclosed {rest : GoString} {pieces : List Piece} (hopen : ¬ Closed rest)
      (h : HasBracket rest pieces) : HasBracket (91 :: rest) pieces
  | escaped {b : UInt8} {rest : GoString} {pieces : List Piece} (h : HasBracket rest pieces) :
      HasBracket (92 :: b :: rest) pieces
  | other {b : UInt8} {rest : GoString} {pieces : List Piece} (hopen : b ≠ 91) (hslash : b ≠ 92)
      (h : HasBracket rest pieces) : HasBracket (b :: rest) pieces

/-- No range of a bracket expression of the pattern ends with the opening of a class. -/
def PlainRanges (pattern : GoString) : Prop := ∀ pieces, HasBracket pattern pieces → PlainHigh pieces

theorem literal_ne {b : UInt8} (hb : b ∉ lit "*?[\\") : b ≠ 91 ∧ b ≠ 92 := by
  simp only [lit] at hb
  constructor <;> rintro rfl <;> exact hb (by decide)

/-- A match goes through all of the pattern, so it uses each of its bracket expressions. -/
theorem Matches.uses {A : List Piece → Prop} {pattern name : GoString} (h : Matches A pattern name)
    {pieces : List Piece} (hpieces : HasBracket pattern pieces) : A pieces := by
  induction h with
  | nil => cases hpieces
  | star _ ih =>
    cases hpieces with
    | other _ _ hrest => exact ih hrest
  | any b _ ih =>
    cases hpieces with
    | other _ _ hrest => exact ih hrest
  | bracket hbracket hA _ _ ih =>
    cases hpieces with
    | here h =>
      obtain ⟨-, rfl, -⟩ := hbracket.unique h
      exact hA
    | behind h hrest =>
      obtain ⟨-, -, rfl⟩ := hbracket.unique h
      exact ih hrest
    | unclosed hopen => exact absurd ⟨_, _, _, hbracket⟩ hopen
    | other hopen => exact absurd rfl hopen
  | unclosed hopen _ ih =>
    cases hpieces with
    | here h => exact absurd ⟨_, _, _, h⟩ hopen
    | behind h => exact absurd ⟨_, _, _, h⟩ hopen
    | unclosed _ hrest => exact ih hrest
    | other hopen => exact absurd rfl hopen
  | escaped b _ ih =>
    cases hpieces with
    | escaped hrest => exact ih hrest
    | other _ hslash => exact absurd rfl hslash
  | literal b hb _ ih =>
    obtain ⟨hopen, hslash⟩ := literal_ne hb
    cases hpieces with
    | other _ _ hrest => exact ih hrest
    | here => exact absurd rfl hopen
    | behind => exact absurd rfl hopen
    | unclosed => exact absurd rfl hopen
    | escaped => exact absurd rfl hslash

/-- A match of a pattern whose bracket expressions all belong to `B`. -/
theorem Matches.within {A B : List Piece → Prop} {pattern name : GoString}
    (h : Matches A pattern name) (hB : ∀ pieces, HasBracket pattern pieces → A pieces → B pieces) :
    Matches B pattern name := by
  induction h with
  | nil => exact .nil
  | star _ ih => exact .star (ih fun pieces h => hB pieces (.other (by decide) (by decide) h))
  | any b _ ih => exact .any b (ih fun pieces h => hB pieces (.other (by decide) (by decide) h))
  | bracket hbracket hA hb _ ih =>
    exact .bracket hbracket (hB _ (.here hbracket) hA) hb
      (ih fun pieces h => hB pieces (.behind hbracket h))
  | unclosed hopen _ ih => exact .unclosed hopen (ih fun pieces h => hB pieces (.unclosed hopen h))
  | escaped b _ ih => exact .escaped b (ih fun pieces h => hB pieces (.escaped h))
  | literal b hb _ ih =>
    obtain ⟨hopen, hslash⟩ := literal_ne hb
    exact .literal b hb (ih fun pieces h => hB pieces (.other hopen hslash h))

/-- A name that a pattern matches is matched without a class exactly if no range of the pattern
ends with the opening of one. -/
theorem globMatch_classFree {pattern name : GoString} (h : globMatch pattern name = .ok true) :
    Matches ClassFree pattern name ↔ PlainRanges pattern := by
  have hmatch : Matches PlainLow pattern name := ((globMatch_ok (fun _ h => h) h).mp rfl).2
  constructor
  · intro hfree pieces hpieces
    exact (hfree.uses hpieces).2
  · intro hplain
    exact hmatch.within fun pieces hpieces hlow => ⟨hlow, hplain pieces hpieces⟩

/-- An expression that closes is evaluated exactly if no piece of it starts with the opening of
a class. -/
theorem globBracket_evaluates {rest after : GoString} {negated : Bool} {pieces : List Piece}
    (h : Bracket rest negated pieces after) (b : Option UInt8) :
    (∃ matched, globBracket rest b = .ok (some (after, matched))) ↔ PlainLow pieces := by
  have hspec := globBracket_spec rest b
  constructor
  · rintro ⟨matched, heq⟩
    rw [heq] at hspec
    obtain ⟨negated', pieces', hbracket, hlow, -⟩ := hspec
    obtain ⟨-, rfl, -⟩ := h.unique hbracket
    exact hlow
  · intro hlow
    cases hr : globBracket rest b with
    | error e =>
      rw [hr] at hspec
      exact absurd hlow (hspec _ _ _ h)
    | ok r =>
      rw [hr] at hspec
      cases r with
      | none => exact absurd ⟨_, _, _, h⟩ hspec
      | some found =>
        obtain ⟨after', matched⟩ := found
        obtain ⟨negated', pieces', hbracket, -, -⟩ := hspec
        obtain ⟨-, -, rfl⟩ := h.unique hbracket
        exact ⟨matched, rfl⟩

theorem globEntries_matched {dir pattern : GoString} {last : Bool}
    (entries : List (GoString × Node)) : ∀ {out : List GoString},
    globEntries dir pattern last entries = .ok out → ∀ path ∈ out, ∃ name,
      path = pathJoin dir name ∧ globMatch pattern name = .ok true := by
  induction entries with
  | nil =>
    intro out h
    cases h
    simp
  | cons entry entries ih =>
    obtain ⟨name, node⟩ := entry
    intro out h
    simp only [globEntries] at h
    obtain ⟨ok, hmatch, h⟩ := bind_eq_ok h
    cases ok with
    | false => exact ih h
    | true =>
      have hcons {out : List GoString} (h : (do
          let out ← globEntries dir pattern last entries
          Except.ok (pathJoin dir name :: out)) = .ok out) :
          ∀ path ∈ out, ∃ name, path = pathJoin dir name ∧ globMatch pattern name = .ok true := by
        obtain ⟨more, hmore, h⟩ := bind_eq_ok h
        cases h
        exact List.forall_mem_cons.mpr ⟨⟨name, rfl, hmatch⟩, ih hmore⟩
      cases last with
      | true => exact hcons h
      | false =>
        cases node with
        | symlink => cases h
        | dir => exact hcons h
        | file f => exact ih h
        | other => exact ih h

theorem globDir_matched {d : Disk} {dir pattern : GoString} {last : Bool} {out : List GoString}
    (h : globDir d dir pattern last = .ok out) :
    ∀ path ∈ out, ∃ name, path = pathJoin dir name ∧ globMatch pattern name = .ok true := by
  unfold globDir at h
  split_ifs at h
  · exact globEntries_matched _ h
  · split at h
    · cases h
    · cases h
      simp

/-- A bracket expression is never evaluated with the opening of a class in it exactly if it has
none at the upper end of a range, unless it has one elsewhere too. What `globMatch` and `globDir`
find is matched without one exactly if no range of the pattern ends with one. -/
theorem classes_are_refused (pattern rest : GoString) (b : Option UInt8) :
    ((∀ after matched negated pieces, globBracket rest b = .ok (some (after, matched)) →
          Bracket rest negated pieces after → ClassFree pieces) ↔
        ∀ negated pieces after, Bracket rest negated pieces after →
          PlainLow pieces → PlainHigh pieces) ∧
      (∀ name, globMatch pattern name = .ok true →
        (Matches ClassFree pattern name ↔ PlainRanges pattern)) ∧
      ∀ d dir last out, globDir d dir pattern last = .ok out → ∀ path ∈ out, ∃ name,
        path = pathJoin dir name ∧ globMatch pattern name = .ok true ∧
          (Matches ClassFree pattern name ↔ PlainRanges pattern) := by
  refine ⟨⟨fun h negated pieces after hbracket hlow => ?_,
    fun h after matched negated pieces heval hbracket => ?_⟩,
    fun name h => globMatch_classFree h, fun d dir last out h path hpath => ?_⟩
  · obtain ⟨matched, heval⟩ := (globBracket_evaluates hbracket b).mpr hlow
    exact (h after matched negated pieces heval hbracket).2
  · have hlow := (globBracket_evaluates hbracket b).mp ⟨matched, heval⟩
    exact ⟨hlow, h negated pieces after hbracket hlow⟩
  · obtain ⟨name, rfl, hname⟩ := globDir_matched h path hpath
    exact ⟨name, rfl, hname, globMatch_classFree hname⟩

theorem bracket_range : Bracket (lit "a-f]") false [⟨97, 102, lit "a-f]", some (lit "f]")⟩] [] :=
  .plain (by decide) (by decide) (.range (.inl rfl) (.plain 97 (lit "-f]") (by decide))
    ⟨102, lit "]", rfl, by decide⟩ (.plain 102 (lit "]") (by decide)) (.close []))

/-- A pattern with a range. -/
theorem classes_are_refused_range :
    Matches ClassFree (lit "k*[a-f]") (lit "kube") := by
  apply ((classes_are_refused (lit "k*[a-f]") [] none).2.1 (lit "kube") (by decide +kernel)).mpr
  have hhigh {pieces : List Piece} (h : HasBracket (91 :: lit "a-f]") pieces) : PlainHigh pieces := by
    cases h with
    | here h =>
      obtain ⟨-, rfl, -⟩ := bracket_range.unique h
      intro p hp t ht
      rw [List.mem_singleton.mp hp] at ht
      cases ht
      exact fun hopens => absurd hopens.1 (by decide)
    | behind h hrest =>
      obtain ⟨-, -, rfl⟩ := bracket_range.unique h
      cases hrest
    | unclosed hopen => exact absurd ⟨_, _, _, bracket_range⟩ hopen
    | other hopen => exact absurd rfl hopen
  intro pieces h
  cases h with
  | other _ _ h =>
    cases h with
    | other _ _ h => exact hhigh h

/-- In `[a-[:alpha:]]` the opening of the class is read as the upper end of a range, and the
name `l]` is found. -/
theorem class_after_dash_is_evaluated :
    globBracket (lit "a-[:alpha:]]") (some 108) = .ok (some (lit "]", true)) ∧
      globMatch (lit "[a-[:alpha:]]") (lit "l]") = .ok true ∧
      ∃ pieces, Bracket (lit "a-[:alpha:]]") false pieces (lit "]") ∧ ¬ ClassFree pieces := by
  have heval : globBracket (lit "a-[:alpha:]]") (some 108) = .ok (some (lit "]", true)) := by
    decide +kernel
  have hrange : StartsRange (45 :: lit "[:alpha:]]") := ⟨91, lit ":alpha:]]", rfl, by decide⟩
  have hspec := globBracket_spec (lit "a-[:alpha:]]") (some 108)
  rw [heval] at hspec
  obtain ⟨negated, pieces, hbracket, -, -⟩ := hspec
  refine ⟨heval, by decide +kernel, pieces, ?_⟩
  cases hbracket with
  | plain hs hs' hmembers =>
    refine ⟨.plain hs hs' hmembers, fun hfree => ?_⟩
    obtain ⟨hi, r, more, -, rfl, -⟩ := (members_range (s := lit "a-[:alpha:]]") (.inl rfl)
      (.plain 97 (45 :: lit "[:alpha:]]") (by decide)) hrange _ _).mp hmembers
    exact hfree.2 _ List.mem_cons_self _ rfl ⟨rfl, .inl rfl⟩
  | negated hc => exact absurd hc (by decide)

end HarborBridge.Installer
