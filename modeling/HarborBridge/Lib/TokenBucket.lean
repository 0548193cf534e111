import Mathlib.Algebra.Order.Ring.Cast
import Mathlib.Tactic.SplitIfs

/-!
# Token buckets

A bucket holds at most `burst` tokens, gains `rate` tokens for each unit of time and gives
one away for each request it allows. Time is an integer; what a bucket holds is an element of
an ordered ring. What a bucket decides from a time on depends only on what it holds from
then on, which is what `Alike` compares.
-/

namespace TokenBucket

/-- The rate, none for a bucket that never runs dry, and the capacity. -/
structure Shape (K : Type*) where
  rate : Option K
  burst : K

/-- What the bucket held when it last gave a token away, and when that was. -/
structure Bucket (K : Type*) where
  tokens : K
  last : Int

variable {K : Type*} [Ring K] [LinearOrder K]

namespace Shape

variable (s : Shape K)

def full : Bucket K := ⟨s.burst, 0⟩

def level (b : Bucket K) (t : Int) : K :=
  match s.rate with
  | none => s.burst
  | some r => min s.burst (b.tokens + r * ((t - min b.last t : Int) : K))

def take (b : Bucket K) (t : Int) : Bool × Bucket K :=
  if 1 ≤ s.level b t then (true, ⟨s.level b t - 1, t⟩) else (false, b)

def after (b : Bucket K) (ts : List Int) : Bucket K := ts.foldl (fun b t => (s.take b t).2) b

def run (b : Bucket K) : List Int → List Bool
  | [] => []
  | t :: ts => (s.take b t).1 :: run (s.take b t).2 ts

def Alike (t : Int) (a b : Bucket K) : Prop := ∀ u, t ≤ u → s.level a u = s.level b u

def Gains : Prop := ∀ r, s.rate = some r → 0 ≤ r

variable {s}

theorem run_append (b : Bucket K) (ts us : List Int) :
    s.run b (ts ++ us) = s.run b ts ++ s.run (s.after b ts) us := by
  induction ts generalizing b with
  | nil => rfl
  | cons t ts ih => exact congrArg _ (ih (s.take b t).2)

@[simp] theorem length_run (b : Bucket K) (ts : List Int) : (s.run b ts).length = ts.length := by
  induction ts generalizing b with
  | nil => rfl
  | cons t ts ih => exact congrArg _ (ih (s.take b t).2)

theorem Alike.later {t u : Int} {a b : Bucket K} (h : s.Alike t a b) (hu : t ≤ u) :
    s.Alike u a b :=
  fun v hv => h v (hu.trans hv)

/-- Buckets that hold the same decide alike, and hold the same afterwards. -/
theorem Alike.take {t : Int} {a b : Bucket K} (h : s.Alike t a b) :
    (s.take a t).1 = (s.take b t).1 ∧ s.Alike t (s.take a t).2 (s.take b t).2 := by
  have hnow := h t le_rfl
  unfold Shape.take
  rw [hnow]
  split
  · exact ⟨rfl, fun _ _ => rfl⟩
  · exact ⟨rfl, h⟩

variable [IsStrictOrderedRing K]

theorem level_full (hs : s.Gains) (t : Int) : s.level s.full t = s.burst := by
  unfold level full
  cases hr : s.rate with
  | none => rfl
  | some r =>
    have hr0 := hs r hr
    have helapsed : (0 : K) ≤ ((t - min 0 t : Int) : K) := by
      exact_mod_cast Int.sub_nonneg_of_le (min_le_right 0 t)
    exact min_eq_left (le_add_of_nonneg_right (mul_nonneg hr0 helapsed))

/-- A bucket left alone for as long as it takes to fill from empty is full. -/
theorem level_of_idle {b : Bucket K} {since t : Int} (htokens : 0 ≤ b.tokens)
    (hlast : b.last ≤ since)
    (hfill : ∀ r, s.rate = some r → 0 ≤ r ∧ s.burst ≤ r * ((t - since : Int) : K)) :
    s.level b t = s.burst := by
  unfold level
  cases hr : s.rate with
  | none => rfl
  | some r =>
    obtain ⟨hr0, hfull⟩ := hfill r hr
    have helapsed : ((t - since : Int) : K) ≤ ((t - min b.last t : Int) : K) := by
      exact_mod_cast Int.sub_le_sub_left ((min_le_left _ _).trans hlast) t
    apply min_eq_left
    calc s.burst ≤ r * ((t - since : Int) : K) := hfull
      _ ≤ r * ((t - min b.last t : Int) : K) := mul_le_mul_of_nonneg_left helapsed hr0
      _ ≤ b.tokens + r * ((t - min b.last t : Int) : K) := le_add_of_nonneg_left htokens

/-- What a request leaves in the bucket is not negative, and not taken later than the
request. -/
theorem take_sound {b : Bucket K} {t : Int}
    (h : 1 ≤ s.level b t ∨ 0 ≤ b.tokens ∧ b.last ≤ t) :
    0 ≤ (s.take b t).2.tokens ∧ (s.take b t).2.last ≤ t := by
  unfold take
  split_ifs with hlevel
  · exact ⟨sub_nonneg.mpr hlevel, le_rfl⟩
  · exact h.resolve_left hlevel

/-! ## Requests at one moment -/

section Moment

variable {r : K} (hr : s.rate = some r) {b : Bucket K} {t : Int}

include hr

omit [IsStrictOrderedRing K] in
theorem level_now (x : K) : s.level ⟨x, t⟩ t = min s.burst x := by
  simp [level, hr]

theorem level_take (h : 1 ≤ s.level b t) : s.level (s.take b t).2 t = s.level b t - 1 := by
  have hburst : s.level b t ≤ s.burst := by
    simp only [level, hr]
    exact min_le_left _ _
  rw [take, if_pos h, level_now hr]
  exact min_eq_right ((sub_le_self _ zero_le_one).trans hburst)

/-- As many requests are allowed as the bucket holds tokens. -/
theorem run_replicate (n : Nat) : ∀ {b : Bucket K}, 0 ≤ s.level b t →
    (s.run b (List.replicate n t) = List.replicate n true ↔ (n : K) ≤ s.level b t) := by
  induction n with
  | zero =>
    intro b hb
    simpa [run] using hb
  | succ n ih =>
    intro b hb
    rw [List.replicate_succ, List.replicate_succ, run, List.cons.injEq, Nat.cast_succ]
    by_cases hone : 1 ≤ s.level b t
    · have hleft := level_take hr hone
      have htrue : (s.take b t).1 = true := by rw [take, if_pos hone]
      rw [ih (by rw [hleft]; exact sub_nonneg.mpr hone), hleft, le_sub_iff_add_le]
      exact and_iff_right htrue
    · have hfalse : (s.take b t).1 = false := by rw [take, if_neg hone]
      have hmany : ¬ (n : K) + 1 ≤ s.level b t := fun h =>
        hone ((le_add_of_nonneg_left n.cast_nonneg).trans h)
      simp [hfalse, hmany]

theorem after_replicate (n : Nat) : ∀ {b : Bucket K}, ((n + 1 : Nat) : K) ≤ s.level b t →
    s.after b (List.replicate (n + 1) t) = ⟨s.level b t - (n + 1 : Nat), t⟩ := by
  induction n with
  | zero =>
    intro b hb
    have hone : 1 ≤ s.level b t := by simpa using hb
    simp [after, take, hone]
  | succ n ih =>
    intro b hb
    rw [Nat.cast_succ] at hb
    have hone : 1 ≤ s.level b t := (le_add_of_nonneg_left (Nat.cast_nonneg _)).trans hb
    have hleft := level_take hr hone
    have hrest := ih (b := (s.take b t).2) (by rw [hleft]; exact le_sub_iff_add_le.mpr hb)
    rw [List.replicate_succ]
    change s.after (s.take b t).2 (List.replicate (n + 1) t) = _
    rw [hrest, hleft, Nat.cast_succ (n + 1), sub_sub, add_comm (1 : K)]

end Moment

end Shape

end TokenBucket
