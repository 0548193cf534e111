import Mathlib.Data.Nat.Basic
import Mathlib.Tactic.Ring
import Mathlib.Tactic.Linarith

/-!
# Wildcard matching

A pattern is read item by item: it is at its end, or a star comes next, which stands for any
text, or an item that stands for one character. The loop keeps the last star only, and lets it
take one more character after each mismatch. It finds a match whenever there is one: an item
takes exactly one character, so what an earlier star could take the last one can take instead.
-/

namespace Wildcard

inductive View (P β : Type*) where
  | done
  | star (rest : P)
  | one (accepts : β → Bool) (rest : P)

variable {P β ε : Type*} (view : P → Except ε (View P β))

/-- After a mismatch: the last star takes one more character, if it can. -/
def retry (loop : P → List β → Option (P × List β) → Option (Except ε Bool)) :
    Option (P × List β) → Option (Except ε Bool)
  | some (rest, _ :: s) => loop rest s (some (rest, s))
  | _ => some (.ok false)

/-- The loop, for `n` turns. `star` is the pattern after the last star and the text from where
that star stopped. -/
def loop : (n : Nat) → P → List β → (star : Option (P × List β)) → Option (Except ε Bool)
  | 0, _, _, _ => none
  | n + 1, p, s, star =>
    match view p with
    | .error e => some (.error e)
    | .ok .done => if s.isEmpty then some (.ok true) else retry (loop n) star
    | .ok (.star rest) => loop n rest s (some (rest, s))
    | .ok (.one accepts rest) =>
      match s with
      | [] => retry (loop n) star
      | x :: s => if accepts x then loop n rest s star else retry (loop n) star

/-- The relation `M` reads a pattern as `view` does, where that gives no error. -/
structure Reads (M : P → List β → Prop) : Prop where
  done : ∀ {p}, view p = .ok .done → ∀ s, M p s ↔ s = []
  star : ∀ {p rest}, view p = .ok (.star rest) →
    ∀ s, M p s ↔ ∃ k ≤ s.length, M rest (s.drop k)
  one : ∀ {p accepts rest}, view p = .ok (.one accepts rest) →
    ∀ s, M p s ↔ ∃ x t, s = x :: t ∧ accepts x = true ∧ M rest t

variable {M : P → List β → Prop}

/-- The last star can still take more, and then the rest of the pattern matches. -/
def Later (M : P → List β → Prop) (star : Option (P × List β)) : Prop :=
  ∃ rest s, star = some (rest, s) ∧ ∃ k < s.length, M rest (s.drop (k + 1))

/-- From the last star on, items have taken `m` characters; any text that matches from the
star on starts with `m` characters that they take. -/
def Reached (M : P → List β → Prop) (star : Option (P × List β)) (p : P) (s : List β) : Prop :=
  ∀ rest t, star = some (rest, t) → ∃ m ≤ t.length, s = t.drop m ∧
    ∀ y, M rest y → m ≤ y.length ∧ M p (y.drop m)

theorem later_some {rest : P} {s : List β} :
    Later M (some (rest, s)) ↔ ∃ k < s.length, M rest (s.drop (k + 1)) := by
  constructor
  · rintro ⟨_, _, h, hk⟩
    cases h
    exact hk
  · exact fun h => ⟨rest, s, rfl, h⟩

theorem later_cons {rest : P} {x : β} {s : List β} :
    Later M (some (rest, x :: s)) ↔ M rest s ∨ Later M (some (rest, s)) := by
  rw [later_some, later_some]
  constructor
  · rintro ⟨k, hk, h⟩
    cases k with
    | zero => exact .inl (by simpa using h)
    | succ k => exact .inr ⟨k, by simpa using hk, by simpa using h⟩
  · rintro (h | ⟨k, hk, h⟩)
    · exact ⟨0, by simp, by simpa using h⟩
    · exact ⟨k + 1, by simpa using hk, by simpa using h⟩

theorem reached_star (rest : P) (s : List β) : Reached M (some (rest, s)) rest s := by
  intro _ _ h
  cases h
  exact ⟨0, Nat.zero_le _, rfl, fun y hy => ⟨Nat.zero_le _, hy⟩⟩

variable {view}

/-- What a mismatch leaves: the last star taking more. -/
theorem retry_iff {n : Nat} {star : Option (P × List β)} {r : Bool}
    (ih : ∀ p s star, Reached M star p s → loop view n p s star = some (.ok r) →
      (r = true ↔ M p s ∨ Later M star))
    (h : retry (loop view n) star = some (.ok r)) : r = true ↔ Later M star := by
  unfold retry at h
  split at h
  · rename_i rest x s
    rw [later_cons]
    exact ih rest s (some (rest, s)) (reached_star rest s) h
  · rename_i hnone
    cases h
    simp only [Bool.false_eq_true, false_iff]
    rintro ⟨rest, s, rfl, k, hk, -⟩
    cases s with
    | nil => exact Nat.not_lt_zero k hk
    | cons x s => exact hnone rest x s rfl

variable (hM : Reads view M)

include hM

/-- A new star takes over from the last one: what matches with more taken by the last one
matches with more taken by the new one. -/
theorem Reads.star_of_later {p rest : P} {s : List β} {star : Option (P × List β)}
    (hview : view p = .ok (.star rest)) (hreached : Reached M star p s) (h : Later M star) :
    M p s := by
  obtain ⟨rest', t, rfl, k, hk, hmatch⟩ := h
  obtain ⟨m, hm, rfl, hprefixed⟩ := hreached rest' t rfl
  obtain ⟨hlen, hrest⟩ := hprefixed _ hmatch
  obtain ⟨j, hj, hend⟩ := (hM.star hview _).mp hrest
  rw [List.length_drop] at hlen hj
  rw [List.length_drop] at hj
  rw [List.drop_drop, List.drop_drop] at hend
  refine (hM.star hview _).mpr ⟨k + 1 + j, by rw [List.length_drop]; omega, ?_⟩
  rw [List.drop_drop]
  convert hend using 2
  omega

theorem Reads.reached_one {p rest : P} {accepts : β → Bool} {x : β} {s : List β}
    {star : Option (P × List β)} (hview : view p = .ok (.one accepts rest))
    (hreached : Reached M star p (x :: s)) : Reached M star rest s := by
  intro rest' t hstar
  obtain ⟨m, hm, hdrop, hprefixed⟩ := hreached rest' t hstar
  have hlong : m < t.length := by
    by_contra hge
    rw [List.drop_eq_nil_of_le (by omega)] at hdrop
    cases hdrop
  refine ⟨m + 1, hlong, ?_, fun y hy => ?_⟩
  · have htail := congrArg List.tail hdrop
    rwa [List.tail_cons, List.tail_drop] at htail
  · obtain ⟨hlen, hp⟩ := hprefixed y hy
    obtain ⟨z, u, hz, -, hu⟩ := (hM.one hview _).mp hp
    have hlong : m < y.length := by
      by_contra hge
      rw [List.drop_eq_nil_of_le (by omega)] at hz
      cases hz
    refine ⟨hlong, ?_⟩
    have htail := congrArg List.tail hz
    rw [List.tail_cons, List.tail_drop] at htail
    rwa [htail]

/-- What the loop returns without an error is whether the text matches, as it is or with more
taken by the last star. -/
theorem Reads.loop_iff {r : Bool} (n : Nat) : ∀ p s star, Reached M star p s →
    loop view n p s star = some (.ok r) → (r = true ↔ M p s ∨ Later M star) := by
  induction n with
  | zero => intro p s star _ h; cases h
  | succ n ih =>
    intro p s star hreached h
    unfold loop at h
    split at h
    · cases h
    · rename_i hview
      have hdone := hM.done hview s
      cases s with
      | nil =>
        cases h
        exact ⟨fun _ => .inl (hdone.mpr rfl), fun _ => rfl⟩
      | cons x s =>
        rw [retry_iff ih h, hdone]
        simp
    · rename_i rest hview
      rw [ih rest s _ (reached_star rest s) h, hM.star hview]
      constructor
      · rintro (hmatch | hmatch)
        · exact .inl ⟨0, Nat.zero_le _, hmatch⟩
        · obtain ⟨k, hk, hmatch⟩ := later_some.mp hmatch
          exact .inl ⟨k + 1, hk, hmatch⟩
      · intro hmatch
        have hp : M p s := hmatch.elim (hM.star hview s).mpr (hM.star_of_later hview hreached)
        obtain ⟨k, hk, hmatch⟩ := (hM.star hview s).mp hp
        cases k with
        | zero => exact .inl hmatch
        | succ k => exact .inr (later_some.mpr ⟨k, hk, hmatch⟩)
    · rename_i accepts rest hview
      have hone := hM.one hview s
      cases s with
      | nil =>
        rw [retry_iff ih h, hone]
        simp
      | cons x s =>
        dsimp only at h
        by_cases hx : accepts x = true
        · rw [if_pos hx] at h
          rw [ih rest s star (hM.reached_one hview hreached) h, hone]
          simp [hx]
        · rw [if_neg hx] at h
          rw [retry_iff ih h, hone]
          simp [hx]

omit hM

/-! ## How many turns it takes -/

/-- A bound on the turns that are left: each turn that does not read an item reads a star,
after which less of the pattern is left behind a star, or lets the last star take more. -/
def turns (size : P → Nat) (a b : Nat) (p : P) : Option (P × List β) → Nat
  | none => (a + 1) * ((b + 2) * (a + 2)) + size p
  | some (rest, t) => size rest * ((b + 2) * (a + 2)) + t.length * (a + 2) + size p

structure Bounded (size : P → Nat) (a b : Nat) (p : P) (s : List β)
    (star : Option (P × List β)) : Prop where
  pattern : size p ≤ a
  text : s.length ≤ b
  star : ∀ rest t, star = some (rest, t) → size p ≤ size rest ∧ size rest ≤ a ∧ t.length ≤ b

structure Shrinks (view : P → Except ε (View P β)) (size : P → Nat) : Prop where
  star : ∀ {p rest}, view p = .ok (.star rest) → size rest < size p
  one : ∀ {p accepts rest}, view p = .ok (.one accepts rest) → size rest < size p

variable {size : P → Nat} {a b : Nat}

theorem turns_star {p rest : P} {s : List β} {star : Option (P × List β)}
    (h : Bounded size a b p s star) (hrest : size rest < size p) :
    turns size a b rest (some (rest, s)) < turns size a b p star := by
  have hw : s.length * (a + 2) + size rest < (b + 2) * (a + 2) := by
    have htext := Nat.mul_le_mul_right (a + 2) h.text
    have hpattern := h.pattern
    calc s.length * (a + 2) + size rest < b * (a + 2) + (a + 2) := by omega
      _ ≤ (b + 2) * (a + 2) := by nlinarith
  have hpart : size rest * ((b + 2) * (a + 2)) + (b + 2) * (a + 2) ≤
      size p * ((b + 2) * (a + 2)) := by
    calc size rest * ((b + 2) * (a + 2)) + (b + 2) * (a + 2)
        = (size rest + 1) * ((b + 2) * (a + 2)) := by ring
      _ ≤ size p * ((b + 2) * (a + 2)) := Nat.mul_le_mul_right _ hrest
  have hold : size p * ((b + 2) * (a + 2)) ≤ turns size a b p star := by
    cases star with
    | none =>
      have := Nat.mul_le_mul_right ((b + 2) * (a + 2)) (h.pattern.trans (Nat.le_add_right a 1))
      simp only [turns]
      omega
    | some found =>
      obtain ⟨sp, t⟩ := found
      have := Nat.mul_le_mul_right ((b + 2) * (a + 2)) (h.star sp t rfl).1
      simp only [turns]
      omega
  simp only [turns] at hold ⊢
  omega

theorem turns_one (a b : Nat) (star : Option (P × List β)) {p rest : P}
    (hrest : size rest < size p) :
    turns size a b rest star < turns size a b p star := by
  cases star with
  | none => exact Nat.add_lt_add_left hrest _
  | some found => exact Nat.add_lt_add_left hrest _

theorem turns_retry (b : Nat) (p : P) {rest : P} (x : β) (s : List β) (hrest : size rest ≤ a) :
    turns size a b rest (some (rest, s)) < turns size a b p (some (rest, x :: s)) := by
  simp only [turns, List.length_cons, Nat.add_mul]
  omega

theorem retry_ne_none {n : Nat} {p : P} {s : List β} {star : Option (P × List β)}
    (h : Bounded size a b p s star)
    (ih : ∀ p s star, Bounded size a b p s star → turns size a b p star < n →
      loop view n p s star ≠ none)
    (hn : turns size a b p star < n + 1) : retry (loop view n) star ≠ none := by
  unfold retry
  split
  · rename_i rest x t
    obtain ⟨-, hrest, ht⟩ := h.star rest (x :: t) rfl
    have ht' : t.length ≤ b := (Nat.le_succ _).trans ht
    have hturn := turns_retry b p x t hrest
    refine ih rest t _ ⟨hrest, ht', fun _ _ heq => ?_⟩ (by omega)
    cases heq
    exact ⟨le_rfl, hrest, ht'⟩
  · exact Option.some_ne_none _

/-- With that many turns the loop ends. -/
theorem Shrinks.loop_ne_none (hview : Shrinks view size) (n : Nat) : ∀ p s star,
    Bounded size a b p s star → turns size a b p star < n → loop view n p s star ≠ none := by
  induction n with
  | zero => intro p s star _ hn; exact absurd hn (Nat.not_lt_zero _)
  | succ n ih =>
    intro p s star h hn
    unfold loop
    split
    · exact Option.some_ne_none _
    · split_ifs
      · exact Option.some_ne_none _
      · exact retry_ne_none h ih hn
    · rename_i rest hp
      have hrest := hview.star hp
      have hturn := turns_star h hrest
      have ha : size rest ≤ a := hrest.le.trans h.pattern
      refine ih rest s _ ⟨ha, h.text, fun _ _ heq => ?_⟩ (by omega)
      cases heq
      exact ⟨le_rfl, ha, h.text⟩
    · rename_i accepts rest hp
      split
      · exact retry_ne_none h ih hn
      · split_ifs
        · have hrest := hview.one hp
          have hturn := turns_one a b star hrest
          refine ih rest _ star ⟨hrest.le.trans h.pattern, (Nat.le_succ _).trans h.text,
            fun sp t hsp => ?_⟩ (by omega)
          obtain ⟨hp, hrest'⟩ := h.star sp t hsp
          exact ⟨hrest.le.trans hp, hrest'⟩
        · exact retry_ne_none h ih hn

end Wildcard
