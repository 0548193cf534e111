import Mathlib.Data.List.Nodup

/-! The first element of each key of a list, in the order of the list. -/
namespace Firsts

variable {α κ : Type} [DecidableEq κ] (key : α → κ)

def firsts : List α → List α
  | [] => []
  | a :: l => a :: (firsts l).filter fun b => decide (key b ≠ key a)

theorem firsts_sublist (l : List α) : (firsts key l).Sublist l := by
  induction l with
  | nil => exact List.Sublist.slnil
  | cons a l ih => exact (List.filter_sublist.trans ih).cons_cons a

theorem mem_of_mem_firsts {l : List α} {a : α} (h : a ∈ firsts key l) : a ∈ l :=
  (firsts_sublist key l).subset h

theorem nodup_firsts (l : List α) : ((firsts key l).map key).Nodup := by
  induction l with
  | nil => exact List.nodup_nil
  | cons a l ih =>
    rw [firsts, List.map_cons, List.nodup_cons]
    refine ⟨fun hmem => ?_, ih.sublist (List.filter_sublist.map key)⟩
    obtain ⟨b, hb, hkey⟩ := List.mem_map.mp hmem
    have hne := (List.mem_filter.mp hb).2
    rw [decide_eq_true_eq] at hne
    exact hne hkey

/-- Every key of the list is the key of some element that stays. -/
theorem exists_firsts {l : List α} {a : α} (h : a ∈ l) : ∃ b ∈ firsts key l, key b = key a := by
  induction l with
  | nil => cases h
  | cons c l ih =>
    by_cases hkey : key a = key c
    · exact ⟨c, List.mem_cons_self, hkey.symm⟩
    · rcases List.mem_cons.mp h with rfl | h
      · exact absurd rfl hkey
      · obtain ⟨b, hb, hba⟩ := ih h
        refine ⟨b, List.mem_cons_of_mem c (List.mem_filter.mpr ⟨hb, ?_⟩), hba⟩
        rw [decide_eq_true_eq, hba]
        exact hkey

theorem firsts_of_nodup {l : List α} (h : (l.map key).Nodup) : firsts key l = l := by
  induction l with
  | nil => rfl
  | cons a l ih =>
    rw [List.map_cons, List.nodup_cons] at h
    rw [firsts, ih h.2, List.filter_eq_self.mpr]
    intro b hb
    rw [decide_eq_true_eq]
    exact fun hkey => h.1 (List.mem_map.mpr ⟨b, hb, hkey⟩)

/-- Removing whole keys before or after makes no difference. -/
theorem firsts_filter (p : κ → Bool) (l : List α) :
    firsts key (l.filter fun a => p (key a)) = (firsts key l).filter fun a => p (key a) := by
  induction l with
  | nil => rfl
  | cons a l ih =>
    rw [firsts]
    rw [List.filter_cons, List.filter_cons]
    by_cases hp : p (key a) = true
    · rw [if_pos hp, if_pos hp, firsts, ih, List.filter_filter, List.filter_filter]
      simp only [Bool.and_comm]
    · rw [if_neg hp, if_neg hp, ih, List.filter_filter]
      refine List.filter_congr fun b _ => ?_
      -- an element that stays does not have the key of `a`
      by_cases hkey : key b = key a
      · rw [hkey]
        simp [hp]
      · simp [hkey]

/-- An element with a new key stays where it is. -/
theorem firsts_append_fresh {l : List α} {a : α} (h : key a ∉ l.map key) (m : List α) :
    ∃ rest, firsts key (l ++ a :: m) = firsts key l ++ a :: rest := by
  induction l with
  | nil => exact ⟨_, rfl⟩
  | cons b l ih =>
    rw [List.map_cons, List.mem_cons, not_or] at h
    obtain ⟨rest, hrest⟩ := ih h.2
    refine ⟨rest.filter fun c => decide (key c ≠ key b), ?_⟩
    rw [List.cons_append, firsts, hrest, List.filter_append, List.filter_cons_of_pos (by simpa using h.1), firsts,
      List.cons_append]

/-- Where the keys differ, a key has one element. -/
theorem filter_key_of_nodup {l : List α} (h : (l.map key).Nodup) {a : α} (ha : a ∈ l) :
    l.filter (fun b => decide (key b = key a)) = [a] := by
  induction l with
  | nil => cases ha
  | cons c l ih =>
    rw [List.map_cons, List.nodup_cons] at h
    rcases List.mem_cons.mp ha with rfl | ha
    · rw [List.filter_cons_of_pos (by simp), List.filter_eq_nil_iff.mpr]
      intro b hb hkey
      rw [decide_eq_true_eq] at hkey
      exact h.1 (hkey ▸ List.mem_map_of_mem hb)
    · rw [List.filter_cons_of_neg, ih h.2 ha]
      intro hkey
      rw [decide_eq_true_eq] at hkey
      exact h.1 (hkey ▸ List.mem_map_of_mem ha)

end Firsts
