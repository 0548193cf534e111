import Mathlib.Data.List.Basic

/-! An object whose versions are written under an optimistic lock, and a reader who may lag
behind but never goes back. -/
namespace Versions

variable {α : Type}

/-- The object as it is now, and the older versions that the reader may still be shown, the
newest first. None stands for an object that does not exist. -/
structure History (α : Type) where
  live : Option α
  older : List (Option α)

namespace History

/-- The reader may be shown the version. -/
def Visible (h : History α) (v : α) : Prop := h.live = some v ∨ some v ∈ h.older

def publish (h : History α) (v : Option α) : History α := ⟨v, h.live :: h.older⟩

/-- The reader is shown a version, and from then on none that is older. -/
inductive Observes (h : History α) : Option α → History α → Prop where
  | newest : Observes h h.live ⟨h.live, []⟩
  | older (newer rest : List (Option α)) (v : Option α) (hold : h.older = newer ++ v :: rest) :
      Observes h v ⟨h.live, newer ++ [v]⟩

theorem Observes.live {h h' : History α} {v : Option α} (ho : h.Observes v h') :
    h'.live = h.live := by
  cases ho <;> rfl

theorem Observes.older_subset {h h' : History α} {v : Option α} (ho : h.Observes v h') :
    h'.older ⊆ h.older := by
  cases ho with
  | newest => exact List.nil_subset _
  | older newer rest v hold =>
    intro x hx
    rw [hold]
    rcases List.mem_append.mp hx with hx | hx
    · exact List.mem_append_left _ hx
    · apply List.mem_append_right
      rw [List.mem_singleton.mp hx]
      exact List.mem_cons_self

theorem Observes.visible {h h' : History α} {v : Option α} (ho : h.Observes v h') {x : α}
    (hx : h'.Visible x) : h.Visible x := by
  rcases hx with hx | hx
  · exact .inl (ho.live.symm.trans hx)
  · exact .inr (ho.older_subset hx)

theorem Observes.visible_self {h h' : History α} {x : α} (ho : h.Observes (some x) h') :
    h.Visible x := by
  generalize hv : some x = v at ho
  cases ho with
  | newest => exact .inl hv.symm
  | older newer rest v hold =>
    right
    rw [hold, hv]
    exact List.mem_append_right _ List.mem_cons_self

theorem visible_publish {h : History α} {v : Option α} {x : α} :
    (h.publish v).Visible x ↔ v = some x ∨ h.Visible x := by
  unfold Visible publish
  rw [List.mem_cons, eq_comm (a := some x) (b := h.live)]

section Lock

variable (version : α → Nat) (Same : α → α → Prop)

def Ordered (h : History α) : Prop :=
  ∀ v l, some v ∈ h.older → h.live = some l → version v < version l

/-- If the object still has the version of the copy, then it is the copy, and the versions
before agree with it. This is what a write under the lock goes by. -/
def Current (h : History α) (copy : α) : Prop :=
  ∀ l, h.live = some l → version l = version copy → l = copy ∧ ∀ v, some v ∈ h.older → Same v copy

variable {version Same}

theorem Observes.ordered {h h' : History α} {v : Option α} (ho : h.Observes v h')
    (h₀ : h.Ordered version) : h'.Ordered version := by
  intro x l hx hl
  exact h₀ x l (ho.older_subset hx) (ho.live.symm.trans hl)

theorem Ordered.publish {h : History α} {v : Option α}
    (hv : ∀ x, h.Visible x → ∀ l, v = some l → version x < version l) :
    (h.publish v).Ordered version := by
  intro x l hx hl
  refine hv x ?_ l hl
  rcases List.mem_cons.mp hx with hx | hx
  · exact .inl hx.symm
  · exact .inr hx

/-- A copy that was just read: either it is the object, and all older versions are out of
sight, or the object has moved on. -/
theorem Observes.current {h h' : History α} {copy : α} (ho : h.Observes (some copy) h')
    (h₀ : h.Ordered version) : h'.Current version Same copy := by
  generalize hv : some copy = v at ho
  cases ho with
  | newest =>
    intro l hl _
    refine ⟨?_, fun x hx => absurd hx List.not_mem_nil⟩
    exact Option.some.inj (hl.symm.trans hv.symm)
  | older newer rest v hold =>
    intro l hl heq
    have hlt : version copy < version l := by
      apply h₀ copy l _ hl
      rw [hold, hv]
      exact List.mem_append_right _ List.mem_cons_self
    omega

/-- A write under the lock leaves a current copy. -/
theorem Current.publish_same {h : History α} {copy l new : α} (hc : h.Current version Same copy)
    (hl : h.live = some l) (hlock : version l = version copy) (hnew : Same copy new)
    (htrans : ∀ v, Same v copy → Same v new) :
    (h.publish (some new)).Current version Same new := by
  obtain ⟨rfl, holder⟩ := hc l hl hlock
  intro l' hl' _
  refine ⟨(Option.some.inj hl').symm, fun v hv => ?_⟩
  rcases List.mem_cons.mp hv with hv | hv
  · rw [hl] at hv
    exact Option.some.inj hv ▸ hnew
  · exact htrans v (holder v hv)

/-- After any other write, the lock fails. -/
theorem Current.publish_other {h : History α} {copy : α} {v : Option α}
    (hv : ∀ l, v = some l → version l ≠ version copy) :
    (h.publish v).Current version Same copy :=
  fun l hl heq => absurd heq (hv l hl)

end Lock

end History

end Versions
