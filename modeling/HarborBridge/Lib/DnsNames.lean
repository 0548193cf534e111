import HarborBridge.Lib.GoStrings

/-! The names that Kubernetes gives to objects. -/
namespace DnsNames

open GoStrings

/-- A lower-case ASCII letter or a digit. -/
def alnum (b : UInt8) : Bool := (97 ≤ b && b ≤ 122) || (48 ≤ b && b ≤ 57)

/-- The pattern `^[a-z0-9]([-a-z0-9]*[a-z0-9])?$`. -/
structure DnsLabel (s : GoString) : Prop where
  chars : ∀ b ∈ s, alnum b = true ∨ b = 45
  first : s.head?.any alnum = true
  last : s.getLast?.any alnum = true

instance (s : GoString) : Decidable (DnsLabel s) :=
  have := List.decidableBAll (fun b => alnum b = true ∨ b = 45) s
  decidable_of_iff ((∀ b ∈ s, alnum b = true ∨ b = 45) ∧ s.head?.any alnum = true ∧
      s.getLast?.any alnum = true)
    ⟨fun h => ⟨h.1, h.2.1, h.2.2⟩, fun h => ⟨h.chars, h.first, h.last⟩⟩

/-- Labels joined with dots. -/
def DnsSubdomain (s : GoString) : Prop := ∀ l ∈ split s 46, DnsLabel l

instance (s : GoString) : Decidable (DnsSubdomain s) := List.decidableBAll _ (split s 46)

theorem alnum_iff (b : UInt8) : alnum b = true ↔
    (97 ≤ b.toNat ∧ b.toNat ≤ 122) ∨ (48 ≤ b.toNat ∧ b.toNat ≤ 57) := by
  simp [alnum, UInt8.le_iff_toNat_le]

theorem word_of_alnum (b : UInt8) (h : alnum b = true) : 32 < b ∧ b < 128 := by
  rw [alnum_iff] at h
  simp only [UInt8.lt_iff_toNat_lt, UInt8.reduceToNat]
  omega

namespace DnsLabel

variable {s : GoString}

theorem ne_nil (h : DnsLabel s) : s ≠ [] := by
  rintro rfl
  cases h.first

theorem word (h : DnsLabel s) : Word s := by
  intro b hb
  rcases h.chars b hb with hb | rfl
  · exact word_of_alnum b hb
  · decide

theorem not_mem (h : DnsLabel s) (b : UInt8) (hb : alnum b = false ∧ b ≠ 45) : b ∉ s := by
  intro hmem
  rcases h.chars b hmem with hs | hs
  · rw [hb.1] at hs
    cases hs
  · exact hb.2 hs

end DnsLabel

namespace DnsSubdomain

variable {s : GoString}

theorem chars (h : DnsSubdomain s) : ∀ b ∈ s, alnum b = true ∨ b = 45 ∨ b = 46 := by
  intro b hb
  have hjoin : [46].intercalate (split s 46) = s := List.intercalate_splitOn 46
  rw [← hjoin] at hb
  rcases mem_join _ 46 b hb with rfl | ⟨l, hl, hbl⟩
  · exact .inr (.inr rfl)
  · rcases (h l hl).chars b hbl with hb | hb
    · exact .inl hb
    · exact .inr (.inl hb)

end DnsSubdomain

end DnsNames
