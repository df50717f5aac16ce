import Mathlib.Data.Nat.Notation

/-! Pieces of memory, by their names, that share no byte. -/

namespace XyOS.Regions

universe u
variable {ι : Type u} {base base' size : ι → ℕ} {D : ι → Prop} {a b : ι} {o k : ℕ}

/-- No two of the pieces in `D` share a byte. -/
def Apart (base size : ι → ℕ) (D : ι → Prop) : Prop :=
  ∀ a b, D a → D b → a ≠ b → base a + size a ≤ base b ∨ base b + size b ≤ base a

namespace Apart
variable (h : Apart base size D)
include h

theorem word_inj (ha : D a) (hb : D b) (ho : o < size a) (hk : k < size b) (he : base a + o = base b + k) :
    a = b ∧ o = k := by
  by_cases hab : a = b
  · subst hab
    exact ⟨rfl, by omega⟩
  · have := h a b ha hb hab
    omega

theorem word_ne (ha : D a) (hb : D b) (hab : a ≠ b) (ho : o < size a) (hk : k < size b) :
    base a + o ≠ base b + k :=
  fun he => hab (h.word_inj ha hb ho hk he).1

theorem congr (hbase : ∀ a, D a → base' a = base a) : Apart base' size D := by
  intro a b ha hb hab
  rw [hbase a ha, hbase b hb]
  exact h a b ha hb hab

end Apart

end XyOS.Regions
