import XyOS.Foundation.Cells
import XyOS.Memory.DirectMappingView

/-! The blocks that the lists of the allocator stand for: cells of a tiling of
the managed area, aligned relative to the end of the reserved block. -/

namespace XyOS.DirectMapping
open Linked Cells

def Holds (ls : Slot → List ℕ) (k p : ℕ) : Prop :=
  k < 26 ∧ (p ∈ ls (.free k) ∨ p ∈ ls (.allocated k))

def cellAt (R k a : ℕ) : Cell := ⟨k, (a : ℤ) - kKVirtualAddr - R⟩

def cellsOf (R : ℕ) (B : ℕ → ℕ → Prop) (blk : ℕ → ℕ) : Set Cell :=
  {c | ∃ k p, B k p ∧ c = cellAt R k (blk p)}

structure Blocks (R : ℕ) (B : ℕ → ℕ → Prop) (blk : ℕ → ℕ) : Prop where
  tiling : Tiling (-R) (managedSize - R) (cellsOf R B blk)
  inj : ∀ k p q, B k p → B k q → blk p = blk q → p = q

variable {R : ℕ} {B B' : ℕ → ℕ → Prop} {blk blk' : ℕ → ℕ}

theorem Blocks.mem_cells {k p : ℕ} (hp : B k p) : cellAt R k (blk p) ∈ cellsOf R B blk :=
  ⟨k, p, hp, rfl⟩

theorem cellsOf_insert {j q : ℕ} (hB : ∀ k x, B' k x ↔ (k = j ∧ x = q) ∨ B k x)
    (hblk : ∀ k x, B k x → blk' x = blk x) : cellsOf R B' blk' = cellsOf R B blk ∪ {cellAt R j (blk' q)} := by
  ext c
  constructor
  · rintro ⟨k, x, hx, rfl⟩
    rcases (hB k x).mp hx with ⟨rfl, rfl⟩ | hx
    · exact Or.inr rfl
    · rw [hblk k x hx]
      exact Or.inl ⟨k, x, hx, rfl⟩
  · rintro (⟨k, x, hx, rfl⟩ | rfl)
    · exact ⟨k, x, (hB k x).mpr (Or.inr hx), by rw [hblk k x hx]⟩
    · exact ⟨j, q, (hB j q).mpr (Or.inl ⟨rfl, rfl⟩), rfl⟩

theorem Blocks.congr (h : Blocks R B blk) (hB : ∀ k p, B' k p ↔ B k p)
    (hblk : ∀ k p, B k p → blk' p = blk p) : Blocks R B' blk' := by
  have hc : cellsOf R B' blk' = cellsOf R B blk := by
    ext c
    constructor
    · rintro ⟨k, p, hp, rfl⟩
      exact ⟨k, p, (hB k p).mp hp, by rw [hblk k p ((hB k p).mp hp)]⟩
    · rintro ⟨k, p, hp, rfl⟩
      exact ⟨k, p, (hB k p).mpr hp, by rw [hblk k p hp]⟩
  refine ⟨hc ▸ h.tiling, fun k p q hp hq he => ?_⟩
  rw [hB] at hp hq
  rw [hblk k p hp, hblk k q hq] at he
  exact h.inj k p q hp hq he

theorem Blocks.bounds (h : Blocks R B blk) {k p : ℕ} (hp : B k p) :
    kKVirtualAddr ≤ blk p ∧ blk p + 2 ^ k ≤ kKVirtualAddr + managedSize := by
  have hin := h.tiling.inside _ (mem_cells hp)
  simp only [cellAt] at hin
  have hcast : ((2 ^ k : ℕ) : ℤ) = 2 ^ k := by push_cast; rfl
  omega

theorem Blocks.lt (h : Blocks R B blk) {k p : ℕ} (hp : B k p) : blk p + 2 ^ k < 2 ^ 32 := by
  have := h.bounds hp
  simp only [kKVirtualAddr, managedSize, kDirectMappingSize, kNodePoolSize] at this
  omega

theorem cellAt_covers {k a : ℕ} {x : ℤ} :
    (cellAt R k a).Covers (x - kKVirtualAddr - R) ↔ (a : ℤ) ≤ x ∧ x < a + 2 ^ k := by
  simp only [Cell.Covers, cellAt]
  omega

theorem Blocks.overlap (h : Blocks R B blk) {k j p q x : ℕ} (hp : B k p) (hq : B j q)
    (hpx : blk p ≤ x ∧ x < blk p + 2 ^ k) (hqx : blk q ≤ x ∧ x < blk q + 2 ^ j) :
    k = j ∧ p = q := by
  have hcell := h.tiling.disjoint _ (mem_cells hp) _ (mem_cells hq) ((x : ℤ) - kKVirtualAddr - R)
    (cellAt_covers.mpr (by exact_mod_cast hpx)) (cellAt_covers.mpr (by exact_mod_cast hqx))
  simp only [cellAt, Cell.mk.injEq] at hcell
  obtain ⟨rfl, ha⟩ := hcell
  exact ⟨rfl, h.inj k p q hp hq (by omega)⟩

theorem Blocks.addr_inj (h : Blocks R B blk) {k j p q : ℕ} (hp : B k p) (hq : B j q)
    (he : blk p = blk q) : k = j ∧ p = q := by
  have hk : 0 < 2 ^ k := by positivity
  have hj : 0 < 2 ^ j := by positivity
  exact h.overlap hp hq ⟨le_rfl, Nat.lt_add_of_pos_right hk⟩ ⟨he.ge, by omega⟩

section Cut
variable {k p q : ℕ} (h : Blocks R B blk) (hp : B (k + 1) p)
  (hB : ∀ j x, B' j x ↔ (j = k ∧ (x = p ∨ x = q)) ∨ (B j x ∧ ¬ (j = k + 1 ∧ x = p)))
  (hblk : ∀ j x, B j x → blk' x = blk x) (hbq : blk' q = blk p + 2 ^ k)
include h hp

theorem Blocks.ne_halves {z : ℕ} (hz : B k z) : blk z ≠ blk p ∧ blk z ≠ blk p + 2 ^ k := by
  have hkpos : 0 < 2 ^ k := by positivity
  have hpow : 2 ^ (k + 1) = 2 ^ k + 2 ^ k := by rw [pow_succ]; omega
  constructor
  · intro e
    have := (h.addr_inj hz hp e).1
    omega
  · intro e
    have := (h.overlap hz hp ⟨le_rfl, Nat.lt_add_of_pos_right hkpos⟩ ⟨by omega, by omega⟩).1
    omega

include hB hblk hbq

theorem Blocks.cellsOf_cut :
    cellsOf R B' blk' = split (cellsOf R B blk) k ((blk p : ℤ) - kKVirtualAddr - R) := by
  have hhalf : cellAt R k (blk' q) = ⟨k, (blk p : ℤ) - kKVirtualAddr - R + 2 ^ k⟩ := by
    simp only [hbq, cellAt, Cell.mk.injEq, true_and]
    push_cast
    ring
  ext c
  constructor
  · rintro ⟨j, x, hx, rfl⟩
    rcases (hB j x).mp hx with ⟨rfl, rfl | rfl⟩ | ⟨hxB, hne⟩
    · right; left
      rw [hblk _ _ hp]
      rfl
    · right; right
      exact hhalf
    · left
      rw [hblk j x hxB]
      refine ⟨mem_cells hxB, fun he => hne ?_⟩
      simp only [cellAt, Cell.mk.injEq] at he
      obtain ⟨rfl, ha⟩ := he
      exact ⟨rfl, h.inj _ x p hxB hp (by omega)⟩
  · rintro (⟨⟨j, x, hxB, rfl⟩, hne⟩ | rfl | rfl)
    · refine ⟨j, x, (hB j x).mpr (Or.inr ⟨hxB, ?_⟩), by rw [hblk j x hxB]⟩
      rintro ⟨rfl, rfl⟩
      exact hne rfl
    · exact ⟨k, p, (hB k p).mpr (Or.inl ⟨rfl, Or.inl rfl⟩), by rw [hblk _ _ hp]; rfl⟩
    · exact ⟨k, q, (hB k q).mpr (Or.inl ⟨rfl, Or.inr rfl⟩), hhalf.symm⟩

theorem Blocks.cut : Blocks R B' blk' := by
  have htile := h.tiling.split (mem_cells hp)
  refine ⟨h.cellsOf_cut hp hB hblk hbq ▸ htile, fun j x y hx hy he => ?_⟩
  have hpq : blk' p ≠ blk' q := by
    rw [hbq, hblk _ _ hp]
    have : 0 < 2 ^ k := by positivity
    omega
  -- a kept block of type `k` meets neither half of the split block
  rcases (hB j x).mp hx with ⟨rfl, rfl | rfl⟩ | ⟨hxB, hne⟩ <;>
    rcases (hB j y).mp hy with ⟨hj, rfl | rfl⟩ | ⟨hyB, hne'⟩
  · rfl
  · exact absurd he hpq
  · rw [hblk _ _ hp, hblk _ _ hyB] at he
    exact absurd he.symm (h.ne_halves hp hyB).1
  · exact absurd he.symm hpq
  · rfl
  · rw [hbq, hblk _ _ hyB] at he
    exact absurd he.symm (h.ne_halves hp hyB).2
  · subst hj
    rw [hblk _ _ hp, hblk _ _ hxB] at he
    exact absurd he (h.ne_halves hp hxB).1
  · subst hj
    rw [hbq, hblk _ _ hxB] at he
    exact absurd he (h.ne_halves hp hxB).2
  · rw [hblk _ _ hxB, hblk _ _ hyB] at he
    exact h.inj j x y hxB hyB he

end Cut

end XyOS.DirectMapping
