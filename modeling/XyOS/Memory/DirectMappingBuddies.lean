import XyOS.Memory.DirectMappingMerge

/-! The test of `MergeBlock` against the blocks that `DirectMappingInit` carves. -/

namespace XyOS.DirectMapping
open Linked Cells

variable {R kEnd r k a o p q : ℕ} {s s₀ : Allocator} {ls : Slot → List ℕ}

/-- The blocks of type `k` at `a` and behind it are the halves of an aligned block that lies in one
block of the layout `s₀`. -/
structure TrueBuddies (R : ℕ) (s₀ : Allocator) (k a : ℕ) : Prop where
  inside : ∃ j b, Holds s₀.lists j b ∧ s₀.blockAddr b ≤ a ∧ a + 2 ^ (k + 1) ≤ s₀.blockAddr b + 2 ^ j
  aligned : (2 : ℤ) ^ (k + 1) ∣ (a : ℤ) - kKVirtualAddr - R

theorem two_pow_succ_dvd_iff (hdvd : 2 ^ k ∣ o) : 2 ^ (k + 1) ∣ o ↔ o / 2 ^ k % 2 = 0 := by
  obtain ⟨m, rfl⟩ := hdvd
  have hpos : 0 < 2 ^ k := by positivity
  rw [Nat.mul_div_cancel_left m hpos, pow_succ, Nat.mul_dvd_mul_iff_left hpos, Nat.dvd_iff_mod_eq_zero]

theorem parity_base (hk : k < 25) (hdvd : 2 ^ k ∣ o) : (kKVirtualAddr + o) / 2 ^ k % 2 = o / 2 ^ k % 2 := by
  have hbase : kKVirtualAddr = 2 ^ k * (2 * (3 * 2 ^ (29 - k))) := by
    have hpow : 2 ^ k * 2 ^ (29 - k) = 2 ^ 29 := by rw [← pow_add, Nat.add_sub_cancel' (by omega)]
    rw [kKVirtualAddr, Nat.mul_left_comm, Nat.mul_left_comm (2 ^ k), hpow]
    norm_num
  obtain ⟨m, rfl⟩ := hdvd
  have hpos : 0 < 2 ^ k := by positivity
  rw [hbase, ← Nat.mul_add, Nat.mul_div_cancel_left _ hpos, Nat.mul_div_cancel_left _ hpos, Nat.mul_add_mod]

theorem lowerHalf_iff_dvd (hk : k < 25) (hdvd : 2 ^ k ∣ o) (hlt : kKVirtualAddr + reservedSize kEnd + o < 2 ^ 32) :
    LowerHalf kEnd k (kKVirtualAddr + reservedSize kEnd + o) ↔ 2 ^ (k + 1) ∣ o := by
  have hsub : sub32 (kKVirtualAddr + reservedSize kEnd + o) (reservedSize kEnd) = kKVirtualAddr + o := by
    rw [sub32_of_le (by omega) hlt]
    omega
  rw [LowerHalf, hsub, getMemBlockSize, parity_base hk hdvd, two_pow_succ_dvd_iff hdvd]

theorem add_le_of_lt_of_dvd {d m n : ℕ} (hm : d ∣ m) (hn : d ∣ n) (hlt : m < n) : m + d ≤ n := by
  have hle := Nat.le_of_dvd (Nat.sub_pos_of_lt hlt) (Nat.dvd_sub hn hm)
  omega

theorem Carved.free_addr (h : Carved r s ls 0) {j b : ℕ} (hj : j < 26) (hb : b ∈ ls (.free j)) :
    s.blockAddr b = kKVirtualAddr + 2 ^ r + carvedSize (2 ^ r) / 2 ^ (j + 1) * 2 ^ (j + 1) := by
  rcases Nat.mod_two_eq_zero_or_one (carvedSize (2 ^ r) / 2 ^ j) with h0 | h1
  · rw [h.rest j (Or.inr h0)] at hb
    exact absurd hb List.not_mem_nil
  · obtain ⟨x, hx, hax⟩ := h.carved j (Nat.zero_le j) hj h1
    rw [hx, List.mem_singleton] at hb
    rw [hb, hax]

theorem Carved.contains (h : Carved r s ls 0) (hdvd : 2 ^ k ∣ o) (hend : o + 2 ^ k ≤ carvedSize (2 ^ r)) :
    ∃ j b, Holds ls j b ∧ s.blockAddr b ≤ kKVirtualAddr + 2 ^ r + o ∧
      kKVirtualAddr + 2 ^ r + o + 2 ^ k ≤ s.blockAddr b + 2 ^ j := by
  have hpos : 0 < 2 ^ k := by positivity
  have hneg : -((2 ^ r : ℕ) : ℤ) ≤ o := by
    have : (0 : ℤ) ≤ (2 ^ r : ℕ) := Int.natCast_nonneg _
    omega
  obtain ⟨c, ⟨j, b, hb, rfl⟩, hcover⟩ := h.tiling.cover o hneg (by
    rw [pow_zero, Nat.div_one, Nat.mul_one]
    omega)
  have hcovers : s.blockAddr b ≤ kKVirtualAddr + 2 ^ r + o ∧ kKVirtualAddr + 2 ^ r + o < s.blockAddr b + 2 ^ j := by
    have hoff : (o : ℤ) = ((kKVirtualAddr + 2 ^ r + o : ℕ) : ℤ) - kKVirtualAddr - (2 ^ r : ℕ) := by
      push_cast
      ring
    rw [hoff, cellAt_covers] at hcover
    exact_mod_cast hcover
  refine ⟨j, b, hb, hcovers.1, ?_⟩
  obtain ⟨hj, hfree | halloc⟩ := hb
  · rw [h.free_addr hj hfree] at hcovers ⊢
    by_cases hjk : j < k
    · -- a smaller block that starts below would be followed by less than `2 ^ k` bytes
      have hlt : carvedSize (2 ^ r) < carvedSize (2 ^ r) / 2 ^ (j + 1) * 2 ^ (j + 1) + 2 ^ (j + 1) :=
        Nat.lt_div_mul_add (by positivity)
      have hle : 2 ^ (j + 1) ≤ 2 ^ k := Nat.pow_le_pow_right (by norm_num) hjk
      omega
    · have hstart : 2 ^ k ∣ carvedSize (2 ^ r) / 2 ^ (j + 1) * 2 ^ (j + 1) + 2 ^ j :=
        Nat.dvd_add (Dvd.dvd.mul_left (pow_dvd_pow 2 (by omega)) _) (pow_dvd_pow 2 (by omega))
      have hle := add_le_of_lt_of_dvd hdvd hstart (by omega)
      omega
  · obtain ⟨x, hx, hax⟩ := h.reserved
    by_cases hjr : j = r
    · rw [hjr, hx, List.mem_singleton] at halloc
      rw [halloc, hax, hjr] at hcovers
      omega
    · rw [h.allocated j hjr] at halloc
      exact absurd halloc List.not_mem_nil

theorem Invariant.lowerHalf_iff {sᵢ : Allocator} (hinv : Invariant (reservedSize kEnd) s s.lists) (hpos : 0 < kEnd)
    (hle : kEnd ≤ 2 ^ 25) (hinit : directMappingInit kEnd sᵢ = .ok s₀) (hk : k < 25) (hp : p ∈ s.lists (.free k))
    (hq : q ∈ s.lists (.free k)) (hadj : s.blockAddr p + 2 ^ k = s.blockAddr q) :
    LowerHalf kEnd k (s.blockAddr p) ↔ TrueBuddies (reservedSize kEnd) s₀ k (s.blockAddr p) := by
  have hk26 : k < 26 := by omega
  obtain ⟨hr, s₁, ls, hinit', hcarved⟩ := directMappingInit_carved sᵢ hpos hle
  obtain rfl : s₀ = s₁ := Except.ok.inj (hinit.symm.trans hinit')
  have habove := hinv.free_above hk26 hp
  have haligned := hinv.sound.blocks.aligned ⟨hk26, Or.inl hp⟩ habove
  have hbound := (hinv.sound.blocks.bounds (show Holds s.lists k q from ⟨hk26, Or.inl hq⟩)).2
  have hlt := hinv.sound.blocks.lt (show Holds s.lists k p from ⟨hk26, Or.inl hp⟩)
  obtain ⟨o, ho⟩ := Nat.exists_eq_add_of_le habove
  rw [← hadj] at hbound
  rw [ho] at haligned hbound hlt ⊢
  rw [show kKVirtualAddr + reservedSize kEnd + o - kKVirtualAddr - reservedSize kEnd = o by omega] at haligned
  rw [lowerHalf_iff_dvd hk haligned (by omega)]
  have hoff : ((kKVirtualAddr + reservedSize kEnd + o : ℕ) : ℤ) - kKVirtualAddr - reservedSize kEnd = o := by
    push_cast
    ring
  constructor
  · intro hdvd
    refine ⟨?_, by rw [hoff]; exact_mod_cast hdvd⟩
    have hend : o + 2 ^ (k + 1) ≤ carvedSize (reservedSize kEnd) := by
      rw [carvedSize, pow_succ]
      omega
    obtain ⟨j, b, hb, hlow, hhigh⟩ := hcarved.contains hdvd hend
    exact ⟨j, b, hcarved.repr.holds_lists.mpr hb, hlow, hhigh⟩
  · intro h
    have hdvd := h.aligned
    rw [hoff] at hdvd
    exact_mod_cast hdvd

theorem lowerHalf_iff_trueBuddies (sᵢ s₀ s : Allocator) (kEnd : ℕ) (hpos : 0 < kEnd) (hle : kEnd ≤ 2 ^ 25)
    (hinit : directMappingInit kEnd sᵢ = .ok s₀) (hinv : Invariant (reservedSize kEnd) s s.lists)
    (k p q : ℕ) (hk : k < 25) (hp : p ∈ s.lists (.free k)) (hq : q ∈ s.lists (.free k))
    (hadj : s.blockAddr p + 2 ^ k = s.blockAddr q) :
    (LowerHalf kEnd k (s.blockAddr p) ↔ TrueBuddies (reservedSize kEnd) s₀ k (s.blockAddr p)) ∧
      ∀ head tmp, s.next tmp = p → s.next p = q → q ≠ head →
        (mergeable kEnd s k head tmp = true ↔ TrueBuddies (reservedSize kEnd) s₀ k (s.blockAddr p)) := by
  have hiff := hinv.lowerHalf_iff hpos hle hinit hk hp hq hadj
  refine ⟨hiff, fun head tmp hnext hnext' hne => ?_⟩
  have hlt := hinv.sound.blocks.lt (show Holds s.lists k p from ⟨by omega, Or.inl hp⟩)
  have hsum : u32 (s.blockAddr p + getMemBlockSize k) = s.blockAddr q := (u32_of_lt hlt).trans hadj
  rw [mergeable_eq_true hnext hnext' hne, ← hiff]
  exact and_iff_right hsum

theorem lowerHalf_iff_trueBuddies_megabyte :
    ∃ s₀ s p, directMappingInit 0x100000 .zero = .ok s₀ ∧ Invariant (reservedSize 0x100000) s s.lists ∧
      p ∈ s.lists (.free 20) ∧ s.blockAddr p = 0xc3d00000 ∧
      TrueBuddies (reservedSize 0x100000) s₀ 20 (s.blockAddr p) := by
  obtain ⟨s₀, ls, hinit, hcarved⟩ := init_megabyte
  obtain ⟨-, s, ls₂, p, q, -, -, -, -, hinv, hpair, -, hap, haq, -⟩ := hcarved.split_state
  have hlists : s.lists (.free 20) = [p, q] :=
    (hinv.sound.repr.lists_eq (free_mem_slots.mpr (by norm_num))).trans hpair
  have hp : p ∈ s.lists (.free 20) := by simp [hlists]
  refine ⟨s₀, s, p, hinit, hinv.lists, hp, hap, ?_⟩
  refine (lowerHalf_iff_trueBuddies .zero s₀ s 0x100000 (by norm_num) (by norm_num) hinit hinv.lists 20 p q
    (by norm_num) hp (by simp [hlists]) (by rw [hap, haq]; norm_num)).1.mp ?_
  rw [hap, LowerHalf]
  decide

end XyOS.DirectMapping
