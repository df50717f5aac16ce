import XyOS.Memory.DirectMappingClosedForm

/-! Requests for one page, as `CreateProc` and `PfHandler` make them: blocks of type
12 are page frames of the direct mapping area. -/

namespace XyOS.DirectMapping
open Linked Cells

def pageFrames (s : Allocator) : Set ℕ :=
  {f | ∃ p ∈ s.lists (.allocated 12), s.blockAddr p = kKVirtualAddr + 0x1000 * f}

def PageReady (s : Allocator) : Prop :=
  EnoughNodes s.lists 12 ∧ ∀ a s', reqBytes s 4096 = .ok (a, s') → a ≠ 0

variable {R f : ℕ} {s s' : Allocator} {ls : Slot → List ℕ}

theorem Invariant.dvd_blockAddr (h : Invariant R s ls) {k p : ℕ} (hp : Holds ls k p) (hR : 2 ^ k ≤ R) :
    2 ^ k ∣ s.blockAddr p := by
  obtain ⟨r, -, rfl, -⟩ := h.reserved
  have hr : k ≤ r := (Nat.pow_le_pow_iff_right (by norm_num)).mp hR
  have hb := (h.sound.blocks.bounds hp).1
  have hdvd : (2 : ℤ) ^ k ∣ (s.blockAddr p : ℤ) - kKVirtualAddr - (2 ^ r : ℕ) :=
    h.sound.blocks.tiling.aligned _ (Blocks.mem_cells hp)
  have hsize : (2 : ℤ) ^ k ∣ ((2 ^ r : ℕ) : ℤ) := by
    push_cast
    exact pow_dvd_pow 2 hr
  have hbase : (2 : ℤ) ^ k ∣ (kKVirtualAddr : ℤ) := by
    have hk := hp.1
    exact (pow_dvd_pow 2 (show k ≤ 30 by omega)).trans ⟨3, by rw [kKVirtualAddr]; norm_num⟩
  exact_mod_cast (dvd_sub_left hbase).mp ((dvd_sub_left hsize).mp hdvd)

theorem Invariant.page_aligned (h : Invariant R s ls) (hR : 2 ^ 20 ≤ R) {p : ℕ} (hp : Holds ls 12 p) :
    ∃ f, s.blockAddr p = kKVirtualAddr + 0x1000 * f := by
  have hb := (h.sound.blocks.bounds hp).1
  obtain ⟨d, hd⟩ := h.dvd_blockAddr hp (le_trans (by norm_num) hR)
  rw [kKVirtualAddr] at hb ⊢
  exact ⟨d - 0xc0000, by omega⟩

theorem Invariant.frame_bounds (h : Invariant R s s.lists) (hR : 2 ^ 20 ≤ R) (hf : f ∈ pageFrames s) :
    0x100 ≤ f ∧ f < 0x3f00 := by
  obtain ⟨p, hp, hap⟩ := hf
  have hpH : Holds s.lists 12 p := ⟨by norm_num, Or.inr hp⟩
  have hb := h.sound.blocks.bounds hpH
  simp only [managedSize, kDirectMappingSize, kNodePoolSize] at hb
  have hne : s.blockAddr p ≠ kKVirtualAddr := by
    intro he
    obtain ⟨r, q, rfl, hr, hq, haq⟩ := h.reserved
    obtain ⟨rfl, -⟩ := h.sound.blocks.addr_inj hpH ⟨hr, Or.inr hq⟩ (he.trans haq.symm)
    exact absurd hR (by norm_num)
  have := h.above_reserved hpH hne
  omega

theorem size_page : getMemBlockSizeType 4096 = 12 := by decide

theorem Invariant.reqFrame (h : Invariant R s s.lists) (hR : 2 ^ 20 ≤ R) (hready : PageReady s) :
    ∃ f s', DirectMapping.reqBytes s 4096 = .ok (kKVirtualAddr + 0x1000 * f, s') ∧ Invariant R s' s'.lists ∧
      f ∉ pageFrames s ∧ pageFrames s' = insert f (pageFrames s) := by
  rcases h.reqBytes (k := 12) (by norm_num) size_page hready.1 with hnone | ⟨a, s', ls', hrun, hg⟩
  · exact absurd rfl (hready.2 0 s hnone)
  have hlists : s'.lists (.allocated 12) = ls' (.allocated 12) :=
    hg.inv.sound.repr.lists_eq (allocated_mem_slots.mpr (by norm_num))
  obtain ⟨p, hpa, -, hpmem⟩ := hg.fresh
  obtain ⟨f, hf⟩ := hg.inv.page_aligned hR ⟨by norm_num, Or.inr ((hpmem p).mpr (Or.inl rfl))⟩
  rw [hpa] at hf
  subst hf
  refine ⟨f, s', hrun, hg.inv.lists, ?_, ?_⟩
  · rintro ⟨q, hq, haq⟩
    exact hg.addr_ne (by norm_num) 12 (by norm_num) q hq haq
  · ext g
    simp only [pageFrames, Set.mem_ofPred_eq, hlists, hpmem, Set.mem_insert_iff]
    constructor
    · rintro ⟨q, rfl | hq, hag⟩
      · rw [hpa] at hag
        exact Or.inl (by omega)
      · exact Or.inr ⟨q, hq, (hg.addr 12 q ⟨by norm_num, Or.inr hq⟩).symm.trans hag⟩
    · rintro (rfl | ⟨q, hq, hag⟩)
      · exact ⟨p, Or.inl rfl, hpa⟩
      · exact ⟨q, Or.inr hq, (hg.addr 12 q ⟨by norm_num, Or.inr hq⟩).trans hag⟩

theorem Invariant.pageReady (h : Invariant R s s.lists) (henough : EnoughNodes s.lists 12) {t : ℕ}
    (h1 : 12 ≤ t) (h2 : t < 26) (hfree : s.lists (.free t) ≠ []) : PageReady s := by
  refine ⟨henough, fun a s' hreq => ?_⟩
  rcases exists_least_free s.lists 12 with hnone | ⟨u, hu, hu', hempty, hne⟩
  · exact absurd (hnone t h1 h2) hfree
  obtain ⟨p, rest, hp⟩ := List.exists_cons_of_ne_nil hne
  have hbase := (h.sound.blocks.bounds (show Holds s.lists u p from ⟨hu', Or.inl (by simp [hp])⟩)).1
  simp only [kKVirtualAddr] at hbase
  rcases Nat.eq_or_lt_of_le hu with rfl | hlt
  · obtain ⟨s₁, hrun, -⟩ := h.grant_fit (by norm_num) hp size_page
    obtain ⟨rfl, -⟩ := Prod.mk.inj (Except.ok.inj (hreq.symm.trans hrun))
    omega
  · obtain ⟨b, s₁, ls₁, hrun, hb, -⟩ := h.grant_split hlt hu' hempty hp (henough u hu hu' hempty hne) size_page
    obtain ⟨rfl, -⟩ := Prod.mk.inj (Except.ok.inj (hreq.symm.trans hrun))
    have : 2 ^ 12 ≤ 2 ^ u := Nat.pow_le_pow_right (by norm_num) hu
    omega

theorem Carved.free_below (h : Carved 20 s ls 0) {j : ℕ} (hj : j < 21) : s.lists (.free j) = [] := by
  have hbits : ∀ j < 21, carvedSize (2 ^ 20) / 2 ^ j % 2 = 0 := by decide
  rw [h.repr.lists_eq (free_mem_slots.mpr (by omega))]
  exact h.rest j (Or.inr (hbits j hj))

theorem Carved.least_free (h : Carved 20 s ls 0) :
    ∃ p, s.lists (.free 21) = [p] ∧ s.blockAddr p = kKVirtualAddr + 0x3d00000 := by
  obtain ⟨p, hp, hap⟩ := h.carved 21 (by norm_num) (by norm_num) (by decide)
  refine ⟨p, (h.repr.lists_eq (free_mem_slots.mpr (by norm_num))).trans hp, ?_⟩
  rw [hap]
  decide

theorem Carved.pool_length (h : Carved 20 s ls 0) : 131018 - 26 ≤ (s.lists .pool).length := by
  rw [h.repr.lists_eq pool_mem_slots]
  have := h.pool
  omega

theorem Carved.pageReady (h : Carved 20 s ls 0) :
    PageReady s ∧ ∀ a s', reqBytes s 4096 = .ok (a, s') → PageReady s' := by
  have hinv := (h.invariant (by norm_num)).lists
  have hpool := h.pool_length
  obtain ⟨p, hp, -⟩ := h.least_free
  refine ⟨hinv.pageReady (fun t _ _ _ _ => by omega) (t := 21) (by norm_num) (by norm_num) (by simp [hp]),
    fun a s' hreq => ?_⟩
  obtain ⟨b, s₁, ls₁, hrun, -, ⟨x, hx, -⟩, -, -, hg⟩ := hinv.grant_split (k := 12) (by norm_num) (by norm_num)
    (fun j _ hj => h.free_below hj) hp (by omega) size_page
  obtain ⟨-, rfl⟩ := Prod.mk.inj (Except.ok.inj (hreq.symm.trans hrun))
  rw [← hg.inv.sound.repr.lists_eq (free_mem_slots.mpr (by norm_num))] at hx
  refine hg.inv.lists.pageReady (fun t h1 h2 hnone _ => ?_) (t := 12) le_rfl (by norm_num) (by simp [hx])
  rcases Nat.eq_or_lt_of_le h1 with rfl | hlt
  · omega
  · exact absurd (hnone 12 le_rfl hlt) (by simp [hx])

theorem Carved.first_frames (h : Carved 20 s ls 0) :
    ∃ s₁ s₂, reqBytes s 4096 = .ok (kKVirtualAddr + 0x1000 * 0x3eff, s₁) ∧
      reqBytes s₁ 4096 = .ok (kKVirtualAddr + 0x1000 * 0x3efe, s₂) := by
  have hinv := (h.invariant (by norm_num)).lists
  have hpool := h.pool_length
  obtain ⟨p, hp, hap⟩ := h.least_free
  obtain ⟨a, s₁, hrun, htaken⟩ := hinv.taken_split (k := 12) (by norm_num) (by norm_num)
    (fun j _ hj => h.free_below hj) hp (by omega) size_page
  have ha : a = kKVirtualAddr + 0x1000 * 0x3eff := by
    rw [htaken.addr, hap]
    rfl
  obtain ⟨x, hx, hax⟩ := htaken.pieces 12 le_rfl (by norm_num)
  obtain ⟨f, s', hrun', hinv', -⟩ := hinv.reqFrame (R := 2 ^ 20) le_rfl h.pageReady.1
  obtain ⟨-, rfl⟩ := Prod.mk.inj (Except.ok.inj (hrun.symm.trans hrun'))
  obtain ⟨s₂, hrun₂, -⟩ := hinv'.taken_fit (by norm_num) hx size_page
  have hx' : s₁.blockAddr x = kKVirtualAddr + 0x1000 * 0x3efe := by
    rw [hax, hap]
    rfl
  rw [ha] at hrun
  rw [hx'] at hrun₂
  exact ⟨s₁, s₂, hrun, hrun₂⟩

end XyOS.DirectMapping
