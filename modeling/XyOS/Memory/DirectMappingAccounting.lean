import Mathlib.Algebra.BigOperators.Group.Finset.Sigma
import XyOS.Memory.DirectMappingExhaustion

/-! Where the bytes of the managed area and the nodes of the pool are, along a run. -/

namespace XyOS.DirectMapping
open Linked Cells Runs

def freeBytes (ls : Slot → List ℕ) : ℕ := ∑ k ∈ Finset.range 26, (ls (.free k)).length * 2 ^ k

def heldBytes (held : List (ℕ × ℕ)) : ℕ := (held.map fun b => 2 ^ b.2).sum

def blocksIn (slot : ℕ → Slot) (ls : Slot → List ℕ) : Finset (Σ _ : ℕ, ℕ) :=
  (Finset.range 26).sigma fun k => (ls (slot k)).toFinset

variable {R kEnd k p : ℕ} {s s' : Allocator} {ls : Slot → List ℕ} {c : Client} {slot : ℕ → Slot}

theorem mem_blocksIn {x : Σ _ : ℕ, ℕ} : x ∈ blocksIn slot ls ↔ x.1 < 26 ∧ x.2 ∈ ls (slot x.1) := by
  rw [blocksIn, Finset.mem_sigma, Finset.mem_range, List.mem_toFinset]

theorem sum_blocksIn (hnodup : ∀ k < 26, (ls (slot k)).Nodup) :
    ∑ x ∈ blocksIn slot ls, 2 ^ x.1 = ∑ k ∈ Finset.range 26, (ls (slot k)).length * 2 ^ k := by
  rw [blocksIn, Finset.sum_sigma]
  refine Finset.sum_congr rfl fun k hk => ?_
  have hcard := List.toFinset_card_of_nodup (hnodup k (Finset.mem_range.mp hk))
  exact (Finset.sum_const_nat fun _ _ => rfl).trans (congrArg (· * 2 ^ k) hcard)

theorem Repr.nodup (h : Repr s slots ls) {i : Slot} (hi : i ∈ slots) : (ls i).Nodup :=
  (List.nodup_cons.mp (h.rings.nodup i hi)).2

theorem Repr.disjoint_blocksIn (h : Repr s slots ls) :
    Disjoint (blocksIn .free ls) (blocksIn .allocated ls) := by
  refine Finset.disjoint_left.mpr fun x hx hx' => ?_
  obtain ⟨hk, hfree⟩ := mem_blocksIn.mp hx
  obtain ⟨-, hallocated⟩ := mem_blocksIn.mp hx'
  exact absurd (h.slot_unique (free_mem_slots.mpr hk) (allocated_mem_slots.mpr hk) hfree hallocated) (by simp)

theorem Sound.sum_blocks (h : Sound R s ls) :
    freeBytes ls + ∑ x ∈ blocksIn .allocated ls, 2 ^ x.1 = managedSize := by
  let cell := fun x : Σ _ : ℕ, ℕ => cellAt R x.1 (s.blockAddr x.2)
  have hmem : ∀ x, x ∈ blocksIn .free ls ∪ blocksIn .allocated ls ↔ Holds ls x.1 x.2 := by
    intro x
    rw [Finset.mem_union, mem_blocksIn, mem_blocksIn, ← and_or_left]
    rfl
  have hcells : cell '' ↑(blocksIn .free ls ∪ blocksIn .allocated ls) = cellsOf R (Holds ls) s.blockAddr := by
    ext c
    constructor
    · rintro ⟨x, hx, rfl⟩
      exact ⟨x.1, x.2, (hmem x).mp hx, rfl⟩
    · rintro ⟨k, p, hp, rfl⟩
      exact ⟨⟨k, p⟩, (hmem ⟨k, p⟩).mpr hp, rfl⟩
  have hinj : Set.InjOn cell ↑(blocksIn .free ls ∪ blocksIn .allocated ls) := by
    rintro ⟨k, p⟩ hp ⟨j, q⟩ hq he
    simp only [cell, cellAt, Cell.mk.injEq] at he
    have haddr : s.blockAddr p = s.blockAddr q := by omega
    obtain ⟨rfl, rfl⟩ := h.blocks.addr_inj ((hmem _).mp hp) ((hmem _).mp hq) haddr
    rfl
  have htiling := h.blocks.tiling
  rw [← hcells] at htiling
  have hsum := htiling.sum_two_pow hinj (by omega)
  have hfree : ∑ x ∈ blocksIn .free ls, 2 ^ (cell x).kind = freeBytes ls :=
    sum_blocksIn fun k hk => h.repr.nodup (free_mem_slots.mpr hk)
  rw [Finset.sum_union h.repr.disjoint_blocksIn, hfree] at hsum
  change ((freeBytes ls + ∑ x ∈ blocksIn .allocated ls, 2 ^ x.1 : ℕ) : ℤ) = _ at hsum
  omega

theorem Tracked.sum_allocated (h : Tracked kEnd c ls) :
    ∑ x ∈ blocksIn .allocated ls, 2 ^ x.1 = heldBytes c.held + reservedSize kEnd := by
  obtain ⟨r, p, hR, hr, hp, hap⟩ := h.inv.reserved
  let block := fun x : Σ _ : ℕ, ℕ => (c.alloc.blockAddr x.2, x.1)
  have hinj : Set.InjOn block (blocksIn .allocated ls) := by
    rintro ⟨k, p⟩ hp ⟨j, q⟩ hq he
    obtain ⟨hk, hp⟩ := mem_blocksIn.mp hp
    obtain ⟨hj, hq⟩ := mem_blocksIn.mp hq
    obtain ⟨rfl, rfl⟩ := h.inv.sound.blocks.addr_inj ⟨hk, Or.inr hp⟩ ⟨hj, Or.inr hq⟩ (Prod.mk.inj he).1
    rfl
  have himage : (blocksIn .allocated ls).image block = insert (kKVirtualAddr, r) c.held.toFinset := by
    ext ⟨a, k⟩
    rw [Finset.mem_image, Finset.mem_insert, List.mem_toFinset, h.held]
    constructor
    · rintro ⟨x, hx, he⟩
      obtain ⟨hk, hx⟩ := mem_blocksIn.mp hx
      obtain ⟨rfl, rfl⟩ := Prod.mk.inj he
      by_cases ha : c.alloc.blockAddr x.2 = kKVirtualAddr
      · left
        rw [ha, (h.inv.sound.blocks.addr_inj ⟨hk, Or.inr hx⟩ ⟨hr, Or.inr hp⟩ (ha.trans hap.symm)).1]
      · exact Or.inr ⟨hk, ha, x.2, hx, rfl⟩
    · rintro (he | ⟨hk, -, q, hq, rfl⟩)
      · obtain ⟨rfl, rfl⟩ := Prod.mk.inj he
        exact ⟨⟨k, p⟩, mem_blocksIn.mpr ⟨hr, hp⟩, congrArg (·, k) hap⟩
      · exact ⟨⟨k, q⟩, mem_blocksIn.mpr ⟨hk, hq⟩, rfl⟩
  have hfresh : (kKVirtualAddr, r) ∉ c.held.toFinset := by
    rw [List.mem_toFinset, h.held]
    exact fun hmem => hmem.2.1 rfl
  have hnodup : c.held.Nodup := h.distinct.of_map _
  calc ∑ x ∈ blocksIn .allocated ls, 2 ^ x.1 = ∑ x ∈ blocksIn .allocated ls, 2 ^ (block x).2 := rfl
    _ = ∑ b ∈ (blocksIn .allocated ls).image block, 2 ^ b.2 := (Finset.sum_image (f := fun b => 2 ^ b.2) hinj).symm
    _ = 2 ^ r + ∑ b ∈ c.held.toFinset, 2 ^ b.2 := by rw [himage, Finset.sum_insert hfresh]
    _ = heldBytes c.held + reservedSize kEnd := by
      rw [List.sum_toFinset _ hnodup, ← hR, Nat.add_comm]
      rfl

theorem Tracked.bytes (h : Tracked kEnd c ls) :
    freeBytes c.alloc.lists + heldBytes c.held + reservedSize kEnd = managedSize := by
  have hfree : freeBytes c.alloc.lists = freeBytes ls := by
    refine Finset.sum_congr rfl fun k hk => ?_
    rw [h.inv.sound.repr.lists_eq (free_mem_slots.mpr (Finset.mem_range.mp hk))]
  rw [hfree, Nat.add_assoc, ← h.sum_allocated, h.inv.sound.sum_blocks]

theorem Invariant.refused_iff {size : ℤ} (h : Invariant R s s.lists) (hrange : InRange size)
    (henough : EnoughNodes s.lists (getMemBlockSizeType size)) (s' : Allocator) :
    DirectMapping.reqBytes s size = .ok (0, s') ↔
      s' = s ∧ ∀ t, getMemBlockSizeType size ≤ t → t < 26 → s.lists (.free t) = [] := by
  constructor
  · intro hrun
    have hempty : ∀ t, getMemBlockSizeType size ≤ t → t < 26 → s.lists (.free t) = [] := by
      intro t hle ht
      by_contra hne
      obtain ⟨a, s₁, ls', hrun', hg⟩ := h.reqBytes_some rfl henough hle ht hne
      obtain ⟨p, hpa, -, hmem⟩ := hg.fresh
      have hp : Holds ls' (getMemBlockSizeType size) p := ⟨by omega, Or.inr ((hmem p).mpr (Or.inl rfl))⟩
      have hbase := (hg.inv.sound.blocks.bounds hp).1
      obtain ⟨rfl, -⟩ := Prod.mk.inj (Except.ok.inj (hrun.symm.trans hrun'))
      rw [hpa] at hbase
      exact absurd hbase (by decide)
    have hk := getMemBlockSizeType_lt hrange.1 hrange.2
    have hnone := h.sound.repr.reqBytes_none hk hempty rfl
    exact ⟨(Prod.mk.inj (Except.ok.inj (hrun.symm.trans hnone))).2, hempty⟩
  · rintro ⟨rfl, hempty⟩
    exact h.sound.repr.reqBytes_none (getMemBlockSizeType_lt hrange.1 hrange.2) hempty rfl

/-- Along every run of careful calls no byte of the managed area is lost: it is in a free block, in
an outstanding one or in the reserved block. Memory is refused only for want of a large enough block. -/
theorem careful_run_accounts (s : Allocator) (kEnd : ℕ) (hpos : 0 < kEnd) (hle : kEnd ≤ 2 ^ 25) :
    ∃ s₀, directMappingInit kEnd s = .ok s₀ ∧ ∀ calls,
      Along (Client.exec kEnd) (fun c call => Legal c call ∧ Careful kEnd c call) ⟨s₀, []⟩ calls →
      ∃ c, run (Client.exec kEnd) ⟨s₀, []⟩ calls = .ok c ∧
        freeBytes c.alloc.lists + heldBytes c.held + reservedSize kEnd = managedSize ∧
        ∀ size, InRange size → EnoughNodes c.alloc.lists (getMemBlockSizeType size) → ∀ s',
          (reqBytes c.alloc size = .ok (0, s') ↔
            s' = c.alloc ∧ ∀ t, getMemBlockSizeType size ≤ t → t < 26 → c.alloc.lists (.free t) = []) := by
  obtain ⟨hr, s₀, ls₀, hinit, hcarved⟩ := directMappingInit_carved s hpos hle
  refine ⟨s₀, hinit, fun calls hcalls => ?_⟩
  obtain ⟨c, ls, hrun, ht, -⟩ := (hcarved.tracked hr).run hcalls
  exact ⟨c, hrun, ht.bytes, fun size hrange henough => ht.inv.lists.refused_iff hrange henough⟩

theorem careful_run_accounts_megabyte :
    ∃ s₀ c, directMappingInit 0x100000 .zero = .ok s₀ ∧ run (Client.exec 0x100000) ⟨s₀, []⟩ fitCalls = .ok c ∧
      freeBytes c.alloc.lists + heldBytes c.held + reservedSize 0x100000 = managedSize := by
  obtain ⟨s₀, hinit, haccounts⟩ := careful_run_accounts .zero 0x100000 (by norm_num) (by norm_num)
  obtain ⟨s₁, ls, hinit', hcarved⟩ := init_megabyte
  obtain rfl : s₀ = s₁ := Except.ok.inj (hinit.symm.trans hinit')
  obtain ⟨c, hrun, hbytes, -⟩ := haccounts _ hcarved.fit_along
  exact ⟨s₀, c, hinit, hrun, hbytes⟩

end XyOS.DirectMapping
