import Mathlib.Data.List.Sort
import XyOS.Memory.DirectMappingRuns

/-! A run that gives back all its blocks ends with the lists it started from. -/

namespace XyOS.DirectMapping
open Linked Cells Runs

variable {kEnd : ℕ} {s : Allocator} {ls : Slot → List ℕ}

def cells (kEnd : ℕ) (s : Allocator) (ls : Slot → List ℕ) : Set Cell :=
  cellsOf (reservedSize kEnd) (Holds ls) s.blockAddr

theorem Tracked.allocated_addr (h : Tracked kEnd ⟨s, []⟩ ls) {k p : ℕ} (hk : k < 26)
    (hp : p ∈ ls (.allocated k)) : s.blockAddr p = kKVirtualAddr := by
  by_contra hne
  have := (h.held (s.blockAddr p) k).mpr ⟨hk, hne, p, hp, rfl⟩
  simp at this

theorem cellAt_inj {R k k' a a' : ℕ} : cellAt R k a = cellAt R k' a' ↔ k = k' ∧ a = a' := by
  simp only [cellAt, Cell.mk.injEq]
  omega

theorem Tracked.mem_free_iff (h : Tracked kEnd ⟨s, []⟩ ls) {k a : ℕ} (hk : k < 26) :
    a ∈ (ls (.free k)).map s.blockAddr ↔
      cellAt (reservedSize kEnd) k a ∈ cells kEnd s ls ∧ a ≠ kKVirtualAddr := by
  constructor
  · intro ha
    obtain ⟨p, hp, rfl⟩ := List.mem_map.mp ha
    refine ⟨⟨k, p, ⟨hk, Or.inl hp⟩, rfl⟩, fun hbase => ?_⟩
    obtain ⟨r, q, -, hr, hq, haq⟩ := h.inv.reserved
    obtain ⟨-, rfl⟩ := h.inv.sound.blocks.addr_inj ⟨hk, Or.inl hp⟩ ⟨hr, Or.inr hq⟩ (hbase.trans haq.symm)
    exact h.inv.sound.free_notMem_allocated hk hp r hr hq
  · rintro ⟨⟨k', p, ⟨-, hp⟩, hcell⟩, hne⟩
    obtain ⟨rfl, rfl⟩ := cellAt_inj.mp hcell
    rcases hp with hp | hp
    · exact List.mem_map_of_mem hp
    · exact absurd (h.allocated_addr hk hp) hne

theorem even_of_aligned {R k a : ℕ} (hk : k < 25) (hR : R ≤ a)
    (h : (2 : ℤ) ^ (k + 1) ∣ (a : ℤ) - kKVirtualAddr - R) : (a - R) / 2 ^ k % 2 = 0 := by
  have hbase : 2 ^ (k + 1) ∣ kKVirtualAddr :=
    (pow_dvd_pow 2 (show k + 1 ≤ 25 by omega)).trans (by decide)
  have hbase' : (2 : ℤ) ^ (k + 1) ∣ (kKVirtualAddr : ℤ) := by exact_mod_cast hbase
  have hsum := Int.dvd_add h hbase'
  have hcast : (a : ℤ) - kKVirtualAddr - R + kKVirtualAddr = ((a - R : ℕ) : ℤ) := by
    rw [Nat.cast_sub hR]
    ring
  rw [hcast] at hsum
  obtain ⟨m, hm⟩ : 2 ^ (k + 1) ∣ a - R := by exact_mod_cast hsum
  rw [hm, pow_succ, Nat.mul_assoc, Nat.mul_div_cancel_left _ (by positivity), Nat.mul_mod_right]

theorem Tracked.coalesced (h : Tracked kEnd ⟨s, []⟩ ls) : Coalesced 25 (cells kEnd s ls) := by
  rintro k o hk ho ⟨k₁, p, hp, hcp⟩ ⟨k₂, q, hq, hcq⟩
  simp only [cellAt, Cell.mk.injEq] at hcp hcq
  obtain ⟨rfl, rfl⟩ := hcp
  obtain ⟨rfl, hsucc⟩ := hcq
  have hbp : kKVirtualAddr ≤ s.blockAddr p := (h.inv.sound.blocks.bounds hp).1
  have hnext : s.blockAddr p + 2 ^ k = s.blockAddr q := by
    zify
    omega
  obtain ⟨r, x, hR, hr, hx, hax⟩ := h.inv.reserved
  rcases hq.2 with hqf | hqa
  · rcases hp.2 with hpf | hpa
    · have hle : reservedSize kEnd ≤ s.blockAddr p := by
        refine le_trans ?_ hbp
        rw [hR]
        exact (pow_le_of_lt_26 hr).trans (by decide)
      exact h.unmerged k hk p hpf q hqf ⟨hnext, even_of_aligned hk hle ho⟩
    · -- the reserved block would have to be the lower half of a block that starts below the area
      have hpb := h.allocated_addr hp.1 hpa
      obtain ⟨rfl, -⟩ := h.inv.sound.blocks.addr_inj hp ⟨hr, Or.inr hx⟩ (hpb.trans hax.symm)
      rw [hpb, hR, sub_self, zero_sub, dvd_neg] at ho
      have hdvd : 2 ^ (k + 1) ∣ 2 ^ k := by exact_mod_cast ho
      have := (Nat.pow_dvd_pow_iff_le_right (by norm_num)).mp hdvd
      omega
  · have hqb := h.allocated_addr hq.1 hqa
    have hpos : 0 < 2 ^ k := by positivity
    omega

theorem Tracked.cells_eq {s' : Allocator} {ls' : Slot → List ℕ} (h : Tracked kEnd ⟨s, []⟩ ls)
    (h' : Tracked kEnd ⟨s', []⟩ ls') : cells kEnd s ls = cells kEnd s' ls' := by
  refine h.inv.sound.blocks.tiling.eq_of_coalesced h'.inv.sound.blocks.tiling ?_ ?_ h.coalesced
    h'.coalesced
  · rintro c ⟨k, p, hp, rfl⟩
    exact Nat.le_of_lt_succ hp.1
  · rintro c ⟨k, p, hp, rfl⟩
    exact Nat.le_of_lt_succ hp.1

theorem Ascending.sortedLT_map {blk : ℕ → ℕ} {l : List ℕ} (h : Ascending blk l) :
    (l.map blk).SortedLT := (List.pairwise_map.mpr h).sortedLT

theorem Tracked.free_eq {s' : Allocator} {ls' : Slot → List ℕ} (h : Tracked kEnd ⟨s, []⟩ ls)
    (h' : Tracked kEnd ⟨s', []⟩ ls') {k : ℕ} (hk : k < 26) :
    (ls' (.free k)).map s'.blockAddr = (ls (.free k)).map s.blockAddr := by
  refine (h'.inv.ascFree k hk).sortedLT_map.eq_of_mem_iff (h.inv.ascFree k hk).sortedLT_map fun a => ?_
  rw [h'.mem_free_iff hk, h.mem_free_iff hk, h.cells_eq h']

theorem Sound.mem_pool_iff {R : ℕ} (h : Sound R s ls) {p : ℕ} :
    p ∈ ls .pool ↔ p ∈ nodes slots ls ∧ ¬ ∃ k, Holds ls k p := by
  rw [mem_nodes]
  constructor
  · intro hp
    exact ⟨⟨.pool, pool_mem_slots, hp⟩, fun ⟨k, hk⟩ => h.repr.notMem_pool hk hp⟩
  · rintro ⟨⟨i, hi, hp⟩, hno⟩
    cases i with
    | free k => exact absurd ⟨k, free_mem_slots.mp hi, Or.inl hp⟩ hno
    | allocated k => exact absurd ⟨k, allocated_mem_slots.mp hi, Or.inr hp⟩ hno
    | pool => exact hp

theorem Tracked.pool_eq {s' : Allocator} {ls' : Slot → List ℕ} (h : Tracked kEnd ⟨s, []⟩ ls)
    (h' : Tracked kEnd ⟨s', []⟩ ls') (he : Evolved s ls s' ls') (p : ℕ) :
    p ∈ ls' .pool ↔ p ∈ ls .pool := by
  rw [h'.inv.sound.mem_pool_iff, h.inv.sound.mem_pool_iff, he.nodes]
  refine and_congr_right fun _ => not_congr ?_
  constructor
  · rintro ⟨k, hp⟩
    -- the cell of `p` was there at the start, and the node that held it still does
    have hcell : cellAt (reservedSize kEnd) k (s'.blockAddr p) ∈ cells kEnd s ls := by
      rw [h.cells_eq h']
      exact ⟨k, p, hp, rfl⟩
    obtain ⟨k', q, hq, heq⟩ := hcell
    obtain ⟨rfl, haddr⟩ := cellAt_inj.mp heq
    obtain ⟨⟨j, hq'⟩, haq⟩ := he.kept k q hq
    obtain ⟨-, rfl⟩ := h'.inv.sound.blocks.addr_inj hp hq' (haddr.trans haq.symm)
    exact ⟨k, hq⟩
  · rintro ⟨k, hp⟩
    exact (he.kept k p hp).1

/-- A careful run that has given back all its blocks ends with the free lists
and the pool of `DirectMappingInit`. -/
theorem careful_run_returns_all (s : Allocator) (kEnd : ℕ) (hpos : 0 < kEnd) (hle : kEnd ≤ 2 ^ 25) :
    ∃ s₀, directMappingInit kEnd s = .ok s₀ ∧ ∀ calls,
      Along (Client.exec kEnd) (fun c call => Legal c call ∧ Careful kEnd c call) ⟨s₀, []⟩ calls →
      ∃ c, Runs.run (Client.exec kEnd) ⟨s₀, []⟩ calls = .ok c ∧ (c.held = [] →
        (∀ k < 26, (c.alloc.lists (.free k)).map c.alloc.blockAddr =
          (s₀.lists (.free k)).map s₀.blockAddr) ∧
        ∀ p, p ∈ c.alloc.lists .pool ↔ p ∈ s₀.lists .pool) := by
  obtain ⟨hr, s₀, ls₀, hinit, hcarved⟩ := directMappingInit_carved s hpos hle
  refine ⟨s₀, hinit, fun calls hcalls => ?_⟩
  have h₀ := hcarved.tracked hr
  obtain ⟨⟨s', held⟩, ls, hrun, ht, he⟩ := h₀.run hcalls
  refine ⟨⟨s', held⟩, hrun, ?_⟩
  rintro rfl
  refine ⟨fun k hk => ?_, fun p => ?_⟩
  · rw [ht.inv.sound.repr.lists_eq (free_mem_slots.mpr hk), hcarved.repr.lists_eq (free_mem_slots.mpr hk)]
    exact h₀.free_eq ht hk
  · rw [ht.inv.sound.repr.lists_eq pool_mem_slots, hcarved.repr.lists_eq pool_mem_slots]
    exact h₀.pool_eq ht he p

theorem careful_run_returns_all_megabyte :
    ∃ s₀ c, directMappingInit 0x100000 .zero = .ok s₀ ∧
      Runs.run (Client.exec 0x100000) ⟨s₀, []⟩ fitCalls = .ok c ∧ c.held = [] ∧
      (∀ k < 26, (c.alloc.lists (.free k)).map c.alloc.blockAddr =
        (s₀.lists (.free k)).map s₀.blockAddr) ∧
      ∀ p, p ∈ c.alloc.lists .pool ↔ p ∈ s₀.lists .pool := by
  obtain ⟨s₀, hinit, hret⟩ := careful_run_returns_all .zero 0x100000 (by norm_num) (by norm_num)
  obtain ⟨s₁, ls, hinit', hcarved⟩ := init_megabyte
  obtain rfl : s₀ = s₁ := Except.ok.inj (hinit.symm.trans hinit')
  obtain ⟨c, hrun, hc⟩ := hret _ hcarved.fit_along
  have hheld : c.held = [] := by
    obtain ⟨s', hexec, -⟩ := hcarved.fit_req
    rw [fitCalls, run_cons hexec, Runs.run, Client.exec] at hrun
    cases hrel : relBytes 0x100000 s' 0xc3d00000 with
    | error e => simp [hrel, bind, Except.bind] at hrun
    | ok s'' =>
      simp only [hrel, bind, Except.bind, Runs.run, Except.ok.injEq] at hrun
      simp [← hrun]
  exact ⟨s₀, c, hinit, hrun, hheld, hc hheld⟩

theorem split_run_loses_block :
    ∃ s₀ c, directMappingInit 0x100000 .zero = .ok s₀ ∧
      Along (Client.exec 0x100000) Legal ⟨s₀, []⟩ splitCalls ∧
      Runs.run (Client.exec 0x100000) ⟨s₀, []⟩ splitCalls = .ok c ∧ c.held = [] ∧
      (c.alloc.lists (.free 20)).map c.alloc.blockAddr ≠ (s₀.lists (.free 20)).map s₀.blockAddr := by
  obtain ⟨s₀, ls, hinit, hcarved⟩ := init_megabyte
  obtain ⟨s', hlegal, hrun, hhead, hnull⟩ := hcarved.split_run
  refine ⟨s₀, _, hinit, hlegal, hrun, rfl, ?_⟩
  have hempty : s₀.lists (.free 20) = [] := by
    rw [hcarved.repr.lists_eq (free_mem_slots.mpr (by norm_num)), (carved_megabyte hcarved).1]
  have hne : s₀.head (.free 20) ≠ 0 := (hcarved.repr.isNode_head (free_mem_slots.mpr (by norm_num))).ne_zero
  have hcons : ∃ n ns, s'.lists (.free 20) = n :: ns := by
    obtain ⟨f, hf⟩ : ∃ f, loopFuel = f + 1 := ⟨loopFuel - 1, rfl⟩
    rw [Allocator.lists, listNodes, hf, collect, hhead, hnull, if_neg (Ne.symm hne)]
    exact ⟨_, _, rfl⟩
  obtain ⟨n, ns, hcons⟩ := hcons
  simp [hempty, hcons]

end XyOS.DirectMapping
