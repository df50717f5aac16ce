import Mathlib.Order.Interval.Finset.Nat
import XyOS.Memory.DirectMappingClosedForm
import XyOS.Memory.DirectMappingRuns

/-! Requests until the node pool is used up. -/

namespace XyOS.DirectMapping
open Linked Cells Runs

variable {R : ℕ} {s s' : Allocator} {ls : Slot → List ℕ} {k : ℕ} {size : ℤ}

/-- A call of `ReqBytes` whose caller does not look at the result. -/
def request (s : Allocator) (size : ℤ) : Except Fault Allocator := do
  let (_, s') ← reqBytes s size
  .ok s'

/-- The call returns, its lists still partition the managed area, and nothing was written through a
`MemBlock` at `NULL`. -/
def Handled (R : ℕ) (s : Allocator) (size : ℤ) : Prop :=
  ∃ a s', reqBytes s size = .ok (a, s') ∧ Sound R s' s'.lists ∧ s'.addr 0 = s.addr 0 ∧
    s'.next nullNode = s.next nullNode

def InRange (size : ℤ) : Prop := 1 ≤ size ∧ size ≤ 2 ^ 25

theorem request_ok {a : ℕ} (h : reqBytes s size = .ok (a, s')) : request s size = .ok s' := bind_ok h _

theorem of_request_ok (h : request s size = .ok s') : ∃ a, reqBytes s size = .ok (a, s') := by
  obtain ⟨⟨a, s₁⟩, hrun, he⟩ := of_bind_ok h
  obtain rfl := Except.ok.inj he
  exact ⟨a, hrun⟩

theorem Invariant.not_handled (h : Invariant R s s.lists)
    (hshort : ¬ EnoughNodes s.lists (getMemBlockSizeType size)) : ¬ Handled R s size := by
  simp only [EnoughNodes, not_forall, not_le] at hshort
  obtain ⟨t, hkt, ht, hempty, hne, hpool⟩ := hshort
  obtain ⟨s₁, ls₁, m, s', ho, hrun, -, hfam⟩ := h.sound.repr.reqBytes_open hkt ht hempty hne rfl
  rintro ⟨a, s'', hrun', hsound, -⟩
  obtain ⟨-, rfl⟩ := Prod.mk.inj (Except.ok.inj (hrun.symm.trans hrun'))
  have hk := lt_of_le_of_lt hkt ht
  have hmem : nullNode ∈ s'.head (.allocated (getMemBlockSizeType size)) ::
      Function.update ls₁ (.allocated (getMemBlockSizeType size)) (insertAt s₁.blockAddr (s₁.blockAddr m) m
        (s.lists (.allocated (getMemBlockSizeType size)))) (.allocated (getMemBlockSizeType size)) := by
    rw [Function.update_self]
    exact List.mem_cons_of_mem _ (mem_insertAt.mpr (Or.inl (ho.null hpool).symm))
  have hreach := (hfam.seg _ (allocated_mem_keptSlots hk)).exists_iterate hmem
  exact not_isNode_nullNode (hsound.repr.node _ (allocated_mem_slots.mpr hk) _
    (hsound.repr.reaches_mem (allocated_mem_slots.mpr hk) hreach))

theorem Invariant.handled (h : Invariant R s s.lists) (hk : getMemBlockSizeType size < 26)
    (henough : EnoughNodes s.lists (getMemBlockSizeType size)) : Handled R s size := by
  rcases h.reqBytes hk rfl henough with hnone | ⟨a, s', ls', hrun, hg⟩
  · exact ⟨0, s, hnone, h.sound, rfl, rfl⟩
  · exact ⟨a, s', hrun, hg.inv.lists.sound, hg.confined.addr 0 not_isNode_nullNode,
      hg.confined.next _ not_isNode_nullNode⟩

theorem Invariant.handled_iff (h : Invariant R s s.lists) (hk : getMemBlockSizeType size < 26) :
    Handled R s size ↔ EnoughNodes s.lists (getMemBlockSizeType size) :=
  ⟨fun hh => by_contra fun hshort => h.not_handled hshort hh, h.handled hk⟩

theorem Invariant.request (h : Invariant R s s.lists) (hrange : InRange size)
    (henough : EnoughNodes s.lists (getMemBlockSizeType size)) (hrun : request s size = .ok s') :
    Invariant R s' s'.lists := by
  obtain ⟨a, hreq⟩ := of_request_ok hrun
  obtain ⟨a', s'', hreq', hinv, -⟩ := reqBytes_preserves h hrange.1 hrange.2 henough
  obtain ⟨-, rfl⟩ := Prod.mk.inj (Except.ok.inj (hreq.symm.trans hreq'))
  exact hinv

theorem requests_handled_iff (s : Allocator) (kEnd : ℕ) (hpos : 0 < kEnd) (hle : kEnd ≤ 2 ^ 25) :
    ∃ s₀, directMappingInit kEnd s = .ok s₀ ∧ ∀ sizes,
      (Along request (fun s size => InRange size ∧ Handled (reservedSize kEnd) s size) s₀ sizes ↔
        Along request (fun s size => InRange size ∧ EnoughNodes s.lists (getMemBlockSizeType size)) s₀ sizes) := by
  obtain ⟨hr, s₀, ls, hinit, hcarved⟩ := directMappingInit_carved s hpos hle
  refine ⟨s₀, hinit, fun sizes => ?_⟩
  refine along_iff (I := fun s => Invariant (reservedSize kEnd) s s.lists) ?_ ?_ (hcarved.invariant hr).lists
  · rintro s size s' hinv ⟨hrange, hh⟩ hrun
    exact hinv.request hrange ((hinv.handled_iff (getMemBlockSizeType_lt hrange.1 hrange.2)).mp hh) hrun
  · intro s size hinv
    exact and_congr_right fun hrange => hinv.handled_iff (getMemBlockSizeType_lt hrange.1 hrange.2)

theorem requests_handled_iff_page :
    ∃ s₀, directMappingInit 0x100000 .zero = .ok s₀ ∧
      Along request (fun s size => InRange size ∧ Handled (reservedSize 0x100000) s size) s₀ [4096] := by
  obtain ⟨s₀, hinit, hiff⟩ := requests_handled_iff .zero 0x100000 (by norm_num) (by norm_num)
  obtain ⟨s₁, ls, hinit', hcarved⟩ := init_megabyte
  obtain rfl : s₀ = s₁ := Except.ok.inj (hinit.symm.trans hinit')
  refine ⟨s₀, hinit, (hiff [4096]).mpr ⟨⟨⟨by norm_num, by norm_num⟩, fun t _ ht _ _ => ?_⟩, fun _ _ => trivial⟩⟩
  rw [hcarved.repr.lists_eq pool_mem_slots]
  have := hcarved.pool
  omega

/-! ## One-byte requests -/

theorem Repr.length_le_pool {D : Set Slot} (h : Repr s D ls) {i : Slot} (hi : i ∈ D) :
    (ls i).length ≤ kNodePoolSize := by
  have hnd : (ls i).Nodup := (List.nodup_cons.mp (h.rings.nodup i hi)).2
  have hsub : (ls i).toFinset ⊆ Finset.Ico poolBase (poolBase + kNodePoolSize) := by
    intro p hp
    have hn := h.isNode hi (List.mem_toFinset.mp hp)
    exact Finset.mem_Ico.mpr ⟨hn.1.le, hn.2.1⟩
  have hcard := Finset.card_le_card hsub
  rwa [List.toFinset_card_of_nodup hnd, Nat.card_Ico, Nat.add_sub_cancel_left] at hcard

theorem Invariant.some_free (h : Invariant (2 ^ 20) s ls)
    (halloc : ∀ k < 26, k ≠ 0 → k ≠ 20 → ls (.allocated k) = []) (hone : ∃ q, ls (.allocated 20) = [q]) :
    ∃ t < 26, ls (.free t) ≠ [] := by
  by_contra hnone
  simp only [not_exists, not_and, ne_eq, not_not] at hnone
  obtain ⟨r, p, hR, hr, hp, hap⟩ := h.reserved
  obtain rfl : r = 20 := (Nat.pow_right_injective le_rfl hR).symm
  obtain ⟨x, hx⟩ := hone
  obtain rfl : p = x := by simpa [hx] using hp
  -- every byte behind the reserved megabyte would be a block of its own
  have hsub : Finset.Ico (kKVirtualAddr + 2 ^ 20) (kKVirtualAddr + managedSize) ⊆
      ((ls (.allocated 0)).map s.blockAddr).toFinset := by
    intro y hy
    obtain ⟨hlow, hhigh⟩ := Finset.mem_Ico.mp hy
    obtain ⟨⟨k, q⟩, ⟨⟨hk, hq⟩, hc1, hc2⟩, -⟩ := h.sound.blocks.partition
      (x := y - kKVirtualAddr) (by omega)
    simp only [hnone k hk, List.not_mem_nil, false_or] at hq hc1 hc2
    by_cases hk0 : k = 0
    · subst hk0
      rw [pow_zero] at hc2
      exact List.mem_toFinset.mpr (List.mem_map.mpr ⟨q, hq, by omega⟩)
    · by_cases hk20 : k = 20
      · subst hk20
        rw [hx, List.mem_singleton] at hq
        rw [hq, hap] at hc2
        omega
      · simp [halloc k hk hk0 hk20] at hq
  have hcard := (Finset.card_le_card hsub).trans (List.toFinset_card_le _)
  have hpool := h.sound.repr.length_le_pool (allocated_mem_slots.mpr (show 0 < 26 by norm_num))
  rw [Nat.card_Ico, List.length_map] at hcard
  simp only [managedSize, kDirectMappingSize, kNodePoolSize] at hcard hpool
  omega

structure BytesTaken (n : ℕ) (s : Allocator) : Prop where
  inv : Invariant (2 ^ 20) s s.lists
  bytes : (s.lists (.allocated 0)).length = n
  one : ∃ q, s.lists (.allocated 20) = [q]
  none : ∀ k < 26, k ≠ 0 → k ≠ 20 → s.lists (.allocated k) = []

theorem BytesTaken.step {n : ℕ} (h : BytesTaken n s) (hh : Handled (2 ^ 20) s 1) :
    ∃ s', request s 1 = .ok s' ∧ BytesTaken (n + 1) s' := by
  have hsize : getMemBlockSizeType 1 = 0 := by decide
  obtain ⟨t, ht, hne⟩ := h.inv.some_free h.none h.one
  have henough := (h.inv.handled_iff (by rw [hsize]; norm_num)).mp hh
  obtain ⟨a, s', ls', hrun, hg⟩ := h.inv.reqBytes_some hsize (hsize ▸ henough) (Nat.zero_le t) ht hne
  have hlists : ∀ k < 26, s'.lists (.allocated k) = ls' (.allocated k) := fun k hk =>
    hg.inv.sound.repr.lists_eq (allocated_mem_slots.mpr hk)
  refine ⟨s', request_ok hrun, hg.inv.lists, ?_, ?_, fun k hk h0 h20 => ?_⟩
  · obtain ⟨p, -, hnew, hmem⟩ := hg.fresh
    have hA := allocated_mem_slots.mpr (show 0 < 26 by norm_num)
    have hnd := (List.nodup_cons.mp (hg.inv.sound.repr.rings.nodup _ hA)).2
    have hnd₀ := (List.nodup_cons.mp (h.inv.sound.repr.rings.nodup _ hA)).2
    have hperm : (ls' (.allocated 0)).Perm (p :: s.lists (.allocated 0)) :=
      (List.perm_ext_iff_of_nodup hnd (List.nodup_cons.mpr ⟨hnew 0 (by norm_num), hnd₀⟩)).mpr fun x => by
        rw [hmem x, List.mem_cons]
    rw [hlists 0 (by norm_num), hperm.length_eq, List.length_cons, h.bytes]
  · rw [hlists 20 (by norm_num), hg.allocated 20 (by norm_num)]
    exact h.one
  · rw [hlists k hk, hg.allocated k h0]
    exact h.none k hk h0 h20

theorem Carved.bytesTaken (h : Carved 20 s ls 0) : BytesTaken 0 s := by
  have hlists : ∀ k < 26, s.lists (.allocated k) = ls (.allocated k) := fun k hk =>
    h.repr.lists_eq (allocated_mem_slots.mpr hk)
  obtain ⟨q, hq, -⟩ := h.reserved
  refine ⟨(h.invariant (by norm_num)).lists, ?_, ⟨q, by rw [hlists 20 (by norm_num), hq]⟩, fun k hk _ h20 => ?_⟩
  · rw [hlists 0 (by norm_num), h.allocated 0 (by norm_num), List.length_nil]
  · rw [hlists k hk, h.allocated k h20]

/-- Requests of one byte use up the pool long before the memory: some call writes through `NULL`. -/
theorem requests_use_up_pool :
    ∃ s₀ n s, directMappingInit 0x100000 .zero = .ok s₀ ∧
      Runs.run request s₀ (List.replicate n 1) = .ok s ∧ InRange 1 ∧ ¬ Handled (reservedSize 0x100000) s 1 := by
  obtain ⟨s₀, ls, hinit, hcarved⟩ := init_megabyte
  by_contra hall
  simp only [not_exists, not_and, not_not] at hall
  have htaken : ∀ n, ∃ s, Runs.run request s₀ (List.replicate n 1) = .ok s ∧ BytesTaken n s := by
    intro n
    induction n with
    | zero => exact ⟨s₀, rfl, hcarved.bytesTaken⟩
    | succ n ih =>
      obtain ⟨s, hrun, ht⟩ := ih
      have hh := hall s₀ n s hinit hrun ⟨by norm_num, by norm_num⟩
      obtain ⟨s', hreq, ht'⟩ := ht.step hh
      refine ⟨s', ?_, ht'⟩
      rw [List.replicate_succ', run_append hrun, run_cons hreq]
      rfl
  -- more blocks than the pool has addresses
  obtain ⟨s, -, ht⟩ := htaken (kNodePoolSize + 1)
  have hle := ht.inv.sound.repr.length_le_pool (allocated_mem_slots.mpr (show 0 < 26 by norm_num))
  rw [ht.bytes] at hle
  omega

end XyOS.DirectMapping
