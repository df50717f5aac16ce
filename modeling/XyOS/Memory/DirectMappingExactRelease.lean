import Mathlib.Data.List.TakeWhile
import XyOS.Memory.DirectMappingMerge

/-! When `RelBytes` releases the block it is asked to release and nothing else. -/

namespace XyOS.DirectMapping
open Linked

variable {R kEnd a j k : ℕ} {s s' : Allocator} {ls : Slot → List ℕ}

/-- The block of type `k` at `a` is free instead of allocated, all other blocks are as before. -/
structure ReleasedExactly (s s' : Allocator) (k a : ℕ) : Prop where
  repr : Repr s' slots s'.lists
  allocated : s'.blocks .allocated = s.blocks .allocated \ {(k, a)}
  free : ∀ x, s'.FreeByte x ↔ s.FreeByte x ∨ InBlock (k, a) x

def ReleasesExactly (kEnd : ℕ) (s : Allocator) (a : ℕ) : Prop :=
  ∃ s', relBytes kEnd s a = .ok s' ∧
    (∀ k, (k, a) ∈ s.blocks .allocated → ReleasedExactly s s' k a) ∧
    ((∀ k, (k, a) ∉ s.blocks .allocated) → ∀ i ∈ slots, s'.lists i = s.lists i ∧
      ∀ p ∈ s.lists i, s'.blockAddr p = s.blockAddr p)

/-- No smaller allocated block lies above the block at `a`, and with it in the free list there is no
pair to merge; if no block starts at `a`, all allocated blocks lie below. -/
def ReleaseFits (kEnd : ℕ) (s : Allocator) (a : ℕ) : Prop :=
  (∀ k, (k, a) ∈ s.blocks .allocated → (∀ b ∈ s.blocks .allocated, b.1 < k → b.2 < a) ∧
    (k < 25 → ∀ c, ¬ BuddyPair kEnd (insert (k, a) (s.blocks .free)) k c)) ∧
  ((∀ k, (k, a) ∉ s.blocks .allocated) → ∀ b ∈ s.blocks .allocated, b.2 < a)

/-! ## The early exit -/

theorem Repr.loose_allocated {p : ℕ} (h : Repr s slots ls) (hk : k < 26)
    (hp : p ∈ s.head (.allocated k) :: ls (.allocated k)) : Loose freeSlots s.head ls p := fun i hi hpi =>
  hi.2 k (h.rings.apart i hi.1 (.allocated k) (allocated_mem_slots.mpr hk) p hpi hp)

theorem Repr.not_reaches_both {i i' : Slot} {p : ℕ} {D : Set Slot} (h : Repr s D ls) (hi : i ∈ D) (hi' : i' ∈ D)
    (hne : i ≠ i') (hp : s.Reaches i p) : ¬ s.Reaches i' p := fun hp' =>
  hne (h.rings.apart i hi i' hi' p (h.reaches_mem hi hp) (h.reaches_mem hi' hp'))

theorem Repr.relBytes_early {xs ys : List ℕ} {z : ℕ} (h : Repr s slots ls) (hj : j < 26)
    (hls : ls (.allocated j) = xs ++ z :: ys) (hfirst : FirstMet s ls j a)
    (hxs : ∀ q ∈ xs, s.blockAddr q < a) (hz : a < s.blockAddr z) (hrun : relBytes kEnd s a = .ok s') :
    s'.head = s.head ∧ ∀ ls', ¬ Repr s' slots ls' := by
  have hA := allocated_mem_slots.mpr hj
  have hF := free_mem_freeSlots hj
  have hseg := h.rings.seg _ hA
  have hhead := h.head_notMem hA
  have hlen := h.length_lt hA
  have hnd := h.rings.nodup _ hA
  rw [hls] at hseg hhead hlen hnd
  rw [List.length_append] at hlen
  have hfind := h.relFind_stop hj (by simp [hls]) hfirst
    (relScan_above xs ys loopFuel _ hseg hhead hxs hz (by omega))
  set remove := lastFrom (s.head (.allocated j)) xs with hremove
  have hmem : remove ∈ s.head (.allocated j) :: ls (.allocated j) := by
    rw [hls]
    exact lastFrom_mem_append ..
  have hfree := h.mono fun i (hi : i ∈ freeSlots) => hi.1
  have hnode : IsNode remove := h.node _ hA _ hmem
  obtain ⟨tmp, htmp, hseek, hrepr⟩ := hfree.seekAdd hF hnode (h.loose_allocated hj hmem) a
  have hmerge : mergeBlock kEnd loopFuel (s.listAdd tmp remove) j = .ok s' := by
    rw [relBytes, hfind] at hrun
    simp only [bind, Except.bind, slot_free s hj, hseek] at hrun
    exact hrun
  set s₁ := s.listAdd tmp remove with hs₁
  have hmerged := hrepr.mergedAbove hj hmerge
  refine ⟨hmerged.head, fun ls' hbad => ?_⟩
  rcases hrepr.mergeBlock_cases kEnd hF hj (show 0 < loopFuel by decide) with
    ⟨hnone, -⟩ | ⟨hj', ys', b₁, b₂, zs, hls', hacc, -⟩
  · obtain rfl := Except.ok.inj (hnone.symm.trans hmerge)
    -- the node is now on both lists of its type
    have hfreeR : s₁.Reaches (.free j) remove := by
      refine (hrepr.rings.seg _ hF).exists_iterate (List.mem_cons_of_mem _ ?_)
      rw [Function.update_self]
      exact mem_insertAt.mpr (Or.inl rfl)
    have hallocR : s₁.Reaches (.allocated j) remove := by
      have hfront := hseg.before
      have hsub : (s.head (.allocated j) :: xs).Nodup :=
        hnd.sublist (List.Sublist.cons_cons _ (List.sublist_append_left ..))
      refine hfront.exists_iterate_last hsub fun x hx hxne => insertAfter_of_ne (fun e => ?_) hxne
      have hxmem : x ∈ s.head (.allocated j) :: ls (.allocated j) := by
        rw [hls]
        exact List.mem_append_left _ hx
      exact h.loose_allocated hj hxmem _ hF (e ▸ htmp)
    exact hbad.not_reaches_both (free_mem_slots.mpr hj) hA (by simp) hfreeR hallocR
  · exact hrepr.mergeBlock_corrupts hj' ⟨ys', b₁, b₂, zs, hls', hacc⟩ hmerge ls'
      (hbad.mono fun i hi => hi.1)

theorem exists_least_above {P : ℕ → Prop} {n : ℕ} (h : P n) : ∃ j ≤ n, P j ∧ ∀ i < j, ¬ P i := by
  classical
  exact ⟨Nat.find ⟨n, h⟩, Nat.find_min' ⟨n, h⟩ h, Nat.find_spec ⟨n, h⟩, fun i hi => Nat.find_min ⟨n, h⟩ hi⟩

theorem Invariant.relBytes_spoils {b : ℕ × ℕ} (h : Invariant R s s.lists) (hb : b ∈ s.blocks .allocated)
    (hle : ¬ b.2 < a) (hnone : ∀ k ≤ b.1, (k, a) ∉ s.blocks .allocated)
    (hrun : DirectMapping.relBytes kEnd s a = .ok s') : s'.head = s.head ∧ ∀ ls', ¬ Repr s' slots ls' := by
  obtain ⟨hk, q, hq, hqb⟩ := hb
  obtain ⟨j, hjk, ⟨z₀, hz₀, hza₀⟩, hmin⟩ := exists_least_above
    (P := fun i => ∃ q ∈ s.lists (.allocated i), ¬ s.blockAddr q < a) ⟨q, hq, hqb ▸ hle⟩
  have hj : j < 26 := lt_of_le_of_lt hjk hk
  have hfirst : FirstMet s s.lists j a := fun i hi x hx => by
    by_contra hxa
    exact hmin i hi ⟨x, hx, hxa⟩
  obtain ⟨z, ys, hdrop⟩ : ∃ z ys,
      (s.lists (.allocated j)).dropWhile (fun x => decide (s.blockAddr x < a)) = z :: ys := by
    refine List.exists_cons_of_ne_nil fun hnil => ?_
    have := List.dropWhile_eq_nil_iff.mp hnil z₀ hz₀
    exact hza₀ (by simpa using this)
  have hsplit := List.takeWhile_append_dropWhile (p := fun x => decide (s.blockAddr x < a))
    (l := s.lists (.allocated j))
  rw [hdrop] at hsplit
  have hzmem : z ∈ s.lists (.allocated j) := by
    rw [← hsplit]
    simp
  have hz : a < s.blockAddr z := by
    have hhead := List.head_dropWhile_not (fun x => decide (s.blockAddr x < a)) (by rw [hdrop]; simp)
    simp only [hdrop, List.head_cons, decide_eq_false_iff_not, not_lt] at hhead
    refine lt_of_le_of_ne hhead fun he => hnone j hjk ?_
    exact ⟨hj, z, hzmem, he.symm⟩
  have hxs : ∀ x ∈ (s.lists (.allocated j)).takeWhile (fun x => decide (s.blockAddr x < a)),
      s.blockAddr x < a := fun x hx => by simpa using List.mem_takeWhile_imp hx
  exact h.sound.repr.relBytes_early hj hsplit.symm hfirst hxs hz hrun

/-! ## The state before the merge -/

section Give
variable {p : ℕ} {rest : List ℕ} {s₁ : Allocator}
variable (hrepr : Repr s₁ slots (giveLists s.blockAddr s.lists k p rest)) (hblk : s₁.blockAddr = s.blockAddr)
include hrepr hblk

theorem Repr.blocks_free_give (hk : k < 26) :
    s₁.blocks .free = insert (k, s.blockAddr p) (s.blocks .free) := by
  have hlists : ∀ j < 26, s₁.lists (.free j) = giveLists s.blockAddr s.lists k p rest (.free j) := fun j hj =>
    hrepr.lists_eq (free_mem_slots.mpr hj)
  ext ⟨j, b⟩
  simp only [Allocator.blocks, Set.mem_ofPred_eq, Set.mem_insert_iff, Prod.mk.injEq, hblk]
  constructor
  · rintro ⟨hj, x, hx, rfl⟩
    rw [hlists j hj] at hx
    by_cases hjk : j = k
    · subst hjk
      rw [giveLists_free_self, mem_insertAt] at hx
      rcases hx with rfl | hx
      · exact Or.inl ⟨rfl, rfl⟩
      · exact Or.inr ⟨hj, x, hx, rfl⟩
    · rw [giveLists_free_of_ne hjk] at hx
      exact Or.inr ⟨hj, x, hx, rfl⟩
  · rintro (⟨rfl, rfl⟩ | ⟨hj, x, hx, rfl⟩)
    · refine ⟨hk, p, ?_, rfl⟩
      rw [hlists j hk, giveLists_free_self, mem_insertAt]
      exact Or.inl rfl
    · refine ⟨hj, x, ?_, rfl⟩
      rw [hlists j hj]
      by_cases hjk : j = k
      · subst hjk
        rw [giveLists_free_self, mem_insertAt]
        exact Or.inr hx
      · rwa [giveLists_free_of_ne hjk]

theorem Repr.blocks_allocated_give
    (hgone : ∀ x, x ∈ rest ↔ x ∈ s.lists (.allocated k) ∧ s.blockAddr x ≠ s.blockAddr p) :
    s₁.blocks .allocated = s.blocks .allocated \ {(k, s.blockAddr p)} := by
  have hlists : ∀ j < 26, s₁.lists (.allocated j) = giveLists s.blockAddr s.lists k p rest (.allocated j) :=
    fun j hj => hrepr.lists_eq (allocated_mem_slots.mpr hj)
  ext ⟨j, b⟩
  simp only [Allocator.blocks, Set.mem_ofPred_eq, Set.mem_sdiff, Set.mem_singleton_iff, Prod.mk.injEq, hblk]
  constructor
  · rintro ⟨hj, x, hx, rfl⟩
    rw [hlists j hj] at hx
    by_cases hjk : j = k
    · subst hjk
      rw [giveLists_allocated_self, hgone] at hx
      exact ⟨⟨hj, x, hx.1, rfl⟩, fun he => hx.2 he.2⟩
    · rw [giveLists_allocated_of_ne hjk] at hx
      exact ⟨⟨hj, x, hx, rfl⟩, fun he => hjk he.1⟩
  · rintro ⟨⟨hj, x, hx, rfl⟩, hne⟩
    refine ⟨hj, x, ?_, rfl⟩
    rw [hlists j hj]
    by_cases hjk : j = k
    · subst hjk
      rw [giveLists_allocated_self, hgone]
      exact ⟨hx, fun he => hne ⟨rfl, he⟩⟩
    · rwa [giveLists_allocated_of_ne hjk]

end Give

theorem Invariant.released_state {p : ℕ} (h : Invariant R s s.lists) (kEnd : ℕ) (hk : k < 26)
    (hp : p ∈ s.lists (.allocated k)) (hfirst : FirstMet s s.lists k (s.blockAddr p)) :
    ∃ s₁, DirectMapping.relBytes kEnd s (s.blockAddr p) = mergeBlock kEnd loopFuel s₁ k ∧ FreeWell R s₁ ∧
      s₁.blocks .free = insert (k, s.blockAddr p) (s.blocks .free) ∧
      ReleasedExactly s s₁ k (s.blockAddr p) := by
  obtain ⟨xs, ys, hls, hxs, hgone⟩ := h.allocated_split hk hp
  obtain ⟨s₁, hrun, hsound, hhead, haddr⟩ := h.sound.relBytes_eq kEnd hk hls hxs hfirst
  have hblk : s₁.blockAddr = s.blockAddr := funext fun x => congrFun haddr (getStruct x)
  obtain ⟨r, -, hR, hr, -⟩ := h.reserved
  have hbase : R ≤ kKVirtualAddr := by
    rw [hR]
    exact (pow_le_of_lt_26 hr).trans (by decide)
  have hfree := hsound.repr.blocks_free_give hblk hk
  refine ⟨s₁, hrun, hsound.freeWell hbase fun j hj => ?_, hfree, hsound.repr.lists,
    hsound.repr.blocks_allocated_give hblk hgone, fun x => ?_⟩
  · rw [hblk]
    exact h.ascFree_give hk hp j hj
  · simp only [Allocator.FreeByte, hfree, Set.mem_insert_iff]
    constructor
    · rintro ⟨b, rfl | hb, hx⟩
      · exact Or.inr hx
      · exact Or.inl ⟨b, hb, hx⟩
    · rintro (⟨b, hb, hx⟩ | hx)
      · exact ⟨b, Or.inr hb, hx⟩
      · exact ⟨_, Or.inl rfl, hx⟩

/-- `RelBytes` releases exactly the block it is given if and only if its search meets that block first
and the block has no free buddy, or if there is no such block and no allocated block above. -/
theorem relBytes_exact_iff {s : Allocator} {kEnd : ℕ} (h : Invariant (reservedSize kEnd) s s.lists) (a : ℕ) :
    ReleasesExactly kEnd s a ↔ ReleaseFits kEnd s a := by
  have hunique : ∀ k j, (k, a) ∈ s.blocks .allocated → (j, a) ∈ s.blocks .allocated → k = j := by
    rintro k j ⟨hk, p, hp, hpa⟩ ⟨hj, q, hq, hqa⟩
    exact (h.sound.blocks.addr_inj ⟨hk, Or.inr hp⟩ ⟨hj, Or.inr hq⟩ (hpa.trans hqa.symm)).1
  have hmet : ∀ k, (∀ b ∈ s.blocks .allocated, b.1 < k → b.2 < a) → k < 26 → FirstMet s s.lists k a :=
    fun k hlow hk j hj q hq => hlow _ (Allocator.mem_blocks (hj.trans hk) hq) hj
  constructor
  · -- a block that the search stops at too early, or a merge, would leave lists that are no rings
    rintro ⟨s', hrun, hfound, hnone⟩
    refine ⟨fun k hka => ?_, fun hno b hb => ?_⟩
    · have hrepr := (hfound k hka).repr
      have hlow : ∀ b ∈ s.blocks .allocated, b.1 < k → b.2 < a := by
        intro b hb hbk
        by_contra hle
        refine (h.relBytes_spoils hb hle (fun j hjb hja => ?_) hrun).2 _ hrepr
        have := hunique k j hka hja
        omega
      refine ⟨hlow, fun hk' c hpair => ?_⟩
      obtain ⟨hk, p, hp, rfl⟩ := id hka
      obtain ⟨s₁, heq, hwell, hfree, -⟩ := h.released_state kEnd hk hp (hmet k hlow hk)
      rw [← hfree] at hpair
      exact hwell.mergeBlock_broken hk' hpair (heq.symm.trans hrun) _ (hrepr.mono fun i hi => hi.1)
    · by_contra hle
      obtain ⟨hhead, hbad⟩ := h.relBytes_spoils hb hle (fun j _ => hno j) hrun
      exact hbad _ (h.sound.repr.of_lists_eq hhead fun i hi => (hnone hno i hi).1)
  · rintro ⟨hfits, hbelow⟩
    by_cases hex : ∃ k, (k, a) ∈ s.blocks .allocated
    · obtain ⟨k, hka⟩ := hex
      obtain ⟨hlow, hpairs⟩ := hfits k hka
      obtain ⟨hk, p, hp, rfl⟩ := id hka
      obtain ⟨s₁, heq, hwell, hfree, hrel⟩ := h.released_state kEnd hk hp (hmet k hlow hk)
      have hstop : mergeBlock kEnd loopFuel s₁ k = .ok s₁ := by
        refine hwell.mergeBlock_none hk ?_
        rw [hfree]
        by_cases hk' : k = 25
        · exact Or.inl hk'
        · exact Or.inr (hpairs (by omega))
      refine ⟨s₁, heq.trans hstop, fun j hja => ?_, fun hno => absurd hka (hno k)⟩
      obtain rfl := hunique j k hja hka
      exact hrel
    · have hno : ∀ k, (k, a) ∉ s.blocks .allocated := fun k hka => hex ⟨k, hka⟩
      refine ⟨s, h.sound.repr.relBytes_none kEnd a fun j hj q hq => ?_, fun k hka => absurd hka (hno k),
        fun _ i _ => ⟨rfl, fun _ _ => rfl⟩⟩
      exact hbelow hno _ (Allocator.mem_blocks hj hq)

theorem relBytes_exact_iff_inside :
    ∃ s₀, directMappingInit 0x100000 .zero = .ok s₀ ∧ ReleasesExactly 0x100000 s₀ 0xc0001000 := by
  obtain ⟨s₀, ls, hinit, hcarved⟩ := init_megabyte
  have hinv : Invariant (reservedSize 0x100000) s₀ s₀.lists := (hcarved.invariant (by norm_num)).lists
  have hbase : ∀ b ∈ s₀.blocks .allocated, b.2 = 0xc0000000 := by
    rintro ⟨k, b⟩ ⟨hk, p, hp, rfl⟩
    obtain ⟨-, -, ⟨q, hq, haq⟩, hother⟩ := carved_megabyte hcarved
    rw [hcarved.repr.lists_eq (allocated_mem_slots.mpr hk)] at hp
    by_cases hk20 : k = 20
    · subst hk20
      rw [hq, List.mem_singleton] at hp
      rw [hp, haq]
    · simp [hother k hk20] at hp
  refine ⟨s₀, hinit, (relBytes_exact_iff hinv _).mpr ⟨fun k hka => ?_, fun _ b hb => ?_⟩⟩
  · have := hbase _ hka
    simp at this
  · rw [hbase b hb]
    norm_num

/-- The upper half of a block of two megabytes has a free buddy: its release merges the halves and
breaks the free list. -/
theorem relBytes_not_exact :
    ∃ s₀ s₁, directMappingInit 0x100000 .zero = .ok s₀ ∧ reqBytes s₀ 0x100000 = .ok (0xc3e00000, s₁) ∧
      Invariant (reservedSize 0x100000) s₁ s₁.lists ∧ (20, 0xc3e00000) ∈ s₁.blocks .allocated ∧
      ¬ ReleasesExactly 0x100000 s₁ 0xc3e00000 := by
  obtain ⟨s₀, ls, hinit, hcarved⟩ := init_megabyte
  obtain ⟨s₁, s₂, ls₂, x, y, hreq, hinv, ⟨q, hq, hqa⟩, hrel, hinv₂, hpair, -, hax, hay, -⟩ :=
    hcarved.split_state
  have hmem : (20, 0xc3e00000) ∈ s₁.blocks .allocated := ⟨by norm_num, q, hq, hqa⟩
  refine ⟨s₀, s₁, hinit, hreq, hinv, hmem, ?_⟩
  rintro ⟨s', hrun, hfound, -⟩
  have hwell : FreeWell (2 ^ 20) s₂ := hinv₂.sound.freeWell (by decide) hinv₂.ascFree
  have hlists : s₂.lists (.free 20) = [x, y] :=
    (hinv₂.sound.repr.lists_eq (free_mem_slots.mpr (by norm_num))).trans hpair
  have hhalf : LowerHalf 0x100000 20 0xc3d00000 := by
    unfold LowerHalf
    decide
  refine hwell.mergeBlock_broken (a := 0xc3d00000) (by norm_num) ⟨?_, ?_, hhalf⟩ (hrel.symm.trans hrun) _
    ((hfound 20 hmem).repr.mono fun i hi => hi.1)
  · exact ⟨by norm_num, x, by simp [hlists], hax⟩
  · exact ⟨by norm_num, y, by simp [hlists], hay⟩

end XyOS.DirectMapping
