import XyOS.Memory.DirectMappingInvariant
import XyOS.Memory.DirectMappingMergeBlock

/-! `RelBytes` when its search meets the block itself first and the block has no
free buddy. -/

namespace XyOS.DirectMapping
open Linked Cells

variable {R : ℕ} {s s' : Allocator} {ls : Slot → List ℕ} {k p : ℕ}

/-! ## The search for the block -/

theorem relScan_skip {a head : ℕ} (xs rest : List ℕ) (fuel tmp : ℕ) (h : Seg s.next tmp (xs ++ rest) head)
    (hhead : head ∉ xs ++ rest) (hlt : ∀ q ∈ xs, s.blockAddr q < a) :
    relScan a head (fuel + xs.length) s tmp = relScan a head fuel s (lastFrom tmp xs) := by
  induction xs generalizing tmp with
  | nil => rfl
  | cons n xs ih =>
    have hne : head ≠ n := fun e => hhead (by simp [e])
    have hn := hlt n (List.mem_cons_self ..)
    rw [List.length_cons, ← Nat.add_assoc, relScan, h.1, if_neg hne.symm, if_neg hn.ne, if_neg (by omega)]
    exact ih n h.2 (fun e => hhead (List.mem_cons_of_mem _ e)) fun q hq => hlt q (List.mem_cons_of_mem _ hq)

theorem exists_fuel {n fuel : ℕ} (h : n < fuel) : ∃ f, fuel = f + 1 + n := ⟨fuel - n - 1, by omega⟩

theorem relScan_none (a : ℕ) {head : ℕ} (ns : List ℕ) (fuel tmp : ℕ) (h : Seg s.next tmp ns head)
    (hhead : head ∉ ns) (hlt : ∀ q ∈ ns, s.blockAddr q < a) (hfuel : ns.length < fuel) :
    relScan a head fuel s tmp = .ok none := by
  obtain ⟨f, rfl⟩ := exists_fuel hfuel
  have hskip := relScan_skip ns [] (f + 1) tmp (by rwa [List.append_nil]) (by rwa [List.append_nil]) hlt
  rw [hskip, relScan, if_pos h.next_end]

theorem relScan_some {head : ℕ} (xs ys : List ℕ) (fuel tmp : ℕ) (h : Seg s.next tmp (xs ++ p :: ys) head)
    (hhead : head ∉ xs ++ p :: ys) (hlt : ∀ q ∈ xs, s.blockAddr q < s.blockAddr p)
    (hfuel : xs.length < fuel) :
    relScan (s.blockAddr p) head fuel s tmp = .ok (some (s.listRemove (lastFrom tmp xs))) := by
  obtain ⟨f, rfl⟩ := exists_fuel hfuel
  have hne : p ≠ head := fun e => hhead (by simp [e])
  rw [relScan_skip xs _ _ tmp h hhead hlt, relScan, h.next_last, if_neg hne, if_pos rfl]

theorem relScan_above {a head : ℕ} (xs ys : List ℕ) (fuel tmp : ℕ) (h : Seg s.next tmp (xs ++ p :: ys) head)
    (hhead : head ∉ xs ++ p :: ys) (hlt : ∀ q ∈ xs, s.blockAddr q < a) (hp : a < s.blockAddr p)
    (hfuel : xs.length < fuel) : relScan a head fuel s tmp = .ok (some (lastFrom tmp xs, s)) := by
  obtain ⟨f, rfl⟩ := exists_fuel hfuel
  have hne : p ≠ head := fun e => hhead (by simp [e])
  rw [relScan_skip xs _ _ tmp h hhead hlt, relScan, h.next_last, if_neg hne, if_neg hp.ne', if_pos hp]

theorem Repr.relFind_skip (h : Repr s slots ls) (a d : ℕ) {n : ℕ} (hn : n + d ≤ 26)
    (hlow : ∀ j, 26 - (n + d) ≤ j → j < 26 - n → ∀ q ∈ ls (.allocated j), s.blockAddr q < a) :
    relFind a (n + d) s = relFind a n s := by
  induction d with
  | zero => rfl
  | succ d ih =>
    rw [← ih (by omega) fun j h1 h2 => hlow j (by omega) h2]
    have hj : kMemBlockTypeNum - (n + d + 1) < 26 := by simp only [kMemBlockTypeNum]; omega
    have hmem := allocated_mem_slots.mpr hj
    rw [← Nat.add_assoc, relFind, slot_allocated s hj]
    simp only [bind, Except.bind]
    by_cases he : isListEmpty s.next (s.head (.allocated (kMemBlockTypeNum - (n + d + 1)))) = true
    · rw [if_pos he]
    · rw [if_neg he, relScan_none a _ loopFuel _ (h.rings.seg _ hmem) (h.head_notMem hmem)
        (hlow _ (by simp only [kMemBlockTypeNum]; omega) (by simp only [kMemBlockTypeNum]; omega))
        (h.length_lt hmem)]

theorem Repr.relBytes_none (h : Repr s slots ls) (kEnd a : ℕ)
    (hlow : ∀ j < 26, ∀ q ∈ ls (.allocated j), s.blockAddr q < a) : relBytes kEnd s a = .ok s := by
  have hfind : relFind a kMemBlockTypeNum s = .ok none := by
    have hskip := h.relFind_skip a 26 (n := 0) le_rfl fun j _ hj => hlow j hj
    exact hskip
  rw [relBytes, hfind]
  rfl

/-- No allocated block of a smaller type than `k` lies above `a`. -/
def FirstMet (s : Allocator) (ls : Slot → List ℕ) (k a : ℕ) : Prop :=
  ∀ j < k, ∀ q ∈ ls (.allocated j), s.blockAddr q < a

theorem Repr.relFind_stop {a : ℕ} {r : ℕ × Allocator} (h : Repr s slots ls) (hk : k < 26)
    (hne : ls (.allocated k) ≠ []) (hfirst : FirstMet s ls k a)
    (hscan : relScan a (s.head (.allocated k)) loopFuel s (s.head (.allocated k)) = .ok (some r)) :
    relFind a kMemBlockTypeNum s = .ok (some (k, r)) := by
  have hskip := h.relFind_skip a k (n := 26 - k) (by omega) fun j _ hj => hfirst j (by omega)
  have hsum : 26 - k + k = kMemBlockTypeNum := by simp only [kMemBlockTypeNum]; omega
  obtain ⟨m, hm⟩ : ∃ m, 26 - k = m + 1 := ⟨25 - k, by omega⟩
  have htype : kMemBlockTypeNum - (m + 1) = k := by simp only [kMemBlockTypeNum]; omega
  have hfull : isListEmpty s.next (s.head (.allocated k)) ≠ true := fun he =>
    hne ((h.empty_iff (allocated_mem_slots.mpr hk)).mp he)
  rw [hsum] at hskip
  rw [hskip, hm, relFind, htype, slot_allocated s hk]
  simp only [bind, Except.bind, if_neg hfull, hscan]

theorem Repr.relFind_block (h : Repr s slots ls) (hk : k < 26) {xs ys : List ℕ}
    (hls : ls (.allocated k) = xs ++ p :: ys) (hxs : ∀ q ∈ xs, s.blockAddr q < s.blockAddr p)
    (hfirst : FirstMet s ls k (s.blockAddr p)) :
    relFind (s.blockAddr p) kMemBlockTypeNum s =
      .ok (some (k, s.listRemove (lastFrom (s.head (.allocated k)) xs))) := by
  have hmem := allocated_mem_slots.mpr hk
  have hseg := h.rings.seg _ hmem
  have hhead := h.head_notMem hmem
  have hlen := h.length_lt hmem
  rw [hls] at hseg hhead hlen
  rw [List.length_append] at hlen
  exact h.relFind_stop hk (by simp [hls]) hfirst (relScan_some xs ys loopFuel _ hseg hhead hxs (by omega))

/-! ## No merge -/

def Buddies (R k a b : ℕ) : Prop := a + 2 ^ k = b ∧ (a - R) / 2 ^ k % 2 = 0

def Unmerged (R : ℕ) (blk : ℕ → ℕ) (k : ℕ) (l : List ℕ) : Prop :=
  ∀ x ∈ l, ∀ y ∈ l, ¬ Buddies R k (blk x) (blk y)

theorem Unmerged.subset {blk blk' : ℕ → ℕ} {l l' : List ℕ} (h : Unmerged R blk k l)
    (hsub : ∀ x ∈ l', x ∈ l) (hblk : ∀ x ∈ l', blk' x = blk x) : Unmerged R blk' k l' := by
  intro x hx y hy
  rw [hblk x hx, hblk y hy]
  exact h x (hsub x hx) y (hsub y hy)

theorem unmerged_singleton (R : ℕ) (blk : ℕ → ℕ) (k x : ℕ) : Unmerged R blk k [x] := by
  intro y hy z hz h
  rw [List.mem_singleton.mp hy, List.mem_singleton.mp hz] at h
  have hpos : 0 < 2 ^ k := by positivity
  have := h.1
  omega

theorem Sound.mergeBlock_none (h : Sound R s ls) (kEnd : ℕ) (hR : reservedSize kEnd ≤ kKVirtualAddr)
    (hk : k < 26) (hun : k < 25 → Unmerged (reservedSize kEnd) s.blockAddr k (ls (.free k))) :
    mergeBlock kEnd loopFuel s k = .ok s := by
  rcases h.repr.mergeBlock_cases kEnd (free_mem_slots.mpr hk) hk (show 0 < loopFuel by decide) with
    ⟨hstop, -⟩ | ⟨hk', xs, b₁, b₂, ys, hls, ⟨hsum, hparity⟩, -⟩
  · exact hstop
  · have hb₁ : b₁ ∈ ls (.free k) := by simp [hls]
    have hb₂ : b₂ ∈ ls (.free k) := by simp [hls]
    have hbounds := h.blocks.bounds (k := k) (p := b₁) ⟨hk, Or.inl hb₁⟩
    have hlt := h.blocks.lt (k := k) (p := b₁) ⟨hk, Or.inl hb₁⟩
    rw [getMemBlockSize, u32_of_lt hlt] at hsum
    have haddr : s.blockAddr b₁ < 2 ^ 32 := lt_of_le_of_lt (Nat.le_add_right _ _) hlt
    rw [getMemBlockSize, sub32_of_le (hR.trans hbounds.1) haddr] at hparity
    exact absurd ⟨hsum, hparity⟩ (hun hk' b₁ hb₁ b₂ hb₂)

/-! ## The release -/

def giveLists (blk : ℕ → ℕ) (ls : Slot → List ℕ) (k p : ℕ) (rest : List ℕ) : Slot → List ℕ :=
  Function.update (Function.update ls (.allocated k) rest) (.free k)
    (insertAt blk (blk p) p (ls (.free k)))

section Give
variable {rest xs ys : List ℕ} {blk : ℕ → ℕ}

@[simp] theorem giveLists_allocated_self : giveLists blk ls k p rest (.allocated k) = rest := by
  simp [giveLists]

theorem giveLists_allocated_of_ne {j : ℕ} (hj : j ≠ k) :
    giveLists blk ls k p rest (.allocated j) = ls (.allocated j) := by simp [giveLists, hj]

@[simp] theorem giveLists_free_self :
    giveLists blk ls k p rest (.free k) = insertAt blk (blk p) p (ls (.free k)) :=
  Function.update_self ..

theorem giveLists_free_of_ne {j : ℕ} (hj : j ≠ k) :
    giveLists blk ls k p rest (.free j) = ls (.free j) := by simp [giveLists, hj]

theorem holds_giveLists (hp : ls (.allocated k) = xs ++ p :: ys) (j x : ℕ) :
    Holds (giveLists blk ls k p (xs ++ ys)) j x ↔ Holds ls j x := by
  by_cases hj : j = k
  · subst hj
    simp only [Holds, giveLists_free_self, giveLists_allocated_self, mem_insertAt, hp, List.mem_append,
      List.mem_cons]
    tauto
  · simp only [Holds, giveLists_free_of_ne hj, giveLists_allocated_of_ne hj]

theorem nodes_giveLists (hk : k < 26) (hp : ls (.allocated k) = xs ++ p :: ys) :
    nodes slots (giveLists blk ls k p (xs ++ ys)) = nodes slots ls := by
  have hfree : Function.update ls (.allocated k) (xs ++ ys) (.free k) = ls (.free k) := by simp
  rw [giveLists, insertAt, nodes_push (free_mem_slots.mpr hk) p]
  · exact nodes_pop (allocated_mem_slots.mpr hk) hp
  · rw [hfree, List.takeWhile_append_dropWhile]

theorem Sound.relBytes_eq (h : Sound R s ls) (kEnd : ℕ) (hk : k < 26)
    (hp : ls (.allocated k) = xs ++ p :: ys) (hxs : ∀ q ∈ xs, s.blockAddr q < s.blockAddr p)
    (hfirst : FirstMet s ls k (s.blockAddr p)) :
    ∃ s', relBytes kEnd s (s.blockAddr p) = mergeBlock kEnd loopFuel s' k ∧
      Sound R s' (giveLists s.blockAddr ls k p (xs ++ ys)) ∧ s'.head = s.head ∧ s'.addr = s.addr := by
  have hf : Slot.free k ∈ slots := free_mem_slots.mpr hk
  have ha : Slot.allocated k ∈ slots := allocated_mem_slots.mpr hk
  have hpn : IsNode p := h.repr.isNode ha (by simp [hp])
  obtain ⟨e1, r1, l1⟩ := h.repr.listRemove ha xs hp
  have hfind := h.repr.relFind_block hk hp hxs hfirst
  set s₁ := (s.listRemove (lastFrom (s.head (.allocated k)) xs)).2 with hs₁
  have hfree : Function.update ls (.allocated k) (xs ++ ys) (.free k) = ls (.free k) := by simp
  obtain ⟨tmp, -, hseek, r2⟩ := r1.seekAdd hf hpn l1 (s.blockAddr p)
  rw [hfree] at r2
  refine ⟨s₁.listAdd tmp p, ?_, ⟨r2, h.blocks.congr (holds_giveLists hp) fun _ _ _ => rfl⟩, rfl, rfl⟩
  have hpair : s.listRemove (lastFrom (s.head (.allocated k)) xs) = (p, s₁) := Prod.ext e1 rfl
  rw [relBytes, hfind, hpair]
  simp only [bind, Except.bind, slot_free s₁ hk, hseek]

theorem Sound.give (h : Sound R s ls) (kEnd : ℕ) (hR : reservedSize kEnd ≤ kKVirtualAddr) (hk : k < 26)
    (hp : ls (.allocated k) = xs ++ p :: ys) (hxs : ∀ q ∈ xs, s.blockAddr q < s.blockAddr p)
    (hfirst : FirstMet s ls k (s.blockAddr p))
    (hun : k < 25 → Unmerged (reservedSize kEnd) s.blockAddr k
      (insertAt s.blockAddr (s.blockAddr p) p (ls (.free k)))) :
    ∃ s', relBytes kEnd s (s.blockAddr p) = .ok s' ∧
      Sound R s' (giveLists s.blockAddr ls k p (xs ++ ys)) ∧ s'.head = s.head ∧ s'.addr = s.addr := by
  obtain ⟨s', hrun, hsound, hhead, haddr⟩ := h.relBytes_eq kEnd hk hp hxs hfirst
  refine ⟨s', ?_, hsound, hhead, haddr⟩
  rw [hrun]
  refine hsound.mergeBlock_none kEnd hR hk fun hk' => ?_
  have hblk : s'.blockAddr = s.blockAddr := funext fun x => congrFun haddr (getStruct x)
  rw [giveLists_free_self, hblk]
  exact hun hk'

end Give

structure Released (R : ℕ) (s : Allocator) (ls : Slot → List ℕ) (k a : ℕ)
    (s' : Allocator) (ls' : Slot → List ℕ) : Prop where
  inv : Invariant R s' ls'
  nodes : nodes slots ls' = nodes slots ls
  gone : ∀ x, x ∈ ls' (.allocated k) ↔ x ∈ ls (.allocated k) ∧ s.blockAddr x ≠ a
  allocated : ∀ j, j ≠ k → ls' (.allocated j) = ls (.allocated j)
  back : ∃ p, s.blockAddr p = a ∧ ∀ x, x ∈ ls' (.free k) ↔ x = p ∨ x ∈ ls (.free k)
  free : ∀ j, j ≠ k → ls' (.free j) = ls (.free j)
  holds : ∀ j x, Holds ls' j x ↔ Holds ls j x
  addr : s'.addr = s.addr

def NoFreeBuddy (R : ℕ) (s : Allocator) (ls : Slot → List ℕ) (k a : ℕ) : Prop :=
  ∀ q ∈ ls (.free k), ¬ Buddies R k a (s.blockAddr q) ∧ ¬ Buddies R k (s.blockAddr q) a

theorem Unmerged.insert {blk : ℕ → ℕ} {l : List ℕ} (h : Unmerged R blk k l)
    (hp : ∀ q ∈ l, ¬ Buddies R k (blk p) (blk q) ∧ ¬ Buddies R k (blk q) (blk p)) :
    Unmerged R blk k (insertAt blk (blk p) p l) := by
  intro x hx y hy
  rcases mem_insertAt.mp hx with rfl | hx' <;> rcases mem_insertAt.mp hy with rfl | hy'
  · exact unmerged_singleton R blk k y y (by simp) y (by simp)
  · exact (hp y hy').1
  · exact (hp x hx').2
  · exact h x hx' y hy'

theorem Invariant.ascFree_give {rest : List ℕ} (h : Invariant R s ls) (hk : k < 26)
    (hp : p ∈ ls (.allocated k)) (j : ℕ) (hj : j < 26) :
    Ascending s.blockAddr (giveLists s.blockAddr ls k p rest (.free j)) := by
  by_cases hjk : j = k
  · subst hjk
    rw [giveLists_free_self]
    refine ascending_insertAt (h.ascFree j hj) fun x hx he => ?_
    obtain rfl := h.sound.blocks.inj j x p ⟨hj, Or.inl hx⟩ ⟨hj, Or.inr hp⟩ he
    exact h.sound.free_notMem_allocated hj hx j hj hp
  · rw [giveLists_free_of_ne hjk]
    exact h.ascFree j hj

theorem Invariant.allocated_split (h : Invariant R s ls) (hk : k < 26) (hp : p ∈ ls (.allocated k)) :
    ∃ xs ys, ls (.allocated k) = xs ++ p :: ys ∧ (∀ q ∈ xs, s.blockAddr q < s.blockAddr p) ∧
      ∀ x, x ∈ xs ++ ys ↔ x ∈ ls (.allocated k) ∧ s.blockAddr x ≠ s.blockAddr p := by
  obtain ⟨xs, ys, hls⟩ := List.append_of_mem hp
  have hasc := h.ascAllocated k hk
  rw [hls] at hasc
  have hasc' := List.pairwise_append.mp hasc
  have hxs : ∀ q ∈ xs, s.blockAddr q < s.blockAddr p := fun q hq => hasc'.2.2 q hq p (by simp)
  have hys : ∀ q ∈ ys, s.blockAddr p < s.blockAddr q := (List.pairwise_cons.mp hasc'.2.1).1
  refine ⟨xs, ys, hls, hxs, fun x => ?_⟩
  rw [hls]
  simp only [List.mem_append, List.mem_cons]
  constructor
  · rintro (hx | hx)
    · exact ⟨Or.inl hx, (hxs x hx).ne⟩
    · exact ⟨Or.inr (Or.inr hx), (hys x hx).ne'⟩
  · rintro ⟨hx | rfl | hx, hxa⟩
    · exact Or.inl hx
    · exact absurd rfl hxa
    · exact Or.inr hx

theorem Invariant.give (h : Invariant R s ls) (hk : k < 26) (hls : ls (.allocated k) = xs ++ p :: ys)
    (hgone : ∀ x, x ∈ xs ++ ys ↔ x ∈ ls (.allocated k) ∧ s.blockAddr x ≠ s.blockAddr p)
    (hne : s.blockAddr p ≠ kKVirtualAddr)
    {s' : Allocator} (hsound : Sound R s' (giveLists s.blockAddr ls k p (xs ++ ys)))
    (hblk : s'.blockAddr = s.blockAddr) : Invariant R s' (giveLists s.blockAddr ls k p (xs ++ ys)) := by
  have hp : p ∈ ls (.allocated k) := by
    rw [hls]
    exact List.mem_append_right _ List.mem_cons_self
  have hasc := h.ascAllocated k hk
  rw [hls] at hasc
  refine ⟨hsound, ?_, ?_, ?_⟩
  · intro j hj
    rw [hblk]
    exact h.ascFree_give hk hp j hj
  · intro j hj
    rw [hblk]
    by_cases hjk : j = k
    · subst hjk
      rw [giveLists_allocated_self]
      exact hasc.sublist (List.Sublist.append_left (List.sublist_cons_self p ys) xs)
    · rw [giveLists_allocated_of_ne hjk]
      exact h.ascAllocated j hj
  · obtain ⟨r, x, hr, hlt, hx, hax⟩ := h.reserved
    refine ⟨r, x, hr, hlt, ?_, by rw [hblk, hax]⟩
    by_cases hrk : r = k
    · subst hrk
      rw [giveLists_allocated_self, hgone]
      exact ⟨hx, fun e => hne (e.symm.trans hax)⟩
    · rwa [giveLists_allocated_of_ne hrk]

theorem Invariant.relBytes (h : Invariant R s ls) (kEnd : ℕ) (hR : R = reservedSize kEnd) (hk : k < 26)
    (hp : p ∈ ls (.allocated k)) (hne : s.blockAddr p ≠ kKVirtualAddr)
    (hfirst : FirstMet s ls k (s.blockAddr p))
    (hun : k < 25 → Unmerged R s.blockAddr k (ls (.free k)))
    (hbuddy : k < 25 → NoFreeBuddy R s ls k (s.blockAddr p)) :
    ∃ s' ls', DirectMapping.relBytes kEnd s (s.blockAddr p) = .ok s' ∧
      Released R s ls k (s.blockAddr p) s' ls' := by
  obtain ⟨xs, ys, hls, hxs, hgone⟩ := h.allocated_split hk hp
  have hbase : reservedSize kEnd ≤ kKVirtualAddr := by
    obtain ⟨r, -, hr, hlt, -⟩ := h.reserved
    rw [← hR, hr]
    exact (Nat.pow_le_pow_right (by norm_num) (show r ≤ 25 by omega)).trans (by decide)
  obtain ⟨s', hrun, hsound, hhead, haddr⟩ := h.sound.give kEnd hbase hk hls hxs hfirst
    fun hk' => by rw [← hR]; exact (hun hk').insert (hbuddy hk')
  have hblk : s'.blockAddr = s.blockAddr := funext fun x => congrFun haddr (getStruct x)
  refine ⟨s', _, hrun, h.give hk hls hgone hne hsound hblk, nodes_giveLists hk hls, ?_, ?_, ?_, ?_,
    holds_giveLists hls, haddr⟩
  · intro x
    rw [giveLists_allocated_self]
    exact hgone x
  · exact fun j hj => giveLists_allocated_of_ne hj
  · exact ⟨p, rfl, fun x => by rw [giveLists_free_self, mem_insertAt]⟩
  · exact fun j hj => giveLists_free_of_ne hj

end XyOS.DirectMapping
