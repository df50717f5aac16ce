import XyOS.Memory.DirectMappingView

/-! `MergeBlock` on a family of rings. After a merge the second `ListRemove` has unlinked the node
behind the second block, so the free list still leads to the second block, which is in the pool by
then. -/

namespace XyOS.DirectMapping
open Linked

variable {s s' : Allocator} {ls : Slot → List ℕ} {D : Set Slot} {kEnd k : ℕ}

/-! ## The search for a pair -/

def AcceptedPair (kEnd k a b : ℕ) : Prop :=
  u32 (a + getMemBlockSize k) = b ∧ sub32 a (reservedSize kEnd) / getMemBlockSize k % 2 = 0

def HasPair (kEnd : ℕ) (s : Allocator) (k : ℕ) (l : List ℕ) : Prop :=
  ∃ xs b₁ b₂ ys, l = xs ++ b₁ :: b₂ :: ys ∧ AcceptedPair kEnd k (s.blockAddr b₁) (s.blockAddr b₂)

theorem not_hasPair_nil (kEnd : ℕ) (s : Allocator) (k : ℕ) : ¬ HasPair kEnd s k [] := by
  rintro ⟨xs, b₁, b₂, ys, he, -⟩
  simp at he

theorem not_hasPair_singleton (kEnd : ℕ) (s : Allocator) (k b : ℕ) : ¬ HasPair kEnd s k [b] := by
  rintro ⟨xs, b₁, b₂, ys, he, -⟩
  have hlen := congrArg List.length he
  simp at hlen
  omega

theorem hasPair_cons_cons {b₁ b₂ : ℕ} {l : List ℕ} : HasPair kEnd s k (b₁ :: b₂ :: l) ↔
    AcceptedPair kEnd k (s.blockAddr b₁) (s.blockAddr b₂) ∨ HasPair kEnd s k (b₂ :: l) := by
  constructor
  · rintro ⟨xs, c₁, c₂, ys, he, hacc⟩
    cases xs with
    | nil =>
      simp only [List.nil_append, List.cons.injEq] at he
      obtain ⟨rfl, rfl, -⟩ := he
      exact Or.inl hacc
    | cons x xs =>
      simp only [List.cons_append, List.cons.injEq] at he
      exact Or.inr ⟨xs, c₁, c₂, ys, he.2, hacc⟩
  · rintro (hacc | ⟨xs, c₁, c₂, ys, he, hacc⟩)
    · exact ⟨[], b₁, b₂, l, rfl, hacc⟩
    · exact ⟨b₁ :: xs, c₁, c₂, ys, by rw [he]; rfl, hacc⟩

theorem mergeable_eq_true {head tmp b₁ b₂ : ℕ} (h₁ : s.next tmp = b₁) (h₂ : s.next b₁ = b₂) (hne : b₂ ≠ head) :
    mergeable kEnd s k head tmp = true ↔ AcceptedPair kEnd k (s.blockAddr b₁) (s.blockAddr b₂) := by
  simp only [mergeable, h₁, h₂, AcceptedPair, Bool.and_eq_true, bne_iff_ne, beq_iff_eq]
  tauto

theorem mergeable_last {head tmp b₁ : ℕ} (h₁ : s.next tmp = b₁) (h₂ : s.next b₁ = head) :
    mergeable kEnd s k head tmp = false := by
  simp [mergeable, h₁, h₂]

theorem mergeFind_spec (kEnd k : ℕ) {head : ℕ} (ns : List ℕ) (fuel tmp : ℕ) (h : Seg s.next tmp ns head)
    (hhead : head ∉ ns) (hfuel : ns.length < fuel) :
    (mergeFind kEnd s k head fuel tmp = .ok none ∧ ¬ HasPair kEnd s k ns) ∨
      ∃ xs b₁ b₂ ys, ns = xs ++ b₁ :: b₂ :: ys ∧
        AcceptedPair kEnd k (s.blockAddr b₁) (s.blockAddr b₂) ∧
        mergeFind kEnd s k head fuel tmp = .ok (some (lastFrom tmp xs)) := by
  induction ns generalizing tmp fuel with
  | nil =>
    obtain ⟨fuel, rfl⟩ : ∃ f, fuel = f + 1 := ⟨fuel - 1, by simp at hfuel; omega⟩
    exact Or.inl ⟨by rw [mergeFind, if_pos (seg_nil.mp h)], not_hasPair_nil kEnd s k⟩
  | cons b₁ ns ih =>
    obtain ⟨fuel, rfl⟩ : ∃ f, fuel = f + 1 := ⟨fuel - 1, by simp at hfuel; omega⟩
    obtain ⟨h₁, h₂⟩ := h
    simp only [List.mem_cons, not_or] at hhead
    have hstep : mergeFind kEnd s k head (fuel + 1) tmp =
        if mergeable kEnd s k head tmp then .ok (some tmp) else mergeFind kEnd s k head fuel b₁ := by
      rw [mergeFind, h₁, if_neg (Ne.symm hhead.1)]
    have hrec := ih fuel b₁ h₂ hhead.2 (by simpa using hfuel)
    cases ns with
    | nil =>
      rw [hstep, mergeable_last h₁ h₂, if_neg (by simp)]
      rcases hrec with ⟨hnone, -⟩ | ⟨xs, c₁, c₂, ys, he, -⟩
      · exact Or.inl ⟨hnone, not_hasPair_singleton kEnd s k b₁⟩
      · simp at he
    | cons b₂ ys =>
      have hne : b₂ ≠ head := fun e => hhead.2 (by simp [e])
      by_cases hpair : AcceptedPair kEnd k (s.blockAddr b₁) (s.blockAddr b₂)
      · refine Or.inr ⟨[], b₁, b₂, ys, rfl, hpair, ?_⟩
        rw [hstep, if_pos ((mergeable_eq_true h₁ h₂.1 hne).mpr hpair)]
        rfl
      · have hno : ¬ mergeable kEnd s k head tmp = true := fun e =>
          hpair ((mergeable_eq_true h₁ h₂.1 hne).mp e)
        rw [hstep, if_neg hno]
        rcases hrec with ⟨hnone, hno⟩ | ⟨xs, c₁, c₂, zs, he, hacc, hsome⟩
        · exact Or.inl ⟨hnone, fun h => (hasPair_cons_cons.mp h).elim hpair hno⟩
        · exact Or.inr ⟨b₁ :: xs, c₁, c₂, zs, by rw [he]; rfl, hacc, hsome⟩

/-! ## One merge -/

/-- `ListRemove(tmp); ListRemove(tmp->next); RelMemBlock(block2)`. -/
def unlinkPair (s : Allocator) (tmp : ℕ) : Allocator :=
  let block2 := getStruct (s.next (s.next tmp))
  let s := (s.listRemove tmp).2
  let s := (s.listRemove (s.next tmp)).2
  relMemBlock s block2

theorem mergeBlock_some {fuel tmp : ℕ} (hk : k < 25)
    (hfind : mergeFind kEnd s k (s.head (.free k)) loopFuel (s.head (.free k)) = .ok (some tmp)) :
    mergeBlock kEnd (fuel + 1) s k = (do
      let upper ← slot (unlinkPair s tmp).freeMemList (k + 1)
      let tmp' ← seek (unlinkPair s tmp) upper ((unlinkPair s tmp).addr (getStruct (s.next tmp)))
      mergeBlock kEnd fuel ((unlinkPair s tmp).listAdd tmp' (nodeOf (getStruct (s.next tmp)))) (k + 1)) := by
  have hlast : ¬ k = kMemBlockTypeNum - 1 := by simp only [kMemBlockTypeNum]; omega
  rw [mergeBlock, if_neg hlast, slot_free s (by omega)]
  simp only [bind, Except.bind, hfind]
  rfl

/-- The links after both calls of `ListRemove`. The second one is given `b₂`, which the first one
has moved behind `tmp`, so it removes the node behind the pair. -/
def removedTwice (next : ℕ → ℕ) (tmp b₂ : ℕ) : ℕ → ℕ := removeAfter 0 (removeAfter 0 next tmp) b₂

section
variable {next : ℕ → ℕ} {H b₁ b₂ x : ℕ} {xs ys : List ℕ}

theorem removedOnce_second (hseg : Seg next H (xs ++ b₁ :: b₂ :: ys) H)
    (hnd : (H :: (xs ++ b₁ :: b₂ :: ys)).Nodup) :
    removeAfter 0 next (lastFrom H xs) b₂ = ys.headD H := (hseg.erase hnd).next_headD

theorem headD_mem_ring (H b₁ b₂ : ℕ) (xs ys : List ℕ) : ys.headD H ∈ H :: (xs ++ b₁ :: b₂ :: ys) := by
  cases ys with
  | nil => exact List.mem_cons_self
  | cons y ys => simp

theorem removedTwice_outside (hseg : Seg next H (xs ++ b₁ :: b₂ :: ys) H)
    (hnd : (H :: (xs ++ b₁ :: b₂ :: ys)).Nodup) (hx : x ∉ H :: (xs ++ b₁ :: b₂ :: ys)) :
    removedTwice next (lastFrom H xs) b₂ x = next x := by
  have hb₁ : next (lastFrom H xs) = b₁ := hseg.next_last
  have htmp : x ≠ lastFrom H xs := fun e => hx (e ▸ lastFrom_mem_append ..)
  have h1 : x ≠ b₁ := fun e => hx (by simp [e])
  have h2 : x ≠ b₂ := fun e => hx (by simp [e])
  have hc : x ≠ ys.headD H := fun e => hx (e ▸ headD_mem_ring ..)
  rw [removedTwice, removeAfter_of_ne h2 (by rwa [removedOnce_second hseg hnd]),
    removeAfter_of_ne htmp (by rwa [hb₁])]

theorem removedTwice_tail (hseg : Seg next H (xs ++ b₁ :: b₂ :: []) H)
    (hnd : (H :: (xs ++ b₁ :: b₂ :: [])).Nodup) : removedTwice next (lastFrom H xs) b₂ H = 0 := by
  have hsecond : removeAfter 0 next (lastFrom H xs) b₂ = H := removedOnce_second hseg hnd
  rw [removedTwice, removeAfter, hsecond, Function.update_self]

theorem removedTwice_inner (hseg : Seg next H (xs ++ b₁ :: b₂ :: ys) H)
    (hnd : (H :: (xs ++ b₁ :: b₂ :: ys)).Nodup) (hys : ys ≠ []) :
    Seg (removedTwice next (lastFrom H xs) b₂) H xs b₂ := by
  obtain ⟨y, ys, rfl⟩ := List.exists_cons_of_ne_nil hys
  have hsecond : removeAfter 0 next (lastFrom H xs) b₂ = y := removedOnce_second hseg hnd
  have hfirst : Seg (removeAfter 0 next (lastFrom H xs)) H (xs ++ b₂ :: y :: ys) H := hseg.erase hnd
  refine hfirst.before.congr fun x hx => ?_
  have hne : x ≠ b₂ ∧ x ≠ y := by
    constructor <;>
    · rintro rfl
      simp only [List.nodup_cons, List.nodup_append, List.mem_append, List.mem_cons, not_or] at hnd hx
      grind
  rw [removedTwice, removeAfter_of_ne hne.1 (by rw [hsecond]; exact hne.2)]

end

theorem unlinkPair_next {tmp b₁ b₂ : ℕ} (hb₁ : s.next tmp = b₁) (hb₂ : s.next b₁ = b₂)
    (htmp : removeAfter 0 s.next tmp tmp = b₂) (hnode : IsNode b₂) :
    (unlinkPair s tmp).next =
      insertAfter (Function.update (removedTwice s.next tmp b₂) b₂ 0) s.memBlockPool b₂ := by
  simp only [unlinkPair, relMemBlock, Allocator.listAdd, Allocator.listRemove, XyOS.listRemove, htmp, hb₁, hb₂,
    hnode.nodeOf_getStruct]
  rfl

/-- What is left of the list of type `k`: it ends in `NULL` if the pair was at its end, and runs into
the pool otherwise. -/
structure Unlinked (s : Allocator) (k : ℕ) (xs : List ℕ) (b₁ b₂ : ℕ) (ys : List ℕ) (s' : Allocator) : Prop where
  frame : ∀ x, x ∉ s.head (.free k) :: (xs ++ b₁ :: b₂ :: ys) → x ≠ s.memBlockPool → s'.next x = s.next x
  pool : s'.next s.memBlockPool = b₂
  second : s'.next b₂ = s.next s.memBlockPool
  tail : ys = [] → s'.next (s.head (.free k)) = 0
  inner : ys ≠ [] → Seg s'.next (s.head (.free k)) xs b₂

theorem Repr.unlinked {xs ys : List ℕ} {b₁ b₂ : ℕ} (h : Repr s D ls) (hi : .free k ∈ D)
    (hls : ls (.free k) = xs ++ b₁ :: b₂ :: ys) (hpool : Loose D s.head ls s.memBlockPool) :
    Unlinked s k xs b₁ b₂ ys (unlinkPair s (lastFrom (s.head (.free k)) xs)) := by
  have hseg := h.rings.seg _ hi
  have hnd := h.rings.nodup _ hi
  have hout := hpool _ hi
  have hnode : IsNode b₂ := h.isNode hi (by simp [hls])
  rw [hls] at hseg hnd hout
  have hsecond : s.next b₁ = b₂ := hseg.next_headD
  have hnext := unlinkPair_next hseg.next_last hsecond (hseg.erase hnd).next_last hnode
  have hpool₂ : s.memBlockPool ≠ b₂ := fun e => hout (by simp [e])
  have hkeep : ∀ x, x ≠ s.memBlockPool → x ≠ b₂ →
      (unlinkPair s (lastFrom (s.head (.free k)) xs)).next x =
        removedTwice s.next (lastFrom (s.head (.free k)) xs) b₂ x := by
    intro x hx h2
    rw [hnext, insertAfter_of_ne hx h2, Function.update_of_ne h2]
  have hring : ∀ x ∈ s.head (.free k) :: xs, x ≠ s.memBlockPool ∧ x ≠ b₂ := by
    intro x hx
    refine ⟨fun e => hout (e ▸ List.mem_append_left _ hx), ?_⟩
    rintro rfl
    simp only [List.nodup_cons, List.nodup_append, List.mem_append, List.mem_cons, not_or] at hnd hx
    grind
  refine ⟨fun x hx hxP => ?_, ?_, ?_, fun hys => ?_, fun hys => ?_⟩
  · have h2 : x ≠ b₂ := fun e => hx (by simp [e])
    rw [hkeep x hxP h2, removedTwice_outside hseg hnd hx]
  · rw [hnext, insertAfter_prev hpool₂]
  · rw [hnext, insertAfter_new, Function.update_of_ne hpool₂, removedTwice_outside hseg hnd hout]
  · subst hys
    obtain ⟨hP, h2⟩ := hring _ List.mem_cons_self
    rw [hkeep _ hP h2, removedTwice_tail hseg hnd]
  · refine (removedTwice_inner hseg hnd hys).congr fun x hx => ?_
    exact hkeep x (hring x hx).1 (hring x hx).2

/-! ## The merges above -/

def above (k : ℕ) : Set Slot := {i | ∃ j, k ≤ j ∧ j < 26 ∧ i = .free j}

theorem free_mem_above {j : ℕ} (hkj : k ≤ j) (hj : j < 26) : Slot.free j ∈ above k := ⟨j, hkj, hj, rfl⟩

theorem above_succ_subset (k : ℕ) : above (k + 1) ⊆ above k := by
  rintro i ⟨j, hkj, hj, rfl⟩
  exact free_mem_above (by omega) hj

theorem Repr.loose_above {x : ℕ} (h : Repr s (above k) ls) (hk : k < 26)
    (hx : x ∈ s.head (.free k) :: ls (.free k)) : Loose (above (k + 1)) s.head ls x := by
  rintro i ⟨j, hkj, hj, rfl⟩ hxi
  have hslot := h.rings.apart _ (free_mem_above le_rfl hk) _ (free_mem_above (by omega) hj) x hx hxi
  simp only [Slot.free.injEq] at hslot
  omega

/-- The state before the merges of the next type, when the first block of the pair has moved there. -/
structure Stepped (s : Allocator) (ls : Slot → List ℕ) (k : ℕ) (xs : List ℕ) (b₁ : ℕ)
    (s₁ : Allocator) (ls₁ : Slot → List ℕ) : Prop where
  repr : Repr s₁ (above (k + 1)) ls₁
  head : s₁.head = s.head
  keep : ∀ x, Loose (above (k + 1)) s.head ls x → x ≠ b₁ → Loose (above (k + 1)) s.head ls₁ x ∧
    s₁.next x = (unlinkPair s (lastFrom (s.head (.free k)) xs)).next x

theorem Repr.merge_step (fuel : ℕ) {xs ys : List ℕ} {b₁ b₂ : ℕ} (h : Repr s (above k) ls) (hk : k < 25)
    (hls : ls (.free k) = xs ++ b₁ :: b₂ :: ys) (hpool : Loose (above k) s.head ls s.memBlockPool)
    (hfind : mergeFind kEnd s k (s.head (.free k)) loopFuel (s.head (.free k)) =
      .ok (some (lastFrom (s.head (.free k)) xs))) :
    ∃ s₁ ls₁, mergeBlock kEnd (fuel + 1) s k = mergeBlock kEnd fuel s₁ (k + 1) ∧
      Stepped s ls k xs b₁ s₁ ls₁ := by
  have hD := free_mem_above (le_refl k) (show k < 26 by omega)
  have hU : Slot.free (k + 1) ∈ above (k + 1) := free_mem_above le_rfl (by omega)
  have hun := h.unlinked hD hls hpool
  have hb₁ : s.next (lastFrom (s.head (.free k)) xs) = b₁ := h.rings.next_last hD hls
  have hn₁ : IsNode b₁ := h.isNode hD (by simp [hls])
  have hmono := h.mono (above_succ_subset k)
  set s₃ := unlinkPair s (lastFrom (s.head (.free k)) xs) with hs₃
  have hrepr₃ : Repr s₃ (above (k + 1)) ls := by
    refine hmono.congr_next rfl fun x hx => hun.frame x (fun hmem => hx ?_) ?_
    · exact h.loose_above (by omega) (hls ▸ hmem)
    · rintro rfl
      exact hx fun i hi => hpool i (above_succ_subset k hi)
  have hloose : Loose (above (k + 1)) s₃.head ls b₁ := h.loose_above (by omega) (by simp [hls])
  obtain ⟨tmp, htmp, hseek, hrepr⟩ := hrepr₃.seekAdd hU hn₁ hloose (s₃.addr (getStruct b₁))
  refine ⟨s₃.listAdd tmp b₁, _, ?_, hrepr, rfl, fun x hx hne => ⟨?_, ?_⟩⟩
  · rw [mergeBlock_some hk hfind, ← hs₃, hb₁, slot_free s₃ (show k + 1 < 26 by omega)]
    simp only [bind, Except.bind, hseek, hn₁.nodeOf_getStruct]
  · exact hx.add List.takeWhile_append_dropWhile.symm hne
  · refine insertAfter_of_ne (fun e => ?_) hne
    exact hx _ hU (e ▸ htmp)

theorem Stepped.memBlockPool {xs : List ℕ} {b₁ : ℕ} {s₁ : Allocator} {ls₁ : Slot → List ℕ}
    (h : Stepped s ls k xs b₁ s₁ ls₁) : s₁.memBlockPool = s.memBlockPool := congrFun h.head .pool

/-- What `MergeBlock` on type `k` can change: the lists from `k` on and the front of the pool. -/
structure MergedAbove (s : Allocator) (ls : Slot → List ℕ) (k : ℕ) (s' : Allocator) : Prop where
  head : s'.head = s.head
  frame : ∀ x, Loose (above k) s.head ls x → x ≠ s.memBlockPool → s'.next x = s.next x
  pool : ∃ ms, Seg s'.next s.memBlockPool ms (s.next s.memBlockPool)

theorem MergedAbove.refl (s : Allocator) (ls : Slot → List ℕ) (k : ℕ) : MergedAbove s ls k s :=
  ⟨rfl, fun _ _ _ => rfl, [], rfl⟩

theorem Repr.mergeBlock_cases (h : Repr s D ls) (kEnd : ℕ) (hi : .free k ∈ D) (hk : k < 26) {fuel : ℕ}
    (hfuel : 0 < fuel) :
    (mergeBlock kEnd fuel s k = .ok s ∧ (k < 25 → ¬ HasPair kEnd s k (ls (.free k)))) ∨
      k < 25 ∧ ∃ xs b₁ b₂ ys, ls (.free k) = xs ++ b₁ :: b₂ :: ys ∧
        AcceptedPair kEnd k (s.blockAddr b₁) (s.blockAddr b₂) ∧
        mergeFind kEnd s k (s.head (.free k)) loopFuel (s.head (.free k)) =
          .ok (some (lastFrom (s.head (.free k)) xs)) := by
  obtain ⟨fuel, rfl⟩ : ∃ f, fuel = f + 1 := ⟨fuel - 1, by omega⟩
  by_cases hlast : k = 25
  · refine Or.inl ⟨?_, fun hlt => by omega⟩
    rw [mergeBlock, if_pos (by simp only [kMemBlockTypeNum]; omega)]
  · have hne : ¬ k = kMemBlockTypeNum - 1 := by simp only [kMemBlockTypeNum]; omega
    rcases mergeFind_spec kEnd k _ loopFuel _ (h.rings.seg _ hi) (h.head_notMem hi)
      (h.length_lt hi) with ⟨hnone, hno⟩ | hsome
    · refine Or.inl ⟨?_, fun _ => hno⟩
      rw [mergeBlock, if_neg hne, slot_free s hk]
      simp only [bind, Except.bind, hnone]
    · exact Or.inr ⟨by omega, hsome⟩

theorem pool_ne_pair {xs ys : List ℕ} {b₁ b₂ : ℕ} (hk : k < 25)
    (hls : ls (.free k) = xs ++ b₁ :: b₂ :: ys) (hpool : Loose (above k) s.head ls s.memBlockPool) :
    s.memBlockPool ≠ b₁ ∧ s.memBlockPool ≠ b₂ := by
  have hout := hpool _ (free_mem_above (le_refl k) (show k < 26 by omega))
  rw [hls] at hout
  exact ⟨fun e => hout (by simp [e]), fun e => hout (by simp [e])⟩

theorem Stepped.pool_loose {xs ys : List ℕ} {b₁ b₂ : ℕ} {s₁ : Allocator} {ls₁ : Slot → List ℕ}
    (hstep : Stepped s ls k xs b₁ s₁ ls₁) (hk : k < 25) (hls : ls (.free k) = xs ++ b₁ :: b₂ :: ys)
    (hpool : Loose (above k) s.head ls s.memBlockPool) :
    Loose (above (k + 1)) s₁.head ls₁ s₁.memBlockPool := by
  rw [hstep.head, hstep.memBlockPool]
  exact (hstep.keep _ (fun i hi => hpool i (above_succ_subset k hi)) (pool_ne_pair hk hls hpool).1).1

section Pair
variable {xs ys : List ℕ} {b₁ b₂ : ℕ} {s₁ : Allocator} {ls₁ : Slot → List ℕ}
variable (h : Repr s (above k) ls) (hk : k < 25) (hls : ls (.free k) = xs ++ b₁ :: b₂ :: ys)
variable (hpool : Loose (above k) s.head ls s.memBlockPool)
include h hk hls hpool

theorem Stepped.after (hstep : Stepped s ls k xs b₁ s₁ ls₁) (hmerged : MergedAbove s₁ ls₁ (k + 1) s') :
    s'.head = s.head ∧
      (∀ x, Loose (above (k + 1)) s.head ls x → x ≠ b₁ → x ≠ s.memBlockPool →
        s'.next x = (unlinkPair s (lastFrom (s.head (.free k)) xs)).next x) ∧
      ∃ ms, Seg s'.next s.memBlockPool ms b₂ := by
  have hP := hstep.memBlockPool
  have hun := h.unlinked (free_mem_above (le_refl k) (show k < 26 by omega)) hls hpool
  refine ⟨hmerged.head.trans hstep.head, fun x hx hne hxP => ?_, ?_⟩
  · obtain ⟨hx₁, hnext⟩ := hstep.keep x hx hne
    rw [hmerged.frame x (hstep.head ▸ hx₁) (hP ▸ hxP), hnext]
  · obtain ⟨ms, hms⟩ := hmerged.pool
    have hnext := (hstep.keep _ (fun i hi => hpool i (above_succ_subset k hi))
      (pool_ne_pair hk hls hpool).1).2
    rw [hP, hnext, hun.pool] at hms
    exact ⟨ms, hms⟩

theorem Stepped.mergedAbove (hstep : Stepped s ls k xs b₁ s₁ ls₁)
    (hmerged : MergedAbove s₁ ls₁ (k + 1) s') : MergedAbove s ls k s' := by
  have hD := free_mem_above (le_refl k) (show k < 26 by omega)
  have hun := h.unlinked hD hls hpool
  obtain ⟨hhead, hkeep, ms, hms⟩ := hstep.after h hk hls hpool hmerged
  refine ⟨hhead, fun x hx hxP => ?_, ms ++ [b₂], hms.snoc ?_⟩
  · have hring := hx _ hD
    rw [hls] at hring
    rw [hkeep x (fun i hi => hx i (above_succ_subset k hi)) (fun e => hring (by simp [e])) hxP,
      hun.frame x hring hxP]
  · have hnd := h.rings.nodup _ hD
    rw [hls] at hnd
    have hne : b₂ ≠ b₁ := by
      rintro rfl
      simp [List.nodup_append] at hnd
    rw [hkeep b₂ (h.loose_above (by omega) (by simp [hls])) hne (pool_ne_pair hk hls hpool).2.symm,
      hun.second]

end Pair

theorem Repr.mergeBlock_returns (kEnd fuel : ℕ) (h : Repr s (above k) ls) (hk : k < 26)
    (hpool : Loose (above k) s.head ls s.memBlockPool) (hfuel : 25 < k + fuel) :
    ∃ s', mergeBlock kEnd fuel s k = .ok s' ∧ MergedAbove s ls k s' := by
  induction fuel generalizing s ls k with
  | zero => omega
  | succ fuel ih =>
    rcases h.mergeBlock_cases kEnd (free_mem_above (le_refl k) hk) hk (Nat.succ_pos fuel) with
      ⟨hnone, -⟩ | ⟨hk', xs, b₁, b₂, ys, hls, -, hfind⟩
    · exact ⟨s, hnone, MergedAbove.refl s ls k⟩
    · obtain ⟨s₁, ls₁, hrec, hstep⟩ := h.merge_step fuel hk' hls hpool hfind
      obtain ⟨s', hrun, hmerged⟩ := ih hstep.repr (by omega) (hstep.pool_loose hk' hls hpool) (by omega)
      exact ⟨s', hrec.trans hrun, hstep.mergedAbove h hk' hls hpool hmerged⟩

/-! ## The free lists after a merge -/

def freeSlots : Set Slot := {i | i ∈ slots ∧ ∀ k, i ≠ .allocated k}

theorem freeSlots_subset : freeSlots ⊆ slots := fun _ hi => hi.1

theorem free_mem_freeSlots (hk : k < 26) : Slot.free k ∈ freeSlots := ⟨free_mem_slots.mpr hk, by simp⟩

theorem pool_mem_freeSlots : Slot.pool ∈ freeSlots := ⟨pool_mem_slots, by simp⟩

theorem above_subset_freeSlots (k : ℕ) : above k ⊆ freeSlots := by
  rintro i ⟨j, -, hj, rfl⟩
  exact free_mem_freeSlots hj

theorem Repr.pool_loose_above (h : Repr s freeSlots ls) (k : ℕ) : Loose (above k) s.head ls s.memBlockPool := by
  rintro i ⟨j, -, hj, rfl⟩ hmem
  have hslot := h.rings.apart _ pool_mem_freeSlots _ (free_mem_freeSlots hj) _ (List.mem_cons_self ..) hmem
  simp at hslot

theorem Repr.mergedAbove (h : Repr s freeSlots ls) (hk : k < 26)
    (hrun : mergeBlock kEnd loopFuel s k = .ok s') : MergedAbove s ls k s' := by
  obtain ⟨s₂, hrun₂, hmerged⟩ := (h.mono (above_subset_freeSlots k)).mergeBlock_returns kEnd loopFuel hk
    (h.pool_loose_above k) (Nat.lt_of_lt_of_le (by decide) (Nat.le_add_left _ _))
  obtain rfl := Except.ok.inj (hrun₂.symm.trans hrun)
  exact hmerged

theorem Repr.mergeBlock_breaks (h : Repr s freeSlots ls) (hk : k < 25)
    (hpair : HasPair kEnd s k (ls (.free k))) :
    ∃ s' xs b₁ b₂ ys, mergeBlock kEnd loopFuel s k = .ok s' ∧ s'.head = s.head ∧
      ls (.free k) = xs ++ b₁ :: b₂ :: ys ∧ (ys = [] → s'.next (s.head (.free k)) = 0) ∧
      (ys ≠ [] → Seg s'.next (s.head (.free k)) xs b₂) ∧ ∃ ms, Seg s'.next s.memBlockPool ms b₂ := by
  obtain ⟨f, hf⟩ : ∃ f, loopFuel = f + 26 + 1 := ⟨loopFuel - 27, rfl⟩
  have habove := h.mono (above_subset_freeSlots k)
  have hD := free_mem_above (le_refl k) (show k < 26 by omega)
  have hpool := h.pool_loose_above k
  rw [hf]
  rcases habove.mergeBlock_cases kEnd hD (by omega) (Nat.succ_pos (f + 26)) with
    ⟨-, hno⟩ | ⟨-, xs, b₁, b₂, ys, hls, -, hfind⟩
  · exact absurd hpair (hno hk)
  obtain ⟨s₁, ls₁, hrec, hstep⟩ := habove.merge_step (f + 26) hk hls hpool hfind
  obtain ⟨s', hrun, hmerged⟩ := hstep.repr.mergeBlock_returns kEnd (f + 26) (by omega)
    (hstep.pool_loose hk hls hpool) (by omega)
  obtain ⟨hhead, hkeep, hms⟩ := hstep.after habove hk hls hpool hmerged
  have hun := habove.unlinked hD hls hpool
  have hnd := h.rings.nodup _ (free_mem_freeSlots (show k < 26 by omega))
  rw [hls] at hnd
  -- the nodes up to the pair keep the links that the two unlinks left
  have hfront : ∀ x ∈ s.head (.free k) :: xs,
      s'.next x = (unlinkPair s (lastFrom (s.head (.free k)) xs)).next x := by
    intro x hx
    have hring : x ∈ s.head (.free k) :: ls (.free k) := by
      rw [hls]
      exact List.mem_append_left _ hx
    have hxb₁ : x ≠ b₁ := by
      rintro rfl
      simp only [List.nodup_cons, List.nodup_append, List.mem_append, List.mem_cons, not_or] at hnd hx
      grind
    refine hkeep x (habove.loose_above (by omega) hring) hxb₁ ?_
    rintro rfl
    exact hpool _ hD hring
  refine ⟨s', xs, b₁, b₂, ys, hrec.trans hrun, hhead, hls, fun hys => ?_, fun hys => ?_, hms⟩
  · rw [hfront _ (List.mem_cons_self ..), hun.tail hys]
  · exact (hun.inner hys).congr hfront

end XyOS.DirectMapping
