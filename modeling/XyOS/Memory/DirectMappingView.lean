import Mathlib.Data.Finset.Card
import Mathlib.Tactic.NthRewrite
import XyOS.Memory.DirectMappingDefs

/-! The allocator state as a family of disjoint rings over the node pool, and
what the list operations of the allocator do to it. -/

namespace XyOS.DirectMapping
open Linked

inductive Slot
  | free (k : ℕ)
  | allocated (k : ℕ)
  | pool
deriving DecidableEq

/-- The lists of the allocator: two for every size type and the pool. -/
def slots : Finset Slot :=
  (Finset.range kMemBlockTypeNum).image .free ∪ (Finset.range kMemBlockTypeNum).image .allocated ∪
    {.pool}

@[simp] theorem free_mem_slots {k : ℕ} : Slot.free k ∈ slots ↔ k < 26 := by
  simp [slots, kMemBlockTypeNum]

@[simp] theorem allocated_mem_slots {k : ℕ} : Slot.allocated k ∈ slots ↔ k < 26 := by
  simp [slots, kMemBlockTypeNum]

@[simp] theorem pool_mem_slots : Slot.pool ∈ slots := by simp [slots]

def Allocator.head (s : Allocator) : Slot → ℕ
  | .free k => s.freeMemList k
  | .allocated k => s.allocatedMemList k
  | .pool => s.memBlockPool

def Allocator.lists (s : Allocator) (i : Slot) : List ℕ := listNodes s.next (s.head i)

def poolBase : ℕ := kKVirtualAddr + managedSize

theorem poolBase_eq : poolBase = 0xc3f00000 := rfl

def IsNode (p : ℕ) : Prop := poolBase < p ∧ p < poolBase + kNodePoolSize ∧ p % 8 = 4

theorem IsNode.lt {p : ℕ} (h : IsNode p) : p < 2 ^ 32 := by
  have := h.2.1
  simp only [poolBase_eq, kNodePoolSize] at this
  omega

theorem IsNode.ne_zero {p : ℕ} (h : IsNode p) : p ≠ 0 := by
  have := h.1
  omega

theorem IsNode.getStruct_eq {p : ℕ} (h : IsNode p) : getStruct p = p - 4 := by
  have hlt := h.lt
  have := h.1
  exact sub32_of_le (by simp only [poolBase_eq] at this; omega) hlt

@[simp] theorem IsNode.nodeOf_getStruct {p : ℕ} (h : IsNode p) : nodeOf (getStruct p) = p := by
  have hlt := h.lt
  have := h.1
  rw [h.getStruct_eq, nodeOf, u32_of_lt] <;> simp only [poolBase_eq] at this <;> omega

theorem IsNode.getStruct_inj {p q : ℕ} (hp : IsNode p) (hq : IsNode q) :
    getStruct p = getStruct q ↔ p = q := by
  constructor
  · intro h
    rw [← hp.nodeOf_getStruct, h, hq.nodeOf_getStruct]
  · rintro rfl
    rfl

structure Repr (s : Allocator) (D : Set Slot) (ls : Slot → List ℕ) : Prop where
  rings : Family s.next D s.head s.head ls
  node : ∀ i ∈ D, ∀ p ∈ s.head i :: ls i, IsNode p

variable {s : Allocator} {D : Set Slot} {ls : Slot → List ℕ}

theorem Repr.isNode_head (h : Repr s D ls) {i : Slot} (hi : i ∈ D) : IsNode (s.head i) :=
  h.node i hi _ (List.mem_cons_self ..)

theorem Repr.isNode (h : Repr s D ls) {i : Slot} (hi : i ∈ D) {p : ℕ} (hp : p ∈ ls i) : IsNode p :=
  h.node i hi p (List.mem_cons_of_mem _ hp)

theorem Repr.head_notMem (h : Repr s D ls) {i : Slot} (hi : i ∈ D) : s.head i ∉ ls i :=
  (List.nodup_cons.mp (h.rings.nodup i hi)).1

theorem Repr.slot_unique (h : Repr s D ls) {i j : Slot} (hi : i ∈ D) (hj : j ∈ D) {p : ℕ}
    (hp : p ∈ ls i) (hq : p ∈ ls j) : i = j :=
  h.rings.apart i hi j hj p (List.mem_cons_of_mem _ hp) (List.mem_cons_of_mem _ hq)

theorem Repr.length_lt (h : Repr s D ls) {i : Slot} (hi : i ∈ D) : (ls i).length < loopFuel :=
  length_lt_of_nodup (h.rings.nodup i hi) fun p hp => (h.node i hi p hp).lt

theorem Repr.mono {E : Set Slot} (h : Repr s D ls) (hE : E ⊆ D) : Repr s E ls :=
  ⟨h.rings.mono hE, fun i hi => h.node i (hE hi)⟩

theorem Repr.congr_next {s' : Allocator} (h : Repr s D ls) (hhead : s'.head = s.head)
    (hnext : ∀ x, ¬ Loose D s.head ls x → s'.next x = s.next x) : Repr s' D ls := by
  refine ⟨?_, ?_⟩
  · rw [hhead]
    exact h.rings.congr hnext
  · rw [hhead]
    exact h.node

theorem Repr.lists_eq (h : Repr s D ls) {i : Slot} (hi : i ∈ D) : s.lists i = ls i :=
  collect_seg (h.rings.seg i hi) (h.head_notMem hi) (h.length_lt hi).le

theorem Repr.lists (h : Repr s D ls) : Repr s D s.lists := by
  have hlists : ∀ i ∈ D, s.lists i = ls i := fun i hi => h.lists_eq hi
  refine ⟨h.rings.congr_on (fun _ _ => rfl) (fun _ _ => rfl) hlists, fun i hi => ?_⟩
  rw [hlists i hi]
  exact h.node i hi

theorem Repr.of_lists_eq {s' : Allocator} (h : Repr s D s.lists) (hhead : s'.head = s.head)
    (hlists : ∀ i ∈ D, s'.lists i = s.lists i) : Repr s' D s'.lists := by
  have hseg : ∀ i ∈ D, Seg s'.next (s'.head i) (s.lists i) (s'.head i) := fun i hi =>
    seg_of_collect (hlists i hi) (h.length_lt hi)
  have hrepr : Repr s' D s.lists := by
    refine ⟨⟨hseg, ?_, ?_⟩, ?_⟩
    · rw [hhead]
      exact h.rings.nodup
    · rw [hhead]
      exact h.rings.apart
    · rw [hhead]
      exact h.node
  exact hrepr.lists

theorem Repr.empty_iff (h : Repr s D ls) {i : Slot} (hi : i ∈ D) :
    isListEmpty s.next (s.head i) = true ↔ ls i = [] := by
  have hseg := h.rings.seg i hi
  rw [isListEmpty, beq_iff_eq]
  cases hl : ls i with
  | nil =>
    rw [hl] at hseg
    simpa using hseg
  | cons p ps =>
    rw [hl] at hseg
    have hne : s.head i ∉ ls i := h.head_notMem hi
    simp only [hl, List.mem_cons, not_or] at hne
    simp only [reduceCtorEq, iff_false, hseg.1]
    exact fun e => hne.1 e.symm

theorem slot_free (s : Allocator) {k : ℕ} (hk : k < 26) :
    slot s.freeMemList k = .ok (s.head (.free k)) := if_pos hk

theorem slot_allocated (s : Allocator) {k : ℕ} (hk : k < 26) :
    slot s.allocatedMemList k = .ok (s.head (.allocated k)) := if_pos hk

theorem Repr.not_empty (h : Repr s D ls) {i : Slot} (hi : i ∈ D) {p : ℕ} {ps : List ℕ}
    (hls : ls i = p :: ps) : isListEmpty s.next (s.head i) = false := by
  rw [← Bool.not_eq_true]
  exact fun he => by simp [(h.empty_iff hi).mp he] at hls

@[simp] theorem listAdd_head (s : Allocator) (p n : ℕ) : (s.listAdd p n).head = s.head := rfl

@[simp] theorem listRemove_head (s : Allocator) (p : ℕ) : (s.listRemove p).2.head = s.head := rfl

@[simp] theorem listAdd_blockAddr (s : Allocator) (p n q : ℕ) :
    (s.listAdd p n).blockAddr q = s.blockAddr q := rfl

@[simp] theorem listRemove_blockAddr (s : Allocator) (p q : ℕ) :
    (s.listRemove p).2.blockAddr q = s.blockAddr q := rfl

theorem setAddr_blockAddr {q p a : ℕ} (hq : IsNode q) (hp : IsNode p) :
    (s.setAddr (getStruct q) a).blockAddr p = if p = q then a else s.blockAddr p := by
  simp only [Allocator.blockAddr, Allocator.setAddr, Function.update_apply, hp.getStruct_inj hq]

structure Confined (s s' : Allocator) : Prop where
  next : ∀ x, ¬ IsNode x → s'.next x = s.next x
  addr : ∀ b, ¬ IsNode (nodeOf b) → s'.addr b = s.addr b

theorem Confined.trans {s₁ s₂ : Allocator} (h : Confined s s₁) (h₁ : Confined s₁ s₂) : Confined s s₂ :=
  ⟨fun x hx => (h₁.next x hx).trans (h.next x hx), fun b hb => (h₁.addr b hb).trans (h.addr b hb)⟩

theorem Confined.refl (s : Allocator) : Confined s s := ⟨fun _ _ => rfl, fun _ _ => rfl⟩

section Confine
variable {s' : Allocator} {p n b : ℕ}

theorem Confined.listAdd (h : Confined s s') (hp : IsNode p) (hn : IsNode n) : Confined s (s'.listAdd p n) := by
  refine ⟨fun x hx => ?_, h.addr⟩
  rw [← h.next x hx]
  exact insertAfter_of_ne (fun e => hx (e ▸ hp)) fun e => hx (e ▸ hn)

theorem Confined.listRemove (h : Confined s s') (hp : IsNode p) (hn : IsNode (s'.listRemove p).1) :
    Confined s (s'.listRemove p).2 := by
  refine ⟨fun x hx => ?_, h.addr⟩
  rw [← h.next x hx]
  exact removeAfter_of_ne (fun e => hx (e ▸ hp)) fun e => hx (e ▸ hn)

theorem Confined.setAddr (h : Confined s s') (hb : IsNode (nodeOf b)) (a : ℕ) :
    Confined s (s'.setAddr b a) := by
  refine ⟨h.next, fun x hx => ?_⟩
  rw [← h.addr x hx]
  exact Function.update_of_ne (fun e : x = b => hx (e ▸ hb)) ..

end Confine

theorem Repr.setAddr (h : Repr s D ls) (b a : ℕ) : Repr (s.setAddr b a) D ls := ⟨h.rings, h.node⟩

theorem Repr.listRemove (h : Repr s D ls) {i : Slot} (hi : i ∈ D) (xs : List ℕ) {ys : List ℕ} {p : ℕ}
    (hls : ls i = xs ++ p :: ys) :
    (s.listRemove (lastFrom (s.head i) xs)).1 = p ∧
      Repr (s.listRemove (lastFrom (s.head i) xs)).2 D (Function.update ls i (xs ++ ys)) ∧
      Loose D s.head (Function.update ls i (xs ++ ys)) p := by
  have he := h.rings.erase 0 hi hls
  refine ⟨h.rings.next_last hi hls, ⟨he.1, fun j hj q hq => ?_⟩, he.2⟩
  rw [listRemove_head] at hq
  exact h.node j hj q (mem_of_mem_update_erase hls hq)

theorem Repr.listRemove_head (h : Repr s D ls) {i : Slot} (hi : i ∈ D) {ys : List ℕ} {p : ℕ}
    (hls : ls i = p :: ys) :
    (s.listRemove (s.head i)).1 = p ∧
      Repr (s.listRemove (s.head i)).2 D (Function.update ls i ys) ∧
      Loose D s.head (Function.update ls i ys) p :=
  h.listRemove hi [] hls

theorem Repr.listAdd (h : Repr s D ls) {i : Slot} (hi : i ∈ D) (xs : List ℕ) {ys : List ℕ} {p : ℕ}
    (hls : ls i = xs ++ ys) (hp : IsNode p) (hloose : Loose D s.head ls p) :
    Repr (s.listAdd (lastFrom (s.head i) xs) p) D (Function.update ls i (xs ++ p :: ys)) := by
  refine ⟨h.rings.insert hi hls hloose, fun j hj q hq => ?_⟩
  rw [listAdd_head] at hq
  rcases mem_update_insert hls hq with hq | ⟨-, rfl⟩
  · exact h.node j hj q hq
  · exact hp

theorem Repr.listAdd_head (h : Repr s D ls) {i : Slot} (hi : i ∈ D) {p : ℕ} (hp : IsNode p)
    (hloose : Loose D s.head ls p) :
    Repr (s.listAdd (s.head i) p) D (Function.update ls i (p :: ls i)) :=
  h.listAdd hi [] rfl hp hloose

theorem Repr.reqMemBlock (h : Repr s D ls) (hi : Slot.pool ∈ D) {q : ℕ} {ps : List ℕ}
    (hls : ls .pool = q :: ps) :
    reqMemBlock s = (getStruct q, (s.listRemove (s.head .pool)).2) ∧
      Repr (s.listRemove (s.head .pool)).2 D (Function.update ls .pool ps) ∧
      Loose D s.head (Function.update ls .pool ps) q := by
  obtain ⟨h1, h2, h3⟩ := h.listRemove_head hi hls
  refine ⟨?_, h2, h3⟩
  rw [DirectMapping.reqMemBlock, show isListEmpty s.next s.memBlockPool = false from h.not_empty hi hls]
  exact congrArg (fun p => (getStruct p, (s.listRemove s.memBlockPool).2)) h1

theorem Repr.grow {s' : Allocator} {i : Slot} {q : ℕ} (h : Repr s D ls) (hi : i ∉ D) (hq : IsNode q)
    (hloose : Loose D s.head ls q) (hls : ls i = []) (hnext : s'.next = Function.update s.next q q)
    (hself : s'.head i = q) (hother : ∀ j ∈ D, s'.head j = s.head j) : Repr s' ({i} ∪ D) ls := by
  have hfam : Family s.next D s'.head s'.head ls :=
    h.rings.congr_on hother hother fun _ _ => rfl
  have hloose' : Loose D s'.head ls (s'.head i) := by
    intro j hj
    rw [hself, hother j hj]
    exact hloose j hj
  have hgrow := hfam.grow hi hloose' hls
  rw [hself, ← hnext] at hgrow
  refine ⟨hgrow, ?_⟩
  rintro j (rfl | hj) p hp
  · rw [hself, hls, List.mem_singleton] at hp
    exact hp ▸ hq
  · rw [hother j hj] at hp
    exact h.node j hj p hp

theorem Repr.seek (h : Repr s D ls) {i : Slot} (hi : i ∈ D) (a : ℕ) :
    seek s (s.head i) a =
      .ok (lastFrom (s.head i) ((ls i).takeWhile fun p => decide (s.blockAddr p < a))) := by
  have hw := walk_seg (fun n => n != s.head i && decide (s.blockAddr n < a))
    (h.rings.seg i hi) (by simp) (h.length_lt hi)
  have ht : (ls i).takeWhile (fun n => n != s.head i && decide (s.blockAddr n < a)) =
      (ls i).takeWhile fun p => decide (s.blockAddr p < a) := by
    have hne : ∀ p ∈ ls i, (p != s.head i) = true := by
      intro p hp
      exact bne_iff_ne.mpr fun e => h.head_notMem hi (e ▸ hp)
    generalize ls i = l at hne
    induction l with
    | nil => rfl
    | cons p ps ih =>
      rw [List.takeWhile_cons, List.takeWhile_cons, hne p (List.mem_cons_self ..), Bool.true_and,
        ih fun q hq => hne q (List.mem_cons_of_mem _ hq)]
  rw [DirectMapping.seek, hw, ht]

/-! ## Insertion in address order -/

def Ascending (blk : ℕ → ℕ) (l : List ℕ) : Prop := l.Pairwise fun p q => blk p < blk q

def insertAt (blk : ℕ → ℕ) (a p : ℕ) (l : List ℕ) : List ℕ :=
  l.takeWhile (fun x => decide (blk x < a)) ++ p :: l.dropWhile (fun x => decide (blk x < a))

theorem mem_insertAt {blk : ℕ → ℕ} {a p x : ℕ} {l : List ℕ} :
    x ∈ insertAt blk a p l ↔ x = p ∨ x ∈ l := by
  have h := List.takeWhile_append_dropWhile (p := fun x => decide (blk x < a)) (l := l)
  nth_rewrite 2 [← h]
  simp only [insertAt, List.mem_append, List.mem_cons]
  tauto

theorem ascending_insertAt {blk : ℕ → ℕ} {p : ℕ} {l : List ℕ} (hl : Ascending blk l)
    (hne : ∀ x ∈ l, blk x ≠ blk p) : Ascending blk (insertAt blk (blk p) p l) := by
  induction l with
  | nil => exact List.pairwise_singleton _ _
  | cons y ys ih =>
    obtain ⟨hy, hys⟩ := List.pairwise_cons.mp hl
    have hrec := ih hys fun x hx => hne x (List.mem_cons_of_mem _ hx)
    by_cases hlt : blk y < blk p
    · have hcons : insertAt blk (blk p) p (y :: ys) = y :: insertAt blk (blk p) p ys := by
        simp [insertAt, hlt]
      rw [hcons]
      refine List.pairwise_cons.mpr ⟨fun x hx => ?_, hrec⟩
      rcases mem_insertAt.mp hx with rfl | hx
      · exact hlt
      · exact hy x hx
    · have hcons : insertAt blk (blk p) p (y :: ys) = p :: y :: ys := by simp [insertAt, hlt]
      have hpy : blk p < blk y :=
        lt_of_le_of_ne (not_lt.mp hlt) fun e => hne y (List.mem_cons_self ..) e.symm
      rw [hcons]
      refine List.pairwise_cons.mpr ⟨fun x hx => ?_, hl⟩
      rcases List.mem_cons.mp hx with rfl | hx
      · exact hpy
      · exact hpy.trans (hy x hx)

theorem Repr.seekAdd (h : Repr s D ls) {i : Slot} (hi : i ∈ D) {p : ℕ} (hp : IsNode p)
    (hloose : Loose D s.head ls p) (a : ℕ) :
    ∃ tmp ∈ s.head i :: ls i, DirectMapping.seek s (s.head i) a = .ok tmp ∧
      Repr (s.listAdd tmp p) D (Function.update ls i (insertAt s.blockAddr a p (ls i))) := by
  refine ⟨_, ?_, h.seek hi a, h.listAdd hi _ List.takeWhile_append_dropWhile.symm hp hloose⟩
  have hmem := lastFrom_mem_append (s.head i) ((ls i).takeWhile fun x => decide (s.blockAddr x < a))
    ((ls i).dropWhile fun x => decide (s.blockAddr x < a))
  rwa [List.takeWhile_append_dropWhile] at hmem

end XyOS.DirectMapping
