import XyOS.Memory.DirectMappingInvariant

/-! `ReqBytes` on any pool. When the pool is used up, `ReqMemBlock` returns `NULL` and
`DivBlock` links the node of the `MemBlock` at address 0. The free lists that were divided are
then no rings any more, the allocated lists and the pool still are. -/

namespace XyOS.DirectMapping
open Linked

variable {R : ℕ} {s s' : Allocator} {ls ls' : Slot → List ℕ} {k p m : ℕ}

def keptSlots : Set Slot := {i | i ∈ slots ∧ ∀ k, i ≠ .free k}

def nullNode : ℕ := nodeOf 0

theorem nullNode_eq : nullNode = 4 := rfl

theorem not_isNode_nullNode : ¬ IsNode nullNode := by
  intro h
  have := h.1
  simp only [nullNode_eq, poolBase_eq] at this
  omega

theorem pool_mem_keptSlots : Slot.pool ∈ keptSlots := ⟨pool_mem_slots, by simp⟩

theorem allocated_mem_keptSlots (hk : k < 26) : Slot.allocated k ∈ keptSlots :=
  ⟨allocated_mem_slots.mpr hk, by simp⟩

theorem nodeOf_getStruct_of_lt {x : ℕ} (hx : x < 2 ^ 32) : nodeOf (getStruct x) = x := by
  unfold nodeOf getStruct u32 sub32
  omega

theorem Repr.kept (h : Repr s slots ls) : Repr s keptSlots ls := h.mono fun _ hi => hi.1

theorem Repr.loose_free (h : Repr s slots ls) (hk : k < 26) (hp : p ∈ s.head (.free k) :: ls (.free k)) :
    Loose keptSlots s.head ls p := fun i hi hpi =>
  hi.2 k (h.rings.apart i hi.1 (.free k) (free_mem_slots.mpr hk) p hpi hp)

theorem Repr.loose_of_not_isNode {D : Set Slot} (h : Repr s D ls) (hp : ¬ IsNode p) : Loose D s.head ls p :=
  fun i hi hpi => hp (h.node i hi p hpi)

/-! ## Edits outside the lists -/

section Outside
variable {D : Set Slot} {prev new : ℕ}

theorem Repr.listAdd_loose (h : Repr s D ls) (hprev : Loose D s.head ls prev)
    (hnew : Loose D s.head ls new) : Repr (s.listAdd prev new) D ls := by
  refine h.congr_next rfl fun x hx => insertAfter_of_ne ?_ ?_
  · rintro rfl
    exact hx hprev
  · rintro rfl
    exact hx hnew

theorem Repr.listRemove_loose (h : Repr s D ls) (hprev : Loose D s.head ls prev)
    (hdel : Loose D s.head ls (s.next prev)) : Repr (s.listRemove prev).2 D ls := by
  refine h.congr_next rfl fun x hx => removeAfter_of_ne ?_ ?_
  · rintro rfl
    exact hx hprev
  · rintro rfl
    exact hx hdel

end Outside

theorem Repr.reqMemBlock_any (h : Repr s keptSlots ls) :
    ∃ m s', DirectMapping.reqMemBlock s = (getStruct m, s') ∧ m < 2 ^ 32 ∧ s'.head = s.head ∧
      Repr s' keptSlots (Function.update ls .pool (ls .pool).tail) ∧
      Loose keptSlots s.head (Function.update ls .pool (ls .pool).tail) m ∧
      (∀ x, Loose keptSlots s.head ls x → IsNode x → x ≠ m) ∧ (ls .pool = [] → m = nullNode) := by
  cases hls : ls .pool with
  | nil =>
    have he : isListEmpty s.next s.memBlockPool = true := (h.empty_iff pool_mem_keptSlots).mpr hls
    have hup : Function.update ls .pool [] = ls := by rw [← hls, Function.update_eq_self]
    refine ⟨nullNode, s, ?_, by decide, rfl, ?_, ?_, fun x _ hx => ?_, fun _ => rfl⟩
    · rw [DirectMapping.reqMemBlock, if_pos he]
      rfl
    · rwa [List.tail_nil, hup]
    · rw [List.tail_nil, hup]
      exact h.loose_of_not_isNode not_isNode_nullNode
    · rintro rfl
      exact not_isNode_nullNode hx
  | cons q ps =>
    obtain ⟨hrun, hrepr, hloose⟩ := h.reqMemBlock pool_mem_keptSlots hls
    have hqn : IsNode q := h.isNode pool_mem_keptSlots (by simp [hls])
    refine ⟨q, _, hrun, hqn.lt, rfl, hrepr, hloose, ?_, by simp⟩
    rintro x hx - rfl
    exact hx .pool pool_mem_keptSlots (by simp [hls])

/-! ## Divisions -/

/-- What `DivBlock` leaves when it has divided `n` blocks, the last one into two of type `k`:
the node of the upper half, `m`, is first in its free list. -/
structure Opened (s : Allocator) (ls : Slot → List ℕ) (k n : ℕ) (s' : Allocator)
    (ls' : Slot → List ℕ) (m : ℕ) : Prop where
  repr : Repr s' keptSlots ls'
  head : s'.head = s.head
  allocated : ∀ j, ls' (.allocated j) = ls (.allocated j)
  pool : ls' .pool = (ls .pool).drop n
  first : s'.next (s.head (.free k)) = m
  ne : s.head (.free k) ≠ m
  loose : Loose keptSlots s.head ls' m
  lt : m < 2 ^ 32
  null : (ls .pool).length < n → m = nullNode

theorem Repr.open_one (h : Repr s keptSlots ls) (hk : k + 1 < 26)
    (hlow : Loose keptSlots s.head ls (s.head (.free k))) (hnode : IsNode (s.head (.free k)))
    (hhigh : Loose keptSlots s.head ls (s.head (.free (k + 1))))
    (hfirst : s.next (s.head (.free (k + 1))) = p) (hne : s.head (.free (k + 1)) ≠ p)
    (hp : Loose keptSlots s.head ls p) (hlt : p < 2 ^ 32) :
    ∃ s' m, (∀ fuel, divBlock (fuel + 1) s (k + 1) = .ok (true, s')) ∧
      Opened s ls k 1 s' (Function.update ls .pool (ls .pool).tail) m := by
  have hempty : isListEmpty s.next (s.head (.free (k + 1))) = false := by
    simp [isListEmpty, hfirst, Ne.symm hne]
  have hrepr₁ := h.listRemove_loose hhigh (hfirst ▸ hp)
  have hdel : (s.listRemove (s.head (.free (k + 1)))).1 = p := hfirst
  set s₁ := (s.listRemove (s.head (.free (k + 1)))).2 with hs₁
  obtain ⟨m, s₂, hreq, hm, hhead₂, hrepr₂, hloose, hfresh, hnull⟩ := hrepr₁.reqMemBlock_any
  -- what was in no kept list is in none after the pool has lost its first node
  have hdrop : ∀ {x}, Loose keptSlots s.head ls x →
      Loose keptSlots s₂.head (Function.update ls .pool (ls .pool).tail) x := by
    intro x hx
    rw [hhead₂]
    cases hls : ls .pool with
    | nil =>
      rw [List.tail_nil, ← hls, Function.update_eq_self]
      exact hx
    | cons q ps => exact hx.drop (hls.trans (List.nil_append _).symm)
  set s₃ := s₂.setAddr (getStruct m) (u32 (s₂.addr (getStruct p) + getMemBlockSize k)) with hs₃
  have hrepr₃ : Repr s₃ keptSlots (Function.update ls .pool (ls .pool).tail) := hrepr₂.setAddr _ _
  have hhead₃ : s₃.head (.free k) = s.head (.free k) := congrFun hhead₂ (.free k)
  have hlow₃ := hdrop hlow
  have hrepr₄ := hrepr₃.listAdd_loose hlow₃ (hdrop hp)
  have hrepr₅ := hrepr₄.listAdd_loose hlow₃ (hhead₂ ▸ hloose)
  have hlowne : s.head (.free k) ≠ m := hfresh _ hlow hnode
  refine ⟨(s₃.listAdd (s.head (.free k)) p).listAdd (s.head (.free k)) m, m, fun fuel => ?_,
    hrepr₅, hhead₂, by simp, ?_, insertAfter_prev hlowne, hlowne, ?_, hm, ?_⟩
  · have hguard : ¬ (k + 1 = 0 ∨ k + 1 = kMemBlockTypeNum) := by simp only [kMemBlockTypeNum]; omega
    rw [divBlock, if_neg hguard, slot_free s hk]
    simp only [bind, Except.bind, hempty, if_true, hdel, ← hs₁, hreq, Nat.add_sub_cancel, ← hs₃,
      slot_free s₃ (show k < 26 by omega), nodeOf_getStruct_of_lt hlt, nodeOf_getStruct_of_lt hm, hhead₃]
  · rw [Function.update_self, List.drop_one]
  · exact hloose
  · intro hlen
    exact hnull (List.length_eq_zero_iff.mp (by omega))

theorem Opened.keeps {n x : ℕ} (h : Opened s ls k n s' ls' m) (hx : Loose keptSlots s.head ls x) :
    Loose keptSlots s'.head ls' x := by
  rw [h.head]
  rintro (j | j | _) hi hmem
  · exact hi.2 j rfl
  · rw [h.allocated] at hmem
    exact hx _ hi hmem
  · rw [h.pool] at hmem
    refine hx _ hi ?_
    rcases List.mem_cons.mp hmem with he | hm
    · exact List.mem_cons.mpr (Or.inl he)
    · exact List.mem_cons_of_mem _ (List.mem_of_mem_drop hm)

theorem Opened.step {n m' : ℕ} {s₁ : Allocator} {ls₁ : Slot → List ℕ} (h : Opened s ls (k + 1) n s₁ ls₁ m)
    (h₁ : Opened s₁ ls₁ k 1 s' ls' m') : Opened s ls k (n + 1) s' ls' m' where
  repr := h₁.repr
  head := h₁.head.trans h.head
  allocated := fun j => (h₁.allocated j).trans (h.allocated j)
  pool := by rw [h₁.pool, h.pool, List.drop_drop]
  first := by rw [← h.head, h₁.first]
  ne := by
    rw [← h.head]
    exact h₁.ne
  loose := h.head ▸ h₁.loose
  lt := h₁.lt
  null := by
    intro hlen
    refine h₁.null ?_
    rw [h.pool, List.length_drop]
    omega

theorem Repr.open_chain (h : Repr s slots ls) (d fuel : ℕ) {rest : List ℕ} (hk : k + d + 1 < 26)
    (hempty : ∀ j, k < j → j < k + d + 1 → ls (.free j) = []) (hp : ls (.free (k + d + 1)) = p :: rest)
    (hfuel : d < fuel) :
    ∃ s' ls' m, divBlock fuel s (k + 1) = .ok (true, s') ∧ Opened s ls k (d + 1) s' ls' m := by
  have hhead : ∀ j < 26, Loose keptSlots s.head ls (s.head (.free j)) := fun j hj =>
    h.loose_free hj (List.mem_cons_self ..)
  have hnode : ∀ j < 26, IsNode (s.head (.free j)) := fun j hj => h.isNode_head (free_mem_slots.mpr hj)
  induction d generalizing k fuel with
  | zero =>
    obtain ⟨fuel, rfl⟩ : ∃ f, fuel = f + 1 := ⟨fuel - 1, by omega⟩
    have hmem : p ∈ ls (.free (k + 1)) := by simp [show ls (.free (k + 1)) = p :: rest from hp]
    have hD := free_mem_slots.mpr hk
    have hne : s.head (.free (k + 1)) ≠ p := fun e => h.head_notMem hD (e ▸ hmem)
    obtain ⟨s', m, hrun, ho⟩ := h.kept.open_one hk (hhead k (by omega)) (hnode k (by omega)) (hhead _ hk)
      (h.rings.next_head hD hp) hne (h.loose_free hk (List.mem_cons_of_mem _ hmem)) (h.isNode hD hmem).lt
    exact ⟨s', _, m, hrun fuel, ho⟩
  | succ d ih =>
    -- the call for type `k + 2` opens the chain down to `k + 1`, this one goes on to `k`
    obtain ⟨fuel, rfl⟩ : ∃ f, fuel = f + 1 := ⟨fuel - 1, by omega⟩
    have hidx : k + 1 + d + 1 = k + (d + 1) + 1 := by omega
    obtain ⟨s₁, ls₁, m₁, hrun₁, ho₁⟩ := @ih (k + 1) fuel (by omega)
      (fun j h1 h2 => hempty j (by omega) (by omega)) (by rw [hidx]; exact hp) (by omega)
    have hlow := ho₁.keeps (hhead k (by omega))
    have hhigh := ho₁.keeps (hhead (k + 1) (by omega))
    rw [← ho₁.head] at hlow hhigh
    obtain ⟨s₂, m, hrun₂, ho₂⟩ := ho₁.repr.open_one (by omega) hlow
      (ho₁.head ▸ hnode k (by omega)) hhigh (ho₁.head ▸ ho₁.first) (ho₁.head ▸ ho₁.ne)
      (ho₁.head ▸ ho₁.loose) ho₁.lt
    refine ⟨s₂, _, m, ?_, ho₁.step ho₂⟩
    have hguard : ¬ (k + 1 = 0 ∨ k + 1 = kMemBlockTypeNum) := by simp only [kMemBlockTypeNum]; omega
    have hisEmpty : isListEmpty s.next (s.head (.free (k + 1))) = true :=
      (h.empty_iff (free_mem_slots.mpr (by omega))).mpr (hempty (k + 1) (by omega) (by omega))
    obtain ⟨f, rfl⟩ : ∃ f, fuel = f + 1 := ⟨fuel - 1, by omega⟩
    rw [divBlock, if_neg hguard, slot_free s (show k + 1 < 26 by omega)]
    simp only [bind, Except.bind, hisEmpty, Bool.true_eq_false, if_false, hrun₁, if_true, hrun₂ f]

/-! ## The request -/

theorem Opened.take {n : ℕ} {size : ℤ} (h : Opened s ls k n s' ls' m) (hk : k < 26)
    (hlow : Loose keptSlots s.head ls (s.head (.free k))) (hsize : getMemBlockSizeType size = k) :
    ∃ s₂, (∀ fuel, reqBytesFuel (fuel + 1) s' size = .ok (s'.blockAddr m, s₂)) ∧ s₂.head = s.head ∧
      Family s₂.next keptSlots s₂.head s₂.head (Function.update ls' (.allocated k)
        (insertAt s'.blockAddr (s'.blockAddr m) m (ls (.allocated k)))) := by
  have hA := allocated_mem_keptSlots hk
  have hlow' := h.keeps hlow
  have hhead : s'.head (.free k) = s.head (.free k) := congrFun h.head _
  have hdel : (s'.listRemove (s'.head (.free k))).1 = m := by
    rw [hhead]
    exact h.first
  have hrepr := h.repr.listRemove_loose (hhead ▸ hlow')
    (show Loose keptSlots s'.head ls' (s'.next (s'.head (.free k))) by rw [hhead, h.first, h.head]; exact h.loose)
  set s₁ := (s'.listRemove (s'.head (.free k))).2 with hs₁
  have hseek := hrepr.seek hA (s'.blockAddr m)
  rw [h.allocated] at hseek
  set below := (ls (.allocated k)).takeWhile fun x => decide (s'.blockAddr x < s'.blockAddr m) with hbelow
  refine ⟨s₁.listAdd (lastFrom (s₁.head (.allocated k)) below) m, fun fuel => ?_, h.head, ?_⟩
  · have hne : isListEmpty s'.next (s'.head (.free k)) = false := by
      simp [isListEmpty, hhead, h.first, Ne.symm h.ne]
    rw [reqBytesFuel, hsize, slot_free s' hk]
    simp only [bind, Except.bind, hne, Bool.false_eq_true, if_false, hdel, ← hs₁, slot_allocated s₁ hk,
      nodeOf_getStruct_of_lt h.lt]
    rw [show s₁.addr (getStruct m) = s'.blockAddr m from rfl, hseek]
    rfl
  · have hsplit : ls' (.allocated k) = below ++
        (ls (.allocated k)).dropWhile (fun x => decide (s'.blockAddr x < s'.blockAddr m)) := by
      rw [hbelow, List.takeWhile_append_dropWhile, h.allocated]
    have hm : Loose keptSlots s₁.head ls' m := by
      rw [show s₁.head = s.head from h.head]
      exact h.loose
    exact hrepr.rings.insert hA hsplit hm

theorem Repr.opened_zero {rest : List ℕ} (h : Repr s slots ls) (hk : k < 26) (hp : ls (.free k) = p :: rest) :
    Opened s ls k 0 s ls p := by
  have hD := free_mem_slots.mpr hk
  have hmem : p ∈ ls (.free k) := by simp [hp]
  exact ⟨h.kept, rfl, fun _ => rfl, rfl, h.rings.next_head hD hp, fun e => h.head_notMem hD (e ▸ hmem),
    h.loose_free hk (List.mem_cons_of_mem _ hmem), (h.isNode hD hmem).lt, fun hlt => absurd hlt (by omega)⟩

theorem Repr.reqBytes_open {size : ℤ} {t : ℕ} (h : Repr s slots ls) (hkt : k ≤ t) (ht : t < 26)
    (hempty : ∀ j, k ≤ j → j < t → ls (.free j) = []) (hne : ls (.free t) ≠ [])
    (hsize : getMemBlockSizeType size = k) :
    ∃ s₁ ls₁ m s', Opened s ls k (t - k) s₁ ls₁ m ∧ reqBytes s size = .ok (s₁.blockAddr m, s') ∧
      s'.head = s.head ∧ Family s'.next keptSlots s'.head s'.head (Function.update ls₁ (.allocated k)
        (insertAt s₁.blockAddr (s₁.blockAddr m) m (ls (.allocated k)))) := by
  have hk : k < 26 := lt_of_le_of_lt hkt ht
  have hhead := h.loose_free hk (List.mem_cons_self ..)
  obtain ⟨p, rest, hp⟩ := List.exists_cons_of_ne_nil hne
  obtain ⟨f, hf⟩ : ∃ f, loopFuel = f + 1 + 1 := ⟨loopFuel - 2, rfl⟩
  rcases Nat.eq_or_lt_of_le hkt with rfl | hlt
  · have ho := h.opened_zero hk hp
    obtain ⟨s', hrun, hhead', hfam⟩ := ho.take hk hhead hsize
    refine ⟨s, ls, p, s', by rwa [Nat.sub_self], ?_, hhead', hfam⟩
    rw [reqBytes, hf, hrun]
  · obtain ⟨d, rfl⟩ : ∃ d, t = k + d + 1 := ⟨t - k - 1, by omega⟩
    obtain ⟨s₁, ls₁, m, hrun₁, ho⟩ := h.open_chain d loopFuel ht (fun j h1 h2 => hempty j (by omega) h2) hp
      (by simp only [loopFuel]; omega)
    obtain ⟨s', hrun, hhead', hfam⟩ := ho.take hk hhead hsize
    have hisEmpty : isListEmpty s.next (s.head (.free k)) = true :=
      (h.empty_iff (free_mem_slots.mpr hk)).mpr (hempty k le_rfl hlt)
    have hsub : k + d + 1 - k = d + 1 := by omega
    refine ⟨s₁, ls₁, m, s', by rwa [hsub], ?_, hhead', hfam⟩
    rw [reqBytes, hf, reqBytesFuel, hsize, slot_free s hk]
    simp only [bind, Except.bind, hisEmpty, if_true, hrun₁, hrun f]

theorem Repr.reqBytes_returns {size : ℤ} (h : Repr s slots ls) (hk : k < 26)
    (hsize : getMemBlockSizeType size = k) : ∃ a s', reqBytes s size = .ok (a, s') := by
  rcases exists_least_free ls k with hnone | ⟨t, hkt, ht, hempty, hne⟩
  · exact ⟨0, s, h.reqBytes_none hk hnone hsize⟩
  · obtain ⟨s₁, ls₁, m, s', -, hrun, -⟩ := h.reqBytes_open hkt ht hempty hne hsize
    exact ⟨_, s', hrun⟩

end XyOS.DirectMapping
