import XyOS.Memory.DirectMappingBlocks
import XyOS.Memory.SizeType

/-! `DivBlock` and `ReqBytes` on the lists of the allocator. -/

namespace XyOS.DirectMapping
open Linked Cells

variable {R : ℕ} {s : Allocator} {ls : Slot → List ℕ}

structure Sound (R : ℕ) (s : Allocator) (ls : Slot → List ℕ) : Prop where
  repr : Repr s slots ls
  blocks : Blocks R (Holds ls) s.blockAddr

theorem Repr.isNode_of_holds (h : Repr s slots ls) {k p : ℕ} (hp : Holds ls k p) : IsNode p := by
  rcases hp.2 with hf | ha
  · exact h.isNode (free_mem_slots.mpr hp.1) hf
  · exact h.isNode (allocated_mem_slots.mpr hp.1) ha

theorem Repr.notMem_pool (h : Repr s slots ls) {k p : ℕ} (hp : Holds ls k p) : p ∉ ls .pool := by
  intro hpool
  rcases hp.2 with hf | ha
  · exact absurd (h.slot_unique (free_mem_slots.mpr hp.1) pool_mem_slots hf hpool) (by simp)
  · exact absurd (h.slot_unique (allocated_mem_slots.mpr hp.1) pool_mem_slots ha hpool) (by simp)

theorem Repr.blockAddr_kept {s' : Allocator} {q a : ℕ} {ps : List ℕ} (h : Repr s slots ls)
    (hq : ls .pool = q :: ps)
    (haddr : ∀ x, IsNode x → s'.blockAddr x = if x = q then a else s.blockAddr x) (k x : ℕ)
    (hx : Holds ls k x) : s'.blockAddr x = s.blockAddr x := by
  rw [haddr x (h.isNode_of_holds hx), if_neg]
  rintro rfl
  exact h.notMem_pool hx (by simp [hq])

/-! ## One division -/

def cutLists (ls : Slot → List ℕ) (k p q : ℕ) (rest ps : List ℕ) : Slot → List ℕ :=
  Function.update (Function.update (Function.update ls (.free (k + 1)) rest) .pool ps) (.free k)
    (q :: p :: ls (.free k))

section Cut
variable {k p q : ℕ} {rest ps : List ℕ}

@[simp] theorem cutLists_free_self :
    cutLists ls k p q rest ps (.free k) = q :: p :: ls (.free k) := Function.update_self ..

@[simp] theorem cutLists_free_succ : cutLists ls k p q rest ps (.free (k + 1)) = rest := by
  simp [cutLists]

@[simp] theorem cutLists_pool : cutLists ls k p q rest ps .pool = ps := by simp [cutLists]

@[simp] theorem cutLists_allocated (j : ℕ) :
    cutLists ls k p q rest ps (.allocated j) = ls (.allocated j) := by simp [cutLists]

theorem cutLists_free_of_ne {j : ℕ} (hj : j ≠ k) (hj' : j ≠ k + 1) :
    cutLists ls k p q rest ps (.free j) = ls (.free j) := by simp [cutLists, hj, hj']

theorem holds_cutLists (h : Repr s slots ls) (hk : k + 1 < 26)
    (hp : ls (.free (k + 1)) = p :: rest) (j x : ℕ) :
    Holds (cutLists ls k p q rest ps) j x ↔
      (j = k ∧ (x = p ∨ x = q)) ∨ (Holds ls j x ∧ ¬ (j = k + 1 ∧ x = p)) := by
  have hmem : Slot.free (k + 1) ∈ slots := free_mem_slots.mpr hk
  have hpf : p ∈ ls (.free (k + 1)) := by simp [hp]
  have hrest : p ∉ rest := by
    have := h.rings.nodup _ hmem
    rw [hp] at this
    exact (List.nodup_cons.mp (List.nodup_cons.mp this).2).1
  have halloc : p ∉ ls (.allocated (k + 1)) := fun hpa =>
    absurd (h.slot_unique hmem (allocated_mem_slots.mpr hk) hpf hpa) (by simp)
  have hlow : k < 26 := by omega
  by_cases hjk : j = k
  · subst hjk
    simp only [Holds, cutLists_free_self, cutLists_allocated, List.mem_cons, hlow, true_and]
    grind
  · by_cases hjk' : j = k + 1
    · subst hjk'
      simp only [Holds, cutLists_free_succ, cutLists_allocated, hp, List.mem_cons, true_and]
      grind
    · simp only [Holds, cutLists_allocated, cutLists_free_of_ne hjk hjk', hjk, hjk']
      simp

def cutLists₂ (ls : Slot → List ℕ) (k : ℕ) (rest ps : List ℕ) : Slot → List ℕ :=
  Function.update (Function.update ls (.free (k + 1)) rest) .pool ps

def cutLists₃ (ls : Slot → List ℕ) (k p : ℕ) (rest ps : List ℕ) : Slot → List ℕ :=
  Function.update (cutLists₂ ls k rest ps) (.free k) (p :: cutLists₂ ls k rest ps (.free k))

theorem cutLists_eq : cutLists ls k p q rest ps =
    Function.update (cutLists₃ ls k p rest ps) (.free k) (q :: cutLists₃ ls k p rest ps (.free k)) := by
  simp [cutLists, cutLists₃, cutLists₂]

theorem nodes_cutLists (hk : k + 1 < 26) (hp : ls (.free (k + 1)) = p :: rest)
    (hq : ls .pool = q :: ps) : nodes slots (cutLists ls k p q rest ps) = nodes slots ls := by
  have hlow : Slot.free k ∈ slots := free_mem_slots.mpr (by omega)
  have hq₁ : Function.update ls (.free (k + 1)) rest .pool = q :: ps := by simpa using hq
  calc nodes slots (cutLists ls k p q rest ps)
      = q ::ₘ p ::ₘ nodes slots (cutLists₂ ls k rest ps) := by
        rw [cutLists_eq, nodes_push_head _ hlow, cutLists₃, nodes_push_head _ hlow]
    _ = p ::ₘ nodes slots (Function.update ls (.free (k + 1)) rest) := by
        rw [Multiset.cons_swap, cutLists₂, nodes_pop_head pool_mem_slots hq₁]
    _ = nodes slots ls := nodes_pop_head (free_mem_slots.mpr hk) hp

theorem Sound.cut (h : Sound R s ls) (hk : k + 1 < 26) (hp : ls (.free (k + 1)) = p :: rest)
    (hq : ls .pool = q :: ps) :
    ∃ s', (∀ fuel, divBlock (fuel + 1) s (k + 1) = .ok (true, s')) ∧
      Sound R s' (cutLists ls k p q rest ps) ∧ s'.head = s.head ∧
      (∀ x, IsNode x → s'.blockAddr x = if x = q then s.blockAddr p + 2 ^ k else s.blockAddr x) ∧
      Confined s s' := by
  have hhi : Slot.free (k + 1) ∈ slots := free_mem_slots.mpr hk
  have hlo : Slot.free k ∈ slots := free_mem_slots.mpr (by omega)
  have hpH : Holds ls (k + 1) p := ⟨hk, Or.inl (by simp [hp])⟩
  have hpn : IsNode p := h.repr.isNode_of_holds hpH
  have hqn : IsNode q := h.repr.isNode pool_mem_slots (by simp [hq])
  have hpq : p ≠ q := fun e => h.repr.notMem_pool hpH (by simp [hq, e])
  obtain ⟨e1, r1, l1⟩ := h.repr.listRemove_head hhi hp
  set s₁ := (s.listRemove (s.head (.free (k + 1)))).2 with hs₁
  have hq₁ : Function.update ls (.free (k + 1)) rest .pool = [] ++ q :: ps := by simpa using hq
  obtain ⟨e2, r2, l2⟩ := r1.reqMemBlock pool_mem_slots hq₁
  set s₂ := (s₁.listRemove (s₁.head .pool)).2 with hs₂
  have lp : Loose slots s.head (cutLists₂ ls k rest ps) p := l1.drop hq₁
  set s₃ := s₂.setAddr (getStruct q) (s.blockAddr p + 2 ^ k) with hs₃
  have r3 : Repr s₃ slots (cutLists₂ ls k rest ps) := r2.setAddr _ _
  have r4 := r3.listAdd_head hlo hpn lp
  have lq : Loose slots s.head (cutLists₃ ls k p rest ps) q := l2.add (List.nil_append _).symm hpq.symm
  have r5 := r4.listAdd_head hlo hqn lq
  set s₅ := (s₃.listAdd (s₃.head (.free k)) p).listAdd (s₃.head (.free k)) q with hs₅
  have haddr : ∀ x, IsNode x →
      s₅.blockAddr x = if x = q then s.blockAddr p + 2 ^ k else s.blockAddr x := by
    intro x hx
    rw [hs₅, listAdd_blockAddr, listAdd_blockAddr, hs₃, setAddr_blockAddr hqn hx, hs₂, hs₁,
      listRemove_blockAddr, listRemove_blockAddr]
  have hrun : ∀ fuel, divBlock (fuel + 1) s (k + 1) = .ok (true, s₅) := by
    intro fuel
    have hsum : u32 (s₂.addr (getStruct p) + getMemBlockSize k) = s.blockAddr p + 2 ^ k := by
      have hlt := h.blocks.lt hpH
      rw [pow_succ] at hlt
      exact u32_of_lt (by change s.blockAddr p + 2 ^ k < 2 ^ 32; omega)
    have hguard : ¬ (k + 1 = 0 ∨ k + 1 = kMemBlockTypeNum) := by simp only [kMemBlockTypeNum]; omega
    rw [divBlock, if_neg hguard, slot_free s hk]
    simp only [bind, Except.bind, h.repr.not_empty hhi hp, if_true, e1, ← hs₁, e2, Nat.add_sub_cancel,
      hsum, ← hs₃, slot_free s₃ (show k < 26 by omega), hpn.nodeOf_getStruct, hqn.nodeOf_getStruct]
    rfl
  have hconf : Confined s s₅ := by
    have hnode : IsNode (nodeOf (getStruct q)) := by rwa [hqn.nodeOf_getStruct]
    have hheadlo : IsNode (s.head (.free k)) := h.repr.isNode_head hlo
    have c1 := (Confined.refl s).listRemove (h.repr.isNode_head hhi) (e1.symm ▸ hpn)
    have e3 := (r1.listRemove_head pool_mem_slots hq₁).1
    have c2 := c1.listRemove (r1.isNode_head pool_mem_slots) (e3.symm ▸ hqn)
    exact ((c2.setAddr hnode _).listAdd hheadlo hpn).listAdd hheadlo hqn
  refine ⟨s₅, hrun, ⟨?_, ?_⟩, rfl, haddr, hconf⟩
  · rw [cutLists_eq]
    exact r5
  · refine h.blocks.cut hpH (holds_cutLists h.repr hk hp) (h.repr.blockAddr_kept hq haddr) ?_
    rw [haddr q hqn, if_pos rfl]

end Cut

/-! ## A chain of divisions -/

/-- What `DivBlock` leaves when it was asked to fill the list of type `k` and
the next non-empty list, of type `t`, starts with a block at `a`. -/
structure Divided (R : ℕ) (s : Allocator) (ls : Slot → List ℕ) (k t a : ℕ) (rest : List ℕ)
    (s' : Allocator) (ls' : Slot → List ℕ) : Prop where
  sound : Sound R s' ls'
  head : s'.head = s.head
  top : ls' (.free t) = rest
  bottom : ∃ p q, ls' (.free k) = q :: p :: ls (.free k) ∧
    s'.blockAddr p + 2 ^ (k + 1) = a + 2 ^ t ∧ s'.blockAddr q + 2 ^ k = a + 2 ^ t
  between : ∀ j, k < j → j < t → ∃ x, ls' (.free j) = [x] ∧ s'.blockAddr x + 2 ^ (j + 1) = a + 2 ^ t
  other : ∀ j, j < k ∨ t < j → ls' (.free j) = ls (.free j)
  allocated : ∀ j, ls' (.allocated j) = ls (.allocated j)
  pool : ls' .pool = (ls .pool).drop (t - k)
  kept : ∀ j x, Holds ls j x → ∃ j', Holds ls' j' x
  addr : ∀ j x, Holds ls j x → s'.blockAddr x = s.blockAddr x
  nodes : nodes slots ls' = nodes slots ls
  confined : Confined s s'

theorem Sound.divided_cut {k p q : ℕ} {rest ps : List ℕ} (h : Sound R s ls) (hk : k + 1 < 26)
    (hp : ls (.free (k + 1)) = p :: rest) (hq : ls .pool = q :: ps) :
    ∃ s', (∀ fuel, divBlock (fuel + 1) s (k + 1) = .ok (true, s')) ∧
      Divided R s ls k (k + 1) (s.blockAddr p) rest s' (cutLists ls k p q rest ps) := by
  have hpH : Holds ls (k + 1) p := ⟨hk, Or.inl (by simp [hp])⟩
  have hqn : IsNode q := h.repr.isNode pool_mem_slots (by simp [hq])
  obtain ⟨s', hrun, hsound, hhead, haddr, hconf⟩ := h.cut hk hp hq
  have hkeep := h.repr.blockAddr_kept hq haddr
  refine ⟨s', hrun, hsound, hhead, cutLists_free_succ, ?_, ?_, ?_, cutLists_allocated, ?_, ?_, hkeep,
    nodes_cutLists hk hp hq, hconf⟩
  · refine ⟨p, q, cutLists_free_self, ?_, ?_⟩
    · rw [hkeep _ p hpH]
    · rw [haddr q hqn, if_pos rfl, pow_succ]
      omega
  · intro j h1 h2
    omega
  · intro j hj
    exact cutLists_free_of_ne (by omega) (by omega)
  · rw [cutLists_pool, hq, Nat.add_sub_cancel_left]
    rfl
  · intro j x hx
    simp only [holds_cutLists h.repr hk hp]
    by_cases hxp : j = k + 1 ∧ x = p
    · exact ⟨k, Or.inl ⟨rfl, Or.inl hxp.2⟩⟩
    · exact ⟨j, Or.inr ⟨hx, hxp⟩⟩

theorem Divided.step {k t a : ℕ} {rest : List ℕ} {s₁ s₂ : Allocator} {ls₁ ls₂ : Slot → List ℕ}
    {p q : ℕ} (hd : Divided R s ls (k + 1) t a rest s₁ ls₁) (hkt : k + 1 < t) (ht : t < 26)
    (h₁ : ls₁ (.free (k + 1)) = [q, p]) (hp : s₁.blockAddr p + 2 ^ (k + 1 + 1) = a + 2 ^ t)
    (hq : s₁.blockAddr q + 2 ^ (k + 1) = a + 2 ^ t)
    (hc : Divided R s₁ ls₁ k (k + 1) (s₁.blockAddr q) [p] s₂ ls₂) :
    Divided R s ls k t a rest s₂ ls₂ where
  sound := hc.sound
  head := hc.head.trans hd.head
  top := (hc.other t (Or.inr hkt)).trans hd.top
  bottom := by
    obtain ⟨p', q', hls, hp', hq'⟩ := hc.bottom
    refine ⟨p', q', ?_, hp'.trans hq, hq'.trans hq⟩
    rw [hls, hd.other k (Or.inl (Nat.lt_succ_self k))]
  between := by
    intro j hkj hjt
    by_cases hj : j = k + 1
    · subst hj
      refine ⟨p, hc.top, ?_⟩
      rw [hc.addr (k + 1) p ⟨by omega, Or.inl (by simp [h₁])⟩]
      exact hp
    · obtain ⟨x, hx, hax⟩ := hd.between j (by omega) hjt
      refine ⟨x, (hc.other j (Or.inr (by omega))).trans hx, ?_⟩
      rw [hc.addr j x ⟨by omega, Or.inl (by simp [hx])⟩]
      exact hax
  other := by
    intro j hj
    rw [hc.other j (by omega), hd.other j (by omega)]
  allocated := fun j => (hc.allocated j).trans (hd.allocated j)
  pool := by
    rw [hc.pool, hd.pool, List.drop_drop]
    congr 1
    omega
  kept := by
    intro j x hx
    obtain ⟨j', hx'⟩ := hd.kept j x hx
    exact hc.kept j' x hx'
  addr := by
    intro j x hx
    obtain ⟨j', hx'⟩ := hd.kept j x hx
    exact (hc.addr j' x hx').trans (hd.addr j x hx)
  nodes := hc.nodes.trans hd.nodes
  confined := hd.confined.trans hc.confined

theorem Sound.divide (d fuel : ℕ) {k p : ℕ} {rest : List ℕ} (h : Sound R s ls)
    (hk : k + d + 1 < 26) (hempty : ∀ j, k < j → j < k + d + 1 → ls (.free j) = [])
    (hp : ls (.free (k + d + 1)) = p :: rest) (hpool : d + 1 ≤ (ls .pool).length)
    (hfuel : d < fuel) :
    ∃ s' ls', divBlock fuel s (k + 1) = .ok (true, s') ∧
      Divided R s ls k (k + d + 1) (s.blockAddr p) rest s' ls' := by
  induction d generalizing k fuel with
  | zero =>
    obtain ⟨fuel, rfl⟩ : ∃ f, fuel = f + 1 := ⟨fuel - 1, by omega⟩
    obtain ⟨q, ps, hq⟩ := List.exists_cons_of_length_pos (show 0 < (ls .pool).length by omega)
    obtain ⟨s', hrun, hdiv⟩ := h.divided_cut hk hp hq
    exact ⟨s', _, hrun fuel, hdiv⟩
  | succ d ih =>
    obtain ⟨fuel, rfl⟩ : ∃ f, fuel = f + 1 := ⟨fuel - 1, by omega⟩
    have he : ls (.free (k + 1)) = [] := hempty (k + 1) (by omega) (by omega)
    have hidx : k + 1 + d + 1 = k + (d + 1) + 1 := by omega
    have hguard : ¬ (k + 1 = 0 ∨ k + 1 = kMemBlockTypeNum) := by simp only [kMemBlockTypeNum]; omega
    have hisEmpty : isListEmpty s.next (s.head (.free (k + 1))) = true :=
      (h.repr.empty_iff (free_mem_slots.mpr (by omega))).mpr he
    obtain ⟨s₁, ls₁, hrun₁, hdiv₁⟩ := @ih fuel (k + 1) (by omega)
      (fun j h1 h2 => hempty j (by omega) (by omega)) (by rw [hidx]; exact hp) (by omega) (by omega)
    rw [hidx] at hdiv₁
    -- the list of type `k + 1` now holds the two halves, the upper one in front
    obtain ⟨p', q', hls₁, hp', hq'⟩ := hdiv₁.bottom
    rw [he] at hls₁
    have hpool₁ : 0 < (ls₁ .pool).length := by
      rw [hdiv₁.pool, List.length_drop]
      omega
    obtain ⟨q, ps, hq⟩ := List.exists_cons_of_length_pos hpool₁
    obtain ⟨s₂, hrun₂, hdiv₂⟩ := hdiv₁.sound.divided_cut (by omega) hls₁ hq
    refine ⟨s₂, _, ?_, hdiv₁.step (by omega) hk hls₁ hp' hq' hdiv₂⟩
    obtain ⟨f, rfl⟩ : ∃ f, fuel = f + 1 := ⟨fuel - 1, by omega⟩
    rw [divBlock, if_neg hguard, slot_free s (show k + 1 < 26 by omega)]
    simp only [bind, Except.bind, hisEmpty, Bool.true_eq_false, if_false, hrun₁, if_true, hrun₂ f]

theorem Repr.divBlock_none (h : Repr s slots ls) (d fuel : ℕ) {k : ℕ} (hk : k + d = 26) (hk0 : 0 < k)
    (hempty : ∀ j, k ≤ j → j < 26 → ls (.free j) = []) (hfuel : d < fuel) :
    divBlock fuel s k = .ok (false, s) := by
  induction d generalizing k fuel with
  | zero =>
    obtain ⟨fuel, rfl⟩ : ∃ f, fuel = f + 1 := ⟨fuel - 1, by omega⟩
    rw [divBlock, if_pos (Or.inr (by simpa [kMemBlockTypeNum] using hk))]
  | succ d ih =>
    obtain ⟨fuel, rfl⟩ : ∃ f, fuel = f + 1 := ⟨fuel - 1, by omega⟩
    have hguard : ¬ (k = 0 ∨ k = kMemBlockTypeNum) := by simp only [kMemBlockTypeNum]; omega
    have hisEmpty : isListEmpty s.next (s.head (.free k)) = true :=
      (h.empty_iff (free_mem_slots.mpr (by omega))).mpr (hempty k le_rfl (by omega))
    have hrec := @ih fuel (k + 1) (by omega) (by omega) (fun j h1 h2 => hempty j (by omega) h2)
      (by omega)
    rw [divBlock, if_neg hguard, slot_free s (show k < 26 by omega)]
    simp only [bind, Except.bind, hisEmpty, Bool.true_eq_false, if_false, hrec, Bool.false_eq_true]

/-! ## Taking a block of the right size -/

def takeLists (blk : ℕ → ℕ) (ls : Slot → List ℕ) (k p : ℕ) (rest : List ℕ) : Slot → List ℕ :=
  Function.update (Function.update ls (.free k) rest) (.allocated k)
    (insertAt blk (blk p) p (ls (.allocated k)))

section Take
variable {k p : ℕ} {rest : List ℕ} {blk : ℕ → ℕ}

@[simp] theorem takeLists_free_self : takeLists blk ls k p rest (.free k) = rest := by
  simp [takeLists]

theorem takeLists_free_of_ne {j : ℕ} (hj : j ≠ k) :
    takeLists blk ls k p rest (.free j) = ls (.free j) := by simp [takeLists, hj]

@[simp] theorem takeLists_allocated_self :
    takeLists blk ls k p rest (.allocated k) = insertAt blk (blk p) p (ls (.allocated k)) :=
  Function.update_self ..

theorem takeLists_allocated_of_ne {j : ℕ} (hj : j ≠ k) :
    takeLists blk ls k p rest (.allocated j) = ls (.allocated j) := by simp [takeLists, hj]

theorem holds_takeLists (hp : ls (.free k) = p :: rest) (j x : ℕ) :
    Holds (takeLists blk ls k p rest) j x ↔ Holds ls j x := by
  by_cases hj : j = k
  · subst hj
    simp only [Holds, takeLists_free_self, takeLists_allocated_self, mem_insertAt, hp, List.mem_cons]
    tauto
  · simp only [Holds, takeLists_free_of_ne hj, takeLists_allocated_of_ne hj]

theorem nodes_takeLists (hk : k < 26) (hp : ls (.free k) = p :: rest) :
    nodes slots (takeLists blk ls k p rest) = nodes slots ls := by
  have halloc : Function.update ls (.free k) rest (.allocated k) = ls (.allocated k) := by simp
  rw [takeLists, insertAt, nodes_push (allocated_mem_slots.mpr hk) p]
  · exact nodes_pop_head (free_mem_slots.mpr hk) hp
  · rw [halloc, List.takeWhile_append_dropWhile]

theorem Sound.take {size : ℤ} (h : Sound R s ls) (hk : k < 26) (hp : ls (.free k) = p :: rest)
    (hsize : getMemBlockSizeType size = k) :
    ∃ s', (∀ fuel, reqBytesFuel (fuel + 1) s size = .ok (s.blockAddr p, s')) ∧
      Sound R s' (takeLists s.blockAddr ls k p rest) ∧ s'.head = s.head ∧ s'.addr = s.addr ∧
      Confined s s' := by
  have hf : Slot.free k ∈ slots := free_mem_slots.mpr hk
  have ha : Slot.allocated k ∈ slots := allocated_mem_slots.mpr hk
  have hpn : IsNode p := h.repr.isNode hf (by simp [hp])
  obtain ⟨e1, r1, l1⟩ := h.repr.listRemove_head hf hp
  set s₁ := (s.listRemove (s.head (.free k))).2 with hs₁
  have halloc : Function.update ls (.free k) rest (.allocated k) = ls (.allocated k) := by simp
  obtain ⟨tmp, htmp, hseek, r2⟩ := r1.seekAdd ha hpn l1 (s.blockAddr p)
  rw [halloc] at r2
  have hconf := ((Confined.refl s).listRemove (h.repr.isNode_head hf) (e1.symm ▸ hpn)).listAdd
    (r1.node _ ha _ htmp) hpn
  refine ⟨_, ?_, ⟨r2, h.blocks.congr (holds_takeLists hp) fun _ _ _ => rfl⟩, rfl, rfl, hconf⟩
  intro fuel
  have hne := h.repr.not_empty hf hp
  rw [reqBytesFuel, hsize, slot_free s hk]
  simp only [bind, Except.bind, hne, Bool.false_eq_true, if_false, e1, ← hs₁, slot_allocated s₁ hk,
    hpn.nodeOf_getStruct]
  rw [show s₁.addr (getStruct p) = s.blockAddr p from rfl, hseek]
  rfl

theorem Sound.take_split {size : ℤ} {t : ℕ} (h : Sound R s ls) (hkt : k < t) (ht : t < 26)
    (hempty : ∀ j, k ≤ j → j < t → ls (.free j) = []) (hp : ls (.free t) = p :: rest)
    (hpool : t - k ≤ (ls .pool).length) (hsize : getMemBlockSizeType size = k) :
    ∃ s₁ ls₁ q p' s', Divided R s ls k t (s.blockAddr p) rest s₁ ls₁ ∧ ls₁ (.free k) = [q, p'] ∧
      s₁.blockAddr p' + 2 ^ (k + 1) = s.blockAddr p + 2 ^ t ∧
      s₁.blockAddr q + 2 ^ k = s.blockAddr p + 2 ^ t ∧ reqBytes s size = .ok (s₁.blockAddr q, s') ∧
      Sound R s' (takeLists s₁.blockAddr ls₁ k q [p']) ∧ s'.head = s.head ∧ s'.addr = s₁.addr ∧
      Confined s s' := by
  have hk : k < 26 := hkt.trans ht
  obtain ⟨d, rfl⟩ : ∃ d, t = k + d + 1 := ⟨t - k - 1, by omega⟩
  obtain ⟨s₁, ls₁, hrun₁, hd⟩ := h.divide d loopFuel ht
    (fun j h1 h2 => hempty j (by omega) h2) hp (by omega) (by simp only [loopFuel]; omega)
  obtain ⟨p', q, hls₁, hp', hq⟩ := hd.bottom
  rw [hempty k le_rfl hkt] at hls₁
  obtain ⟨s', hrun, hsound, hhead, haddr, hconf⟩ := hd.sound.take hk hls₁ hsize
  refine ⟨s₁, ls₁, q, p', s', hd, hls₁, hp', hq, ?_, hsound, hhead.trans hd.head, haddr,
    hd.confined.trans hconf⟩
  have hisEmpty : isListEmpty s.next (s.head (.free k)) = true :=
    (h.repr.empty_iff (free_mem_slots.mpr hk)).mpr (hempty k le_rfl hkt)
  obtain ⟨f, hf⟩ : ∃ f, loopFuel = f + 1 + 1 := ⟨loopFuel - 2, rfl⟩
  rw [reqBytes, hf, reqBytesFuel, hsize, slot_free s hk]
  simp only [bind, Except.bind, hisEmpty, if_true, hrun₁, hrun f]

end Take
end XyOS.DirectMapping
