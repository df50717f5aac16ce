import XyOS.Memory.DirectMappingInvariant
import XyOS.Memory.DirectMappingPool

/-! `DirectMappingInit`, from any content of the memory it takes over. -/

namespace XyOS.DirectMapping
open Linked Cells

variable {R : ℕ} {s : Allocator}

/-! ## The pool -/

def poolOnly (ns : List ℕ) : Slot → List ℕ
  | .pool => ns
  | _ => []

theorem update_poolOnly (ns ns' : List ℕ) :
    Function.update (poolOnly ns) .pool ns' = poolOnly ns' := by
  funext i
  cases i <;> simp [poolOnly]

theorem IsPool.repr {bs : List ℕ} (h : IsPool s poolBase bs) (hnode : ∀ b ∈ poolBase :: bs, IsNode (nodeOf b)) :
    Repr s {.pool} (poolOnly (bs.map nodeOf)) := by
  refine ⟨⟨?_, ?_, ?_⟩, ?_⟩
  · rintro i rfl
    change Seg s.next s.memBlockPool _ s.memBlockPool
    rw [h.head]
    exact h.ring
  · rintro i rfl
    change (s.memBlockPool :: _).Nodup
    rw [h.head]
    exact h.nodes_nodup
  · rintro i rfl j rfl p _ _
    rfl
  · rintro i rfl p hp
    change p ∈ s.memBlockPool :: _ at hp
    rw [h.head] at hp
    obtain ⟨b, hb, rfl⟩ : ∃ b ∈ poolBase :: bs, nodeOf b = p := List.mem_map.mp hp
    exact hnode b hb

theorem isNode_nodeOf {k : ℕ} (hk : k < 131072) : IsNode (nodeOf (poolBase + 8 * k)) := by
  rw [nodeOf, u32_of_lt (by rw [poolBase_eq]; omega)]
  refine ⟨?_, ?_, ?_⟩ <;> simp only [poolBase_eq, kNodePoolSize] <;> omega

theorem memBlockPoolInit_spec (s : Allocator) :
    ∃ s' ns, memBlockPoolInit s (directMappingVirtualAddr managedSize) kNodePoolSize = .ok s' ∧
      Repr s' {.pool} (poolOnly ns) ∧ ns.length = 131071 := by
  have hbase : directMappingVirtualAddr managedSize = poolBase := by decide
  have hsize : kNodePoolSize = 8 * (131071 + 1) := rfl
  obtain ⟨s', hinit, hpool⟩ := memBlockPoolInit_isPool s poolBase 131071
    (by rw [poolBase_eq]; omega)
  refine ⟨s', (blocksBehind poolBase 131071).map nodeOf, ?_, hpool.repr fun b hb => ?_, ?_⟩
  · rw [hbase, hsize]
    exact hinit
  · obtain rfl | hb := List.mem_cons.mp hb
    · exact isNode_nodeOf (k := 0) (by decide)
    · obtain ⟨k, -, hle, rfl⟩ := mem_blocksBehind.mp hb
      exact isNode_nodeOf (by omega)
  · rw [List.length_map, length_blocksBehind]

/-! ## The list heads -/

def madeSlots (n : ℕ) : Set Slot := {i | ∀ k, i = .free k ∨ i = .allocated k → k < n}

theorem madeSlots_zero : madeSlots 0 = {.pool} := by
  ext i
  cases i <;> simp [madeSlots]

theorem madeSlots_succ (n : ℕ) :
    madeSlots (n + 1) = {.allocated n} ∪ ({.free n} ∪ madeSlots n) := by
  ext i
  cases i <;> simp [madeSlots] <;> omega

theorem madeSlots_all : madeSlots kMemBlockTypeNum = slots := by
  ext i
  cases i <;> simp [madeSlots, kMemBlockTypeNum]

theorem Repr.pop {D : Set Slot} {q : ℕ} {ps : List ℕ} (h : Repr s D (poolOnly (q :: ps)))
    (hD : Slot.pool ∈ D) :
    DirectMapping.reqMemBlock s = (getStruct q, (s.listRemove (s.head .pool)).2) ∧ IsNode q ∧
      Repr (s.listRemove (s.head .pool)).2 D (poolOnly ps) ∧ Loose D s.head (poolOnly ps) q := by
  obtain ⟨h1, h2, h3⟩ := h.reqMemBlock hD rfl
  rw [update_poolOnly] at h2 h3
  exact ⟨h1, h.isNode hD (List.mem_cons_self ..), h2, h3⟩

theorem initList_spec {n q q' : ℕ} {ps : List ℕ}
    (h : Repr s (madeSlots n) (poolOnly (q :: q' :: ps))) :
    Repr (initList s n) (madeSlots (n + 1)) (poolOnly ps) := by
  have hpool : Slot.pool ∈ madeSlots n := by simp [madeSlots]
  obtain ⟨e1, hq, r1, l1⟩ := h.pop hpool
  set s₁ := (s.listRemove (s.head .pool)).2 with hs₁
  let s₂ : Allocator := { s₁ with freeMemList := Function.update s₁.freeMemList n q
                                  next := Function.update s₁.next q q }
  have r2 : Repr s₂ ({.free n} ∪ madeSlots n) (poolOnly (q' :: ps)) := by
    have hself : s₂.head (.free n) = q := by
      change Function.update s₁.freeMemList n q n = q
      rw [Function.update_self]
    refine r1.grow (by simp [madeSlots]) hq l1 rfl rfl hself ?_
    intro j hj
    cases j with
    | free k =>
      have hk : k ≠ n := by simp [madeSlots] at hj; omega
      exact Function.update_of_ne hk ..
    | allocated k => rfl
    | pool => rfl
  obtain ⟨e2, hq', r3, l2⟩ := r2.pop (Or.inr hpool)
  set s₃ := (s₂.listRemove (s₂.head .pool)).2 with hs₃
  have hres : initList s n = { s₃ with allocatedMemList := Function.update s₃.allocatedMemList n q'
                                       next := Function.update s₃.next q' q' } := by
    have hround : initList s n =
        { (reqMemBlock s₂).2 with
          allocatedMemList := Function.update (reqMemBlock s₂).2.allocatedMemList n
            (nodeOf (reqMemBlock s₂).1)
          next := Function.update (reqMemBlock s₂).2.next (nodeOf (reqMemBlock s₂).1)
            (nodeOf (reqMemBlock s₂).1) } := by
      simp only [initList, e1, hq.nodeOf_getStruct, s₂]
    rw [hround, e2, hq'.nodeOf_getStruct]
  rw [madeSlots_succ, hres]
  refine r3.grow (by simp [madeSlots]) hq' l2 rfl rfl ?_ ?_
  · change Function.update s₃.allocatedMemList n q' n = q'
    rw [Function.update_self]
  intro j hj
  cases j with
  | free k => rfl
  | allocated k =>
    have hk : k ≠ n := by simp [madeSlots] at hj; omega
    exact Function.update_of_ne hk ..
  | pool => rfl

theorem initLists_spec (n : ℕ) {ns : List ℕ} (h : Repr s {.pool} (poolOnly ns))
    (hlen : 2 * n ≤ ns.length) :
    ∃ ps, Repr (initLists n s) (madeSlots n) (poolOnly ps) ∧ ps.length + 2 * n = ns.length := by
  induction n with
  | zero => exact ⟨ns, by rw [madeSlots_zero]; exact h, rfl⟩
  | succ n ih =>
    obtain ⟨ps, hrepr, hps⟩ := ih (by omega)
    match ps, hps with
    | q :: q' :: ps, hps =>
      exact ⟨ps, initList_spec hrepr, by simp only [List.length_cons] at hps; omega⟩
    | [_], hps => simp at hps; omega
    | [], hps => simp at hps; omega

/-! ## Carving -/

def carvedSize (R : ℕ) : ℕ := managedSize - R

/-- The types from `j` on are carved: type `k` got a block if bit `k` of the
carved size is set, and the blocks so far tile what the higher bits stand for. -/
structure Carved (r : ℕ) (s : Allocator) (ls : Slot → List ℕ) (j : ℕ) : Prop where
  repr : Repr s slots ls
  tiling : Tiling (-(2 ^ r : ℕ)) (carvedSize (2 ^ r) / 2 ^ j * 2 ^ j : ℕ)
    (cellsOf (2 ^ r) (Holds ls) s.blockAddr)
  inj : ∀ k p q, Holds ls k p → Holds ls k q → s.blockAddr p = s.blockAddr q → p = q
  reserved : ∃ p, ls (.allocated r) = [p] ∧ s.blockAddr p = kKVirtualAddr
  allocated : ∀ k, k ≠ r → ls (.allocated k) = []
  carved : ∀ k, j ≤ k → k < 26 → carvedSize (2 ^ r) / 2 ^ k % 2 = 1 → ∃ p, ls (.free k) = [p] ∧
    s.blockAddr p = kKVirtualAddr + 2 ^ r + carvedSize (2 ^ r) / 2 ^ (k + 1) * 2 ^ (k + 1)
  rest : ∀ k, k < j ∨ carvedSize (2 ^ r) / 2 ^ k % 2 = 0 → ls (.free k) = []
  pool : 131018 ≤ (ls .pool).length + (26 - j)

variable {ls : Slot → List ℕ} {r j : ℕ}

theorem div_pow_step (n j : ℕ) : n / 2 ^ j * 2 ^ j = n / 2 ^ (j + 1) * 2 ^ (j + 1) + n / 2 ^ j % 2 * 2 ^ j := by
  have hdiv : n / 2 ^ (j + 1) = n / 2 ^ j / 2 := by rw [pow_succ, Nat.div_div_eq_div_mul]
  calc n / 2 ^ j * 2 ^ j = (2 * (n / 2 ^ j / 2) + n / 2 ^ j % 2) * 2 ^ j := by rw [Nat.div_add_mod]
    _ = n / 2 ^ (j + 1) * 2 ^ (j + 1) + n / 2 ^ j % 2 * 2 ^ j := by
      rw [hdiv, pow_succ]
      ring

theorem Carved.skip (h : Carved r s ls (j + 1)) (hbit : carvedSize (2 ^ r) / 2 ^ j % 2 = 0) :
    Carved r s ls j where
  repr := h.repr
  tiling := by
    have := h.tiling
    rwa [div_pow_step, hbit, Nat.zero_mul, Nat.add_zero]
  inj := h.inj
  reserved := h.reserved
  allocated := h.allocated
  carved := by
    intro k hjk hk hb
    have hne : k ≠ j := by
      rintro rfl
      omega
    exact h.carved k (by omega) hk hb
  rest := by
    rintro k (hk | hk)
    · exact h.rest k (Or.inl (by omega))
    · exact h.rest k (Or.inr hk)
  pool := by
    have := h.pool
    omega

def pushLists (ls : Slot → List ℕ) (j q : ℕ) (ps : List ℕ) : Slot → List ℕ :=
  Function.update (Function.update ls .pool ps) (.free j) [q]

section Push
variable {q : ℕ} {ps : List ℕ}

@[simp] theorem pushLists_free_self : pushLists ls j q ps (.free j) = [q] := Function.update_self ..

@[simp] theorem pushLists_pool : pushLists ls j q ps .pool = ps := by simp [pushLists]

@[simp] theorem pushLists_allocated (k : ℕ) :
    pushLists ls j q ps (.allocated k) = ls (.allocated k) := by simp [pushLists]

theorem pushLists_free_of_ne {k : ℕ} (hk : k ≠ j) : pushLists ls j q ps (.free k) = ls (.free k) := by
  simp [pushLists, hk]

theorem holds_pushLists (hj : j < 26) (he : ls (.free j) = []) (k x : ℕ) :
    Holds (pushLists ls j q ps) k x ↔ (k = j ∧ x = q) ∨ Holds ls k x := by
  by_cases hk : k = j
  · subst hk
    simp [Holds, hj, he]
  · simp [Holds, hk, pushLists_free_of_ne hk]

theorem Carved.blockAddr_lt (h : Carved r s ls j) {k x : ℕ} (hx : Holds ls k x) :
    s.blockAddr x < kKVirtualAddr + 2 ^ r + carvedSize (2 ^ r) / 2 ^ j * 2 ^ j := by
  have hin := (h.tiling.inside _ (Blocks.mem_cells hx)).2
  have hpos : (0 : ℤ) < 2 ^ k := by positivity
  simp only [cellAt] at hin
  omega

section Add
variable {s' : Allocator} (h : Carved r s ls (j + 1)) (hj : j < 26)
  (hkeep : ∀ k x, Holds ls k x → s'.blockAddr x = s.blockAddr x)
  (haq : s'.blockAddr q = kKVirtualAddr + 2 ^ r + carvedSize (2 ^ r) / 2 ^ (j + 1) * 2 ^ (j + 1))
include h hj hkeep haq

theorem Carved.tiling_add (hbit : carvedSize (2 ^ r) / 2 ^ j % 2 = 1) :
    Tiling (-(2 ^ r : ℕ)) (carvedSize (2 ^ r) / 2 ^ j * 2 ^ j : ℕ)
      (cellsOf (2 ^ r) (Holds (pushLists ls j q ps)) s'.blockAddr) := by
  have hempty : ls (.free j) = [] := h.rest j (Or.inl (Nat.lt_succ_self j))
  have hdvd : 2 ^ j ∣ carvedSize (2 ^ r) / 2 ^ (j + 1) * 2 ^ (j + 1) :=
    Dvd.dvd.mul_left (pow_dvd_pow 2 (Nat.le_succ j)) _
  have hnext := div_pow_step (carvedSize (2 ^ r)) j
  have htile := h.tiling
  rw [hbit, Nat.one_mul] at hnext
  set top := carvedSize (2 ^ r) / 2 ^ (j + 1) * 2 ^ (j + 1) with htop
  have hnew : cellAt (2 ^ r) j (s'.blockAddr q) = ⟨j, (top : ℤ)⟩ := by
    simp only [cellAt, haq, Cell.mk.injEq, true_and]
    push_cast
    ring
  have hext := htile.extend (k := j)
    (le_trans (neg_nonpos.mpr (Int.natCast_nonneg _)) (Int.natCast_nonneg _)) (by exact_mod_cast hdvd)
  rw [cellsOf_insert (holds_pushLists hj hempty) hkeep, hnew, hnext]
  push_cast at hext ⊢
  exact hext

theorem Carved.inj_add {k x y : ℕ} (hx : Holds (pushLists ls j q ps) k x)
    (hy : Holds (pushLists ls j q ps) k y) (hxy : s'.blockAddr x = s'.blockAddr y) : x = y := by
  have hempty : ls (.free j) = [] := h.rest j (Or.inl (Nat.lt_succ_self j))
  rcases (holds_pushLists hj hempty k x).mp hx with ⟨-, hxq⟩ | hx' <;>
    rcases (holds_pushLists hj hempty k y).mp hy with ⟨-, hyq⟩ | hy'
  · rw [hxq, hyq]
  · have := h.blockAddr_lt hy'
    rw [hkeep k y hy', hxq] at hxy
    omega
  · have := h.blockAddr_lt hx'
    rw [hkeep k x hx', hyq] at hxy
    omega
  · rw [hkeep k x hx', hkeep k y hy'] at hxy
    exact h.inj k x y hx' hy' hxy

end Add

theorem Carved.add (h : Carved r s ls (j + 1)) (hj : j < 26) (hr : r < 26)
    (hbit : carvedSize (2 ^ r) / 2 ^ j % 2 = 1) (hq : ls .pool = q :: ps) {s' : Allocator}
    (hrepr : Repr s' slots (pushLists ls j q ps))
    (haddr : ∀ x, IsNode x → s'.blockAddr x =
      if x = q then kKVirtualAddr + 2 ^ r + carvedSize (2 ^ r) / 2 ^ (j + 1) * 2 ^ (j + 1)
      else s.blockAddr x) :
    Carved r s' (pushLists ls j q ps) j := by
  have hqn : IsNode q := h.repr.isNode pool_mem_slots (by simp [hq])
  have hkeep := h.repr.blockAddr_kept hq haddr
  have haq := haddr q hqn
  rw [if_pos rfl] at haq
  refine ⟨hrepr, h.tiling_add hj hkeep haq hbit, fun k x y => h.inj_add hj hkeep haq, ?_, ?_, ?_, ?_, ?_⟩
  · obtain ⟨p, hp, hap⟩ := h.reserved
    exact ⟨p, by rw [pushLists_allocated, hp], by rw [hkeep r p ⟨hr, Or.inr (by simp [hp])⟩, hap]⟩
  · intro k hk
    rw [pushLists_allocated, h.allocated k hk]
  · intro k hjk hk hb
    by_cases hkj : k = j
    · subst hkj
      exact ⟨q, pushLists_free_self, haq⟩
    · obtain ⟨p, hp, hap⟩ := h.carved k (by omega) hk hb
      exact ⟨p, by rw [pushLists_free_of_ne hkj, hp], by rw [hkeep k p ⟨hk, Or.inl (by simp [hp])⟩, hap]⟩
  · intro k hk
    have hkj : k ≠ j := by
      rintro rfl
      omega
    rw [pushLists_free_of_ne hkj]
    exact h.rest k (by omega)
  · have := h.pool
    rw [hq, List.length_cons] at this
    rw [pushLists_pool]
    omega

end Push

def carveStart (r j : ℕ) : ℕ := 2 ^ r + carvedSize (2 ^ r) / 2 ^ j * 2 ^ j

theorem pow_le_of_lt_26 (hr : r < 26) : 2 ^ r ≤ 2 ^ 25 := Nat.pow_le_pow_right (by norm_num) (by omega)

theorem carveStart_le (hr : r < 26) (j : ℕ) : carveStart r j ≤ managedSize := by
  have hpow := pow_le_of_lt_26 hr
  have hdiv := Nat.div_mul_le_self (carvedSize (2 ^ r)) (2 ^ j)
  simp only [carveStart, carvedSize, managedSize, kDirectMappingSize, kNodePoolSize] at *
  omega

theorem carve_test (hr : r < 26) (j : ℕ) :
    carveStart r (j + 1) + 2 ^ j ≤ managedSize ↔ carvedSize (2 ^ r) / 2 ^ j % 2 = 1 := by
  have hpow := pow_le_of_lt_26 hr
  have hstep := div_pow_step (carvedSize (2 ^ r)) j
  have hmod := Nat.div_add_mod (carvedSize (2 ^ r)) (2 ^ j)
  have hlt := Nat.mod_lt (carvedSize (2 ^ r)) (show 0 < 2 ^ j by positivity)
  have hM : managedSize = 2 ^ r + carvedSize (2 ^ r) := by
    simp only [carvedSize, managedSize, kDirectMappingSize, kNodePoolSize]
    omega
  rw [Nat.mul_comm] at hmod
  rw [carveStart, hM]
  rcases Nat.mod_two_eq_zero_or_one (carvedSize (2 ^ r) / 2 ^ j) with h0 | h1
  · rw [h0] at hstep ⊢
    omega
  · rw [h1] at hstep ⊢
    omega

theorem Carved.carveType (h : Carved r s ls (j + 1)) (hj : j < 26) (hr : r < 26) :
    ∃ s' ls', carveType j loopFuel s (carveStart r (j + 1)) = .ok (s', carveStart r j) ∧
      Carved r s' ls' j := by
  obtain ⟨fuel, hfuel⟩ : ∃ f, loopFuel = f + 1 + 1 := ⟨loopFuel - 2, rfl⟩
  have hstep := div_pow_step (carvedSize (2 ^ r)) j
  rcases Nat.mod_two_eq_zero_or_one (carvedSize (2 ^ r) / 2 ^ j) with h0 | h1
  · have hsame : carveStart r j = carveStart r (j + 1) := by
      rw [carveStart, carveStart, hstep, h0, Nat.zero_mul, Nat.add_zero]
    refine ⟨s, ls, ?_, h.skip h0⟩
    have hstop : ¬ carveStart r (j + 1) + getMemBlockSize j ≤ managedSize := fun hle => by
      have := (carve_test hr j).mp hle
      omega
    rw [hfuel, DirectMapping.carveType, if_neg hstop, hsame]
  · have hnext : carveStart r (j + 1) + getMemBlockSize j = carveStart r j := by
      rw [carveStart, carveStart, hstep, h1, Nat.one_mul, getMemBlockSize]
      omega
    have hgo : carveStart r (j + 1) + getMemBlockSize j ≤ managedSize := (carve_test hr j).mpr h1
    -- the types above are done, so one block of type `j` is all that fits
    have hstop : ¬ carveStart r j + getMemBlockSize j ≤ managedSize := by
      have hlt := Nat.lt_mul_div_succ (carvedSize (2 ^ r)) (show 0 < 2 ^ j by positivity)
      have hpow := pow_le_of_lt_26 hr
      rw [Nat.mul_add, Nat.mul_one, Nat.mul_comm] at hlt
      simp only [carveStart, getMemBlockSize]
      simp only [carvedSize, managedSize, kDirectMappingSize, kNodePoolSize] at hlt ⊢
      omega
    obtain ⟨q, ps, hq⟩ := List.exists_cons_of_length_pos (show 0 < (ls .pool).length by
      have := h.pool
      omega)
    have hqn : IsNode q := h.repr.isNode pool_mem_slots (by simp [hq])
    obtain ⟨e1, r1, l1⟩ := h.repr.reqMemBlock pool_mem_slots hq
    set s₁ := (s.listRemove (s.head .pool)).2 with hs₁
    set s₂ := s₁.setAddr (getStruct q) (directMappingVirtualAddr (carveStart r (j + 1))) with hs₂
    have r2 : Repr s₂ slots (Function.update ls .pool ps) := r1.setAddr _ _
    have r3 := r2.listAdd_head (free_mem_slots.mpr hj) hqn l1
    have hls : Function.update (Function.update ls .pool ps) (.free j)
        (q :: Function.update ls .pool ps (.free j)) = pushLists ls j q ps := by
      rw [pushLists, Function.update_of_ne (by simp), h.rest j (Or.inl (Nat.lt_succ_self j))]
    rw [hls] at r3
    have hvirt : directMappingVirtualAddr (carveStart r (j + 1)) =
        kKVirtualAddr + 2 ^ r + carvedSize (2 ^ r) / 2 ^ (j + 1) * 2 ^ (j + 1) := by
      have hle := carveStart_le hr (j + 1)
      simp only [managedSize, kDirectMappingSize, kNodePoolSize] at hle
      rw [directMappingVirtualAddr, u32_of_lt (by simp only [kKVirtualAddr]; omega), carveStart]
      omega
    refine ⟨_, _, ?_, h.add hj hr h1 hq r3 fun x hx => ?_⟩
    · rw [hfuel, DirectMapping.carveType, if_pos hgo, e1]
      simp only [bind, Except.bind, ← hs₂, slot_free s₂ hj, hqn.nodeOf_getStruct, hnext]
      rw [DirectMapping.carveType, if_neg hstop]
    · rw [listAdd_blockAddr, hs₂, setAddr_blockAddr hqn hx, hs₁, listRemove_blockAddr, hvirt]

theorem Carved.finish (h : Carved r s ls j) (hj : j ≤ 26) (hr : r < 26)
    (hend : ¬ carveStart r j < managedSize) : Carved r s ls 0 := by
  have hpow := pow_le_of_lt_26 hr
  have hfull : carvedSize (2 ^ r) / 2 ^ j * 2 ^ j = carvedSize (2 ^ r) := by
    have hdiv := Nat.div_mul_le_self (carvedSize (2 ^ r)) (2 ^ j)
    simp only [carveStart, not_lt] at hend
    refine le_antisymm hdiv ?_
    simp only [carvedSize, managedSize, kDirectMappingSize, kNodePoolSize] at hend ⊢
    omega
  have hbits : ∀ k < j, carvedSize (2 ^ r) / 2 ^ k % 2 = 0 := by
    intro k hk
    obtain ⟨d, rfl⟩ := Nat.exists_eq_add_of_lt hk
    rw [← hfull, show k + d + 1 = d + 1 + k from by omega, pow_add, ← Nat.mul_assoc,
      Nat.mul_div_cancel _ (by positivity), pow_succ, ← Nat.mul_assoc, Nat.mul_mod_left]
  refine ⟨h.repr, ?_, h.inj, h.reserved, h.allocated, ?_, ?_, by have := h.pool; omega⟩
  · have htile := h.tiling
    rw [hfull] at htile
    rwa [pow_zero, Nat.div_one, Nat.mul_one]
  · intro k _ hk hb
    by_cases hkj : k < j
    · have := hbits k hkj
      omega
    · exact h.carved k (by omega) hk hb
  · rintro k (hk | hk)
    · omega
    · exact h.rest k (Or.inr hk)

theorem Carved.carve (h : Carved r s ls j) (hj : j ≤ 26) (hr : r < 26) :
    ∃ s' ls', carve j s (carveStart r j) = .ok s' ∧ Carved r s' ls' 0 := by
  induction j generalizing s ls with
  | zero => exact ⟨s, ls, rfl, h⟩
  | succ j ih =>
    by_cases hlt : carveStart r (j + 1) < managedSize
    · obtain ⟨s₁, ls₁, hrun, hcarved⟩ := h.carveType hj hr
      obtain ⟨s', ls', hrest, hdone⟩ := ih hcarved (by omega)
      refine ⟨s', ls', ?_, hdone⟩
      rw [DirectMapping.carve, if_pos hlt, hrun]
      exact hrest
    · refine ⟨s, ls, ?_, h.finish hj hr hlt⟩
      rw [DirectMapping.carve, if_neg hlt]

theorem carvedSize_div (R : ℕ) : carvedSize R / 2 ^ 26 = 0 :=
  Nat.div_eq_of_lt (lt_of_le_of_lt (Nat.sub_le managedSize R) (by decide))

def reservedLists (r q : ℕ) (ps : List ℕ) : Slot → List ℕ :=
  Function.update (poolOnly ps) (.allocated r) [q]

theorem holds_reservedLists {q : ℕ} {ps : List ℕ} (hr : r < 26) (k x : ℕ) :
    Holds (reservedLists r q ps) k x ↔ k = r ∧ x = q := by
  by_cases hk : k = r
  · subst hk
    simp [Holds, reservedLists, poolOnly, hr]
  · simp [Holds, reservedLists, poolOnly, hk]

theorem carved_reserved {q : ℕ} {ps : List ℕ} (hr : r < 26) (hrepr : Repr s slots (reservedLists r q ps))
    (haddr : s.blockAddr q = kKVirtualAddr) (hlen : 131018 ≤ ps.length) :
    Carved r s (reservedLists r q ps) 26 := by
  have hcells : cellsOf (2 ^ r) (Holds (reservedLists r q ps)) s.blockAddr =
      ∅ ∪ {⟨r, -((2 ^ r : ℕ) : ℤ)⟩} := by
    have hcell : cellAt (2 ^ r) r (s.blockAddr q) = ⟨r, -((2 ^ r : ℕ) : ℤ)⟩ := by
      simp only [cellAt, haddr, Cell.mk.injEq, true_and]
      omega
    ext c
    simp only [cellsOf, holds_reservedLists hr, Set.mem_ofPred_eq, Set.empty_union, Set.mem_singleton_iff]
    constructor
    · rintro ⟨k, x, ⟨rfl, rfl⟩, rfl⟩
      exact hcell
    · rintro rfl
      exact ⟨r, q, ⟨rfl, rfl⟩, hcell.symm⟩
  have hnone : Tiling (-((2 ^ r : ℕ) : ℤ)) (-((2 ^ r : ℕ) : ℤ)) ∅ := by
    refine ⟨by simp, by simp, by simp, fun x h1 h2 => ?_⟩
    omega
  refine ⟨hrepr, ?_, ?_, ?_, ?_, ?_, ?_, by simpa [reservedLists, poolOnly] using hlen⟩
  · have hext := hnone.extend (k := r) le_rfl (by push_cast; exact (dvd_refl _).neg_right)
    rw [hcells, carvedSize_div, Nat.zero_mul]
    push_cast at hext ⊢
    rwa [neg_add_cancel] at hext
  · intro k x y hx hy _
    rw [((holds_reservedLists hr k x).mp hx).2, ((holds_reservedLists hr k y).mp hy).2]
  · exact ⟨q, by simp [reservedLists], haddr⟩
  · intro k hk
    simp [reservedLists, poolOnly, hk]
  · intro k h1 h2
    omega
  · intro k _
    simp [reservedLists, poolOnly]

theorem directMappingInit_carved (s : Allocator) {kEnd : ℕ} (hpos : 0 < kEnd) (hle : kEnd ≤ 2 ^ 25) :
    getMemBlockSizeType kEnd < 26 ∧ ∃ s' ls', directMappingInit kEnd s = .ok s' ∧
      Carved (getMemBlockSizeType kEnd) s' ls' 0 := by
  have hr : getMemBlockSizeType kEnd < 26 :=
    Nat.lt_succ_of_le (getMemBlockSizeType_le hpos.ne' hle (by norm_num))
  refine ⟨hr, ?_⟩
  generalize hrdef : getMemBlockSizeType kEnd = r at hr
  obtain ⟨s₁, ns, hpool, hrepr₁, hlen₁⟩ := memBlockPoolInit_spec s
  obtain ⟨ps, hrepr₂, hlen₂⟩ := initLists_spec kMemBlockTypeNum hrepr₁ (by
    simp only [kMemBlockTypeNum]
    omega)
  rw [madeSlots_all] at hrepr₂
  generalize hs₂ : initLists kMemBlockTypeNum s₁ = s₂ at hrepr₂
  simp only [kMemBlockTypeNum] at hlen₂
  obtain ⟨q, ps', rfl⟩ := List.exists_cons_of_length_pos (show 0 < ps.length by omega)
  rw [List.length_cons] at hlen₂
  obtain ⟨e1, hqn, r1, l1⟩ := hrepr₂.pop pool_mem_slots
  set s₃ := (s₂.listRemove (s₂.head .pool)).2 with hs₃
  set s₄ := s₃.setAddr (getStruct q) kKVirtualAddr with hs₄
  have r2 : Repr s₄ slots (poolOnly ps') := r1.setAddr _ _
  have r3 : Repr (s₄.listAdd (s₄.head (.allocated r)) q) slots (reservedLists r q ps') :=
    r2.listAdd_head (allocated_mem_slots.mpr hr) hqn l1
  have haddr : (s₄.listAdd (s₄.head (.allocated r)) q).blockAddr q = kKVirtualAddr := by
    rw [listAdd_blockAddr, hs₄, setAddr_blockAddr hqn hqn, if_pos rfl]
  obtain ⟨s', ls', hrun, hcarved⟩ := (carved_reserved hr r3 haddr (by omega)).carve le_rfl hr
  refine ⟨s', ls', ?_, hcarved⟩
  have hstart : carveStart r 26 = getMemBlockSize r := by
    rw [carveStart, carvedSize_div, Nat.zero_mul, Nat.add_zero, getMemBlockSize]
  rw [directMappingInit, hpool]
  simp only [bind, Except.bind, hs₂, hrdef, e1, ← hs₄, slot_allocated s₄ hr,
    hqn.nodeOf_getStruct]
  rw [← hstart]
  exact hrun

theorem Carved.free_le_one (h : Carved r s ls 0) {k : ℕ} (hk : k < 26) :
    ls (.free k) = [] ∨ ∃ p, ls (.free k) = [p] := by
  rcases Nat.mod_two_eq_zero_or_one (carvedSize (2 ^ r) / 2 ^ k) with h0 | h1
  · exact Or.inl (h.rest k (Or.inr h0))
  · obtain ⟨p, hp, -⟩ := h.carved k (Nat.zero_le k) hk h1
    exact Or.inr ⟨p, hp⟩

theorem Carved.invariant (h : Carved r s ls 0) (hr : r < 26) : Invariant (2 ^ r) s ls := by
  have hpow := pow_le_of_lt_26 hr
  have hhi : ((carvedSize (2 ^ r) / 2 ^ 0 * 2 ^ 0 : ℕ) : ℤ) = (managedSize : ℤ) - (2 ^ r : ℕ) := by
    rw [pow_zero, Nat.div_one, Nat.mul_one, carvedSize, Nat.cast_sub]
    simp only [managedSize, kDirectMappingSize, kNodePoolSize]
    omega
  have htile := h.tiling
  rw [hhi] at htile
  obtain ⟨p, hp, hap⟩ := h.reserved
  refine ⟨⟨h.repr, htile, h.inj⟩, ?_, ?_, r, p, rfl, hr, by simp [hp], hap⟩
  · intro k hk
    rcases h.free_le_one hk with he | ⟨x, he⟩
    · rw [he]
      exact List.Pairwise.nil
    · rw [he]
      exact List.pairwise_singleton _ _
  · intro k _
    by_cases hkr : k = r
    · rw [hkr, hp]
      exact List.pairwise_singleton _ _
    · rw [h.allocated k hkr]
      exact List.Pairwise.nil

theorem Carved.enoughNodes (h : Carved r s ls 0) (k : ℕ) : EnoughNodes ls k := by
  intro t _ ht _ _
  have := h.pool
  omega

/-! ## The invariant read off the links -/

theorem Repr.holds_lists (h : Repr s slots ls) {k p : ℕ} : Holds s.lists k p ↔ Holds ls k p := by
  refine and_congr_right fun hk => ?_
  rw [h.lists_eq (free_mem_slots.mpr hk), h.lists_eq (allocated_mem_slots.mpr hk)]

theorem Invariant.lists (h : Invariant R s ls) : Invariant R s s.lists := by
  have hfree : ∀ k < 26, s.lists (.free k) = ls (.free k) := fun k hk =>
    h.sound.repr.lists_eq (free_mem_slots.mpr hk)
  have halloc : ∀ k < 26, s.lists (.allocated k) = ls (.allocated k) := fun k hk =>
    h.sound.repr.lists_eq (allocated_mem_slots.mpr hk)
  refine ⟨⟨h.sound.repr.lists, h.sound.blocks.congr (fun k p => h.sound.repr.holds_lists) fun _ _ _ => rfl⟩,
    fun k hk => ?_, fun k hk => ?_, ?_⟩
  · rw [hfree k hk]
    exact h.ascFree k hk
  · rw [halloc k hk]
    exact h.ascAllocated k hk
  · obtain ⟨r, p, hR, hr, hp, hap⟩ := h.reserved
    exact ⟨r, p, hR, hr, by rw [halloc r hr]; exact hp, hap⟩

def blockCount (s : Allocator) : ℕ :=
  ∑ k ∈ Finset.range kMemBlockTypeNum, ((s.lists (.free k)).length + (s.lists (.allocated k)).length)

theorem card_nodes_lists (s : Allocator) :
    (nodes slots s.lists).card = blockCount s + (s.lists .pool).length := by
  have hinjF : Set.InjOn Slot.free (Finset.range kMemBlockTypeNum) := fun _ _ _ _ => Slot.free.inj
  have hinjA : Set.InjOn Slot.allocated (Finset.range kMemBlockTypeNum) := fun _ _ _ _ =>
    Slot.allocated.inj
  rw [card_nodes, slots, Finset.sum_union, Finset.sum_union, Finset.sum_image hinjF,
    Finset.sum_image hinjA, Finset.sum_singleton, blockCount, Finset.sum_add_distrib]
  · rw [Finset.disjoint_left]
    simp
  · rw [Finset.disjoint_singleton_right]
    simp

theorem reqBytes_preserves {R : ℕ} {s : Allocator} {size : ℤ} (h : Invariant R s s.lists)
    (hpos : 1 ≤ size) (hle : size ≤ 2 ^ 25) (henough : EnoughNodes s.lists (getMemBlockSizeType size)) :
    ∃ a s', reqBytes s size = .ok (a, s') ∧ Invariant R s' s'.lists ∧
      blockCount s' + (s'.lists .pool).length = blockCount s + (s.lists .pool).length := by
  obtain ⟨n, rfl⟩ := Int.eq_ofNat_of_zero_le (show 0 ≤ size by omega)
  have hk : getMemBlockSizeType n < 26 :=
    Nat.lt_succ_of_le (getMemBlockSizeType_le (by omega) (by exact_mod_cast hle) (by norm_num))
  rcases h.reqBytes hk rfl henough with hnone | ⟨a, s', ls', hrun, hg⟩
  · exact ⟨0, s, hnone, h, rfl⟩
  · refine ⟨a, s', hrun, hg.inv.lists, ?_⟩
    have hnodes : nodes slots s'.lists = nodes slots ls' :=
      Finset.sum_congr rfl fun i hi => by rw [hg.inv.sound.repr.lists_eq hi]
    rw [← card_nodes_lists, ← card_nodes_lists, hnodes, hg.nodes]

def Allocator.zero : Allocator := ⟨fun _ => 0, fun _ => 0, 0, fun _ => 0, fun _ => 0⟩

theorem init_megabyte : ∃ s ls, directMappingInit 0x100000 .zero = .ok s ∧ Carved 20 s ls 0 := by
  obtain ⟨-, s, ls, hinit, hcarved⟩ := directMappingInit_carved .zero
    (show 0 < 0x100000 by norm_num) (by norm_num)
  exact ⟨s, ls, hinit, hcarved⟩

theorem reqBytes_preserves_page :
    ∃ s, directMappingInit (2 ^ 20) .zero = .ok s ∧ Invariant (2 ^ 20) s s.lists ∧
      ∃ a s', reqBytes s 4096 = .ok (a, s') ∧ Invariant (2 ^ 20) s' s'.lists ∧
        blockCount s' + (s'.lists .pool).length = blockCount s + (s.lists .pool).length := by
  obtain ⟨hr, s, ls, hinit, hcarved⟩ := directMappingInit_carved .zero
    (show 0 < 2 ^ 20 by norm_num) (by norm_num)
  rw [show getMemBlockSizeType (2 ^ 20 : ℕ) = 20 by decide] at hr hcarved
  have hinv := (hcarved.invariant hr).lists
  refine ⟨s, hinit, hinv, reqBytes_preserves hinv (by norm_num) (by norm_num) ?_⟩
  intro t h1 h2 _ _
  rw [hcarved.repr.lists_eq pool_mem_slots]
  have := hcarved.pool
  omega

end XyOS.DirectMapping
