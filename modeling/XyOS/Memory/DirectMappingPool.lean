import XyOS.Foundation.Runs
import XyOS.Memory.DirectMappingDefs

/-! The pool of `MemBlock`s, for any memory that it is given. -/

namespace XyOS.DirectMapping
open Linked Runs

def blocksBehind (base : ℕ) : ℕ → List ℕ
  | 0 => []
  | n + 1 => (base + 8 * (n + 1)) :: blocksBehind base n

structure IsPool (s : Allocator) (base : ℕ) (bs : List ℕ) : Prop where
  head : s.memBlockPool = nodeOf base
  ring : Seg s.next (nodeOf base) (bs.map nodeOf) (nodeOf base)
  nodup : (base :: bs).Nodup
  fits : ∀ b ∈ base :: bs, b + 4 < 2 ^ 32

variable {s : Allocator} {base b n : ℕ} {bs : List ℕ}

theorem mem_blocksBehind : b ∈ blocksBehind base n ↔ ∃ k, 0 < k ∧ k ≤ n ∧ b = base + 8 * k := by
  induction n with
  | zero =>
    refine iff_of_false List.not_mem_nil ?_
    rintro ⟨k, hpos, hle, -⟩
    omega
  | succ n ih =>
    rw [blocksBehind, List.mem_cons, ih]
    constructor
    · rintro (rfl | ⟨k, hpos, hle, rfl⟩)
      · exact ⟨n + 1, Nat.succ_pos n, le_rfl, rfl⟩
      · exact ⟨k, hpos, Nat.le_succ_of_le hle, rfl⟩
    · rintro ⟨k, hpos, hle, rfl⟩
      by_cases hk : k = n + 1
      · exact .inl (by rw [hk])
      · exact .inr ⟨k, hpos, by omega, rfl⟩

theorem length_blocksBehind (base n : ℕ) : (blocksBehind base n).length = n := by
  induction n with
  | zero => rfl
  | succ n ih => rw [blocksBehind, List.length_cons, ih]

theorem nodup_blocksBehind (base n : ℕ) : (blocksBehind base n).Nodup := by
  induction n with
  | zero => exact List.nodup_nil
  | succ n ih =>
    refine List.nodup_cons.mpr ⟨fun h => ?_, ih⟩
    obtain ⟨k, -, hle, heq⟩ := mem_blocksBehind.mp h
    omega

theorem nodeOf_inj {c : ℕ} (hb : b + 4 < 2 ^ 32) (hc : c + 4 < 2 ^ 32) (h : nodeOf b = nodeOf c) : b = c := by
  rw [nodeOf, nodeOf, u32_of_lt hb, u32_of_lt hc] at h
  omega

theorem getStruct_nodeOf (hb : b + 4 < 2 ^ 32) : getStruct (nodeOf b) = b := by
  rw [nodeOf, u32_of_lt hb, getStruct, sub32_of_le (by omega) hb, Nat.add_sub_cancel]

theorem IsPool.nodes_nodup (h : IsPool s base bs) : (nodeOf base :: bs.map nodeOf).Nodup := by
  rw [← List.map_cons]
  exact h.nodup.map_on fun x hx y hy => nodeOf_inj (h.fits x hx) (h.fits y hy)

theorem IsPool.node_notMem (h : IsPool s base bs) (hb : b + 4 < 2 ^ 32) (hnot : b ∉ base :: bs) :
    nodeOf b ∉ nodeOf base :: bs.map nodeOf := by
  rw [← List.map_cons]
  intro hmem
  obtain ⟨c, hc, heq⟩ := List.mem_map.mp hmem
  exact hnot (nodeOf_inj (h.fits c hc) hb heq ▸ hc)

theorem IsPool.listAdd (h : IsPool s base bs) (hb : b + 4 < 2 ^ 32) (hnot : b ∉ base :: bs) :
    IsPool (s.listAdd s.memBlockPool (nodeOf b)) base (b :: bs) where
  head := h.head
  ring := by
    have hring : Seg s.next (nodeOf base) ([] ++ bs.map nodeOf) (nodeOf base) := h.ring
    have hins := hring.insert h.nodes_nodup (h.node_notMem hb hnot)
    rw [Allocator.listAdd, h.head]
    exact hins
  nodup := by
    rw [List.mem_cons, not_or] at hnot
    obtain ⟨hbase, hnd⟩ := List.nodup_cons.mp h.nodup
    rw [List.nodup_cons, List.nodup_cons, List.mem_cons, not_or]
    exact ⟨⟨Ne.symm hnot.1, hbase⟩, hnot.2, hnd⟩
  fits := by
    intro c hc
    rw [List.mem_cons, List.mem_cons] at hc
    obtain rfl | rfl | hc := hc
    · exact h.fits c List.mem_cons_self
    · exact hb
    · exact h.fits c (List.mem_cons_of_mem _ hc)

/-! ## Filling the pool -/

theorem poolFill_isPool (m fuel k : ℕ) (h : IsPool s base (blocksBehind base k))
    (hend : base + 8 * (k + 1 + m) < 2 ^ 32) (hfuel : m < fuel) :
    ∃ s', poolFill (nodeOf base) (base + 8 * (k + 1 + m)) fuel s (base + 8 * (k + 1)) = .ok s' ∧
      IsPool s' base (blocksBehind base (k + m)) := by
  induction m generalizing s fuel k with
  | zero =>
    obtain ⟨fuel, rfl⟩ : ∃ f, fuel = f + 1 := ⟨fuel - 1, by omega⟩
    exact ⟨s, if_neg (by omega), h⟩
  | succ m ih =>
    obtain ⟨fuel, rfl⟩ : ∃ f, fuel = f + 1 := ⟨fuel - 1, by omega⟩
    have hadd := h.listAdd (b := base + 8 * (k + 1)) (by omega) (by
      rw [List.mem_cons, not_or]
      refine ⟨by omega, fun hmem => ?_⟩
      obtain ⟨j, -, hle, heq⟩ := mem_blocksBehind.mp hmem
      omega)
    have hstep : u32 (base + 8 * (k + 1) + memBlockBytes) = base + 8 * (k + 1 + 1) := by
      rw [memBlockBytes, u32_of_lt (by omega)]
      omega
    obtain ⟨s', hrun, hpool⟩ := ih fuel (k + 1) hadd (by omega) (by omega)
    refine ⟨s', ?_, by rwa [show k + (m + 1) = k + 1 + m by omega]⟩
    rw [poolFill, if_pos (by omega), hstep, show k + 1 + (m + 1) = k + 1 + 1 + m by omega, ← h.head]
    exact h.head ▸ hrun

theorem memBlockPoolInit_isPool (s : Allocator) (base n : ℕ) (hfit : base + 8 * (n + 1) < 2 ^ 32) :
    ∃ s', memBlockPoolInit s base (8 * (n + 1)) = .ok s' ∧ IsPool s' base (blocksBehind base n) := by
  let s₀ : Allocator :=
    { s with memBlockPool := nodeOf base, next := Function.update s.next (nodeOf base) (nodeOf base) }
  have hnext : s₀.next (nodeOf base) = nodeOf base := Function.update_self ..
  have h₀ : IsPool s₀ base (blocksBehind base 0) :=
    ⟨rfl, hnext, List.nodup_singleton base, fun b hb => by rw [List.mem_singleton.mp hb]; omega⟩
  have hself : s₀.listAdd (nodeOf base) (nodeOf base) = s₀ := by
    rw [Allocator.listAdd, XyOS.listAdd, insertAfter_self]
  obtain ⟨s', hrun, hpool⟩ := poolFill_isPool n (loopFuel - 1) 0 h₀ (by omega) (by rw [loopFuel]; omega)
  rw [Nat.zero_add] at hrun hpool
  refine ⟨s', ?_, hpool⟩
  obtain ⟨f, hf⟩ : ∃ f, loopFuel = f + 1 := ⟨loopFuel - 1, rfl⟩
  have hstep : u32 (base + memBlockBytes) = base + 8 * 1 := u32_of_lt (by rw [memBlockBytes]; omega)
  rw [memBlockPoolInit, getStruct_nodeOf (by omega), u32_of_lt hfit, hf, poolFill, if_pos (by omega), hstep]
  change poolFill _ _ f (s₀.listAdd (nodeOf base) (nodeOf base)) _ = _
  rw [hself, Nat.add_comm n 1]
  rw [hf, Nat.add_sub_cancel] at hrun
  exact hrun

/-! ## Requests and releases -/

theorem IsPool.reqMemBlock_nil (h : IsPool s base []) : reqMemBlock s = (0, s) := by
  refine if_pos ?_
  rw [isListEmpty, h.head, seg_nil.mp h.ring, beq_self_eq_true]

theorem IsPool.reqMemBlock_cons (h : IsPool s base (b :: bs)) :
    (reqMemBlock s).1 = b ∧ IsPool (reqMemBlock s).2 base bs := by
  have hnext : s.next s.memBlockPool = nodeOf b := by
    rw [h.head]
    exact h.ring.1
  have hnd := h.nodes_nodup
  have hne : isListEmpty s.next s.memBlockPool = false := by
    rw [isListEmpty, hnext, h.head, beq_eq_false_iff_ne]
    rintro heq
    exact (List.nodup_cons.mp hnd).1 (heq ▸ List.mem_cons_self)
  rw [reqMemBlock, hne, if_neg Bool.false_ne_true]
  refine ⟨?_, h.head, ?_, ?_, ?_⟩
  · change getStruct (s.next s.memBlockPool) = b
    rw [hnext, getStruct_nodeOf (h.fits b (by simp))]
  · have hring : Seg s.next (nodeOf base) ([] ++ nodeOf b :: bs.map nodeOf) (nodeOf base) := h.ring
    have herase : Seg (removeAfter 0 s.next (lastFrom (nodeOf base) [])) (nodeOf base) ([] ++ bs.map nodeOf)
        (nodeOf base) := hring.erase hnd
    rw [lastFrom_nil, ← h.head] at herase
    rw [← h.head]
    exact herase
  · obtain ⟨hbase, hnd'⟩ := List.nodup_cons.mp h.nodup
    exact List.nodup_cons.mpr ⟨fun hmem => hbase (List.mem_cons_of_mem _ hmem), (List.nodup_cons.mp hnd').2⟩
  · intro c hc
    refine h.fits c ?_
    rw [List.mem_cons] at hc
    rw [List.mem_cons, List.mem_cons]
    exact hc.imp_right .inr

theorem IsPool.relMemBlock (h : IsPool s base bs) (hb : b + 4 < 2 ^ 32) (hnot : b ∉ base :: bs) :
    IsPool (relMemBlock s b) base (b :: bs) := by
  have hcut : IsPool { s with next := Function.update s.next (nodeOf b) 0 } base bs := by
    refine ⟨h.head, h.ring.congr fun x hx => ?_, h.nodup, h.fits⟩
    exact Function.update_of_ne (fun heq : x = nodeOf b => h.node_notMem hb hnot (heq ▸ hx)) ..
  exact hcut.listAdd hb hnot

inductive PoolOp
  | req
  | rel (memBlock : ℕ)

/-- The allocator, and the blocks that were handed out and not released since. -/
structure PoolState where
  alloc : Allocator
  held : List ℕ

def poolExec (st : PoolState) : PoolOp → Except Fault PoolState
  | .req =>
    let r := reqMemBlock st.alloc
    .ok ⟨r.2, if r.1 = 0 then st.held else r.1 :: st.held⟩
  | .rel memBlock => .ok ⟨relMemBlock st.alloc memBlock, st.held.erase memBlock⟩

def ReleasesHeld (st : PoolState) : PoolOp → Prop
  | .req => True
  | .rel memBlock => memBlock ∈ st.held

/-- A request hands out a block of the pool that is neither its head nor held, and fails only
when all of them are held. -/
def PoolDiscipline (base n : ℕ) (st : PoolState) : PoolOp → Prop
  | .req => let b := (reqMemBlock st.alloc).1
      (b ≠ 0 → b ∈ blocksBehind base n ∧ b ≠ base ∧ nodeOf b ≠ st.alloc.memBlockPool ∧ b ∉ st.held) ∧
        (b = 0 ↔ st.held.Perm (blocksBehind base n))
  | .rel _ => True

def PoolInv (base n : ℕ) (st : PoolState) : Prop :=
  ∃ bs, IsPool st.alloc base bs ∧ (bs ++ st.held).Perm (blocksBehind base n)

theorem poolExec_inv {st st' : PoolState} {op : PoolOp} (hfit : base + 8 * (n + 1) < 2 ^ 32)
    (h : PoolInv base n st) (hop : ReleasesHeld st op) (hexec : poolExec st op = .ok st') : PoolInv base n st' := by
  obtain ⟨bs, hpool, hperm⟩ := h
  cases op with
  | req =>
    obtain rfl : PoolState.mk (reqMemBlock st.alloc).2 _ = st' := Except.ok.inj hexec
    cases bs with
    | nil =>
      rw [hpool.reqMemBlock_nil]
      exact ⟨[], hpool, hperm⟩
    | cons b bs =>
      obtain ⟨hb, hpool'⟩ := hpool.reqMemBlock_cons
      obtain ⟨k, hpos, -, heq⟩ := mem_blocksBehind.mp (hperm.mem_iff.mp (by simp : b ∈ b :: bs ++ st.held))
      refine ⟨bs, hpool', ?_⟩
      rw [hb, if_neg (by omega)]
      exact List.perm_middle.trans hperm
  | rel b =>
    obtain rfl := Except.ok.inj hexec
    have hmem : b ∈ blocksBehind base n := hperm.mem_iff.mp (List.mem_append_right _ hop)
    obtain ⟨k, hpos, hle, heq⟩ := mem_blocksBehind.mp hmem
    have hnd : (bs ++ st.held).Nodup := hperm.nodup_iff.mpr (nodup_blocksBehind base n)
    have hnot : b ∉ base :: bs := by
      rw [List.mem_cons, not_or]
      exact ⟨by omega, fun hbs => (List.nodup_append.mp hnd).2.2 b hbs b hop rfl⟩
    refine ⟨b :: bs, hpool.relMemBlock (by omega) hnot, ?_⟩
    exact (List.perm_middle.symm.trans ((List.perm_cons_erase hop).symm.append_left bs)).trans hperm

theorem poolDiscipline_of_inv {st : PoolState} (op : PoolOp) (h : PoolInv base n st) :
    PoolDiscipline base n st op := by
  obtain ⟨bs, hpool, hperm⟩ := h
  cases op with
  | rel b => trivial
  | req =>
    have hnd : (bs ++ st.held).Nodup := hperm.nodup_iff.mpr (nodup_blocksBehind base n)
    cases bs with
    | nil =>
      rw [PoolDiscipline, hpool.reqMemBlock_nil]
      exact ⟨fun h0 => absurd rfl h0, iff_of_true rfl hperm⟩
    | cons b bs =>
      obtain ⟨hb, -⟩ := hpool.reqMemBlock_cons
      have hmem : b ∈ blocksBehind base n := hperm.mem_iff.mp (by simp)
      obtain ⟨k, hpos, -, heq⟩ := mem_blocksBehind.mp hmem
      have hheld : b ∉ st.held := fun hin => (List.nodup_append.mp hnd).2.2 b List.mem_cons_self b hin rfl
      have hbase : b ≠ base := by omega
      rw [PoolDiscipline, hb]
      refine ⟨fun _ => ⟨hmem, hbase, ?_, hheld⟩, iff_of_false (by omega) fun hall => ?_⟩
      · rw [hpool.head]
        exact fun heq => hbase (nodeOf_inj (hpool.fits b (by simp)) (hpool.fits base List.mem_cons_self) heq)
      · exact hheld (hall.mem_iff.mpr hmem)

theorem memBlockPool_discipline (s : Allocator) (base size : ℕ) (hsize : 0 < size) (hdvd : memBlockBytes ∣ size)
    (hfit : base + size < 2 ^ 32) :
    ∃ s', memBlockPoolInit s base size = .ok s' ∧ IsPool s' base (blocksBehind base (size / memBlockBytes - 1)) ∧
      (blocksBehind base (size / memBlockBytes - 1)).length = size / memBlockBytes - 1 ∧
      ∀ ops, Along poolExec ReleasesHeld ⟨s', []⟩ ops →
        Along poolExec (PoolDiscipline base (size / memBlockBytes - 1)) ⟨s', []⟩ ops ∧
          ∃ st, run poolExec ⟨s', []⟩ ops = .ok st ∧ PoolInv base (size / memBlockBytes - 1) st := by
  obtain ⟨n, rfl⟩ : ∃ n, size = 8 * (n + 1) := by
    obtain ⟨m, rfl⟩ := hdvd
    rw [memBlockBytes] at hsize ⊢
    exact ⟨m - 1, by omega⟩
  have hn : 8 * (n + 1) / memBlockBytes - 1 = n := by
    rw [memBlockBytes]
    omega
  rw [hn]
  obtain ⟨s', hinit, hpool⟩ := memBlockPoolInit_isPool s base n hfit
  refine ⟨s', hinit, hpool, length_blocksBehind base n, fun ops hops => ?_⟩
  have hinv : PoolInv base n ⟨s', []⟩ := ⟨_, hpool, by rw [List.append_nil]⟩
  constructor
  · exact hops.imp (fun st op st' hst hop hexec => poolExec_inv hfit hst hop hexec)
      (fun st op hst _ => poolDiscipline_of_inv op hst) hinv
  · refine run_returns (fun st op hst hop => ?_) hinv hops
    obtain ⟨st', hst'⟩ : ∃ st', poolExec st op = .ok st' := by
      cases op with
      | req => exact ⟨_, rfl⟩
      | rel b => exact ⟨_, rfl⟩
    exact ⟨st', hst', poolExec_inv hfit hst hop hst'⟩

theorem memBlockPool_discipline_three : ∃ s',
    memBlockPoolInit ⟨fun _ => 0, fun _ => 0, 0, fun _ => 0, fun _ => 0⟩ 0x1000 24 = .ok s' ∧
      IsPool s' 0x1000 [0x1010, 0x1008] := by
  obtain ⟨s', hinit, hpool, -⟩ := memBlockPool_discipline ⟨fun _ => 0, fun _ => 0, 0, fun _ => 0, fun _ => 0⟩
    0x1000 24 (by decide) (by decide) (by decide)
  exact ⟨s', hinit, hpool⟩

end XyOS.DirectMapping
