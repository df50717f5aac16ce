import XyOS.Driver.IdeRegisters
import XyOS.Lib.Queue

/-! The block queue of `ide.c` in memory: a `Queue` of the nodes that are members of the
blocks. A word of memory is its content, and the sectors that `IdeHandler` reads, the
release of a block and the wake of its thread are not among these words. -/

namespace XyOS.Driver
open Runs Linked

def IdeBlock.devNoAt (block : ℕ) : ℕ := block
def IdeBlock.secAddrAt (block : ℕ) : ℕ := block + 4
def IdeBlock.memAddrAt (block : ℕ) : ℕ := block + 8
def IdeBlock.opAt (block : ℕ) : ℕ := block + 12
def IdeBlock.secNumAt (block : ℕ) : ℕ := block + 16
def IdeBlock.nodeAt (block : ℕ) : ℕ := block + 20
def IdeBlock.reqThreadAt (block : ℕ) : ℕ := block + 24

/-- `GET_STRUCT(node, IdeBlock, node)`. -/
def IdeBlock.ofNode (node : ℕ) : ℕ := node - 20

def blockWords (block : ℕ) : List ℕ :=
  [IdeBlock.devNoAt block, IdeBlock.secAddrAt block, IdeBlock.memAddrAt block, IdeBlock.opAt block,
    IdeBlock.secNumAt block, IdeBlock.nodeAt block, IdeBlock.reqThreadAt block]

def setBlock (heap : ℕ → ℕ) (block : ℕ) (r : IdeBlock) : ℕ → ℕ :=
  let heap := Function.update heap (IdeBlock.opAt block) r.op.toNat
  let heap := Function.update heap (IdeBlock.memAddrAt block) r.memAddr
  let heap := Function.update heap (IdeBlock.devNoAt block) r.devNo.toNat
  let heap := Function.update heap (IdeBlock.secAddrAt block) r.secAddr.toNat
  let heap := Function.update heap (IdeBlock.secNumAt block) r.secNum.toNat
  let heap := Function.update heap (IdeBlock.reqThreadAt block) r.reqThread
  Function.update heap (IdeBlock.nodeAt block) 0

def enqueueBlock (heap : ℕ → ℕ) (queue block : ℕ) (r : IdeBlock) : ℕ → ℕ :=
  enqueue (setBlock heap block r) queue (IdeBlock.nodeAt block)

/-- `IdeHandler` for an interrupt with this status. In an empty queue there is no block. -/
def handleInterrupt (queue : ℕ) (heap : ℕ → ℕ) (status : BitVec 8) : Except Fault (ℕ → ℕ) :=
  if status &&& (kIdeErr ||| kIdeDf) ≠ 0 then .ok heap
  else
    let head := queueGetHead heap queue
    if head = 0 then .error .outOfBounds
    else
      let block := IdeBlock.ofNode head
      let heap := Function.update heap (IdeBlock.secNumAt block) (sub32 (heap (IdeBlock.secNumAt block)) 1)
      if heap (IdeBlock.secNumAt block) = 0 then .ok (dequeue heap queue).2 else .ok heap

inductive QueueEvent
  | interrupt (status : BitVec 8)
  | request (block : ℕ) (r : IdeBlock)

def queueExec (queue : ℕ) (heap : ℕ → ℕ) : QueueEvent → Except Fault (ℕ → ℕ)
  | .interrupt status => handleInterrupt queue heap status
  | .request block r => .ok (enqueueBlock heap queue block r)

def Unused (queue : ℕ) (heap : ℕ → ℕ) : QueueEvent → Prop
  | .interrupt _ => True
  | .request block _ => ∀ ns, IsQueue heap queue ns → ∀ w ∈ blockWords block,
      w ∉ queueWords heap queue ns ∧ ∀ n ∈ ns, w ∉ blockWords (IdeBlock.ofNode n)

/-! ## The requests in the queue -/

structure Pending where
  block : ℕ
  left : ℕ
deriving DecidableEq

def Pending.node (p : Pending) : ℕ := IdeBlock.nodeAt p.block

structure Holds (queue : ℕ) (ps : List Pending) (heap : ℕ → ℕ) : Prop where
  nodes : IsQueue heap queue (ps.map Pending.node)
  left : ∀ p ∈ ps, heap (IdeBlock.secNumAt p.block) = p.left
  lt : ∀ p ∈ ps, p.left < 2 ^ 32
  apart : ∀ p ∈ ps, IdeBlock.secNumAt p.block ∉ queueWords heap queue (ps.map Pending.node)

def errorFree : List QueueEvent → ℕ
  | [] => 0
  | .interrupt status :: evs => errorFree evs + if status &&& (kIdeErr ||| kIdeDf) ≠ 0 then 0 else 1
  | .request _ _ :: evs => errorFree evs

def asked : List QueueEvent → List Pending
  | [] => []
  | .interrupt _ :: evs => asked evs
  | .request block r :: evs => ⟨block, r.secNum.toNat⟩ :: asked evs

variable {queue block : ℕ} {heap heap' : ℕ → ℕ} {ps : List Pending} {p : Pending} {r : IdeBlock}
  {status : BitVec 8} {evs : List QueueEvent}

theorem ofNode_node (p : Pending) : IdeBlock.ofNode p.node = p.block := Nat.add_sub_cancel ..

theorem setBlock_of_notMem {x : ℕ} (hx : x ∉ blockWords block) : setBlock heap block r x = heap x := by
  simp only [blockWords, List.mem_cons, List.not_mem_nil, or_false, not_or] at hx
  obtain ⟨h₁, h₂, h₃, h₄, h₅, h₆, h₇⟩ := hx
  unfold setBlock
  rw [Function.update_of_ne h₆, Function.update_of_ne h₇, Function.update_of_ne h₅,
    Function.update_of_ne h₂, Function.update_of_ne h₁, Function.update_of_ne h₃, Function.update_of_ne h₄]

theorem setBlock_secNum : setBlock heap block r (IdeBlock.secNumAt block) = r.secNum.toNat := by
  have hnode : IdeBlock.secNumAt block ≠ IdeBlock.nodeAt block := by
    unfold IdeBlock.secNumAt IdeBlock.nodeAt
    omega
  have hthread : IdeBlock.secNumAt block ≠ IdeBlock.reqThreadAt block := by
    unfold IdeBlock.secNumAt IdeBlock.reqThreadAt
    omega
  unfold setBlock
  rw [Function.update_of_ne hnode, Function.update_of_ne hthread, Function.update_self]

theorem Holds.congr (h : Holds queue ps heap)
    (hwords : ∀ x ∈ queueWords heap queue (ps.map Pending.node), heap' x = heap x)
    (hleft : ∀ p ∈ ps, heap' (IdeBlock.secNumAt p.block) = heap (IdeBlock.secNumAt p.block)) :
    Holds queue ps heap' := by
  have hhead : heap' (Queue.head queue) = heap (Queue.head queue) := hwords _ (by simp [queueWords])
  constructor
  · exact h.nodes.congr hwords
  · intro p hp
    rw [hleft p hp, h.left p hp]
  · exact h.lt
  · intro p hp
    unfold queueWords
    rw [hhead]
    exact h.apart p hp

theorem mem_ring_words {ns : List ℕ} {x : ℕ} (hx : x ∉ queueWords heap queue ns) :
    x ≠ Queue.head queue ∧ x ≠ Queue.tail queue ∧ x ∉ heap (Queue.head queue) :: ns := by
  unfold queueWords at hx
  rw [List.mem_cons, List.mem_cons, not_or, not_or] at hx
  exact hx

theorem Holds.setBlock (h : Holds queue ps heap) (hfree : Unused queue heap (.request block r)) :
    Holds queue ps (setBlock heap block r) ∧ ∀ w ∈ blockWords block,
      w ∉ queueWords (setBlock heap block r) queue (ps.map Pending.node) := by
  have hhead : XyOS.Driver.setBlock heap block r (Queue.head queue) = heap (Queue.head queue) := by
    refine setBlock_of_notMem fun hm => ?_
    exact (hfree _ h.nodes _ hm).1 (by simp [queueWords])
  constructor
  · refine h.congr (fun x hx => setBlock_of_notMem fun hm => ?_) fun p hp => setBlock_of_notMem fun hm => ?_
    · exact (hfree _ h.nodes x hm).1 hx
    · refine (hfree _ h.nodes _ hm).2 p.node (List.mem_map_of_mem hp) ?_
      rw [ofNode_node]
      simp [blockWords]
  · intro w hw
    unfold queueWords
    rw [hhead]
    exact (hfree _ h.nodes w hw).1

theorem secNumAt_ne_node (p : Pending) : IdeBlock.secNumAt p.block ≠ p.node := by
  unfold IdeBlock.secNumAt Pending.node IdeBlock.nodeAt
  omega

theorem Holds.enqueue (h : Holds queue ps heap) (hnode : p.node ∉ queueWords heap queue (ps.map Pending.node))
    (hsec : IdeBlock.secNumAt p.block ∉ queueWords heap queue (ps.map Pending.node))
    (hother : ∀ q ∈ ps, IdeBlock.secNumAt q.block ≠ p.node) (hlt : p.left < 2 ^ 32)
    (hleft : heap (IdeBlock.secNumAt p.block) = p.left) :
    Holds queue (ps ++ [p]) (enqueue heap queue p.node) := by
  have hmap : (ps ++ [p]).map Pending.node = ps.map Pending.node ++ [p.node] := List.map_append
  have hout : ∀ q ∈ ps ++ [p], IdeBlock.secNumAt q.block ∉ queueWords heap queue (ps.map Pending.node) ∧
      IdeBlock.secNumAt q.block ≠ p.node := by
    intro q hq
    rcases List.mem_append.mp hq with hq | hq
    · exact ⟨h.apart q hq, hother q hq⟩
    · obtain rfl := List.mem_singleton.mp hq
      exact ⟨hsec, secNumAt_ne_node q⟩
  have hkeep : ∀ q ∈ ps ++ [p], XyOS.enqueue heap queue p.node (IdeBlock.secNumAt q.block) =
      heap (IdeBlock.secNumAt q.block) := by
    intro q hq
    obtain ⟨-, ht, hring⟩ := mem_ring_words (hout q hq).1
    exact enqueue_of_ne h.nodes ht (hout q hq).2 hring
  constructor
  · rw [hmap]
    exact h.nodes.enqueue hnode
  · intro q hq
    rw [hkeep q hq]
    rcases List.mem_append.mp hq with hq | hq
    · exact h.left q hq
    · obtain rfl := List.mem_singleton.mp hq
      exact hleft
  · intro q hq
    rcases List.mem_append.mp hq with hq | hq
    · exact h.lt q hq
    · obtain rfl := List.mem_singleton.mp hq
      exact hlt
  · intro q hq
    rw [hmap]
    exact h.nodes.notMem_enqueue hnode (hout q hq).1 (hout q hq).2

theorem Holds.request (h : Holds queue ps heap) (hfree : Unused queue heap (.request block r)) :
    Holds queue (ps ++ [⟨block, r.secNum.toNat⟩]) (enqueueBlock heap queue block r) := by
  obtain ⟨hset, hwords⟩ := h.setBlock hfree
  have hnode : IdeBlock.nodeAt block ∈ blockWords block := by simp [blockWords]
  refine hset.enqueue (p := ⟨block, r.secNum.toNat⟩) (hwords _ hnode) (hwords _ (by simp [blockWords]))
    (fun q hq he => ?_) r.secNum.isLt setBlock_secNum
  refine (hfree _ h.nodes _ hnode).2 q.node (List.mem_map_of_mem hq) ?_
  rw [ofNode_node, show IdeBlock.nodeAt block = _ from he.symm]
  simp [blockWords]

/-! ## Interrupts -/

theorem handleInterrupt_error (h : status &&& (kIdeErr ||| kIdeDf) ≠ 0) :
    handleInterrupt queue heap status = .ok heap := by
  rw [handleInterrupt, if_pos h]

/-- The heap after `--block->sec_num` for the first request. -/
def countedDown (heap : ℕ → ℕ) (p : Pending) : ℕ → ℕ :=
  Function.update heap (IdeBlock.secNumAt p.block) (sub32 p.left 1)

theorem handleInterrupt_cons (h : Holds queue (p :: ps) heap)
    (hs : ¬ status &&& (kIdeErr ||| kIdeDf) ≠ 0) : handleInterrupt queue heap status =
      if sub32 p.left 1 = 0 then .ok (dequeue (countedDown heap p) queue).2 else .ok (countedDown heap p) := by
  have hhead : queueGetHead heap queue = p.node := queueGetHead_cons h.nodes
  have hne : p.node ≠ 0 := by
    unfold Pending.node IdeBlock.nodeAt
    omega
  rw [handleInterrupt, if_neg hs, hhead]
  dsimp only
  rw [if_neg hne, ofNode_node, h.left p List.mem_cons_self, Function.update_self]
  rfl

theorem Holds.countedDown (h : Holds queue (p :: ps) heap) :
    Holds queue (⟨p.block, sub32 p.left 1⟩ :: ps) (countedDown heap p) := by
  have hkeep : ∀ x, x ≠ IdeBlock.secNumAt p.block → XyOS.Driver.countedDown heap p x = heap x := by
    intro x hx
    exact Function.update_of_ne hx _ _
  have hp := h.apart p List.mem_cons_self
  have hhead : XyOS.Driver.countedDown heap p (Queue.head queue) = heap (Queue.head queue) :=
    hkeep _ (Ne.symm (mem_ring_words hp).1)
  have hmap : (Pending.mk p.block (sub32 p.left 1) :: ps).map Pending.node = (p :: ps).map Pending.node := by
    simp only [List.map_cons, Pending.node]
  constructor
  · rw [hmap]
    refine h.nodes.congr fun x hx => hkeep x ?_
    rintro rfl
    exact hp hx
  · intro q hq
    rcases List.mem_cons.mp hq with rfl | hq
    · exact Function.update_self ..
    · rw [hkeep, h.left q (List.mem_cons_of_mem _ hq)]
      intro he
      have hnd := (List.nodup_cons.mp h.nodes.nodup).2
      rw [List.map_cons, List.nodup_cons] at hnd
      refine hnd.1 (List.mem_map.mpr ⟨q, hq, ?_⟩)
      unfold IdeBlock.secNumAt at he
      unfold Pending.node IdeBlock.nodeAt
      omega
  · intro q hq
    rcases List.mem_cons.mp hq with rfl | hq
    · exact Nat.mod_lt _ (by decide)
    · exact h.lt q (List.mem_cons_of_mem _ hq)
  · intro q hq
    rw [hmap]
    unfold queueWords
    rw [hhead]
    rcases List.mem_cons.mp hq with rfl | hq
    · exact hp
    · exact h.apart q (List.mem_cons_of_mem _ hq)

theorem Holds.dequeue (h : Holds queue (p :: ps) heap) : Holds queue ps (dequeue heap queue).2 := by
  have hsub : ∀ q ∈ ps, q ∈ p :: ps := fun q hq => List.mem_cons_of_mem _ hq
  have hother : ∀ q ∈ ps, (XyOS.dequeue heap queue).2 (IdeBlock.secNumAt q.block) =
      heap (IdeBlock.secNumAt q.block) := by
    intro q hq
    obtain ⟨-, ht, hring⟩ := mem_ring_words (h.apart q (hsub q hq))
    rw [List.map_cons, List.mem_cons, List.mem_cons, not_or, not_or] at hring
    exact dequeue_of_ne h.nodes ht hring.1 hring.2.1
  have hha := h.nodes.head_apart
  rw [List.map_cons, List.mem_cons, List.mem_cons, not_or, not_or] at hha
  have hhead : (XyOS.dequeue heap queue).2 (Queue.head queue) = heap (Queue.head queue) :=
    dequeue_of_ne h.nodes (Queue.head_ne_tail queue) hha.1 hha.2.1
  constructor
  · exact h.nodes.dequeue
  · intro q hq
    rw [hother q hq, h.left q (hsub q hq)]
  · exact fun q hq => h.lt q (hsub q hq)
  · intro q hq hm
    refine h.apart q (hsub q hq) ?_
    unfold queueWords at hm ⊢
    rw [hhead] at hm
    simp only [List.map_cons, List.mem_cons] at hm ⊢
    tauto

theorem Holds.tick (h : Holds queue (p :: ps) heap) (hs : ¬ status &&& (kIdeErr ||| kIdeDf) ≠ 0)
    (hleft : sub32 p.left 1 ≠ 0) : ∃ heap', handleInterrupt queue heap status = .ok heap' ∧
      Holds queue (⟨p.block, sub32 p.left 1⟩ :: ps) heap' := by
  rw [handleInterrupt_cons h hs, if_neg hleft]
  exact ⟨_, rfl, h.countedDown⟩

theorem Holds.retire (h : Holds queue (p :: ps) heap) (hs : ¬ status &&& (kIdeErr ||| kIdeDf) ≠ 0)
    (hleft : sub32 p.left 1 = 0) : ∃ heap', handleInterrupt queue heap status = .ok heap' ∧
      Holds queue ps heap' := by
  rw [handleInterrupt_cons h hs, if_pos hleft]
  exact ⟨_, rfl, h.countedDown.dequeue⟩

/-- The list of blocks in `Ide` is the queue in memory, with the same counters. -/
def Represents (queue : ℕ) (heap : ℕ → ℕ) (s : Ide) : Prop :=
  ∃ ps, Holds queue ps heap ∧ ps.map Pending.left = s.blockQueue.map fun b => b.secNum.toNat

theorem Represents.interrupt {s : Ide} (h : Represents queue heap s) (hne : s.blockQueue ≠ [])
    (hs : ¬ status &&& (kIdeErr ||| kIdeDf) ≠ 0) :
    ∃ heap' s', handleInterrupt queue heap status = .ok heap' ∧ ideHandler s = .ok s' ∧
      Represents queue heap' s' := by
  obtain ⟨ps, hh, hleft⟩ := h
  cases hb : s.blockQueue with
  | nil => exact absurd hb hne
  | cons b bs =>
    rw [hb, List.map_cons] at hleft
    obtain ⟨p, ps, rfl, hp, hps⟩ := List.map_eq_cons_iff.mp hleft
    have hsub : sub32 p.left 1 = (b.secNum - 1#32).toNat := by
      rw [hp, sub32]
      bv_omega
    have hzero : sub32 p.left 1 = 0 ↔ b.secNum - 1#32 = 0 := by
      rw [hsub]
      exact (BitVec.toNat_eq (y := 0)).symm
    rw [ideHandler_cons hb]
    by_cases hlast : sub32 p.left 1 = 0
    · obtain ⟨heap', hexec, hnext⟩ := hh.retire hs hlast
      refine ⟨heap', _, hexec, rfl, ps, hnext, ?_⟩
      rw [if_pos (hzero.mp hlast)]
      exact hps
    · obtain ⟨heap', hexec, hnext⟩ := hh.tick hs hlast
      refine ⟨heap', _, hexec, rfl, _, hnext, ?_⟩
      rw [if_neg fun he => hlast (hzero.mpr he), List.map_cons, List.map_cons, hps, hsub]

theorem Represents.request {s : Ide} (h : Represents queue heap s)
    (hfree : Unused queue heap (.request block r)) :
    Represents queue (enqueueBlock heap queue block r) (s.request r) := by
  obtain ⟨ps, hh, hleft⟩ := h
  refine ⟨_, hh.request hfree, ?_⟩
  rw [Ide.request, List.map_append, List.map_append, hleft]
  rfl

/-! ## Whole requests -/

/-- The error-free interrupts until `--sec_num == 0` is true for a counter. -/
def Pending.turns (p : Pending) : ℕ := sub32 p.left 1 + 1

theorem turns_down (p : Pending) (h : sub32 p.left 1 ≠ 0) :
    (Pending.mk p.block (sub32 p.left 1)).turns + 1 = p.turns := by
  simp only [Pending.turns, sub32] at h ⊢
  omega

def totalTurns (ps : List Pending) : ℕ := (ps.map Pending.turns).sum

theorem queueExec_error (hs : status &&& (kIdeErr ||| kIdeDf) ≠ 0) :
    queueExec queue heap (.interrupt status) = .ok heap := handleInterrupt_error hs

theorem Holds.wait (h : Holds queue (p :: ps) heap) (hfree : Along (queueExec queue) (Unused queue) heap evs)
    (hevs : errorFree evs < p.turns) : ∃ heap', run (queueExec queue) heap evs = .ok heap' ∧
      Holds queue (⟨p.block, sub32 p.left (errorFree evs)⟩ :: (ps ++ asked evs)) heap' := by
  induction evs generalizing heap p ps with
  | nil =>
    have hleft : sub32 p.left 0 = p.left := sub32_of_le (Nat.zero_le _) (h.lt p List.mem_cons_self)
    refine ⟨heap, rfl, ?_⟩
    rw [errorFree, hleft, asked, List.append_nil]
    exact h
  | cons e evs ih =>
    cases e with
    | request block r =>
      have hnext : Holds queue (p :: (ps ++ [⟨block, r.secNum.toNat⟩])) (enqueueBlock heap queue block r) :=
        h.request hfree.1
      have hrest := ih hnext (hfree.2 _ rfl) hevs
      rw [List.append_assoc] at hrest
      exact hrest
    | interrupt status =>
      rw [errorFree] at hevs ⊢
      by_cases hs : status &&& (kIdeErr ||| kIdeDf) ≠ 0
      · rw [if_pos hs] at hevs ⊢
        rw [run_cons (queueExec_error hs)]
        exact ih h (hfree.2 _ (queueExec_error hs)) hevs
      · rw [if_neg hs] at hevs ⊢
        -- The counter does not reach 0 here, or there would be no turn left.
        have hmore : sub32 p.left 1 ≠ 0 := by
          unfold Pending.turns at hevs
          omega
        obtain ⟨heap₁, hexec, h₁⟩ := h.tick hs hmore
        have hexec' : queueExec queue heap (.interrupt status) = .ok heap₁ := hexec
        have hturns := turns_down p hmore
        have hsub : sub32 (sub32 p.left 1) (errorFree evs) = sub32 p.left (errorFree evs + 1) := by
          unfold sub32
          omega
        obtain ⟨heap', hrun, hh⟩ := ih h₁ (hfree.2 _ hexec') (by omega)
        refine ⟨heap', (run_cons hexec').trans hrun, ?_⟩
        dsimp only at hh
        rw [hsub] at hh
        exact hh

theorem Holds.turn {ahead tail : List Pending} (h : Holds queue (p :: ahead ++ tail) heap)
    (hs : ¬ status &&& (kIdeErr ||| kIdeDf) ≠ 0) :
    ∃ ahead' heap', queueExec queue heap (.interrupt status) = .ok heap' ∧
      totalTurns ahead' + 1 = totalTurns (p :: ahead) ∧ Holds queue (ahead' ++ tail) heap' := by
  have hsum : totalTurns (p :: ahead) = p.turns + totalTurns ahead := List.sum_cons
  by_cases hlast : sub32 p.left 1 = 0
  · have hturns : p.turns = 1 := by rw [Pending.turns, hlast]
    obtain ⟨heap', hexec, h'⟩ := h.retire hs hlast
    exact ⟨ahead, heap', hexec, by omega, h'⟩
  · have hturns := turns_down p hlast
    have hsum' : totalTurns (⟨p.block, sub32 p.left 1⟩ :: ahead) =
      (Pending.mk p.block (sub32 p.left 1)).turns + totalTurns ahead := List.sum_cons
    obtain ⟨heap', hexec, h'⟩ := h.tick hs hlast
    exact ⟨⟨p.block, sub32 p.left 1⟩ :: ahead, heap', hexec, by omega, h'⟩

theorem Holds.serve {ahead tail : List Pending} (h : Holds queue (ahead ++ tail) heap)
    (hfree : Along (queueExec queue) (Unused queue) heap evs) (hevs : errorFree evs = totalTurns ahead) :
    ∃ heap', run (queueExec queue) heap evs = .ok heap' ∧ Holds queue (tail ++ asked evs) heap' := by
  induction evs generalizing heap ahead tail with
  | nil =>
    cases ahead with
    | nil =>
      refine ⟨heap, rfl, ?_⟩
      rw [asked, List.append_nil]
      exact h
    | cons p ahead =>
      simp only [errorFree, totalTurns, List.map_cons, List.sum_cons, Pending.turns] at hevs
      omega
  | cons e evs ih =>
    cases e with
    | request block r =>
      have hnext : Holds queue (ahead ++ (tail ++ [⟨block, r.secNum.toNat⟩]))
          (enqueueBlock heap queue block r) := by
        rw [← List.append_assoc]
        exact h.request hfree.1
      have hrest := ih hnext (hfree.2 _ rfl) hevs
      rw [List.append_assoc] at hrest
      exact hrest
    | interrupt status =>
      rw [errorFree] at hevs
      by_cases hs : status &&& (kIdeErr ||| kIdeDf) ≠ 0
      · rw [if_pos hs] at hevs
        rw [run_cons (queueExec_error hs)]
        exact ih h (hfree.2 _ (queueExec_error hs)) hevs
      · rw [if_neg hs] at hevs
        cases ahead with
        | nil => exact absurd hevs (Nat.succ_ne_zero _)
        | cons p ahead =>
          obtain ⟨ahead', heap₁, hexec, hturns, h₁⟩ := h.turn hs
          rw [run_cons hexec]
          exact ih h₁ (hfree.2 _ hexec) (by omega)

/-! ## The number of sectors -/

end XyOS.Driver
