import XyOS.Lib.Fifo
import XyOS.Thread.ThreadInit

/-! The queues that `queue()` makes, and the calls on them. -/

namespace XyOS.Scheduling
open Linked DirectMapping Runs

variable {R n a q : ℕ} {s s' : Scheduler}

theorem of_reqBytes {size : ℕ} (h : s.reqBytes size = .ok (a, s')) :
    ∃ alloc, DirectMapping.reqBytes s.alloc size = .ok (a, alloc) ∧ s' = s.setAlloc alloc := by
  obtain ⟨⟨a', alloc⟩, hreq, hret⟩ := of_bind_ok h
  obtain ⟨rfl, rfl⟩ := Prod.mk.inj (Except.ok.inj hret)
  exact ⟨alloc, hreq, rfl⟩

theorem of_newList (h : s.newList = .ok (a, s')) (ha : a ≠ 0) :
    ∃ alloc, DirectMapping.reqBytes s.alloc (4 : ℕ) = .ok (a, alloc) ∧ s' = (s.setAlloc alloc).store a a := by
  obtain ⟨⟨a', s₁⟩, hreq, hret⟩ := of_bind_ok h
  obtain ⟨rfl, rfl⟩ := Prod.mk.inj (Except.ok.inj hret)
  obtain ⟨alloc, hreq', rfl⟩ := of_reqBytes hreq
  exact ⟨alloc, hreq', if_neg ha⟩

theorem of_newQueue (hnew : s.newQueue = .ok (q, s')) (hhead : s'.heap (Queue.head q) ≠ 0) :
    ∃ head alloc, reqAll s.alloc [4, queueBytes] = .ok ([head, q], alloc) ∧ head ≠ 0 ∧
      s'.heap = Function.update (Function.update (Function.update s.heap head head) (Queue.head q) head)
        (Queue.tail q) head := by
  obtain ⟨⟨head, s₁⟩, hlist, hrest⟩ := of_bind_ok hnew
  obtain ⟨⟨q', s₂⟩, hreq, hret⟩ := of_bind_ok hrest
  obtain ⟨rfl, rfl⟩ := Prod.mk.inj (Except.ok.inj hret)
  have hword : (s₂.store (Queue.head q') head |>.store (Queue.tail q') head).heap (Queue.head q') = head := by
    simp only [Scheduler.store, Scheduler.setHeap_heap]
    rw [Function.update_of_ne (Queue.head_ne_tail q'), Function.update_self]
  rw [hword] at hhead
  obtain ⟨alloc₁, hreq₁, rfl⟩ := of_newList hlist hhead
  obtain ⟨alloc₂, hreq₂, rfl⟩ := of_reqBytes hreq
  have hone : reqAll alloc₁ [queueBytes] = .ok ([q'], alloc₂) := bind_ok hreq₂ _
  exact ⟨head, alloc₂, (bind_ok hreq₁ _).trans (bind_ok hone _), hhead, rfl⟩

theorem newQueue_holdsFifo (hready : Ready R s.alloc (2 + n)) (hnew : s.newQueue = .ok (q, s')) (hq : q ≠ 0)
    (hhead : s'.heap (Queue.head q) ≠ 0) : HoldsFifo q (s'.heap (Queue.head q)) s'.heap ⟨[], []⟩ := by
  obtain ⟨head, alloc, hreq, hne, hheap⟩ := of_newQueue hnew hhead
  obtain ⟨hfresh, -⟩ := hready.reqAll (by decide) hreq (by simp [hne.symm, hq.symm])
  have hsep : head + 4 ≤ q ∨ q + queueBytes ≤ head :=
    (List.pairwise_cons.mp hfresh.apart).1 (q, queueBytes) List.mem_cons_self
  rw [queueBytes] at hsep
  have hqh : head ≠ Queue.head q := by
    unfold Queue.head
    omega
  have hqt : head ≠ Queue.tail q := by
    unfold Queue.tail
    omega
  have hword : s'.heap (Queue.head q) = head := by
    rw [hheap, Function.update_of_ne (Queue.head_ne_tail q), Function.update_self]
  rw [hword]
  refine ⟨⟨?_, ?_, ?_, ?_, ?_⟩, hword, fun _ h => absurd h List.not_mem_nil,
    fun _ h => absurd h List.not_mem_nil⟩
  · rw [hword, seg_nil, hheap, Function.update_of_ne hqt, Function.update_of_ne hqh, Function.update_self]
  · rw [hword, hheap, Function.update_self, lastFrom_nil]
  · exact List.nodup_singleton _
  · rw [hword, List.mem_singleton]
    exact hqh.symm
  · rw [hword, List.mem_singleton]
    exact hqt.symm

theorem queue_refines_fifo (hready : Ready R s.alloc (2 + n)) (hnew : s.newQueue = .ok (q, s')) (hq : q ≠ 0)
    (hhead : s'.heap (Queue.head q) ≠ 0) {ops : List (QueueOp ℕ)}
    (hops : Along (advance fifoStep) (Enqueueable q (s'.heap (Queue.head q))) ⟨[], []⟩ ops) :
    (answers (queueStep q) s'.heap ops).1 = (answers fifoStep ⟨[], []⟩ ops).1 ∧
      HoldsFifo q (s'.heap (Queue.head q)) (answers (queueStep q) s'.heap ops).2
        (answers fifoStep ⟨[], []⟩ ops).2 := by
  refine answers_refine (R := HoldsFifo q (s'.heap (Queue.head q))) ?_
    (newQueue_holdsFifo hready hnew hq hhead) hops
  intro heap f op hrel hop
  exact queueStep_refines hrel hop

theorem queue_refines_fifo_boot : ∃ alloc₀ q s', directMappingInit 0x100000 .zero = .ok alloc₀ ∧
    (bootThreads alloc₀ 0).newQueue = .ok (q, s') ∧
      (answers (queueStep q) s'.heap [.enqueue 4, .getHead, .dequeue, .dequeue, .enqueue 4, .getHead]).1 =
        [none, some 4, some 4, none, none, some 4] := by
  obtain ⟨alloc₀, ls, hboot, hcarved⟩ := init_megabyte
  obtain ⟨hready, hpages⟩ := ready_megabyte hcarved
  have hready₂ := hready.mono (show [4, queueBytes].length + 0 ≤ 256 by decide)
  obtain ⟨as, alloc, hreq, hgranted, -⟩ := hready₂.reqAll_granted (by decide) (le_trans (by decide) hpages)
  obtain ⟨head, q, rfl⟩ := List.length_eq_two.mp (length_reqAll hreq)
  obtain ⟨hfresh, hready₃⟩ := hready₂.reqAll (by decide) hreq hgranted
  have hq := ((hfresh.owned (q, queueBytes) (by simp)).bounds hready₃.inv).1
  have hhead := ((hfresh.owned (head, 4) (by simp)).bounds hready₃.inv).1
  rw [kKVirtualAddr] at hq hhead
  obtain ⟨alloc₁, h₁, hreq⟩ := of_reqAll_cons hreq
  obtain ⟨alloc₂, h₂, -⟩ := of_reqAll_cons hreq
  have hnew := Scheduler.newQueue_eq (s := bootThreads alloc₀ 0) h₁ (by omega) h₂
  refine ⟨alloc₀, q, _, hboot, hnew, ?_⟩
  generalize hs : Scheduler.store _ (Queue.tail q) head = s' at hnew
  have hword : s'.heap (Queue.head q) = head := by
    rw [← hs]
    exact (Function.update_of_ne (Queue.head_ne_tail q) ..).trans (Function.update_self ..)
  have hfour : 4 ∉ [Queue.head q, Queue.tail q, head] := by
    simp only [Queue.head, Queue.tail, List.mem_cons, List.not_mem_nil, or_false]
    omega
  refine (queue_refines_fifo (n := 0) (R := 2 ^ 20) hready₂ hnew (by omega) (by omega) ?_).1.trans rfl
  rw [hword]
  refine (along_cons rfl).mpr ⟨⟨by decide, List.not_mem_nil, hfour⟩, ?_⟩
  refine (along_cons rfl).mpr ⟨trivial, ?_⟩
  refine (along_cons rfl).mpr ⟨trivial, ?_⟩
  refine (along_cons rfl).mpr ⟨trivial, ?_⟩
  refine (along_cons rfl).mpr ⟨⟨by decide, List.not_mem_nil, hfour⟩, ?_⟩
  exact (along_cons rfl).mpr ⟨trivial, trivial⟩

end XyOS.Scheduling
