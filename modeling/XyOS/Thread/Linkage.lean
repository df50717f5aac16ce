import XyOS.Thread.Places

/-! The free list, the queue and the block list while several threads run.

The lists of the processes are left out here: `KThreadRun` takes threads over from them into
the queue, and nothing walks them. -/

namespace XyOS.Scheduling
open Linked Runs Process DirectMapping

/-- The record and the stack of a thread that is not free. The stack is the one that the
kernel booted on, a block of `ReqBytes`, or at address 0 when there was none. -/
structure InUse (T P : Set ℕ) (free : List ℕ) (s : Scheduler) (t : ℕ) : Prop where
  pcb : s.heap (Thread.pcb t) ∈ P
  stack : s.heap (Thread.stackAddr t) = kMainStackAddr ∨ s.heap (Thread.stackAddr t) = 0xfff ∨
    0xfff ≤ s.heap (Thread.stackAddr t) ∧ Owned s.alloc (s.heap (Thread.stackAddr t) - 0xfff) 0x1000
  pieces : ∀ a : Piece, a.Listed T P → s.heap (Thread.stackAddr t) < a.base s ∨
    a.base s + a.size + 0xfff ≤ s.heap (Thread.stackAddr t)
  apart : ∀ u ∈ T, Thread.node u ∉ free → s.heap (Thread.stackAddr u) = s.heap (Thread.stackAddr t) ∨
    s.heap (Thread.stackAddr u) + 0xfff < s.heap (Thread.stackAddr t) ∨
    s.heap (Thread.stackAddr t) + 0xfff < s.heap (Thread.stackAddr u)
  top : s.heap (stackTop s.heap t) ∈ T ∧ Thread.node (s.heap (stackTop s.heap t)) ∉ free

/-- The three lists are rings, and the words by which the current thread is found and its
process is reached are in order. -/
structure Linkage (R : ℕ) (T P : Set ℕ) (s : Scheduler) (ls : ThreadSlot → List ℕ) : Prop where
  ready : Ready R s.alloc (ls .free).length
  layout : Layout s T P
  lists : ThreadLists s ∅ ls
  nodes : ∀ i ∈ threadSlots ∅, ∀ n ∈ ls i, ∃ t ∈ T, n = Thread.node t
  used : ∀ t ∈ T, Thread.node t ∉ ls .free → InUse T P (ls .free) s t
  current : ∃ t ∈ T, Thread.node t ∉ ls .free ∧ s.tssEsp0 = stackTop s.heap t

variable {R t u x z : ℕ} {T P : Set ℕ} {s s' : Scheduler} {ls ls' : ThreadSlot → List ℕ}

theorem InUse.bounds {free : List ℕ} (h : InUse T P free s t) (hinv : Invariant R s.alloc s.alloc.lists) :
    0xfff ≤ s.heap (Thread.stackAddr t) ∧ s.heap (Thread.stackAddr t) < 2 ^ 32 := by
  rcases h.stack with he | he | ⟨hle, howned⟩
  · rw [he, kMainStackAddr]
    omega
  · rw [he]
    omega
  · have hb := howned.bounds hinv
    simp only [kKVirtualAddr, managedSize, kDirectMappingSize, kNodePoolSize] at hb
    omega

section Linkage
variable (h : Linkage R T P s ls)
include h

theorem Linkage.bounds {a : Piece} (ha : a.Listed T P) :
    kKVirtualAddr ≤ a.base s ∧ a.base s + a.size < 2 ^ 32 := h.layout.bounds h.ready.inv ha

theorem Linkage.stackTop_eq (ht : t ∈ T) (hfree : Thread.node t ∉ ls .free) :
    stackTop s.heap t = s.heap (Thread.stackAddr t) - 4 := by
  have hb := (h.used t ht hfree).bounds h.ready.inv
  rw [stackTop, sub32_of_le (by omega) hb.2]

theorem Linkage.listNodes_eq {i : ThreadSlot} (hi : i ∈ threadSlots ∅) :
    listNodes s.heap (threadHead s i) = ls i :=
  h.layout.listNodes_eq (Set.empty_subset P) h.ready.inv h.nodes h.lists hi

theorem Linkage.loose_node (ht : t ∈ T) (hn : ∀ i ∈ threadSlots ∅, Thread.node t ∉ ls i) :
    Loose (threadSlots ∅) (threadHead s) ls (Thread.node t) :=
  h.layout.loose_node (Set.empty_subset P) ht hn

theorem Linkage.one_list {i j : ThreadSlot} (hi : i ∈ threadSlots ∅) (hj : j ∈ threadSlots ∅) {n : ℕ}
    (hni : n ∈ ls i) (hnj : n ∈ ls j) : i = j :=
  h.lists.rings.apart i hi j hj n (List.mem_cons_of_mem _ hni) (List.mem_cons_of_mem _ hnj)

theorem Linkage.notMem_pop {rest : List ℕ} (hfree : ls .free = Thread.node x :: rest) :
    ∀ i ∈ threadSlots ∅, Thread.node x ∉ Function.update ls .free rest i := by
  intro i hi
  have hslot := free_mem_threadSlots ∅
  by_cases he : i = .free
  · have hnd := (List.nodup_cons.mp (h.lists.rings.nodup .free hslot)).2
    rw [hfree] at hnd
    rw [he, Function.update_self]
    exact (List.nodup_cons.mp hnd).1
  · rw [Function.update_of_ne he]
    exact fun hm => he (h.one_list hi hslot hm (by simp [hfree]))

end Linkage

/-- The words of the threads in use that no step but their creation changes: the members `pcb`
and `stackAddr`, and the word at the top of the stack. -/
def Fixed (T : Set ℕ) (s : Scheduler) (ls : ThreadSlot → List ℕ) (z : ℕ) : Prop :=
  ∃ t ∈ T, Thread.node t ∉ ls .free ∧ (z = Thread.stackAddr t ∨ z = Thread.pcb t ∨ z = stackTop s.heap t)

theorem Linkage.fixed_ne (h : Linkage R T P s ls) (hz : Fixed T s ls z) {a : Piece} {o : ℕ} (ha : a.Listed T P)
    (ho : o < a.size) (hfield : ∀ t, a = .thread t → o ≠ 4 ∧ o ≠ 8) : z ≠ a.base s + o := by
  obtain ⟨t, ht, hfree, hz | hz | hz⟩ := hz
  · intro he
    obtain ⟨rfl, rfl⟩ := h.layout.apart.word_inj (a := Piece.thread t) ht ha (show 4 < 24 by decide) ho
      (hz.symm.trans he)
    exact (hfield t rfl).1 rfl
  · intro he
    obtain ⟨rfl, rfl⟩ := h.layout.apart.word_inj (a := Piece.thread t) ht ha (show 8 < 24 by decide) ho
      (hz.symm.trans he)
    exact (hfield t rfl).2 rfl
  · have hpiece := (h.used t ht hfree).pieces a ha
    have hb := (h.used t ht hfree).bounds h.ready.inv
    rw [hz, h.stackTop_eq ht hfree]
    omega

theorem Linkage.fixed_loose (h : Linkage R T P s ls) (hz : Fixed T s ls z) :
    Loose (threadSlots ∅) (threadHead s) ls z := by
  by_contra hlinked
  obtain ⟨a, ha, -, he⟩ := link_of_linked h.nodes hlinked
  refine h.fixed_ne hz (ha.mono (Set.empty_subset P)) a.link_lt ?_ he
  rintro t rfl
  exact ⟨(by decide : 16 ≠ 4), (by decide : 16 ≠ 8)⟩

/-! ## Steps between the lists -/

theorem stackTop_congr (h : s'.heap (Thread.stackAddr t) = s.heap (Thread.stackAddr t)) :
    stackTop s'.heap t = stackTop s.heap t := by
  rw [stackTop, h, ← stackTop]

theorem Linkage.moved (h : Linkage R T P s ls) (hlists : ThreadLists s' ∅ ls') (hsame : SameHeads s s')
    (halloc : s'.alloc = s.alloc) (hfree : ls' .free = ls .free)
    (hnodes : ∀ i ∈ threadSlots ∅, ∀ n ∈ ls' i, ∃ t ∈ T, n = Thread.node t)
    (hkeep : ∀ z, Fixed T s ls z → s'.heap z = s.heap z)
    (hcur : ∃ t ∈ T, Thread.node t ∉ ls .free ∧ s'.tssEsp0 = stackTop s.heap t) : Linkage R T P s' ls' := by
  have hstack : ∀ t ∈ T, Thread.node t ∉ ls .free →
      s'.heap (Thread.stackAddr t) = s.heap (Thread.stackAddr t) := fun t ht hn => hkeep _ ⟨t, ht, hn, Or.inl rfl⟩
  refine ⟨?_, h.layout.congr hsame (by rw [halloc]; exact fun _ _ ho => ho), hlists, hnodes, fun t ht hn => ?_,
    ?_⟩
  · rw [halloc, hfree]
    exact h.ready
  · rw [hfree] at hn ⊢
    have hused := h.used t ht hn
    refine ⟨?_, ?_, fun a ha => ?_, fun u hu hnu => ?_, ?_⟩
    · rw [hkeep _ ⟨t, ht, hn, Or.inr (Or.inl rfl)⟩]
      exact hused.pcb
    · rw [hstack t ht hn, halloc]
      exact hused.stack
    · rw [hstack t ht hn, hsame.base_eq ha]
      exact hused.pieces a ha
    · rw [hstack t ht hn, hstack u hu hnu]
      exact hused.apart u hu hnu
    · rw [stackTop_congr (hstack t ht hn), hkeep _ ⟨t, ht, hn, Or.inr (Or.inr rfl)⟩]
      exact hused.top
  · obtain ⟨t, ht, hn, he⟩ := hcur
    refine ⟨t, ht, by rwa [hfree], ?_⟩
    rw [he, stackTop_congr (hstack t ht hn)]

theorem Linkage.nodes_update (h : Linkage R T P s ls) {i : ThreadSlot} {l : List ℕ}
    (hl : ∀ n ∈ l, n ∈ ls i ∨ ∃ t ∈ T, n = Thread.node t) (hi : i ∈ threadSlots ∅) :
    ∀ j ∈ threadSlots ∅, ∀ n ∈ Function.update ls i l j, ∃ t ∈ T, n = Thread.node t := by
  intro j hj n hn
  by_cases hji : j = i
  · rw [hji, Function.update_self] at hn
    rcases hl n hn with hold | hnew
    · exact h.nodes i hi n hold
    · exact hnew
  · rw [Function.update_of_ne hji] at hn
    exact h.nodes j hj n hn

theorem Linkage.enqueue_fixed (h : Linkage R T P s ls) (ht : t ∈ T) (hz : Fixed T s ls z) :
    XyOS.enqueue s.heap s.waitThreadQueue (Thread.node t) z = s.heap z :=
  h.lists.enqueue_of_loose (h.fixed_loose hz)
    (h.fixed_ne hz (a := .queue) trivial (show 4 < 8 by decide) (by simp))
    (h.fixed_ne hz (a := .thread t) ht (show 16 < 24 by decide) fun _ _ => by decide)

theorem Linkage.enqueue_sameHeads (h : Linkage R T P s ls) (ht : t ∈ T) :
    SameHeads s (s.setHeap (XyOS.enqueue s.heap s.waitThreadQueue (Thread.node t))) :=
  ⟨rfl, rfl, rfl, h.lists.enqueue_of_loose h.lists.head_loose (Queue.head_ne_tail _)
    (h.layout.node_ne ht).1.symm⟩

theorem Linkage.enqueue (h : Linkage R T P s ls) (ht : t ∈ T)
    (hloose : Loose (threadSlots ∅) (threadHead s) ls (Thread.node t)) :
    Linkage R T P (s.setHeap (enqueue s.heap s.waitThreadQueue (Thread.node t)))
      (Function.update ls .wait (ls .wait ++ [Thread.node t])) := by
  have hnode := h.layout.node_ne ht
  refine h.moved (h.lists.enqueue hloose hnode.1 hnode.2) (h.enqueue_sameHeads ht) rfl
    (Function.update_of_ne (by decide) ..) (h.nodes_update (fun n hn => ?_) (wait_mem_threadSlots ∅))
    (fun z hz => h.enqueue_fixed ht hz) h.current
  rw [List.mem_append, List.mem_singleton] at hn
  exact hn.imp_right fun he => ⟨t, ht, he⟩

theorem Linkage.dequeue (h : Linkage R T P s ls) {n : ℕ} {ns : List ℕ} (hls : ls .wait = n :: ns) :
    Linkage R T P (s.setHeap (dequeue s.heap s.waitThreadQueue).2) (Function.update ls .wait ns) := by
  obtain ⟨hlists, -, hsame⟩ := h.lists.dequeue hls
  refine h.moved hlists hsame rfl (Function.update_of_ne (by decide) ..)
    (h.nodes_update (fun n hn => Or.inl ?_) (wait_mem_threadSlots ∅)) (fun z hz => ?_) h.current
  · rw [hls]
    exact List.mem_cons_of_mem _ hn
  · exact h.lists.dequeue_of_loose (h.fixed_loose hz)
      (h.fixed_ne hz (a := .queue) trivial (show 4 < 8 by decide) (by simp))

theorem Linkage.block (h : Linkage R T P s ls) (ht : t ∈ T)
    (hloose : Loose (threadSlots ∅) (threadHead s) ls (Thread.node t)) :
    Linkage R T P (s.setHeap (listAdd s.heap s.blockThreadList (Thread.node t)))
      (Function.update ls .block (Thread.node t :: ls .block)) := by
  have hnode := h.layout.node_ne ht
  obtain ⟨hlists, hsame⟩ := h.lists.push (block_mem_threadSlots ∅) (by decide) hloose hnode.1 hnode.2
  refine h.moved hlists hsame rfl (Function.update_of_ne (by decide) ..)
    (h.nodes_update (fun n hn => ?_) (block_mem_threadSlots ∅)) (fun z hz => ?_) h.current
  · rw [List.mem_cons] at hn
    exact hn.symm.imp_right fun he => ⟨t, ht, he⟩
  · exact insertAfter_of_ne (h.fixed_ne hz (a := .blockHead) (o := 0) trivial (by decide) (by simp))
      (h.fixed_ne hz (a := .thread t) ht (show 16 < 24 by decide) fun _ _ => by decide)

theorem Linkage.unblock (h : Linkage R T P s ls) {xs ys : List ℕ} {d : ℕ} (hls : ls .block = xs ++ d :: ys) :
    Linkage R T P (s.setHeap (listRemove s.heap (lastFrom s.blockThreadList xs)).2)
      (Function.update ls .block (xs ++ ys)) := by
  have hslot := block_mem_threadSlots ∅
  obtain ⟨hlists, -, hsame⟩ := h.lists.remove hslot (by decide) hls
  refine h.moved hlists hsame rfl (Function.update_of_ne (by decide) ..)
    (h.nodes_update (fun n hn => Or.inl ?_) hslot) (fun z hz => ?_) h.current
  · rw [hls]
    simp only [List.mem_append, List.mem_cons] at hn ⊢
    exact hn.imp_right Or.inr
  · have hloose := h.fixed_loose hz .block hslot
    have hnext : s.heap (lastFrom s.blockThreadList xs) = d := h.lists.rings.next_last hslot hls
    rw [hls] at hloose
    refine removeAfter_of_ne (fun he => hloose ?_) fun he => hloose ?_
    · rw [he]
      exact lastFrom_mem_append ..
    · rw [he, hnext]
      simp

/-! ## Steps that leave the lists -/

def StackRoom (s : Scheduler) (t : ℕ) : Prop :=
  s.heap (Thread.esp t) + 4 ≤ s.heap (Thread.stackAddr t) ∧
    s.heap (Thread.stackAddr t) + 20 ≤ s.heap (Thread.esp t) + 0xfff

theorem Linkage.quiet (h : Linkage R T P s ls) (hfree : s'.freeThreadList = s.freeThreadList)
    (hqueue : s'.waitThreadQueue = s.waitThreadQueue) (hblock : s'.blockThreadList = s.blockThreadList)
    (halloc : s'.alloc = s.alloc)
    (hlinks : ∀ a : Piece, a.Listed T P → ∀ o < a.size, a = .queue ∨ o = a.link →
      s'.heap (a.base s + o) = s.heap (a.base s + o))
    (hkeep : ∀ z, Fixed T s ls z → s'.heap z = s.heap z)
    (hcur : ∃ t ∈ T, Thread.node t ∉ ls .free ∧ s'.tssEsp0 = stackTop s.heap t) : Linkage R T P s' ls := by
  have hsame : SameHeads s s' := ⟨hfree, hqueue, hblock, hlinks .queue trivial 0 (by decide) (Or.inl rfl)⟩
  refine h.moved (h.lists.congr hsame ?_ fun z hz => ?_) hsame halloc rfl h.nodes hkeep hcur
  · exact hlinks .queue trivial 4 (by decide) (Or.inl rfl)
  · obtain ⟨a, ha, -, rfl⟩ := link_of_linked h.nodes hz
    exact hlinks a (ha.mono (Set.empty_subset P)) a.link a.link_lt (Or.inr rfl)

theorem prepareStack_tss (s : Scheduler) (t startFunc : ℕ) :
    (prepareStack s t startFunc).tssEsp0 = s.tssEsp0 := by
  rw [prepareStack_eq, Scheduler.setHeap_tssEsp0]

section prepareStack
variable (h : Linkage R T P s ls) (ht : t ∈ T) (hn : Thread.node t ∉ ls .free) (hroom : StackRoom s t)
  (startFunc : ℕ)
include h ht hn hroom

theorem Linkage.prepareStack_of_ne (hz : z ≠ Thread.esp t)
    (hstack : z + 20 < s.heap (Thread.esp t) ∨ s.heap (Thread.esp t) ≤ z) :
    (prepareStack s t startFunc).heap z = s.heap z := by
  have hused := h.used t ht hn
  have hb := hused.bounds h.ready.inv
  have hpiece : s.heap (Thread.stackAddr t) < t ∨ t + 24 + 0xfff ≤ s.heap (Thread.stackAddr t) :=
    hused.pieces (.thread t) ht
  obtain ⟨hroom₁, hroom₂⟩ := hroom
  refine Scheduling.prepareStack_of_ne rfl (by omega) (by omega) ?_ hz (by omega)
  simp only [Thread.esp] at hroom₁ hroom₂ ⊢
  omega

theorem Linkage.prepareStack_word {a : Piece} {o : ℕ} (ha : a.Listed T P) (ho : o < a.size)
    (hfield : a = .thread t → o ≠ 12) :
    (prepareStack s t startFunc).heap (a.base s + o) = s.heap (a.base s + o) := by
  have hsep := (h.used t ht hn).pieces a ha
  refine h.prepareStack_of_ne ht hn hroom startFunc (fun he => ?_) ?_
  · obtain ⟨rfl, rfl⟩ := h.layout.apart.word_inj (b := Piece.thread t) ha ht ho (show 12 < 24 by decide) he
    exact hfield rfl rfl
  · obtain ⟨hroom₁, hroom₂⟩ := hroom
    omega

theorem Linkage.prepareStack_fixed (hz : Fixed T s ls z) : (prepareStack s t startFunc).heap z = s.heap z := by
  have hesp := h.fixed_ne hz (a := .thread t) ht (show 12 < 24 by decide) fun _ _ => by decide
  obtain ⟨u, hu, hnu, hz | hz | hz⟩ := hz
  · rw [hz]
    exact h.prepareStack_word ht hn hroom startFunc (a := .thread u) hu (show 4 < 24 by decide)
      fun _ => by decide
  · rw [hz]
    exact h.prepareStack_word ht hn hroom startFunc (a := .thread u) hu (show 8 < 24 by decide)
      fun _ => by decide
  · refine h.prepareStack_of_ne ht hn hroom startFunc hesp ?_
    have hapart := (h.used t ht hn).apart u hu hnu
    have hbu := (h.used u hu hnu).bounds h.ready.inv
    obtain ⟨hroom₁, hroom₂⟩ := hroom
    rw [hz, h.stackTop_eq hu hnu]
    omega

theorem Linkage.prepareStack : Linkage R T P (prepareStack s t startFunc) ls := by
  refine h.quiet ?_ ?_ ?_ ?_ (fun a ha o ho hlink => ?_)
    (fun z hz => h.prepareStack_fixed ht hn hroom startFunc hz) ?_
  · rw [prepareStack_eq, Scheduler.setHeap_freeThreadList]
  · rw [prepareStack_eq, Scheduler.setHeap_waitThreadQueue]
  · rw [prepareStack_eq, Scheduler.setHeap_blockThreadList]
  · rw [prepareStack_eq, Scheduler.setHeap_alloc]
  · refine h.prepareStack_word ht hn hroom startFunc ha ho ?_
    rintro rfl
    rcases hlink with he | rfl
    · cases he
    · exact (by decide : 16 ≠ 12)
  · rw [prepareStack_tss]
    exact h.current

end prepareStack

theorem enterProc_heads (s : Scheduler) (curPcb newPcb : ℕ) :
    (enterProc s curPcb newPcb).freeThreadList = s.freeThreadList ∧
      (enterProc s curPcb newPcb).blockThreadList = s.blockThreadList ∧
      (enterProc s curPcb newPcb).alloc = s.alloc := by
  rw [enterProc]
  split
  · simp only [switchProc, Scheduler.store, Scheduler.setHeap_freeThreadList, Scheduler.setHeap_blockThreadList,
      Scheduler.setHeap_alloc, Scheduler.withKernel_toKernel, Scheduler.withKernel_blockThreadList, switchPd,
      Kernel.setCr3, and_self]
  · exact ⟨rfl, rfl, rfl⟩

theorem switchReg_heads (s : Scheduler) (curEsp newEsp esp0 : ℕ) :
    (switchReg (s.setTssEsp0 esp0) curEsp newEsp).freeThreadList = s.freeThreadList ∧
      (switchReg (s.setTssEsp0 esp0) curEsp newEsp).waitThreadQueue = s.waitThreadQueue ∧
      (switchReg (s.setTssEsp0 esp0) curEsp newEsp).blockThreadList = s.blockThreadList ∧
      (switchReg (s.setTssEsp0 esp0) curEsp newEsp).alloc = s.alloc ∧
      (switchReg (s.setTssEsp0 esp0) curEsp newEsp).tssEsp0 = esp0 := by
  simp only [switchReg, Scheduler.store, Scheduler.setEsp_toKernel, Scheduler.setEsp_waitThreadQueue,
    Scheduler.setEsp_blockThreadList, Scheduler.setHeap_freeThreadList, Scheduler.setHeap_waitThreadQueue,
    Scheduler.setHeap_blockThreadList, Scheduler.setHeap_alloc, Scheduler.setHeap_tssEsp0,
    Scheduler.setTssEsp0_freeThreadList, Scheduler.setTssEsp0_waitThreadQueue,
    Scheduler.setTssEsp0_blockThreadList, Scheduler.setTssEsp0_alloc, Scheduler.setTssEsp0_tssEsp0, and_self]

section switchTo
variable (h : Linkage R T P s ls) (ht : t ∈ T) (htn : Thread.node t ∉ ls .free) (hx : x ∈ T)
  (hxn : Thread.node x ∉ ls .free)
include h ht htn hx hxn

theorem Linkage.switchTo_of_ne (hesp : z ≠ Thread.esp t) (hstate : ∀ p ∈ P, z ≠ Pcb.state p) :
    (switchTo s t x).heap z = XyOS.enqueue s.heap s.waitThreadQueue (Thread.node t) z := by
  have hpcb := (h.used t ht htn).pcb
  have hpcb' := (h.used x hx hxn).pcb
  rw [← h.enqueue_fixed ht ⟨t, ht, htn, Or.inr (Or.inl rfl)⟩] at hpcb
  rw [← h.enqueue_fixed ht ⟨x, hx, hxn, Or.inr (Or.inl rfl)⟩] at hpcb'
  rw [switchTo, switchReg_of_ne hesp, Scheduler.setTssEsp0_heap]
  exact enterProc_of_ne (hstate _ hpcb) (hstate _ hpcb')

theorem Linkage.switchTo_fixed (hz : Fixed T s ls z) : (switchTo s t x).heap z = s.heap z := by
  have hesp : z ≠ Thread.esp t := h.fixed_ne hz (a := .thread t) ht (show 12 < 24 by decide)
    fun _ _ => by decide
  rw [h.switchTo_of_ne ht htn hx hxn hesp fun p hp =>
    h.fixed_ne hz (a := .pcb p) hp (show 8 < 48 by decide) (by simp), h.enqueue_fixed ht hz]

theorem Linkage.switchTo_link {a : Piece} {o : ℕ} (ha : a.Listed T P) (ho : o < a.size)
    (hlink : a = .queue ∨ o = a.link) : (switchTo s t x).heap (a.base s + o) =
      XyOS.enqueue s.heap s.waitThreadQueue (Thread.node t) (a.base s + o) := by
  have hword : ∀ b : Piece, b.Listed T P → ∀ o' < b.size, b ≠ .queue → o' ≠ b.link →
      a.base s + o ≠ b.base s + o' := by
    intro b hb o' ho' hqueue hne he
    obtain ⟨rfl, rfl⟩ := h.layout.apart.word_inj ha hb ho ho' he
    exact hlink.elim hqueue hne
  refine h.switchTo_of_ne ht htn hx hxn ?_ fun p hp => ?_
  · exact hword (.thread t) ht 12 (by decide : 12 < 24) (by simp) (by decide : 12 ≠ 16)
  · exact hword (.pcb p) hp 8 (by decide : 8 < 48) (by simp) (by decide : 8 ≠ 44)

theorem Linkage.switchTo_heads : (switchTo s t x).freeThreadList = s.freeThreadList ∧
    (switchTo s t x).waitThreadQueue = s.waitThreadQueue ∧
    (switchTo s t x).blockThreadList = s.blockThreadList ∧ (switchTo s t x).alloc = s.alloc ∧
    (switchTo s t x).tssEsp0 = stackTop s.heap x := by
  have haddr : Fixed T s ls (Thread.stackAddr x) := ⟨x, hx, hxn, Or.inl rfl⟩
  have hesp : Thread.stackAddr x ≠ Thread.esp t := h.fixed_ne haddr (a := .thread t) ht (show 12 < 24 by decide)
    fun _ _ => by decide
  have hw := h.switchTo_fixed ht htn hx hxn haddr
  rw [switchTo, switchReg_of_ne hesp, Scheduler.setTssEsp0_heap] at hw
  rw [switchTo]
  obtain ⟨hf, hb, ha⟩ := enterProc_heads (s.setHeap (XyOS.enqueue s.heap s.waitThreadQueue (Thread.node t)))
    ((s.setHeap (XyOS.enqueue s.heap s.waitThreadQueue (Thread.node t))).heap (Thread.pcb t))
    ((s.setHeap (XyOS.enqueue s.heap s.waitThreadQueue (Thread.node t))).heap (Thread.pcb x))
  have hq := enterProc_queue (s.setHeap (XyOS.enqueue s.heap s.waitThreadQueue (Thread.node t)))
    ((s.setHeap (XyOS.enqueue s.heap s.waitThreadQueue (Thread.node t))).heap (Thread.pcb t))
    ((s.setHeap (XyOS.enqueue s.heap s.waitThreadQueue (Thread.node t))).heap (Thread.pcb x))
  generalize enterProc (s.setHeap (XyOS.enqueue s.heap s.waitThreadQueue (Thread.node t)))
    ((s.setHeap (XyOS.enqueue s.heap s.waitThreadQueue (Thread.node t))).heap (Thread.pcb t))
    ((s.setHeap (XyOS.enqueue s.heap s.waitThreadQueue (Thread.node t))).heap (Thread.pcb x)) = s₂
    at hf hb ha hq hw ⊢
  obtain ⟨hf', hq', hb', ha', he'⟩ := switchReg_heads s₂ (Thread.esp t) (Thread.esp x)
    (sub32 (s₂.heap (Thread.stackAddr x)) 4)
  refine ⟨hf'.trans hf, hq'.trans hq, hb'.trans hb, ha'.trans ha, ?_⟩
  rw [he', hw, stackTop]

end switchTo

theorem Linkage.switchTo (h : Linkage R T P s ls) (ht : t ∈ T)
    (hloose : Loose (threadSlots ∅) (threadHead s) ls (Thread.node t)) (hx : x ∈ T)
    (hxn : Thread.node x ∉ ls .free) :
    Linkage R T P (switchTo s t x) (Function.update ls .wait (ls .wait ++ [Thread.node t])) := by
  have htn : Thread.node t ∉ ls .free := fun hm =>
    hloose .free (free_mem_threadSlots ∅) (List.mem_cons_of_mem _ hm)
  have hjoined := h.enqueue ht hloose
  obtain ⟨hf, hq, hb, ha, he⟩ := h.switchTo_heads ht htn hx hxn
  have hqueue : ∀ o < 8, (Scheduling.switchTo s t x).heap (s.waitThreadQueue + o) =
      XyOS.enqueue s.heap s.waitThreadQueue (Thread.node t) (s.waitThreadQueue + o) := fun o ho =>
    h.switchTo_link ht htn hx hxn (a := .queue) trivial ho (Or.inl rfl)
  have hsame := h.enqueue_sameHeads ht
  have hsame' : SameHeads (s.setHeap (XyOS.enqueue s.heap s.waitThreadQueue (Thread.node t)))
      (Scheduling.switchTo s t x) := ⟨hf, hq, hb, hqueue 0 (by decide)⟩
  refine h.moved (hjoined.lists.congr hsame' (hqueue 4 (by decide)) fun z hz => ?_) (hsame.trans hsame') ha
    (Function.update_of_ne (by decide) ..) hjoined.nodes (fun z hz => h.switchTo_fixed ht htn hx hxn hz)
    ⟨x, hx, hxn, he⟩
  obtain ⟨a, ha, -, rfl⟩ := link_of_linked hjoined.nodes hz
  rw [hsame.base_eq ha]
  exact h.switchTo_link ht htn hx hxn (ha.mono (Set.empty_subset P)) a.link_lt (Or.inr rfl)

/-! ## Creation -/

section Created
variable {stack pcb : ℕ} {rest : List ℕ} {alloc : Allocator}

/-- The stack that `CreateThread` gets: at address 0 when the request fails, or a block apart
from all that is allocated. -/
def NewStack (old : Allocator) (stack : ℕ) (alloc : Allocator) : Prop :=
  stack = 0 ∨ Owned alloc stack 0x1000 ∧ ∀ b m, Owned old b m → b + m ≤ stack ∨ stack + 0x1000 ≤ b

theorem exists_newStack {old : Allocator} {n : ℕ} (h : Ready R old (n + 1)) :
    ∃ stack alloc, DirectMapping.reqBytes old kKStackSize = .ok (stack, alloc) ∧ Ready R alloc n ∧
      (∀ b m, Owned old b m → Owned alloc b m) ∧ NewStack old stack alloc := by
  rcases h.reqBytes (k := 12) (by decide) size_page with hnone | ⟨stack, alloc, hreq, -, hfresh, hready⟩
  · exact ⟨0, old, hnone, h.mono (Nat.le_succ n), fun _ _ ho => ho, Or.inl rfl⟩
  · exact ⟨stack, alloc, hreq, hready, hfresh.kept, Or.inr ⟨hfresh.owned, hfresh.apart⟩⟩

theorem NewStack.bounds {old : Allocator} (h : NewStack old stack alloc)
    (hinv : Invariant R alloc alloc.lists) :
    stack = 0 ∨ kKVirtualAddr ≤ stack ∧ stack + 0x1000 < 2 ^ 32 := by
  refine h.imp id fun ho => ?_
  have hb := ho.1.bounds hinv
  simp only [kKVirtualAddr, managedSize, kDirectMappingSize, kNodePoolSize] at hb ⊢
  omega

variable (h : Linkage R T P s ls) (hnew : NewStack s.alloc stack alloc)
include h hnew

theorem Linkage.newStack_pieces {a : Piece} (ha : a.Listed T P) :
    stack + 0xfff < a.base s ∨ a.base s + a.size ≤ stack := by
  have hlow := (h.bounds ha).1
  rcases hnew with rfl | ⟨-, hapart⟩
  · simp only [kKVirtualAddr] at hlow
    omega
  · have := hapart _ _ (h.layout.owned a ha)
    omega

theorem Linkage.newStack_apart (hinv : Invariant R alloc alloc.lists) (hu : u ∈ T)
    (hn : Thread.node u ∉ ls .free) :
    s.heap (Thread.stackAddr u) = stack + 0xfff ∨ s.heap (Thread.stackAddr u) + 0xfff < stack + 0xfff ∨
      stack + 0xfff + 0xfff < s.heap (Thread.stackAddr u) := by
  have hb := hnew.bounds hinv
  simp only [kKVirtualAddr] at hb
  rcases (h.used u hu hn).stack with he | he | ⟨hle, howned⟩
  · rw [he, kMainStackAddr]
    omega
  · rw [he]
    omega
  · have hbu := howned.bounds h.ready.inv
    simp only [kKVirtualAddr] at hbu
    rcases hnew with rfl | ⟨-, hapart⟩
    · omega
    · have := hapart _ _ howned
      omega

omit hnew in
theorem Linkage.fixed_ne_free (hx : x ∈ T) (hxn : Thread.node x ∈ ls .free)
    (hz : Fixed T s ls z) {o : ℕ} (ho : o < 24) : z ≠ x + o := by
  obtain ⟨t, ht, hn, hz⟩ := hz
  have hne : ∀ o' < 24, t + o' ≠ x + o := fun o' ho' he => by
    obtain ⟨he', -⟩ := h.layout.apart.word_inj (a := Piece.thread t) (b := Piece.thread x) ht hx ho' ho he
    obtain rfl := Piece.thread.inj he'
    exact hn hxn
  rcases hz with hz | hz | hz
  · rw [hz]
    exact hne 4 (by decide)
  · rw [hz]
    exact hne 8 (by decide)
  · have hpiece : s.heap (Thread.stackAddr t) < x ∨ x + 24 + 0xfff ≤ s.heap (Thread.stackAddr t) :=
      (h.used t ht hn).pieces (.thread x) hx
    have hb := (h.used t ht hn).bounds h.ready.inv
    rw [hz, h.stackTop_eq ht hn]
    omega

theorem Linkage.created_lists (hinv : Invariant R alloc alloc.lists)
    (hfree : ls .free = Thread.node x :: rest) (hx : x ∈ T) (hp : pcb ∈ P) :
    ThreadLists (created s x stack pcb alloc) ∅ (Function.update ls .free rest) ∧
      SameHeads s (created s x stack pcb alloc) := by
  have hsplit : ls .free = [] ++ Thread.node x :: rest := hfree
  obtain ⟨hlists, hloose, hsame⟩ := h.lists.remove (free_mem_threadSlots ∅) (by decide) hsplit
  rw [lastFrom_nil, threadHead] at hlists hsame
  have hb := hnew.bounds hinv
  simp only [kKVirtualAddr] at hb
  have htop : newTop stack = stack + 0xffb := newTop_eq (by omega)
  have hword : ∀ a : Piece, a.Listed T ∅ → ∀ o < a.size, a = .queue ∨ o = a.link → a.base s + o ≠ Thread.node x →
      (created s x stack pcb alloc).heap (a.base s + o) =
        (listRemove s.heap s.freeThreadList).2 (a.base s + o) := by
    intro a ha o ho hlink hnode
    have ha' := ha.mono (Set.empty_subset P)
    have hfield : ∀ o' < 24, o' ≠ 16 → a.base s + o ≠ x + o' := by
      intro o' ho' hne he
      obtain ⟨rfl, rfl⟩ := h.layout.apart.word_inj (b := Piece.thread x) ha' hx ho ho' he
      rcases hlink with he | he
      · cases he
      · exact hne he
    refine created_of_ne ?_ hnode (hfield 4 (by decide) (by decide)) (hfield 8 (by decide) (by decide))
      (hfield 12 (by decide) (by decide)) ?_
    · refine h.layout.apart.word_ne (b := Piece.pcb pcb) ha' hp ?_ ho (show 44 < 48 by decide)
      rintro rfl
      exact ha
    · have := h.newStack_pieces hnew ha'
      omega
  obtain ⟨hf, hq, hbl, -, -⟩ := created_heads s x stack pcb alloc
  have hnode := h.layout.node_ne hx
  have hsame' : SameHeads (s.setHeap (listRemove s.heap s.freeThreadList).2) (created s x stack pcb alloc) :=
    ⟨hf, hq, hbl, hword .queue trivial 0 (by decide) (Or.inl rfl) hnode.1.symm⟩
  refine ⟨hlists.congr hsame' (hword .queue trivial 4 (by decide) (Or.inl rfl) hnode.2.symm) fun z hz => ?_,
    hsame.trans hsame'⟩
  rw [hsame.threadHead_eq] at hz
  obtain ⟨a, ha, -, rfl⟩ := link_of_linked h.nodes fun hl => hz (hl.drop hsplit)
  exact hword a ha a.link a.link_lt (Or.inr rfl) fun he => hz (he ▸ hloose)

omit hnew in
theorem Linkage.created_of_ne (hfree : ls .free = Thread.node x :: rest) (hhead : z ≠ s.freeThreadList)
    (hlist : z ≠ Pcb.threadList pcb) (hfield : ∀ o < 24, z ≠ x + o) (htop : z ≠ newTop stack) :
    (created s x stack pcb alloc).heap z = s.heap z :=
  created_kept (h.lists.rings.next_head (free_mem_threadSlots ∅) hfree) hhead hlist (hfield 16 (by decide))
    (hfield 4 (by decide)) (hfield 8 (by decide)) (hfield 12 (by decide)) htop

omit hnew in
theorem Linkage.created_fixed (hfree : ls .free = Thread.node x :: rest) (hx : x ∈ T) (hp : pcb ∈ P)
    (hz : Fixed T s ls z) (htop : z ≠ newTop stack) : (created s x stack pcb alloc).heap z = s.heap z := by
  have hxn : Thread.node x ∈ ls .free := by simp [hfree]
  refine h.created_of_ne hfree ?_ ?_ (fun o ho => h.fixed_ne_free hx hxn hz ho) htop
  · exact h.fixed_ne hz (a := .freeHead) (o := 0) trivial (by decide) (by simp)
  · exact h.fixed_ne hz (a := .pcb pcb) hp (show 44 < 48 by decide) (by simp)

structure Opened (T : Set ℕ) (s : Scheduler) (ls : ThreadSlot → List ℕ) (x stack pcb : ℕ) (s' : Scheduler) :
    Prop where
  process : s'.heap (Thread.pcb x) = pcb
  addr : s'.heap (Thread.stackAddr x) = stack + 0xfff
  esp : s'.heap (Thread.esp x) = stack + 0xffb
  top : s'.heap (stack + 0xffb) = x
  pid : s'.heap (Pcb.pid pcb) = s.heap (Pcb.pid pcb)
  addrs : ∀ t ∈ T, Thread.node t ∉ ls .free → s'.heap (Thread.stackAddr t) = s.heap (Thread.stackAddr t)
  owner : ∀ t ∈ T, Thread.node t ∉ ls .free → s'.heap (Thread.pcb t) = s.heap (Thread.pcb t)
  tops : ∀ t ∈ T, Thread.node t ∉ ls .free → stackTop s.heap t ≠ stack + 0xffb →
    s'.heap (stackTop s.heap t) = s.heap (stackTop s.heap t)

theorem Linkage.opened (hinv : Invariant R alloc alloc.lists) (hfree : ls .free = Thread.node x :: rest)
    (hx : x ∈ T) (hp : pcb ∈ P) : Opened T s ls x stack pcb (created s x stack pcb alloc) := by
  have hb := hnew.bounds hinv
  simp only [kKVirtualAddr] at hb
  have htop : newTop stack = stack + 0xffb := newTop_eq (by omega)
  have hpieces : ∀ a : Piece, a.Listed T P → newTop stack < a.base s ∨ a.base s + a.size ≤ newTop stack := by
    intro a ha
    have := h.newStack_pieces hnew ha
    omega
  obtain ⟨haddr, hpcb, hesp, hword⟩ := h.layout.created_new alloc hx hp hpieces
  have hfield : ∀ t ∈ T, ∀ o < 24, t + o ≠ newTop stack := by
    intro t ht o ho
    have : newTop stack < t ∨ t + 24 ≤ newTop stack := hpieces (.thread t) ht
    omega
  have hpid : (created s x stack pcb alloc).heap (pcb + 0) = s.heap (pcb + 0) := by
    refine h.created_of_ne hfree ?_ ?_ (fun o ho => ?_) ?_
    · exact h.layout.apart.word_ne (a := Piece.pcb pcb) (b := Piece.freeHead) (k := 0) hp trivial (by simp)
        (show 0 < 48 by decide) (by decide)
    · simp only [Pcb.threadList]
      omega
    · exact h.layout.apart.word_ne (a := Piece.pcb pcb) (b := Piece.thread x) hp hx (by simp)
        (show 0 < 48 by decide) ho
    · have : newTop stack < pcb ∨ pcb + 48 ≤ newTop stack := hpieces (.pcb pcb) hp
      omega
  rw [newAddr_eq (by omega)] at haddr
  rw [htop] at hesp hword
  refine ⟨hpcb, haddr, hesp, hword, hpid, fun t ht hn => ?_, fun t ht hn => ?_, fun t ht hn hne => ?_⟩
  · exact h.created_fixed hfree hx hp ⟨t, ht, hn, Or.inl rfl⟩ (hfield t ht 4 (by decide))
  · exact h.created_fixed hfree hx hp ⟨t, ht, hn, Or.inr (Or.inl rfl)⟩ (hfield t ht 8 (by decide))
  · exact h.created_fixed hfree hx hp ⟨t, ht, hn, Or.inr (Or.inr rfl)⟩ (by rwa [htop])

variable (hready : Ready R alloc rest.length) (hkept : ∀ b m, Owned s.alloc b m → Owned alloc b m)
  (hfree : ls .free = Thread.node x :: rest) (hx : x ∈ T)
include hready hfree hx

theorem Linkage.used_new (hp : pcb ∈ P) (hsame : SameHeads s s') (halloc : s'.alloc = alloc)
    (hopened : Opened T s ls x stack pcb s')
    (hold : ∀ t, Thread.node t ∉ rest → t = x ∨ Thread.node t ∉ ls .free)
    (hxrest : Thread.node x ∉ rest) : InUse T P rest s' x := by
  have hb := hnew.bounds hready.inv
  simp only [kKVirtualAddr] at hb
  refine ⟨by rwa [hopened.process], ?_, fun a ha => ?_, fun u hu hn => ?_, ?_⟩
  · rw [hopened.addr, halloc, Nat.add_sub_cancel]
    exact Or.inr (hnew.imp (by omega) fun ho => ⟨by omega, ho.1⟩)
  · rw [hopened.addr, hsame.base_eq ha]
    have := h.newStack_pieces hnew ha
    omega
  · rw [hopened.addr]
    rcases hold u hn with rfl | hn
    · exact Or.inl hopened.addr
    · rw [hopened.addrs u hu hn]
      exact h.newStack_apart hnew hready.inv hu hn
  · have htop : stackTop s'.heap x = stack + 0xffb := by
      rw [stackTop, hopened.addr, sub32_of_le (by omega) (by omega)]
      omega
    rw [htop, hopened.top]
    exact ⟨hx, hxrest⟩

include hkept in
theorem Linkage.used_old (hsame : SameHeads s s') (halloc : s'.alloc = alloc)
    (hopened : Opened T s ls x stack pcb s')
    (hold : ∀ t, Thread.node t ∉ rest → t = x ∨ Thread.node t ∉ ls .free)
    (hxrest : Thread.node x ∉ rest) (ht : t ∈ T) (hn : Thread.node t ∉ ls .free) : InUse T P rest s' t := by
  have hused := h.used t ht hn
  have hstack := hopened.addrs t ht hn
  refine ⟨?_, ?_, fun a ha => ?_, fun u hu hnu => ?_, ?_⟩
  · rw [hopened.owner t ht hn]
    exact hused.pcb
  · rw [hstack, halloc]
    exact hused.stack.imp id fun ho => ho.imp id fun ho => ⟨ho.1, hkept _ _ ho.2⟩
  · rw [hstack, hsame.base_eq ha]
    exact hused.pieces a ha
  · rw [hstack]
    rcases hold u hnu with rfl | hnu
    · rw [hopened.addr]
      have := h.newStack_apart hnew hready.inv ht hn
      omega
    · rw [hopened.addrs u hu hnu]
      exact hused.apart u hu hnu
  · rw [stackTop_congr hstack]
    by_cases htop : stackTop s.heap t = stack + 0xffb
    · rw [htop, hopened.top]
      exact ⟨hx, hxrest⟩
    · rw [hopened.tops t ht hn htop]
      refine ⟨hused.top.1, fun hm => hused.top.2 ?_⟩
      rw [hfree]
      exact List.mem_cons_of_mem _ hm

include hkept in
theorem Linkage.created (hp : pcb ∈ P) :
    Linkage R T P (created s x stack pcb alloc) (Function.update ls .free rest) := by
  obtain ⟨hlists, hsame⟩ := h.created_lists hnew hready.inv hfree hx hp
  obtain ⟨-, -, -, halloc, htss⟩ := created_heads s x stack pcb alloc
  have hopened := h.opened hnew hready.inv hfree hx hp
  have hxrest : Thread.node x ∉ rest := h.notMem_pop hfree .free (free_mem_threadSlots ∅)
  have hold : ∀ t, Thread.node t ∉ rest → t = x ∨ Thread.node t ∉ ls .free := by
    intro t hn
    refine or_iff_not_imp_left.mpr fun hne hm => ?_
    rw [hfree, List.mem_cons] at hm
    exact hm.elim (fun he => hne (Nat.add_right_cancel he)) hn
  refine ⟨?_, h.layout.congr hsame (by rw [halloc]; exact hkept), hlists, ?_, fun t ht hn => ?_, ?_⟩
  · rw [halloc, Function.update_self]
    exact hready
  · refine h.nodes_update (fun n hn => Or.inl ?_) (free_mem_threadSlots ∅)
    rw [hfree]
    exact List.mem_cons_of_mem _ hn
  · rw [Function.update_self] at hn ⊢
    rcases hold t hn with rfl | hn
    · exact h.used_new hnew hready hfree hx hp hsame halloc hopened hold hxrest
    · exact h.used_old hnew hready hkept hfree hx hsame halloc hopened hold hxrest ht hn
  · obtain ⟨t, ht, hn, he⟩ := h.current
    refine ⟨t, ht, ?_, ?_⟩
    · rw [Function.update_self]
      exact fun hm => hn (by rw [hfree]; exact List.mem_cons_of_mem _ hm)
    · rw [htss, he, stackTop_congr (hopened.addrs t ht hn)]

end Created

end XyOS.Scheduling
