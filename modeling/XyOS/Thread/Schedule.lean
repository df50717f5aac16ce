import Mathlib.Data.List.Rotate
import XyOS.Foundation.Regions
import XyOS.Thread.ThreadDefs

/-! What `ThreadSwitch` does to the current thread and the waiting ones. -/

namespace XyOS.Scheduling
open Linked Process DirectMapping Paging

/-! ## The memory of the scheduler -/

/-- The word at the top of the stack, where `GetCurThread` finds the thread. -/
def stackTop (heap : ℕ → ℕ) (thread : ℕ) : ℕ := sub32 (heap (Thread.stackAddr thread)) 4

inductive Piece
  | freeHead
  | queue
  | waitHead
  | blockHead
  | thread (t : ℕ)
  | pcb (p : ℕ)
  | top (t : ℕ)
deriving DecidableEq

namespace Piece

def base (s : Scheduler) : Piece → ℕ
  | freeHead => s.freeThreadList
  | queue => s.waitThreadQueue
  | waitHead => s.heap s.waitThreadQueue
  | blockHead => s.blockThreadList
  | thread t => t
  | pcb p => p
  | top t => stackTop s.heap t

def size : Piece → ℕ
  | queue => queueBytes
  | thread _ => threadBytes
  | pcb _ => pcbBytes
  | _ => 4

/-- The pieces that `ThreadSwitch` works on. -/
def Scheduled (T P : Set ℕ) : Piece → Prop
  | queue => True
  | waitHead => True
  | thread t => t ∈ T
  | pcb p => p ∈ P
  | top t => t ∈ T
  | _ => False

def Changes : Piece → ℕ → Prop
  | queue, o => o = 4
  | waitHead, o => o = 0
  | thread _, o => o = 12 ∨ o = 16
  | pcb _, o => o = 8
  | _, _ => False

theorem Changes.lt {a : Piece} {o : ℕ} (h : a.Changes o) : o < a.size := by
  cases a <;> simp only [Changes, size, queueBytes, threadBytes, pcbBytes] at h ⊢ <;> omega

end Piece

/-- The threads `T` and the processes `P` are separate records, each thread is one of
a process in `P` and has its own address at the top of its stack. -/
structure Records (s : Scheduler) (T P : Set ℕ) : Prop where
  apart : Regions.Apart (Piece.base s) Piece.size (Piece.Scheduled T P)
  bound : ∀ t ∈ T, t + threadBytes ≤ 2 ^ 32
  pcb : ∀ t ∈ T, s.heap (Thread.pcb t) ∈ P
  top : ∀ t ∈ T, s.heap (stackTop s.heap t) = t

def SchedWord (s : Scheduler) (T P : Set ℕ) (z : ℕ) : Prop :=
  ∃ a : Piece, a.Scheduled T P ∧ ∃ o, a.Changes o ∧ z = a.base s + o

structure SameRecords (T : Set ℕ) (s s' : Scheduler) : Prop where
  queue : s'.waitThreadQueue = s.waitThreadQueue
  head : s'.heap s.waitThreadQueue = s.heap s.waitThreadQueue
  stackAddr : ∀ t ∈ T, s'.heap (Thread.stackAddr t) = s.heap (Thread.stackAddr t)
  pcb : ∀ t ∈ T, s'.heap (Thread.pcb t) = s.heap (Thread.pcb t)
  top : ∀ t ∈ T, s'.heap (stackTop s.heap t) = s.heap (stackTop s.heap t)

structure Kept (T P : Set ℕ) (s s' : Scheduler) : Prop where
  queue : s'.waitThreadQueue = s.waitThreadQueue
  heap : ∀ z, ¬ SchedWord s T P z → s'.heap z = s.heap z

variable {s s' : Scheduler} {T P : Set ℕ} {cur x z t : ℕ} {wait : List ℕ}

section Records
variable (h : Records s T P)
include h

theorem Records.fixed {a : Piece} {o : ℕ} (ha : a.Scheduled T P) (ho : o < a.size) (hc : ¬ a.Changes o) :
    ¬ SchedWord s T P (a.base s + o) := by
  rintro ⟨b, hb, o', ho', he⟩
  obtain ⟨rfl, rfl⟩ := h.apart.word_inj ha hb ho ho'.lt he
  exact hc ho'

theorem Records.fixed_queue : ¬ SchedWord s T P s.waitThreadQueue :=
  h.fixed (a := .queue) (o := 0) trivial (by decide) (by simp [Piece.Changes])

theorem Records.fixed_thread (ht : t ∈ T) {o : ℕ} (ho : o < 24) (h12 : o ≠ 12) (h16 : o ≠ 16) :
    ¬ SchedWord s T P (t + o) :=
  h.fixed (a := .thread t) ht ho (by simp [Piece.Changes, h12, h16])

theorem Records.fixed_pcb {p : ℕ} (hp : p ∈ P) {o : ℕ} (ho : o < 48) (h8 : o ≠ 8) :
    ¬ SchedWord s T P (p + o) :=
  h.fixed (a := .pcb p) hp ho (by simpa [Piece.Changes] using h8)

theorem Records.fixed_top (ht : t ∈ T) : ¬ SchedWord s T P (stackTop s.heap t) := by
  have hfixed := h.fixed (a := .top t) (o := 0) ht (show 0 < 4 by decide) id
  rwa [Nat.add_zero, Piece.base] at hfixed

theorem Kept.same (hk : Kept T P s s') : SameRecords T s s' where
  queue := hk.queue
  head := hk.heap _ h.fixed_queue
  stackAddr t ht := hk.heap _ (h.fixed_thread ht (by decide) (by decide) (by decide))
  pcb t ht := hk.heap _ (h.fixed_thread ht (by decide) (by decide) (by decide))
  top t ht := hk.heap _ (h.fixed_top ht)

omit h in
theorem SameRecords.stackTop_eq (hs : SameRecords T s s') (ht : t ∈ T) :
    stackTop s'.heap t = stackTop s.heap t := by
  rw [stackTop, hs.stackAddr t ht, stackTop]

omit h in
theorem SameRecords.base_eq (hs : SameRecords T s s') {a : Piece} (ha : a.Scheduled T P) : a.base s' = a.base s := by
  cases a with
  | freeHead => exact ha.elim
  | queue => exact hs.queue
  | waitHead => rw [Piece.base, hs.queue, hs.head, Piece.base]
  | blockHead => exact ha.elim
  | thread t => rfl
  | pcb p => rfl
  | top t => exact hs.stackTop_eq ha

theorem Records.congr (hs : SameRecords T s s') : Records s' T P := by
  refine ⟨h.apart.congr fun a ha => hs.base_eq ha, h.bound, fun t ht => ?_, fun t ht => ?_⟩
  · rw [hs.pcb t ht]
    exact h.pcb t ht
  · rw [hs.stackTop_eq ht, hs.top t ht]
    exact h.top t ht

theorem Records.kept (hk : Kept T P s s') : Records s' T P := h.congr (hk.same h)

theorem Records.stackTop_eq (hk : Kept T P s s') (ht : t ∈ T) : stackTop s'.heap t = stackTop s.heap t :=
  (hk.same h).stackTop_eq ht

theorem Records.kept_trans {s'' : Scheduler} (hk : Kept T P s s') (hk' : Kept T P s' s'') : Kept T P s s'' := by
  refine ⟨hk'.queue.trans hk.queue, fun z hz => ?_⟩
  rw [hk'.heap z, hk.heap z hz]
  rintro ⟨a, ha, o, ho, he⟩
  exact hz ⟨a, ha, o, ho, by rw [he, (hk.same h).base_eq ha]⟩

theorem Records.threadOf_node (ht : t ∈ T) : threadOf (Thread.node t) = t := by
  have hb : t + 24 ≤ 2 ^ 32 := h.bound t ht
  simp only [threadOf, Thread.node]
  rw [sub32_of_le (by omega) (by omega)]
  omega

end Records

/-! ## The current thread and the queue -/

/-- `cur` is the current thread and `wait` the threads in the queue, the next one first. -/
structure View (s : Scheduler) (T P : Set ℕ) (cur : ℕ) (wait : List ℕ) : Prop extends Records s T P where
  queue : IsQueue s.heap s.waitThreadQueue (wait.map Thread.node)
  current : s.tssEsp0 = stackTop s.heap cur
  mem : ∀ t ∈ cur :: wait, t ∈ T

theorem View.getCurThread_eq (h : View s T P cur wait) : getCurThread s.toKernel = cur := by
  rw [getCurThread, h.current]
  exact h.top cur (h.mem cur List.mem_cons_self)

/-- The scheduler's memory is left alone: the queue, the `Thread`s, the tops of the
stacks and the timer. -/
structure Undisturbed (T : Set ℕ) (s s' : Scheduler) : Prop where
  queue : s'.waitThreadQueue = s.waitThreadQueue
  tss : s'.tssEsp0 = s.tssEsp0
  timer : s'.timer = s.timer
  heap : ∀ a : Piece, a.Scheduled T ∅ → ∀ o < a.size, s'.heap (a.base s + o) = s.heap (a.base s + o)

theorem Undisturbed.same (hu : Undisturbed T s s') : SameRecords T s s' where
  queue := hu.queue
  head := hu.heap .queue trivial 0 (by decide)
  stackAddr t ht := hu.heap (.thread t) ht 4 (show 4 < 24 by decide)
  pcb t ht := hu.heap (.thread t) ht 8 (show 8 < 24 by decide)
  top t ht := by
    have hword := hu.heap (.top t) ht 0 (show 0 < 4 by decide)
    rwa [Nat.add_zero, Piece.base] at hword

theorem View.undisturbed (h : View s T P cur wait) (hu : Undisturbed T s s') : View s' T P cur wait := by
  refine ⟨h.toRecords.congr hu.same, ?_, ?_, h.mem⟩
  · rw [hu.queue]
    refine h.queue.congr fun z hz => ?_
    simp only [queueWords, List.mem_cons, List.mem_map] at hz
    rcases hz with rfl | rfl | rfl | ⟨t, ht, rfl⟩
    · exact hu.heap .queue trivial 0 (by decide)
    · exact hu.heap .queue trivial 4 (by decide)
    · exact hu.heap .waitHead trivial 0 (by decide)
    · exact hu.heap (.thread t) (h.mem t (List.mem_cons_of_mem _ ht)) 16 (show 16 < 24 by decide)
  · rw [hu.tss, hu.same.stackTop_eq (h.mem cur List.mem_cons_self)]
    exact h.current

theorem Scheduler.store_of_ne {a v : ℕ} (h : z ≠ a) : (s.store a v).heap z = s.heap z := by
  rw [store, setHeap_heap, Function.update_of_ne h]

theorem Scheduler.store_self (s : Scheduler) (a v : ℕ) : (s.store a v).heap a = v := by
  rw [store, setHeap_heap, Function.update_self]

theorem setCr3_heap (k : Kernel) (physAddr : ℕ) : (k.setCr3 physAddr).heap = k.heap := rfl

theorem switchProc_of_ne {curPcb newPcb : ℕ} (hcur : z ≠ Pcb.state curPcb) (hnew : z ≠ Pcb.state newPcb) :
    (switchProc s curPcb newPcb).heap z = s.heap z := by
  rw [switchProc, Scheduler.store_of_ne hcur, Scheduler.store_of_ne hnew, Scheduler.withKernel_toKernel,
    switchPd, setCr3_heap]

theorem enterProc_of_ne {curPcb newPcb : ℕ} (hcur : z ≠ Pcb.state curPcb) (hnew : z ≠ Pcb.state newPcb) :
    (enterProc s curPcb newPcb).heap z = s.heap z := by
  rw [enterProc]
  split
  · exact switchProc_of_ne hcur hnew
  · rfl

theorem enterProc_queue (s : Scheduler) (curPcb newPcb : ℕ) :
    (enterProc s curPcb newPcb).waitThreadQueue = s.waitThreadQueue := by
  rw [enterProc]
  split
  · simp only [switchProc, Scheduler.store, Scheduler.setHeap_waitThreadQueue,
      Scheduler.withKernel_waitThreadQueue]
  · rfl

theorem switchReg_of_ne {curEsp newEsp : ℕ} (h : z ≠ curEsp) : (switchReg s curEsp newEsp).heap z = s.heap z := by
  rw [switchReg, Scheduler.setEsp_toKernel, Scheduler.store_of_ne h]

theorem View.switch_nil (h : View s T P cur []) : threadSwitch s = s := by
  have hd := dequeue_nil h.queue
  simp only [threadSwitch, hd, if_true]
  rfl

theorem View.dequeued (h : View s T P cur (x :: wait)) :
    View (s.setHeap (dequeue s.heap s.waitThreadQueue).2) T P cur wait ∧
      Kept T P s (s.setHeap (dequeue s.heap s.waitThreadQueue).2) := by
  have hx : x ∈ T := h.mem x (by simp)
  have hkept : Kept T P s (s.setHeap (dequeue s.heap s.waitThreadQueue).2) := by
    refine ⟨rfl, fun z hz => dequeue_of_ne h.queue ?_ ?_ ?_⟩
    · rintro rfl
      exact hz ⟨.queue, trivial, 4, rfl, rfl⟩
    · rintro rfl
      exact hz ⟨.waitHead, trivial, 0, rfl, rfl⟩
    · rintro rfl
      exact hz ⟨.thread x, hx, 16, Or.inr rfl, rfl⟩
  refine ⟨⟨h.toRecords.kept hkept, h.queue.dequeue, ?_, fun t ht => ?_⟩, hkept⟩
  · rw [h.toRecords.stackTop_eq hkept (h.mem cur List.mem_cons_self)]
    exact h.current
  · refine h.mem t ?_
    simp only [List.mem_cons] at ht ⊢
    tauto

theorem View.threadSwitch_eq (h : View s T P cur (x :: wait)) :
    threadSwitch s = switchTo (s.setHeap (dequeue s.heap s.waitThreadQueue).2) cur x := by
  have hx : x ∈ T := h.mem x (by simp)
  have hfirst : (dequeue s.heap s.waitThreadQueue).1 = Thread.node x := (dequeue_cons h.queue).1
  have hne : Thread.node x ≠ 0 := Nat.succ_ne_zero _
  have hcur := h.dequeued.1.getCurThread_eq
  simp only [threadSwitch, hfirst, if_neg hne, hcur, h.threadOf_node hx]

theorem View.enqueued (h : View s T P cur wait) (hcur : cur ∉ wait) :
    IsQueue (enqueue s.heap s.waitThreadQueue (Thread.node cur)) s.waitThreadQueue
        ((wait ++ [cur]).map Thread.node) ∧
      Kept T P s (s.setHeap (enqueue s.heap s.waitThreadQueue (Thread.node cur))) := by
  have hmem : cur ∈ T := h.mem cur List.mem_cons_self
  have hnode : Thread.node cur ∉ queueWords s.heap s.waitThreadQueue (wait.map Thread.node) := by
    simp only [queueWords, List.mem_cons, List.mem_map, not_or]
    refine ⟨fun he => ?_, fun he => ?_, fun he => ?_, ?_⟩
    · exact h.fixed_queue ⟨.thread cur, hmem, 16, Or.inr rfl, he.symm⟩
    · exact h.apart.word_ne (a := Piece.thread cur) (b := Piece.queue) hmem trivial (by simp)
        (show 16 < 24 by decide) (show 4 < 8 by decide) he
    · exact h.apart.word_ne (a := Piece.thread cur) (b := Piece.waitHead) (k := 0) hmem trivial (by simp)
        (show 16 < 24 by decide) (by decide) he
    · rintro ⟨t, ht, he⟩
      have : t = cur := Nat.add_right_cancel he
      exact hcur (this ▸ ht)
  refine ⟨?_, rfl, fun z hz => enqueue_of_ne h.queue ?_ ?_ ?_⟩
  · rw [List.map_append, List.map_singleton]
    exact h.queue.enqueue hnode
  · rintro rfl
    exact hz ⟨.queue, trivial, 4, rfl, rfl⟩
  · rintro rfl
    exact hz ⟨.thread cur, hmem, 16, Or.inr rfl, rfl⟩
  · simp only [List.mem_cons, List.mem_map, not_or]
    refine ⟨?_, ?_⟩
    · rintro rfl
      exact hz ⟨.waitHead, trivial, 0, rfl, rfl⟩
    · rintro ⟨t, ht, rfl⟩
      exact hz ⟨.thread t, h.mem t (List.mem_cons_of_mem _ ht), 16, Or.inr rfl, rfl⟩

theorem switchTo_queue (s : Scheduler) (cur x : ℕ) :
    (switchTo s cur x).waitThreadQueue = s.waitThreadQueue := by
  simp only [switchTo, switchReg, Scheduler.store, Scheduler.setEsp_waitThreadQueue,
    Scheduler.setHeap_waitThreadQueue, Scheduler.setTssEsp0_waitThreadQueue, enterProc_queue]

theorem switchTo_heap (hrec : Records (s.setHeap (enqueue s.heap s.waitThreadQueue (Thread.node cur))) T P)
    (hcur : cur ∈ T) (hx : x ∈ T) (hesp : z ≠ Thread.esp cur) (hstate : ∀ p ∈ P, z ≠ Pcb.state p) :
    (switchTo s cur x).heap z = enqueue s.heap s.waitThreadQueue (Thread.node cur) z := by
  have hp := hrec.pcb cur hcur
  have hp' := hrec.pcb x hx
  rw [switchTo, switchReg_of_ne hesp, Scheduler.setTssEsp0_heap,
    enterProc_of_ne (hstate _ hp) (hstate _ hp'), Scheduler.setHeap_heap]

theorem switchTo_tssEsp0
    (hrec : Records (s.setHeap (enqueue s.heap s.waitThreadQueue (Thread.node cur))) T P)
    (hcur : cur ∈ T) (hx : x ∈ T) (hstate : ∀ p ∈ P, Thread.stackAddr x ≠ Pcb.state p) :
    (switchTo s cur x).tssEsp0 = stackTop (enqueue s.heap s.waitThreadQueue (Thread.node cur)) x := by
  have hp := hrec.pcb cur hcur
  have hp' := hrec.pcb x hx
  rw [switchTo, switchReg, Scheduler.store, Scheduler.setEsp_toKernel, Scheduler.setHeap_tssEsp0,
    Scheduler.setTssEsp0_tssEsp0, enterProc_of_ne (hstate _ hp) (hstate _ hp'), Scheduler.setHeap_heap,
    stackTop]

theorem View.switchTo_kept (h : View s T P cur wait) (hcur : cur ∉ wait) (hx : x ∈ T) :
    Kept T P s (Scheduling.switchTo s cur x) := by
  have hkept₁ := (h.enqueued hcur).2
  have hmem : cur ∈ T := h.mem cur List.mem_cons_self
  refine ⟨switchTo_queue s cur x, fun z hz => ?_⟩
  rw [switchTo_heap (h.toRecords.kept hkept₁) hmem hx]
  · exact hkept₁.heap z hz
  · rintro rfl
    exact hz ⟨.thread cur, hmem, 12, Or.inl rfl, rfl⟩
  · rintro p hp rfl
    exact hz ⟨.pcb p, hp, 8, rfl, rfl⟩

theorem View.switchTo_word (h : View s T P cur wait) (hcur : cur ∉ wait) (hx : x ∈ T) {a : Piece} {o : ℕ}
    (ha : a.Scheduled T P) (ho : o < a.size) (hne : a ≠ .thread cur ∨ o ≠ 12) (hpcb : ∀ p, a ≠ .pcb p) :
    (Scheduling.switchTo s cur x).heap (a.base s + o) =
      enqueue s.heap s.waitThreadQueue (Thread.node cur) (a.base s + o) := by
  have hmem : cur ∈ T := h.mem cur List.mem_cons_self
  refine switchTo_heap (h.toRecords.kept (h.enqueued hcur).2) hmem hx (fun he => ?_) fun p hp he => ?_
  · obtain ⟨rfl, rfl⟩ := h.apart.word_inj (b := Piece.thread cur) ha hmem ho (show 12 < 24 by decide) he
    simp at hne
  · obtain ⟨rfl, rfl⟩ := h.apart.word_inj (b := Piece.pcb p) ha hp ho (show 8 < 48 by decide) he
    exact hpcb p rfl

theorem View.switchTo (h : View s T P cur wait) (hcur : cur ∉ wait) (hx : x ∈ T) :
    View (switchTo s cur x) T P x (wait ++ [cur]) ∧ Kept T P s (switchTo s cur x) := by
  obtain ⟨hqueue, hkept₁⟩ := h.enqueued hcur
  have hmem : cur ∈ T := h.mem cur List.mem_cons_self
  have hrec₁ := h.toRecords.kept hkept₁
  have hkept := h.switchTo_kept hcur hx
  refine ⟨⟨h.toRecords.kept hkept, ?_, ?_, fun t ht => ?_⟩, hkept⟩
  · rw [switchTo_queue]
    refine hqueue.congr fun z hz => ?_
    have hhead : enqueue s.heap s.waitThreadQueue (Thread.node cur) (Queue.head s.waitThreadQueue) =
        s.heap s.waitThreadQueue := hkept₁.heap _ h.fixed_queue
    simp only [queueWords, List.mem_cons, List.mem_map, hhead] at hz
    rcases hz with rfl | rfl | rfl | ⟨t, ht, rfl⟩
    · exact h.switchTo_word hcur hx (a := .queue) (o := 0) trivial (by decide) (Or.inr (by decide)) (by simp)
    · exact h.switchTo_word hcur hx (a := .queue) (o := 4) trivial (by decide) (Or.inr (by decide)) (by simp)
    · exact h.switchTo_word hcur hx (a := .waitHead) (o := 0) trivial (by decide) (Or.inr (by decide)) (by simp)
    · have htT : t ∈ T := by
        refine h.mem t ?_
        simp only [List.mem_append, List.mem_cons, List.not_mem_nil] at ht ⊢
        tauto
      exact h.switchTo_word hcur hx (a := .thread t) (o := 16) htT (show 16 < 24 by decide) (Or.inr (by decide))
        (by simp)
  · rw [switchTo_tssEsp0 hrec₁ hmem hx]
    · have h₁ := h.stackTop_eq hkept₁ hx
      rw [Scheduler.setHeap_heap] at h₁
      rw [h₁, h.stackTop_eq hkept hx]
    · intro p hp he
      exact h.apart.word_ne (a := Piece.thread x) (b := Piece.pcb p) hx hp (by simp) (show 4 < 24 by decide)
        (show 8 < 48 by decide) he
  · simp only [List.mem_append, List.mem_cons, List.not_mem_nil, or_false] at ht
    rcases ht with rfl | ht | rfl
    · exact hx
    · exact h.mem t (List.mem_cons_of_mem _ ht)
    · exact hmem

theorem View.switch_cons (h : View s T P cur (x :: wait)) (hcur : cur ∉ x :: wait) :
    View (threadSwitch s) T P x (wait ++ [cur]) ∧ Kept T P s (threadSwitch s) := by
  obtain ⟨hview, hkept⟩ := h.dequeued
  have hx : x ∈ T := h.mem x (by simp)
  obtain ⟨hview', hkept'⟩ := hview.switchTo (fun he => hcur (List.mem_cons_of_mem _ he)) hx
  rw [h.threadSwitch_eq]
  exact ⟨hview', h.toRecords.kept_trans hkept hkept'⟩

def requeued (s : Scheduler) (cur : ℕ) : Scheduler :=
  s.setHeap (enqueue (dequeue s.heap s.waitThreadQueue).2 s.waitThreadQueue (Thread.node cur))

theorem View.requeued_kept (h : View s T P cur (x :: wait)) (hcur : cur ∉ x :: wait) :
    Kept T P s (requeued s cur) := by
  obtain ⟨hview, hkept⟩ := h.dequeued
  exact h.toRecords.kept_trans hkept (hview.enqueued fun he => hcur (List.mem_cons_of_mem _ he)).2

theorem View.requeued_of_ne (h : View s T P cur (x :: wait)) (ht : z ≠ Queue.tail s.waitThreadQueue)
    (hh : z ≠ s.heap s.waitThreadQueue) (hn : ∀ t ∈ T, z ≠ Thread.node t) :
    (requeued s cur).heap z = s.heap z := by
  obtain ⟨hview, hkept⟩ := h.dequeued
  have hhead : (dequeue s.heap s.waitThreadQueue).2 s.waitThreadQueue = s.heap s.waitThreadQueue :=
    hkept.heap _ h.fixed_queue
  have hnodes : z ∉ (dequeue s.heap s.waitThreadQueue).2 (Queue.head s.waitThreadQueue) ::
      wait.map Thread.node := by
    simp only [Queue.head, hhead, List.mem_cons, List.mem_map, not_or]
    refine ⟨hh, ?_⟩
    rintro ⟨t, hmem, rfl⟩
    exact hn t (h.mem t (by simp [hmem])) rfl
  calc (requeued s cur).heap z = (dequeue s.heap s.waitThreadQueue).2 z :=
        enqueue_of_ne hview.queue ht (hn cur (h.mem cur (by simp))) hnodes
    _ = s.heap z := dequeue_of_ne h.queue ht hh (hn x (h.mem x (by simp)))

theorem View.threadSwitch_requeued (h : View s T P cur (x :: wait)) (hcur : cur ∉ x :: wait) :
    ∃ esp0, threadSwitch s = switchReg ((enterProc (requeued s cur) (s.heap (Thread.pcb cur))
      (s.heap (Thread.pcb x))).setTssEsp0 esp0) (Thread.esp cur) (Thread.esp x) := by
  have hsame := (h.requeued_kept hcur).same h.toRecords
  have htwice : (s.setHeap (dequeue s.heap s.waitThreadQueue).2).setHeap
      (enqueue (s.setHeap (dequeue s.heap s.waitThreadQueue).2).heap
        (s.setHeap (dequeue s.heap s.waitThreadQueue).2).waitThreadQueue (Thread.node cur)) =
      requeued s cur := rfl
  rw [h.threadSwitch_eq, Scheduling.switchTo, htwice, hsame.pcb cur (h.mem cur List.mem_cons_self),
    hsame.pcb x (h.mem x (by simp))]
  exact ⟨_, rfl⟩

theorem View.threadSwitch_ne (h : View s T P cur (x :: wait)) (hcur : cur ∉ x :: wait)
    (hne : s.heap (Pcb.pid (s.heap (Thread.pcb cur))) ≠ s.heap (Pcb.pid (s.heap (Thread.pcb x)))) :
    ∃ esp0, threadSwitch s = switchReg ((switchProc (requeued s cur) (s.heap (Thread.pcb cur))
      (s.heap (Thread.pcb x))).setTssEsp0 esp0) (Thread.esp cur) (Thread.esp x) := by
  have hpid : ∀ p ∈ P, (requeued s cur).heap (Pcb.pid p) = s.heap (Pcb.pid p) := fun p hp =>
    (h.requeued_kept hcur).heap _ (h.fixed_pcb (o := 0) hp (by decide) (by decide))
  have henter : enterProc (requeued s cur) (s.heap (Thread.pcb cur)) (s.heap (Thread.pcb x)) =
      switchProc (requeued s cur) (s.heap (Thread.pcb cur)) (s.heap (Thread.pcb x)) := by
    refine if_pos ?_
    rw [hpid _ (h.pcb cur (h.mem cur List.mem_cons_self)), hpid _ (h.pcb x (h.mem x (by simp)))]
    exact hne
  have hswitch := h.threadSwitch_requeued hcur
  rwa [henter] at hswitch

theorem View.switch_state (h : View s T P cur (x :: wait)) (hcur : cur ∉ x :: wait) {p : ℕ} (hp : p ∈ P)
    (hspare : s.heap (Pcb.pid (s.heap (Thread.pcb cur))) ≠ s.heap (Pcb.pid (s.heap (Thread.pcb x))) →
      p ≠ s.heap (Thread.pcb cur) ∧ p ≠ s.heap (Thread.pcb x)) :
    (threadSwitch s).heap (Pcb.state p) = s.heap (Pcb.state p) := by
  have hcurT : cur ∈ T := h.mem cur List.mem_cons_self
  have hpid : ∀ q ∈ P, (requeued s cur).heap (Pcb.pid q) = s.heap (Pcb.pid q) := fun q hq =>
    (h.requeued_kept hcur).heap _ (h.fixed_pcb (o := 0) hq (by decide) (by decide))
  have hesp : Pcb.state p ≠ Thread.esp cur := h.apart.word_ne (a := Piece.pcb p) (b := Piece.thread cur) hp hcurT
    (by simp)
    (show 8 < 48 by decide) (show 12 < 24 by decide)
  have hqueue : (requeued s cur).heap (Pcb.state p) = s.heap (Pcb.state p) := by
    refine h.requeued_of_ne ?_ ?_ fun t ht => ?_
    · exact h.apart.word_ne (a := Piece.pcb p) (b := Piece.queue) hp trivial (by simp) (show 8 < 48 by decide)
        (show 4 < 8 by decide)
    · exact h.apart.word_ne (a := Piece.pcb p) (b := Piece.waitHead) (k := 0) hp trivial (by simp)
        (show 8 < 48 by decide)
        (by decide)
    · exact h.apart.word_ne (a := Piece.pcb p) (b := Piece.thread t) hp ht (by simp) (show 8 < 48 by decide)
        (show 16 < 24 by decide)
  obtain ⟨esp0, hswitch⟩ := h.threadSwitch_requeued hcur
  rw [hswitch, switchReg_of_ne hesp, Scheduler.setTssEsp0_heap, enterProc]
  split
  · rename_i hne
    rw [hpid _ (h.pcb cur hcurT), hpid _ (h.pcb x (h.mem x (by simp)))] at hne
    obtain ⟨hp₁, hp₂⟩ := hspare hne
    have hstate : ∀ q, p ≠ q → Pcb.state p ≠ Pcb.state q := fun q hne he => hne (Nat.add_right_cancel he)
    rw [switchProc_of_ne (hstate _ hp₁) (hstate _ hp₂)]
    exact hqueue
  · exact hqueue

theorem View.switch (h : View s T P cur wait) (hnd : (cur :: wait).Nodup) :
    ∃ cur' wait', cur' :: wait' = (cur :: wait).rotate 1 ∧ View (threadSwitch s) T P cur' wait' ∧
      Kept T P s (threadSwitch s) := by
  cases wait with
  | nil =>
    rw [h.switch_nil]
    exact ⟨cur, [], (List.rotate_singleton cur 1).symm, h, rfl, fun _ _ => rfl⟩
  | cons x wait =>
    obtain ⟨hview, hkept⟩ := h.switch_cons (List.nodup_cons.mp hnd).1
    refine ⟨x, wait ++ [cur], ?_, hview, hkept⟩
    rw [List.rotate_cons_succ, List.rotate_zero, List.cons_append]

/-! ## Two threads -/

/-- The thread at `0xc0400100` of the kernel runs, and the one at `0xc0400200`, which
belongs to the process `pcb`, waits. The kernel's `Pcb` is at `0xc0300000`, another
one with the page directory `0xc0600000` at `0xc0300100`. -/
def pairHeap (pcb z : ℕ) : ℕ :=
  if z = 0xc0400000 then 0xc0400010
  else if z = 0xc0400004 then 0xc0400210
  else if z = 0xc0400010 then 0xc0400210
  else if z = 0xc0400210 then 0xc0400010
  else if z = 0xc0400020 then 0xc0400020
  else if z = 0xc0400104 then 0xc0500fff
  else if z = 0xc0400204 then 0xc0501fff
  else if z = 0xc0400108 then 0xc0300000
  else if z = 0xc0400208 then pcb
  else if z = 0xc0500ffb then 0xc0400100
  else if z = 0xc0501ffb then 0xc0400200
  else if z = 0xc0300100 then 1
  else if z = 0xc0300004 then 0x1000
  else if z = 0xc0300104 then 0xc0600000
  else 0

def pairScheduler (pcb : ℕ) : Scheduler where
  mem := fun _ => 0
  heap := pairHeap pcb
  alloc := ⟨fun _ => 0, fun _ => 0, 0, fun _ => 0, fun _ => 0⟩
  avlMem := []
  pageState := fun _ => 0
  cr2 := 0
  cr3 := 0x1000
  freeProcList := 0xc0300200
  freeThreadList := 0xc0300500
  tssEsp0 := 0xc0500ffb
  log := []
  kPcb := 0xc0300000
  waitThreadQueue := 0xc0400000
  blockThreadList := 0xc0400020
  esp := 0xc0500f00
  timer := kTimerReset

def pairThreads : Set ℕ := {0xc0400100, 0xc0400200}

def pairProcs : Set ℕ := {0xc0300000, 0xc0300100}

theorem pairScheduler_apart (pcb : ℕ) : Regions.Apart (Piece.base (pairScheduler pcb)) Piece.size
    (Piece.Scheduled pairThreads pairProcs) := by
  intro a b ha hb hab
  let all : List (Piece × ℕ) := [(.queue, 0xc0400000), (.waitHead, 0xc0400010),
    (.thread 0xc0400100, 0xc0400100), (.thread 0xc0400200, 0xc0400200), (.pcb 0xc0300000, 0xc0300000),
    (.pcb 0xc0300100, 0xc0300100), (.top 0xc0400100, 0xc0500ffb), (.top 0xc0400200, 0xc0501ffb)]
  have hall : ∀ c : Piece, c.Scheduled pairThreads pairProcs → (c, c.base (pairScheduler pcb)) ∈ all := by
    intro c hc
    cases c with
    | freeHead => exact hc.elim
    | queue => simp [all, Piece.base, pairScheduler]
    | waitHead => simp [all, Piece.base, pairScheduler, pairHeap]
    | blockHead => exact hc.elim
    | thread t => rcases hc with rfl | rfl <;> simp [all, Piece.base]
    | pcb p => rcases hc with rfl | rfl <;> simp [all, Piece.base]
    | top t =>
      rcases hc with rfl | rfl <;>
        simp [all, Piece.base, stackTop, Thread.stackAddr, pairScheduler, pairHeap, sub32]
  have hsep : ∀ c ∈ all, ∀ d ∈ all, c.1 ≠ d.1 →
      c.2 + c.1.size ≤ d.2 ∨ d.2 + d.1.size ≤ c.2 := by decide
  exact hsep _ (hall a ha) _ (hall b hb) hab

theorem pairScheduler_view {pcb : ℕ} (hpcb : pcb ∈ pairProcs) :
    View (pairScheduler pcb) pairThreads pairProcs 0xc0400100 [0xc0400200] := by
  refine ⟨⟨pairScheduler_apart pcb, ?_, ?_, ?_⟩, ⟨?_, ?_, ?_, ?_, ?_⟩, ?_, ?_⟩
  · rintro t (rfl | rfl) <;> decide
  · rintro t (rfl | rfl)
    · exact Or.inl rfl
    · exact hpcb
  · rintro t (rfl | rfl) <;>
      simp [stackTop, Thread.stackAddr, pairScheduler, pairHeap, sub32]
  · simp [pairScheduler, pairHeap, Queue.head, Thread.node]
  · simp [pairScheduler, pairHeap, Queue.head, Queue.tail, Thread.node]
  · simp [pairScheduler, pairHeap, Queue.head, Thread.node]
  · simp [pairScheduler, pairHeap, Queue.head, Thread.node]
  · simp [pairScheduler, pairHeap, Queue.head, Queue.tail, Thread.node]
  · simp [pairScheduler, pairHeap, stackTop, Thread.stackAddr, sub32]
  · simp [pairThreads]

end XyOS.Scheduling
