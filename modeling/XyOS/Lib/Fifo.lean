import XyOS.Foundation.Runs
import XyOS.Lib.Queue

/-! The queues of `queue.h` refine lists from which the first element is taken. -/

namespace XyOS
open Linked Runs

inductive QueueOp (α : Type*)
  | enqueue (newNode : α)
  | dequeue
  | getHead

/-- The elements of a queue, the next one to leave first, and those that left it and were not
put back. -/
structure Fifo (α : Type*) where
  elems : List α
  out : List α

/-- What a call answers, `none` for `NULL` and for a call without an answer. -/
def fifoStep {α : Type*} [DecidableEq α] (f : Fifo α) : QueueOp α → Option α × Fifo α
  | .enqueue x => (none, ⟨f.elems ++ [x], f.out.filter (· ≠ x)⟩)
  | .dequeue =>
    match f.elems with
    | [] => (none, f)
    | x :: xs => (some x, ⟨xs, x :: f.out⟩)
  | .getHead => (f.elems.head?, f)

def pointer (p : ℕ) : Option ℕ := if p = 0 then none else some p

def queueStep (queue : ℕ) (heap : ℕ → ℕ) : QueueOp ℕ → Option ℕ × (ℕ → ℕ)
  | .enqueue newNode => (none, enqueue heap queue newNode)
  | .dequeue => (pointer (dequeue heap queue).1, (dequeue heap queue).2)
  | .getHead => (pointer (queueGetHead heap queue), heap)

/-- The caller puts in nodes of its own that are not in the queue. -/
def Enqueueable (queue head : ℕ) (f : Fifo ℕ) : QueueOp ℕ → Prop
  | .enqueue newNode => newNode ≠ 0 ∧ newNode ∉ f.elems ∧
      newNode ∉ [Queue.head queue, Queue.tail queue, head]
  | _ => True

/-- The queue holds the elements of the list, and a node that left it has a `NULL` link and can be put
back. -/
structure HoldsFifo (queue head : ℕ) (heap : ℕ → ℕ) (f : Fifo ℕ) : Prop where
  isQueue : IsQueue heap queue f.elems
  sentinel : heap (Queue.head queue) = head
  valid : ∀ x ∈ f.elems, x ≠ 0 ∧ x ∉ [Queue.head queue, Queue.tail queue, head]
  out : ∀ x ∈ f.out, heap x = 0 ∧ Enqueueable queue head f (.enqueue x)

variable {queue head n : ℕ} {heap : ℕ → ℕ} {f : Fifo ℕ}

theorem pointer_of_ne {p : ℕ} (h : p ≠ 0) : pointer p = some p := if_neg h

theorem HoldsFifo.enqueue (h : HoldsFifo queue head heap f) (hn : Enqueueable queue head f (.enqueue n)) :
    HoldsFifo queue head (XyOS.enqueue heap queue n) (fifoStep f (.enqueue n)).2 := by
  obtain ⟨hzero, helems, hwords⟩ := hn
  have hnot : n ∉ queueWords heap queue f.elems := by
    rw [queueWords, h.sentinel]
    simp only [List.mem_cons, List.not_mem_nil, or_false, not_or] at hwords ⊢
    exact ⟨hwords.1, hwords.2.1, hwords.2.2, helems⟩
  have hhead : n ≠ Queue.head queue := fun he => hwords (he ▸ List.mem_cons_self)
  refine ⟨h.isQueue.enqueue hnot, ?_, fun x hx => ?_, fun x hx => ?_⟩
  · rw [h.isQueue.enqueue_head hhead, h.sentinel]
  · obtain hx | hx := List.mem_append.mp hx
    · exact h.valid x hx
    · rw [List.mem_singleton.mp hx]
      exact ⟨hzero, hwords⟩
  · obtain ⟨hx, hxn⟩ := List.mem_filter.mp hx
    have hxn : x ≠ n := of_decide_eq_true hxn
    obtain ⟨hnull, hxzero, hxelems, hxwords⟩ := h.out x hx
    refine ⟨?_, hxzero, ?_, hxwords⟩
    · simp only [List.mem_cons, List.not_mem_nil, or_false, not_or] at hxwords
      rw [enqueue_of_ne h.isQueue hxwords.2.1 hxn, hnull]
      rw [h.sentinel, List.mem_cons, not_or]
      exact ⟨hxwords.2.2, hxelems⟩
    · rw [fifoStep, List.mem_append, List.mem_singleton, not_or]
      exact ⟨hxelems, hxn⟩

theorem HoldsFifo.dequeue {xs : List ℕ} (h : HoldsFifo queue head heap ⟨n :: xs, f.out⟩) :
    (XyOS.dequeue heap queue).1 = n ∧ n ≠ 0 ∧
      HoldsFifo queue head (XyOS.dequeue heap queue).2 ⟨xs, n :: f.out⟩ := by
  obtain ⟨hfirst, -, hlinks⟩ := dequeue_cons h.isQueue
  obtain ⟨hzero, hwords⟩ := h.valid n List.mem_cons_self
  have hnd := (List.nodup_cons.mp h.isQueue.nodup).2
  have happart := h.isQueue.head_apart
  rw [h.sentinel, List.mem_cons, not_or] at happart
  refine ⟨hfirst, hzero, h.isQueue.dequeue, ?_, fun x hx => ?_, fun x hx => ?_⟩
  · rw [dequeue_of_ne h.isQueue (Queue.head_ne_tail queue) (by rw [h.sentinel]; exact happart.1), h.sentinel]
    exact fun he => happart.2 (he ▸ List.mem_cons_self)
  · exact h.valid x (List.mem_cons_of_mem _ hx)
  · obtain rfl | hx := List.mem_cons.mp hx
    · refine ⟨?_, hzero, (List.nodup_cons.mp hnd).1, hwords⟩
      have hnext : heap (heap (Queue.head queue)) = x := (seg_cons.mp h.isQueue.ring).1
      rw [hlinks x fun he => hwords (by simp [he]), removeAfter, hnext, Function.update_self]
    · obtain ⟨hnull, hxzero, hxelems, hxwords⟩ := h.out x hx
      rw [List.mem_cons, not_or] at hxelems
      refine ⟨?_, hxzero, hxelems.2, hxwords⟩
      simp only [List.mem_cons, List.not_mem_nil, or_false, not_or] at hxwords
      rw [dequeue_of_ne h.isQueue hxwords.2.1 (by rw [h.sentinel]; exact hxwords.2.2) hxelems.1, hnull]

theorem queueStep_refines (h : HoldsFifo queue head heap f) {op : QueueOp ℕ} (hop : Enqueueable queue head f op) :
    (queueStep queue heap op).1 = (fifoStep f op).1 ∧
      HoldsFifo queue head (queueStep queue heap op).2 (fifoStep f op).2 := by
  obtain ⟨elems, out⟩ := f
  cases op with
  | enqueue n => exact ⟨rfl, h.enqueue hop⟩
  | dequeue =>
    cases elems with
    | nil =>
      rw [queueStep, dequeue_nil h.isQueue]
      exact ⟨rfl, h⟩
    | cons n xs =>
      obtain ⟨hfirst, hzero, hfifo⟩ := h.dequeue (f := ⟨n :: xs, out⟩)
      rw [queueStep, hfirst]
      exact ⟨pointer_of_ne hzero, hfifo⟩
  | getHead =>
    refine ⟨?_, h⟩
    cases elems with
    | nil =>
      rw [queueStep, queueGetHead_nil h.isQueue]
      rfl
    | cons n xs =>
      rw [queueStep, queueGetHead_cons h.isQueue]
      exact pointer_of_ne (h.valid n List.mem_cons_self).1

end XyOS
