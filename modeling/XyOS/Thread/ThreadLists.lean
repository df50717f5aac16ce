import XyOS.Thread.Schedule

/-! The lists that a thread is linked into by its member `node`: the free threads,
the queue, the blocked threads and the threads of each process. -/

namespace XyOS.Scheduling
open Linked Process

inductive ThreadSlot
  | free
  | wait
  | block
  | threads (p : ℕ)
deriving DecidableEq

def threadHead (s : Scheduler) : ThreadSlot → ℕ
  | .free => s.freeThreadList
  | .wait => s.heap s.waitThreadQueue
  | .block => s.blockThreadList
  | .threads p => Pcb.threadList p

def threadSlots (P : Set ℕ) : Set ThreadSlot := {i | ∀ p, i = .threads p → p ∈ P}

/-- All lists are rings, and no node is in two of them. -/
def OnePlace (s : Scheduler) (P : Set ℕ) : Prop :=
  ∃ ls, Family s.heap (threadSlots P) (threadHead s) (threadHead s) ls

/-- The rings hold `ls`, and the words of the `Queue` are no links. -/
structure ThreadLists (s : Scheduler) (P : Set ℕ) (ls : ThreadSlot → List ℕ) : Prop where
  rings : Family s.heap (threadSlots P) (threadHead s) (threadHead s) ls
  tail : s.heap (Queue.tail s.waitThreadQueue) = lastFrom (s.heap s.waitThreadQueue) (ls .wait)
  head_loose : Loose (threadSlots P) (threadHead s) ls (Queue.head s.waitThreadQueue)
  tail_loose : Loose (threadSlots P) (threadHead s) ls (Queue.tail s.waitThreadQueue)

theorem free_mem_threadSlots (P : Set ℕ) : ThreadSlot.free ∈ threadSlots P := fun _ h => nomatch h

theorem wait_mem_threadSlots (P : Set ℕ) : ThreadSlot.wait ∈ threadSlots P := fun _ h => nomatch h

theorem block_mem_threadSlots (P : Set ℕ) : ThreadSlot.block ∈ threadSlots P := fun _ h => nomatch h

theorem threads_mem_threadSlots {P : Set ℕ} {p : ℕ} (hp : p ∈ P) : ThreadSlot.threads p ∈ threadSlots P :=
  fun _ h => ThreadSlot.threads.inj h ▸ hp

structure SameHeads (s s' : Scheduler) : Prop where
  free : s'.freeThreadList = s.freeThreadList
  queue : s'.waitThreadQueue = s.waitThreadQueue
  block : s'.blockThreadList = s.blockThreadList
  wait : s'.heap s.waitThreadQueue = s.heap s.waitThreadQueue

variable {s s' : Scheduler} {P : Set ℕ} {ls : ThreadSlot → List ℕ} {n d z : ℕ} {ns : List ℕ} {i : ThreadSlot}

theorem SameHeads.trans {s'' : Scheduler} (h : SameHeads s s') (h' : SameHeads s' s'') : SameHeads s s'' :=
  ⟨h'.free.trans h.free, h'.queue.trans h.queue, h'.block.trans h.block, by rw [← h.wait, ← h.queue, h'.wait]⟩

theorem SameHeads.threadHead_eq (h : SameHeads s s') : threadHead s' = threadHead s := by
  funext i
  cases i with
  | free => exact h.free
  | wait => rw [threadHead, h.queue, h.wait, threadHead]
  | block => exact h.block
  | threads p => rfl

namespace ThreadLists

theorem congr (h : ThreadLists s P ls) (hs : SameHeads s s')
    (htail : s'.heap (Queue.tail s.waitThreadQueue) = s.heap (Queue.tail s.waitThreadQueue))
    (heq : ∀ z, ¬ Loose (threadSlots P) (threadHead s) ls z → s'.heap z = s.heap z) : ThreadLists s' P ls := by
  constructor
  · rw [hs.threadHead_eq]
    exact h.rings.congr heq
  · rw [hs.queue, htail, hs.wait]
    exact h.tail
  · rw [hs.threadHead_eq, hs.queue]
    exact h.head_loose
  · rw [hs.threadHead_eq, hs.queue]
    exact h.tail_loose

theorem isQueue (h : ThreadLists s P ls) : IsQueue s.heap s.waitThreadQueue (ls .wait) where
  ring := h.rings.seg .wait (wait_mem_threadSlots P)
  tail := h.tail
  nodup := h.rings.nodup .wait (wait_mem_threadSlots P)
  head_apart := h.head_loose .wait (wait_mem_threadSlots P)
  tail_apart := h.tail_loose .wait (wait_mem_threadSlots P)

theorem enqueue_of_loose (h : ThreadLists s P ls) (hz : Loose (threadSlots P) (threadHead s) ls z)
    (htail : z ≠ Queue.tail s.waitThreadQueue) (hn : z ≠ n) :
    XyOS.enqueue s.heap s.waitThreadQueue n z = s.heap z :=
  enqueue_of_ne h.isQueue htail hn (hz .wait (wait_mem_threadSlots P))

theorem dequeue_of_loose (h : ThreadLists s P ls) (hz : Loose (threadSlots P) (threadHead s) ls z)
    (htail : z ≠ Queue.tail s.waitThreadQueue) : (XyOS.dequeue s.heap s.waitThreadQueue).2 z = s.heap z := by
  have hring := hz .wait (wait_mem_threadSlots P)
  have hqueue := h.isQueue
  cases hls : ls .wait with
  | nil =>
    rw [hls] at hqueue
    rw [dequeue_nil hqueue]
  | cons n ns =>
    rw [hls] at hqueue
    simp only [hls, List.mem_cons, not_or] at hring
    exact dequeue_of_ne hqueue htail hring.1 hring.2.1

theorem enqueue (h : ThreadLists s P ls) (hn : Loose (threadSlots P) (threadHead s) ls n)
    (hhead : n ≠ Queue.head s.waitThreadQueue) (htail : n ≠ Queue.tail s.waitThreadQueue) :
    ThreadLists (s.setHeap (enqueue s.heap s.waitThreadQueue n)) P
      (Function.update ls .wait (ls .wait ++ [n])) := by
  have hwait := wait_mem_threadSlots P
  have hsame : SameHeads s (s.setHeap (XyOS.enqueue s.heap s.waitThreadQueue n)) :=
    ⟨rfl, rfl, rfl, enqueue_of_ne h.isQueue (Queue.head_ne_tail _) hhead.symm (h.head_loose .wait hwait)⟩
  have hend : ls .wait = ls .wait ++ [] := (List.append_nil _).symm
  have htail' := h.tail_loose.add hend htail.symm
  have hins := h.rings.insert hwait hend hn
  constructor
  · rw [hsame.threadHead_eq]
    refine hins.congr fun z hz => ?_
    have hzt : z ≠ Queue.tail s.waitThreadQueue := by
      rintro rfl
      exact hz htail'
    rw [Scheduler.setHeap_heap, XyOS.enqueue, Function.update_of_ne hzt, listAdd, h.tail, threadHead]
  · rw [Function.update_self, lastFrom_snoc]
    exact Function.update_self ..
  · rw [hsame.threadHead_eq]
    exact h.head_loose.add hend hhead.symm
  · rw [hsame.threadHead_eq]
    exact htail'

theorem dequeue (h : ThreadLists s P ls) (hls : ls .wait = n :: ns) :
    ThreadLists (s.setHeap (dequeue s.heap s.waitThreadQueue).2) P (Function.update ls .wait ns) ∧
      Loose (threadSlots P) (threadHead s) (Function.update ls .wait ns) n ∧
      SameHeads s (s.setHeap (XyOS.dequeue s.heap s.waitThreadQueue).2) := by
  have hwait := wait_mem_threadSlots P
  have hqueue := h.isQueue
  rw [hls] at hqueue
  obtain ⟨-, htail, hlinks⟩ := dequeue_cons hqueue
  have hsplit : ls .wait = [] ++ n :: ns := hls
  obtain ⟨hrings, hn⟩ := h.rings.erase 0 hwait hsplit
  have hhead := hqueue.head_apart
  simp only [List.mem_cons, not_or] at hhead
  have hsame : SameHeads s (s.setHeap (XyOS.dequeue s.heap s.waitThreadQueue).2) :=
    ⟨rfl, rfl, rfl, dequeue_of_ne hqueue (Queue.head_ne_tail _) hhead.1 hhead.2.1⟩
  refine ⟨⟨?_, ?_, ?_, ?_⟩, hn, hsame⟩
  · rw [hsame.threadHead_eq]
    refine hrings.congr fun z hz => hlinks z ?_
    rintro rfl
    exact hz (h.tail_loose.drop hsplit)
  · rw [Function.update_self]
    exact hqueue.dequeue.tail
  · rw [hsame.threadHead_eq]
    exact h.head_loose.drop hsplit
  · rw [hsame.threadHead_eq]
    exact h.tail_loose.drop hsplit

theorem push (h : ThreadLists s P ls) (hi : i ∈ threadSlots P) (hwait : i ≠ .wait)
    (hn : Loose (threadSlots P) (threadHead s) ls n)
    (hhead : n ≠ Queue.head s.waitThreadQueue) (htail : n ≠ Queue.tail s.waitThreadQueue) :
    ThreadLists (s.setHeap (listAdd s.heap (threadHead s i) n)) P (Function.update ls i (n :: ls i)) ∧
      SameHeads s (s.setHeap (listAdd s.heap (threadHead s i) n)) := by
  have hqh : Queue.head s.waitThreadQueue ≠ threadHead s i := fun he =>
    h.head_loose i hi (he ▸ List.mem_cons_self)
  have hqt : Queue.tail s.waitThreadQueue ≠ threadHead s i := fun he =>
    h.tail_loose i hi (he ▸ List.mem_cons_self)
  have hsame : SameHeads s (s.setHeap (listAdd s.heap (threadHead s i) n)) :=
    ⟨rfl, rfl, rfl, insertAfter_of_ne hqh hhead.symm⟩
  have hfirst : ls i = [] ++ ls i := rfl
  refine ⟨⟨?_, ?_, ?_, ?_⟩, hsame⟩
  · rw [hsame.threadHead_eq]
    exact h.rings.insert hi hfirst hn
  · rw [Function.update_of_ne hwait.symm, hsame.queue, hsame.wait, ← h.tail]
    exact insertAfter_of_ne hqt htail.symm
  · rw [hsame.threadHead_eq]
    exact h.head_loose.add hfirst hhead.symm
  · rw [hsame.threadHead_eq]
    exact h.tail_loose.add hfirst htail.symm

theorem remove (h : ThreadLists s P ls) (hi : i ∈ threadSlots P) (hwait : i ≠ .wait) {xs ys : List ℕ}
    (hls : ls i = xs ++ d :: ys) :
    ThreadLists (s.setHeap (listRemove s.heap (lastFrom (threadHead s i) xs)).2) P
        (Function.update ls i (xs ++ ys)) ∧
      Loose (threadSlots P) (threadHead s) (Function.update ls i (xs ++ ys)) d ∧
      SameHeads s (s.setHeap (listRemove s.heap (lastFrom (threadHead s i) xs)).2) := by
  obtain ⟨hrings, hd⟩ := h.rings.erase 0 hi hls
  have hnext : s.heap (lastFrom (threadHead s i) xs) = d := h.rings.next_last hi hls
  have hmem : ∀ z ∈ [lastFrom (threadHead s i) xs, d], z ∈ threadHead s i :: ls i := by
    intro z hz
    rw [hls]
    simp only [List.mem_cons, List.not_mem_nil, or_false] at hz
    rcases hz with rfl | rfl
    · exact lastFrom_mem_append ..
    · simp
  have hkeep : ∀ z, Loose (threadSlots P) (threadHead s) ls z →
      (listRemove s.heap (lastFrom (threadHead s i) xs)).2 z = s.heap z := by
    intro z hz
    refine removeAfter_of_ne (fun he => ?_) fun he => ?_
    · exact hz i hi (hmem z (by simp [he]))
    · exact hz i hi (hmem z (by simp [he, hnext]))
  have hsame : SameHeads s (s.setHeap (listRemove s.heap (lastFrom (threadHead s i) xs)).2) :=
    ⟨rfl, rfl, rfl, hkeep _ h.head_loose⟩
  refine ⟨⟨?_, ?_, ?_, ?_⟩, hd, hsame⟩
  · rw [hsame.threadHead_eq]
    exact hrings
  · rw [Function.update_of_ne hwait.symm, hsame.queue, hsame.wait, ← h.tail]
    exact hkeep _ h.tail_loose
  · rw [hsame.threadHead_eq]
    exact h.head_loose.drop hls
  · rw [hsame.threadHead_eq]
    exact h.tail_loose.drop hls

end ThreadLists

end XyOS.Scheduling
