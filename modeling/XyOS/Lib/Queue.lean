import XyOS.Lib.ListDefs

/-! The queues of `queue.h`: a ring of `list.h` with a second pointer to its last
node. The two members of a `Queue` are words of the same memory as the links. -/

namespace XyOS
open Linked

def Queue.head (queue : ℕ) : ℕ := queue
def Queue.tail (queue : ℕ) : ℕ := queue + 4

def enqueue (heap : ℕ → ℕ) (queue newNode : ℕ) : ℕ → ℕ :=
  let heap := listAdd heap (heap (Queue.tail queue)) newNode
  Function.update heap (Queue.tail queue) newNode

def dequeue (heap : ℕ → ℕ) (queue : ℕ) : ℕ × (ℕ → ℕ) :=
  if isListEmpty heap (heap (Queue.head queue)) then (0, heap)
  else
    let head := heap (Queue.head queue)
    let heap := if heap head = heap (Queue.tail queue) then
      Function.update heap (Queue.tail queue) head else heap
    listRemove heap (heap (Queue.head queue))

def queueGetHead (heap : ℕ → ℕ) (queue : ℕ) : ℕ :=
  if isListEmpty heap (heap (Queue.head queue)) then 0 else heap (heap (Queue.head queue))

structure IsQueue (heap : ℕ → ℕ) (queue : ℕ) (ns : List ℕ) : Prop where
  ring : Seg heap (heap (Queue.head queue)) ns (heap (Queue.head queue))
  tail : heap (Queue.tail queue) = lastFrom (heap (Queue.head queue)) ns
  nodup : (heap (Queue.head queue) :: ns).Nodup
  head_apart : Queue.head queue ∉ heap (Queue.head queue) :: ns
  tail_apart : Queue.tail queue ∉ heap (Queue.head queue) :: ns

def queueWords (heap : ℕ → ℕ) (queue : ℕ) (ns : List ℕ) : List ℕ :=
  Queue.head queue :: Queue.tail queue :: heap (Queue.head queue) :: ns

theorem Queue.head_ne_tail (queue : ℕ) : Queue.head queue ≠ Queue.tail queue := by
  unfold Queue.head Queue.tail
  omega

variable {heap heap' : ℕ → ℕ} {queue n x : ℕ} {ns : List ℕ}

theorem lastFrom_snoc {α : Type*} (p x : α) (xs : List α) : lastFrom p (xs ++ [x]) = x := by
  induction xs generalizing p with
  | nil => rfl
  | cons y ys ih => exact ih y

theorem IsQueue.congr (h : IsQueue heap queue ns)
    (he : ∀ x ∈ queueWords heap queue ns, heap' x = heap x) : IsQueue heap' queue ns := by
  have hhead : heap' (Queue.head queue) = heap (Queue.head queue) := he _ (by simp [queueWords])
  have htail : heap' (Queue.tail queue) = heap (Queue.tail queue) := he _ (by simp [queueWords])
  constructor
  · rw [hhead]
    refine h.ring.congr fun x hx => he x ?_
    simp only [queueWords, List.mem_cons] at hx ⊢
    tauto
  · rw [hhead, htail]
    exact h.tail
  · rw [hhead]
    exact h.nodup
  · rw [hhead]
    exact h.head_apart
  · rw [hhead]
    exact h.tail_apart

theorem enqueue_of_ne (h : IsQueue heap queue ns) (ht : x ≠ Queue.tail queue) (hn : x ≠ n)
    (hx : x ∉ heap (Queue.head queue) :: ns) : enqueue heap queue n x = heap x := by
  have hlast : x ≠ heap (Queue.tail queue) := by
    rintro rfl
    rw [h.tail] at hx
    exact hx (lastFrom_mem ..)
  rw [enqueue, Function.update_of_ne ht, listAdd, insertAfter_of_ne hlast hn]

theorem IsQueue.enqueue_head (h : IsQueue heap queue ns) (hn : n ≠ Queue.head queue) :
    enqueue heap queue n (Queue.head queue) = heap (Queue.head queue) :=
  enqueue_of_ne h (Queue.head_ne_tail queue) (Ne.symm hn) h.head_apart

theorem IsQueue.enqueue (h : IsQueue heap queue ns) (hn : n ∉ queueWords heap queue ns) :
    IsQueue (enqueue heap queue n) queue (ns ++ [n]) := by
  simp only [queueWords, List.mem_cons, not_or] at hn
  obtain ⟨hnh, hnt, hnr, hns⟩ := hn
  have hnr' : n ∉ heap (Queue.head queue) :: ns := by
    simp only [List.mem_cons, not_or]
    exact ⟨hnr, hns⟩
  have hhead := h.enqueue_head hnh
  have hkeep : ∀ x ∈ heap (Queue.head queue) :: (ns ++ [n]), x ≠ Queue.tail queue := by
    intro x hx e
    have := h.tail_apart
    simp only [e, List.mem_cons, List.mem_append, List.not_mem_nil, or_false] at hx this
    grind
  constructor
  · rw [hhead]
    have hring : Seg heap (heap (Queue.head queue)) (ns ++ []) (heap (Queue.head queue)) := by
      rw [List.append_nil]
      exact h.ring
    have hins := hring.insert (by simpa using h.nodup) (by simpa using hnr')
    refine hins.congr fun x hx => ?_
    rw [XyOS.enqueue, Function.update_of_ne (hkeep x hx), listAdd, h.tail]
  · rw [hhead, lastFrom_snoc]
    exact Function.update_self ..
  · rw [hhead, ← List.cons_append, List.nodup_append]
    refine ⟨h.nodup, by simp, fun a ha b hb => ?_⟩
    rw [List.mem_singleton.mp hb]
    rintro rfl
    exact hnr' ha
  · rw [hhead, ← List.cons_append, List.mem_append, not_or, List.mem_singleton]
    exact ⟨h.head_apart, Ne.symm hnh⟩
  · rw [hhead]
    exact fun hx => hkeep _ hx rfl

theorem IsQueue.notMem_enqueue (h : IsQueue heap queue ns) (hn : n ∉ queueWords heap queue ns)
    (hx : x ∉ queueWords heap queue ns) (hxn : x ≠ n) :
    x ∉ queueWords (XyOS.enqueue heap queue n) queue (ns ++ [n]) := by
  have hhead := h.enqueue_head (n := n) fun he => hn (by simp [queueWords, he])
  unfold queueWords at hx ⊢
  rw [hhead]
  simp only [List.mem_cons, List.mem_append, List.not_mem_nil, or_false, not_or] at hx ⊢
  exact ⟨hx.1, hx.2.1, hx.2.2.1, hx.2.2.2, hxn⟩

theorem IsQueue.isListEmpty_nil (h : IsQueue heap queue []) :
    isListEmpty heap (heap (Queue.head queue)) = true := by
  rw [isListEmpty, seg_nil.mp h.ring, beq_self_eq_true]

theorem IsQueue.isListEmpty_cons (h : IsQueue heap queue (n :: ns)) :
    isListEmpty heap (heap (Queue.head queue)) = false := by
  rw [isListEmpty, (seg_cons.mp h.ring).1, beq_eq_false_iff_ne]
  rintro rfl
  exact (List.nodup_cons.mp h.nodup).1 (by simp)

theorem dequeue_nil (h : IsQueue heap queue []) : dequeue heap queue = (0, heap) := by
  rw [dequeue, if_pos h.isListEmpty_nil]

theorem dequeue_cons (h : IsQueue heap queue (n :: ns)) :
    (dequeue heap queue).1 = n ∧ (dequeue heap queue).2 (Queue.tail queue) =
        (if ns = [] then heap (Queue.head queue) else heap (Queue.tail queue)) ∧
      ∀ x ≠ Queue.tail queue,
        (dequeue heap queue).2 x = removeAfter 0 heap (heap (Queue.head queue)) x := by
  have hfirst : heap (heap (Queue.head queue)) = n := (seg_cons.mp h.ring).1
  have htail := h.tail
  have hta := h.tail_apart
  have hht := Queue.head_ne_tail queue
  simp only [List.mem_cons, not_or] at hta
  obtain ⟨htr, htn, -⟩ := hta
  have hlast : n = heap (Queue.tail queue) ↔ ns = [] := by
    rw [htail, lastFrom_cons]
    cases ns with
    | nil => simp
    | cons m ms =>
      have hnm : n ∉ m :: ms := (List.nodup_cons.mp (List.nodup_cons.mp h.nodup).2).1
      refine ⟨fun e => absurd (lastFrom_mem m ms) ?_, fun e => nomatch e⟩
      rw [lastFrom_cons] at e
      rwa [← e]
  rw [dequeue, h.isListEmpty_cons, if_neg Bool.false_ne_true]
  dsimp only
  rw [hfirst]
  by_cases hns : ns = []
  · rw [if_pos (hlast.mpr hns), if_pos hns]
    simp only [listRemove, removeAfter, Function.update_of_ne hht, Function.update_of_ne (Ne.symm htr),
      hfirst, Function.update_of_ne (Ne.symm htn)]
    refine ⟨trivial, ?_, fun x hx => ?_⟩
    · rw [Function.update_of_ne htn, Function.update_of_ne htr, Function.update_self]
    · by_cases hxn : x = n
      · rw [hxn, Function.update_self, Function.update_self]
      · rw [Function.update_of_ne hxn, Function.update_of_ne hxn]
        by_cases hxh : x = heap (Queue.head queue)
        · rw [hxh, Function.update_self, Function.update_self]
        · rw [Function.update_of_ne hxh, Function.update_of_ne hxh, Function.update_of_ne hx]
  · rw [if_neg fun e => hns (hlast.mp e), if_neg hns]
    refine ⟨hfirst, ?_, fun x _ => rfl⟩
    exact removeAfter_of_ne htr (by rwa [hfirst])

theorem dequeue_of_ne (h : IsQueue heap queue (n :: ns)) (ht : x ≠ Queue.tail queue)
    (hh : x ≠ heap (Queue.head queue)) (hn : x ≠ n) : (dequeue heap queue).2 x = heap x := by
  rw [(dequeue_cons h).2.2 x ht, removeAfter_of_ne hh]
  rwa [(seg_cons.mp h.ring).1]

theorem IsQueue.dequeue (h : IsQueue heap queue (n :: ns)) :
    IsQueue (dequeue heap queue).2 queue ns := by
  obtain ⟨-, htail, hlinks⟩ := dequeue_cons h
  have hha := h.head_apart
  simp only [List.mem_cons, not_or] at hha
  have hhead : (XyOS.dequeue heap queue).2 (Queue.head queue) = heap (Queue.head queue) :=
    dequeue_of_ne h (Queue.head_ne_tail queue) hha.1 hha.2.1
  have hnd : (heap (Queue.head queue) :: ns).Nodup := by
    have := h.nodup
    grind
  constructor
  · rw [hhead]
    have hring : Seg heap (heap (Queue.head queue)) ([] ++ n :: ns) (heap (Queue.head queue)) := h.ring
    have hleft : Seg (listRemove heap (heap (Queue.head queue))).2 (heap (Queue.head queue)) ns
        (heap (Queue.head queue)) := hring.erase h.nodup
    refine hleft.congr fun x hx => hlinks x ?_
    rintro rfl
    refine h.tail_apart ?_
    simp only [List.mem_cons] at hx ⊢
    tauto
  · rw [hhead, htail]
    cases ns with
    | nil => rfl
    | cons m ms => exact h.tail
  · rw [hhead]
    exact hnd
  · rw [hhead]
    exact fun hx => h.head_apart (by simp only [List.mem_cons] at hx ⊢; tauto)
  · rw [hhead]
    exact fun hx => h.tail_apart (by simp only [List.mem_cons] at hx ⊢; tauto)

theorem queueGetHead_nil (h : IsQueue heap queue []) : queueGetHead heap queue = 0 := by
  rw [queueGetHead, if_pos h.isListEmpty_nil]

theorem queueGetHead_cons (h : IsQueue heap queue (n :: ns)) : queueGetHead heap queue = n := by
  rw [queueGetHead, h.isListEmpty_cons]
  exact (seg_cons.mp h.ring).1

end XyOS
