import XyOS.Foundation.Runs
import XyOS.Thread.Schedule

/-! Blocking. `ThreadSleep` links the current thread into the block list and then
switches like a time slice does, which puts the thread back into the queue. -/

namespace XyOS.Scheduling
open Linked Runs Process

inductive SchedOp
  | switch
  | sleep
  | wake (thread : ℕ)
  | wakeAll (threads : List ℕ)

def Scheduler.exec (s : Scheduler) : SchedOp → Except Fault Scheduler
  | .switch => .ok (threadSwitch s)
  | .sleep => .ok (threadSleep s)
  | .wake thread => threadWake s thread
  | .wakeAll threads => threadWakeAll s threads

def SchedOp.Names (thread : ℕ) : SchedOp → Prop
  | .wake t => t = thread
  | .wakeAll ts => thread ∈ ts
  | _ => False

/-- If the current thread sleeps now, no `ThreadSwitch` selects it before a call of
`ThreadWake` names it, and that call puts it into the queue once. -/
structure SleepsUntilWoken (s : Scheduler) : Prop where
  asleep : ∀ ops s', (∀ op ∈ ops, ¬ op.Names (getCurThread s.toKernel)) →
    run Scheduler.exec (threadSleep s) ops = .ok s' → getCurThread s'.toKernel ≠ getCurThread s.toKernel
  woken : ∀ ops s' s'', (∀ op ∈ ops, ¬ op.Names (getCurThread s.toKernel)) →
    run Scheduler.exec (threadSleep s) ops = .ok s' → threadWake s' (getCurThread s.toKernel) = .ok s'' →
    ∃ ns, IsQueue s''.heap s''.waitThreadQueue ns ∧ ns.count (Thread.node (getCurThread s.toKernel)) = 1

def BlockApart (s : Scheduler) (T P : Set ℕ) : Prop :=
  ∀ a : Piece, a.Scheduled T P → s.blockThreadList + 4 ≤ a.base s ∨ a.base s + a.size ≤ s.blockThreadList

variable {s s' : Scheduler} {T P : Set ℕ} {cur x : ℕ} {wait : List ℕ}

theorem BlockApart.ne (hb : BlockApart s T P) {a : Piece} (ha : a.Scheduled T P) {o : ℕ} (ho : o < a.size) :
    a.base s + o ≠ s.blockThreadList := by
  have := hb a ha
  omega

theorem View.blocked (h : View s T P cur wait) (hcur : cur ∉ wait) (hb : BlockApart s T P) :
    View (s.setHeap (listAdd s.heap s.blockThreadList (Thread.node cur))) T P cur wait := by
  have hmem : cur ∈ T := h.mem cur List.mem_cons_self
  have hsame : ∀ a : Piece, a.Scheduled T P → ∀ o < a.size, a ≠ .thread cur ∨ o ≠ 16 →
      listAdd s.heap s.blockThreadList (Thread.node cur) (a.base s + o) = s.heap (a.base s + o) := by
    intro a ha o ho hne
    refine insertAfter_of_ne (hb.ne ha ho) fun he => ?_
    obtain ⟨rfl, rfl⟩ := h.apart.word_inj (b := Piece.thread cur) ha hmem ho (show 16 < 24 by decide) he
    simp at hne
  have hrec : SameRecords T s (s.setHeap (listAdd s.heap s.blockThreadList (Thread.node cur))) := by
    refine ⟨rfl, ?_, fun t ht => ?_, fun t ht => ?_, fun t ht => ?_⟩
    · exact hsame .queue trivial 0 (by decide) (Or.inr (by decide))
    · exact hsame (.thread t) ht 4 (show 4 < 24 by decide) (Or.inr (by decide))
    · exact hsame (.thread t) ht 8 (show 8 < 24 by decide) (Or.inr (by decide))
    · have htop := hsame (.top t) ht 0 (show 0 < 4 by decide) (Or.inr (by decide))
      rw [Nat.add_zero, Piece.base] at htop
      rw [Scheduler.setHeap_heap, htop]
  refine ⟨h.toRecords.congr hrec, h.queue.congr fun z hz => ?_, ?_, h.mem⟩
  · simp only [queueWords, List.mem_cons, List.mem_map] at hz
    rcases hz with rfl | rfl | rfl | ⟨t, ht, rfl⟩
    · exact hsame .queue trivial 0 (by decide) (Or.inr (by decide))
    · exact hsame .queue trivial 4 (by decide) (Or.inr (by decide))
    · exact hsame .waitHead trivial 0 (by decide) (Or.inr (by decide))
    · refine hsame (.thread t) (h.mem t (List.mem_cons_of_mem _ ht)) 16 (show 16 < 24 by decide) ?_
      refine Or.inl fun he => hcur ?_
      rwa [← Piece.thread.inj he]
  · rw [hrec.stackTop_eq hmem]
    exact h.current

theorem View.sleep_cons (h : View s T P cur (x :: wait)) (hcur : cur ∉ x :: wait)
    (hb : BlockApart s T P) : View (threadSleep s) T P x (wait ++ [cur]) := by
  have hview := (h.blocked hcur hb).switch_cons hcur
  rw [threadSleep, h.getCurThread_eq]
  exact hview.1

theorem View.selected {before after : List ℕ} (h : View s T P cur (before ++ x :: after))
    (hnd : (cur :: (before ++ x :: after)).Nodup) :
    ∃ s', run Scheduler.exec s (List.replicate (before.length + 1) .switch) = .ok s' ∧
      getCurThread s'.toKernel = x := by
  induction before generalizing s cur after with
  | nil =>
    have hview := (h.switch_cons (List.nodup_cons.mp hnd).1).1
    exact ⟨threadSwitch s, rfl, hview.getCurThread_eq⟩
  | cons y before ih =>
    have hview := (h.switch_cons (List.nodup_cons.mp hnd).1).1
    rw [List.append_eq, List.append_assoc, List.cons_append] at hview
    have hnd' : (y :: (before ++ x :: (after ++ [cur]))).Nodup := by
      have hperm : (cur :: (y :: before ++ x :: after)).Perm (y :: (before ++ x :: (after ++ [cur]))) := by
        have := List.perm_append_singleton cur (y :: (before ++ x :: after))
        simpa using this.symm
      exact hperm.nodup_iff.mp hnd
    obtain ⟨s', hrun, hcur⟩ := ih hview hnd'
    exact ⟨s', (run_cons rfl).trans hrun, hcur⟩

/-- A thread that sleeps while another one waits is selected again, in its turn,
without being woken. -/
theorem sleep_never_blocks (T P : Set ℕ) (s : Scheduler) (cur : ℕ) (wait : List ℕ)
    (hview : View s T P cur wait) (hnd : (cur :: wait).Nodup) (hblock : BlockApart s T P)
    (hwait : wait ≠ []) : ¬ SleepsUntilWoken s := by
  intro hsleep
  obtain ⟨x, wait, rfl⟩ := List.exists_cons_of_ne_nil hwait
  have hslept := hview.sleep_cons (List.nodup_cons.mp hnd).1 hblock
  have hnd' : (x :: (wait ++ [cur])).Nodup := by
    have hperm := List.perm_append_singleton cur (x :: wait)
    exact hperm.nodup_iff.mpr hnd
  obtain ⟨s', hrun, hcur⟩ := hslept.selected hnd'
  refine hsleep.asleep _ s' (fun op hop => ?_) hrun ?_
  · rw [(List.mem_replicate.mp hop).2]
    exact id
  · rw [hcur, hview.getCurThread_eq]

theorem pairScheduler_blockApart (pcb : ℕ) : BlockApart (pairScheduler pcb) pairThreads pairProcs := by
  intro a ha
  cases a with
  | freeHead => exact ha.elim
  | queue => simp [Piece.base, Piece.size, pairScheduler, queueBytes]
  | waitHead => simp [Piece.base, Piece.size, pairScheduler, pairHeap]
  | blockHead => exact ha.elim
  | thread t => rcases ha with rfl | rfl <;> simp [Piece.base, Piece.size, pairScheduler, threadBytes]
  | pcb p => rcases ha with rfl | rfl <;> simp [Piece.base, Piece.size, pairScheduler, pcbBytes]
  | top t =>
    rcases ha with rfl | rfl <;>
      simp [Piece.base, Piece.size, stackTop, Thread.stackAddr, pairScheduler, pairHeap, sub32]

theorem sleep_never_blocks_pair : ¬ SleepsUntilWoken (pairScheduler 0xc0300000) :=
  sleep_never_blocks pairThreads pairProcs _ 0xc0400100 [0xc0400200] (pairScheduler_view (Or.inl rfl))
    (by decide) (pairScheduler_blockApart _) (by decide)

theorem sleeper_selected : getCurThread (pairScheduler 0xc0300000).toKernel = 0xc0400100 ∧
    (∃ s', run Scheduler.exec (threadSleep (pairScheduler 0xc0300000)) [.switch] = .ok s' ∧
      getCurThread s'.toKernel = 0xc0400100) ∧ ¬ SleepsUntilWoken (pairScheduler 0xc0300000) := by
  have hview := pairScheduler_view (show 0xc0300000 ∈ pairProcs from Or.inl rfl)
  have hslept := hview.sleep_cons (by decide) (pairScheduler_blockApart _)
  obtain ⟨s', hrun, hcur⟩ := View.selected (show View _ _ _ _ ([] ++ _ :: _) from hslept) (by decide)
  refine ⟨hview.getCurThread_eq, ⟨s', hrun, hcur⟩, fun hsleep => hsleep.asleep [.switch] s' ?_ hrun ?_⟩
  · simp [SchedOp.Names]
  · rw [hcur, hview.getCurThread_eq]

end XyOS.Scheduling
