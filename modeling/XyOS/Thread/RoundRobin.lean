import XyOS.Thread.Schedule

/-! Time slices. The timer interrupts the threads at any point, and every fifteenth
interrupt passes the processor on. -/

namespace XyOS.Scheduling
open Process

variable {s s' : Scheduler} {T P : Set ℕ} {cur m : ℕ} {wait : List ℕ}

inductive Ticks (T : Set ℕ) (s : Scheduler) : ℕ → Scheduler → Prop
  | start : Ticks T s 0 s
  | tick {m : ℕ} {s₁ s₂ : Scheduler} : Ticks T s m s₁ → Undisturbed T s₁ s₂ → Ticks T s (m + 1) (timerHandler s₂)

theorem View.setTimer (h : View s T P cur wait) (timer : UInt8) : View (s.setTimer timer) T P cur wait :=
  ⟨⟨h.apart, h.bound, h.pcb, h.top⟩, h.queue, h.current, h.mem⟩

theorem threadSwitch_timer (s : Scheduler) : (threadSwitch s).timer = s.timer := by
  have henter (s : Scheduler) (p q : ℕ) : (enterProc s p q).timer = s.timer := by
    rw [enterProc]
    split
    · simp only [switchProc, Scheduler.store, Scheduler.setHeap_timer, Scheduler.withKernel_timer]
    · rfl
  rw [threadSwitch]
  split
  · rw [Scheduler.setHeap_timer]
  · simp only [switchTo, switchReg, Scheduler.store, Scheduler.setEsp_timer, Scheduler.setHeap_timer,
      Scheduler.setTssEsp0_timer, henter]

/-- The state after `m` interrupts: the threads are rotated by the full slices, and
the timer counts the current slice down. -/
structure Sliced (T P : Set ℕ) (threads : List ℕ) (m : ℕ) (s : Scheduler) : Prop where
  view : ∃ cur wait, cur :: wait = threads.rotate (m / 15) ∧ View s T P cur wait
  timer : s.timer = UInt8.ofNat (15 - m % 15)

theorem Sliced.tick {threads : List ℕ} (hnd : threads.Nodup) (h : Sliced T P threads m s)
    (hu : Undisturbed T s s') : Sliced T P threads (m + 1) (timerHandler s') := by
  obtain ⟨cur, wait, hrot, hview⟩ := h.view
  have hcount : s'.timer - 1 = UInt8.ofNat (14 - m % 15) := by
    have hall : ∀ r < 15, UInt8.ofNat (15 - r) - 1 = UInt8.ofNat (14 - r) := by decide
    rw [hu.timer, h.timer, hall _ (Nat.mod_lt m (by decide))]
  have hview' := (hview.undisturbed hu).setTimer (s'.timer - 1)
  rw [timerHandler, Scheduler.setTimer_timer]
  by_cases hlast : m % 15 = 14
  · rw [hcount, hlast, if_pos (by decide)]
    rw [hcount, hlast] at hview'
    have hdiv : (m + 1) / 15 = m / 15 + 1 := by omega
    obtain ⟨cur', wait', hrot', hswitch, -⟩ := (hview'.setTimer kTimerReset).switch
      (hrot ▸ List.nodup_rotate.mpr hnd)
    refine ⟨⟨cur', wait', ?_, hswitch⟩, ?_⟩
    · rw [hrot', hrot, List.rotate_rotate, hdiv]
    · rw [threadSwitch_timer, Scheduler.setTimer_timer, show (m + 1) % 15 = 0 by omega]
      rfl
  · have hpos : UInt8.ofNat (14 - m % 15) ≠ 0 := by
      have hall : ∀ r < 14, UInt8.ofNat (14 - r) ≠ 0 := by decide
      exact hall _ (by omega)
    rw [if_neg (by rw [hcount]; exact hpos)]
    refine ⟨⟨cur, wait, ?_, hview'⟩, ?_⟩
    · rw [hrot, show (m + 1) / 15 = m / 15 by omega]
    · rw [Scheduler.setTimer_timer, hcount, show 15 - (m + 1) % 15 = 14 - m % 15 by omega]

theorem Ticks.sliced {threads : List ℕ} (hnd : threads.Nodup) (h : Sliced T P threads 0 s)
    (hticks : Ticks T s m s') : Sliced T P threads m s' := by
  induction hticks with
  | start => exact h
  | tick _ hu ih => exact ih.tick hnd hu

/-- After `m` timer interrupts, the thread `j = m / 15` places down the ring of the
threads is the current one, and the others wait in the order of the ring. -/
theorem round_robin (T P : Set ℕ) (s : Scheduler) (t₀ : ℕ) (ts : List ℕ) (hview : View s T P t₀ ts)
    (hnd : (t₀ :: ts).Nodup) (htimer : s.timer = kTimerReset) (m : ℕ) (s' : Scheduler)
    (hticks : Ticks T s m s') (j : ℕ) (hj : j = m / 15 % (ts.length + 1)) :
    (t₀ :: ts)[j]? = some (getCurThread s'.toKernel) ∧
      IsQueue s'.heap s'.waitThreadQueue
        (((t₀ :: ts).drop (j + 1) ++ (t₀ :: ts).take j).map Thread.node) := by
  have hstart : Sliced T P (t₀ :: ts) 0 s := by
    refine ⟨⟨t₀, ts, ?_, hview⟩, htimer⟩
    rw [Nat.zero_div, List.rotate_zero]
  obtain ⟨cur, wait, hrot, hview'⟩ := (hticks.sliced hnd hstart).view
  have hlt : j < (t₀ :: ts).length := by
    rw [hj]
    exact Nat.mod_lt _ (Nat.succ_pos _)
  rw [List.rotate_eq_drop_append_take_mod, List.length_cons, ← hj, List.drop_eq_getElem_cons hlt,
    List.cons_append] at hrot
  obtain ⟨hcur, hwait⟩ := List.cons.inj hrot
  refine ⟨?_, ?_⟩
  · rw [hview'.getCurThread_eq, hcur]
    exact List.getElem?_eq_getElem hlt
  · rw [← hwait]
    exact hview'.queue

theorem round_robin_pair : ∃ s', Ticks pairThreads (pairScheduler 0xc0300000) 15 s' ∧
    some 0xc0400200 = some (getCurThread s'.toKernel) ∧
      IsQueue s'.heap s'.waitThreadQueue [Thread.node 0xc0400100] := by
  have hsame (s : Scheduler) : Undisturbed pairThreads s s := ⟨rfl, rfl, rfl, fun _ _ _ _ => rfl⟩
  have hticks : ∀ m, ∃ s', Ticks pairThreads (pairScheduler 0xc0300000) m s' := by
    intro m
    induction m with
    | zero => exact ⟨_, .start⟩
    | succ m ih =>
      obtain ⟨s, hs⟩ := ih
      exact ⟨_, hs.tick (hsame s)⟩
  obtain ⟨s', hs'⟩ := hticks 15
  exact ⟨s', hs', round_robin pairThreads pairProcs _ 0xc0400100 [0xc0400200]
    (pairScheduler_view (Or.inl rfl)) (by decide) rfl 15 s' hs' 1 rfl⟩

end XyOS.Scheduling
