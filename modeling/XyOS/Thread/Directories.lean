import XyOS.Process.System
import XyOS.Thread.Schedule

/-! The page directory that `ThreadSwitch` loads. A `Pcb` holds the virtual address of
its directory, the kernel's holds the value of `%cr3`; `ThreadSwitch` and `SwitchPd`
both translate what they get. -/

namespace XyOS.Scheduling
open Linked Process DirectMapping Paging

variable {s s' : Scheduler} {T P : Set ℕ} {cur x : ℕ} {wait : List ℕ}

def ChangesProc (s : Scheduler) : Prop :=
  queueGetHead s.heap s.waitThreadQueue ≠ 0 ∧
    s.heap (Pcb.pid (s.heap (Thread.pcb (getCurThread s.toKernel)))) ≠
      s.heap (Pcb.pid (s.heap (Thread.pcb (threadOf (queueGetHead s.heap s.waitThreadQueue)))))

def curDir (s : Scheduler) : ℕ :=
  physical (s.heap (Pcb.pageDir (s.heap (Thread.pcb (getCurThread s.toKernel)))))

def ProcDirs (s : Scheduler) (P : Set ℕ) : Prop :=
  ∀ p ∈ P, s.heap (Pcb.pageDir p) = 0x1000 ∨
    ∃ f < 0x3f00, s.heap (Pcb.pageDir p) = kKVirtualAddr + 0x1000 * f

/-- Each of the first `n` switches that changes the process loads its directory. -/
def Cr3Follows (s : Scheduler) (n : ℕ) : Prop :=
  ∀ i < n, ChangesProc (threadSwitch^[i] s) →
    (threadSwitch^[i + 1] s).cr3 = curDir (threadSwitch^[i + 1] s)

theorem ProcDirs.kept (hd : ProcDirs s P) (h : Records s T P) (hk : Kept T P s s') : ProcDirs s' P := by
  intro p hp
  rw [Pcb.pageDir, hk.heap _ (h.fixed_pcb hp (by decide) (by decide))]
  exact hd p hp

theorem View.changesProc_iff (h : View s T P cur (x :: wait)) : ChangesProc s ↔
    s.heap (Pcb.pid (s.heap (Thread.pcb cur))) ≠ s.heap (Pcb.pid (s.heap (Thread.pcb x))) := by
  have hhead : queueGetHead s.heap s.waitThreadQueue = Thread.node x := queueGetHead_cons h.queue
  have hne : Thread.node x ≠ 0 := Nat.succ_ne_zero _
  rw [ChangesProc, hhead, h.getCurThread_eq, h.threadOf_node (h.mem x (by simp))]
  exact ⟨fun hc => hc.2, fun hc => ⟨hne, hc⟩⟩

theorem View.not_changesProc_nil (h : View s T P cur []) : ¬ ChangesProc s :=
  fun hc => hc.1 (queueGetHead_nil h.queue)

theorem switchProc_cr3 (s : Scheduler) (curPcb newPcb : ℕ) : (switchProc s curPcb newPcb).cr3 =
    directMappingPhysAddr (directMappingPhysAddr (s.heap (Pcb.pageDir newPcb))) := by
  have hset (k : Kernel) (a : ℕ) : (k.setCr3 a).cr3 = a := rfl
  simp only [switchProc, Scheduler.store, Scheduler.setHeap_cr3, Scheduler.withKernel_toKernel]
  rw [switchPd, hset]

theorem View.switch_cr3 (h : View s T P cur (x :: wait)) (hcur : cur ∉ x :: wait) (hc : ChangesProc s) :
    (threadSwitch s).cr3 =
      directMappingPhysAddr (directMappingPhysAddr (s.heap (Pcb.pageDir (s.heap (Thread.pcb x))))) := by
  have hdir := (h.requeued_kept hcur).heap _
    (h.fixed_pcb (h.pcb x (h.mem x (by simp))) (show 4 < 48 by decide) (by decide))
  obtain ⟨esp0, hswitch⟩ := h.threadSwitch_ne hcur (h.changesProc_iff.mp hc)
  rw [hswitch, switchReg, Scheduler.store, Scheduler.setEsp_toKernel,
    Scheduler.setHeap_cr3, Scheduler.setTssEsp0_cr3, switchProc_cr3, Pcb.pageDir, hdir]

theorem twice_translated {a : ℕ} (ha : a = 0x1000 ∨ ∃ f < 0x3f00, a = kKVirtualAddr + 0x1000 * f) :
    directMappingPhysAddr (directMappingPhysAddr a) ≠ physical a := by
  rcases ha with rfl | ⟨f, hf, rfl⟩
  · decide
  · rw [directMappingPhysAddr_frame hf, physical_direct (by omega), directMappingPhysAddr, sub32, kKVirtualAddr]
    omega

theorem View.switch_wrong (h : View s T P cur (x :: wait)) (hcur : cur ∉ x :: wait) (hd : ProcDirs s P)
    (hc : ChangesProc s) : (threadSwitch s).cr3 ≠ curDir (threadSwitch s) := by
  obtain ⟨hview, hkept⟩ := h.switch_cons hcur
  have hx : x ∈ T := h.mem x (by simp)
  have hsame := hkept.same h.toRecords
  have hdir := hkept.heap _ (h.fixed_pcb (h.pcb x hx) (show 4 < 48 by decide) (by decide))
  rw [h.switch_cr3 hcur hc, curDir, hview.getCurThread_eq, hsame.pcb x hx, Pcb.pageDir, hdir]
  exact twice_translated (hd _ (h.pcb x hx))

theorem View.switches (h : View s T P cur wait) (hnd : (cur :: wait).Nodup) (hd : ProcDirs s P) (n : ℕ) :
    ∃ cur' wait', (cur' :: wait').Nodup ∧ View (threadSwitch^[n] s) T P cur' wait' ∧
      ProcDirs (threadSwitch^[n] s) P := by
  induction n with
  | zero => exact ⟨cur, wait, hnd, h, hd⟩
  | succ n ih =>
    obtain ⟨cur₁, wait₁, hnd₁, h₁, hd₁⟩ := ih
    obtain ⟨cur₂, wait₂, hrot, h₂, hkept⟩ := h₁.switch hnd₁
    rw [Function.iterate_succ_apply']
    refine ⟨cur₂, wait₂, ?_, h₂, hd₁.kept h₁.toRecords hkept⟩
    rw [hrot]
    exact List.nodup_rotate.mpr hnd₁

theorem cr3_follows_iff (T P : Set ℕ) (s : Scheduler) (cur : ℕ) (wait : List ℕ) (hview : View s T P cur wait)
    (hnd : (cur :: wait).Nodup) (hdirs : ProcDirs s P) (n : ℕ) :
    Cr3Follows s n ↔ ∀ i < n, ¬ ChangesProc (threadSwitch^[i] s) := by
  refine ⟨fun hf i hi hc => ?_, fun hno i hi hc => absurd hc (hno i hi)⟩
  obtain ⟨cur', wait', hnd', hview', hdirs'⟩ := hview.switches hnd hdirs i
  have hcr3 := hf i hi hc
  rw [Function.iterate_succ_apply'] at hcr3
  cases wait' with
  | nil => exact hview'.not_changesProc_nil hc
  | cons x wait' => exact hview'.switch_wrong (List.nodup_cons.mp hnd').1 hdirs' hc hcr3

theorem pairScheduler_dirs (pcb : ℕ) : ProcDirs (pairScheduler pcb) pairProcs := by
  rintro p (rfl | rfl)
  · exact Or.inl (by simp [pairScheduler, pairHeap, Pcb.pageDir])
  · exact Or.inr ⟨0x600, by decide, by simp [pairScheduler, pairHeap, Pcb.pageDir, kKVirtualAddr]⟩

theorem cr3_follows_iff_pair : Cr3Follows (pairScheduler 0xc0300100) 1 ↔
    ∀ i < 1, ¬ ChangesProc (threadSwitch^[i] (pairScheduler 0xc0300100)) :=
  cr3_follows_iff pairThreads pairProcs _ 0xc0400100 [0xc0400200] (pairScheduler_view (Or.inr rfl))
    (by decide) (pairScheduler_dirs _) 1

/-- The directory of the second process is at `0x600000`, and `0x40600000` is loaded. -/
theorem created_directory_missed : ChangesProc (pairScheduler 0xc0300100) ∧
    (threadSwitch (pairScheduler 0xc0300100)).cr3 = 0x40600000 ∧
    curDir (threadSwitch (pairScheduler 0xc0300100)) = 0x600000 ∧
    ¬ Cr3Follows (pairScheduler 0xc0300100) 1 := by
  have hview := pairScheduler_view (show 0xc0300100 ∈ pairProcs from Or.inr rfl)
  have hcur : 0xc0400100 ∉ [0xc0400200] := by decide
  have hc : ChangesProc (pairScheduler 0xc0300100) := by
    rw [hview.changesProc_iff]
    decide
  have hcr3 : (threadSwitch (pairScheduler 0xc0300100)).cr3 = 0x40600000 := by
    rw [hview.switch_cr3 hcur hc]
    decide
  have hdir : curDir (threadSwitch (pairScheduler 0xc0300100)) = 0x600000 := by
    obtain ⟨hview', hkept⟩ := hview.switch_cons hcur
    have hpcb := (hkept.same hview.toRecords).pcb 0xc0400200 (Or.inr rfl)
    have hword := hkept.heap _ (hview.fixed_pcb (p := 0xc0300100) (Or.inr rfl) (show 4 < 48 by decide)
      (by decide))
    rw [curDir, hview'.getCurThread_eq, hpcb,
      show (pairScheduler 0xc0300100).heap (Thread.pcb 0xc0400200) = 0xc0300100 by decide, Pcb.pageDir, hword]
    decide
  refine ⟨hc, hcr3, hdir, fun hf => ?_⟩
  have hload : (threadSwitch (pairScheduler 0xc0300100)).cr3 = _ := hf 0 (by decide) hc
  rw [hcr3, Nat.zero_add, Function.iterate_one, hdir] at hload
  exact absurd hload (by decide)

end XyOS.Scheduling
