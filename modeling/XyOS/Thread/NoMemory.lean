import XyOS.Process.System
import XyOS.Thread.Places

/-! `CreateThread` and `CreateProc` when no memory is left: neither tests what `ReqBytes`
returned. -/

namespace XyOS.Scheduling
open Linked Runs Process DirectMapping

variable {s : Scheduler} {pcb father R m p : ℕ} {alloc : Allocator} {size : ℤ}

theorem createProc_empty {k : Kernel} (hempty : isListEmpty k.heap k.freeProcList = true) :
    createProc k father = .ok (0, k) := by
  rw [createProc, hempty, if_pos rfl]

theorem record_ne_zero {node offset : ℕ} (hlow : kKVirtualAddr ≤ node) (hlt : node < 2 ^ 32)
    (hoff : offset < kKVirtualAddr) : sub32 node offset ≠ 0 := by
  rw [sub32_of_le (by omega) hlt]
  omega

theorem creation_atomic_iff (s : Scheduler) (pcb father : ℕ)
    (hthread : kKVirtualAddr ≤ s.heap s.freeThreadList ∧ s.heap s.freeThreadList < 2 ^ 32)
    (hproc : kKVirtualAddr ≤ s.heap s.freeProcList ∧ s.heap s.freeProcList < 2 ^ 32) :
    (∀ alloc, DirectMapping.reqBytes s.alloc kKStackSize = .ok (0, alloc) →
      (createThread s pcb = .ok (0, s) ↔ isListEmpty s.heap s.freeThreadList = true)) ∧
    (∀ alloc, DirectMapping.reqBytes s.alloc Paging.kPdSize = .ok (0, alloc) →
      (createProc s.toKernel father = .ok (0, s.toKernel) ↔
        isListEmpty s.heap s.freeProcList = true)) := by
  constructor
  · intro alloc hreq
    refine ⟨fun hnull => ?_, createThread_empty⟩
    by_contra hempty
    rw [createThread_eq (Bool.not_eq_true _ ▸ hempty) rfl hreq] at hnull
    exact record_ne_zero hthread.1 hthread.2 (by decide) (Prod.mk.inj (Except.ok.inj hnull)).1
  · intro _ _
    refine ⟨fun hnull => ?_, createProc_empty⟩
    by_contra hempty
    have hpcb := createProc_fst (Bool.not_eq_true _ ▸ hempty) hnull
    exact record_ne_zero hproc.1 hproc.2 (by decide) hpcb.symm

/-! ## A machine without free memory -/

theorem reqBytes_drain (h : Invariant R alloc alloc.lists) (hm : m < 26)
    (hfree : alloc.lists (.free m) = [p]) (hsize : getMemBlockSizeType size = m) :
    ∃ a alloc', DirectMapping.reqBytes alloc size = .ok (a, alloc') ∧ Invariant R alloc' alloc'.lists ∧
      alloc'.lists (.free m) = [] ∧ ∀ j < 26, j ≠ m → alloc'.lists (.free j) = alloc.lists (.free j) := by
  obtain ⟨alloc', hreq, hg⟩ := h.grant_fit hm hfree hsize
  have hlists : ∀ j < 26, alloc'.lists (.free j) = takeLists alloc.blockAddr alloc.lists m p [] (.free j) :=
    fun j hj => hg.inv.sound.repr.lists_eq (free_mem_slots.mpr hj)
  refine ⟨_, alloc', hreq, hg.inv.lists, ?_, fun j hj hne => ?_⟩
  · rw [hlists m hm, takeLists_free_self]
  · rw [hlists j hj, takeLists_free_of_ne hne]

def bootBlocks : ℕ → List ℕ
  | 0 => []
  | d + 1 => 2 ^ (21 + d) :: bootBlocks d

theorem reqAll_drain {d : ℕ} (h : Invariant R alloc alloc.lists) (hd : d ≤ 5)
    (hone : ∀ j, 21 ≤ j → j < 21 + d → ∃ p, alloc.lists (.free j) = [p])
    (hnone : ∀ j < 26, j < 21 ∨ 21 + d ≤ j → alloc.lists (.free j) = []) :
    ∃ as alloc', reqAll alloc (bootBlocks d) = .ok (as, alloc') ∧ Invariant R alloc' alloc'.lists ∧
      ∀ j < 26, alloc'.lists (.free j) = [] := by
  induction d generalizing alloc with
  | zero => exact ⟨[], alloc, rfl, h, fun j hj => hnone j hj (by omega)⟩
  | succ d ih =>
    obtain ⟨p, hp⟩ := hone (21 + d) (by omega) (by omega)
    have hsize : ∀ d < 5, getMemBlockSizeType ((2 ^ (21 + d) : ℕ) : ℤ) = 21 + d := by decide
    obtain ⟨a, alloc₁, hreq, hinv, htaken, hkept⟩ :=
      reqBytes_drain h (by omega) hp (hsize d (by omega))
    obtain ⟨as, alloc', hrest, hinv', hall⟩ := ih hinv (by omega)
      (fun j h1 h2 => by rw [hkept j (by omega) (by omega)]; exact hone j h1 (by omega))
      (fun j hj hout => by
        by_cases hjd : j = 21 + d
        · rw [hjd]
          exact htaken
        · rw [hkept j hj hjd]
          exact hnone j hj (by omega))
    exact ⟨a :: as, alloc', (bind_ok hreq _).trans (bind_ok hrest _), hinv', hall⟩

theorem exists_exhausted {alloc₀ : Allocator} {ls : Slot → List ℕ} (h : Carved 20 alloc₀ ls 0) :
    ∃ as alloc, reqAll alloc₀ (bootBlocks 5) = .ok (as, alloc) ∧
      DirectMapping.reqBytes alloc kKStackSize = .ok (0, alloc) ∧
      DirectMapping.reqBytes alloc Paging.kPdSize = .ok (0, alloc) := by
  have hlists : ∀ j < 26, alloc₀.lists (.free j) = ls (.free j) := fun j hj =>
    h.repr.lists_eq (free_mem_slots.mpr hj)
  have hbits : ∀ j < 26, carvedSize (2 ^ 20) / 2 ^ j % 2 = if 21 ≤ j then 1 else 0 := by decide
  obtain ⟨as, alloc, hreq, hinv, hall⟩ := reqAll_drain (h.invariant (by norm_num)).lists le_rfl
    (fun j h1 h2 => by
      obtain ⟨p, hp, -⟩ := h.carved j (Nat.zero_le j) h2 ((hbits j h2).trans (if_pos h1))
      exact ⟨p, (hlists j h2).trans hp⟩)
    (fun j hj hout => (hlists j hj).trans (h.rest j (Or.inr ((hbits j hj).trans (if_neg (by omega))))))
  exact ⟨as, alloc, hreq, hinv.sound.repr.reqBytes_none (by decide) (fun j _ hj => hall j hj) rfl,
    hinv.sound.repr.reqBytes_none (by decide) (fun j _ hj => hall j hj) rfl⟩

def lastHeap (z : ℕ) : ℕ :=
  if z = 0xc0300500 then 0xc0300610
  else if z = 0xc0300610 then 0xc0300500
  else if z = 0xc030002c then 0xc030002c
  else bootHeap z

def lastRecords (alloc : Allocator) : Scheduler where
  toKernel := { bootKernel alloc with heap := lastHeap }
  kPcb := 0xc0300000
  waitThreadQueue := 0
  blockThreadList := 0
  esp := 0xbb00
  timer := kTimerReset

theorem creation_atomic_iff_exhausted : ∃ alloc₀ as alloc, directMappingInit 0x100000 .zero = .ok alloc₀ ∧
    reqAll alloc₀ (bootBlocks 5) = .ok (as, alloc) ∧
    (createThread (lastRecords alloc) 0xc0300000 = .ok (0, lastRecords alloc) ↔
      isListEmpty lastHeap 0xc0300500 = true) ∧
    (createProc (lastRecords alloc).toKernel 0xc0300000 = .ok (0, (lastRecords alloc).toKernel) ↔
      isListEmpty lastHeap 0xc0300200 = true) := by
  obtain ⟨alloc₀, ls, hboot, hcarved⟩ := init_megabyte
  obtain ⟨as, alloc, hreq, hstack, hdir⟩ := exists_exhausted hcarved
  obtain ⟨hthread, hproc⟩ := creation_atomic_iff (lastRecords alloc) 0xc0300000 0xc0300000
    (show kKVirtualAddr ≤ lastHeap 0xc0300500 ∧ lastHeap 0xc0300500 < 2 ^ 32 by decide)
    (show kKVirtualAddr ≤ lastHeap 0xc0300200 ∧ lastHeap 0xc0300200 < 2 ^ 32 by decide)
  exact ⟨alloc₀, as, alloc, hboot, hreq, hthread alloc hstack, hproc alloc hdir⟩

def createdThreadHeap (heap : ℕ → ℕ) (free x stack pcb : ℕ) : ℕ → ℕ :=
  let heap := removeAfter 0 heap free
  let heap := Function.update heap (Thread.stackAddr x) (sub32 (u32 (kKStackSize + stack)) 1)
  let heap := Function.update heap (Thread.pcb x) pcb
  let heap := Function.update heap (Thread.esp x) (newTop stack)
  let heap := Function.update heap (newTop stack) x
  insertAfter heap (Pcb.threadList pcb) (Thread.node x)

theorem created_heap (s : Scheduler) (x stack pcb : ℕ) (alloc : Allocator) :
    (created s x stack pcb alloc).heap = createdThreadHeap s.heap s.freeThreadList x stack pcb := by
  simp only [created, openThread_eq, Scheduler.store, Scheduler.setHeap_heap, Scheduler.setAlloc_heap,
    listAdd, listRemove, createdThreadHeap]

theorem records_without_memory : ∃ alloc₀ as alloc s k, directMappingInit 0x100000 .zero = .ok alloc₀ ∧
    reqAll alloc₀ (bootBlocks 5) = .ok (as, alloc) ∧
    DirectMapping.reqBytes alloc kKStackSize = .ok (0, alloc) ∧
    DirectMapping.reqBytes alloc Paging.kPdSize = .ok (0, alloc) ∧
    createThread (lastRecords alloc) 0xc0300000 = .ok (0xc0300600, s) ∧
    s.heap (Thread.stackAddr 0xc0300600) = 0xfff ∧ s.heap 0xffb = 0xc0300600 ∧
    isListEmpty s.heap s.freeThreadList = true ∧
    createProc (lastRecords alloc).toKernel 0xc0300000 = .ok (0xc0300100, k) ∧
    k.heap (Pcb.pageDir 0xc0300100) = 0 ∧ isListEmpty k.heap k.freeProcList = true := by
  obtain ⟨alloc₀, ls, hboot, hcarved⟩ := init_megabyte
  obtain ⟨as, alloc, hreq, hstack, hdir⟩ := exists_exhausted hcarved
  have hthread : createThread (lastRecords alloc) 0xc0300000 =
      .ok (0xc0300600, created (lastRecords alloc) 0xc0300600 0 0xc0300000 alloc) :=
    createThread_eq (show isListEmpty lastHeap 0xc0300500 = false by decide)
      (show threadOf (lastHeap 0xc0300500) = 0xc0300600 by decide) hstack
  have hchain : Seg (openedHeap (removeAfter 0 lastHeap 0xc0300200) 0xc0300100 0 0xc0300000)
      (Pcb.left 0xc0300000) [] 0 := by
    rw [seg_nil]
    decide
  have hproc := createProc_eq (k := (lastRecords alloc).toKernel) (x := 0xc0300100)
    (show lastHeap 0xc0300200 = 0xc0300128 by decide) (by decide) (show 0xc0300128 ≠ 0xc0300200 by decide)
    hdir hchain (Nat.pow_pos (by decide)) (by simp)
  refine ⟨alloc₀, as, alloc, _, _, hboot, hreq, hstack, hdir, hthread, ?_, ?_, ?_, hproc, ?_, ?_⟩
  · rw [created_heap]
    show createdThreadHeap lastHeap 0xc0300500 0xc0300600 0 0xc0300000 0xc0300604 = 0xfff
    decide
  · rw [created_heap]
    show createdThreadHeap lastHeap 0xc0300500 0xc0300600 0 0xc0300000 0xffb = 0xc0300600
    decide
  · rw [created_heap]
    show isListEmpty (createdThreadHeap lastHeap 0xc0300500 0xc0300600 0 0xc0300000) 0xc0300500 = true
    decide
  · show createdHeap lastHeap 0xc0300200 0xc0300100 0 0xc0300000 0xc0300020 0xc0300104 = 0
    decide
  · show isListEmpty (createdHeap lastHeap 0xc0300200 0xc0300100 0 0xc0300000 0xc0300020) 0xc0300200 = true
    decide

end XyOS.Scheduling
