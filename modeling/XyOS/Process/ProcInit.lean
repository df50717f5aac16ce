import XyOS.Memory.DirectMappingOwned
import XyOS.Process.ProcLists
import XyOS.Thread.ThreadDefs

/-! `ProcManagerInit` of `process.c` and the calls of `CreateProc` after it. `cur++` steps
over a `ListNode`, so that each `Pcb` begins one word after the one before it. -/

namespace XyOS.Process
open Linked Runs DirectMapping Scheduling

def kProcInitNum : ℕ := 0x10
def listNodeBytes : ℕ := 4

def initPcb (heap : ℕ → ℕ) (tmp i : ℕ) : ℕ → ℕ :=
  let heap := Function.update heap (Pcb.pid tmp) (kProcInitNum - i)
  let heap := Function.update heap (Pcb.threadList tmp) 0
  let heap := Function.update heap (Pcb.left tmp) 0
  let heap := Function.update heap (Pcb.right tmp) 0
  let heap := Function.update heap (Pcb.father tmp) 0
  Function.update heap (Pcb.pageDir tmp) 0

def linkPcbs (heap : ℕ → ℕ) (freeProcList pcbList : ℕ) : ℕ → (ℕ → ℕ)
  | 0 => heap
  | i + 1 =>
    let heap := linkPcbs heap freeProcList pcbList i
    let cur := Pcb.node pcbList + listNodeBytes * i
    let heap := listAdd heap freeProcList cur
    initPcb heap (sub32 cur (Pcb.node 0)) i

def kernelPcb (heap : ℕ → ℕ) (kPcb cr3 : ℕ) : ℕ → ℕ :=
  let heap := Function.update heap (Pcb.pid kPcb) 0
  let heap := Function.update heap (Pcb.node kPcb) 0
  let heap := Function.update heap (Pcb.pageDir kPcb) cr3
  let heap := Function.update heap (Pcb.threadList kPcb) (Pcb.threadList kPcb)
  let heap := Function.update heap (Pcb.father kPcb) 0
  let heap := Function.update heap (Pcb.left kPcb) 0
  let heap := Function.update heap (Pcb.right kPcb) 0
  Function.update heap (Pcb.state kPcb) ProcState.run.value

def procManagerInit (k : Kernel) : Except Fault (ℕ × ℕ × Kernel) := do
  let (pcbList, alloc) ← reqBytes k.alloc ((kProcInitNum * pcbBytes : ℕ) : ℤ)
  let (free, alloc) ← reqBytes alloc (listNodeBytes : ℤ)
  let heap := if free = 0 then k.heap else Function.update k.heap free free
  let heap := linkPcbs heap free pcbList kProcInitNum
  let (kPcb, alloc) ← reqBytes alloc (pcbBytes : ℤ)
  .ok (pcbList, kPcb, { k with heap := kernelPcb heap kPcb k.cr3, alloc := alloc, freeProcList := free })

/-! ## Calls in a row -/

structure Creation where
  kernel : Kernel
  made : List ℕ

def Creation.exec (s : Creation) (father : ℕ) : Except Fault Creation := do
  let (pcb, k) ← createProc s.kernel father
  .ok ⟨k, s.made ++ [pcb]⟩

def Creation.Allowed (kPcb : ℕ) (s : Creation) (father : ℕ) : Prop :=
  (father = kPcb ∨ father ∈ s.made ∧ father ≠ 0) ∧
    ∃ a alloc, reqBytes s.kernel.alloc Paging.kPdSize = .ok (a, alloc) ∧ a ≠ 0

def pcbs (made : List ℕ) : List ℕ := made.filter (· ≠ 0)

/-- The records that were returned lie in the block at `pcbList` and share no byte and no
`pid`, and `NULL` was returned exactly when none of them was left. -/
structure RecordsApart (pcbList : ℕ) (s : Creation) : Prop where
  inside : ∀ p ∈ pcbs s.made, pcbList ≤ p ∧ p + pcbBytes ≤ pcbList + kProcInitNum * pcbBytes
  apart : (pcbs s.made).Pairwise Apart
  pids : (pcbs s.made).Pairwise fun p q => s.kernel.heap (Pcb.pid p) ≠ s.kernel.heap (Pcb.pid q)
  null : ∀ made p rest, s.made = made ++ p :: rest → (p = 0 ↔ (pcbs made).length = kProcInitNum)

/-! ## The free list after `ProcManagerInit` -/

variable {heap : ℕ → ℕ} {free pcbList i z : ℕ}

theorem initPcb_of_ne {tmp : ℕ} (h0 : z ≠ tmp) (h4 : z ≠ tmp + 4) (h28 : z ≠ tmp + 28) (h32 : z ≠ tmp + 32)
    (h36 : z ≠ tmp + 36) (h44 : z ≠ tmp + 44) : initPcb heap tmp i z = heap z := by
  simp only [initPcb, Pcb.pid, Pcb.threadList, Pcb.left, Pcb.right, Pcb.father, Pcb.pageDir]
  rw [Function.update_of_ne h4, Function.update_of_ne h28, Function.update_of_ne h36, Function.update_of_ne h32,
    Function.update_of_ne h44, Function.update_of_ne h0]

theorem initPcb_right (tmp : ℕ) : initPcb heap tmp i (tmp + 36) = 0 := by
  simp [initPcb, Pcb.pid, Pcb.threadList, Pcb.left, Pcb.right, Pcb.father, Pcb.pageDir]

theorem linkPcbs_succ (hsmall : pcbList + 4 * i + 40 < 2 ^ 32) : linkPcbs heap free pcbList (i + 1) =
    initPcb (insertAfter (linkPcbs heap free pcbList i) free (pcbList + 4 * i + 40)) (pcbList + 4 * i) i := by
  have hcur : Pcb.node pcbList + listNodeBytes * i = pcbList + 4 * i + 40 := by
    simp only [Pcb.node, listNodeBytes]
    omega
  have htmp : sub32 (pcbList + 4 * i + 40) (Pcb.node 0) = pcbList + 4 * i := by
    rw [Pcb.node, sub32_of_le (by omega) hsmall]
    omega
  rw [linkPcbs, hcur, htmp, listAdd]

theorem linkPcbs_head (hi : i < kProcInitNum) (hsmall : pcbList + 768 ≤ 2 ^ 32)
    (hout : free < pcbList ∨ pcbList + 768 ≤ free) :
    linkPcbs heap free pcbList (i + 1) free = pcbList + 4 * i + 40 := by
  rw [kProcInitNum] at hi
  rw [linkPcbs_succ (by omega), initPcb_of_ne (by omega) (by omega) (by omega) (by omega) (by omega) (by omega),
    insertAfter_prev (by omega)]

/-- What is left of the free list: the last `Pcb` links to the one before it, and the link
of that one is the member `right` of the last, which was cleared after it was set. -/
structure CutList (heap : ℕ → ℕ) (free pcbList : ℕ) : Prop where
  head : heap free = pcbList + 100
  last : heap (pcbList + 100) = pcbList + 96
  cut : heap (pcbList + 96) = 0

theorem linkPcbs_cut (hsmall : pcbList + 768 ≤ 2 ^ 32) (hout : free < pcbList ∨ pcbList + 768 ≤ free) :
    CutList (linkPcbs heap free pcbList kProcInitNum) free pcbList := by
  have hlast : linkPcbs heap free pcbList kProcInitNum =
      initPcb (insertAfter (linkPcbs heap free pcbList 15) free (pcbList + 100)) (pcbList + 60) 15 :=
    linkPcbs_succ (i := 15) (by omega)
  constructor
  · exact linkPcbs_head (i := 15) (by decide) hsmall hout
  · rw [hlast, initPcb_of_ne (by omega) (by omega) (by omega) (by omega) (by omega) (by omega), insertAfter_new]
    exact linkPcbs_head (i := 14) (by decide) hsmall hout
  · rw [hlast]
    exact initPcb_right (pcbList + 60)

structure Initialized (kPcb pcbList : ℕ) (k : Kernel) : Prop where
  list : CutList k.heap k.freeProcList pcbList
  sons : k.heap (Pcb.left kPcb) = 0
  small : pcbList + 768 ≤ 2 ^ 32
  free : k.freeProcList < pcbList ∨ pcbList + 768 ≤ k.freeProcList
  kernel : kPcb + 48 ≤ pcbList ∨ pcbList + 768 ≤ kPcb
  apart : k.freeProcList < kPcb ∨ kPcb + 48 ≤ k.freeProcList

theorem kernelPcb_of_outside {kPcb cr3 : ℕ} (hz : z < kPcb ∨ kPcb + 48 ≤ z) :
    kernelPcb heap kPcb cr3 z = heap z := by
  simp only [kernelPcb, Pcb.pid, Pcb.node, Pcb.threadList, Pcb.left, Pcb.right, Pcb.father, Pcb.pageDir,
    Pcb.state]
  rw [Function.update_of_ne (by omega), Function.update_of_ne (by omega), Function.update_of_ne (by omega),
    Function.update_of_ne (by omega), Function.update_of_ne (by omega), Function.update_of_ne (by omega),
    Function.update_of_ne (by omega), Function.update_of_ne (by omega)]

theorem kernelPcb_left (kPcb cr3 : ℕ) : kernelPcb heap kPcb cr3 (Pcb.left kPcb) = 0 := by
  simp [kernelPcb, Pcb.pid, Pcb.node, Pcb.threadList, Pcb.left, Pcb.right, Pcb.father, Pcb.pageDir, Pcb.state]

def initSizes : List ℕ := [kProcInitNum * pcbBytes, listNodeBytes, pcbBytes]

theorem procManagerInit_eq {k : Kernel} {kPcb : ℕ} {alloc : Allocator}
    (hreq : reqAll k.alloc initSizes = .ok ([pcbList, free, kPcb], alloc)) (hfree : free ≠ 0) :
    procManagerInit k = .ok (pcbList, kPcb, { k with
      heap := kernelPcb (linkPcbs (Function.update k.heap free free) free pcbList kProcInitNum) kPcb k.cr3
      alloc := alloc
      freeProcList := free }) := by
  obtain ⟨alloc₁, h₁, hreq⟩ := of_reqAll_cons hreq
  obtain ⟨alloc₂, h₂, hreq⟩ := of_reqAll_cons hreq
  obtain ⟨alloc₃, h₃, hreq⟩ := of_reqAll_cons hreq
  obtain ⟨-, rfl⟩ := Prod.mk.inj (Except.ok.inj hreq)
  rw [procManagerInit, bind_ok h₁]
  refine (bind_ok h₂ _).trans ?_
  refine (bind_ok h₃ _).trans ?_
  simp only [if_neg hfree]

theorem initialized_of_ready {R n : ℕ} {k k' : Kernel} {kPcb : ℕ} {alloc : Allocator}
    (h : Ready R k.alloc (initSizes.length + n))
    (hreq : reqAll k.alloc initSizes = .ok ([pcbList, free, kPcb], alloc))
    (hgranted : 0 ∉ [pcbList, free, kPcb]) (hinit : procManagerInit k = .ok (pcbList, kPcb, k')) :
    Initialized kPcb pcbList k' ∧ k'.alloc = alloc ∧ Ready R alloc n := by
  obtain ⟨hall, hready⟩ := h.reqAll (by decide) hreq hgranted
  have hbounds := (hall.owned (pcbList, kProcInitNum * pcbBytes) (by simp [initSizes])).bounds hready.inv
  have hapart := hall.apart
  simp only [initSizes, List.zip_cons_cons, List.zip_nil_right, List.pairwise_cons, List.mem_cons,
    List.not_mem_nil, or_false, forall_eq_or_imp, forall_eq, Separate, kProcInitNum, pcbBytes,
    listNodeBytes] at hapart
  simp only [kProcInitNum, pcbBytes, kKVirtualAddr, managedSize, kDirectMappingSize, kNodePoolSize] at hbounds
  obtain ⟨⟨hpf, hpk⟩, hfk, -⟩ := hapart
  simp only [List.mem_cons, not_or] at hgranted
  obtain rfl := (Prod.mk.inj (Prod.mk.inj (Except.ok.inj
    ((procManagerInit_eq hreq (Ne.symm hgranted.2.1)).symm.trans hinit))).2).2
  have hsmall : pcbList + 768 ≤ 2 ^ 32 := by omega
  have hcut : CutList (linkPcbs (Function.update k.heap free free) free pcbList kProcInitNum) free pcbList :=
    linkPcbs_cut hsmall (by omega)
  refine ⟨⟨⟨?_, ?_, ?_⟩, kernelPcb_left kPcb k.cr3, hsmall, by dsimp only; omega, by omega,
    by dsimp only; omega⟩, rfl, hready⟩
  · exact (kernelPcb_of_outside (show free < kPcb ∨ kPcb + 48 ≤ free by omega)).trans hcut.head
  · exact (kernelPcb_of_outside (by omega)).trans hcut.last
  · exact (kernelPcb_of_outside (by omega)).trans hcut.cut

/-! ## The calls -/

variable {kPcb a father : ℕ} {k k' : Kernel} {alloc : Allocator}

theorem Initialized.first (h : Initialized kPcb pcbList k)
    (hreq : reqBytes k.alloc Paging.kPdSize = .ok (a, alloc)) :
    ∃ k₁, createProc k kPcb = .ok (pcbList + 60, k₁) ∧ k₁.alloc = alloc ∧
      k₁.freeProcList = k.freeProcList ∧
      k₁.heap = createdHeap k.heap k.freeProcList (pcbList + 60) a kPcb (Pcb.left kPcb) := by
  obtain ⟨⟨hhead, hlast, -⟩, hsons, hsmall, hfree, hkernel, hapart⟩ := h
  have hchain : Seg (openedHeap (removeAfter 0 k.heap k.freeProcList) (pcbList + 60) a kPcb) (Pcb.left kPcb)
      [] 0 := by
    rw [Pcb.left] at hsons
    rw [seg_nil, Pcb.left, openedHeap_of_ne (by omega) (by omega) (by omega) (by omega),
      removeAfter_of_ne (by omega) (by omega)]
    exact hsons
  refine ⟨_, createProc_eq (x := pcbList + 60) ?_ ?_ ?_ hreq hchain ?_ (by simp), rfl, rfl, rfl⟩
  · rw [hhead, Pcb.node]
  · simp only [pcbBytes]
    omega
  · simp only [Pcb.node]
    omega
  · exact Nat.pow_pos (by decide)

theorem Initialized.first_heap (h : Initialized kPcb pcbList k) :
    createdHeap k.heap k.freeProcList (pcbList + 60) a kPcb (Pcb.left kPcb) k.freeProcList = pcbList + 96 := by
  obtain ⟨⟨hhead, hlast, -⟩, hsons, hsmall, hfree, hkernel, hapart⟩ := h
  rw [createdHeap, sharePcb_of_ne (by omega) (by omega) (by omega) (by omega) (by omega),
    Function.update_of_ne (by simp only [Pcb.left]; omega),
    openedHeap_of_ne (by omega) (by omega) (by omega) (by omega), removeAfter_prev (by omega), hhead, hlast]

theorem Creation.run_made {s s' : Creation} {fathers : List ℕ} (h : run Creation.exec s fathers = .ok s') :
    ∃ more, s'.made = s.made ++ more := by
  induction fathers generalizing s with
  | nil =>
    obtain rfl := Except.ok.inj h
    exact ⟨[], (List.append_nil _).symm⟩
  | cons father fathers ih =>
    obtain ⟨s₁, hexec, hrest⟩ := of_bind_ok h
    obtain ⟨⟨pcb, k⟩, -, hmade⟩ := of_bind_ok hexec
    obtain rfl := Except.ok.inj hmade
    obtain ⟨more, hmore⟩ := ih hrest
    exact ⟨pcb :: more, by rw [hmore, List.append_assoc, List.singleton_append]⟩

theorem recordsApart_nil (pcbList : ℕ) (k : Kernel) : RecordsApart pcbList ⟨k, []⟩ := by
  constructor
  · simp [pcbs]
  · exact List.Pairwise.nil
  · exact List.Pairwise.nil
  · simp

theorem recordsApart_one (pcbList : ℕ) (k : Kernel) :
    RecordsApart pcbList ⟨k, [pcbList + 60]⟩ := by
  have hpcbs : pcbs [pcbList + 60] = [pcbList + 60] := by simp [pcbs]
  constructor
  · rw [hpcbs]
    simp only [List.mem_singleton, forall_eq, pcbBytes, kProcInitNum]
    omega
  · rw [hpcbs]
    exact List.pairwise_singleton ..
  · rw [hpcbs]
    exact List.pairwise_singleton ..
  · intro made p rest he
    obtain ⟨rfl, hp⟩ | ⟨m, rfl, hm⟩ := List.cons_eq_append_iff.mp he
    · obtain ⟨rfl, -⟩ := List.cons.inj hp
      simp [pcbs, kProcInitNum]
    · simp at hm

theorem not_recordsApart {s : Creation} {more : List ℕ}
    (hmade : s.made = [pcbList + 60, pcbList + 56] ++ more) : ¬ RecordsApart pcbList s := by
  intro h
  have hpair := h.apart
  have hfirst : pcbs s.made = (pcbList + 60) :: (pcbList + 56) :: pcbs more := by
    rw [hmade]
    simp [pcbs]
  rw [hfirst, List.pairwise_cons] at hpair
  have hover := hpair.1 (pcbList + 56) List.mem_cons_self
  simp only [Apart, pcbBytes] at hover
  omega

theorem Initialized.exec_first (h : Initialized kPcb pcbList k)
    (hallowed : Creation.Allowed kPcb ⟨k, []⟩ father) :
    ∃ k₁, Creation.exec ⟨k, []⟩ father = .ok ⟨k₁, [pcbList + 60]⟩ ∧
      k₁.heap k₁.freeProcList = pcbList + 96 ∧ k₁.freeProcList = k.freeProcList := by
  obtain ⟨hfather, a, alloc, hreq, -⟩ := hallowed
  obtain rfl : father = kPcb := by
    rcases hfather with hf | ⟨hf, -⟩
    · exact hf
    · exact absurd hf List.not_mem_nil
  obtain ⟨k₁, hcreate, -, hlist, hheap⟩ := h.first hreq
  refine ⟨k₁, bind_ok hcreate _, ?_, hlist⟩
  rw [hheap, hlist]
  exact h.first_heap

theorem Initialized.exec_second {k₁ : Kernel} {s : Creation} (h : Initialized kPcb pcbList k)
    (hhead : k₁.heap k₁.freeProcList = pcbList + 96) (hlist : k₁.freeProcList = k.freeProcList)
    (hexec : Creation.exec ⟨k₁, [pcbList + 60]⟩ father = .ok s) : s.made = [pcbList + 60, pcbList + 56] := by
  have hfree := h.free
  have hsmall := h.small
  have hempty : isListEmpty k₁.heap k₁.freeProcList = false := by
    rw [isListEmpty, hhead, beq_eq_false_iff_ne]
    omega
  obtain ⟨⟨pcb, k₂⟩, hcreate, hs⟩ := of_bind_ok hexec
  obtain rfl := Except.ok.inj hs
  rw [createProc_fst hempty hcreate, hhead, Pcb.node, sub32_of_le (by omega) (by omega)]
  rfl

theorem records_apart_iff (R : ℕ) (k : Kernel) (pcbList free kPcb : ℕ) (alloc : Allocator)
    (hready : Ready R k.alloc initSizes.length)
    (hreq : reqAll k.alloc initSizes = .ok ([pcbList, free, kPcb], alloc))
    (hgranted : 0 ∉ [pcbList, free, kPcb]) :
    ∃ k', procManagerInit k = .ok (pcbList, kPcb, k') ∧
      ∀ fathers, Along Creation.exec (Creation.Allowed kPcb) ⟨k', []⟩ fathers →
        ((∃ s, run Creation.exec ⟨k', []⟩ fathers = .ok s ∧ RecordsApart pcbList s) ↔ fathers.length ≤ 1) := by
  have hfree : free ≠ 0 := by
    rintro rfl
    simp at hgranted
  have hinit := procManagerInit_eq hreq hfree
  obtain ⟨h, -⟩ := initialized_of_ready (n := 0) hready hreq hgranted hinit
  refine ⟨_, hinit, fun fathers hallowed => ?_⟩
  cases fathers with
  | nil => exact iff_of_true ⟨_, rfl, recordsApart_nil pcbList _⟩ (Nat.zero_le 1)
  | cons father fathers =>
    obtain ⟨k₁, hexec, hhead, hlist⟩ := h.exec_first hallowed.1
    cases fathers with
    | nil => exact iff_of_true ⟨_, run_cons hexec, recordsApart_one pcbList k₁⟩ (Nat.le_refl 1)
    | cons father₂ fathers =>
      refine iff_of_false ?_ (by simp)
      rintro ⟨s, hrun, hs⟩
      rw [run_cons hexec] at hrun
      obtain ⟨s₂, hexec₂, hrest⟩ := of_bind_ok hrun
      obtain ⟨more, hmade⟩ := Creation.run_made hrest
      rw [h.exec_second hhead hlist hexec₂] at hmade
      exact not_recordsApart hmade hs

def bareKernel (alloc : Allocator) : Kernel where
  mem := fun _ => 0
  heap := fun _ => 0
  alloc := alloc
  avlMem := []
  pageState := fun _ => 0
  cr2 := 0
  cr3 := 0x1000
  freeProcList := 0
  freeThreadList := 0
  tssEsp0 := 0
  log := []

theorem exists_initialized {alloc₀ : Allocator} {ls : Slot → List ℕ} (h : Carved 20 alloc₀ ls 0) :
    ∃ pcbList free kPcb alloc, reqAll alloc₀ initSizes = .ok ([pcbList, free, kPcb], alloc) ∧
      0 ∉ [pcbList, free, kPcb] ∧ Ready (2 ^ 20) alloc₀ (initSizes.length + 2) ∧
      2 ≤ freePages alloc.lists := by
  obtain ⟨hready, hpages⟩ := ready_megabyte h
  have hready₁ := hready.mono (show initSizes.length + 2 ≤ 256 by decide)
  obtain ⟨as, alloc, hreq, hgranted, hle⟩ := hready₁.reqAll_granted (by decide) (le_trans (by decide) hpages)
  obtain ⟨pcbList, free, kPcb, rfl⟩ := List.length_eq_three.mp (length_reqAll hreq)
  have hlen : initSizes.length = 3 := rfl
  exact ⟨pcbList, free, kPcb, alloc, hreq, hgranted, hready₁, by omega⟩

theorem records_apart_iff_boot : ∃ alloc₀ pcbList kPcb k', directMappingInit 0x100000 .zero = .ok alloc₀ ∧
    procManagerInit (bareKernel alloc₀) = .ok (pcbList, kPcb, k') ∧
    ∀ fathers, Along Creation.exec (Creation.Allowed kPcb) ⟨k', []⟩ fathers →
      ((∃ s, run Creation.exec ⟨k', []⟩ fathers = .ok s ∧ RecordsApart pcbList s) ↔ fathers.length ≤ 1) := by
  obtain ⟨alloc₀, ls, hboot, hcarved⟩ := init_megabyte
  obtain ⟨pcbList, free, kPcb, alloc, hreq, hgranted, hready, -⟩ := exists_initialized hcarved
  obtain ⟨k', hinit, hiff⟩ := records_apart_iff (2 ^ 20) (bareKernel alloc₀) pcbList free kPcb alloc
    (hready.mono (Nat.le_add_right ..)) hreq hgranted
  exact ⟨alloc₀, pcbList, kPcb, k', hboot, hinit, hiff⟩

theorem Initialized.second {a₁ : ℕ} {k₁ : Kernel} (h : Initialized kPcb pcbList k)
    (hlist : k₁.freeProcList = k.freeProcList)
    (hheap : k₁.heap = createdHeap k.heap k.freeProcList (pcbList + 60) a₁ kPcb (Pcb.left kPcb))
    (hreq : reqBytes k₁.alloc Paging.kPdSize = .ok (a, alloc)) :
    ∃ k₂, createProc k₁ kPcb = .ok (pcbList + 56, k₂) := by
  have hhead : k₁.heap k₁.freeProcList = pcbList + 96 := by
    rw [hheap, hlist]
    exact h.first_heap
  obtain ⟨-, -, hsmall, hfree, hkernel, hapart⟩ := h
  rw [← hlist] at hfree hapart
  have hson : k₁.heap (Pcb.left kPcb) = pcbList + 96 := by
    rw [hheap, createdHeap, Pcb.left, sharePcb_of_ne (by omega) (by omega) (by omega) (by omega) (by omega),
      Function.update_self, Pcb.right]
  have hcleared : removeAfter 0 k₁.heap k₁.freeProcList (pcbList + 96) = 0 := by
    rw [removeAfter, hhead, Function.update_self]
  have hchain : Seg (openedHeap (removeAfter 0 k₁.heap k₁.freeProcList) (pcbList + 56) a kPcb) (Pcb.left kPcb)
      [pcbList + 96] 0 := by
    rw [Pcb.left] at hson
    refine ⟨?_, ?_⟩
    · rw [Pcb.left, openedHeap_of_ne (by omega) (by omega) (by omega) (by omega),
        removeAfter_of_ne (by omega) (by omega), hson]
    · rw [seg_nil, openedHeap_of_ne (by omega) (by omega) (by omega) (by omega), hcleared]
  refine ⟨_, createProc_eq (x := pcbList + 56) ?_ ?_ ?_ hreq hchain ?_ (by simp)⟩
  · rw [hhead, Pcb.node]
  · simp only [pcbBytes]
    omega
  · simp only [Pcb.node]
    omega
  · exact Nat.one_lt_two_pow (by decide)

/-- Two processes are created after a boot, and the second `Pcb` overlaps the first. -/
theorem records_overlap : ∃ alloc₀ pcbList kPcb k' s, directMappingInit 0x100000 .zero = .ok alloc₀ ∧
    procManagerInit (bareKernel alloc₀) = .ok (pcbList, kPcb, k') ∧
    Along Creation.exec (Creation.Allowed kPcb) ⟨k', []⟩ [kPcb, kPcb] ∧
    run Creation.exec ⟨k', []⟩ [kPcb, kPcb] = .ok s ∧ s.made = [pcbList + 60, pcbList + 56] ∧
    ¬ RecordsApart pcbList s := by
  obtain ⟨alloc₀, ls, hboot, hcarved⟩ := init_megabyte
  obtain ⟨pcbList, free, kPcb, alloc, hreq, hgranted, hready, hpages⟩ := exists_initialized hcarved
  have hfree : free ≠ 0 := by
    rintro rfl
    simp at hgranted
  obtain ⟨k', hinit⟩ : ∃ k', procManagerInit (bareKernel alloc₀) = .ok (pcbList, kPcb, k') :=
    ⟨_, procManagerInit_eq (k := bareKernel alloc₀) hreq hfree⟩
  obtain ⟨h, halloc, hready₁⟩ := initialized_of_ready (k := bareKernel alloc₀) hready hreq hgranted hinit
  have hsize : getMemBlockSizeType (Paging.kPdSize : ℤ) = 12 := by decide
  obtain ⟨a₁, alloc₁, hreq₁, ha₁, hready₂, hle⟩ := hready₁.granted (k := 12) (by decide) hsize (by omega)
  obtain ⟨a₂, alloc₂, hreq₂, ha₂, -, -⟩ := hready₂.granted (k := 12) (by decide) hsize (by omega)
  rw [← halloc] at hreq₁
  obtain ⟨k₁, hfirst, halloc₁, hlist, hheap⟩ := h.first hreq₁
  rw [← halloc₁] at hreq₂
  obtain ⟨k₂, hsecond⟩ := h.second hlist hheap hreq₂
  have hexec₁ : Creation.exec ⟨k', []⟩ kPcb = .ok ⟨k₁, [pcbList + 60]⟩ := bind_ok hfirst _
  have hexec₂ : Creation.exec ⟨k₁, [pcbList + 60]⟩ kPcb = .ok ⟨k₂, [pcbList + 60, pcbList + 56]⟩ :=
    bind_ok hsecond _
  refine ⟨alloc₀, pcbList, kPcb, k', _, hboot, hinit, ⟨⟨Or.inl rfl, a₁, alloc₁, hreq₁, ha₁⟩, ?_⟩,
    (run_cons hexec₁).trans (run_cons hexec₂), rfl, not_recordsApart (List.append_nil _).symm⟩
  intro s₁ hs₁
  obtain rfl := Except.ok.inj (hexec₁.symm.trans hs₁)
  exact ⟨⟨Or.inl rfl, a₂, alloc₂, hreq₂, ha₂⟩, fun _ _ => trivial⟩

end XyOS.Process
