import XyOS.Memory.AddressSpaces
import XyOS.Memory.DirectMappingClosedForm
import XyOS.Memory.DirectMappingPages
import XyOS.Process.PageFaults
import XyOS.Process.ProcLists

/-! Trees of processes that `CreateProc` builds from the kernel's process, while
`PfHandler` serves not-present faults in any of them. -/

namespace XyOS.Process
open Linked Runs DirectMapping PageAllocator Paging

structure Sys where
  kernel : Kernel
  procs : List ℕ

inductive Op
  | create (father : ℕ)
  | fault (p addr errCode : ℕ)

def dirFrame (k : Kernel) (p : ℕ) : ℕ := physical (k.heap (Pcb.pageDir p)) / 0x1000

def faultIn (k : Kernel) (p addr errCode : ℕ) : PageFault :=
  ⟨physical (k.heap (Pcb.pageDir p)), addr, errCode⟩

def Sys.exec (kEnd : ℕ) (s : Sys) : Op → Except Fault Sys
  | .create father => do
    let (newPcb, k) ← createProc s.kernel father
    .ok ⟨k, if newPcb = 0 then s.procs else newPcb :: s.procs⟩
  | .fault p addr errCode => do
    let k ← (faultIn s.kernel p addr errCode).exec kEnd s.kernel
    .ok ⟨k, s.procs⟩

/-- A live process is the father or has a not-present fault in the lower half of
memory, and the allocations that this needs succeed. -/
def Allowed (s : Sys) : Op → Prop
  | .create father => father ∈ s.procs ∧
      (isListEmpty s.kernel.heap s.kernel.freeProcList = false → PageReady s.kernel.alloc)
  | .fault p addr errCode => p ∈ s.procs ∧ addr < 0x80000000 ∧ isBitSet errCode 0 = false ∧
      (tableFrame s.kernel.mem (dirFrame s.kernel p) (addr / 0x400000) = 0 → PageReady s.kernel.alloc)

/-- `PfHandler` takes the frame of the page table for region `i` for a linear address, and this leads
to the page table: to the one that is there, or to the one that is about to be made. -/
structure TableMapped (k : Kernel) (d i errCode : ℕ) : Prop where
  found : tableFrame k.mem d i ≠ 0 → MappedToItself k.mem d (tableFrame k.mem d i)
  made : tableFrame k.mem d i = 0 → ∀ t alloc,
    reqBytes k.alloc kPtMaxSize = .ok (kKVirtualAddr + 0x1000 * t, alloc) →
      MappedToItself (setPde k.mem (0x1000 * d + 4 * i) (pdeAccess errCode) (0x1000 * t)) d t

def InPlace (s : Sys) : Op → Prop
  | .create _ => True
  | .fault p addr errCode => TableMapped s.kernel (dirFrame s.kernel p) (addr / 0x400000) errCode

def Settled (s : Sys) (op : Op) : Prop := Allowed s op ∧ InPlace s op

structure SysInv (R kPcb : ℕ) (s : Sys) : Prop where
  size : 2 ^ 20 ≤ R
  alloc : Invariant R s.kernel.alloc s.kernel.alloc.lists
  lists : ∃ free sons, ProcLists s.kernel.heap s.kernel.freeProcList s.procs free sons
  kernel : kPcb ∈ s.procs
  dir : ∀ p ∈ s.procs, s.kernel.heap (Pcb.pageDir p) = 0x1000 ∧ p = kPcb ∨
    ∃ f ∈ pageFrames s.kernel.alloc, s.kernel.heap (Pcb.pageDir p) = kKVirtualAddr + 0x1000 * f
  spaces : Spaces s.kernel.mem (pageFrames s.kernel.alloc) (s.procs.map (dirFrame s.kernel))

variable {R kPcb kEnd p addr errCode father : ℕ} {s s' : Sys} {k k' : Kernel}

theorem physical_direct {f : ℕ} (hf : f < 0x4000) : physical (kKVirtualAddr + 0x1000 * f) = 0x1000 * f := by
  rw [physical, kKVirtualAddr, Paging.translate, if_neg (by omega), if_pos (by omega), Nat.add_sub_cancel_left]
  rfl

theorem SysInv.physical_dir (h : SysInv R kPcb s) (hp : p ∈ s.procs) :
    physical (s.kernel.heap (Pcb.pageDir p)) = 0x1000 * dirFrame s.kernel p := by
  rw [dirFrame]
  rcases h.dir p hp with ⟨he, -⟩ | ⟨f, hf, he⟩
  · rw [he]
    decide
  · have hbound := h.alloc.frame_bounds h.size hf
    rw [he, physical_direct (by omega), Nat.mul_div_cancel_left _ (by decide)]

/-! ## Page faults -/

/-- The effect of a fault at page `j` of region `i` of the directory in frame `d`: a
fresh page table if there was none, and a present entry in the page table. -/
structure Faulted (R : ℕ) (k : Kernel) (d i j : ℕ) (k' : Kernel) : Prop where
  heap : k'.heap = k.heap
  freeProcList : k'.freeProcList = k.freeProcList
  alloc : Invariant R k'.alloc k'.alloc.lists
  mem : ∃ m w, w < 2 ^ 32 ∧ w % 2 = 1 ∧ k'.mem = writeWord m (0x1000 * tableFrame m d i + 4 * j) w ∧
    (tableFrame k.mem d i ≠ 0 ∧ m = k.mem ∧ k'.alloc = k.alloc ∨
      tableFrame k.mem d i = 0 ∧ ∃ t access, (0x100 ≤ t ∧ t < 0x3f00) ∧ t ∉ pageFrames k.alloc ∧
        access.toNat % 2 = 1 ∧
        m = setPde k.mem (0x1000 * d + 4 * i) access (0x1000 * t) ∧
        pageFrames k'.alloc = insert t (pageFrames k.alloc) ∧
        reqBytes k.alloc 4096 = .ok (kKVirtualAddr + 0x1000 * t, k'.alloc))

theorem pdeAccess_odd (errCode : ℕ) : (pdeAccess errCode).toNat % 2 = 1 := by
  unfold pdeAccess
  split <;> decide

theorem pteAccess_odd (errCode : ℕ) : (pteAccess errCode).toNat % 2 = 1 := by
  unfold pteAccess
  split <;> decide

theorem toWord_makePte_mod_two (access : BitVec 8) (address : ℕ) :
    (makePte access address).toWord % 2 = access.toNat % 2 := by
  simp only [Pte.toWord, makePte, BitVec.toNat_setWidth]
  omega

theorem ptAddr_eq_zero_iff (m : Memory) (d i : ℕ) :
    (getPde m (0x1000 * d + 4 * i)).ptAddr = 0 ↔ tableFrame m d i = 0 := by
  rw [tableFrame, pde, ← BitVec.toNat_inj]
  rfl

theorem ptePtr_eq (k : Kernel) (d i : ℕ) :
    ptePtr k (0x1000 * d + 4 * i) = 0x1000 * tableFrame k.mem d i + 4 * (k.cr2 / 0x1000 % 1024) := by
  rw [ptePtr, ← pde, ← tableFrame, Nat.shiftLeft_eq, kPteMaxNum, Nat.mul_comm]
  rfl

theorem directMappingPhysAddr_frame {t : ℕ} (ht : t < 0x3f00) :
    directMappingPhysAddr (kKVirtualAddr + 0x1000 * t) = 0x1000 * t := by
  rw [directMappingPhysAddr, sub32_of_le (by omega) (by rw [kKVirtualAddr]; omega), Nat.add_sub_cancel_left]

theorem installTable_mem (k : Kernel) (errCode entry : ℕ) {t : ℕ} (ht : t < 0x3f00) (alloc : Allocator) :
    (installTable k errCode entry (kKVirtualAddr + 0x1000 * t) alloc).mem =
      setPde k.mem entry (pdeAccess errCode) (0x1000 * t) := by
  rw [installTable, directMappingPhysAddr_frame ht]
  rfl

theorem putPage_setPte (k : Kernel) (errCode entry : ℕ) :
    (putPage k errCode entry).mem = Paging.setPte k.mem entry (pteAccess errCode) (reqPage k.pageState).1 := rfl

section Handler
variable {f : PageFault} {d i x : ℕ} (hf : f.NotPresent) (kEnd : ℕ) (hcr3 : f.cr3 = 0x1000 * d)
  (hentry : (k.fault f).linear (pdePtr (k.fault f)) = some (0x1000 * d + 4 * i))
include hf hcr3 hentry

theorem exec_found (hne : tableFrame k.mem d i ≠ 0)
    (hx : walk k.mem (0x1000 * d) (0x1000 * tableFrame k.mem d i + 4 * (f.addr / 0x1000 % 1024)) = some x) :
    f.exec kEnd k = .ok (putPage (k.fault f) f.errCode x) := by
  refine (exec_iff hf).mpr ⟨_, k.fault f, x, hentry, requireTable_present ?_, ?_, rfl⟩
  · exact fun he => hne ((ptAddr_eq_zero_iff k.mem d i).mp he)
  · rw [ptePtr_eq, Kernel.linear, show (k.fault f).cr3 = 0x1000 * d from hcr3]
    exact hx

theorem exec_made {t : ℕ} {alloc : Allocator} (hz : tableFrame k.mem d i = 0) (ht : t < 0x3f00)
    (hreq : reqBytes k.alloc kPtMaxSize = .ok (kKVirtualAddr + 0x1000 * t, alloc))
    (hx : walk (setPde k.mem (0x1000 * d + 4 * i) (pdeAccess f.errCode) (0x1000 * t)) (0x1000 * d)
      (0x1000 * t + 4 * (f.addr / 0x1000 % 1024)) = some x) :
    f.exec kEnd k = .ok (putPage
      (installTable (k.fault f) f.errCode (0x1000 * d + 4 * i) (kKVirtualAddr + 0x1000 * t) alloc) f.errCode x) := by
  have hmem := installTable_mem (k.fault f) f.errCode (0x1000 * d + 4 * i) ht alloc
  refine (exec_iff hf).mpr ⟨_, _, x, hentry, requireTable_absent ?_ hreq, ?_, rfl⟩
  · exact (ptAddr_eq_zero_iff k.mem d i).mpr hz
  · rw [ptePtr_eq, Kernel.linear, hmem, tableFrame_setPde_self _ _ _ _ (by omega)]
    rw [← hcr3] at hx ⊢
    exact hx

end Handler

theorem SysInv.linear_pdePtr (h : SysInv R kPcb s) (hp : p ∈ s.procs) (haddr : addr < 0x80000000) (errCode : ℕ) :
    (s.kernel.fault (faultIn s.kernel p addr errCode)).linear
        (pdePtr (s.kernel.fault (faultIn s.kernel p addr errCode))) =
      some (0x1000 * dirFrame s.kernel p + 4 * (addr / 0x400000)) := by
  have hd : dirFrame s.kernel p ∈ s.procs.map (dirFrame s.kernel) := List.mem_map_of_mem hp
  have hcr3 : (faultIn s.kernel p addr errCode).cr3 = 0x1000 * dirFrame s.kernel p := h.physical_dir hp
  have hbounds := h.spaces.dir_bounds hd
  rw [pdePtr_fault (by omega) haddr, Kernel.linear, hcr3]
  have hwalk := (h.spaces.walk_direct (v := 0xc0000000 + (0x1000 * dirFrame s.kernel p + 4 * (addr / 0x400000)))
    hd (by omega) (by omega)).1
  rw [Nat.add_sub_cancel_left] at hwalk
  rw [← hcr3] at hwalk ⊢
  exact hwalk

theorem SysInv.fault (h : SysInv R kPcb s) (kEnd : ℕ) (hop : Settled s (.fault p addr errCode)) :
    ∃ k', (faultIn s.kernel p addr errCode).exec kEnd s.kernel = .ok k' ∧
      Faulted R s.kernel (dirFrame s.kernel p) (addr / 0x400000) (addr / 0x1000 % 1024) k' := by
  obtain ⟨⟨hp, haddr, hpresent, hready⟩, hplace⟩ := hop
  have hf : (faultIn s.kernel p addr errCode).NotPresent := hpresent
  have hcr3 : (faultIn s.kernel p addr errCode).cr3 = 0x1000 * dirFrame s.kernel p := h.physical_dir hp
  have hentry := h.linear_pdePtr hp haddr errCode
  have hpresent : (makePte (pteAccess errCode) (reqPage s.kernel.pageState).1).toWord % 2 = 1 := by
    rw [toWord_makePte_mod_two]
    exact pteAccess_odd errCode
  have hword := Pte.toWord_lt (makePte (pteAccess errCode) (reqPage s.kernel.pageState).1)
  by_cases hz : tableFrame s.kernel.mem (dirFrame s.kernel p) (addr / 0x400000) = 0
  · obtain ⟨t, alloc, hreq, hinv, hfresh, hframes⟩ := h.alloc.reqFrame h.size (hready hz)
    have ht : 0x100 ≤ t ∧ t < 0x3f00 :=
      hinv.frame_bounds h.size (show t ∈ pageFrames alloc by rw [hframes]; exact Or.inl rfl)
    have hmem := installTable_mem (s.kernel.fault (faultIn s.kernel p addr errCode)) errCode
      (0x1000 * dirFrame s.kernel p + 4 * (addr / 0x400000)) ht.2 alloc
    have hexec := exec_made hf kEnd hcr3 hentry hz ht.2 hreq ((hplace.made hz t alloc hreq).entry (by omega))
    refine ⟨_, hexec, rfl, rfl, hinv, _, _, hword, hpresent, ?_,
      Or.inr ⟨hz, t, pdeAccess errCode, ht, hfresh, pdeAccess_odd errCode, rfl, hframes, hreq⟩⟩
    rw [putPage_setPte, tableFrame_setPde_self _ _ _ _ (by omega)]
    exact congrArg (writeWord · _ _) hmem
  · have hexec := exec_found hf kEnd hcr3 hentry hz ((hplace.found hz).entry (by omega))
    exact ⟨_, hexec, rfl, rfl, h.alloc, s.kernel.mem, _, hword, hpresent, rfl, Or.inl ⟨hz, rfl, rfl⟩⟩

theorem Faulted.dirFrame_eq {d i j : ℕ} (hf : Faulted R k d i j k') : dirFrame k' = dirFrame k := by
  funext q
  rw [dirFrame, hf.heap, ← dirFrame]

theorem Faulted.split {d i j : ℕ} {dirs : List ℕ} (hf : Faulted R k d i j k')
    (h : Spaces k.mem (pageFrames k.alloc) dirs) (hd : d ∈ dirs) (hi : i < 768) :
    ∃ m w, Spaces m (pageFrames k'.alloc) dirs ∧ tableFrame m d i ≠ 0 ∧ w < 2 ^ 32 ∧ w % 2 = 1 ∧
      k'.mem = writeWord m (0x1000 * tableFrame m d i + 4 * j) w ∧
      (tableFrame k.mem d i ≠ 0 ∧ m = k.mem ∨
        tableFrame k.mem d i = 0 ∧ tableFrame m d i ∉ pageFrames k.alloc ∧ ∃ access t, access.toNat % 2 = 1 ∧
          m = setPde k.mem (0x1000 * d + 4 * i) access (0x1000 * t)) := by
  obtain ⟨m, w, hw, hpresent, hmem, hm⟩ := hf.mem
  obtain ⟨hz, rfl, halloc⟩ | ⟨hz, t, access, ht, hfresh, haccess, rfl, hframes, -⟩ := hm
  · rw [← halloc] at h
    exact ⟨k.mem, w, h, hz, hw, hpresent, hmem, Or.inl ⟨hz, rfl⟩⟩
  · have hpos : 0 < i := by
      refine Nat.pos_of_ne_zero fun h0 => ?_
      rw [h0, h.first d hd] at hz
      omega
    have htable := tableFrame_setPde_self k.mem d i access (show t < 2 ^ 20 by omega)
    refine ⟨_, w, ?_, by omega, hw, hpresent, hmem, Or.inr ⟨hz, by rwa [htable], access, t, haccess, rfl⟩⟩
    rw [hframes]
    exact h.table hd hpos hi ht hfresh

theorem Faulted.spaces {d i j : ℕ} {dirs : List ℕ} (hf : Faulted R k d i j k')
    (h : Spaces k.mem (pageFrames k.alloc) dirs) (hd : d ∈ dirs) (hi : i < 768) (hj : j < 1024) :
    Spaces k'.mem (pageFrames k'.alloc) dirs := by
  obtain ⟨m, w, hm, -, -, -, hmem, -⟩ := hf.split h hd hi
  rw [hmem]
  exact hm.page hd hi hj w

theorem SysInv.faulted (h : SysInv R kPcb s) (hp : p ∈ s.procs) {i j : ℕ} (hi : i < 768) (hj : j < 1024)
    (hf : Faulted R s.kernel (dirFrame s.kernel p) i j k') : SysInv R kPcb ⟨k', s.procs⟩ := by
  have hframes : pageFrames s.kernel.alloc ⊆ pageFrames k'.alloc := by
    obtain ⟨m, w, -, -, -, ⟨-, -, he⟩ | ⟨-, t, access, -, -, -, -, he, -⟩⟩ := hf.mem
    · rw [he]
    · rw [he]
      exact Set.subset_insert t _
  refine ⟨h.size, hf.alloc, ?_, h.kernel, fun q hq => ?_, ?_⟩
  · obtain ⟨free, sons, hlists⟩ := h.lists
    refine ⟨free, sons, ?_⟩
    simp only [hf.heap, hf.freeProcList]
    exact hlists
  · simp only [hf.heap]
    rcases h.dir q hq with hk | ⟨f, hmem, he⟩
    · exact Or.inl hk
    · exact Or.inr ⟨f, hframes hmem, he⟩
  · simp only [hf.dirFrame_eq]
    exact hf.spaces h.spaces (List.mem_map_of_mem hp) hi hj

/-! ## Creation -/

structure Created (k : Kernel) (procs : List ℕ) (father x : ℕ) (k' : Kernel) : Prop where
  first : k.heap k.freeProcList = Pcb.node x
  ne_zero : x ≠ 0
  fresh : x ∉ procs
  mem : k'.mem = uPdClone k.mem (0x1000 * dirFrame k' x) (0x1000 * dirFrame k father)
  dirs : ∀ p ∈ procs, dirFrame k' p = dirFrame k p
  alloc : reqBytes k.alloc 4096 = .ok (kKVirtualAddr + 0x1000 * dirFrame k' x, k'.alloc)
  other : ∀ z, z ≠ k.freeProcList → (∀ y ∈ x :: procs, z < y ∨ y + 48 ≤ z) → k'.heap z = k.heap z
  tss : k'.tssEsp0 = k.tssEsp0

theorem SysInv.create (h : SysInv R kPcb s) (hallowed : Allowed s (.create father)) :
    isListEmpty s.kernel.heap s.kernel.freeProcList = true ∧ createProc s.kernel father = .ok (0, s.kernel) ∨
      ∃ x k', createProc s.kernel father = .ok (x, k') ∧ Created s.kernel s.procs father x k' ∧
        SysInv R kPcb ⟨k', x :: s.procs⟩ := by
  obtain ⟨hf, hready⟩ := hallowed
  obtain ⟨free, sons, hlists⟩ := h.lists
  cases free with
  | nil => exact Or.inl ⟨hlists.empty, hlists.createProc_full⟩
  | cons x rest =>
    obtain ⟨f, alloc, hreq, hinv, hfresh, hframes⟩ := h.alloc.reqFrame h.size (hready hlists.not_empty)
    have hbound := hinv.frame_bounds h.size (show f ∈ pageFrames alloc by rw [hframes]; exact Or.inl rfl)
    have hcreate := hlists.createProc hf hreq
    rw [physical_direct (by omega), h.physical_dir hf] at hcreate
    have hdirx := hlists.created_pageDir (a := kKVirtualAddr + 0x1000 * f) hf
    have hdirp (p : ℕ) (hp : p ∈ s.procs) := hlists.created_field (a := kKVirtualAddr + 0x1000 * f) hf
      (List.mem_append_left rest hp) (show 4 < 48 by omega) fun _ => by omega
    have hother (z : ℕ) (hz : z ≠ s.kernel.freeProcList) (hy : ∀ y ∈ x :: s.procs, z < y ∨ y + 48 ≤ z) :=
      hlists.created_other (a := kKVirtualAddr + 0x1000 * f) hf hz hy
    have hlists' := hlists.created (a := kKVirtualAddr + 0x1000 * f) hf
    generalize createdHeap s.kernel.heap s.kernel.freeProcList x (kKVirtualAddr + 0x1000 * f) father
      (lastSon sons father) = heap at hcreate hdirx hdirp hother hlists'
    refine Or.inr ⟨x, _, hcreate, ?_⟩
    have hframex : physical (heap (Pcb.pageDir x)) / 0x1000 = f := by
      rw [hdirx, physical_direct (by omega), Nat.mul_div_cancel_left _ (by decide)]
    have hframep : ∀ p ∈ s.procs, physical (heap (Pcb.pageDir p)) / 0x1000 = dirFrame s.kernel p := by
      intro p hp
      rw [Pcb.pageDir, hdirp p hp, ← Pcb.pageDir, ← dirFrame]
    have hpos : 0 < x := (hlists.bound x (by simp)).1
    refine ⟨⟨hlists.next_head, hpos.ne', hlists.new_notMem, ?_, hframep, ?_, hother, rfl⟩, h.size, hinv,
      ⟨rest, _, hlists'⟩, List.mem_cons_of_mem x h.kernel, fun p hp => ?_, ?_⟩
    · simp only [dirFrame, hframex]
    · simp only [dirFrame, hframex]
      exact hreq
    · simp only [hframes]
      rcases List.mem_cons.mp hp with rfl | hp
      · exact Or.inr ⟨f, Or.inl rfl, hdirx⟩
      · simp only [Pcb.pageDir, hdirp p hp]
        rcases h.dir p hp with hk | ⟨g, hmem, he⟩
        · exact Or.inl hk
        · exact Or.inr ⟨g, Or.inr hmem, he⟩
    · have hmap : (x :: s.procs).map (fun p => physical (heap (Pcb.pageDir p)) / 0x1000) =
          f :: s.procs.map (dirFrame s.kernel) := by
        rw [List.map_cons, hframex]
        exact congrArg _ (List.map_congr_left hframep)
      have hspaces := h.spaces.clone (List.mem_map_of_mem hf) hbound hfresh
      rw [← hmap, ← hframes] at hspaces
      exact hspaces

theorem SysInv.exec (h : SysInv R kPcb s) {op : Op} (hop : Settled s op) :
    ∃ s', s.exec kEnd op = .ok s' ∧ SysInv R kPcb s' := by
  cases op with
  | create father =>
    rcases h.create hop.1 with ⟨-, hfull⟩ | ⟨x, k', hcreate, hc, hinv⟩
    · exact ⟨s, bind_ok hfull _, h⟩
    · refine ⟨_, bind_ok hcreate _, ?_⟩
      simp only [if_neg hc.ne_zero]
      exact hinv
  | fault p addr errCode =>
    obtain ⟨k', hexec, hf⟩ := h.fault kEnd hop
    obtain ⟨hp, haddr, -⟩ := hop.1
    exact ⟨_, bind_ok hexec _, h.faulted hp (by omega) (by omega) hf⟩

theorem SysInv.created (h : SysInv R kPcb s) (hallowed : Allowed s (.create father)) {x : ℕ}
    (hcreate : createProc s.kernel father = .ok (x, k')) (hx : x ≠ 0) :
    Created s.kernel s.procs father x k' ∧ SysInv R kPcb ⟨k', x :: s.procs⟩ := by
  rcases h.create hallowed with ⟨-, hfull⟩ | ⟨y, k₁, hcreate₁, hc, hinv₁⟩
  · obtain ⟨rfl, -⟩ := Prod.mk.inj (Except.ok.inj (hcreate.symm.trans hfull))
    exact absurd rfl hx
  · obtain ⟨rfl, rfl⟩ := Prod.mk.inj (Except.ok.inj (hcreate.symm.trans hcreate₁))
    exact ⟨hc, hinv₁⟩

/-! ## Boot -/

/-- The state in which the kernel starts its first process: the allocator works, the
directory and the tables of `PagingInit` are in place, and the `Pcb`s are distinct
records. The kernel is linked to start at 1 MB. -/
structure Booted (kEnd kPcb : ℕ) (k : Kernel) : Prop where
  kEnd_ge : 0x100000 ≤ kEnd
  kEnd_le : kEnd ≤ 2 ^ 25
  alloc : Invariant (reservedSize kEnd) k.alloc k.alloc.lists
  tables : DirectTables k.mem
  dir : ∀ i < 1024, pde k.mem 1 i = initialPde i
  pageDir : k.heap (Pcb.pageDir kPcb) = directMappingPhysAddr kKPdAddr
  lists : ∃ free, ProcLists k.heap k.freeProcList [kPcb] free fun _ => []

theorem Booted.sysInv (h : Booted kEnd kPcb k) : SysInv (reservedSize kEnd) kPcb ⟨k, [kPcb]⟩ := by
  have hdir : k.heap (Pcb.pageDir kPcb) = 0x1000 := h.pageDir
  have hframe : dirFrame k kPcb = 1 := by
    rw [dirFrame, hdir]
    decide
  have hsize : 2 ^ 20 ≤ reservedSize kEnd := by
    have hge := h.kEnd_ge
    have hle := h.kEnd_le
    rw [reservedSize, getMemBlockSize, getMemBlockSizeType_eq_clog (by omega) (by omega)]
    exact hge.trans (Nat.le_pow_clog (by decide) kEnd)
  obtain ⟨free, hlists⟩ := h.lists
  have hmap : [kPcb].map (dirFrame k) = [1] := by rw [List.map_singleton, hframe]
  refine ⟨hsize, h.alloc, ⟨free, _, hlists⟩, List.mem_singleton_self kPcb, fun p hp => ?_, ?_⟩
  · obtain rfl := List.mem_singleton.mp hp
    exact Or.inl ⟨hdir, rfl⟩
  have huser : ∀ i, 0 < i → i < 768 → tableFrame k.mem 1 i = 0 := by
    intro i h1 h2
    rw [tableFrame, h.dir i (by omega), initialPde, if_neg (by omega), if_pos h2]
    decide
  simp only [hmap]
  refine ⟨fun f hf => h.alloc.frame_bounds hsize hf, h.tables, List.nodup_singleton 1, ?_, ?_, ?_, ?_, ?_⟩
  · intro d hd
    exact Or.inl (List.mem_singleton.mp hd)
  · intro d hd
    obtain rfl := List.mem_singleton.mp hd
    rw [tableFrame, h.dir 0 (by omega)]
    decide
  · intro d hd i h1 h2
    obtain rfl := List.mem_singleton.mp hd
    exact h.dir i h2
  · intro d hd i h1 h2 hne
    obtain rfl := List.mem_singleton.mp hd
    exact absurd (huser i h1 h2) hne
  · intro d hd e he i j h1 h2 h3 h4 hne
    obtain rfl := List.mem_singleton.mp hd
    exact absurd (huser i h1 h2) hne

theorem Booted.reached (h : Booted kEnd kPcb k) {ops : List Op}
    (hops : Along (Sys.exec kEnd) Settled ⟨k, [kPcb]⟩ ops) :
    ∃ s, run (Sys.exec kEnd) ⟨k, [kPcb]⟩ ops = .ok s ∧ SysInv (reservedSize kEnd) kPcb s :=
  run_returns (fun _ _ hs hop => hs.exec hop) h.sysInv hops

theorem Booted.sysInv_of_run (h : Booted kEnd kPcb k) {ops : List Op}
    (hops : Along (Sys.exec kEnd) Settled ⟨k, [kPcb]⟩ ops)
    (hrun : run (Sys.exec kEnd) ⟨k, [kPcb]⟩ ops = .ok s) : SysInv (reservedSize kEnd) kPcb s := by
  obtain ⟨s', hrun', hinv⟩ := h.reached hops
  obtain rfl := Except.ok.inj (hrun.symm.trans hrun')
  exact hinv

def bootHeap (z : ℕ) : ℕ :=
  if z = 0xc0300200 then 0xc0300128
  else if z = 0xc0300128 then 0xc0300200
  else if z = 0xc0300004 then 0x1000
  else if z = 0xc0300300 then 0xc0300400
  else if z = 0xc0300408 then 0xc0300100
  else 0

def bootKernel (alloc : Allocator) : Kernel where
  mem := kernelTables fun _ => 0
  heap := bootHeap
  alloc := alloc
  avlMem := []
  pageState := fun _ => 0
  cr2 := 0
  cr3 := 0x1000
  freeProcList := 0xc0300200
  freeThreadList := 0xc0300500
  tssEsp0 := 0xc0300300
  log := []

theorem bootHeap_lists : ProcLists bootHeap 0xc0300200 [0xc0300000] [0xc0300100] fun _ => [] := by
  refine ⟨⟨?_, ?_, ?_⟩, ?_, ?_, ?_, ?_, ?_⟩
  · rintro i (rfl | ⟨p, hp, rfl⟩)
    · exact ⟨(by decide : bootHeap 0xc0300200 = 0xc0300128), (by decide : bootHeap 0xc0300128 = 0xc0300200)⟩
    · obtain rfl := List.mem_singleton.mp hp
      exact (by decide : bootHeap 0xc0300020 = 0)
  · rintro i (rfl | ⟨p, hp, rfl⟩)
    · decide
    · exact List.nodup_singleton _
  · rintro i (rfl | ⟨p, hp, rfl⟩) j (rfl | ⟨q, hq, rfl⟩) z hi hj
    · rfl
    · obtain rfl := List.mem_singleton.mp hq
      simp only [procHead, procNodes, List.map_nil, List.map_cons, List.mem_cons, List.not_mem_nil, or_false,
        Pcb.left, Pcb.node] at hi hj
      omega
    · obtain rfl := List.mem_singleton.mp hp
      simp only [procHead, procNodes, List.map_nil, List.map_cons, List.mem_cons, List.not_mem_nil, or_false,
        Pcb.left, Pcb.node] at hi hj
      omega
    · rw [List.mem_singleton.mp hp, List.mem_singleton.mp hq]
  · simp [Apart, pcbBytes]
  · simp [pcbBytes]
  · simp [pcbBytes]
  · simp
  · intro x hx
    obtain rfl := List.mem_singleton.mp hx
    decide

theorem reqPage_clear : (reqPage fun _ => 0).1 = 0x4000000 := by
  rw [reqPage, show kVirtualPageNum - kDynamicMappingStartPage = 0xfbfff + 1 from rfl, reqPageFrom,
    if_pos (by decide)]
  decide

def staleWord (a w : ℕ) : Memory := writeWord (fun _ => 0) a w

def bootOn (base : Memory) (alloc : Allocator) : Kernel := { bootKernel alloc with mem := kernelTables base }

theorem bootOn_booted {alloc : Allocator} {ls : Slot → List ℕ} (h : Carved 20 alloc ls 0) (base : Memory) :
    Booted 0x100000 0xc0300000 (bootOn base alloc) := by
  obtain ⟨htables, hdir, -⟩ := kernelTables_spec base
  refine ⟨le_rfl, by norm_num, (h.invariant (by norm_num)).lists, htables.direct, fun i hi => ?_,
    (by decide : bootHeap 0xc0300004 = directMappingPhysAddr kKPdAddr), [0xc0300100], bootHeap_lists⟩
  rw [pde, Nat.mul_one, getPde]
  exact (congrArg Pde.ofWord (hdir i hi)).trans (Pde.ofWord_toWord _)

theorem bootKernel_booted {alloc : Allocator} {ls : Slot → List ℕ} (h : Carved 20 alloc ls 0) :
    Booted 0x100000 0xc0300000 (bootKernel alloc) :=
  bootOn_booted h fun _ => 0

theorem bootOn_readWord (base : Memory) (alloc : Allocator) {t j : ℕ} (ht : 0x100 ≤ t) :
    readWord (bootOn base alloc).mem (0x1000 * t + 4 * j) = readWord base (0x1000 * t + 4 * j) :=
  readWord_congr fun x _ _ => (kernelTables_spec base).2.2 x (by omega) (by omega)

theorem bootOn_noTable {alloc : Allocator} {ls : Slot → List ℕ} (h : Carved 20 alloc ls 0) (base : Memory) {i : ℕ}
    (h0 : 0 < i) (hi : i < 768) : tableFrame (bootOn base alloc).mem 1 i = 0 := by
  rw [tableFrame, (bootOn_booted h base).dir i (by omega), initialPde, if_neg (by omega), if_pos hi]
  decide

theorem bootOn_dirFrame (base : Memory) (alloc : Allocator) : dirFrame (bootOn base alloc) 0xc0300000 = 1 :=
  (by decide : physical (bootHeap 0xc0300004) / 0x1000 = 1)

/-- The memory in which the first frame that is given out has an entry for itself. -/
def tableBase : Memory := staleWord 0x3effbfc 0x3eff003

theorem tableBase_word (alloc : Allocator) :
    readWord (bootOn tableBase alloc).mem (0x1000 * 0x3eff + 4 * (0x3eff % 1024)) = 0x1000 * 0x3eff + 3 :=
  (bootOn_readWord _ _ (by decide)).trans (readWord_writeWord (by decide))

theorem tableBase_tableMapped {alloc : Allocator} {ls : Slot → List ℕ} (h : Carved 20 alloc ls 0) (errCode : ℕ) :
    TableMapped (bootOn tableBase alloc) 1 15 errCode := by
  obtain ⟨alloc₁, -, hreq, -⟩ := h.first_frames
  refine ⟨fun hne => absurd (bootOn_noTable h tableBase (by decide) (by decide)) hne, fun _ t alloc' hreq' => ?_⟩
  obtain rfl : t = 0x3eff := by
    have := (Prod.mk.inj (Except.ok.inj (hreq'.symm.trans hreq))).1
    omega
  exact (ownEntry_setPde (by decide) (by decide) (pdeAccess_odd errCode) (tableBase_word alloc)).mapped

theorem tableBase_fault {alloc : Allocator} {ls : Slot → List ℕ} (h : Carved 20 alloc ls 0)
    (herr : isBitSet errCode 0 = false) :
    ∃ k, Settled ⟨bootOn tableBase alloc, [0xc0300000]⟩ (.fault 0xc0300000 0x3c00000 errCode) ∧
      (faultIn (bootOn tableBase alloc) 0xc0300000 0x3c00000 errCode).exec 0x100000 (bootOn tableBase alloc) = .ok k ∧
      SysInv (reservedSize 0x100000) 0xc0300000 ⟨k, [0xc0300000]⟩ ∧ PageReady k.alloc ∧ k.heap = bootHeap ∧
      k.freeProcList = 0xc0300200 ∧ OwnEntry k.mem 1 0x3eff ∧ readWord k.mem (0x1000 * 0x3eff + 4 * 1) = 0 := by
  obtain ⟨hready, hready'⟩ := h.pageReady
  obtain ⟨alloc₁, -, hreq, -⟩ := h.first_frames
  have hinv := (bootOn_booted h tableBase).sysInv
  have hz := bootOn_noTable h tableBase (i := 15) (by decide) (by decide)
  have hsettled : Settled ⟨bootOn tableBase alloc, [0xc0300000]⟩ (.fault 0xc0300000 0x3c00000 errCode) := by
    refine ⟨⟨List.mem_singleton_self _, by decide, herr, fun _ => hready⟩, ?_⟩
    simp only [InPlace, bootOn_dirFrame]
    exact tableBase_tableMapped h errCode
  obtain ⟨k, hexec, hf⟩ := hinv.fault 0x100000 hsettled
  have hf' : Faulted (reservedSize 0x100000) (bootOn tableBase alloc) 1 15 0 k :=
    (congrArg (Faulted _ _ · 15 0 k) (bootOn_dirFrame tableBase alloc)).mp hf
  obtain ⟨m, w, hw, -, hmem, ⟨hne, -⟩ | ⟨-, t, access, -, -, haccess, rfl, -, hreq'⟩⟩ := hf'.mem
  · exact absurd hz hne
  obtain rfl : t = 0x3eff := by
    have := (Prod.mk.inj (Except.ok.inj (hreq'.symm.trans hreq))).1
    omega
  rw [tableFrame_setPde_self _ _ _ _ (by decide)] at hmem
  refine ⟨k, hsettled, hexec, hinv.faulted (List.mem_singleton_self _) (by decide) (by decide) hf,
    hready' _ _ hreq', hf.heap, hf.freeProcList, ?_, ?_⟩
  · rw [hmem]
    exact (ownEntry_setPde (by decide) (by decide) haccess (tableBase_word alloc)).page (by decide) (by decide)
      (by decide) (by decide) w
  · rw [hmem, readWord_writeWord_of_disjoint (by decide), setPde, readWord_writeWord_of_disjoint (by decide),
      bootOn_readWord _ _ (by decide), tableBase, staleWord, readWord_writeWord_of_disjoint (by decide)]
    rfl

theorem create_first (h : SysInv R 0xc0300000 ⟨k, [0xc0300000]⟩) (hheap : k.heap = bootHeap)
    (hlist : k.freeProcList = 0xc0300200) (hready : PageReady k.alloc) :
    ∃ k', createProc k 0xc0300000 = .ok (0xc0300100, k') ∧
      Created k [0xc0300000] 0xc0300000 0xc0300100 k' ∧
      SysInv R 0xc0300000 ⟨k', [0xc0300100, 0xc0300000]⟩ := by
  have hallowed : Allowed ⟨k, [0xc0300000]⟩ (.create 0xc0300000) :=
    ⟨List.mem_singleton_self _, fun _ => hready⟩
  rcases h.create hallowed with
    ⟨hempty, -⟩ | ⟨x, k', hcreate, hc, hinv⟩
  · rw [hheap, hlist, bootHeap_lists.not_empty] at hempty
    exact Bool.noConfusion hempty
  · have hfirst := hc.first
    rw [hheap, hlist, show bootHeap 0xc0300200 = 0xc0300128 from by decide, Pcb.node] at hfirst
    obtain rfl : x = 0xc0300100 := by omega
    exact ⟨k', hcreate, hc, hinv⟩

theorem bootOn_create {alloc : Allocator} {ls : Slot → List ℕ} (h : Carved 20 alloc ls 0) (base : Memory) :
    Allowed ⟨bootOn base alloc, [0xc0300000]⟩ (.create 0xc0300000) ∧
      ∃ k, createProc (bootOn base alloc) 0xc0300000 = .ok (0xc0300100, k) ∧
        Sys.exec 0x100000 ⟨bootOn base alloc, [0xc0300000]⟩ (.create 0xc0300000) =
          .ok ⟨k, [0xc0300100, 0xc0300000]⟩ ∧
        Created (bootOn base alloc) [0xc0300000] 0xc0300000 0xc0300100 k ∧
        SysInv (reservedSize 0x100000) 0xc0300000 ⟨k, [0xc0300100, 0xc0300000]⟩ ∧ PageReady k.alloc := by
  obtain ⟨hready, hready'⟩ := h.pageReady
  obtain ⟨k, hcreate, hc, hinv⟩ := create_first (bootOn_booted h base).sysInv rfl rfl hready
  exact ⟨⟨List.mem_singleton_self _, fun _ => hready⟩, k, hcreate, bind_ok hcreate _, hc, hinv,
    hready' _ _ hc.alloc⟩

end XyOS.Process
