import XyOS.Process.FaultRepair

/-! Page directories whose present entries name page tables, and a not-present fault that reaches
its page table. -/

namespace XyOS.Process
open Runs DirectMapping PageAllocator Paging

/-- The page directory in frame `d`, the kernel's own or a block of `ReqBytes`. The present
entries are those that name a page table: one of the kernel's, or a block of `ReqBytes`. -/
structure Directory (R : ℕ) (k : Kernel) (d : ℕ) : Prop where
  size : 2 ^ 20 ≤ R
  alloc : Invariant R k.alloc k.alloc.lists
  dir : d = 1 ∨ d ∈ pageFrames k.alloc
  present : ∀ i < 1024, Pde.Present (pde k.mem d i) ↔ tableFrame k.mem d i ≠ 0
  table : ∀ i < 1024, tableFrame k.mem d i ≠ 0 → tableFrame k.mem d i ≠ d ∧
    (tableFrame k.mem d i < 0x100 ∨ tableFrame k.mem d i ∈ pageFrames k.alloc)

/-- `PfHandler` finds the directory entry of the faulting address, and finds its page table. -/
structure Reached (d : ℕ) (k : Kernel) (f : PageFault) : Prop where
  entry : (k.fault f).linear (pdePtr (k.fault f)) = some (0x1000 * d + 4 * (f.addr / 0x400000))
  table : TableMapped k d (f.addr / 0x400000) f.errCode

variable {R kEnd d i j t v errCode : ℕ} {k k₁ k' : Kernel} {f : PageFault} {alloc : Allocator}

theorem Directory.bounds (h : Directory R k d) : 1 ≤ d ∧ d < 0x3f00 := by
  rcases h.dir with rfl | hd
  · omega
  · have := h.alloc.frame_bounds h.size hd
    omega

theorem Directory.ne_fresh (h : Directory R k d) (ht : 0x100 ≤ t) (hfresh : t ∉ pageFrames k.alloc) : t ≠ d := by
  rintro rfl
  rcases h.dir with rfl | hd
  · omega
  · exact hfresh hd

theorem Directory.makeTable (h : Directory R k d) (hi : i < 1024) (ht : 0x100 ≤ t ∧ t < 0x3f00)
    (hfresh : t ∉ pageFrames k.alloc) (halloc : Invariant R k₁.alloc k₁.alloc.lists)
    (hframes : pageFrames k₁.alloc = insert t (pageFrames k.alloc))
    (hmem : k₁.mem = setPde k.mem (0x1000 * d + 4 * i) (pdeAccess errCode) (0x1000 * t)) :
    Directory R k₁ d := by
  have hself := tableFrame_setPde_self k.mem d i (pdeAccess errCode) (show t < 2 ^ 20 by omega)
  have hentry : pde k₁.mem d i = makePde (pdeAccess errCode) (0x1000 * t) := by
    rw [hmem, pde_setPde_self]
  have hother : ∀ j < 1024, j ≠ i → pde k₁.mem d j = pde k.mem d j := by
    intro j hj hne
    rw [hmem, pde_setPde_of_ne k.mem _ hi hj (fun he => hne he.2)]
  rw [← hmem] at hself
  refine ⟨h.size, halloc, h.dir.imp id fun hd => ?_, fun j hj => ?_, fun j hj hne => ?_⟩
  · rw [hframes]
    exact Or.inr hd
  · by_cases hji : j = i
    · rw [hji, hself, hentry]
      exact ⟨fun _ => by omega, fun _ => makePde_present errCode _⟩
    · rw [tableFrame, hother j hj hji]
      exact h.present j hj
  · rw [hframes]
    by_cases hji : j = i
    · rw [hji, hself]
      exact ⟨h.ne_fresh ht.1 hfresh, Or.inr (Or.inl rfl)⟩
    · rw [tableFrame, hother j hj hji] at hne ⊢
      exact ⟨(h.table j hj hne).1, (h.table j hj hne).2.imp id Or.inr⟩

theorem Directory.congr (h : Directory R k d) (halloc : k₁.alloc = k.alloc) (hmem : SameFrame k.mem k₁.mem d) :
    Directory R k₁ d := by
  refine ⟨h.size, ?_, ?_, fun i hi => ?_, fun i hi => ?_⟩
  · rw [halloc]
    exact h.alloc
  · rw [halloc]
    exact h.dir
  · rw [hmem.pde hi, hmem.tableFrame hi]
    exact h.present i hi
  · rw [halloc, hmem.tableFrame hi]
    exact h.table i hi

/-! ## The steps of the handler -/

inductive Tabled (k : Kernel) (d : ℕ) (f : PageFault) : Kernel → Prop
  | found (hne : tableFrame k.mem d (f.addr / 0x400000) ≠ 0) : Tabled k d f (k.fault f)
  | made (t : ℕ) (alloc : Allocator) (hz : tableFrame k.mem d (f.addr / 0x400000) = 0)
      (ht : 0x100 ≤ t ∧ t < 0x3f00) (hfresh : t ∉ pageFrames k.alloc)
      (hreq : reqBytes k.alloc kPtMaxSize = .ok (kKVirtualAddr + 0x1000 * t, alloc)) :
      Tabled k d f (installTable (k.fault f) f.errCode (0x1000 * d + 4 * (f.addr / 0x400000))
        (kKVirtualAddr + 0x1000 * t) alloc)

theorem Directory.exec (h : Directory R k d) (hcr3 : f.cr3 = 0x1000 * d) (haddr : f.addr < 2 ^ 32)
    (hf : f.NotPresent) (hready : tableFrame k.mem d (f.addr / 0x400000) = 0 → PageReady k.alloc)
    (hreach : Reached d k f) (kEnd : ℕ) :
    ∃ k₁, f.exec kEnd k = .ok (putPage k₁ f.errCode (pteOf k₁.mem d f.addr)) ∧ Tabled k d f k₁ ∧
      Directory R k₁ d ∧ tableFrame k₁.mem d (f.addr / 0x400000) ≠ 0 := by
  have hj : f.addr / 0x1000 % 1024 < 1024 := by omega
  by_cases hz : tableFrame k.mem d (f.addr / 0x400000) = 0
  · obtain ⟨t, alloc, hreq, hinv, hfresh, hframes⟩ := h.alloc.reqFrame h.size (hready hz)
    have ht : 0x100 ≤ t ∧ t < 0x3f00 :=
      hinv.frame_bounds h.size (show t ∈ pageFrames alloc by rw [hframes]; exact Or.inl rfl)
    have hmem := installTable_mem (k.fault f) f.errCode (0x1000 * d + 4 * (f.addr / 0x400000)) ht.2 alloc
    have htable : tableFrame (installTable (k.fault f) f.errCode (0x1000 * d + 4 * (f.addr / 0x400000))
        (kKVirtualAddr + 0x1000 * t) alloc).mem d (f.addr / 0x400000) = t := by
      rw [hmem, tableFrame_setPde_self _ _ _ _ (by omega)]
    refine ⟨_, ?_, Tabled.made t alloc hz ht hfresh hreq, h.makeTable (by omega) ht hfresh hinv hframes hmem, by omega⟩
    rw [pteOf, htable]
    exact exec_made hf kEnd hcr3 hreach.entry hz ht.2 hreq ((hreach.table.made hz t alloc hreq).entry hj)
  · exact ⟨k.fault f, exec_found hf kEnd hcr3 hreach.entry hz ((hreach.table.found hz).entry hj), Tabled.found hz,
      h.congr rfl fun _ _ _ => rfl, hz⟩

section PutPage
variable (h : Directory R k d) (hv : v < 2 ^ 32) (hne : tableFrame k.mem d (v / 0x400000) ≠ 0) (errCode : ℕ)
include h hv hne

theorem Directory.sameDir : SameFrame k.mem (putPage k errCode (pteOf k.mem d v)).mem d := by
  rw [putPage_setPte, Paging.setPte]
  exact sameFrame_writeWord k.mem _ (by omega) (h.table _ (by omega) hne).1.symm

theorem Directory.putPage : Directory R (putPage k errCode (pteOf k.mem d v)) d :=
  h.congr rfl (h.sameDir hv hne errCode)

theorem Directory.pteOf_putPage : pteOf (Process.putPage k errCode (pteOf k.mem d v)).mem d v = pteOf k.mem d v := by
  rw [pteOf, (h.sameDir hv hne errCode).tableFrame (by omega), ← pteOf]

end PutPage

/-! ## The directory of PagingInit -/

theorem initialPde_ptAddr (i : ℕ) : (initialPde i).ptAddr.toNat =
    if i = 0 then 0xc else if i < 768 then 0 else if i < 784 then 0xd + (i - 768) else 0 := by
  unfold initialPde
  split
  · decide
  split
  · decide
  split
  · rw [show 0xd000 + 0x1000 * (i - 768) = 0x1000 * (0xd + (i - 768)) by omega, makePde_ptAddr _ (by omega)]
  · decide

theorem initialPde_present (i : ℕ) : Pde.Present (initialPde i) ↔ (initialPde i).ptAddr.toNat ≠ 0 := by
  rw [initialPde_ptAddr, present_iff]
  by_cases h0 : i = 0
  · rw [h0]
    decide
  by_cases hu : i < 768
  · rw [initialPde, if_neg h0, if_pos hu, if_neg h0, if_pos hu]
    decide
  by_cases hk : i < 784
  · rw [initialPde_direct (by omega) hk, if_neg h0, if_neg hu, if_pos hk]
    omega
  · rw [initialPde, if_neg h0, if_neg hu, if_neg hk, if_neg h0, if_neg hu, if_neg hk]
    decide

theorem Directory.initial (hsize : 2 ^ 20 ≤ R) (halloc : Invariant R k.alloc k.alloc.lists)
    (hdir : ∀ i < 1024, pde k.mem 1 i = initialPde i) : Directory R k 1 := by
  refine ⟨hsize, halloc, Or.inl rfl, fun i hi => ?_, fun i hi hne => ?_⟩
  · rw [tableFrame, hdir i hi]
    exact initialPde_present i
  · rw [tableFrame, hdir i hi, initialPde_ptAddr] at hne ⊢
    exact ⟨by grind, Or.inl (by grind)⟩

theorem bootOn_directory {alloc : Allocator} {ls : Slot → List ℕ} (h : Carved 20 alloc ls 0) (base : Memory) :
    Directory (reservedSize 0x100000) (bootOn base alloc) 1 :=
  have hboot := bootOn_booted h base
  Directory.initial hboot.sysInv.size hboot.alloc hboot.dir

theorem tableBase_reached {alloc : Allocator} {ls : Slot → List ℕ} (h : Carved 20 alloc ls 0) {addr : ℕ}
    (haddr : addr / 0x400000 = 15) (errCode : ℕ) : Reached 1 (bootOn tableBase alloc) ⟨0x1000, addr, errCode⟩ := by
  constructor
  · rw [pdePtr_fault (show 0x1000 < 0x4000000 by decide) (show addr < 0x80000000 by omega)]
    exact bootOn_linear tableBase alloc rfl (show 0x1000 + 4 * (addr / 0x400000) < 0x4000000 by omega)
  · simp only [haddr]
    exact tableBase_tableMapped h errCode

end XyOS.Process
