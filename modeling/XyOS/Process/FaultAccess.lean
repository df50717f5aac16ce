import XyOS.Process.FaultDirectory

/-! Runs of not-present faults in one address space, and whether the access that is retried
after a fault is allowed. The directory entry is shared by the 1024 pages of a region. -/

namespace XyOS.Process
open Runs DirectMapping PageAllocator Paging

def PageFault.isWrite (f : PageFault) : Bool := isBitSet f.errCode 1

def PageFault.region (f : PageFault) : ℕ := f.addr / 0x400000

def combinedAccess (m : Memory) (d v : ℕ) : BitVec 8 :=
  (pde m d (v / 0x400000)).access &&& (getPte m (pteOf m d v)).access.setWidth 8

def UserMay (m : Memory) (d v : ℕ) (write : Bool) : Prop :=
  (combinedAccess m d v).getLsbD 0 = true ∧ (combinedAccess m d v).getLsbD 2 = true ∧
    (write = true → (combinedAccess m d v).getLsbD 1 = true)

/-- A not-present fault below 2 GB while the directory in frame `d` is in `%cr3`. A page table
that it needs is there for the asking. -/
def Served (d : ℕ) (k : Kernel) (f : PageFault) : Prop :=
  f.cr3 = 0x1000 * d ∧ f.addr < 0x80000000 ∧ f.NotPresent ∧ (tableFrame k.mem d f.region = 0 → PageReady k.alloc)

def Reaching (d : ℕ) (k : Kernel) (f : PageFault) : Prop := Served d k f ∧ Reached d k f

/-- The fault that made the page table for the region of `f`: the first one there. -/
def opener (faults : List PageFault) (f : PageFault) : PageFault :=
  (faults.find? fun g => g.region == f.region).getD f

variable {R kEnd d : ℕ} {k k₁ k' : Kernel} {f : PageFault} {faults : List PageFault} {alloc : Allocator}

theorem Served.region_lt (h : Served d k f) : f.region < 1024 := by
  have := h.2.1
  unfold PageFault.region
  omega

/-! ## One fault -/

structure Stepped (R d : ℕ) (k : Kernel) (f : PageFault) (k' : Kernel) : Prop where
  dir : Directory R k' d
  table : tableFrame k'.mem d f.region ≠ 0
  pte : ∃ page, getPte k'.mem (pteOf k'.mem d f.addr) = makePte (pteAccess f.errCode) page
  made : tableFrame k.mem d f.region = 0 → (pde k'.mem d f.region).access = pdeAccess f.errCode
  kept : ∀ i < 1024, (i = f.region → tableFrame k.mem d i ≠ 0) → pde k'.mem d i = pde k.mem d i

theorem Directory.step (h : Directory R k d) (hf : Reaching d k f) (kEnd : ℕ) :
    ∃ k', f.exec kEnd k = .ok k' ∧ Stepped R d k f k' := by
  obtain ⟨⟨hcr3, haddr, hpresent, hready⟩, hreach⟩ := hf
  obtain ⟨k₁, hexec, htab, hdir, hne⟩ := h.exec hcr3 (by omega) hpresent hready hreach kEnd
  have hsame := hdir.sameDir (by omega) hne f.errCode
  have hi : f.region < 1024 := by
    unfold PageFault.region
    omega
  refine ⟨_, hexec, hdir.putPage (by omega) hne _, ?_, ⟨(reqPage k₁.pageState).1, ?_⟩, fun hz => ?_,
    fun i hi' hold => ?_⟩
  · rw [hsame.tableFrame hi]
    exact hne
  · rw [hdir.pteOf_putPage (by omega) hne, getPte, readWord_putPage, Pte.ofWord_toWord]
  · rw [hsame.pde hi]
    cases htab with
    | found hold => exact absurd hz hold
    | made t alloc _ ht =>
      rw [installTable_mem _ _ _ ht.2, PageFault.region, pde_setPde_self]
      rfl
  · rw [hsame.pde hi']
    cases htab with
    | found _ => rfl
    | made t alloc hz ht =>
      rw [installTable_mem _ _ _ ht.2]
      apply pde_setPde_of_ne k.mem _ hi hi'
      rintro ⟨-, rfl⟩
      exact hold rfl hz

/-! ## Runs -/

theorem Directory.run (h : Directory R k d)
    (hfaults : Along (PageFault.exec kEnd) (Reaching d) k faults) :
    ∃ k₁, run (PageFault.exec kEnd) k faults = .ok k₁ ∧ Directory R k₁ d := by
  refine run_returns (fun k f hk hf => ?_) h hfaults
  obtain ⟨k', hexec, hk'⟩ := hk.step hf kEnd
  exact ⟨k', hexec, hk'.dir⟩

theorem Directory.stepped (h : Directory R k d) (hf : Reaching d k f) (hexec : f.exec kEnd k = .ok k') :
    Stepped R d k f k' := by
  obtain ⟨k'', hexec', hk''⟩ := h.step hf kEnd
  obtain rfl := Except.ok.inj (hexec.symm.trans hexec')
  exact hk''

theorem Directory.run_kept (h : Directory R k d)
    (hfaults : Along (PageFault.exec kEnd) (Reaching d) k faults)
    (hrun : Runs.run (PageFault.exec kEnd) k faults = .ok k₁) {i : ℕ} (hi : i < 1024)
    (hne : tableFrame k.mem d i ≠ 0) : pde k₁.mem d i = pde k.mem d i := by
  refine (run_preserves (I := fun k' => Directory R k' d ∧ pde k'.mem d i = pde k.mem d i)
    (fun k₂ f k₃ hk₂ hf hexec => ?_) ⟨h, rfl⟩ hfaults hrun).2
  have hstep := hk₂.1.stepped hf hexec
  have hne₂ : tableFrame k₂.mem d i ≠ 0 := by
    rw [tableFrame, hk₂.2]
    exact hne
  exact ⟨hstep.dir, (hstep.kept i hi fun _ => hne₂).trans hk₂.2⟩

theorem Directory.run_opened (h : Directory R k d)
    (hfaults : Along (PageFault.exec kEnd) (Reaching d) k faults)
    (hrun : Runs.run (PageFault.exec kEnd) k faults = .ok k₁) {i : ℕ} (hi : i < 1024)
    (hz : tableFrame k.mem d i = 0) :
    match faults.find? fun g => g.region == i with
    | none => tableFrame k₁.mem d i = 0
    | some g => tableFrame k₁.mem d i ≠ 0 ∧ (pde k₁.mem d i).access = pdeAccess g.errCode := by
  induction faults generalizing k with
  | nil =>
    obtain rfl := Except.ok.inj hrun
    exact hz
  | cons g faults ih =>
    obtain ⟨k₂, hexec, hrest⟩ := of_bind_ok hrun
    have hstep := h.stepped hfaults.1 hexec
    have hfaults₂ := hfaults.2 k₂ hexec
    by_cases hg : g.region = i
    · rw [List.find?_cons_of_pos (by simpa using hg)]
      subst hg
      have hkept := hstep.dir.run_kept hfaults₂ hrest hi hstep.table
      simp only [tableFrame, hkept]
      exact ⟨hstep.table, hstep.made hz⟩
    · rw [List.find?_cons_of_neg (by simpa using hg)]
      have hkept := hstep.kept i hi fun he => absurd he.symm hg
      refine ih hstep.dir hfaults₂ hrest ?_
      rw [tableFrame, hkept]
      exact hz

theorem Directory.run_access (h : Directory R k d)
    (hfaults : Along (PageFault.exec kEnd) (Reaching d) k faults)
    (hrun : Runs.run (PageFault.exec kEnd) k faults = .ok k₁) (hi : f.region < 1024)
    (hz : tableFrame k.mem d f.region = 0) (hstep : Stepped R d k₁ f k') :
    (pde k'.mem d f.region).access = pdeAccess (opener faults f).errCode := by
  have hopened := h.run_opened hfaults hrun hi hz
  unfold opener
  cases hfind : faults.find? fun g => g.region == f.region with
  | none =>
    rw [hfind] at hopened
    exact hstep.made hopened
  | some g =>
    rw [hfind] at hopened
    rw [hstep.kept _ hi fun _ => hopened.1]
    exact hopened.2

/-! ## The retried access -/

theorem userMay_iff {m : Memory} {errCode page : ℕ}
    (hpde : (pde m d f.region).access = pdeAccess errCode)
    (hpte : getPte m (pteOf m d f.addr) = makePte (pteAccess f.errCode) page) :
    UserMay m d f.addr f.isWrite ↔ (f.isWrite = true → isBitSet errCode 1 = true) := by
  have hcombined : combinedAccess m d f.addr =
      pdeAccess errCode &&& ((pteAccess f.errCode).setWidth 9).setWidth 8 := by
    rw [combinedAccess, hpte]
    exact congrArg (· &&& _) hpde
  rw [UserMay, hcombined, pdeAccess, pteAccess, PageFault.isWrite]
  cases isBitSet errCode 1 <;> cases isBitSet f.errCode 1 <;> decide

/-- After any run of not-present faults that find their page tables, the access of a further one is
allowed exactly when it is a read, or the first fault in its region was a write. -/
theorem retried_access_iff (R kEnd d : ℕ) (k : Kernel) (faults : List PageFault) (hdir : Directory R k d)
    (hfaults : Along (PageFault.exec kEnd) (Reaching d) k faults) :
    ∃ k₁, run (PageFault.exec kEnd) k faults = .ok k₁ ∧
      ∀ f, Reaching d k₁ f → tableFrame k.mem d f.region = 0 →
        ∃ k₂, f.exec kEnd k₁ = .ok k₂ ∧
          (UserMay k₂.mem d f.addr f.isWrite ↔ (f.isWrite = true → (opener faults f).isWrite = true)) := by
  obtain ⟨k₁, hrun, hdir₁⟩ := hdir.run hfaults
  refine ⟨k₁, hrun, fun f hf hz => ?_⟩
  obtain ⟨k₂, hexec, hstep⟩ := hdir₁.step hf kEnd
  obtain ⟨page, hpte⟩ := hstep.pte
  exact ⟨k₂, hexec, userMay_iff (hdir.run_access hfaults hrun hf.1.region_lt hz hstep) hpte⟩

theorem tableBase_faults {ls : Slot → List ℕ} (hcarved : Carved 20 alloc ls 0) {errCode : ℕ}
    (herr : isBitSet errCode 0 = false) :
    Along (PageFault.exec 0x100000) (Reaching 1) (bootOn tableBase alloc) [⟨0x1000, 0x3c00000, errCode⟩] ∧
      ∀ k₁, run (PageFault.exec 0x100000) (bootOn tableBase alloc) [⟨0x1000, 0x3c00000, errCode⟩] = .ok k₁ →
        Reaching 1 k₁ ⟨0x1000, 0x3c01000, 6⟩ := by
  refine ⟨⟨⟨⟨rfl, (by decide : 0x3c00000 < 0x80000000), herr, fun _ => hcarved.pageReady.1⟩,
    tableBase_reached hcarved (by decide) errCode⟩, fun _ _ => trivial⟩, fun k₁ hrun => ?_⟩
  obtain ⟨k, -, hexec, hinv, -, hheap, -, hown, -⟩ := tableBase_fault hcarved herr
  have hcr3 : physical (bootHeap (Pcb.pageDir 0xc0300000)) = 0x1000 := by decide
  rw [faultIn, show (bootOn tableBase alloc).heap = bootHeap from rfl, hcr3] at hexec
  obtain rfl := Except.ok.inj ((run_cons hexec).symm.trans hrun)
  have hdir : dirFrame k 0xc0300000 = 1 := by
    rw [dirFrame, hheap, hcr3]
  have hentry := hinv.linear_pdePtr (List.mem_singleton_self _) (show 0x3c01000 < 0x80000000 by decide) 6
  rw [hdir, faultIn, hheap, hcr3] at hentry
  have htable : tableFrame k.mem 1 (0x3c01000 / 0x400000) = 0x3eff := hown.frame
  refine ⟨⟨rfl, by decide, by decide, fun hz => ?_⟩, hentry, fun _ => ?_, fun hz => ?_⟩
  · exact absurd (htable.symm.trans hz) (by decide)
  · simp only [htable]
    exact hown.mapped
  · exact absurd (htable.symm.trans hz) (by decide)

theorem retried_access_iff_write : ∃ alloc k₁ k₂, directMappingInit 0x100000 .zero = .ok alloc ∧
    run (PageFault.exec 0x100000) (bootOn tableBase alloc) [⟨0x1000, 0x3c00000, 6⟩] = .ok k₁ ∧
    (⟨0x1000, 0x3c01000, 6⟩ : PageFault).exec 0x100000 k₁ = .ok k₂ ∧ UserMay k₂.mem 1 0x3c01000 true := by
  obtain ⟨alloc, ls, hinit, hcarved⟩ := init_megabyte
  obtain ⟨hfaults, hreaching⟩ := tableBase_faults hcarved (show isBitSet 6 0 = false by decide)
  obtain ⟨k₁, hrun, hretry⟩ := retried_access_iff (reservedSize 0x100000) 0x100000 1 (bootOn tableBase alloc)
    [⟨0x1000, 0x3c00000, 6⟩] (bootOn_directory hcarved tableBase) hfaults
  obtain ⟨k₂, hexec, hiff⟩ := hretry _ (hreaching k₁ hrun) (bootOn_noTable hcarved tableBase (by decide) (by decide))
  exact ⟨alloc, k₁, k₂, hinit, hrun, hexec, hiff.mpr fun _ => by decide⟩

theorem write_after_read_not_allowed : ∃ alloc k₁ k₂, directMappingInit 0x100000 .zero = .ok alloc ∧
    Along (PageFault.exec 0x100000) (Reaching 1) (bootOn tableBase alloc) [⟨0x1000, 0x3c00000, 4⟩] ∧
    (∀ i, 0 < i → i < 768 → ¬ Pde.Present (pde (bootOn tableBase alloc).mem 1 i)) ∧
    run (PageFault.exec 0x100000) (bootOn tableBase alloc) [⟨0x1000, 0x3c00000, 4⟩] = .ok k₁ ∧
    Reaching 1 k₁ ⟨0x1000, 0x3c01000, 6⟩ ∧ (⟨0x1000, 0x3c01000, 6⟩ : PageFault).exec 0x100000 k₁ = .ok k₂ ∧
    ¬ UserMay k₂.mem 1 0x3c01000 true := by
  obtain ⟨alloc, ls, hinit, hcarved⟩ := init_megabyte
  have hdir := bootOn_directory hcarved tableBase
  obtain ⟨hfaults, hreaching⟩ := tableBase_faults hcarved (show isBitSet 4 0 = false by decide)
  obtain ⟨k₁, hrun, hdir₁⟩ := hdir.run hfaults
  obtain ⟨k₂, hexec, hstep⟩ := hdir₁.step (hreaching k₁ hrun) 0x100000
  obtain ⟨page, hpte⟩ := hstep.pte
  have hz : tableFrame (bootOn tableBase alloc).mem 1 (PageFault.region ⟨0x1000, 0x3c01000, 6⟩) = 0 :=
    bootOn_noTable hcarved tableBase (by decide) (by decide)
  have hpde := hdir.run_access hfaults hrun (by decide) hz hstep
  refine ⟨alloc, k₁, k₂, hinit, hfaults, fun i h0 hi => ?_, hrun, hreaching k₁ hrun, hexec, fun hmay => ?_⟩
  · rw [hdir.present i (by omega)]
    exact fun hne => hne (bootOn_noTable hcarved tableBase h0 hi)
  · have hwrite := (userMay_iff hpde hpte).mp hmay rfl
    exact absurd hwrite (by decide)
end XyOS.Process
