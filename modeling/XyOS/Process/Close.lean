import XyOS.Process.KernelMapping

/-! `CloseProc`: which blocks it gives back. It takes the frame number in a directory
entry for the address of the page table. -/

namespace XyOS.Process
open Linked Runs DirectMapping PageAllocator Paging

variable {R kPcb kEnd p : ℕ} {s : Sys} {k k' : Kernel}

/-! ## The loops -/

theorem destructThread_frame {thread : ℕ} (h : destructThread kEnd k thread = .ok k') :
    k'.mem = k.mem ∧ k'.log = k.log := by
  obtain ⟨alloc, -, h⟩ := of_bind_ok h
  obtain ⟨prev, -, h⟩ := of_bind_ok h
  obtain rfl := Except.ok.inj h
  exact ⟨rfl, rfl⟩

theorem destructSons_frame {fuel tmp : ℕ} (h : destructSons kEnd fuel k tmp = .ok k') :
    k'.mem = k.mem ∧ k'.log = k.log := by
  induction fuel generalizing k tmp with
  | zero => cases h
  | succ fuel ih =>
    rw [destructSons] at h
    split at h
    · obtain rfl := Except.ok.inj h
      exact ⟨rfl, rfl⟩
    · dsimp only at h
      split at h
      · cases h
      · obtain ⟨k₁, hthread, h⟩ := of_bind_ok h
        obtain ⟨hmem, hlog⟩ := destructThread_frame hthread
        obtain ⟨hmem', hlog'⟩ := ih h
        exact ⟨hmem'.trans hmem, hlog'.trans hlog⟩

theorem destructAllSons_frame {pcb : ℕ} (h : destructAllSons kEnd k pcb = .ok k') :
    k'.mem = k.mem ∧ k'.log = k.log := by
  rw [destructAllSons] at h
  split at h
  · obtain rfl := Except.ok.inj h
    exact ⟨rfl, rfl⟩
  · obtain ⟨k₁, hsons, h⟩ := of_bind_ok h
    obtain ⟨hmem, hlog⟩ := destructSons_frame hsons
    obtain rfl := Except.ok.inj h
    exact ⟨hmem, hlog⟩

theorem destructThreads_frame {pcb curThread fuel tmp : ℕ}
    (h : destructThreads kEnd pcb curThread fuel k tmp = .ok k') : k'.mem = k.mem ∧ k'.log = k.log := by
  induction fuel generalizing k tmp with
  | zero => cases h
  | succ fuel ih =>
    rw [destructThreads] at h
    split at h
    · obtain rfl := Except.ok.inj h
      exact ⟨rfl, rfl⟩
    · split at h
      · obtain ⟨k₁, hthread, h⟩ := of_bind_ok h
        obtain ⟨hmem, hlog⟩ := destructThread_frame hthread
        obtain ⟨hmem', hlog'⟩ := ih h
        exact ⟨hmem'.trans hmem, hlog'.trans hlog⟩
      · exact ih h

theorem setCr3_mem (k : Kernel) (physAddr : ℕ) : (k.setCr3 physAddr).mem = k.mem := rfl

theorem setCr3_log (k : Kernel) (physAddr : ℕ) : (k.setCr3 physAddr).log = k.log := rfl

theorem relPages_log (pt n : ℕ) (k : Kernel) : (relPages pt n k).log = k.log := by
  induction n with
  | zero => rfl
  | succ n ih =>
    rw [relPages]
    split
    · exact ih
    · exact ih

def LowRelease (e : Event) : Prop := ∃ a, e = .relBytes a ∧ a < 0xc0100000

theorem lowRelease_frame (e : Pde) : LowRelease (.relBytes (directMappingVirtualAddr e.ptAddr.toNat)) := by
  refine ⟨_, rfl, ?_⟩
  have := e.ptAddr.isLt
  rw [directMappingVirtualAddr, kKVirtualAddr, u32_of_lt (by omega)]
  omega

theorem relBytes_log {a : ℕ} (h : k.relBytes kEnd a = .ok k') : k'.log = .relBytes a :: k.log := by
  obtain ⟨alloc, -, h⟩ := of_bind_ok h
  obtain rfl := Except.ok.inj h
  rfl

theorem releaseTable_log {entry : ℕ} (h : releaseTable kEnd entry k = .ok k') :
    ((getPde k.mem entry).ptAddr = 0 ∧ k' = k) ∨
      ((getPde k.mem entry).ptAddr ≠ 0 ∧ ∃ e, LowRelease e ∧ k'.log = e :: k.log) := by
  by_cases hz : (getPde k.mem entry).ptAddr = 0
  · rw [releaseTable, if_neg (not_not.mpr hz)] at h
    exact Or.inl ⟨hz, (Except.ok.inj h).symm⟩
  · rw [releaseTable, if_pos hz] at h
    have hlog := relBytes_log h
    rw [relPages_log] at hlog
    exact Or.inr ⟨hz, _, lowRelease_frame _, hlog⟩

theorem releaseTables_log {pageDir n : ℕ} (h : releaseTables kEnd pageDir n k = .ok k') :
    ∃ events, k'.log = events ++ k.log ∧ ∀ e ∈ events, LowRelease e := by
  induction n generalizing k with
  | zero =>
    obtain rfl := Except.ok.inj h
    exact ⟨[], rfl, by simp⟩
  | succ n ih =>
    obtain ⟨k₁, hone, h⟩ := of_bind_ok h
    obtain ⟨events, hlog, hlow⟩ := ih h
    rcases releaseTable_log hone with ⟨-, rfl⟩ | ⟨-, e, he, hlog₁⟩
    · exact ⟨events, hlog, hlow⟩
    · refine ⟨events ++ [e], ?_, fun e' he' => ?_⟩
      · rw [hlog, hlog₁, List.append_assoc, List.singleton_append]
      rcases List.mem_append.mp he' with he' | he'
      · exact hlow e' he'
      · rw [List.mem_singleton.mp he']
        exact he

theorem releaseTables_log_ne {pageDir n : ℕ} (h : releaseTables kEnd pageDir (n + 1) k = .ok k')
    (hne : (getPde k.mem (physical (pageDir + 4 * (kPdeNum - (n + 1))))).ptAddr ≠ 0) : k'.log ≠ k.log := by
  obtain ⟨k₁, hone, h⟩ := of_bind_ok h
  obtain ⟨events, hlog, -⟩ := releaseTables_log h
  rcases releaseTable_log hone with ⟨hz, -⟩ | ⟨-, e, -, hlog₁⟩
  · exact absurd hz hne
  · rw [hlog, hlog₁]
    intro heq
    have hlen := congrArg List.length heq
    rw [List.length_append, List.length_cons] at hlen
    omega

theorem closeProc_log (h : closeProc kEnd k = .ok k') :
    ∃ pageDir events, k'.log = .relBytes pageDir :: events ++ k.log ∧ (∀ e ∈ events, LowRelease e) ∧
      ((getPde k.mem (physical pageDir)).ptAddr ≠ 0 → events ≠ []) := by
  obtain ⟨k₁, hsons, h⟩ := of_bind_ok h
  obtain ⟨hmem₁, hlog₁⟩ := destructAllSons_frame hsons
  obtain ⟨k₂, hthreads, h⟩ := of_bind_ok h
  obtain ⟨hmem₂, hlog₂⟩ := destructThreads_frame hthreads
  obtain ⟨k₃, htables, h⟩ := of_bind_ok h
  obtain ⟨k₄, hdir, h⟩ := of_bind_ok h
  obtain ⟨events, hlog₃, hlow⟩ := releaseTables_log htables
  have hlog₄ := relBytes_log hdir
  obtain rfl := Except.ok.inj h
  have hmem : k₂.mem = k.mem := by rw [hmem₂, switchPd, setCr3_mem, hmem₁]
  have hlog : k₂.log = k.log := by rw [hlog₂, switchPd, setCr3_log, hlog₁]
  refine ⟨k₂.heap (Pcb.pageDir (k.heap (Thread.pcb (getCurThread k)))), events, ?_, hlow, fun hne hnil => ?_⟩
  · rw [List.cons_append, ← hlog, ← hlog₃]
    exact hlog₄
  · refine releaseTables_log_ne (n := 1023) htables ?_ (by rw [hlog₃, hnil, List.nil_append])
    rw [hmem]
    exact hne

/-! ## What closing a process should do -/

def MapsPage (k : Kernel) (p n : ℕ) : Prop :=
  ∃ i < 768, (dirEntry k p i).ptAddr ≠ 0 ∧ ∃ j < 1024,
    Pte.Present (getPte k.mem ((dirEntry k p i).ptAddr.toNat <<< 12 + 4 * j)) ∧
      Pte.User (getPte k.mem ((dirEntry k p i).ptAddr.toNat <<< 12 + 4 * j)) ∧
      (getPte k.mem ((dirEntry k p i).ptAddr.toNat <<< 12 + 4 * j)).pageAddr.toNat = n

def OwnPage (s : Sys) (p n : ℕ) : Prop :=
  MapsPage s.kernel p n ∧ ∀ q ∈ s.procs, q ≠ p → ¬ MapsPage s.kernel q n

def OwnTable (s : Sys) (p a : ℕ) : Prop :=
  ∃ i < 768, (dirEntry s.kernel p i).ptAddr ≠ 0 ∧
    a = directMappingVirtualAddr ((dirEntry s.kernel p i).ptAddr.toNat <<< 12) ∧
    ∀ q ∈ s.procs, q ≠ p → ∀ j < 1024, (dirEntry s.kernel q j).ptAddr ≠ (dirEntry s.kernel p i).ptAddr

/-- The pages of `p` alone are free in addition, its own page tables and its directory
are released, and the page tables of the kernel are as before. -/
structure ClosedExactly (s : Sys) (p : ℕ) (k' : Kernel) : Prop where
  pages : ∀ n < kVirtualPageNum, isBitmapSet k'.pageState n = false ↔
    isBitmapSet s.kernel.pageState n = false ∨ OwnPage s p n
  released : ∃ events, k'.log = events ++ s.kernel.log ∧
    ∀ a, Event.relBytes a ∈ events ↔ OwnTable s p a ∨ a = s.kernel.heap (Pcb.pageDir p)
  kernel : ∀ i < 16, ∀ j < 1024, getPte k'.mem (0xd000 + 0x1000 * i + 4 * j) =
    getPte s.kernel.mem (0xd000 + 0x1000 * i + 4 * j)

theorem SysInv.ownTable_ge (h : SysInv R kPcb s) (hp : p ∈ s.procs) (hne : p ≠ kPcb) {a : ℕ}
    (ha : OwnTable s p a) : 0xc0100000 ≤ a := by
  obtain ⟨i, hi, hnz, ha, hown⟩ := ha
  have hd : dirFrame s.kernel p ∈ s.procs.map (dirFrame s.kernel) := List.mem_map_of_mem hp
  have hframe : (dirEntry s.kernel p i).ptAddr.toNat = tableFrame s.kernel.mem (dirFrame s.kernel p) i := by
    rw [h.dirEntry_eq hp, tableFrame]
  rw [ha, hframe]
  rcases h.spaces.tableFrame_cases hd hi with hz | ⟨hc, rfl⟩ | ⟨ho, -⟩
  · exact absurd (BitVec.eq_of_toNat_eq (hframe.trans hz : _ = (0 : BitVec 20).toNat)) hnz
  · -- the table of the first 4 MB is the kernel's, and every process has it
    have hk : (dirEntry s.kernel kPcb 0).ptAddr.toNat = 0xc := by
      rw [h.dirEntry_eq h.kernel, ← tableFrame]
      exact h.spaces.first _ (List.mem_map_of_mem h.kernel)
    have hshared := BitVec.eq_of_toNat_eq (hk.trans (hframe.trans hc).symm)
    exact absurd hshared (hown kPcb h.kernel hne.symm 0 (by decide))
  · have hb := h.spaces.bound _ ho
    generalize tableFrame s.kernel.mem (dirFrame s.kernel p) i = f at hb
    rw [directMappingVirtualAddr, Nat.shiftLeft_eq, kKVirtualAddr, u32_of_lt (by omega)]
    omega

theorem SysInv.not_closedExactly (h : SysInv R kPcb s) (hp : p ∈ s.procs) (hne : p ≠ kPcb)
    (hclose : closeProc kEnd s.kernel = .ok k') : ¬ ClosedExactly s p k' := by
  intro hexact
  obtain ⟨pageDir, events, hlog, hlow, hfirst⟩ := closeProc_log hclose
  obtain ⟨events', hlog', hrel⟩ := hexact.released
  obtain rfl : .relBytes pageDir :: events = events' := List.append_cancel_right (hlog.symm.trans hlog')
  obtain ⟨f, hf, hdir⟩ : ∃ f ∈ pageFrames s.kernel.alloc,
      s.kernel.heap (Pcb.pageDir p) = kKVirtualAddr + 0x1000 * f :=
    (h.dir p hp).resolve_left fun hc => hne hc.2
  have hb := h.alloc.frame_bounds h.size hf
  -- the directory must be among the releases, so it is the one that was found in the `Pcb`
  have hfound : pageDir = s.kernel.heap (Pcb.pageDir p) := by
    rcases List.mem_cons.mp ((hrel _).mpr (Or.inr rfl)) with he | he
    · exact (Event.relBytes.inj he).symm
    · obtain ⟨a, ha, hlt⟩ := hlow _ he
      have := Event.relBytes.inj ha
      simp only [kKVirtualAddr] at hdir
      omega
  have hentry : (getPde s.kernel.mem (physical pageDir)).ptAddr ≠ 0 := by
    have hz := h.spaces.first _ (List.mem_map_of_mem hp)
    rw [hfound, h.physical_dir hp]
    intro he
    rw [tableFrame, pde, Nat.mul_zero, Nat.add_zero, he] at hz
    exact absurd hz (by decide)
  obtain ⟨e, rest, rfl⟩ := List.exists_cons_of_ne_nil (hfirst hentry)
  obtain ⟨a, rfl, hlt⟩ := hlow e List.mem_cons_self
  rcases (hrel a).mp (List.mem_cons_of_mem _ List.mem_cons_self) with hown | ha
  · have := h.ownTable_ge hp hne hown
    omega
  · simp only [kKVirtualAddr] at hdir
    omega

def curProc (k : Kernel) : ℕ := k.heap (Thread.pcb (getCurThread k))

theorem close_never_exact (kEnd kPcb : ℕ) (k : Kernel) (hboot : Booted kEnd kPcb k) (ops : List Op)
    (hops : Along (Sys.exec kEnd) Settled ⟨k, [kPcb]⟩ ops) (s : Sys)
    (hrun : run (Sys.exec kEnd) ⟨k, [kPcb]⟩ ops = .ok s) (hcur : curProc s.kernel ∈ s.procs)
    (hne : curProc s.kernel ≠ kPcb) :
    ¬ ∃ k', closeProc kEnd s.kernel = .ok k' ∧ ClosedExactly s (curProc s.kernel) k' := by
  rintro ⟨k', hclose, hexact⟩
  exact (hboot.sysInv_of_run hops hrun).not_closedExactly hcur hne hclose hexact

theorem bootKernel_current {alloc : Allocator} {ls : Slot → List ℕ} (h : Carved 20 alloc ls 0) :
    ∃ k, Along (Sys.exec 0x100000) Settled ⟨bootKernel alloc, [0xc0300000]⟩ [.create 0xc0300000] ∧
      run (Sys.exec 0x100000) ⟨bootKernel alloc, [0xc0300000]⟩ [.create 0xc0300000] =
        .ok ⟨k, [0xc0300100, 0xc0300000]⟩ ∧
      SysInv (reservedSize 0x100000) 0xc0300000 ⟨k, [0xc0300100, 0xc0300000]⟩ ∧ curProc k = 0xc0300100 := by
  obtain ⟨hfork, k, -, hexec, hc, hinv, -⟩ := bootOn_create h fun _ => 0
  have hkept (z : ℕ) (hz : 0xc0300300 ≤ z) : k.heap z = bootHeap z := by
    refine hc.other z (show z ≠ 0xc0300200 by omega) fun y hy => ?_
    simp only [List.mem_cons, List.not_mem_nil, or_false] at hy
    omega
  refine ⟨k, ⟨⟨hfork, trivial⟩, fun _ _ => trivial⟩, (run_cons hexec).trans rfl, hinv, ?_⟩
  have htss : k.tssEsp0 = 0xc0300300 := hc.tss
  have hthread : bootHeap 0xc0300300 = 0xc0300400 := by decide
  rw [curProc, getCurThread, htss, hkept _ le_rfl, hthread, Thread.pcb, hkept _ (by decide)]
  decide

theorem close_never_exact_first : ∃ alloc s, directMappingInit 0x100000 .zero = .ok alloc ∧
    run (Sys.exec 0x100000) ⟨bootKernel alloc, [0xc0300000]⟩ [.create 0xc0300000] = .ok s ∧
    ¬ ∃ k', closeProc 0x100000 s.kernel = .ok k' ∧ ClosedExactly s (curProc s.kernel) k' := by
  obtain ⟨alloc, ls, hinit, hcarved⟩ := init_megabyte
  obtain ⟨k, hops, hrun, -, hcur⟩ := bootKernel_current hcarved
  refine ⟨alloc, _, hinit, hrun, close_never_exact 0x100000 0xc0300000 (bootKernel alloc)
    (bootKernel_booted hcarved) [.create 0xc0300000] hops _ hrun ?_ ?_⟩
  · rw [hcur]
    exact List.mem_cons_self
  · rw [hcur]
    decide

theorem close_first_inexact : ∃ alloc s, directMappingInit 0x100000 .zero = .ok alloc ∧
    Along (Sys.exec 0x100000) Settled ⟨bootKernel alloc, [0xc0300000]⟩ [.create 0xc0300000] ∧
    run (Sys.exec 0x100000) ⟨bootKernel alloc, [0xc0300000]⟩ [.create 0xc0300000] = .ok s ∧
    curProc s.kernel = 0xc0300100 ∧ 0xc0300100 ∈ s.procs ∧
    ¬ ∃ k', closeProc 0x100000 s.kernel = .ok k' ∧ ClosedExactly s 0xc0300100 k' := by
  obtain ⟨alloc, ls, hinit, hcarved⟩ := init_megabyte
  obtain ⟨k, hops, hrun, hinv, hcur⟩ := bootKernel_current hcarved
  refine ⟨alloc, _, hinit, hops, hrun, hcur, List.mem_cons_self, ?_⟩
  rintro ⟨k', hclose, hexact⟩
  exact hinv.not_closedExactly List.mem_cons_self (by decide) hclose hexact

end XyOS.Process
