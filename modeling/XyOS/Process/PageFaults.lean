import XyOS.Foundation.Runs
import XyOS.Memory.DirectMappingInit
import XyOS.Memory.PageAllocatorRuns
import XyOS.Process.KernelDefs

/-! Not-present page faults: what `PfHandler` stores and where, and runs of faults in
which faults of the handler itself interrupt it. -/

namespace XyOS.Process
open Runs DirectMapping PageAllocator Paging

structure PageFault where
  cr3 : ℕ
  addr : ℕ
  errCode : ℕ

def Kernel.fault (k : Kernel) (f : PageFault) : Kernel := { k with cr2 := f.addr, cr3 := f.cr3 }

/-- The fault is handled without another one. -/
def PageFault.exec (kEnd : ℕ) (k : Kernel) (f : PageFault) : Except Fault Kernel := do
  match ← pfHandler kEnd (k.fault f) f.errCode with
  | .returned k => .ok k
  | .noDirectory _ => .error .pageFault
  | .noTable _ _ _ => .error .pageFault

def PageFault.NotPresent (f : PageFault) : Prop := isBitSet f.errCode 0 = false

instance (f : PageFault) : Decidable f.NotPresent := inferInstanceAs (Decidable (_ = _))

def putPage (k : Kernel) (errCode entry : ℕ) : Kernel :=
  { k with pageState := (reqPage k.pageState).2 }.setPte entry
    (makePte (pteAccess errCode) (reqPage k.pageState).1)

variable {kEnd entry x : ℕ} {k k₁ k' : Kernel} {f : PageFault} {errCode : ℕ} {r : Handled}

/-! ## The handler -/

theorem pdePtr_fault (hcr3 : f.cr3 < 0x4000000) (haddr : f.addr < 0x80000000) :
    pdePtr (k.fault f) = 0xc0000000 + (f.cr3 + 4 * (f.addr / 0x400000)) := by
  have hv : directMappingVirtualAddr f.cr3 = f.cr3 + 0xc0000000 := u32_of_lt (by
    simp only [kKVirtualAddr]
    omega)
  have hcast : ((f.cr3 + 0xc0000000 : ℕ) : ℤ) + 4 * Int.tdiv (toInt32 f.addr) 0x400000 =
      ((0xc0000000 + (f.cr3 + 4 * (f.addr / 0x400000)) : ℕ) : ℤ) := by
    rw [toInt32, if_pos (show f.addr < 2 ^ 31 from haddr), Int.tdiv_eq_ediv_of_nonneg (by omega)]
    omega
  rw [pdePtr, Kernel.fault, hv, hcast, ofInt32_natCast (by omega)]

theorem requireTable_present (hpt : (getPde k.mem entry).ptAddr ≠ 0) : requireTable k errCode entry = .ok k := by
  rw [requireTable, if_neg hpt]

theorem requireTable_absent {a : ℕ} {alloc : Allocator} (hpt : (getPde k.mem entry).ptAddr = 0)
    (hreq : reqBytes k.alloc kPtMaxSize = .ok (a, alloc)) :
    requireTable k errCode entry = .ok (installTable k errCode entry a alloc) := by
  rw [requireTable, if_pos hpt]
  exact bind_ok hreq _

theorem requireTable_cases (h : requireTable k errCode entry = .ok k') :
    ((getPde k.mem entry).ptAddr ≠ 0 ∧ k' = k) ∨
      ((getPde k.mem entry).ptAddr = 0 ∧
        ∃ a alloc, reqBytes k.alloc kPtMaxSize = .ok (a, alloc) ∧ k' = installTable k errCode entry a alloc) := by
  by_cases hpt : (getPde k.mem entry).ptAddr = 0
  · rw [requireTable, if_pos hpt] at h
    obtain ⟨⟨a, alloc⟩, hreq, hk'⟩ := of_bind_ok h
    exact Or.inr ⟨hpt, a, alloc, hreq, (Except.ok.inj hk').symm⟩
  · rw [requireTable_present hpt] at h
    exact Or.inl ⟨hpt, (Except.ok.inj h).symm⟩

theorem installPage_mapped (hx : k.linear (ptePtr k entry) = some x) :
    installPage k errCode entry = .returned (putPage k errCode x) := by
  have hx' : ({ k with pageState := (reqPage k.pageState).2 } : Kernel).linear (ptePtr k entry) = some x := hx
  simp only [installPage, hx']
  rfl

theorem installPage_unmapped (hx : k.linear (ptePtr k entry) = none) :
    installPage k errCode entry = .noTable { k with pageState := (reqPage k.pageState).2 } (ptePtr k entry)
      (makePte (pteAccess errCode) (reqPage k.pageState).1) := by
  have hx' : ({ k with pageState := (reqPage k.pageState).2 } : Kernel).linear (ptePtr k entry) = none := hx
  simp only [installPage, hx']

theorem pfHandler_mapped (kEnd : ℕ) (hf : f.NotPresent)
    (hentry : (k.fault f).linear (pdePtr (k.fault f)) = some entry)
    (hreq : requireTable (k.fault f) f.errCode entry = .ok k₁) :
    pfHandler kEnd (k.fault f) f.errCode = .ok (installPage k₁ f.errCode entry) := by
  rw [pfHandler, if_pos (show isBitSet f.errCode 0 = false from hf), hentry]
  exact bind_ok hreq _

theorem pfHandler_unmapped (hf : f.NotPresent) (hentry : (k.fault f).linear (pdePtr (k.fault f)) = none) :
    pfHandler kEnd (k.fault f) f.errCode = .ok (.noDirectory (k.fault f)) := by
  rw [pfHandler, if_pos (show isBitSet f.errCode 0 = false from hf), hentry]

theorem pfHandler_cases (hf : f.NotPresent) (h : pfHandler kEnd (k.fault f) f.errCode = .ok r) :
    ((k.fault f).linear (pdePtr (k.fault f)) = none ∧ r = .noDirectory (k.fault f)) ∨
      ∃ entry k₁, (k.fault f).linear (pdePtr (k.fault f)) = some entry ∧
        requireTable (k.fault f) f.errCode entry = .ok k₁ ∧ r = installPage k₁ f.errCode entry := by
  cases hentry : (k.fault f).linear (pdePtr (k.fault f)) with
  | none =>
    rw [pfHandler_unmapped hf hentry] at h
    exact Or.inl ⟨rfl, (Except.ok.inj h).symm⟩
  | some entry =>
    rw [pfHandler, if_pos (show isBitSet f.errCode 0 = false from hf), hentry] at h
    obtain ⟨k₁, hreq, hr⟩ := of_bind_ok h
    exact Or.inr ⟨entry, k₁, rfl, hreq, (Except.ok.inj hr).symm⟩

theorem exec_iff (hf : f.NotPresent) : f.exec kEnd k = .ok k' ↔
    ∃ entry k₁ x, (k.fault f).linear (pdePtr (k.fault f)) = some entry ∧
      requireTable (k.fault f) f.errCode entry = .ok k₁ ∧ k₁.linear (ptePtr k₁ entry) = some x ∧
      k' = putPage k₁ f.errCode x := by
  constructor
  · intro h
    obtain ⟨r, hrun, hr⟩ := of_bind_ok h
    rcases pfHandler_cases hf hrun with ⟨-, rfl⟩ | ⟨entry, k₁, hentry, hreq, rfl⟩
    · cases hr
    cases hx : k₁.linear (ptePtr k₁ entry) with
    | none =>
      rw [installPage_unmapped hx] at hr
      cases hr
    | some x =>
      rw [installPage_mapped hx] at hr
      exact ⟨entry, k₁, x, hentry, hreq, hx, (Except.ok.inj hr).symm⟩
  · rintro ⟨entry, k₁, x, hentry, hreq, hx, rfl⟩
    have hrun := pfHandler_mapped kEnd hf hentry hreq
    rw [installPage_mapped hx] at hrun
    exact bind_ok hrun _

theorem exec_mapped_iff (hf : f.NotPresent) (hentry : (k.fault f).linear (pdePtr (k.fault f)) = some entry)
    (hreq : requireTable (k.fault f) f.errCode entry = .ok k₁) : f.exec kEnd k = .ok k' ↔
      ∃ x, k₁.linear (ptePtr k₁ entry) = some x ∧ k' = putPage k₁ f.errCode x := by
  rw [exec_iff hf]
  constructor
  · rintro ⟨entry', k₂, x, hentry', hreq', hx, rfl⟩
    obtain rfl := Option.some.inj (hentry.symm.trans hentry')
    obtain rfl := Except.ok.inj (hreq.symm.trans hreq')
    exact ⟨x, hx, rfl⟩
  · rintro ⟨x, hx, rfl⟩
    exact ⟨entry, k₁, x, hentry, hreq, hx, rfl⟩

/-! ## Handlers that are interrupted -/

structure PendingStore where
  cr3 : ℕ
  ptr : ℕ
  entry : Pte

structure Handling where
  kernel : Kernel
  pending : List PendingStore

/-- A page fault, of a process or of a handler, or the innermost handler tries its store again.
A handler that did not reach its directory starts over: it takes the same fault again. -/
inductive Activity
  | fault (f : PageFault)
  | resume

def Handling.exec (kEnd : ℕ) (s : Handling) : Activity → Except Fault Handling
  | .fault f => do
    match ← pfHandler kEnd (s.kernel.fault f) f.errCode with
    | .returned k => .ok ⟨k, s.pending⟩
    | .noDirectory k => .ok ⟨k, s.pending⟩
    | .noTable k ptr e => .ok ⟨k, ⟨k.cr3, ptr, e⟩ :: s.pending⟩
  | .resume =>
    match s.pending with
    | [] => .ok s
    | w :: pending =>
      match walk s.kernel.mem w.cr3 w.ptr with
      | some x => .ok ⟨{ s.kernel with cr3 := w.cr3 }.setPte x w.entry, pending⟩
      | none => .ok s

/-! ## The entries that are written -/

def Pte.Present (e : Pte) : Prop := e.access.getLsbD 0 = true

def Pte.User (e : Pte) : Prop := e.access.getLsbD 2 = true

def Pde.Present (e : Pde) : Prop := e.access.getLsbD 0 = true

instance (e : Pte) : Decidable (Pte.Present e) := inferInstanceAs (Decidable (_ = _))

instance (e : Pte) : Decidable (Pte.User e) := inferInstanceAs (Decidable (_ = _))

def OutsideKernel (e : Pte) : Prop := Pte.Present e → Pte.User e → kDynamicMappingStartPage ≤ e.pageAddr.toNat

/-- No page of the kernel's area is given to user space, and every directory
entry that is made present has a page table from `ReqBytes`. -/
structure LogSafe (log : List Event) : Prop where
  pte : ∀ entry e, Event.setPte entry e ∈ log → OutsideKernel e
  pde : ∀ entry e, Event.setPde entry e ∈ log → Pde.Present e →
    ∃ a, a ≠ 0 ∧ Event.reqBytes a ∈ log ∧ e.ptAddr = getPtAddrInPde (directMappingPhysAddr a)

structure Handling.Safe (s : Handling) : Prop where
  log : LogSafe s.kernel.log
  pending : ∀ w ∈ s.pending, OutsideKernel w.entry

/-- There is a free page, and `ReqBytes` does not fail if a page table is needed. -/
def Provided (k : Kernel) (f : PageFault) : Prop :=
  (∃ n, kDynamicMappingStartPage ≤ n ∧ n < kVirtualPageNum ∧ isBitmapSet k.pageState n = false) ∧
    ∀ entry, (k.fault f).linear (pdePtr (k.fault f)) = some entry → (getPde k.mem entry).ptAddr = 0 →
      ∀ a alloc, reqBytes k.alloc kPtMaxSize = .ok (a, alloc) → a ≠ 0

def Activity.Meets (P : Kernel → PageFault → Prop) (s : Handling) : Activity → Prop
  | .fault f => P s.kernel f
  | .resume => True

theorem makePte_pageAddr {n : ℕ} (access : BitVec 8) (h : Grantable n) :
    (makePte access (getPagePhysAddr n)).pageAddr.toNat = n := by
  have hlt := h.2.1
  have hpage := h.getPageNo.1
  simp only [kVirtualPageNum] at hlt
  rw [makePte, getPageAddrInPte, BitVec.toNat_ofNat, Nat.shiftRight_eq_div_pow]
  change getPagePhysAddr n / 2 ^ 12 = n at hpage
  rw [hpage, Nat.mod_eq_of_lt (by omega)]

theorem LogSafe.installTable (h : LogSafe k.log) {a : ℕ} (ha : a ≠ 0) (alloc : Allocator) :
    LogSafe (installTable k errCode entry a alloc).log := by
  refine ⟨fun entry' e he => ?_, fun entry' e he hp => ?_⟩
  · simp only [Process.installTable, List.mem_cons, reduceCtorEq, false_or] at he
    exact h.pte entry' e he
  · simp only [Process.installTable, List.mem_cons, Event.setPde.injEq, reduceCtorEq, false_or] at he ⊢
    rcases he with ⟨-, rfl⟩ | he
    · exact ⟨a, ha, Or.inl rfl, rfl⟩
    · obtain ⟨b, hb, hmem, heq⟩ := h.pde entry' e he hp
      exact ⟨b, hb, Or.inr hmem, heq⟩

theorem LogSafe.setPte (h : LogSafe k.log) {e : Pte} (he : OutsideKernel e) (entry : ℕ) :
    LogSafe (k.setPte entry e).log := by
  refine ⟨fun entry' e' hmem => ?_, fun entry' e' hmem hp => ?_⟩
  · simp only [Kernel.setPte, Kernel.record, List.mem_cons, Event.setPte.injEq] at hmem
    rcases hmem with ⟨-, rfl⟩ | hmem
    · exact he
    · exact h.pte entry' e' hmem
  · simp only [Kernel.setPte, Kernel.record, List.mem_cons, reduceCtorEq, false_or] at hmem ⊢
    exact h.pde entry' e' hmem hp

theorem outsideKernel_makePte {b : Bitmap}
    (hfree : ∃ n, kDynamicMappingStartPage ≤ n ∧ n < kVirtualPageNum ∧ isBitmapSet b n = false)
    (access : BitVec 8) : OutsideKernel (makePte access (reqPage b).1) := by
  obtain ⟨m, hm1, hm2, hm⟩ := hfree
  rcases reqPage_spec b with ⟨-, hall⟩ | ⟨n, hg, -, hreq⟩
  · rw [hall m hm1 hm2] at hm
    exact Bool.noConfusion hm
  · intro _ _
    rw [hreq, makePte_pageAddr _ hg]
    exact hg.1

theorem LogSafe.requireTable (h : LogSafe k.log) (hpt : (getPde k.mem entry).ptAddr = 0 →
      ∀ a alloc, reqBytes k.alloc kPtMaxSize = .ok (a, alloc) → a ≠ 0)
    (hreq : requireTable k errCode entry = .ok k₁) : LogSafe k₁.log ∧ k₁.pageState = k.pageState := by
  rcases requireTable_cases hreq with ⟨-, rfl⟩ | ⟨hz, a, alloc, ha, rfl⟩
  · exact ⟨h, rfl⟩
  · exact ⟨h.installTable (hpt hz a alloc ha) alloc, rfl⟩

theorem Handling.Safe.fault {s s' : Handling} (h : s.Safe) (hf : f.NotPresent) (hprov : Provided s.kernel f)
    (hexec : s.exec kEnd (.fault f) = .ok s') : s'.Safe := by
  obtain ⟨r, hrun, hr⟩ := of_bind_ok hexec
  rcases pfHandler_cases hf hrun with ⟨-, rfl⟩ | ⟨entry, k₁, hentry, hreq, rfl⟩
  · obtain rfl := Except.ok.inj hr
    exact ⟨h.log, h.pending⟩
  obtain ⟨hlog, hstate⟩ := LogSafe.requireTable (k := s.kernel.fault f) h.log (hprov.2 entry hentry) hreq
  have hfree := hprov.1
  rw [show s.kernel.pageState = k₁.pageState from hstate.symm] at hfree
  have hout := outsideKernel_makePte hfree (pteAccess f.errCode)
  cases hx : k₁.linear (ptePtr k₁ entry) with
  | none =>
    rw [installPage_unmapped hx] at hr
    obtain rfl := Except.ok.inj hr
    exact ⟨hlog, List.forall_mem_cons.mpr ⟨hout, h.pending⟩⟩
  | some x =>
    rw [installPage_mapped hx] at hr
    obtain rfl := Except.ok.inj hr
    exact ⟨LogSafe.setPte (k := { k₁ with pageState := _ }) hlog hout x, h.pending⟩

theorem Handling.Safe.resume {s s' : Handling} (h : s.Safe) (hexec : s.exec kEnd .resume = .ok s') : s'.Safe := by
  obtain ⟨k, pending⟩ := s
  cases pending with
  | nil =>
    obtain rfl := Except.ok.inj hexec
    exact h
  | cons w pending =>
    obtain ⟨hw, hpending⟩ := List.forall_mem_cons.mp h.pending
    simp only [Handling.exec] at hexec
    split at hexec
    · obtain rfl := Except.ok.inj hexec
      exact ⟨LogSafe.setPte (k := { k with cr3 := w.cr3 }) h.log hw _, hpending⟩
    · obtain rfl := Except.ok.inj hexec
      exact h

theorem provided_run_log_safe (kEnd : ℕ) (k : Kernel) (activities : List Activity) (hlog : k.log = [])
    (hfaults : Along (Handling.exec kEnd) (Activity.Meets fun k f => f.NotPresent ∧ Provided k f) ⟨k, []⟩
      activities)
    (s : Handling) (hrun : run (Handling.exec kEnd) ⟨k, []⟩ activities = .ok s) : LogSafe s.kernel.log := by
  have hinit : Handling.Safe ⟨k, []⟩ := by
    refine ⟨?_, by simp⟩
    rw [hlog]
    exact ⟨by simp, by simp⟩
  refine (run_preserves (I := Handling.Safe) (fun s i s' hs hcare hexec => ?_) hinit hfaults hrun).log
  cases i with
  | fault f => exact hs.fault hcare.1 hcare.2 hexec
  | resume => exact hs.resume hexec

def oneTable (pageState : Bitmap) : Kernel where
  mem := writeWord (kernelTables fun _ => 0) 0x1004 0x5007
  heap := fun _ => 0
  alloc := Allocator.zero
  avlMem := []
  pageState := pageState
  cr2 := 0
  cr3 := 0
  freeProcList := 0
  freeThreadList := 0
  tssEsp0 := 0
  log := []

def absentWrite : PageFault := ⟨0x1000, 0x400000, 6⟩

theorem oneTable_tables (b : Bitmap) : KernelTables (oneTable b).mem ∧
    ∀ i < 1024, i ≠ 1 → readWord (oneTable b).mem (0x1000 + 4 * i) = (initialPde i).toWord := by
  obtain ⟨htables, hdir, -⟩ := kernelTables_spec fun _ => 0
  refine ⟨⟨fun j hj => ?_, fun i hi j hj => ?_⟩, fun i hi hne => ?_⟩
  · rw [oneTable, readWord_writeWord_of_disjoint (by omega), htables.identity j hj]
  · rw [oneTable, readWord_writeWord_of_disjoint (by omega), htables.direct i hi j hj]
  · rw [oneTable, readWord_writeWord_of_disjoint (by omega), hdir i hi]

theorem oneTable_entry (b : Bitmap) :
    ((oneTable b).fault absentWrite).linear (pdePtr ((oneTable b).fault absentWrite)) = some 0x1004 ∧
      getPde (oneTable b).mem 0x1004 = .ofWord 0x5007 := by
  obtain ⟨htables, hdir⟩ := oneTable_tables b
  constructor
  · rw [pdePtr_fault (by decide) (by decide)]
    exact htables.direct.walk (by decide) (by decide) ((hdir 768 (by decide) (by decide)).trans (by decide))
  · rw [getPde, oneTable, readWord_writeWord (by decide)]

theorem absentWrite_exec (kEnd : ℕ) (b : Bitmap) :
    run (Handling.exec kEnd) ⟨oneTable b, []⟩ [.fault absentWrite] =
      .ok ⟨putPage ((oneTable b).fault absentWrite) 6 0x5000, []⟩ := by
  obtain ⟨hentry, hpde⟩ := oneTable_entry b
  obtain ⟨htables, hdir⟩ := oneTable_tables b
  have hreq : requireTable ((oneTable b).fault absentWrite) absentWrite.errCode 0x1004 =
      .ok ((oneTable b).fault absentWrite) := by
    apply requireTable_present
    rw [show ((oneTable b).fault absentWrite).mem = (oneTable b).mem from rfl, hpde]
    decide
  have hptr : ptePtr ((oneTable b).fault absentWrite) 0x1004 = 0x5000 := by
    rw [ptePtr, show ((oneTable b).fault absentWrite).mem = (oneTable b).mem from rfl, hpde]
    exact (by decide : (Pde.ofWord 0x5007).ptAddr.toNat <<< 12 + 4 * (getPageNo 0x400000 % kPteMaxNum) = 0x5000)
  have hfirst := hdir 0 (by decide) (by decide)
  rw [Nat.mul_zero, Nat.add_zero] at hfirst
  have hx : ((oneTable b).fault absentWrite).linear (ptePtr ((oneTable b).fault absentWrite) 0x1004) =
      some 0x5000 := by
    rw [hptr]
    exact htables.walk_identity (by decide) (hfirst.trans (by decide))
  have hhandled := pfHandler_mapped kEnd (by decide) hentry hreq
  rw [installPage_mapped hx] at hhandled
  have hexec : Handling.exec kEnd ⟨oneTable b, []⟩ (.fault absentWrite) =
      .ok ⟨putPage ((oneTable b).fault absentWrite) 6 0x5000, []⟩ := bind_ok hhandled _
  rw [run_cons hexec, run]

theorem provided_run_log_safe_write : ∃ s,
    run (Handling.exec 0) ⟨oneTable fun _ => 0, []⟩ [.fault absentWrite] = .ok s ∧ LogSafe s.kernel.log := by
  obtain ⟨hentry, hpde⟩ := oneTable_entry fun _ => 0
  refine ⟨_, absentWrite_exec 0 _,
    provided_run_log_safe 0 _ [.fault absentWrite] rfl ⟨⟨by decide, ?_, ?_⟩, fun _ _ => trivial⟩ _
      (absentWrite_exec 0 _)⟩
  · exact ⟨0x4000, by decide, by decide, by decide⟩
  · intro entry hentry' hz
    obtain rfl := Option.some.inj (hentry.symm.trans hentry')
    change (getPde (oneTable fun _ => 0).mem 0x1004).ptAddr = 0 at hz
    rw [hpde] at hz
    exact absurd hz (by decide)

theorem exhausted_run_log_unsafe :
    ¬ ∀ (kEnd : ℕ) (k : Kernel) (activities : List Activity), k.log = [] →
      Along (Handling.exec kEnd) (Activity.Meets fun _ f => f.NotPresent) ⟨k, []⟩ activities →
      ∀ s, run (Handling.exec kEnd) ⟨k, []⟩ activities = .ok s → LogSafe s.kernel.log := by
  intro h
  have hset (n : ℕ) : isBitmapSet (fun _ => BitVec.allOnes 32) n = true := by
    rw [isBitmapSet_eq, BitVec.getLsbD_allOnes]
    simp only [decide_eq_true_eq]
    omega
  have hnone : reqPage (fun _ => BitVec.allOnes 32) = (0, fun _ => BitVec.allOnes 32) := by
    rcases reqPage_spec (fun _ => BitVec.allOnes 32) with ⟨hnone, -⟩ | ⟨n, -, hn, -⟩
    · exact hnone
    · rw [hset n] at hn
      exact Bool.noConfusion hn
  have hmem (b : Bitmap) : Event.setPte 0x5000 (makePte kUPteWritePresentAccess (reqPage b).1) ∈
      (putPage ((oneTable b).fault absentWrite) 6 0x5000).log :=
    List.mem_cons_self
  have hmem := hmem fun _ => BitVec.allOnes 32
  rw [hnone] at hmem
  have hsafe := h 0 (oneTable fun _ => BitVec.allOnes 32) [.fault absentWrite] rfl
    ⟨(by decide : absentWrite.NotPresent), fun _ _ => trivial⟩ _ (absentWrite_exec 0 _)
  exact absurd (hsafe.pte _ _ hmem (by decide) (by decide)) (by decide)

end XyOS.Process
