import XyOS.Process.System

/-! A not-present fault against the two-level walk of the faulting address: which
entries `PfHandler` writes, and what the walk yields afterwards. Memory is arbitrary. -/

namespace XyOS.Process
open Runs DirectMapping PageAllocator Paging

variable {R kEnd d i t v x entry errCode : ℕ} {k k₁ k' : Kernel} {f : PageFault} {alloc : Allocator}

/-! ## Entries -/

theorem present_iff (e : Pde) : Pde.Present e ↔ e.toWord % 2 = 1 := by
  have hodd : e.toWord % 2 = e.access.toNat % 2 := by
    unfold Pde.toWord
    omega
  rw [hodd, Pde.Present, BitVec.getLsbD, Nat.testBit_zero, decide_eq_true_iff]

theorem makePde_present (errCode address : ℕ) : Pde.Present (makePde (pdeAccess errCode) address) := by
  have hodd := pdeAccess_odd errCode
  rw [Pde.Present, makePde, BitVec.getLsbD, Nat.testBit_zero, decide_eq_true_iff]
  exact hodd

theorem walk_present {m : Memory} {v a : ℕ} (h : walk m (0x1000 * d) v = some a) :
    Pde.Present (pde m d (v / 0x400000)) := by
  rw [present_iff]
  by_contra hz
  rw [walk_entries, if_neg (fun hp => hz hp.1)] at h
  cases h

theorem reqPage_frame (b : Bitmap) (hpage : (reqPage b).1 ≠ 0) :
    ∃ n, 0x4000 ≤ n ∧ n < 2 ^ 20 ∧ (reqPage b).1 = 0x1000 * n := by
  rcases reqPage_spec b with ⟨hnone, -⟩ | ⟨n, ⟨hlow, hhigh, -⟩, -, hreq⟩
  · rw [hnone] at hpage
    exact absurd rfl hpage
  · simp only [kVirtualPageNum, kDynamicMappingStartPage] at hlow hhigh
    refine ⟨n, hlow, by omega, ?_⟩
    rw [hreq]
    change u32 (n * 0x1000) = 0x1000 * n
    rw [u32_of_lt (by omega), Nat.mul_comm]

theorem walk_aligned {m : Memory} {pd a : ℕ} (h : walk m pd v = some a) (hv : v % 4 = 0) : a % 4 = 0 := by
  rw [walk_eq] at h
  simp only at h
  split at h
  · split at h
    · have := Option.some.inj h
      omega
    · cases h
  · cases h

/-! ## The page table entry -/

theorem readWord_putPage (k : Kernel) (errCode x : ℕ) :
    readWord (putPage k errCode x).mem x = (makePte (pteAccess errCode) (reqPage k.pageState).1).toWord := by
  rw [putPage_setPte, Paging.setPte, readWord_writeWord (Pte.toWord_lt _)]

section PutPage
variable (errCode)

theorem putPage_pde (hx : x % 4 = 0) (hne : x ≠ 0x1000 * d + 4 * i) :
    pde (putPage k errCode x).mem d i = pde k.mem d i := by
  rw [pde, getPde, putPage_setPte, Paging.setPte, readWord_writeWord_of_disjoint (by omega), ← getPde, ← pde]

theorem putPage_pteOf (hx : x % 4 = 0) (hne : x ≠ 0x1000 * d + 4 * (v / 0x400000)) :
    pteOf (putPage k errCode x).mem d v = pteOf k.mem d v := by
  rw [pteOf, tableFrame, putPage_pde errCode hx hne, ← tableFrame, ← pteOf]

theorem pteOf_aligned (m : Memory) (d v : ℕ) : pteOf m d v % 4 = 0 := by
  unfold pteOf
  omega

theorem putPage_word (hpage : (reqPage k.pageState).1 ≠ 0) :
    readWord (putPage k errCode x).mem x % 2 = 1 ∧
      readWord (putPage k errCode x).mem x / 0x1000 * 0x1000 = (reqPage k.pageState).1 := by
  obtain ⟨n, -, hn, hreq⟩ := reqPage_frame k.pageState hpage
  have haccess := pteAccess_odd errCode
  have hbyte := (pteAccess errCode).isLt
  rw [readWord_putPage, hreq, toWord_makePte _ (by omega)]
  omega

theorem putPage_ne (hd : d < 0x4000) (hv : v < 2 ^ 32) (hpage : (reqPage k.pageState).1 ≠ 0)
    (hx : x = pteOf (putPage k errCode x).mem d v) : x ≠ 0x1000 * d + 4 * (v / 0x400000) := by
  intro he
  obtain ⟨n, hn, -, hreq⟩ := reqPage_frame k.pageState hpage
  have hframe := (putPage_word (x := x) errCode hpage).2
  have htable := tableFrame_eq (putPage k errCode x).mem d (v / 0x400000)
  rw [← he, show (2 ^ 12 : ℕ) = 0x1000 from rfl] at htable
  unfold pteOf at hx
  omega

theorem walk_putPage (hpresent : Pde.Present (pde k.mem d (v / 0x400000)))
    (hne : pteOf k.mem d v ≠ 0x1000 * d + 4 * (v / 0x400000)) (hpage : (reqPage k.pageState).1 ≠ 0) :
    walk (putPage k errCode (pteOf k.mem d v)).mem (0x1000 * d) v =
      some ((reqPage k.pageState).1 + v % 0x1000) := by
  have haligned := pteOf_aligned k.mem d v
  obtain ⟨hodd, hframe⟩ := putPage_word (x := pteOf k.mem d v) errCode hpage
  rw [walk_entries, putPage_pteOf errCode haligned hne, putPage_pde errCode haligned hne,
    if_pos ⟨(present_iff _).mp hpresent, hodd⟩, hframe]

end PutPage

/-! ## The repair -/

/-- Of all entries only those of `addr` are written, in the directory and in its page table,
and the walk of `addr` then ends in the page that `ReqPage` returned. -/
structure Repaired (k : Kernel) (d addr : ℕ) (k' : Kernel) : Prop where
  entries : ∃ events, k'.log = events ++ k.log ∧
    (∀ entry e, Event.setPde entry e ∈ events → entry = 0x1000 * d + 4 * (addr / 0x400000)) ∧
    ∀ entry e, Event.setPte entry e ∈ events → entry = pteOf k'.mem d addr
  other : ∀ x, x < 0x1000 * d + 4 * (addr / 0x400000) ∨ 0x1000 * d + 4 * (addr / 0x400000) + 4 ≤ x →
    x < pteOf k'.mem d addr ∨ pteOf k'.mem d addr + 4 ≤ x → k'.mem x = k.mem x
  walk : Paging.walk k'.mem (0x1000 * d) addr = some ((reqPage k.pageState).1 + addr % 0x1000)

/-- What `PfHandler` finds at `&pd[pd_i]` leads it to the page table of `addr`: a page table is named
there, and its linear address leads to the table that the walk of `addr` uses, or none is named, it is
the directory entry of `addr`, and the linear address of the new page table leads to the new page table. -/
def LedToTable (k : Kernel) (d : ℕ) (f : PageFault) : Prop :=
  ∃ entry, (k.fault f).linear (pdePtr (k.fault f)) = some entry ∧
    if (getPde k.mem entry).ptAddr = 0 then
      entry = 0x1000 * d + 4 * (f.addr / 0x400000) ∧ ∀ t alloc,
        reqBytes k.alloc kPtMaxSize = .ok (kKVirtualAddr + 0x1000 * t, alloc) →
          MappedToItself (setPde k.mem entry (pdeAccess f.errCode) (0x1000 * t)) d t
    else
      walk k.mem (0x1000 * d) (0x1000 * (getPde k.mem entry).ptAddr.toNat) =
          some (0x1000 * tableFrame k.mem d (f.addr / 0x400000)) ∧
        Pde.Present (pde k.mem d (f.addr / 0x400000)) ∧
          pteOf k.mem d f.addr ≠ 0x1000 * d + 4 * (f.addr / 0x400000)

theorem walk_entry_iff (m : Memory) (pd t t' : ℕ) {j : ℕ} (hj : j < 1024) :
    walk m pd (0x1000 * t + 4 * j) = some (0x1000 * t' + 4 * j) ↔ walk m pd (0x1000 * t) = some (0x1000 * t') := by
  rw [walk_add _ _ _ (by omega), Option.map_eq_some_iff]
  constructor
  · rintro ⟨a, ha, he⟩
    rw [ha, Nat.add_right_cancel he]
  · intro h
    exact ⟨_, h, rfl⟩

theorem ptePtr_fault (k : Kernel) (f : PageFault) (entry : ℕ) : ptePtr (k.fault f) entry =
    0x1000 * (getPde k.mem entry).ptAddr.toNat + 4 * (f.addr / 0x1000 % 1024) := by
  rw [ptePtr, Nat.shiftLeft_eq, kPteMaxNum, Nat.mul_comm]
  rfl

theorem ptePtr_installTable (k : Kernel) (f : PageFault) (errCode entry : ℕ) (ht : t < 0x3f00) (alloc : Allocator) :
    ptePtr (installTable (k.fault f) errCode entry (kKVirtualAddr + 0x1000 * t) alloc) entry =
      0x1000 * t + 4 * (f.addr / 0x1000 % 1024) := by
  rw [ptePtr, installTable_mem _ _ _ ht, setPde, getPde_writeWord, makePde_ptAddr _ (by omega), Nat.shiftLeft_eq,
    kPteMaxNum, Nat.mul_comm]
  rfl

theorem Repaired.setPte_eq (h : Repaired k d f.addr (putPage k₁ errCode x)) {events : List Event}
    (hlog : k₁.log = events ++ k.log) : x = pteOf (putPage k₁ errCode x).mem d f.addr := by
  obtain ⟨events', hlog', -, hpte⟩ := h.entries
  obtain rfl : .setPte x _ :: events = events' :=
    List.append_cancel_right ((congrArg (List.cons _) hlog).symm.trans hlog')
  exact hpte _ _ List.mem_cons_self

theorem repaired_putPage (hpresent : Pde.Present (pde k₁.mem d (f.addr / 0x400000)))
    (hne : pteOf k₁.mem d f.addr ≠ 0x1000 * d + 4 * (f.addr / 0x400000))
    (hevents : ∃ events, k₁.log = events ++ k.log ∧
      (∀ entry e, Event.setPde entry e ∈ events → entry = 0x1000 * d + 4 * (f.addr / 0x400000)) ∧
      ∀ entry e, Event.setPte entry e ∉ events)
    (hother : ∀ x, x < 0x1000 * d + 4 * (f.addr / 0x400000) ∨ 0x1000 * d + 4 * (f.addr / 0x400000) + 4 ≤ x →
      k₁.mem x = k.mem x)
    (hstate : k₁.pageState = k.pageState) (hpage : (reqPage k.pageState).1 ≠ 0) (errCode : ℕ) :
    Repaired k d f.addr (putPage k₁ errCode (pteOf k₁.mem d f.addr)) := by
  have hsame := putPage_pteOf (k := k₁) (v := f.addr) errCode (pteOf_aligned _ _ _) hne
  refine ⟨?_, fun x h1 h2 => ?_, ?_⟩
  · obtain ⟨events, hlog, hentry, hnone⟩ := hevents
    rw [hsame]
    refine ⟨Event.setPte (pteOf k₁.mem d f.addr) _ :: events, congrArg (List.cons _) hlog, fun entry e he => ?_,
      fun entry e he => ?_⟩
    · exact hentry entry e ((List.mem_cons.mp he).resolve_left Event.noConfusion)
    · rcases List.mem_cons.mp he with he | he
      · exact (Event.setPte.inj he).1
      · exact absurd he (hnone entry e)
  · rw [hsame] at h2
    rw [← hother x h1, putPage_setPte, Paging.setPte, writeWord_of_lt_or_gt h2]
  · rw [← hstate] at hpage ⊢
    exact walk_putPage errCode hpresent hne hpage

section Repair
variable (hd : d < 0x4000) (hcr3 : f.cr3 = 0x1000 * d) (haddr : f.addr < 2 ^ 32) (hf : f.NotPresent)
  (hpage : (reqPage k.pageState).1 ≠ 0)
  (hentry : (k.fault f).linear (pdePtr (k.fault f)) = some entry)
include hd hcr3 haddr hf hpage hentry

theorem repaired_found_iff (kEnd : ℕ) (hpt : (getPde k.mem entry).ptAddr ≠ 0) :
    (∃ k', f.exec kEnd k = .ok k' ∧ Repaired k d f.addr k') ↔
      walk k.mem (0x1000 * d) (0x1000 * (getPde k.mem entry).ptAddr.toNat) =
          some (0x1000 * tableFrame k.mem d (f.addr / 0x400000)) ∧
        Pde.Present (pde k.mem d (f.addr / 0x400000)) ∧
          pteOf k.mem d f.addr ≠ 0x1000 * d + 4 * (f.addr / 0x400000) := by
  have hreq : requireTable (k.fault f) f.errCode entry = .ok (k.fault f) := requireTable_present hpt
  have hlinear (y : ℕ) : (k.fault f).linear (ptePtr (k.fault f) entry) = some y ↔ walk k.mem (0x1000 * d)
      (0x1000 * (getPde k.mem entry).ptAddr.toNat + 4 * (f.addr / 0x1000 % 1024)) = some y := by
    rw [ptePtr_fault, Kernel.linear, show (k.fault f).cr3 = 0x1000 * d from hcr3]
    rfl
  rw [← walk_entry_iff _ _ _ _ (show f.addr / 0x1000 % 1024 < 1024 by omega), ← pteOf]
  constructor
  · rintro ⟨k', hexec, hrepaired⟩
    obtain ⟨x, hx, rfl⟩ := (exec_mapped_iff hf hentry hreq).mp hexec
    have hpte := hrepaired.setPte_eq (show (k.fault f).log = [] ++ k.log from rfl)
    have hne := putPage_ne (k := k.fault f) f.errCode hd haddr hpage hpte
    have hwalk := (hlinear x).mp hx
    have haligned := walk_aligned hwalk (by omega)
    rw [putPage_pteOf f.errCode haligned hne] at hpte
    have hpresent := walk_present hrepaired.walk
    rw [putPage_pde f.errCode haligned hne] at hpresent
    rw [hpte] at hwalk hne
    exact ⟨hwalk, hpresent, hne⟩
  · rintro ⟨hwalk, hpresent, hne⟩
    refine ⟨_, (exec_mapped_iff hf hentry hreq).mpr ⟨_, (hlinear _).mpr hwalk, rfl⟩, ?_⟩
    have hpresent' : Pde.Present (pde (k.fault f).mem d (f.addr / 0x400000)) := hpresent
    exact repaired_putPage hpresent' hne ⟨[], rfl, by simp, by simp⟩ (fun _ _ => rfl) rfl hpage _

theorem repaired_made_iff (kEnd : ℕ) (hpt : (getPde k.mem entry).ptAddr = 0) (ht : t < 0x3f00) (htd : t ≠ d)
    (hreq : reqBytes k.alloc kPtMaxSize = .ok (kKVirtualAddr + 0x1000 * t, alloc)) :
    (∃ k', f.exec kEnd k = .ok k' ∧ Repaired k d f.addr k') ↔ entry = 0x1000 * d + 4 * (f.addr / 0x400000) ∧
      MappedToItself (setPde k.mem entry (pdeAccess f.errCode) (0x1000 * t)) d t := by
  have hreq' : requireTable (k.fault f) f.errCode entry =
      .ok (installTable (k.fault f) f.errCode entry (kKVirtualAddr + 0x1000 * t) alloc) :=
    requireTable_absent hpt hreq
  have hmem := installTable_mem (k.fault f) f.errCode entry ht alloc
  have hptr := ptePtr_installTable k f f.errCode entry ht alloc
  have hcr3' : (installTable (k.fault f) f.errCode entry (kKVirtualAddr + 0x1000 * t) alloc).cr3 = 0x1000 * d := hcr3
  have hstate : (installTable (k.fault f) f.errCode entry (kKVirtualAddr + 0x1000 * t) alloc).pageState =
    k.pageState := rfl
  have hlog : (installTable (k.fault f) f.errCode entry (kKVirtualAddr + 0x1000 * t) alloc).log =
    [.setPde entry (makePde (pdeAccess f.errCode) (directMappingPhysAddr (kKVirtualAddr + 0x1000 * t))),
      .reqBytes (kKVirtualAddr + 0x1000 * t)] ++ k.log := rfl
  generalize installTable (k.fault f) f.errCode entry (kKVirtualAddr + 0x1000 * t) alloc = k₁ at *
  have hlinear (y : ℕ) : k₁.linear (ptePtr k₁ entry) = some y ↔
      walk k₁.mem (0x1000 * d) (0x1000 * t + 4 * (f.addr / 0x1000 % 1024)) = some y := by
    rw [hptr, Kernel.linear, hcr3']
  -- once the entry is the one of the address, it names the new page table
  have hnew (he : entry = 0x1000 * d + 4 * (f.addr / 0x400000)) : pteOf k₁.mem d f.addr =
      0x1000 * t + 4 * (f.addr / 0x1000 % 1024) ∧ Pde.Present (pde k₁.mem d (f.addr / 0x400000)) := by
    rw [pteOf, hmem, he, tableFrame_setPde_self _ _ _ _ (by omega), pde_setPde_self]
    exact ⟨rfl, makePde_present _ _⟩
  rw [MappedToItself, ← walk_entry_iff _ _ _ _ (show f.addr / 0x1000 % 1024 < 1024 by omega)]
  rw [show (k.fault f).mem = k.mem from rfl] at hmem
  rw [← hmem]
  constructor
  · rintro ⟨k', hexec, hrepaired⟩
    obtain ⟨x, hx, rfl⟩ := (exec_mapped_iff hf hentry hreq').mp hexec
    obtain ⟨events, hlog', hsetPde, -⟩ := hrepaired.entries
    obtain rfl : .setPte x _ :: [_, _] = events :=
      List.append_cancel_right ((congrArg (List.cons _) hlog).symm.trans hlog')
    have he := hsetPde _ _ (List.mem_cons_of_mem _ List.mem_cons_self)
    have hpte := hrepaired.setPte_eq hlog
    have hne := putPage_ne f.errCode hd haddr (hstate ▸ hpage) hpte
    have hwalk := (hlinear x).mp hx
    rw [putPage_pteOf f.errCode (walk_aligned hwalk (by omega)) hne, (hnew he).1] at hpte
    rw [hpte] at hwalk
    exact ⟨he, hwalk⟩
  · rintro ⟨he, hwalk⟩
    obtain ⟨hpte, hpresent⟩ := hnew he
    refine ⟨_, (exec_mapped_iff hf hentry hreq').mpr ⟨_, (hlinear _).mpr hwalk, rfl⟩, ?_⟩
    rw [← hpte]
    refine repaired_putPage hpresent ?_ ⟨_, hlog, fun entry' e hmem' => ?_, by simp⟩ (fun y hy => ?_) hstate hpage _
    · rw [hpte]
      omega
    · simp only [List.mem_cons, Event.setPde.injEq, reduceCtorEq, List.not_mem_nil, or_false] at hmem'
      exact hmem'.1.trans he
    · rw [hmem, setPde, he, writeWord_of_lt_or_gt hy]

end Repair

/-- A not-present fault is repaired at the faulting address exactly when the words that `PfHandler`
finds, through the page tables as they are, lead it to the page table of the address. -/
theorem fault_repaired_iff (R kEnd d : ℕ) (k : Kernel) (f : PageFault) (hsize : 2 ^ 20 ≤ R)
    (halloc : Invariant R k.alloc k.alloc.lists) (hdir : d = 1 ∨ d ∈ pageFrames k.alloc)
    (hcr3 : f.cr3 = 0x1000 * d) (haddr : f.addr < 2 ^ 32) (hf : f.NotPresent)
    (hbytes : ∀ entry, (k.fault f).linear (pdePtr (k.fault f)) = some entry →
      (getPde k.mem entry).ptAddr = 0 → PageReady k.alloc)
    (hpage : (reqPage k.pageState).1 ≠ 0) :
    (∃ k', f.exec kEnd k = .ok k' ∧ Repaired k d f.addr k') ↔ LedToTable k d f := by
  have hd : d < 0x4000 := by
    rcases hdir with rfl | hmem
    · decide
    · have := halloc.frame_bounds hsize hmem
      omega
  cases hentry : (k.fault f).linear (pdePtr (k.fault f)) with
  | none =>
    refine iff_of_false ?_ ?_
    · rintro ⟨k', hexec, -⟩
      obtain ⟨entry, k₁, x, hentry', -⟩ := (exec_iff hf).mp hexec
      cases hentry.symm.trans hentry'
    · rintro ⟨entry, hentry', -⟩
      cases hentry.symm.trans hentry'
  | some entry =>
    have hled : LedToTable k d f ↔ _ := ⟨fun ⟨entry', hentry', h⟩ =>
      (Option.some.inj (hentry.symm.trans hentry')) ▸ h, fun h => ⟨entry, hentry, h⟩⟩
    rw [hled]
    by_cases hpt : (getPde k.mem entry).ptAddr = 0
    · obtain ⟨t, alloc, hreq, hinv, hfresh, hframes⟩ := halloc.reqFrame hsize (hbytes entry hentry hpt)
      have ht : 0x100 ≤ t ∧ t < 0x3f00 :=
        hinv.frame_bounds hsize (show t ∈ pageFrames alloc by rw [hframes]; exact Or.inl rfl)
      have htd : t ≠ d := by
        rintro rfl
        rcases hdir with rfl | hmem
        · omega
        · exact hfresh hmem
      rw [if_pos hpt, repaired_made_iff hd hcr3 haddr hf hpage hentry kEnd hpt ht.2 htd hreq]
      refine and_congr_right fun _ => ⟨fun hmapped t' alloc' hreq' => ?_, fun hmapped => hmapped t alloc hreq⟩
      obtain rfl : t' = t := by
        have := (Prod.mk.inj (Except.ok.inj (hreq'.symm.trans hreq))).1
        omega
      exact hmapped
    · rw [if_neg hpt, repaired_found_iff hd hcr3 haddr hf hpage hentry kEnd hpt]

/-! ## After boot -/

theorem bootOn_linear (base : Memory) (alloc : Allocator) {f : PageFault} (hcr3 : f.cr3 = 0x1000)
    (hx : x < 0x4000000) : ((bootOn base alloc).fault f).linear (0xc0000000 + x) = some x := by
  rw [Kernel.linear, show ((bootOn base alloc).fault f).cr3 = 0x1000 from hcr3]
  exact (tables_kernelTables base).walk_direct hx

theorem reqPage_boot (base : Memory) (alloc : Allocator) : (reqPage (bootOn base alloc).pageState).1 ≠ 0 := by
  rw [show (reqPage (bootOn base alloc).pageState).1 = 0x4000000 from reqPage_clear]
  decide

theorem fault_repaired_iff_table : ∃ alloc k', directMappingInit 0x100000 .zero = .ok alloc ∧
    (⟨0x1000, 0x3c00000, 6⟩ : PageFault).exec 0x100000 (bootOn tableBase alloc) = .ok k' ∧
    Repaired (bootOn tableBase alloc) 1 0x3c00000 k' := by
  obtain ⟨alloc, ls, hinit, hcarved⟩ := init_megabyte
  have hboot := bootOn_booted hcarved tableBase
  have hz := bootOn_noTable hcarved tableBase (i := 15) (by decide) (by decide)
  have hled : LedToTable (bootOn tableBase alloc) 1 ⟨0x1000, 0x3c00000, 6⟩ := by
    refine ⟨0x103c, ?_, ?_⟩
    · rw [pdePtr_fault (by decide) (by decide)]
      exact bootOn_linear tableBase alloc rfl (by decide)
    · rw [if_pos ((ptAddr_eq_zero_iff (bootOn tableBase alloc).mem 1 15).mpr hz)]
      exact ⟨by decide, (tableBase_tableMapped hcarved 6).made hz⟩
  obtain ⟨k', hexec, hrepaired⟩ := (fault_repaired_iff (reservedSize 0x100000) 0x100000 1 (bootOn tableBase alloc)
    ⟨0x1000, 0x3c00000, 6⟩ hboot.sysInv.size hboot.alloc (Or.inl rfl) rfl (by decide) (by decide)
    (fun _ _ _ => hcarved.pageReady.1) (reqPage_boot tableBase alloc)).mpr hled
  exact ⟨alloc, k', hinit, hexec, hrepaired⟩

/-- The signed index leads to the word at `0xc00`, in front of the directory. -/
theorem bootKernel_not_ledToTable (alloc : Allocator) : ¬ LedToTable (bootKernel alloc) 1 ⟨0x1000, 0xbffffff0, 6⟩ := by
  rintro ⟨entry, hentry, hled⟩
  have hptr : pdePtr ((bootKernel alloc).fault ⟨0x1000, 0xbffffff0, 6⟩) = 0xc0000000 + 0xc00 :=
    (by decide : ofInt32 (directMappingVirtualAddr 0x1000 + 4 * Int.tdiv (toInt32 0xbffffff0) 0x400000) =
      0xc0000000 + 0xc00)
  rw [hptr] at hentry
  obtain rfl := Option.some.inj ((bootOn_linear (fun _ => 0) alloc rfl (by decide)).symm.trans hentry)
  have hword : readWord (bootKernel alloc).mem 0xc00 = 0 := by
    have hzero : readWord (bootKernel alloc).mem 0xc00 = readWord (fun _ => 0) 0xc00 :=
      readWord_congr fun x _ _ => (kernelTables_spec fun _ => 0).2.2 x (by omega) (by omega)
    rw [hzero]
    rfl
  have hpt : (getPde (bootKernel alloc).mem 0xc00).ptAddr = 0 := by
    rw [getPde, hword]
    decide
  rw [if_pos hpt] at hled
  exact absurd hled.1 (by decide)

/-- The new page table is in frame `0x3eff`, and nothing is mapped at `0x3eff000`. -/
theorem bootKernel_exec_unmapped {ls : Slot → List ℕ} (hcarved : Carved 20 alloc ls 0) :
    (⟨0x1000, 0x400000, 6⟩ : PageFault).exec 0x100000 (bootKernel alloc) = .error .pageFault := by
  have hboot := bootOn_booted hcarved fun _ => 0
  obtain ⟨alloc₁, -, hreq, -⟩ := hcarved.first_frames
  have hz := bootOn_noTable hcarved (fun _ => 0) (i := 1) (by decide) (by decide)
  have hentry : ((bootKernel alloc).fault ⟨0x1000, 0x400000, 6⟩).linear
      (pdePtr ((bootKernel alloc).fault ⟨0x1000, 0x400000, 6⟩)) = some 0x1004 := by
    rw [pdePtr_fault (by decide) (by decide)]
    exact bootOn_linear _ alloc rfl (by decide)
  have hmade : requireTable ((bootKernel alloc).fault ⟨0x1000, 0x400000, 6⟩) 6 0x1004 = _ :=
    requireTable_absent ((ptAddr_eq_zero_iff _ 1 1).mpr hz) hreq
  have hnone : (installTable ((bootKernel alloc).fault ⟨0x1000, 0x400000, 6⟩) 6 0x1004
      (kKVirtualAddr + 0x1000 * 0x3eff) alloc₁).linear (ptePtr (installTable
        ((bootKernel alloc).fault ⟨0x1000, 0x400000, 6⟩) 6 0x1004 (kKVirtualAddr + 0x1000 * 0x3eff) alloc₁)
          0x1004) = none := by
    have hpde : pde (setPde (bootKernel alloc).mem (0x1000 * 1 + 4 * 1) (pdeAccess 6) (0x1000 * 0x3eff)) 1 15 =
        initialPde 15 :=
      (pde_setPde_of_ne _ _ (by decide) (by decide) (by decide)).trans (hboot.dir 15 (by decide))
    rw [ptePtr_installTable _ _ _ _ (by decide), Kernel.linear, installTable_mem _ _ _ (by decide)]
    refine (walk_entries _ 1 (0x1000 * 0x3eff + 4 * 0)).trans (if_neg fun h => ?_)
    have hodd := (congrArg (·.toWord % 2) hpde).symm.trans h.1
    exact absurd hodd (by decide)
  have hrun := pfHandler_mapped 0x100000 (by decide) hentry hmade
  rw [installPage_unmapped hnone] at hrun
  rw [PageFault.exec, hrun]
  rfl

theorem faults_not_repaired : ∃ alloc, directMappingInit 0x100000 .zero = .ok alloc ∧
    Booted 0x100000 0xc0300000 (bootKernel alloc) ∧ PageReady alloc ∧
    (reqPage (bootKernel alloc).pageState).1 ≠ 0 ∧ (⟨0x1000, 0x400000, 6⟩ : PageFault).NotPresent ∧
    (⟨0x1000, 0x400000, 6⟩ : PageFault).exec 0x100000 (bootKernel alloc) = .error .pageFault ∧
    ¬ ∃ k', (⟨0x1000, 0xbffffff0, 6⟩ : PageFault).exec 0x100000 (bootKernel alloc) = .ok k' ∧
      Repaired (bootKernel alloc) 1 0xbffffff0 k' := by
  obtain ⟨alloc, ls, hinit, hcarved⟩ := init_megabyte
  have hboot := bootOn_booted hcarved fun _ => 0
  refine ⟨alloc, hinit, hboot, hcarved.pageReady.1, reqPage_boot _ alloc, by decide,
    bootKernel_exec_unmapped hcarved, fun hrepaired => bootKernel_not_ledToTable alloc ?_⟩
  exact (fault_repaired_iff (reservedSize 0x100000) 0x100000 1 (bootKernel alloc) ⟨0x1000, 0xbffffff0, 6⟩
    hboot.sysInv.size hboot.alloc (Or.inl rfl) rfl (by decide) (by decide) (fun _ _ _ => hcarved.pageReady.1)
    (reqPage_boot _ alloc)).mp hrepaired

end XyOS.Process
