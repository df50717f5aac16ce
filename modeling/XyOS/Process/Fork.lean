import XyOS.Process.KernelMapping

/-! Page faults of a father and its son after a fork. The two directories share the
page tables that the father had at the fork. -/

namespace XyOS.Process
open Linked Runs DirectMapping PageAllocator Paging

variable {R kPcb kEnd father child d e i j v : ℕ} {s s' : Sys} {k k' : Kernel} {dirs : List ℕ}

/-! ## One fault -/

theorem Faulted.tableFrame_of_ne (hf : Faulted R k d i j k') (h : Spaces k.mem (pageFrames k.alloc) dirs)
    (hd : d ∈ dirs) (he : e ∈ dirs) (hi : i < 768) (hj : j < 1024) {i' : ℕ} (hi' : i' < 768)
    (hne : ¬ (e = d ∧ i' = i ∧ tableFrame k.mem d i = 0)) :
    tableFrame k'.mem e i' = tableFrame k.mem e i' := by
  obtain ⟨m, w, hm, -, -, -, hmem, ⟨-, rfl⟩ | ⟨hz, -, access, t, -, rfl⟩⟩ := hf.split h hd hi
  · rw [hmem, (hm.sameFrame_page hd he hi hj w).tableFrame (by omega)]
  · rw [hmem, (hm.sameFrame_page hd he hi hj w).tableFrame (by omega)]
    exact tableFrame_setPde_of_ne _ _ (by omega) (by omega) fun hc => hne ⟨hc.1, hc.2, hz⟩

theorem Faulted.tableFrame_fresh (hf : Faulted R k d i j k') (h : Spaces k.mem (pageFrames k.alloc) dirs)
    (hd : d ∈ dirs) (hi : i < 768) (hj : j < 1024) (hz : tableFrame k.mem d i = 0) :
    tableFrame k'.mem d i ∉ pageFrames k.alloc := by
  obtain ⟨m, w, hm, -, -, -, hmem, ⟨hne, -⟩ | ⟨-, hfresh, -⟩⟩ := hf.split h hd hi
  · exact absurd hz hne
  · rwa [hmem, (hm.sameFrame_page hd hd hi hj w).tableFrame (by omega)]

theorem Faulted.walk_eq (hf : Faulted R k d i j k') (h : Spaces k.mem (pageFrames k.alloc) dirs)
    (hd : d ∈ dirs) (he : e ∈ dirs) (hed : e ≠ d) (hi : i < 768) (hj : j < 1024)
    (hun : tableFrame k.mem d i ≠ 0 → tableFrame k.mem e i ≠ tableFrame k.mem d i) (hv : v < 0xc0000000) :
    walk k'.mem (0x1000 * e) v = walk k.mem (0x1000 * e) v := by
  obtain ⟨m, w, hm, hne, -, -, hmem, ⟨hz, rfl⟩ | ⟨hz, hfresh, access, t, -, rfl⟩⟩ := hf.split h hd hi
  · rw [hmem, hm.walk_page hd he hi hj hne (hun hz) hv]
  · rw [hmem, hm.walk_page hd he hi hj hne ?_ hv, h.walk_table hd he hed hi hv]
    rw [tableFrame_setPde_of_ne _ _ (by omega) (by omega) fun hc => hed hc.1]
    intro heq
    rw [← heq] at hfresh hne
    rcases h.tableFrame_cases he hi with h0 | ⟨-, rfl⟩ | ⟨ho, -⟩
    · exact hne h0
    · rw [h.first d hd] at hz
      omega
    · exact hfresh ho

theorem Faulted.apart (hf : Faulted R k d i j k') (h : Spaces k.mem (pageFrames k.alloc) dirs)
    (hd : d ∈ dirs) (he : e ∈ dirs) (hed : e ≠ d) (hi : i < 768) (hj : j < 1024) {i' : ℕ} (hi' : i' < 768)
    (hun : tableFrame k.mem d i' ≠ 0 → tableFrame k.mem e i' ≠ tableFrame k.mem d i') :
    tableFrame k'.mem d i' ≠ 0 → tableFrame k'.mem e i' ≠ tableFrame k'.mem d i' := by
  have hother := hf.tableFrame_of_ne h hd he hi hj hi' fun hc => hed hc.1
  by_cases hnew : i' = i ∧ tableFrame k.mem d i = 0
  · have hfresh := hf.tableFrame_fresh h hd hi hj hnew.2
    rw [hnew.1] at hother ⊢
    rw [hother]
    intro hpos heq
    rcases h.tableFrame_cases he hi with h0 | ⟨-, rfl⟩ | ⟨ho, -⟩
    · omega
    · have := h.first _ hd
      omega
    · rw [heq] at ho
      exact hfresh ho
  · rw [hother, hf.tableFrame_of_ne h hd hd hi hj hi' fun hc => hnew hc.2]
    exact hun

/-! ## Runs of faults -/

def InFork (k₀ : Kernel) (father child : ℕ) : Op → Prop
  | .create _ => False
  | .fault p addr _ => (p = father ∨ p = child) ∧ (dirEntry k₀ father (addr / 0x400000)).ptAddr = 0

def translate (k : Kernel) (p v : ℕ) : Option ℕ := walk k.mem (physical (k.heap (Pcb.pageDir p))) v

structure Forked (R kPcb : ℕ) (k₀ : Kernel) (father child : ℕ) (s : Sys) : Prop where
  inv : SysInv R kPcb s
  father_mem : father ∈ s.procs
  child_mem : child ∈ s.procs
  ne : child ≠ father
  apart : ∀ i < 768, (dirEntry k₀ father i).ptAddr = 0 →
    tableFrame s.kernel.mem (dirFrame s.kernel father) i ≠ 0 →
    tableFrame s.kernel.mem (dirFrame s.kernel child) i ≠ tableFrame s.kernel.mem (dirFrame s.kernel father) i

variable {k₀ : Kernel} {p q addr errCode : ℕ}

theorem SysInv.created_forked (h : SysInv R kPcb s) (hf : father ∈ s.procs)
    (hc : Created s.kernel s.procs father child k') (h' : SysInv R kPcb ⟨k', child :: s.procs⟩) :
    Forked R kPcb s.kernel father child ⟨k', child :: s.procs⟩ := by
  have hne : child ≠ father := fun he => hc.fresh (he ▸ hf)
  refine ⟨h', List.mem_cons_of_mem child hf, List.mem_cons_self, hne, fun i hi hz hne' => absurd ?_ hne'⟩
  obtain ⟨hdir, hmem⟩ := hc.copied hf h'
  rw [h.dirEntry_eq hf] at hz
  have htable : tableFrame s.kernel.mem (dirFrame s.kernel father) i = 0 := by
    rw [tableFrame, hz]
    rfl
  rw [← htable, ← hc.dirs father hf]
  exact (congrArg (tableFrame · _ i) hmem).trans (uPdClone_tableFrame s.kernel.mem hdir (by omega)).1

theorem Forked.fault (h : Forked R kPcb k₀ father child s) (kEnd : ℕ)
    (hpq : p = father ∧ q = child ∨ p = child ∧ q = father) (hop : Settled s (.fault p addr errCode))
    (hz : (dirEntry k₀ father (addr / 0x400000)).ptAddr = 0) :
    ∃ s', s.exec kEnd (.fault p addr errCode) = .ok s' ∧ Forked R kPcb k₀ father child s' ∧
      ∀ v < 0xc0000000, translate s'.kernel q v = translate s.kernel q v := by
  obtain ⟨hp, haddr, -⟩ := hop.1
  obtain ⟨k', hexec, hf⟩ := h.inv.fault kEnd hop
  have hq : q ∈ s.procs := by
    rcases hpq with ⟨-, rfl⟩ | ⟨-, rfl⟩
    · exact h.child_mem
    · exact h.father_mem
  have hi : addr / 0x400000 < 768 := by omega
  have hj : addr / 0x1000 % 1024 < 1024 := by omega
  have hinv := h.inv.faulted hp hi hj hf
  generalize addr / 0x400000 = i at hz hf hi
  generalize addr / 0x1000 % 1024 = j at hf hj
  have hne : dirFrame s.kernel q ≠ dirFrame s.kernel p := by
    intro he
    have := h.inv.dirFrame_inj hq hp he
    have := h.ne
    omega
  have hdp : dirFrame s.kernel p ∈ s.procs.map (dirFrame s.kernel) := List.mem_map_of_mem hp
  have hdq : dirFrame s.kernel q ∈ s.procs.map (dirFrame s.kernel) := List.mem_map_of_mem hq
  -- `apart` is the same for both, whichever of the two has the fault
  have hun : ∀ i' < 768, (dirEntry k₀ father i').ptAddr = 0 →
      tableFrame s.kernel.mem (dirFrame s.kernel p) i' ≠ 0 →
      tableFrame s.kernel.mem (dirFrame s.kernel q) i' ≠ tableFrame s.kernel.mem (dirFrame s.kernel p) i' := by
    intro i' hi' hz'
    have := h.apart i' hi' hz'
    rcases hpq with ⟨rfl, rfl⟩ | ⟨rfl, rfl⟩ <;> omega
  refine ⟨_, bind_ok hexec _, ⟨hinv, h.father_mem, h.child_mem, h.ne, fun i' hi' hz' => ?_⟩, fun v hv => ?_⟩
  · simp only [hf.dirFrame_eq]
    have := hf.apart h.inv.spaces hdp hdq hne hi hj hi' (hun i' hi' hz')
    rcases hpq with ⟨rfl, rfl⟩ | ⟨rfl, rfl⟩ <;> omega
  · simp only [translate, hf.heap, h.inv.physical_dir hq]
    exact hf.walk_eq h.inv.spaces hdp hdq hne hi hj (hun i hi hz) hv

theorem Forked.exec (h : Forked R kPcb k₀ father child s) {op : Op}
    (hop : Settled s op ∧ InFork k₀ father child op) :
    ∃ s', s.exec kEnd op = .ok s' ∧ Forked R kPcb k₀ father child s' := by
  obtain ⟨hsettled, hin⟩ := hop
  cases op with
  | create father => exact absurd hin id
  | fault p addr errCode =>
    obtain ⟨q, hpq⟩ : ∃ q, p = father ∧ q = child ∨ p = child ∧ q = father := by
      rcases hin.1 with rfl | rfl
      · exact ⟨child, Or.inl ⟨rfl, rfl⟩⟩
      · exact ⟨father, Or.inr ⟨rfl, rfl⟩⟩
    obtain ⟨s₂, hexec, hs₂, -⟩ := h.fault kEnd hpq hsettled hin.2
    exact ⟨s₂, hexec, hs₂⟩

/-- After a fork, faults of father and son in regions for which the father had no page table never
change what the other one sees of user space, if they find their page tables where they look. -/
theorem fork_isolated (kEnd kPcb : ℕ) (k : Kernel) (hboot : Booted kEnd kPcb k) (ops : List Op)
    (hops : Along (Sys.exec kEnd) Settled ⟨k, [kPcb]⟩ ops) (s : Sys)
    (hrun : run (Sys.exec kEnd) ⟨k, [kPcb]⟩ ops = .ok s) (father child : ℕ) (k₁ : Kernel)
    (hfork : Allowed s (.create father)) (hcreate : createProc s.kernel father = .ok (child, k₁))
    (hchild : child ≠ 0) (faults : List Op)
    (hfaults : Along (Sys.exec kEnd) (fun s' op => Settled s' op ∧ InFork s.kernel father child op)
      ⟨k₁, child :: s.procs⟩ faults) :
    ∃ s₁, run (Sys.exec kEnd) ⟨k₁, child :: s.procs⟩ faults = .ok s₁ ∧
      ∀ p q addr errCode, (p = father ∧ q = child ∨ p = child ∧ q = father) →
        Settled s₁ (.fault p addr errCode) → (dirEntry s.kernel father (addr / 0x400000)).ptAddr = 0 →
        ∃ s₂, s₁.exec kEnd (.fault p addr errCode) = .ok s₂ ∧
          ∀ v < 0xc0000000, translate s₂.kernel q v = translate s₁.kernel q v := by
  have hinv := hboot.sysInv_of_run hops hrun
  obtain ⟨hc, hinv₁⟩ := hinv.created hfork hcreate hchild
  have hforked := hinv.created_forked hfork.1 hc hinv₁
  obtain ⟨s₁, hrun₁, hs₁⟩ := run_returns (fun s' op hs' hop => hs'.exec hop) hforked hfaults
  refine ⟨s₁, hrun₁, fun p q addr errCode hpq hop hz => ?_⟩
  obtain ⟨s₂, hexec, -, hwalk⟩ := hs₁.fault kEnd hpq hop hz
  exact ⟨s₂, hexec, hwalk⟩

section Examples
variable {alloc : Allocator} {ls : Slot → List ℕ}

theorem bootOn_dirEntry (h : Carved 20 alloc ls 0) (base : Memory) (h0 : 0 < i) (hi : i < 768) :
    (dirEntry (bootOn base alloc) 0xc0300000 i).ptAddr = 0 := by
  have hentry := (bootOn_booted h base).sysInv.dirEntry_eq (List.mem_singleton_self _) i
  rw [bootOn_dirFrame] at hentry
  rw [hentry]
  exact BitVec.eq_of_toNat_eq (bootOn_noTable h base h0 hi)

theorem fork_fault (h : Carved 20 alloc ls 0)
    (hc : Created (bootOn forkBase alloc) [0xc0300000] 0xc0300000 0xc0300100 k)
    (hinv : SysInv R 0xc0300000 ⟨k, [0xc0300100, 0xc0300000]⟩)
    (hop : Settled ⟨k, [0xc0300100, 0xc0300000]⟩ (.fault 0xc0300100 0x3c00000 6)) :
    ∃ k₂, Sys.exec 0x100000 ⟨k, [0xc0300100, 0xc0300000]⟩ (.fault 0xc0300100 0x3c00000 6) =
        .ok ⟨k₂, [0xc0300100, 0xc0300000]⟩ ∧ dirFrame k₂ 0xc0300100 = 0x3eff ∧ OwnEntry k₂.mem 0x3eff 0x3efe := by
  obtain ⟨hson, hfather, alloc', hreq⟩ := fork_frames h hc
  obtain ⟨hnone, hword⟩ := fork_words h hc
  obtain ⟨k₂, hexec, hf⟩ := hinv.fault 0x100000 hop
  have hf' : Faulted R k 0x3eff 15 0 k₂ := (congrArg (Faulted R k · 15 0 k₂) hson).mp hf
  refine ⟨k₂, bind_ok hexec _, by rw [hf.dirFrame_eq, hson], ?_⟩
  obtain ⟨m, w, -, -, hmem, ⟨hne, -⟩ | ⟨-, t, access, ht, -, haccess, rfl, -, hreq'⟩⟩ := hf'.mem
  · exact absurd hnone hne
  obtain rfl : t = 0x3efe := by
    have := (Prod.mk.inj (Except.ok.inj (hreq'.symm.trans hreq))).1
    omega
  rw [tableFrame_setPde_self _ _ _ _ (by decide)] at hmem
  rw [hmem]
  exact (ownEntry_setPde (by decide) (by decide) haccess hword).page (by decide) (by decide) (by decide) (by decide) w

theorem fork_isolated_first : ∃ alloc k₁ s₁, directMappingInit 0x100000 .zero = .ok alloc ∧
    createProc (bootOn forkBase alloc) 0xc0300000 = .ok (0xc0300100, k₁) ∧
    run (Sys.exec 0x100000) ⟨k₁, [0xc0300100, 0xc0300000]⟩ [.fault 0xc0300100 0x3c00000 6] = .ok s₁ ∧
    ∃ s₂, s₁.exec 0x100000 (.fault 0xc0300100 0x3c01000 6) = .ok s₂ ∧
      ∀ v < 0xc0000000, translate s₂.kernel 0xc0300000 v = translate s₁.kernel 0xc0300000 v := by
  obtain ⟨alloc, ls, hinit, hcarved⟩ := init_megabyte
  obtain ⟨hfork, k₁, hcreate, hexec, hc, hinv, -⟩ := bootOn_create hcarved forkBase
  have hsettled := ((forkOps_settled hcarved).2 _ hexec).1
  obtain ⟨k₂, hexec₂, hdir, hown⟩ := fork_fault hcarved hc hinv hsettled
  have hnone : (dirEntry (bootOn forkBase alloc) 0xc0300000 15).ptAddr = 0 :=
    bootOn_dirEntry hcarved forkBase (by decide) (by decide)
  obtain ⟨s₁, hrun₁, hiso⟩ := fork_isolated 0x100000 0xc0300000 (bootOn forkBase alloc)
    (bootOn_booted hcarved forkBase) [] trivial _ rfl 0xc0300000 0xc0300100 k₁ hfork hcreate (by decide)
    [.fault 0xc0300100 0x3c00000 6] ⟨⟨hsettled, Or.inr rfl, hnone⟩, fun _ _ => trivial⟩
  obtain rfl : s₁ = ⟨k₂, [0xc0300100, 0xc0300000]⟩ := by
    rw [run_cons hexec₂] at hrun₁
    exact (Except.ok.inj hrun₁).symm
  have htable : tableFrame k₂.mem 0x3eff 15 = 0x3efe := hown.frame
  refine ⟨alloc, k₁, _, hinit, hcreate, hrun₁, hiso 0xc0300100 0xc0300000 0x3c01000 6 (Or.inr ⟨rfl, rfl⟩)
    ⟨⟨List.mem_cons_self, by decide, by decide, fun hz => ?_⟩, ?_⟩ hnone⟩
  · simp only [hdir] at hz
    rw [show 0x3c01000 / 0x400000 = 15 from rfl, htable] at hz
    cases hz
  · simp only [InPlace, hdir]
    refine ⟨fun _ => ?_, fun hz => ?_⟩
    · rw [show 0x3c01000 / 0x400000 = 15 from rfl, htable]
      exact hown.mapped
    · rw [show 0x3c01000 / 0x400000 = 15 from rfl, htable] at hz
      cases hz

end Examples

/-- A fault of the kernel's process and then a fork: father and son have the one page table. -/
theorem tableBase_forked {alloc : Allocator} {ls : Slot → List ℕ} (hcarved : Carved 20 alloc ls 0) :
    ∃ k k₁, Settled ⟨bootOn tableBase alloc, [0xc0300000]⟩ (.fault 0xc0300000 0x3c00000 6) ∧
      Sys.exec 0x100000 ⟨bootOn tableBase alloc, [0xc0300000]⟩ (.fault 0xc0300000 0x3c00000 6) =
        .ok ⟨k, [0xc0300000]⟩ ∧
      PageReady k.alloc ∧ createProc k 0xc0300000 = .ok (0xc0300100, k₁) ∧
      SysInv (reservedSize 0x100000) 0xc0300000 ⟨k₁, [0xc0300100, 0xc0300000]⟩ ∧ dirFrame k₁ 0xc0300000 = 1 ∧
      OwnEntry k₁.mem 1 0x3eff ∧ OwnEntry k₁.mem (dirFrame k₁ 0xc0300100) 0x3eff ∧
      readWord k₁.mem (0x1000 * 0x3eff + 4 * 1) = 0 := by
  obtain ⟨k, hsettled, hexec, hinv, hready, hheap, hlist, hown, hzero⟩ :=
    tableBase_fault hcarved (show isBitSet 6 0 = false by decide)
  obtain ⟨k₁, hcreate, hc, hinv₁⟩ := create_first hinv hheap hlist hready
  have hdir : dirFrame k 0xc0300000 = 1 := by
    rw [dirFrame, hheap]
    decide
  have hdir₁ : dirFrame k₁ 0xc0300000 = 1 := (hc.dirs _ (List.mem_singleton_self _)).trans hdir
  have hd₁ : 1 ∈ [0xc0300100, 0xc0300000].map (dirFrame k₁) := by simp [hdir₁]
  have hd₂ : dirFrame k₁ 0xc0300100 ∈ [0xc0300100, 0xc0300000].map (dirFrame k₁) :=
    List.mem_map_of_mem List.mem_cons_self
  obtain ⟨hapart, hmem⟩ := Created.copied (s := ⟨k, [0xc0300000]⟩) hc (List.mem_singleton_self _) hinv₁
  rw [hdir₁] at hapart hmem
  have htable : 0x3eff ≠ dirFrame k₁ 0xc0300100 := by
    intro he
    have hnot := hinv₁.spaces.tableFrame_notMem (i := 15) hd₁ (by decide)
    rw [hmem, (uPdClone_tableFrame k.mem hapart (by decide)).1, show tableFrame k.mem 1 15 = 0x3eff from hown.frame,
      he] at hnot
    exact hnot hd₂
  obtain ⟨hown₁, hown₂, hframe⟩ := hown.clone hapart (by decide) htable (by decide)
  rw [← hmem] at hown₁ hown₂ hframe
  exact ⟨k, k₁, hsettled, bind_ok hexec _, hready, hcreate, hinv₁, hdir₁, hown₁, hown₂,
    (hframe.readWord (by decide)).trans hzero⟩

/-- Father and son share the page tables that the father had at the fork: a page of
the son turns up in the father. -/
theorem fork_shares_tables : ∃ alloc s k₁ s₂, directMappingInit 0x100000 .zero = .ok alloc ∧
    Along (Sys.exec 0x100000) Settled ⟨bootOn tableBase alloc, [0xc0300000]⟩ [.fault 0xc0300000 0x3c00000 6] ∧
    run (Sys.exec 0x100000) ⟨bootOn tableBase alloc, [0xc0300000]⟩ [.fault 0xc0300000 0x3c00000 6] = .ok s ∧
    Allowed s (.create 0xc0300000) ∧ createProc s.kernel 0xc0300000 = .ok (0xc0300100, k₁) ∧
    Settled ⟨k₁, 0xc0300100 :: s.procs⟩ (.fault 0xc0300100 0x3c01000 6) ∧
    Sys.exec 0x100000 ⟨k₁, 0xc0300100 :: s.procs⟩ (.fault 0xc0300100 0x3c01000 6) = .ok s₂ ∧
    translate s₂.kernel 0xc0300000 0x3c01000 ≠ translate k₁ 0xc0300000 0x3c01000 := by
  obtain ⟨alloc, ls, hinit, hcarved⟩ := init_megabyte
  obtain ⟨k, k₁, hsettled, hexec, hready, hcreate, hinv₁, hdir₁, hown₁, hown₂, hbefore⟩ := tableBase_forked hcarved
  have hchild : 0xc0300100 ∈ [0xc0300100, 0xc0300000] := List.mem_cons_self
  have hphys : physical (k₁.heap (Pcb.pageDir 0xc0300000)) = 0x1000 * 1 := by
    rw [← hdir₁]
    exact hinv₁.physical_dir (List.mem_cons_of_mem _ List.mem_cons_self)
  have htable : tableFrame k₁.mem (dirFrame k₁ 0xc0300100) 15 = 0x3eff := hown₂.frame
  have hsettled₁ : Settled ⟨k₁, [0xc0300100, 0xc0300000]⟩ (.fault 0xc0300100 0x3c01000 6) := by
    refine ⟨⟨hchild, by decide, by decide, fun hz => ?_⟩, fun _ => ?_, fun hz => ?_⟩
    · exact absurd (htable.symm.trans hz) (by decide)
    · simp only [show 0x3c01000 / 0x400000 = 15 from rfl, htable]
      exact hown₂.mapped
    · exact absurd (htable.symm.trans hz) (by decide)
  obtain ⟨k₂, hexec₂, hf⟩ := hinv₁.fault 0x100000 hsettled₁
  have hf' : Faulted (reservedSize 0x100000) k₁ (dirFrame k₁ 0xc0300100) 15 1 k₂ := hf
  obtain ⟨m, w, hw, hodd, hmem₂, ⟨-, rfl, -⟩ | ⟨hz, -⟩⟩ := hf'.mem
  · -- the page is absent in the father before the fault and present after it
    rw [htable] at hmem₂
    have hown' : OwnEntry k₂.mem 1 0x3eff := by
      rw [hmem₂]
      exact hown₁.page (by decide) (by decide) (by decide) (by decide) w
    have hafter : (translate k₂ 0xc0300000 0x3c01000).isSome := by
      rw [translate, hf.heap, hphys, walk_isSome_iff]
      refine ⟨hown'.present, ?_⟩
      rw [show tableFrame k₂.mem 1 (0x3c01000 / 2 ^ 22) = 0x3eff from hown'.frame, hmem₂,
        show 0x3c01000 / 2 ^ 12 % 1024 = 1 from rfl, readWord_writeWord hw, hodd]
    refine ⟨alloc, _, k₁, _, hinit, ⟨hsettled, fun _ _ => trivial⟩, (run_cons hexec).trans rfl,
      ⟨List.mem_singleton_self _, fun _ => hready⟩, hcreate, hsettled₁, bind_ok hexec₂ _, fun heq => ?_⟩
    rw [heq, translate, hphys, walk_isSome_iff,
      show tableFrame k₁.mem 1 (0x3c01000 / 2 ^ 22) = 0x3eff from hown₁.frame,
      show 0x3c01000 / 2 ^ 12 % 1024 = 1 from rfl, hbefore] at hafter
    exact absurd hafter.2 (by decide)
  · exact absurd (htable.symm.trans hz) (by decide)

end XyOS.Process
