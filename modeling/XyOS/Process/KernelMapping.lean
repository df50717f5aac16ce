import XyOS.Process.System

/-! The kernel's part of memory in the address spaces of all processes. -/

namespace XyOS.Process
open Linked Runs DirectMapping PageAllocator Paging

def dirEntry (k : Kernel) (p i : ℕ) : Pde := getPde k.mem (physical (k.heap (Pcb.pageDir p)) + 4 * i)

/-- Every process sees the direct mapping area as it is after `PagingInit`, through
entries that are writable and not for the user. -/
structure KernelMapped (s : Sys) : Prop where
  walk : ∀ p ∈ s.procs, ∀ v, 0xc0000000 ≤ v → v < 0xc4000000 →
    walk s.kernel.mem (physical (s.kernel.heap (Pcb.pageDir p))) v = some (v - 0xc0000000)
  access : ∀ p ∈ s.procs, ∀ v, 0xc0000000 ≤ v → v < 0xc4000000 →
    (dirEntry s.kernel p (v >>> 22)).access = kKPdeWritePresentAccess
  entries : ∀ p ∈ s.procs, ∀ i, 768 ≤ i → i < 1024 → dirEntry s.kernel p i = initialPde i

structure Cloned (k : Kernel) (father son : ℕ) : Prop where
  same : ∀ i < 1024, dirEntry k son i = dirEntry k father i
  readOnly : ∀ i < 768, (dirEntry k father i).access.getLsbD 1 = false ∧
    (dirEntry k son i).access.getLsbD 1 = false

variable {R kPcb kEnd p q father x : ℕ} {s : Sys} {k k' : Kernel}

theorem SysInv.dirEntry_eq (h : SysInv R kPcb s) (hp : p ∈ s.procs) (i : ℕ) :
    dirEntry s.kernel p i = pde s.kernel.mem (dirFrame s.kernel p) i := by
  rw [dirEntry, h.physical_dir hp, pde]

theorem SysInv.kernelMapped (h : SysInv R kPcb s) : KernelMapped s := by
  refine ⟨fun p hp v h1 h2 => ?_, fun p hp v h1 h2 => ?_, fun p hp i h1 h2 => ?_⟩
  · rw [h.physical_dir hp]
    exact (h.spaces.walk_direct (List.mem_map_of_mem hp) h1 h2).1
  · rw [h.dirEntry_eq hp, Nat.shiftRight_eq_div_pow]
    exact (h.spaces.walk_direct (List.mem_map_of_mem hp) h1 h2).2
  · rw [h.dirEntry_eq hp]
    exact h.spaces.kernel _ (List.mem_map_of_mem hp) i h1 h2

theorem SysInv.dirFrame_inj (h : SysInv R kPcb s) (hp : p ∈ s.procs) (hq : q ∈ s.procs)
    (he : dirFrame s.kernel p = dirFrame s.kernel q) : p = q :=
  List.inj_on_of_nodup_map h.spaces.nodup hp hq he

theorem Created.copied (hc : Created s.kernel s.procs father x k') (hf : father ∈ s.procs)
    (h' : SysInv R kPcb ⟨k', x :: s.procs⟩) :
    dirFrame k' x ≠ dirFrame k' father ∧
      k'.mem = uPdClone s.kernel.mem (0x1000 * dirFrame k' x) (0x1000 * dirFrame k' father) := by
  constructor
  · intro he
    have hsame := h'.dirFrame_inj List.mem_cons_self (List.mem_cons_of_mem x hf) he
    exact hc.fresh (hsame ▸ hf)
  · rw [hc.dirs father hf]
    exact hc.mem

theorem Created.cloned (hc : Created s.kernel s.procs father x k') (hf : father ∈ s.procs)
    (h' : SysInv R kPcb ⟨k', x :: s.procs⟩) : Cloned k' father x := by
  have hx : x ∈ x :: s.procs := List.mem_cons_self
  have hf' : father ∈ x :: s.procs := List.mem_cons_of_mem x hf
  obtain ⟨hne, hmem⟩ := hc.copied hf h'
  obtain ⟨hfather, hcopy, -⟩ := uPdClone_spec s.kernel.mem hne
  rw [← hmem] at hfather hcopy
  have hreadOnly : ∀ i < 768, (pde k'.mem (dirFrame k' father) i).access.getLsbD 1 = false := by
    intro i hi
    rw [hfather i (by omega), if_pos hi]
    exact Pde.readOnly_writable _
  have hson := fun i => h'.dirEntry_eq hx i
  have hdad := fun i => h'.dirEntry_eq hf' i
  refine ⟨fun i hi => ?_, fun i hi => ⟨?_, ?_⟩⟩
  · exact (hson i).trans ((hcopy i hi).trans (hdad i).symm)
  · exact (congrArg (fun e => e.access.getLsbD 1) (hdad i)).trans (hreadOnly i hi)
  · refine (congrArg (fun e => e.access.getLsbD 1) (hson i)).trans ?_
    change (pde k'.mem (dirFrame k' x) i).access.getLsbD 1 = false
    rw [hcopy i (by omega)]
    exact hreadOnly i hi

/-- The kernel mapping is the same in all processes of a tree, whatever faults are served in between
that find their page tables at the linear addresses of their frames, and a new process starts with a
copy of its father's directory. -/
theorem kernel_mapping_shared (kEnd kPcb : ℕ) (k : Kernel) (hboot : Booted kEnd kPcb k) (ops : List Op)
    (hops : Along (Sys.exec kEnd) Settled ⟨k, [kPcb]⟩ ops) :
    ∃ s, run (Sys.exec kEnd) ⟨k, [kPcb]⟩ ops = .ok s ∧ KernelMapped s ∧
      ∀ father x k', Allowed s (.create father) → createProc s.kernel father = .ok (x, k') → x ≠ 0 →
        Cloned k' father x := by
  obtain ⟨s, hrun, hinv⟩ := hboot.reached hops
  refine ⟨s, hrun, hinv.kernelMapped, fun father x k' hallowed hcreate hx => ?_⟩
  obtain ⟨hc, hinv'⟩ := hinv.created hallowed hcreate hx
  exact hc.cloned hallowed.1 hinv'

/-! ## Page tables with an entry for themselves -/

/-- The memory in which the second frame that is given out has an entry for itself. -/
def forkBase : Memory := staleWord 0x3efebf8 0x3efe003

def forkOps : List Op := [.create 0xc0300000, .fault 0xc0300100 0x3c00000 6]

section Fork
variable {alloc : Allocator} {ls : Slot → List ℕ} (h : Carved 20 alloc ls 0)
  (hc : Created (bootOn forkBase alloc) [0xc0300000] 0xc0300000 0xc0300100 k)
include h hc

theorem fork_frames : dirFrame k 0xc0300100 = 0x3eff ∧ dirFrame k 0xc0300000 = 1 ∧
    ∃ alloc', reqBytes k.alloc 4096 = .ok (kKVirtualAddr + 0x1000 * 0x3efe, alloc') := by
  obtain ⟨s₁, s₂, h₁, h₂⟩ := h.first_frames
  obtain ⟨hframe, halloc⟩ := Prod.mk.inj (Except.ok.inj (hc.alloc.symm.trans h₁))
  refine ⟨by omega, ?_, s₂, ?_⟩
  · rw [hc.dirs _ (List.mem_singleton_self _), bootOn_dirFrame]
  · rw [halloc]
    exact h₂

theorem fork_words : tableFrame k.mem 0x3eff 15 = 0 ∧
    readWord k.mem (0x1000 * 0x3efe + 4 * (0x3efe % 1024)) = 0x1000 * 0x3efe + 3 := by
  obtain ⟨hson, -⟩ := fork_frames h hc
  have hmem := hc.mem
  rw [hson, bootOn_dirFrame] at hmem
  constructor
  · rw [hmem, (uPdClone_tableFrame _ (by decide) (by decide)).2, bootOn_noTable h _ (by decide) (by decide)]
  · have hsame := (uPdClone_spec (bootOn forkBase alloc).mem (f := 0x3eff) (d := 1) (by decide)).2.2 0x3efe
      (by decide) (by decide)
    rw [hmem, hsame.readWord (by decide), bootOn_readWord _ _ (by decide)]
    exact readWord_writeWord (by decide)

theorem fork_tableMapped (errCode : ℕ) : TableMapped k 0x3eff 15 errCode := by
  obtain ⟨-, -, alloc', hreq⟩ := fork_frames h hc
  obtain ⟨hnone, hword⟩ := fork_words h hc
  refine ⟨fun hne => absurd hnone hne, fun _ t alloc₁ hreq₁ => ?_⟩
  obtain rfl : t = 0x3efe := by
    have := (Prod.mk.inj (Except.ok.inj (hreq₁.symm.trans hreq))).1
    omega
  exact (ownEntry_setPde (by decide) (by decide) (pdeAccess_odd errCode) hword).mapped

end Fork

theorem forkOps_settled {alloc : Allocator} {ls : Slot → List ℕ} (h : Carved 20 alloc ls 0) :
    Along (Sys.exec 0x100000) Settled ⟨bootOn forkBase alloc, [0xc0300000]⟩ forkOps := by
  obtain ⟨hfork, k', -, hexec, hc, -, hready⟩ := bootOn_create h forkBase
  refine ⟨⟨hfork, trivial⟩, fun s' hexec' => ⟨?_, fun _ _ => trivial⟩⟩
  obtain rfl := Except.ok.inj (hexec.symm.trans hexec')
  refine ⟨⟨List.mem_cons_self, by decide, by decide, fun _ => hready⟩, ?_⟩
  have hmapped := fork_tableMapped h hc 6
  rw [← (fork_frames h hc).1] at hmapped
  exact hmapped

theorem kernel_mapping_shared_fork : ∃ alloc s, directMappingInit 0x100000 .zero = .ok alloc ∧
    run (Sys.exec 0x100000) ⟨bootOn forkBase alloc, [0xc0300000]⟩ forkOps = .ok s ∧ KernelMapped s := by
  obtain ⟨alloc, ls, hinit, hcarved⟩ := init_megabyte
  obtain ⟨s, hrun, hmapped, -⟩ := kernel_mapping_shared 0x100000 0xc0300000 (bootOn forkBase alloc)
    (bootOn_booted hcarved forkBase) forkOps (forkOps_settled hcarved)
  exact ⟨alloc, s, hinit, hrun, hmapped⟩

/-! ## A page table at a wrong linear address -/

theorem SysInv.fault_stray (h : SysInv R kPcb s) (kEnd : ℕ) {addr errCode t x : ℕ} {alloc : Allocator}
    (hallowed : Allowed s (.fault p addr errCode))
    (hz : tableFrame s.kernel.mem (dirFrame s.kernel p) (addr / 0x400000) = 0) (ht : t < 0x3f00)
    (hreq : reqBytes s.kernel.alloc 4096 = .ok (kKVirtualAddr + 0x1000 * t, alloc))
    (hx : Paging.walk (setPde s.kernel.mem (0x1000 * dirFrame s.kernel p + 4 * (addr / 0x400000))
      (pdeAccess errCode) (0x1000 * t)) (0x1000 * dirFrame s.kernel p)
        (0x1000 * t + 4 * (addr / 0x1000 % 1024)) = some x) :
    ∃ k', s.exec kEnd (.fault p addr errCode) = .ok ⟨k', s.procs⟩ ∧ k'.heap = s.kernel.heap ∧
      k'.mem = Paging.setPte (setPde s.kernel.mem (0x1000 * dirFrame s.kernel p + 4 * (addr / 0x400000))
        (pdeAccess errCode) (0x1000 * t)) x (pteAccess errCode) (reqPage s.kernel.pageState).1 := by
  obtain ⟨hp, haddr, hpresent, -⟩ := hallowed
  have hexec := exec_made (f := faultIn s.kernel p addr errCode) hpresent kEnd (h.physical_dir hp)
    (h.linear_pdePtr hp haddr errCode) hz ht hreq hx
  refine ⟨_, bind_ok hexec _, rfl, ?_⟩
  rw [putPage_setPte, installTable_mem _ _ _ ht]
  rfl

theorem walk_first_entry {m : Memory} {w : ℕ} (hpde : pde m 1 768 = initialPde 768) (hw : w < 2 ^ 32)
    (hodd : w % 2 = 1) : walk (writeWord m 0xd000 w) 0x1000 0xc0000000 = some (w / 0x1000 * 0x1000) := by
  have hsame : SameFrame m (writeWord m (0x1000 * 0xd + 4 * 0) w) 1 :=
    sameFrame_writeWord m w (by decide) (by decide)
  have hpde' := (hsame.pde (i := 768) (by decide)).trans hpde
  have htable : tableFrame (writeWord m 0xd000 w) 1 768 = 0xd := (congrArg (·.ptAddr.toNat) hpde').trans (by decide)
  have hpresent : (pde (writeWord m 0xd000 w) 1 768).toWord % 2 = 1 :=
    (congrArg (·.toWord % 2) hpde').trans (by decide)
  have hwalk := walk_entries (writeWord m 0xd000 w) 1 0xc0000000
  rw [pteOf, show 0xc0000000 / 0x400000 = 768 from rfl, htable,
    show 0x1000 * 0xd + 4 * (0xc0000000 / 0x1000 % 1024) = 0xd000 from rfl, readWord_writeWord hw,
    if_pos ⟨hpresent, hodd⟩, Nat.mul_one, show 0xc0000000 % 0x1000 = 0 from rfl, Nat.add_zero] at hwalk
  exact hwalk

/-- A word that an earlier owner left in the new page table leads its linear address to the page
table of the direct mapping area, and the fault is served there. -/
theorem kernel_mapping_lost : ∃ alloc s, directMappingInit 0x100000 .zero = .ok alloc ∧
    Booted 0x100000 0xc0300000 (bootOn (staleWord 0x3effbfc 0xd003) alloc) ∧
    Along (Sys.exec 0x100000) Allowed ⟨bootOn (staleWord 0x3effbfc 0xd003) alloc, [0xc0300000]⟩
      [.fault 0xc0300000 0x3c00000 6] ∧
    run (Sys.exec 0x100000) ⟨bootOn (staleWord 0x3effbfc 0xd003) alloc, [0xc0300000]⟩
      [.fault 0xc0300000 0x3c00000 6] = .ok s ∧
    walk s.kernel.mem 0x1000 0xc0000000 = some 0x4000000 ∧ ¬ KernelMapped s := by
  obtain ⟨alloc, ls, hinit, hcarved⟩ := init_megabyte
  obtain ⟨alloc₁, -, hreq, -⟩ := hcarved.first_frames
  have hboot := bootOn_booted hcarved (staleWord 0x3effbfc 0xd003)
  have hnone := bootOn_noTable hcarved (staleWord 0x3effbfc 0xd003) (i := 15) (by decide) (by decide)
  have hword : readWord (bootOn (staleWord 0x3effbfc 0xd003) alloc).mem (0x1000 * 0x3eff + 4 * 0x2ff) = 0xd003 :=
    (bootOn_readWord _ _ (by decide)).trans (readWord_writeWord (by decide))
  have hallowed : Allowed ⟨bootOn (staleWord 0x3effbfc 0xd003) alloc, [0xc0300000]⟩
      (.fault 0xc0300000 0x3c00000 6) :=
    ⟨List.mem_singleton_self _, by decide, by decide, fun _ => hcarved.pageReady.1⟩
  have hstray : walk (setPde (bootOn (staleWord 0x3effbfc 0xd003) alloc).mem (0x1000 * 1 + 4 * 15) (pdeAccess 6)
      (0x1000 * 0x3eff)) (0x1000 * 1) (0x1000 * 0x3eff + 4 * 0) = some 0xd000 := by
    rw [walk_entries, pteOf, show (0x1000 * 0x3eff + 4 * 0) / 0x400000 = 15 from rfl,
      tableFrame_setPde_self _ _ _ _ (by decide), pde_setPde_self, toWord_makePde_mod_two,
      show (0x1000 * 0x3eff + 4 * 0) / 0x1000 % 1024 = 0x2ff from rfl, setPde,
      readWord_writeWord_of_disjoint (by decide), hword]
    decide
  have hd := bootOn_dirFrame (staleWord 0x3effbfc 0xd003) alloc
  rw [← hd] at hnone hstray
  obtain ⟨k', hexec, hheap, hmem⟩ := hboot.sysInv.fault_stray 0x100000 hallowed hnone (by decide) hreq hstray
  rw [hd] at hmem
  have hlost : walk k'.mem 0x1000 0xc0000000 = some 0x4000000 := by
    have hpde : pde (setPde (bootOn (staleWord 0x3effbfc 0xd003) alloc).mem (0x1000 * 1 + 4 * 15) (pdeAccess 6)
        (0x1000 * 0x3eff)) 1 768 = initialPde 768 :=
      (pde_setPde_of_ne _ _ (by decide) (by decide) (by decide)).trans (hboot.dir 768 (by decide))
    have hpage : (reqPage (bootOn (staleWord 0x3effbfc 0xd003) alloc).pageState).1 = 0x4000000 := reqPage_clear
    rw [hmem, Paging.setPte, hpage]
    exact walk_first_entry hpde (by decide) (by decide)
  refine ⟨alloc, _, hinit, hboot, ⟨hallowed, fun _ _ => trivial⟩, (run_cons hexec).trans rfl, hlost, fun hmapped => ?_⟩
  have hdirect := hmapped.walk 0xc0300000 (List.mem_singleton_self _) 0xc0000000 le_rfl (by decide)
  simp only [hheap] at hdirect
  exact absurd (hlost.symm.trans hdirect) (by decide)

end XyOS.Process
