import Mathlib.Logic.Function.Iterate
import XyOS.Process.KernelMapping

/-! The tree of processes: the lists of sons, the fathers, and the kernel's process at the root. -/

namespace XyOS.Process
open Linked Runs DirectMapping PageAllocator Paging

/-- Each member but the last comes before its father, and the last is the root. -/
def Rooted (father : ℕ → ℕ) (root : ℕ) : List ℕ → Prop
  | [] => False
  | x :: xs => xs = [] ∧ x = root ∨ x ≠ root ∧ father x ∈ xs ∧ Rooted father root xs

def fatherOf (s : Sys) (x : ℕ) : ℕ := s.kernel.heap (Pcb.father x)

def sonsOf (kPcb : ℕ) (s : Sys) (p : ℕ) : List ℕ := s.procs.reverse.filter fun x => x ≠ kPcb ∧ fatherOf s x = p

variable {kPcb R kEnd x y : ℕ} {father father' : ℕ → ℕ} {root : ℕ} {xs : List ℕ} {s : Sys} {k : Kernel}

theorem Rooted.congr (h : Rooted father root xs) (heq : ∀ x ∈ xs, father' x = father x) : Rooted father' root xs := by
  induction xs with
  | nil => exact h
  | cons x xs ih =>
    refine h.imp_right fun ⟨hne, hmem, hrest⟩ => ⟨hne, ?_, ih hrest fun y hy => heq y (List.mem_cons_of_mem x hy)⟩
    rwa [heq x List.mem_cons_self]

theorem Rooted.father_mem (h : Rooted father root xs) (hx : x ∈ xs) (hne : x ≠ root) : father x ∈ xs := by
  induction xs with
  | nil => cases hx
  | cons y xs ih =>
    obtain ⟨rfl, rfl⟩ | ⟨-, hmem, hrest⟩ := h
    · exact absurd (List.mem_singleton.mp hx) hne
    · rcases List.mem_cons.mp hx with rfl | hx
      · exact List.mem_cons_of_mem x hmem
      · exact List.mem_cons_of_mem y (ih hrest hx)

theorem Rooted.reaches (h : Rooted father root xs) (hx : x ∈ xs) : ∃ n < xs.length, father^[n] x = root := by
  induction xs generalizing x with
  | nil => cases hx
  | cons y xs ih =>
    obtain ⟨rfl, rfl⟩ | ⟨-, hmem, hrest⟩ := h
    · exact ⟨0, Nat.one_pos, List.mem_singleton.mp hx⟩
    · rcases List.mem_cons.mp hx with rfl | hx
      · obtain ⟨n, hn, hroot⟩ := ih hrest hmem
        exact ⟨n + 1, Nat.succ_lt_succ hn, hroot⟩
      · obtain ⟨n, hn, hroot⟩ := ih hrest hx
        exact ⟨n, Nat.lt_succ_of_lt hn, hroot⟩

section Create
variable {heap : ℕ → ℕ} {freeProcList p a : ℕ} {procs rest : List ℕ} {sons : ℕ → List ℕ}
  (h : ProcLists heap freeProcList procs (x :: rest) sons)
include h

theorem ProcLists.created_father (hp : p ∈ procs) :
    createdHeap heap freeProcList x a p (lastSon sons p) (Pcb.father x) = p := by
  obtain ⟨y, hy, hlast⟩ := lastSon_mem h hp
  have hapart := h.new_apart (List.mem_append_left rest hy)
  rw [createdHeap, Pcb.father, sharePcb_of_ne (by omega) (by omega) (by omega) (by omega) (by omega),
    Function.update_of_ne (by omega), openedHeap, Pcb.father, Function.update_self]

theorem ProcLists.created_father_of_mem (hp : p ∈ procs) (hy : y ∈ procs) :
    createdHeap heap freeProcList x a p (lastSon sons p) (Pcb.father y) = heap (Pcb.father y) :=
  h.created_field hp (List.mem_append_left rest hy) (show 28 < 48 by omega) fun _ => by omega

end Create

structure TreeInv (R kPcb : ℕ) (s : Sys) : Prop where
  sys : SysInv R kPcb s
  lists : ∃ free, ProcLists s.kernel.heap s.kernel.freeProcList s.procs free (sonsOf kPcb s)
  rooted : Rooted (fatherOf s) kPcb s.procs

theorem sonsOf_cons {s' : Sys} {p : ℕ} (hprocs : s'.procs = x :: s.procs) (hx : x ≠ kPcb)
    (hfather : fatherOf s' x = p) (hothers : ∀ y ∈ s.procs, fatherOf s' y = fatherOf s y) (q : ℕ) :
    sonsOf kPcb s' q = sonsOf kPcb s q ++ if p = q then [x] else [] := by
  rw [sonsOf, hprocs, List.reverse_cons, List.filter_append, sonsOf]
  congr 1
  · refine List.filter_congr fun y hy => ?_
    rw [hothers y (List.mem_reverse.mp hy)]
  · rw [List.filter_singleton]
    simp only [hx, hfather, ne_eq, not_false_eq_true, true_and, Bool.cond_decide]

theorem TreeInv.create {p : ℕ} (h : TreeInv R kPcb s) (hallowed : Allowed s (.create p)) :
    ∃ s', s.exec kEnd (.create p) = .ok s' ∧ TreeInv R kPcb s' := by
  obtain ⟨free, hlists⟩ := h.lists
  obtain ⟨hp, hready⟩ := hallowed
  rcases h.sys.create ⟨hp, hready⟩ with ⟨-, hfull⟩ | ⟨x, k', hcreate, hc, hsys⟩
  · exact ⟨s, bind_ok hfull _, h⟩
  have hexec : s.exec kEnd (.create p) = .ok ⟨k', x :: s.procs⟩ := by
    refine (bind_ok hcreate _).trans ?_
    simp only [if_neg hc.ne_zero]
  have hne : x ≠ kPcb := fun he => hc.fresh (he ▸ h.sys.kernel)
  cases free with
  | nil =>
    have hzero := congrArg Prod.fst (Except.ok.inj (hcreate.symm.trans hlists.createProc_full))
    exact absurd hzero hc.ne_zero
  | cons y rest =>
    obtain ⟨f, alloc, hreq, -, -, -⟩ := h.sys.alloc.reqFrame h.sys.size (hready hlists.not_empty)
    obtain ⟨rfl, hk⟩ := Prod.mk.inj (Except.ok.inj (hcreate.symm.trans (hlists.createProc hp hreq)))
    have hheap := congrArg Kernel.heap hk
    have hhead := congrArg Kernel.freeProcList hk
    have hfather : fatherOf ⟨k', x :: s.procs⟩ x = p := (congrFun hheap _).trans (hlists.created_father hp)
    have hothers (y : ℕ) (hy : y ∈ s.procs) : fatherOf ⟨k', x :: s.procs⟩ y = fatherOf s y :=
      (congrFun hheap _).trans (hlists.created_father_of_mem hp hy)
    refine ⟨_, hexec, hsys, ⟨rest, ?_⟩, Or.inr ⟨hne, hfather.symm ▸ hp, h.rooted.congr hothers⟩⟩
    -- no process names the new one as its father yet
    have hnone : sonsOf kPcb s x = [] := by
      refine List.filter_eq_nil_iff.mpr fun y hy => ?_
      rw [decide_eq_true_eq]
      rintro ⟨hyne, hyx⟩
      have hmem := h.rooted.father_mem (List.mem_reverse.mp hy) hyne
      exact hc.fresh (hyx ▸ hmem)
    have hsons : sonsOf kPcb ⟨k', x :: s.procs⟩ =
        Function.update (Function.update (sonsOf kPcb s) x []) p (sonsOf kPcb s p ++ [x]) := by
      funext q
      rw [sonsOf_cons rfl hne hfather hothers]
      by_cases hqp : q = p
      · rw [hqp, Function.update_self, if_pos rfl]
      · rw [Function.update_of_ne hqp, if_neg (Ne.symm hqp), List.append_nil]
        by_cases hqx : q = x
        · rw [hqx, Function.update_self, hnone]
        · rw [Function.update_of_ne hqx]
    rw [hsons, hheap, hhead]
    exact hlists.created hp

theorem TreeInv.exec {op : Op} (h : TreeInv R kPcb s) (hop : Settled s op) :
    ∃ s', s.exec kEnd op = .ok s' ∧ TreeInv R kPcb s' := by
  cases op with
  | create p => exact h.create hop.1
  | fault p addr errCode =>
    obtain ⟨k', hexec, hf⟩ := h.sys.fault kEnd hop
    obtain ⟨hp, haddr, -⟩ := hop.1
    have hfather : fatherOf ⟨k', s.procs⟩ = fatherOf s := funext fun y => congrFun hf.heap (Pcb.father y)
    have hsons : sonsOf kPcb ⟨k', s.procs⟩ = sonsOf kPcb s := by
      funext q
      rw [sonsOf, sonsOf, hfather]
    refine ⟨⟨k', s.procs⟩, bind_ok hexec _, h.sys.faulted hp (by omega) (by omega) hf, ?_, ?_⟩
    · obtain ⟨free, hlists⟩ := h.lists
      refine ⟨free, ?_⟩
      rw [hsons]
      simp only [hf.heap, hf.freeProcList]
      exact hlists
    · rw [hfather]
      exact h.rooted

theorem Booted.treeInv (h : Booted kEnd kPcb k) : TreeInv (reservedSize kEnd) kPcb ⟨k, [kPcb]⟩ := by
  obtain ⟨free, hlists⟩ := h.lists
  have hsons : sonsOf kPcb ⟨k, [kPcb]⟩ = fun _ => [] := by
    funext q
    simp [sonsOf]
  exact ⟨h.sysInv, ⟨free, hsons ▸ hlists⟩, Or.inl ⟨rfl, rfl⟩⟩

/-- After any calls of `CreateProc` and any page faults in between that find their page tables, the
list of sons of each process has the processes that name it as their father, the oldest first, and from
every process the fathers lead up to that of the kernel. -/
theorem process_tree (kEnd kPcb : ℕ) (k : Kernel) (hboot : Booted kEnd kPcb k) (ops : List Op)
    (hops : Along (Sys.exec kEnd) Settled ⟨k, [kPcb]⟩ ops) :
    ∃ s, run (Sys.exec kEnd) ⟨k, [kPcb]⟩ ops = .ok s ∧ s.procs.Nodup ∧
      (∀ p ∈ s.procs, Seg s.kernel.heap (Pcb.left p) ((sonsOf kPcb s p).map Pcb.right) 0) ∧
      (∀ x ∈ s.procs, x ≠ kPcb → fatherOf s x ∈ s.procs ∧ x ∈ sonsOf kPcb s (fatherOf s x)) ∧
      ∀ x ∈ s.procs, ∃ n < s.procs.length, (fatherOf s)^[n] x = kPcb := by
  obtain ⟨s, hrun, hinv⟩ := run_returns (fun _ _ hs hop => TreeInv.exec hs hop) hboot.treeInv hops
  obtain ⟨free, hlists⟩ := hinv.lists
  refine ⟨s, hrun, hinv.sys.spaces.nodup.of_map _, fun p hp => ?_, fun x hx hne => ⟨?_, ?_⟩, fun x hx => ?_⟩
  · exact hlists.lists.seg (.sons p) (Or.inr ⟨p, hp, rfl⟩)
  · exact hinv.rooted.father_mem hx hne
  · exact List.mem_filter.mpr ⟨List.mem_reverse.mpr hx, decide_eq_true ⟨hne, rfl⟩⟩
  · exact hinv.rooted.reaches hx

theorem process_tree_fork : ∃ alloc s, directMappingInit 0x100000 .zero = .ok alloc ∧
    run (Sys.exec 0x100000) ⟨bootOn forkBase alloc, [0xc0300000]⟩ forkOps = .ok s ∧
      ∀ p ∈ s.procs, Seg s.kernel.heap (Pcb.left p) ((sonsOf 0xc0300000 s p).map Pcb.right) 0 := by
  obtain ⟨alloc, ls, hinit, hcarved⟩ := init_megabyte
  obtain ⟨s, hrun, -, hsons, -⟩ := process_tree 0x100000 0xc0300000 (bootOn forkBase alloc)
    (bootOn_booted hcarved forkBase) forkOps (forkOps_settled hcarved)
  exact ⟨alloc, s, hinit, hrun, hsons⟩

end XyOS.Process
