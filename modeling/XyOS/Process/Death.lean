import XyOS.Memory.DirectMappingRelease
import XyOS.Process.Close
import XyOS.Thread.Directories

/-! How long a dead process stays dead. `CloseProc` leaves the `Pcb` in the state `DIE`
for the father to find, while the thread that ran `CloseProc` is still the current one
and takes part in the switches. -/

namespace XyOS.Scheduling
open Linked Runs Process DirectMapping Paging

/-- The scheduler with the live `Pcb`s and with those of them that died and that no
father returned to `free_proc_list` yet. -/
structure Life where
  sched : Scheduler
  procs : List ℕ
  dead : List ℕ

inductive LifeOp
  | create (father : ℕ)
  | close
  | switch

def inUse (k : Kernel) (ps : List ℕ) : List ℕ :=
  let nodes := listNodes k.heap k.freeProcList
  ps.filter fun p => Pcb.node p ∉ nodes

def Life.exec (kEnd : ℕ) (s : Life) : LifeOp → Except Fault Life
  | .create father => do
    let (newPcb, k) ← createProc s.sched.toKernel father
    .ok ⟨s.sched.withKernel k, if newPcb = 0 then s.procs else newPcb :: s.procs, s.dead⟩
  | .close => do
    let k ← closeProc kEnd s.sched.toKernel
    .ok ⟨s.sched.withKernel k, inUse k s.procs, inUse k (curProc s.sched.toKernel :: s.dead)⟩
  | .switch => .ok ⟨threadSwitch s.sched, s.procs, s.dead⟩

def DieIsFinal (s : Life) : Prop := ∀ p ∈ s.dead, s.sched.heap (Pcb.state p) = ProcState.die.value

/-- `CloseProc` has no thread to destruct: no son that is dead, and no thread of the
process but the current one. -/
structure DestructsNone (k : Kernel) : Prop where
  sons : k.heap (Pcb.left (curProc k)) = 0 ∨
    k.heap (Pcb.state (sub32 (k.heap (Pcb.left (curProc k))) (Pcb.right 0))) ≠ ProcState.die.value
  threads : k.heap (Pcb.threadList (curProc k)) = Pcb.threadList (curProc k) ∨
    k.heap (Pcb.threadList (curProc k)) = Thread.sibling (getCurThread k) ∧
      k.heap (Thread.sibling (getCurThread k)) = Pcb.threadList (curProc k)

def nextProc (s : Scheduler) : ℕ :=
  s.heap (Thread.pcb (threadOf (queueGetHead s.heap s.waitThreadQueue)))

/-- A live process is the father, `CloseProc` destructs no thread, and no switch leaves
a dead process for another one or enters a dead process. -/
def SparesDead (s : Life) : LifeOp → Prop
  | .create father => father ∈ s.procs
  | .close => DestructsNone s.sched.toKernel
  | .switch => ChangesProc s.sched →
      s.sched.heap (Pcb.state (curProc s.sched.toKernel)) ≠ ProcState.die.value ∧
        s.sched.heap (Pcb.state (nextProc s.sched)) ≠ ProcState.die.value

/-! ## The memory that `CloseProc` writes -/

variable {kEnd : ℕ} {k k' : Kernel}

structure SameHeap (k k' : Kernel) : Prop where
  heap : k'.heap = k.heap
  freeProcList : k'.freeProcList = k.freeProcList
  tss : k'.tssEsp0 = k.tssEsp0

theorem SameHeap.refl (k : Kernel) : SameHeap k k := ⟨rfl, rfl, rfl⟩

theorem SameHeap.trans {k'' : Kernel} (h : SameHeap k k') (h' : SameHeap k' k'') : SameHeap k k'' :=
  ⟨h'.heap.trans h.heap, h'.freeProcList.trans h.freeProcList, h'.tss.trans h.tss⟩

theorem setCr3_sameHeap (k : Kernel) (physAddr : ℕ) : SameHeap k (k.setCr3 physAddr) := ⟨rfl, rfl, rfl⟩

theorem relPages_sameHeap (pt n : ℕ) (k : Kernel) : SameHeap k (relPages pt n k) := by
  induction n with
  | zero => exact .refl k
  | succ n ih =>
    rw [relPages]
    split
    · exact ⟨ih.heap, ih.freeProcList, ih.tss⟩
    · exact ih

theorem relBytes_sameHeap {a : ℕ} (h : k.relBytes kEnd a = .ok k') : SameHeap k k' := by
  obtain ⟨alloc, -, h⟩ := of_bind_ok h
  obtain rfl := Except.ok.inj h
  exact ⟨rfl, rfl, rfl⟩

theorem releaseTable_sameHeap {entry : ℕ} (h : releaseTable kEnd entry k = .ok k') : SameHeap k k' := by
  rw [releaseTable] at h
  split at h
  · exact (relPages_sameHeap _ _ k).trans (relBytes_sameHeap h)
  · obtain rfl := Except.ok.inj h
    exact .refl k

theorem releaseTables_sameHeap {pageDir n : ℕ} (h : releaseTables kEnd pageDir n k = .ok k') :
    SameHeap k k' := by
  induction n generalizing k with
  | zero =>
    obtain rfl := Except.ok.inj h
    exact .refl k
  | succ n ih =>
    obtain ⟨k₁, hone, h⟩ := of_bind_ok h
    exact (releaseTable_sameHeap hone).trans (ih h)

theorem destructAllSons_none {pcb : ℕ} (hsons : k.heap (Pcb.left pcb) = 0) :
    destructAllSons kEnd k pcb = .ok k := by
  rw [destructAllSons, if_pos hsons]

theorem destructAllSons_blocked {pcb : ℕ} (hsons : k.heap (Pcb.left pcb) ≠ 0)
    (hson : k.heap (Pcb.state (sub32 (k.heap (Pcb.left pcb)) (Pcb.right 0))) ≠ ProcState.die.value) :
    destructAllSons kEnd k pcb = .error .blocked := by
  obtain ⟨fuel, hfuel⟩ : ∃ f, loopFuel = f + 1 := ⟨loopFuel - 1, rfl⟩
  have hloop : destructSons kEnd loopFuel k (k.heap (Pcb.left pcb)) = .error .blocked := by
    rw [hfuel, destructSons, if_neg hsons]
    dsimp only
    rw [if_pos hson]
  rw [destructAllSons, if_neg hsons, hloop]
  rfl

theorem destructThreads_none {pcb cur : ℕ}
    (hthreads : k.heap (Pcb.threadList pcb) = Pcb.threadList pcb ∨
      k.heap (Pcb.threadList pcb) = Thread.sibling cur ∧ k.heap (Thread.sibling cur) = Pcb.threadList pcb) :
    destructThreads kEnd pcb cur loopFuel k (Pcb.threadList pcb) = .ok k := by
  obtain ⟨fuel, hfuel⟩ : ∃ f, loopFuel = f + 1 + 1 := ⟨loopFuel - 2, rfl⟩
  rw [hfuel, destructThreads]
  rcases hthreads with hempty | ⟨hcur, hend⟩
  · rw [if_pos hempty]
  · split
    · rfl
    · rw [if_neg (not_not.mpr hcur), hcur, destructThreads, if_pos hend]

theorem closeProc_heap (hnone : DestructsNone k) (h : closeProc kEnd k = .ok k') :
    k'.heap = Function.update k.heap (Pcb.state (curProc k)) ProcState.die.value ∧
      k'.freeProcList = k.freeProcList ∧ k'.tssEsp0 = k.tssEsp0 := by
  obtain ⟨k₁, hsons, h⟩ := of_bind_ok h
  obtain ⟨k₂, hthreads, h⟩ := of_bind_ok h
  obtain ⟨k₃, htables, h⟩ := of_bind_ok h
  obtain ⟨k₄, hdir, h⟩ := of_bind_ok h
  obtain rfl := Except.ok.inj h
  have hk₁ : k = k₁ := by
    by_cases hleft : k.heap (Pcb.left (curProc k)) = 0
    · exact Except.ok.inj ((destructAllSons_none hleft).symm.trans hsons)
    · have hblocked : destructAllSons kEnd k (curProc k) = .error .blocked :=
        destructAllSons_blocked hleft (hnone.sons.resolve_left hleft)
      exact nomatch hblocked.symm.trans hsons
  subst hk₁
  have hcr3 : SameHeap k (switchPd k kKPdAddr) := setCr3_sameHeap k _
  generalize switchPd k kKPdAddr = k₀ at hcr3 hthreads
  have hk₂ : k₀ = k₂ := by
    have hnone₀ := hnone.threads
    rw [← hcr3.heap] at hnone₀
    exact Except.ok.inj ((destructThreads_none hnone₀).symm.trans hthreads)
  subst hk₂
  have hsame := (hcr3.trans (releaseTables_sameHeap htables)).trans (relBytes_sameHeap hdir)
  exact ⟨congrArg (Function.update · _ _) hsame.heap, hsame.freeProcList, hsame.tss⟩

/-! ## What every step keeps -/

/-- The records of the scheduler and the lists of `Pcb`s are separate, the threads belong
to live processes, and what is dead is alive in neither sense. -/
structure LifeInv (T P : Set ℕ) (s : Life) : Prop where
  view : ∃ cur wait, View s.sched T P cur wait ∧ (cur :: wait).Nodup
  lists : ∃ free sons, ProcLists s.sched.heap s.sched.freeProcList s.procs free sons ∧
    ∀ p, p ∈ P ↔ p ∈ s.procs ++ free
  head : ∀ a : Piece, a.Scheduled T P → s.sched.freeProcList < a.base s.sched ∨
    a.base s.sched + a.size ≤ s.sched.freeProcList
  pcb : ∀ t ∈ T, s.sched.heap (Thread.pcb t) ∈ s.procs
  dead : ∀ p ∈ s.dead, p ∈ s.procs ∧ s.sched.heap (Pcb.state p) = ProcState.die.value

variable {T P : Set ℕ} {s s' : Life} {cur x father : ℕ} {wait : List ℕ}

theorem LifeInv.undisturbed (h : LifeInv T P s) (htss : k'.tssEsp0 = s.sched.tssEsp0)
    (hheap : ∀ z, z ≠ s.sched.freeProcList → (∀ y ∈ P, z < y ∨ y + 48 ≤ z) →
      k'.heap z = s.sched.heap z) : Undisturbed T s.sched (s.sched.withKernel k') := by
  obtain ⟨cur, wait, hview, -⟩ := h.view
  refine ⟨rfl, htss, rfl, fun a ha o ho => hheap _ ?_ fun y hy => ?_⟩
  · have ha' : a.Scheduled T P := by
      cases a with
      | pcb p => exact ha.elim
      | _ => exact ha
    have := h.head a ha'
    omega
  · have hsep : a.base s.sched + a.size ≤ y ∨ y + 48 ≤ a.base s.sched := by
      cases a with
      | pcb p => exact ha.elim
      | _ => exact hview.apart _ (.pcb y) ha hy nofun
    omega

theorem LifeInv.withKernel (h : LifeInv T P s) {procs dead free : List ℕ} {sons : ℕ → List ℕ}
    (htss : k'.tssEsp0 = s.sched.tssEsp0) (hfree : k'.freeProcList = s.sched.freeProcList)
    (hheap : ∀ z, z ≠ s.sched.freeProcList → (∀ y ∈ P, z < y ∨ y + 48 ≤ z) → k'.heap z = s.sched.heap z)
    (hlists : ProcLists k'.heap k'.freeProcList procs free sons) (hP : ∀ p, p ∈ P ↔ p ∈ procs ++ free)
    (hprocs : ∀ p ∈ s.procs, p ∈ procs)
    (hdead : ∀ p ∈ dead, p ∈ procs ∧ k'.heap (Pcb.state p) = ProcState.die.value) :
    LifeInv T P ⟨s.sched.withKernel k', procs, dead⟩ := by
  have hu := h.undisturbed htss hheap
  obtain ⟨cur, wait, hview, hnd⟩ := h.view
  refine ⟨⟨cur, wait, hview.undisturbed hu, hnd⟩, ⟨free, sons, hlists, hP⟩, fun a ha => ?_, fun t ht => ?_,
    hdead⟩
  · rw [hu.same.base_eq ha, Scheduler.withKernel_toKernel, hfree]
    exact h.head a ha
  · rw [hu.same.pcb t ht]
    exact hprocs _ (h.pcb t ht)

theorem LifeInv.create (h : LifeInv T P s) (hf : father ∈ s.procs)
    (hexec : s.exec kEnd (.create father) = .ok s') : LifeInv T P s' := by
  obtain ⟨⟨newPcb, k⟩, hcreate, hs⟩ := of_bind_ok hexec
  obtain rfl := Except.ok.inj hs
  obtain ⟨free, sons, hlists, hP⟩ := h.lists
  cases free with
  | nil =>
    obtain ⟨rfl, rfl⟩ := Prod.mk.inj (Except.ok.inj (hcreate.symm.trans hlists.createProc_full))
    exact h
  | cons x rest =>
    obtain ⟨a, alloc, hreq⟩ : ∃ a alloc, reqBytes s.sched.alloc kPdSize = .ok (a, alloc) := by
      rw [createProc, hlists.not_empty, if_neg Bool.false_ne_true] at hcreate
      obtain ⟨⟨a, alloc⟩, hreq, -⟩ := of_bind_ok hcreate
      exact ⟨a, alloc, hreq⟩
    obtain ⟨rfl, rfl⟩ := Prod.mk.inj (Except.ok.inj (hcreate.symm.trans (hlists.createProc hf hreq)))
    have hx : newPcb ≠ 0 := (hlists.bound newPcb (by simp)).1.ne'
    simp only [if_neg hx]
    refine h.withKernel rfl rfl (fun z hz hout => ?_) (hlists.created hf) (fun p => ?_)
      (fun p hp => List.mem_cons_of_mem _ hp) fun p hp => ?_
    · refine hlists.created_other hf hz fun y hy => hout y ((hP y).mpr ?_)
      rcases List.mem_cons.mp hy with rfl | hy
      · simp
      · simp [hy]
    · rw [hP p]
      exact List.perm_middle.mem_iff
    · obtain ⟨hmem, hdie⟩ := h.dead p hp
      refine ⟨List.mem_cons_of_mem _ hmem, ?_⟩
      rw [← hdie]
      exact hlists.created_field hf (List.mem_append_left rest hmem) (by decide) fun _ => by decide

theorem mem_inUse {ps : List ℕ} {p : ℕ} (hp : p ∈ inUse k ps) : p ∈ ps := (List.mem_filter.mp hp).1

theorem inUse_eq_self {procs free : List ℕ} {sons : ℕ → List ℕ}
    (h : ProcLists k.heap k.freeProcList procs free sons) : inUse k procs = procs := by
  have hseg : Seg k.heap k.freeProcList (free.map Pcb.node) k.freeProcList := h.lists.seg .free (Or.inl rfl)
  have hnd : (k.freeProcList :: free.map Pcb.node).Nodup := h.lists.nodup .free (Or.inl rfl)
  have hlen : (free.map Pcb.node).length ≤ loopFuel := by
    have hsub : ∀ y ∈ free.map Pcb.node, y < 2 ^ 32 := by
      intro y hy
      obtain ⟨x, hx, rfl⟩ := List.mem_map.mp hy
      have hb : x + 48 ≤ 2 ^ 32 := (h.bound x (List.mem_append_right procs hx)).2
      simp only [Pcb.node]
      omega
    have hcard := Finset.card_le_card (s := (free.map Pcb.node).toFinset) (t := Finset.range (2 ^ 32))
      fun y hy => Finset.mem_range.mpr (hsub y (List.mem_toFinset.mp hy))
    rwa [List.toFinset_card_of_nodup (List.nodup_cons.mp hnd).2, Finset.card_range] at hcard
  have hnodes : listNodes k.heap k.freeProcList = free.map Pcb.node :=
    collect_seg hseg (List.nodup_cons.mp hnd).1 hlen
  rw [inUse, hnodes]
  refine List.filter_eq_self.mpr fun p hp => decide_eq_true fun hmem => ?_
  obtain ⟨x, hx, he⟩ := List.mem_map.mp hmem
  obtain rfl : x = p := Nat.add_right_cancel he
  have hpair := h.apart
  rw [List.pairwise_append] at hpair
  have : x + 48 ≤ x ∨ x + 48 ≤ x := hpair.2.2 x hp x hx
  omega

theorem LifeInv.curProc_mem (h : LifeInv T P s) : curProc s.sched.toKernel ∈ s.procs := by
  obtain ⟨cur, wait, hview, -⟩ := h.view
  rw [curProc, hview.getCurThread_eq]
  exact h.pcb cur (hview.mem cur List.mem_cons_self)

theorem closed_lists {procs free : List ℕ} {sons : ℕ → List ℕ}
    (h : ProcLists k.heap k.freeProcList procs free sons) (hcur : curProc k ∈ procs)
    (hnone : DestructsNone k) (hclose : closeProc kEnd k = .ok k') :
    ProcLists k'.heap k'.freeProcList procs free sons := by
  obtain ⟨hheap, hfree, -⟩ := closeProc_heap hnone hclose
  generalize curProc k = q at hheap hcur
  have hother : ∀ z, z ≠ Pcb.state q → k'.heap z = k.heap z := fun z hz => by
    rw [hheap, Function.update_of_ne hz]
  rw [hfree]
  refine h.congr (hother _ ?_) fun y hy o ho => hother _ ?_
  · have hhead : k.freeProcList < q ∨ q + 48 ≤ k.freeProcList := h.head q (List.mem_append_left free hcur)
    simp only [Pcb.state]
    omega
  · by_cases hyq : y = q
    · simp only [Pcb.state]
      omega
    · have := h.apart_of_ne hy (List.mem_append_left free hcur) hyq
      simp only [Pcb.state]
      omega

theorem LifeInv.close (h : LifeInv T P s) (hnone : DestructsNone s.sched.toKernel)
    (hclose : closeProc kEnd s.sched.toKernel = .ok k) :
    LifeInv T P ⟨s.sched.withKernel k, inUse k s.procs, inUse k (curProc s.sched.toKernel :: s.dead)⟩ ∧
      curProc s.sched.toKernel ∈ inUse k (curProc s.sched.toKernel :: s.dead) := by
  obtain ⟨hheap, hfree, htss⟩ := closeProc_heap hnone hclose
  obtain ⟨free, sons, hlists, hP⟩ := h.lists
  have hcur := h.curProc_mem
  have hlists' := closed_lists hlists hcur hnone hclose
  have hcurP : curProc s.sched.toKernel ∈ P := (hP _).mpr (List.mem_append_left free hcur)
  generalize curProc s.sched.toKernel = q at hheap hcur hcurP
  have hother : ∀ z, z ≠ Pcb.state q → k.heap z = s.sched.heap z := fun z hz => by
    rw [hheap, Function.update_of_ne hz]
  have huse : inUse k s.procs = s.procs := inUse_eq_self hlists'
  have hkeep : q ∈ inUse k (q :: s.dead) := by
    have hmem : q ∈ inUse k s.procs := by
      rw [huse]
      exact hcur
    exact List.mem_filter.mpr ⟨List.mem_cons_self, (List.mem_filter.mp hmem).2⟩
  refine ⟨?_, hkeep⟩
  rw [huse]
  refine h.withKernel htss hfree (fun z _ hz => hother z ?_) hlists' hP (fun p hp => hp) fun p hp => ?_
  · have := hz q hcurP
    simp only [Pcb.state]
    omega
  · by_cases hpq : p = q
    · rw [hpq, hheap]
      exact ⟨hcur, Function.update_self ..⟩
    · obtain ⟨hmem, hdie⟩ := h.dead p ((List.mem_cons.mp (mem_inUse hp)).resolve_left hpq)
      exact ⟨hmem, (hother _ fun he => hpq (Nat.add_right_cancel he)).trans hdie⟩

structure SameMemory (k k' : Kernel) : Prop where
  mem : k'.mem = k.mem
  alloc : k'.alloc = k.alloc
  freeProcList : k'.freeProcList = k.freeProcList

theorem setCr3_sameMemory (k : Kernel) (physAddr : ℕ) : SameMemory k (k.setCr3 physAddr) := ⟨rfl, rfl, rfl⟩

theorem switchProc_sameMemory (s : Scheduler) (curPcb newPcb : ℕ) :
    SameMemory s.toKernel (switchProc s curPcb newPcb).toKernel := by
  have hcr3 : SameMemory s.toKernel (switchPd s.toKernel
      (directMappingPhysAddr (s.heap (Pcb.pageDir newPcb)))) := setCr3_sameMemory _ _
  constructor <;> simp only [switchProc, Scheduler.store, Scheduler.setHeap_mem, Scheduler.setHeap_alloc,
    Scheduler.setHeap_freeProcList, Scheduler.withKernel_toKernel, hcr3.mem, hcr3.alloc, hcr3.freeProcList]

theorem enterProc_sameMemory (s : Scheduler) (curPcb newPcb : ℕ) :
    SameMemory s.toKernel (enterProc s curPcb newPcb).toKernel := by
  rw [enterProc]
  split
  · exact switchProc_sameMemory s curPcb newPcb
  · exact ⟨rfl, rfl, rfl⟩

theorem threadSwitch_sameMemory (s : Scheduler) : SameMemory s.toKernel (threadSwitch s).toKernel := by
  have henter := fun s p q => enterProc_sameMemory s p q
  rw [threadSwitch]
  split
  · constructor <;> simp only [Scheduler.setHeap_mem, Scheduler.setHeap_alloc, Scheduler.setHeap_freeProcList]
  · constructor <;> simp only [switchTo, switchReg, Scheduler.store, Scheduler.setEsp_toKernel,
      Scheduler.setHeap_mem, Scheduler.setHeap_alloc, Scheduler.setHeap_freeProcList, Scheduler.setTssEsp0_mem,
      Scheduler.setTssEsp0_alloc, Scheduler.setTssEsp0_freeProcList, (henter _ _ _).mem, (henter _ _ _).alloc,
      (henter _ _ _).freeProcList]

theorem LifeInv.keeps_dead (h : LifeInv T P s) (hspare : SparesDead s .switch) {p : ℕ} (hp : p ∈ s.dead) :
    (threadSwitch s.sched).heap (Pcb.state p) = ProcState.die.value := by
  obtain ⟨hmem, hdie⟩ := h.dead p hp
  obtain ⟨free, sons, -, hP⟩ := h.lists
  obtain ⟨cur, wait, hview, hnd⟩ := h.view
  cases wait with
  | nil =>
    rw [hview.switch_nil]
    exact hdie
  | cons x wait =>
    have hnext : nextProc s.sched = s.sched.heap (Thread.pcb x) := by
      rw [nextProc, queueGetHead_cons hview.queue, hview.threadOf_node (hview.mem x (by simp))]
    rw [← hdie]
    refine hview.switch_state (List.nodup_cons.mp hnd).1 ((hP p).mpr (List.mem_append_left free hmem)) ?_
    intro hne
    obtain ⟨hcur, hx⟩ := hspare (hview.changesProc_iff.mpr hne)
    rw [curProc, hview.getCurThread_eq] at hcur
    rw [hnext] at hx
    exact ⟨fun he => hcur (he ▸ hdie), fun he => hx (he ▸ hdie)⟩

theorem LifeInv.switch (h : LifeInv T P s) (hspare : SparesDead s .switch) :
    LifeInv T P ⟨threadSwitch s.sched, s.procs, s.dead⟩ := by
  obtain ⟨cur, wait, hview, hnd⟩ := h.view
  obtain ⟨cur', wait', hrot, hview', hkept⟩ := hview.switch hnd
  have hsame := hkept.same hview.toRecords
  have hfree := (threadSwitch_sameMemory s.sched).freeProcList
  obtain ⟨free, sons, hlists, hP⟩ := h.lists
  refine ⟨⟨cur', wait', hview', hrot ▸ List.nodup_rotate.mpr hnd⟩, ⟨free, sons, ?_, hP⟩, fun a ha => ?_,
    fun t ht => ?_, fun p hp => ⟨(h.dead p hp).1, h.keeps_dead hspare hp⟩⟩
  · dsimp only
    rw [hfree]
    refine hlists.congr (hkept.heap _ ?_) fun y hy o ho => hkept.heap _ ?_
    · rintro ⟨a, ha, o, ho, he⟩
      have hhead := h.head a ha
      have hlt := ho.lt
      omega
    · exact hview.fixed_pcb ((hP y).mpr hy) (by omega) (by omega)
  · rw [hsame.base_eq ha, hfree]
    exact h.head a ha
  · rw [hsame.pcb t ht]
    exact h.pcb t ht

theorem LifeInv.exec {op : LifeOp} (h : LifeInv T P s) (hspare : SparesDead s op)
    (hexec : s.exec kEnd op = .ok s') : LifeInv T P s' := by
  cases op with
  | create father => exact h.create hspare hexec
  | close =>
    obtain ⟨k, hclose, hs⟩ := of_bind_ok hexec
    obtain rfl := Except.ok.inj hs
    exact (h.close hspare hclose).1
  | switch =>
    obtain rfl := Except.ok.inj hexec
    exact h.switch hspare

/-- As long as no switch takes a dead process for a waiting one, and `CloseProc` has no
thread to destruct, what has died stays dead. -/
theorem die_is_final (kEnd : ℕ) (T P : Set ℕ) (s : Life) (hinv : LifeInv T P s) (ops : List LifeOp)
    (hops : Along (Life.exec kEnd) SparesDead s ops) (s' : Life)
    (hrun : run (Life.exec kEnd) s ops = .ok s') : DieIsFinal s' := by
  have hinv' : LifeInv T P s' := run_preserves (fun _ _ _ h hspare hexec => h.exec hspare hexec) hinv hops hrun
  exact fun p hp => (hinv'.dead p hp).2

/-! ## A death that is missed -/

theorem View.switch_waits {s : Scheduler} (h : View s T P cur (x :: wait)) (hcur : cur ∉ x :: wait)
    (hc : ChangesProc s) : (threadSwitch s).heap (Pcb.state (s.heap (Thread.pcb cur))) =
      ProcState.wait.value := by
  have hcurT : cur ∈ T := h.mem cur List.mem_cons_self
  have hesp : Pcb.state (s.heap (Thread.pcb cur)) ≠ Thread.esp cur :=
    h.apart.word_ne (a := Piece.pcb _) (b := Piece.thread cur) (h.pcb cur hcurT) hcurT nofun (show 8 < 48 by decide)
      (show 12 < 24 by decide)
  obtain ⟨esp0, hswitch⟩ := h.threadSwitch_ne hcur (h.changesProc_iff.mp hc)
  rw [hswitch, switchReg_of_ne hesp, Scheduler.setTssEsp0_heap, switchProc, Scheduler.store_self]

theorem LifeInv.close_switch (h : LifeInv T P s) (hview : View s.sched T P cur (x :: wait))
    (hcur : cur ∉ x :: wait) (hc : ChangesProc s.sched) (hnone : DestructsNone s.sched.toKernel)
    (hclose : closeProc kEnd s.sched.toKernel = .ok k) :
    (threadSwitch (s.sched.withKernel k)).heap (Pcb.state (curProc s.sched.toKernel)) =
      ProcState.wait.value := by
  obtain ⟨hheap, -, htss⟩ := closeProc_heap hnone hclose
  have hpcb : curProc s.sched.toKernel = s.sched.heap (Thread.pcb cur) := by
    rw [curProc, hview.getCurThread_eq]
  have hmem : s.sched.heap (Thread.pcb cur) ∈ P := hview.pcb cur (hview.mem cur List.mem_cons_self)
  rw [hpcb] at hheap ⊢
  have hother : ∀ z, z ≠ Pcb.state (s.sched.heap (Thread.pcb cur)) → k.heap z = s.sched.heap z :=
    fun z hz => by rw [hheap, Function.update_of_ne hz]
  have hu : Undisturbed T s.sched (s.sched.withKernel k) := by
    refine h.undisturbed htss fun z _ hz => hother z ?_
    have := hz _ hmem
    simp only [Pcb.state]
    omega
  have hpid : ∀ p ∈ P, k.heap (Pcb.pid p) = s.sched.heap (Pcb.pid p) := fun p hp =>
    hother _ fun he => absurd (hview.apart.word_inj (a := Piece.pcb p) (b := Piece.pcb _) (o := 0) hp hmem
      (show 0 < 48 by decide) (show 8 < 48 by decide) he).2 (by decide)
  have hsame := hu.same
  have hview' := hview.undisturbed hu
  have hxP := hview.pcb x (hview.mem x (by simp))
  have hc' : ChangesProc (s.sched.withKernel k) := by
    rw [hview'.changesProc_iff, hsame.pcb cur (hview.mem cur (by simp)), hsame.pcb x (hview.mem x (by simp)),
      Scheduler.withKernel_toKernel, hpid _ hmem, hpid _ hxP]
    exact hview.changesProc_iff.mp hc
  have hwaits := View.switch_waits hview' hcur hc'
  rwa [hsame.pcb cur (hview.mem cur (by simp))] at hwaits

def pairLifeHeap (z : ℕ) : ℕ :=
  if z = 0xc0300200 ∨ z = 0xc030002c ∨ z = 0xc030012c then z
  else if z = 0xc0300008 then ProcState.run.value
  else pairHeap 0xc0300100 z

def pairLife (alloc : Allocator) : Life where
  sched := { pairScheduler 0xc0300100 with heap := pairLifeHeap, alloc := alloc }
  procs := [0xc0300000, 0xc0300100]
  dead := []

theorem pairLifeHeap_of_ge {z : ℕ} (hz : 0xc0400000 ≤ z) : pairLifeHeap z = pairHeap 0xc0300100 z := by
  rw [pairLifeHeap, if_neg (by omega), if_neg (by omega)]

theorem pairLife_undisturbed (alloc : Allocator) :
    Undisturbed pairThreads (pairScheduler 0xc0300100) (pairLife alloc).sched := by
  refine ⟨rfl, rfl, rfl, fun a ha o _ => pairLifeHeap_of_ge ?_⟩
  have hbase : 0xc0400000 ≤ a.base (pairScheduler 0xc0300100) := by
    cases a with
    | freeHead => exact ha.elim
    | queue => simp [Piece.base, pairScheduler]
    | waitHead => simp [Piece.base, pairScheduler, pairHeap]
    | blockHead => exact ha.elim
    | thread t => rcases ha with rfl | rfl <;> simp [Piece.base]
    | pcb p => exact ha.elim
    | top t =>
      rcases ha with rfl | rfl <;>
        simp [Piece.base, stackTop, Thread.stackAddr, pairScheduler, pairHeap, sub32]
  omega

theorem pairLife_view (alloc : Allocator) :
    View (pairLife alloc).sched pairThreads pairProcs 0xc0400100 [0xc0400200] :=
  (pairScheduler_view (Or.inr rfl)).undisturbed (pairLife_undisturbed alloc)

theorem pairLifeHeap_lists :
    ProcLists pairLifeHeap 0xc0300200 [0xc0300000, 0xc0300100] [] fun _ => [] := by
  refine ⟨⟨?_, ?_, ?_⟩, ?_, ?_, ?_, ?_, ?_⟩
  · rintro i (rfl | ⟨p, hp, rfl⟩)
    · exact (by decide : pairLifeHeap 0xc0300200 = 0xc0300200)
    · simp only [List.mem_cons, List.not_mem_nil, or_false] at hp
      rcases hp with rfl | rfl
      · exact (by decide : pairLifeHeap 0xc0300020 = 0)
      · exact (by decide : pairLifeHeap 0xc0300120 = 0)
  · rintro i (rfl | ⟨p, hp, rfl⟩) <;> exact List.nodup_singleton _
  · rintro i (rfl | ⟨p, hp, rfl⟩) j (rfl | ⟨q, hq, rfl⟩) z hi hj <;>
      simp only [procHead, procNodes, List.map_nil, List.mem_cons, List.not_mem_nil, or_false, Pcb.left] at *
    · omega
    · omega
    · rw [ProcList.sons.injEq]
      omega
  · simp [Apart, pcbBytes]
  · simp [pcbBytes]
  · simp [pcbBytes]
  · simp
  · simp

theorem pairLife_inv (alloc : Allocator) : LifeInv pairThreads pairProcs (pairLife alloc) := by
  have hview := pairLife_view alloc
  refine ⟨⟨_, _, hview, by decide⟩, ⟨[], _, pairLifeHeap_lists, fun p => ?_⟩, fun a ha => ?_, ?_, ?_⟩
  · simp [pairProcs, pairLife]
  · have hbase := (pairLife_undisturbed alloc).same.base_eq ha
    rw [hbase, show (pairLife alloc).sched.freeProcList = 0xc0300200 from rfl]
    cases a with
    | freeHead => exact ha.elim
    | queue => simp [Piece.base, Piece.size, pairScheduler, queueBytes]
    | waitHead => simp [Piece.base, Piece.size, pairScheduler, pairHeap]
    | blockHead => exact ha.elim
    | thread t => rcases ha with rfl | rfl <;> simp [Piece.base, Piece.size, threadBytes]
    | pcb p => rcases ha with rfl | rfl <;> simp [Piece.base, Piece.size, pcbBytes]
    | top t =>
      rcases ha with rfl | rfl <;>
        simp [Piece.base, Piece.size, stackTop, Thread.stackAddr, pairScheduler, pairHeap, sub32]
  · rintro t (rfl | rfl)
    · exact (by decide : pairLifeHeap 0xc0400108 ∈ [0xc0300000, 0xc0300100])
    · exact (by decide : pairLifeHeap 0xc0400208 ∈ [0xc0300000, 0xc0300100])
  · exact fun p hp => absurd hp List.not_mem_nil

theorem releaseTables_absent {pageDir n : ℕ} (hdir : ∀ entry, (getPde k.mem entry).ptAddr = 0) :
    releaseTables kEnd pageDir n k = .ok k := by
  induction n with
  | zero => rfl
  | succ n ih =>
    have hone (entry : ℕ) : releaseTable kEnd entry k = .ok k := if_neg (not_not.mpr (hdir entry))
    rw [releaseTables, bind_ok (hone _)]
    exact ih

theorem closeProc_returns (alloc : Allocator) (hsons : k.heap (Pcb.left (curProc k)) = 0)
    (hthreads : k.heap (Pcb.threadList (curProc k)) = Pcb.threadList (curProc k))
    (hdir : ∀ entry, (getPde k.mem entry).ptAddr = 0)
    (hrel : DirectMapping.relBytes kEnd k.alloc (k.heap (Pcb.pageDir (curProc k))) = .ok alloc) :
    ∃ k', closeProc kEnd k = .ok k' := by
  have hcr3 : SameHeap k (switchPd k kKPdAddr) := setCr3_sameHeap k _
  have hmem : SameMemory k (switchPd k kKPdAddr) := setCr3_sameMemory k _
  rw [closeProc, ← curProc, bind_ok (destructAllSons_none hsons)]
  dsimp only
  generalize switchPd k kKPdAddr = k₀ at hcr3 hmem
  rw [← hcr3.heap] at hthreads
  rw [← hmem.mem] at hdir
  rw [← hcr3.heap, ← hmem.alloc] at hrel
  rw [bind_ok (destructThreads_none (Or.inl hthreads)), bind_ok (releaseTables_absent hdir), Kernel.relBytes,
    bind_ok hrel]
  exact ⟨_, rfl⟩

theorem pairLife_switched (alloc : Allocator) :
    View (threadSwitch (pairLife alloc).sched) pairThreads pairProcs 0xc0400200 [0xc0400100] ∧
      (∀ p ∈ pairProcs, ∀ o < 48, o ≠ 8 →
        (threadSwitch (pairLife alloc).sched).heap (p + o) = pairLifeHeap (p + o)) ∧
      ∀ t ∈ pairThreads, (threadSwitch (pairLife alloc).sched).heap (Thread.pcb t) =
        pairLifeHeap (Thread.pcb t) := by
  have hview := pairLife_view alloc
  obtain ⟨hview', hkept⟩ := hview.switch_cons (by decide)
  exact ⟨hview', fun p hp o ho h8 => hkept.heap _ (hview.fixed_pcb hp ho h8),
    (hkept.same hview.toRecords).pcb⟩

theorem pairLife_spares (alloc : Allocator) : SparesDead (pairLife alloc) .switch := by
  have hview := pairLife_view alloc
  intro _
  have hnext : nextProc (pairLife alloc).sched = pairLifeHeap (Thread.pcb 0xc0400200) := by
    rw [nextProc, queueGetHead_cons hview.queue, hview.threadOf_node (Or.inr rfl)]
    rfl
  rw [curProc, hview.getCurThread_eq, hnext]
  exact ⟨(by decide : pairLifeHeap (Pcb.state (pairLifeHeap (Thread.pcb 0xc0400100))) ≠ 2),
    (by decide : pairLifeHeap (Pcb.state (pairLifeHeap (Thread.pcb 0xc0400200))) ≠ 2)⟩

theorem pairLife_curProc (alloc : Allocator) :
    curProc (threadSwitch (pairLife alloc).sched).toKernel = 0xc0300100 := by
  obtain ⟨hview, -, hpcb⟩ := pairLife_switched alloc
  rw [curProc, hview.getCurThread_eq, hpcb _ (Or.inr rfl)]
  decide

theorem pairLife_closes {alloc : Allocator} {ls : Slot → List ℕ} (h : Carved 20 alloc ls 0) :
    DestructsNone (threadSwitch (pairLife alloc).sched).toKernel ∧
      ∃ k, closeProc 0x100000 (threadSwitch (pairLife alloc).sched).toKernel = .ok k := by
  obtain ⟨-, hword, -⟩ := pairLife_switched alloc
  have hcur := pairLife_curProc alloc
  have hmem := threadSwitch_sameMemory (pairLife alloc).sched
  have hproc : 0xc0300100 ∈ pairProcs := Or.inr rfl
  generalize (threadSwitch (pairLife alloc).sched).toKernel = k at hword hcur hmem
  have hsons : k.heap (Pcb.left (curProc k)) = 0 := by
    rw [hcur, Pcb.left, hword _ hproc _ (by decide) (by decide)]
    decide
  have hthreads : k.heap (Pcb.threadList (curProc k)) = Pcb.threadList (curProc k) := by
    rw [hcur, Pcb.threadList, hword _ hproc _ (by decide) (by decide)]
    decide
  have hdir : k.heap (Pcb.pageDir (curProc k)) = 0xc0600000 := by
    rw [hcur, Pcb.pageDir, hword _ hproc _ (by decide) (by decide)]
    decide
  refine ⟨⟨Or.inl hsons, Or.inl hthreads⟩, closeProc_returns alloc hsons hthreads ?_ ?_⟩
  · intro entry
    have hzero : readWord (pairLife alloc).sched.mem entry = 0 := by
      simp [readWord, pairLife, pairScheduler]
    rw [hmem.mem, getPde, hzero]
    decide
  · rw [hdir, hmem.alloc]
    refine h.repr.relBytes_none _ _ fun j hj q hq => ?_
    obtain ⟨p, hp, hap⟩ := h.reserved
    by_cases hj20 : j = 20
    · rw [hj20, hp, List.mem_singleton] at hq
      rw [hq, hap]
      decide
    · rw [h.allocated j hj20] at hq
      exact absurd hq List.not_mem_nil

theorem pairLife_changes (alloc : Allocator) : ChangesProc (threadSwitch (pairLife alloc).sched) := by
  obtain ⟨hview, hword, hpcb⟩ := pairLife_switched alloc
  have hfirst : pairLifeHeap (Thread.pcb 0xc0400100) = 0xc0300000 := by decide
  have hsecond : pairLifeHeap (Thread.pcb 0xc0400200) = 0xc0300100 := by decide
  rw [hview.changesProc_iff, hpcb _ (Or.inr rfl), hpcb _ (Or.inl rfl), hfirst, hsecond, Pcb.pid, Pcb.pid]
  have hpid₁ := hword 0xc0300000 (Or.inl rfl) 0 (by decide) (by decide)
  have hpid₂ := hword 0xc0300100 (Or.inr rfl) 0 (by decide) (by decide)
  rw [Nat.add_zero] at hpid₁ hpid₂
  rw [hpid₁, hpid₂]
  decide

theorem pairLife_dies {alloc : Allocator} {ls : Slot → List ℕ} (h : Carved 20 alloc ls 0) :
    ∃ s, Along (Life.exec 0x100000) SparesDead (pairLife alloc) [.switch, .close] ∧
      run (Life.exec 0x100000) (pairLife alloc) [.switch, .close] = .ok s ∧ 0xc0300100 ∈ s.dead ∧
      (threadSwitch s.sched).heap (Pcb.state 0xc0300100) = ProcState.wait.value := by
  have hspares := pairLife_spares alloc
  have hswitch : (pairLife alloc).exec 0x100000 .switch =
      .ok ⟨threadSwitch (pairLife alloc).sched, (pairLife alloc).procs, (pairLife alloc).dead⟩ := rfl
  have hinv := (pairLife_inv alloc).switch hspares
  have hview := (pairLife_switched alloc).1
  have hcur := pairLife_curProc alloc
  have hc := pairLife_changes alloc
  obtain ⟨hnone, k, hclose⟩ := pairLife_closes h
  generalize threadSwitch (pairLife alloc).sched = sched at hswitch hinv hview hcur hc hnone hclose
  obtain ⟨-, hdead⟩ := hinv.close hnone hclose
  have hwaits := hinv.close_switch hview (by decide) hc hnone hclose
  rw [hcur] at hdead hwaits
  refine ⟨_, ⟨hspares, fun s hs => ?_⟩, (run_cons hswitch).trans (run_cons (bind_ok hclose _)), ?_, hwaits⟩
  · obtain rfl := Except.ok.inj (hswitch.symm.trans hs)
    exact ⟨hnone, fun _ _ => trivial⟩
  · rw [hcur]
    exact hdead

theorem die_is_final_pair : ∃ alloc s, directMappingInit 0x100000 .zero = .ok alloc ∧
    run (Life.exec 0x100000) (pairLife alloc) [.switch, .close] = .ok s ∧ 0xc0300100 ∈ s.dead ∧
    DieIsFinal s := by
  obtain ⟨alloc, ls, hinit, hcarved⟩ := init_megabyte
  obtain ⟨s, hops, hrun, hdead, -⟩ := pairLife_dies hcarved
  exact ⟨alloc, s, hinit, hrun, hdead,
    die_is_final 0x100000 pairThreads pairProcs (pairLife alloc) (pairLife_inv alloc) _ hops s hrun⟩

theorem death_overwritten : ∃ alloc s, directMappingInit 0x100000 .zero = .ok alloc ∧
    run (Life.exec 0x100000) (pairLife alloc) [.switch, .close, .switch] = .ok s ∧ 0xc0300100 ∈ s.dead ∧
    s.sched.heap (Pcb.state 0xc0300100) = ProcState.wait.value ∧ ¬ DieIsFinal s := by
  obtain ⟨alloc, ls, hinit, hcarved⟩ := init_megabyte
  obtain ⟨s, -, hrun, hdead, hwaits⟩ := pairLife_dies hcarved
  refine ⟨alloc, ⟨threadSwitch s.sched, s.procs, s.dead⟩, hinit, ?_, hdead, hwaits, fun hfinal => ?_⟩
  · exact run_append hrun [.switch]
  · exact absurd ((hwaits.symm.trans (hfinal _ hdead) : (0 : ℕ) = 2)) (by decide)

end XyOS.Scheduling
