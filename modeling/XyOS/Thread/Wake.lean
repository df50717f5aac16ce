import XyOS.Thread.Linkage
import XyOS.Thread.ThreadInit

/-! `ThreadWake` walks the block list until it is back at its head, so it ends as long as the
list is a ring. -/

namespace XyOS.Scheduling
open Linked Runs Process DirectMapping

/-- No call links a node that is in the free list, the queue or the block list already. When
`ThreadSwitch` finds a thread in the queue it links the current one, also for `ThreadSleep`,
which has just linked it into the block list. -/
def LinksOnce (T P : Set ℕ) (s : Scheduler) : ThreadOp → Prop
  | .create pcb => pcb ∈ P
  | .run thread _ => thread ∈ T ∧ (s.heap (Pcb.pid (s.heap (Thread.pcb thread))) = 0 →
      Unlinked s ∅ (Thread.node thread) ∧ StackRoom s thread)
  | .switch => listNodes s.heap (s.heap s.waitThreadQueue) ≠ [] →
      Thread.node (getCurThread s.toKernel) ∉ (listNodes s.heap (s.heap s.waitThreadQueue)).tail ∧
      Thread.node (getCurThread s.toKernel) ∉ listNodes s.heap s.blockThreadList
  | .sleep => listNodes s.heap (s.heap s.waitThreadQueue) = [] ∧
      Thread.node (getCurThread s.toKernel) ∉ listNodes s.heap s.blockThreadList
  | .wake thread => thread ∈ T

variable {R t x : ℕ} {T P : Set ℕ} {s : Scheduler} {ls : ThreadSlot → List ℕ}

/-! ## The calls -/

theorem Linkage.fixed_tss (h : Linkage R T P s ls) : Fixed T s ls s.tssEsp0 := by
  obtain ⟨t, ht, hn, he⟩ := h.current
  exact ⟨t, ht, hn, Or.inr (Or.inr he)⟩

theorem Linkage.cur_mem (h : Linkage R T P s ls) :
    getCurThread s.toKernel ∈ T ∧ Thread.node (getCurThread s.toKernel) ∉ ls .free := by
  obtain ⟨t, ht, hn, he⟩ := h.current
  rw [getCurThread, he]
  exact (h.used t ht hn).top

theorem Linkage.loose_of_notMem (h : Linkage R T P s ls) (ht : t ∈ T) (hfree : Thread.node t ∉ ls .free)
    (hwait : Thread.node t ∉ ls .wait) (hblock : Thread.node t ∉ ls .block) :
    Loose (threadSlots ∅) (threadHead s) ls (Thread.node t) := by
  refine h.loose_node ht fun i hi => ?_
  cases i with
  | free => exact hfree
  | wait => exact hwait
  | block => exact hblock
  | threads p => exact absurd (hi p rfl) (Set.notMem_empty p)

theorem Linkage.run (h : Linkage R T P s ls) (ht : t ∈ T) (hu : Unlinked s ∅ (Thread.node t))
    (hroom : StackRoom s t) (startFunc : ℕ) (hpid : s.heap (Pcb.pid (s.heap (Thread.pcb t))) = 0) :
    Linkage R T P (kThreadRun s t startFunc) (Function.update ls .wait (ls .wait ++ [Thread.node t])) := by
  have hn : ∀ i ∈ threadSlots ∅, Thread.node t ∉ ls i := fun i hi => by
    rw [← h.listNodes_eq hi]
    exact hu i hi
  have hprepared := h.prepareStack ht (hn .free (free_mem_threadSlots ∅)) hroom startFunc
  rw [kThreadRun, if_pos hpid]
  exact hprepared.enqueue ht (hprepared.loose_node ht hn)

theorem Linkage.run_cur (h : Linkage R T P s ls) (ht : t ∈ T) (hn : Thread.node t ∉ ls .free)
    (hroom : StackRoom s t) (startFunc : ℕ) (hpid : s.heap (Pcb.pid (s.heap (Thread.pcb t))) = 0) :
    getCurThread (kThreadRun s t startFunc).toKernel = getCurThread s.toKernel := by
  have hprepared := h.prepareStack ht hn hroom startFunc
  rw [kThreadRun, if_pos hpid]
  calc _ = getCurThread (Scheduling.prepareStack s t startFunc).toKernel :=
        hprepared.enqueue_fixed ht hprepared.fixed_tss
    _ = getCurThread s.toKernel := by
        rw [getCurThread, prepareStack_tss, getCurThread, h.prepareStack_fixed ht hn hroom _ h.fixed_tss]

theorem Linkage.switch_eq (h : Linkage R T P s ls) (hx : x ∈ T) {ns : List ℕ}
    (hls : ls .wait = Thread.node x :: ns) : threadSwitch s = Scheduling.switchTo
      (s.setHeap (XyOS.dequeue s.heap s.waitThreadQueue).2) (getCurThread s.toKernel) x := by
  have hqueue := h.lists.isQueue
  rw [hls] at hqueue
  have hfirst : (XyOS.dequeue s.heap s.waitThreadQueue).1 = Thread.node x := (dequeue_cons hqueue).1
  have hcur : getCurThread (s.setHeap (XyOS.dequeue s.heap s.waitThreadQueue).2).toKernel =
      getCurThread s.toKernel :=
    h.lists.dequeue_of_loose (h.fixed_loose h.fixed_tss)
      (h.fixed_ne h.fixed_tss (a := .queue) trivial (show 4 < 8 by decide) (by simp))
  simp only [threadSwitch, hfirst, if_neg (show Thread.node x ≠ 0 from Nat.succ_ne_zero _), hcur,
    h.layout.threadOf_node h.ready.inv hx]

theorem Linkage.notMem_free (h : Linkage R T P s ls) {ns : List ℕ} (hls : ls .wait = Thread.node x :: ns) :
    Thread.node x ∉ ls .free := fun hm => ThreadSlot.noConfusion
  (h.one_list (free_mem_threadSlots ∅) (wait_mem_threadSlots ∅) hm (by simp [hls]))

theorem Linkage.switch_cons (h : Linkage R T P s ls) (hx : x ∈ T) {ns : List ℕ}
    (hls : ls .wait = Thread.node x :: ns) (hns : Thread.node (getCurThread s.toKernel) ∉ ns)
    (hblock : Thread.node (getCurThread s.toKernel) ∉ ls .block) :
    Linkage R T P (threadSwitch s)
      (Function.update ls .wait (ns ++ [Thread.node (getCurThread s.toKernel)])) := by
  have hleft := h.dequeue hls
  obtain ⟨hmem, hfree⟩ := h.cur_mem
  have hloose := hleft.loose_of_notMem hmem (by rwa [Function.update_of_ne (by decide)])
    (by rwa [Function.update_self]) (by rwa [Function.update_of_ne (by decide)])
  have hswitched := hleft.switchTo hmem hloose hx (by
    rw [Function.update_of_ne (by decide)]
    exact h.notMem_free hls)
  rw [Function.update_self, Function.update_idem] at hswitched
  rw [h.switch_eq hx hls]
  exact hswitched

theorem Linkage.switch (h : Linkage R T P s ls) (hop : LinksOnce T P s .switch) :
    ∃ ls', Linkage R T P (threadSwitch s) ls' := by
  have hwait : listNodes s.heap (s.heap s.waitThreadQueue) = ls .wait := h.listNodes_eq (wait_mem_threadSlots ∅)
  have hblock : listNodes s.heap s.blockThreadList = ls .block := h.listNodes_eq (block_mem_threadSlots ∅)
  simp only [LinksOnce, hwait, hblock] at hop
  cases hls : ls .wait with
  | nil =>
    have hqueue := h.lists.isQueue
    rw [hls] at hqueue
    rw [threadSwitch_nil hqueue]
    exact ⟨ls, h⟩
  | cons n ns =>
    obtain ⟨x, hx, rfl⟩ := h.nodes .wait (wait_mem_threadSlots ∅) n (by simp [hls])
    rw [hls] at hop
    obtain ⟨hns, hb⟩ := hop (List.cons_ne_nil _ _)
    exact ⟨_, h.switch_cons hx hls hns hb⟩

theorem Linkage.sleep (h : Linkage R T P s ls) (hop : LinksOnce T P s .sleep) :
    ∃ ls', Linkage R T P (threadSleep s) ls' := by
  have hwait : listNodes s.heap (s.heap s.waitThreadQueue) = ls .wait := h.listNodes_eq (wait_mem_threadSlots ∅)
  have hblock : listNodes s.heap s.blockThreadList = ls .block := h.listNodes_eq (block_mem_threadSlots ∅)
  simp only [LinksOnce, hwait, hblock] at hop
  obtain ⟨hmem, hfree⟩ := h.cur_mem
  have hasleep := h.block hmem (h.loose_of_notMem hmem hfree (by simp [hop.1]) hop.2)
  have hqueue := hasleep.lists.isQueue
  rw [Function.update_of_ne (by decide), hop.1] at hqueue
  rw [threadSleep, threadSwitch_nil hqueue]
  exact ⟨_, hasleep⟩

theorem Linkage.block_ne (h : Linkage R T P s ls) (ht : t ∈ T) : s.blockThreadList ≠ Thread.node t :=
  h.layout.apart.word_ne (a := Piece.blockHead) (b := Piece.thread t) (o := 0) trivial ht (by simp) (by decide)
    (show 16 < 24 by decide)

theorem Linkage.follow_block (h : Linkage R T P s ls) (thread : ℕ) :
    s.follow (fun n => n == s.blockThreadList || n == Thread.node thread) s.blockThreadList =
      .ok (lastFrom s.blockThreadList ((ls .block).takeWhile fun n =>
        !(n == s.blockThreadList || n == Thread.node thread))) :=
  h.lists.follow_block (h.layout.ring_length (Set.empty_subset P) h.ready.inv h.nodes h.lists
    (block_mem_threadSlots ∅)) thread

theorem Linkage.takeWhile_eq (h : Linkage R T P s ls) {xs ys : List ℕ} (hls : ls .block = xs ++ ys)
    (hn : Thread.node t ∉ xs) :
    (ls .block).takeWhile (fun n => !(n == s.blockThreadList || n == Thread.node t)) =
      xs ++ ys.takeWhile fun n => !(n == s.blockThreadList || n == Thread.node t) := by
  have hhead : s.blockThreadList ∉ ls .block :=
    (List.nodup_cons.mp (h.lists.rings.nodup .block (block_mem_threadSlots ∅))).1
  rw [hls, List.takeWhile_append_of_pos]
  intro n hmem
  have hne : n ≠ s.blockThreadList := by
    rintro rfl
    exact hhead (by rw [hls]; exact List.mem_append_left _ hmem)
  have hnode : n ≠ Thread.node t := by
    rintro rfl
    exact hn hmem
  simp [hne, hnode]

theorem Linkage.wake_notMem (h : Linkage R T P s ls) (ht : t ∈ T) (hn : Thread.node t ∉ ls .block) :
    threadWake s t = .ok s := by
  have hseg : Seg s.heap s.blockThreadList (ls .block) s.blockThreadList :=
    h.lists.rings.seg .block (block_mem_threadSlots ∅)
  rw [threadWake, bind_ok (h.follow_block t), h.takeWhile_eq (List.append_nil _).symm hn, List.takeWhile_nil,
    List.append_nil, hseg.next_end, if_neg (h.block_ne ht)]

theorem Linkage.wake_mem (h : Linkage R T P s ls) (ht : t ∈ T) (hn : Thread.node t ∈ ls .block) :
    ∃ s', threadWake s t = .ok s' ∧ ∃ ls', Linkage R T P s' ls' := by
  have hslot := block_mem_threadSlots ∅
  obtain ⟨xs, ys, hls⟩ := List.append_of_mem hn
  have hnd := (List.nodup_cons.mp (h.lists.rings.nodup .block hslot)).2
  rw [hls] at hnd
  have hgone : Thread.node t ∉ xs ++ ys := (List.nodup_cons.mp (List.nodup_middle.mp hnd)).1
  have hbefore : (ls .block).takeWhile (fun n => !(n == s.blockThreadList || n == Thread.node t)) = xs := by
    rw [h.takeWhile_eq hls (fun hm => hgone (List.mem_append_left _ hm)), List.takeWhile_cons_of_neg (by simp),
      List.append_nil]
  have hnext : s.heap (lastFrom s.blockThreadList xs) = Thread.node t := h.lists.rings.next_last hslot hls
  have hleft := h.unblock hls
  have hfree : Thread.node t ∉ ls .free := fun hm =>
    ThreadSlot.noConfusion (h.one_list (free_mem_threadSlots ∅) hslot hm hn)
  have hwait : Thread.node t ∉ ls .wait := fun hm =>
    ThreadSlot.noConfusion (h.one_list (wait_mem_threadSlots ∅) hslot hm hn)
  have hloose := hleft.loose_of_notMem ht (by rwa [Function.update_of_ne (by decide)])
    (by rwa [Function.update_of_ne (by decide)]) (by rwa [Function.update_self])
  refine ⟨_, ?_, _, hleft.enqueue ht hloose⟩
  rw [threadWake, bind_ok (h.follow_block t), hbefore, if_pos hnext]
  rfl

theorem Linkage.createThread (h : Linkage R T P s ls) {rest : List ℕ}
    (hfree : ls .free = Thread.node x :: rest) (hx : x ∈ T) (pcb : ℕ) : ∃ stack alloc,
      createThread s pcb = .ok (x, Scheduling.created s x stack pcb alloc) ∧ Ready R alloc rest.length ∧
      (∀ b m, Owned s.alloc b m → Owned alloc b m) ∧ NewStack s.alloc stack alloc := by
  have hready := h.ready
  rw [hfree, List.length_cons] at hready
  obtain ⟨stack, alloc, hreq, hrest⟩ := exists_newStack hready
  have hnode := h.layout.threadOf_node h.ready.inv hx
  exact ⟨stack, alloc, h.lists.createThread_cons hfree hnode hreq pcb, hrest⟩

theorem Linkage.create (h : Linkage R T P s ls) {pcb : ℕ} (hp : pcb ∈ P) :
    ∃ s', threadExec s (.create pcb) = .ok s' ∧ ∃ ls', Linkage R T P s' ls' := by
  cases hfree : ls .free with
  | nil => exact ⟨s, bind_ok (h.lists.createThread_nil hfree pcb) _, ls, h⟩
  | cons n rest =>
    obtain ⟨x, hx, rfl⟩ := h.nodes .free (free_mem_threadSlots ∅) n (by simp [hfree])
    obtain ⟨stack, alloc, hcreate, hready, hkept, hnew⟩ := h.createThread hfree hx pcb
    exact ⟨_, bind_ok hcreate _, _, h.created hnew hready hkept hfree hx hp⟩

theorem Linkage.wake (h : Linkage R T P s ls) (ht : t ∈ T) :
    ∃ s', threadWake s t = .ok s' ∧ ∃ ls', Linkage R T P s' ls' := by
  by_cases hn : Thread.node t ∈ ls .block
  · exact h.wake_mem ht hn
  · exact ⟨s, h.wake_notMem ht hn, ls, h⟩

theorem Linkage.exec (h : ∃ ls, Linkage R T P s ls) {op : ThreadOp} (hop : LinksOnce T P s op) :
    ∃ s', threadExec s op = .ok s' ∧ ∃ ls', Linkage R T P s' ls' := by
  obtain ⟨ls, h⟩ := h
  cases op with
  | create pcb => exact h.create hop
  | run thread startFunc =>
    by_cases hpid : s.heap (Pcb.pid (s.heap (Thread.pcb thread))) = 0
    · obtain ⟨hloose, hroom⟩ := hop.2 hpid
      exact ⟨_, rfl, _, h.run hop.1 hloose hroom startFunc hpid⟩
    · exact ⟨s, congrArg Except.ok (if_neg hpid), ls, h⟩
  | switch => exact ⟨_, rfl, h.switch hop⟩
  | sleep => exact ⟨_, rfl, h.sleep hop⟩
  | wake thread => exact h.wake hop

theorem Linkage.create_run (h : Linkage R T P s ls) {rest : List ℕ} {pcb : ℕ}
    (hfree : ls .free = Thread.node x :: rest) (hx : x ∈ T) (hp : pcb ∈ P) (hpid : s.heap (Pcb.pid pcb) = 0)
    (htss : s.tssEsp0 = kMainStackAddr - 4) (startFunc : ℕ) :
    ∃ s', Runs.run threadExec s [.create pcb, .run x startFunc] = .ok s' ∧
      Along threadExec (LinksOnce T P) s [.create pcb, .run x startFunc] ∧
      getCurThread s'.toKernel = getCurThread s.toKernel ∧
      Linkage R T P s'
        (Function.update (Function.update ls .free rest) .wait (ls .wait ++ [Thread.node x])) := by
  obtain ⟨stack, alloc, hcreate, hready, hkept, hnew⟩ := h.createThread hfree hx pcb
  have hcreated := h.created hnew hready hkept hfree hx hp
  have hopened := h.opened hnew hready.inv hfree hx hp
  have hb := hnew.bounds hready.inv
  simp only [kKVirtualAddr] at hb
  obtain ⟨-, -, -, -, htss₁⟩ := created_heads s x stack pcb alloc
  have hcur : getCurThread (Scheduling.created s x stack pcb alloc).toKernel = getCurThread s.toKernel := by
    rw [getCurThread, htss₁, getCurThread]
    refine h.created_fixed hfree hx hp h.fixed_tss ?_
    rw [htss, newTop_eq (by omega), kMainStackAddr]
    omega
  generalize Scheduling.created s x stack pcb alloc = s₁ at hcreate hcreated hopened hcur
  have hexec : threadExec s (.create pcb) = .ok s₁ := bind_ok hcreate _
  have hloose := h.notMem_pop hfree
  have hunlinked : Unlinked s₁ ∅ (Thread.node x) := fun i hi => by
    rw [hcreated.listNodes_eq hi]
    exact hloose i hi
  have hroom : StackRoom s₁ x := by
    rw [StackRoom, hopened.addr, hopened.esp]
    omega
  have hpid₁ : s₁.heap (Pcb.pid (s₁.heap (Thread.pcb x))) = 0 := by rw [hopened.process, hopened.pid, hpid]
  refine ⟨kThreadRun s₁ x startFunc, (run_cons hexec).trans (run_cons rfl), ?_, ?_, ?_⟩
  · refine ⟨hp, fun s₂ he => ?_⟩
    obtain rfl := Except.ok.inj (hexec.symm.trans he)
    exact ⟨⟨hx, fun _ => ⟨hunlinked, hroom⟩⟩, fun _ _ => trivial⟩
  · rw [hcreated.run_cur hx (hloose .free (free_mem_threadSlots ∅)) hroom startFunc hpid₁, hcur]
  · have hrun := hcreated.run hx hunlinked hroom startFunc hpid₁
    rwa [Function.update_of_ne (show ThreadSlot.wait ≠ .free by decide)] at hrun

/-! ## Runs -/

theorem ThreadLists.mono {Q : Set ℕ} (h : ThreadLists s P ls) (hQ : Q ⊆ P) : ThreadLists s Q ls := by
  have hslots : threadSlots Q ⊆ threadSlots P := fun i hi p he => hQ (hi p he)
  exact ⟨h.rings.mono hslots, h.tail, fun i hi => h.head_loose i (hslots hi),
    fun i hi => h.tail_loose i (hslots hi)⟩

theorem stackTop_main (h : s.heap (Thread.stackAddr t) = kMainStackAddr) :
    stackTop s.heap t = kMainStackAddr - 4 := by
  rw [stackTop, h, sub32_of_le (by decide) (by decide)]

section Init
variable {b : InitBlocks} {s₀ : Scheduler} {alloc : Allocator}

theorem Arranged.linkage (h : Arranged R P b s₀ s) (hkPcb : s.kPcb ∈ P) :
    Linkage R b.threads P (mainThread s b.kMain) (firstLists b) := by
  have hplaced := h.placed
  have hlists := hplaced.lists.mono (Set.empty_subset P)
  have hstack := hplaced.stack
  have htop := stackTop_main hstack
  have hmain : ∀ t ∈ b.threads, Thread.node t ∉ firstLists b .free → t = b.kMain := by
    refine fun t ht hn => ht.resolve_right ?_
    rintro ⟨j, hj, rfl⟩
    exact hn (mem_poolNodes.mpr ⟨j, hj, rfl⟩)
  refine ⟨hplaced.ready, hplaced.layout, hlists, fun i hi => ?_, fun t ht hn => ?_, ?_⟩
  · exact hplaced.nodes i fun p he => absurd (hi p he) (Set.notMem_empty p)
  · obtain rfl := hmain t ht hn
    refine ⟨?_, Or.inl hstack, fun a ha => Or.inl ?_, fun u hu hnu => Or.inl ?_, ?_⟩
    · rwa [mainThread_pcb h.kMain_ge]
    · have hlow := (hplaced.layout.bounds hplaced.ready.inv ha).1
      rw [hstack]
      simp only [kKVirtualAddr, kMainStackAddr] at hlow ⊢
      omega
    · rw [hmain u hu hnu]
    · rw [htop, hplaced.top]
      exact ⟨ht, hn⟩
  · exact ⟨b.kMain, Or.inl rfl, h.main_notMem .free, by rw [htop, hplaced.current]⟩

theorem Started.linkage (h : Started R P s₀) (hreq : reqAll s₀.alloc InitBlocks.sizes = .ok (b.addrs, alloc))
    (hgranted : 0 ∉ b.addrs) (hkPcb : s₀.kPcb ∈ P) (hinit : threadInit s₀ = .ok s) :
    ∃ ls, Linkage R b.threads P s ls := by
  obtain rfl := Except.ok.inj ((threadInit_eq hreq hgranted).symm.trans hinit)
  exact ⟨_, (h.arranged hreq hgranted).linkage hkPcb⟩

end Init

theorem exists_queued : ∃ alloc₀ kPcb alloc₁ b alloc s x s', directMappingInit 0x100000 .zero = .ok alloc₀ ∧
    (∃ pcbs list, reqAll alloc₀ [16 * pcbBytes, 4, pcbBytes] = .ok ([pcbs, list, kPcb], alloc₁)) ∧
    Started (2 ^ 20) {kPcb} (bootThreads alloc₁ kPcb) ∧
    reqAll alloc₁ InitBlocks.sizes = .ok (InitBlocks.addrs b, alloc) ∧ 0 ∉ b.addrs ∧
    threadInit (bootThreads alloc₁ kPcb) = .ok s ∧ (∃ s₁, createThread s kPcb = .ok (x, s₁)) ∧
    Along threadExec (LinksOnce b.threads {kPcb}) s [.create kPcb, .run x 0x101000] ∧
    run threadExec s [.create kPcb, .run x 0x101000] = .ok s' ∧ x ∈ b.threads ∧
    Thread.node (getCurThread s'.toKernel) ≠ Thread.node x ∧
    ∃ ls, Linkage (2 ^ 20) b.threads {kPcb} s' ls ∧ ls .wait = [Thread.node x] ∧ ls .block = [] := by
  obtain ⟨alloc₀, ls, hboot, hcarved⟩ := init_megabyte
  obtain ⟨kPcb, alloc₁, b, alloc, hproc, hstart, hreq, hgranted⟩ := exists_started hcarved
  have hinit := threadInit_eq (s := bootThreads alloc₁ kPcb) hreq hgranted
  have harranged := hstart.arranged hreq hgranted
  have hx : b.pool + threadBytes * 127 ∈ b.threads := Or.inr ⟨127, by decide, rfl⟩
  have hfree : firstLists b .free = Thread.node (b.pool + threadBytes * 127) :: poolNodes b.pool 127 := rfl
  have hlinked := harranged.linkage rfl
  obtain ⟨stack, alloc', hcreate, -⟩ := hlinked.createThread hfree hx kPcb
  obtain ⟨s', hrun, halong, hcur, h⟩ := hlinked.create_run hfree hx rfl harranged.boot_pid
    harranged.placed.current 0x101000
  refine ⟨alloc₀, kPcb, alloc₁, b, alloc, _, _, s', hboot, hproc, hstart, hreq, hgranted, hinit, ⟨_, hcreate⟩,
    halong, hrun, hx, ?_, _, h, ?_, ?_⟩
  · rw [hcur, harranged.placed.getCurThread_eq]
    exact fun he => harranged.main 127 (by decide) (Nat.add_right_cancel he).symm
  · rw [Function.update_self]
    rfl
  · rfl

/-- In a run that links no node twice the search of `ThreadWake` ends for every thread, and it
changes nothing when the thread is not in the block list. -/
theorem wake_terminates (R : ℕ) (P : Set ℕ) (s₀ s : Scheduler) (b : InitBlocks) (alloc : Allocator)
    (hstart : Started R P s₀) (hreq : reqAll s₀.alloc InitBlocks.sizes = .ok (b.addrs, alloc))
    (hgranted : 0 ∉ b.addrs) (hkPcb : s₀.kPcb ∈ P) (hinit : threadInit s₀ = .ok s) (ops : List ThreadOp)
    (hops : Along threadExec (LinksOnce b.threads P) s ops) :
    ∃ s', run threadExec s ops = .ok s' ∧ ∀ t ∈ b.threads, ∃ s'', threadWake s' t = .ok s'' ∧
      (Thread.node t ∉ listNodes s'.heap s'.blockThreadList → s'' = s') := by
  have hlinked := hstart.linkage hreq hgranted hkPcb hinit
  obtain ⟨s', hrun, ls, h⟩ : ∃ s', run threadExec s ops = .ok s' ∧ ∃ ls, Linkage R b.threads P s' ls :=
    run_returns (fun _ _ h hop => Linkage.exec h hop) hlinked hops
  have hblock : listNodes s'.heap s'.blockThreadList = ls .block := h.listNodes_eq (block_mem_threadSlots ∅)
  refine ⟨s', hrun, fun t ht => ?_⟩
  rw [hblock]
  by_cases hn : Thread.node t ∈ ls .block
  · obtain ⟨s'', hwake, -⟩ := h.wake_mem ht hn
    exact ⟨s'', hwake, fun hn' => absurd hn hn'⟩
  · exact ⟨s', h.wake_notMem ht hn, fun _ => rfl⟩

theorem wake_terminates_boot : ∃ alloc₀ kPcb alloc₁ b s x s', directMappingInit 0x100000 .zero = .ok alloc₀ ∧
    (∃ pcbs list, reqAll alloc₀ [16 * pcbBytes, 4, pcbBytes] = .ok ([pcbs, list, kPcb], alloc₁)) ∧
    threadInit (bootThreads alloc₁ kPcb) = .ok s ∧ x ∈ InitBlocks.threads b ∧
    run threadExec s [.create kPcb, .run x 0x101000, .switch] = .ok s' ∧
    ∀ t ∈ b.threads, ∃ s'', threadWake s' t = .ok s'' ∧
      (Thread.node t ∉ listNodes s'.heap s'.blockThreadList → s'' = s') := by
  obtain ⟨alloc₀, kPcb, alloc₁, b, alloc, s, x, s₁, hboot, hproc, hstart, hreq, hgranted, hinit, -, halong,
    hrun, hx, -, ls, h, hwait, hblock⟩ := exists_queued
  have hswitch : LinksOnce b.threads {kPcb} s₁ .switch := by
    have hnodes : listNodes s₁.heap (s₁.heap s₁.waitThreadQueue) = ls .wait :=
      h.listNodes_eq (wait_mem_threadSlots ∅)
    have hblocked : listNodes s₁.heap s₁.blockThreadList = ls .block := h.listNodes_eq (block_mem_threadSlots ∅)
    simp [LinksOnce, hnodes, hblocked, hwait, hblock]
  obtain ⟨s', hrun', hwake⟩ := wake_terminates (2 ^ 20) {kPcb} _ s b alloc hstart hreq hgranted rfl hinit
    [.create kPcb, .run x 0x101000, .switch] (halong.append hrun ⟨hswitch, fun _ _ => trivial⟩)
  exact ⟨alloc₀, kPcb, alloc₁, b, s, x, s', hboot, hproc, hinit, hx, hrun', hwake⟩

/-! ## A search that does not end -/

theorem wake_diverges (h : walk s.heap (fun n => !(n == s.blockThreadList || n == Thread.node t)) loopFuel
    s.blockThreadList = none) : threadWake s t = .error .diverges := by
  rw [threadWake, Kernel.follow, h]
  rfl

section Search
variable (h : Linkage R T P s ls) {ns bs : List ℕ}
include h

theorem Linkage.switchTo_ring (ht : t ∈ T) (hx : x ∈ T) (hxn : Thread.node x ∉ ls .free)
    (hblock : ls .block = Thread.node t :: bs) :
    (Scheduling.switchTo s t x).heap s.blockThreadList = Thread.node t ∧
      Seg (Scheduling.switchTo s t x).heap (s.heap s.waitThreadQueue) (ls .wait ++ [Thread.node t])
        (s.heap s.waitThreadQueue) := by
  have hwait := wait_mem_threadSlots ∅
  have hslot := block_mem_threadSlots ∅
  have hmem : Thread.node t ∈ ls .block := by simp [hblock]
  have htn : Thread.node t ∉ ls .free := fun hm =>
    ThreadSlot.noConfusion (h.one_list (free_mem_threadSlots ∅) hslot hm hmem)
  have hnode := h.layout.node_ne ht
  -- the queue does not hold what the block list holds
  have hapart : ∀ z ∈ s.blockThreadList :: ls .block, z ∉ s.heap s.waitThreadQueue :: ls .wait :=
    fun z hz hz' => ThreadSlot.noConfusion (h.lists.rings.apart .wait hwait .block hslot z hz' hz)
  have hqueue := h.lists.isQueue
  have hring := (hqueue.enqueue (n := Thread.node t) (by
    have := hapart _ (List.mem_cons_of_mem _ hmem)
    simp only [queueWords, Queue.head, List.mem_cons, not_or] at this ⊢
    exact ⟨hnode.1, hnode.2, this⟩)).ring
  rw [Queue.head, show XyOS.enqueue s.heap s.waitThreadQueue (Thread.node t) s.waitThreadQueue =
    s.heap s.waitThreadQueue from (h.enqueue_sameHeads ht).wait] at hring
  have hnext : ∀ i ∈ threadSlots ∅, ∀ z ∈ threadHead s i :: ls i, (Scheduling.switchTo s t x).heap z =
      XyOS.enqueue s.heap s.waitThreadQueue (Thread.node t) z := by
    intro i hi z hz
    obtain ⟨a, ha, -, rfl⟩ := link_of_linked h.nodes fun hloose => hloose i hi hz
    exact h.switchTo_link ht htn hx hxn (ha.mono (Set.empty_subset P)) a.link_lt (Or.inr rfl)
  constructor
  · have hhead : s.heap s.blockThreadList = Thread.node t := h.lists.rings.next_head hslot hblock
    have htail : s.blockThreadList ≠ Queue.tail s.waitThreadQueue := fun he =>
      h.lists.tail_loose .block hslot (he ▸ List.mem_cons_self)
    rw [hnext .block hslot s.blockThreadList List.mem_cons_self,
      enqueue_of_ne hqueue htail (h.block_ne ht) (hapart _ List.mem_cons_self), hhead]
  · refine hring.congr fun z hz => ?_
    rw [← List.cons_append, List.mem_append, List.mem_singleton] at hz
    rcases hz with hz | rfl
    · exact hnext .wait hwait z hz
    · exact hnext .block hslot _ (List.mem_cons_of_mem _ hmem)

theorem Linkage.switchTo_search (ht : t ∈ T) (hx : x ∈ T) (hxn : Thread.node x ∉ ls .free)
    (hxw : Thread.node x ∉ ls .wait) (hne : x ≠ t) (hblock : ls .block = Thread.node t :: bs) (fuel : ℕ) :
    walk (Scheduling.switchTo s t x).heap (fun n => !(n == s.blockThreadList || n == Thread.node x)) fuel
      s.blockThreadList = none := by
  obtain ⟨hhead, hring⟩ := h.switchTo_ring ht hx hxn hblock
  have hgo : ∀ z ∈ s.heap s.waitThreadQueue :: (ls .wait ++ [Thread.node t]),
      z ≠ s.blockThreadList ∧ z ≠ Thread.node x := by
    intro z hz
    rw [← List.cons_append, List.mem_append, List.mem_singleton] at hz
    rcases hz with hz | rfl
    · constructor
      · rintro rfl
        exact ThreadSlot.noConfusion (h.lists.rings.apart .wait (wait_mem_threadSlots ∅) .block
          (block_mem_threadSlots ∅) _ hz List.mem_cons_self)
      · rintro rfl
        refine (List.mem_cons.mp hz).elim (fun he => ?_) hxw
        exact h.layout.apart.word_ne (a := Piece.waitHead) (b := Piece.thread x) (o := 0) trivial hx (by simp)
          (by decide)
          (show 16 < 24 by decide) he.symm
    · exact ⟨(h.block_ne ht).symm, fun he => hne (Nat.add_right_cancel he).symm⟩
  refine walk_closed (C := {z | z = s.blockThreadList ∨
    z ∈ s.heap s.waitThreadQueue :: (ls .wait ++ [Thread.node t])}) (fun z hz => ?_) (Or.inl rfl) fuel
  have hnext : (Scheduling.switchTo s t x).heap z ∈
      s.heap s.waitThreadQueue :: (ls .wait ++ [Thread.node t]) := by
    rcases hz with rfl | hz
    · simp [hhead]
    · exact List.mem_cons.mpr (hring.next_mem hz).symm
  refine ⟨Or.inr hnext, ?_⟩
  simp [(hgo _ hnext).1, (hgo _ hnext).2]

theorem Linkage.sleep_search (hx : x ∈ T) (hls : ls .wait = Thread.node x :: ns)
    (hwait : Thread.node (getCurThread s.toKernel) ∉ ls .wait)
    (hblock : Thread.node (getCurThread s.toKernel) ∉ ls .block) (fuel : ℕ) :
    walk (threadSleep s).heap (fun n => !(n == (threadSleep s).blockThreadList || n == Thread.node x)) fuel
      (threadSleep s).blockThreadList = none := by
  obtain ⟨hmem, hfree⟩ := h.cur_mem
  have hasleep := h.block hmem (h.loose_of_notMem hmem hfree hwait hblock)
  have hcur : getCurThread (s.setHeap (listAdd s.heap s.blockThreadList
      (Thread.node (getCurThread s.toKernel)))).toKernel = getCurThread s.toKernel :=
    insertAfter_of_ne (h.fixed_ne h.fixed_tss (a := .blockHead) (o := 0) trivial (by decide) (by simp))
      (h.fixed_ne h.fixed_tss (a := .thread _) hmem (show 16 < 24 by decide) fun _ _ => by decide)
  rw [threadSleep]
  generalize getCurThread s.toKernel = c at hmem hfree hwait hblock hasleep hcur ⊢
  generalize s.setHeap (listAdd s.heap s.blockThreadList (Thread.node c)) = s₁ at hasleep hcur ⊢
  have hls₁ : Function.update ls .block (Thread.node c :: ls .block) .wait = Thread.node x :: ns := by
    rw [Function.update_of_ne (by decide), hls]
  rw [hasleep.switch_eq hx hls₁, hcur]
  have hleft := hasleep.dequeue hls₁
  generalize s₁.setHeap (XyOS.dequeue s₁.heap s₁.waitThreadQueue).2 = s₂ at hleft ⊢
  have hfree₂ : Thread.node c ∉
      Function.update (Function.update ls .block (Thread.node c :: ls .block)) .wait ns .free := hfree
  have hxfree := h.notMem_free hls
  have hxns : Thread.node x ∉ ns := by
    have hnd := (List.nodup_cons.mp (h.lists.rings.nodup .wait (wait_mem_threadSlots ∅))).2
    rw [hls] at hnd
    exact (List.nodup_cons.mp hnd).1
  have hne : x ≠ c := by
    rintro rfl
    exact hwait (by simp [hls])
  rw [(hleft.switchTo_heads hmem hfree₂ hx hxfree).2.2.1]
  exact hleft.switchTo_search hmem hx hxfree hxns hne rfl fuel

end Search

/-- A thread of the kernel is created and run, and the code that boots sleeps while it waits. The
search for the thread goes round in the queue. -/
theorem wake_after_sleep_diverges : ∃ alloc₀ kPcb alloc₁ s x s',
    directMappingInit 0x100000 .zero = .ok alloc₀ ∧
    (∃ pcbs list, reqAll alloc₀ [16 * pcbBytes, 4, pcbBytes] = .ok ([pcbs, list, kPcb], alloc₁)) ∧
    threadInit (bootThreads alloc₁ kPcb) = .ok s ∧ (∃ s₁, createThread s kPcb = .ok (x, s₁)) ∧
    run threadExec s [.create kPcb, .run x 0x101000, .sleep] = .ok s' ∧
    (∀ fuel, walk s'.heap (fun n => !(n == s'.blockThreadList || n == Thread.node x)) fuel
      s'.blockThreadList = none) ∧ threadWake s' x = .error .diverges := by
  obtain ⟨alloc₀, kPcb, alloc₁, b, alloc, s, x, s₁, hboot, hproc, -, -, -, hinit, hcreate, -, hrun, hx, hne,
    ls, h, hwait, hblock⟩ := exists_queued
  have hsearch := h.sleep_search hx hwait (by simpa [hwait] using hne) (by simp [hblock])
  exact ⟨alloc₀, kPcb, alloc₁, s, x, threadSleep s₁, hboot, hproc, hinit, hcreate, run_append hrun [.sleep],
    hsearch, wake_diverges (hsearch loopFuel)⟩

end XyOS.Scheduling
