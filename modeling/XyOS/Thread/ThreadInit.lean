import XyOS.Thread.Places

/-! `ThreadInit` puts each thread of the pool in the free list, and the runs that
start from there. -/

namespace XyOS.Scheduling
open Linked Runs Process DirectMapping

structure InitBlocks where
  pool : ℕ
  free : ℕ
  head : ℕ
  queue : ℕ
  block : ℕ
  kMain : ℕ

namespace InitBlocks

def sizes : List ℕ := [kThreadPoolInitNum * threadBytes, 4, 4, queueBytes, 4, threadBytes]

def addrs (b : InitBlocks) : List ℕ := [b.pool, b.free, b.head, b.queue, b.block, b.kMain]

def threads (b : InitBlocks) : Set ℕ :=
  {t | t = b.kMain ∨ ∃ i < kThreadPoolInitNum, t = b.pool + threadBytes * i}

end InitBlocks

structure Started (R : ℕ) (P : Set ℕ) (s : Scheduler) : Prop where
  ready : Ready R s.alloc (InitBlocks.sizes.length + kThreadPoolInitNum)
  owned : ∀ p ∈ P, Owned s.alloc p pcbBytes
  apart : ∀ p ∈ P, ∀ q ∈ P, p ≠ q → Separate (p, pcbBytes) (q, pcbBytes)
  empty : ∀ p ∈ P, s.heap (Pcb.threadList p) = Pcb.threadList p

/-! ## The pool -/

def poolNodes (pool : ℕ) : ℕ → List ℕ
  | 0 => []
  | i + 1 => Thread.node (pool + threadBytes * i) :: poolNodes pool i

variable {R kMain pool z n : ℕ} {T P : Set ℕ} {s s₀ s' : Scheduler} {b : InitBlocks} {alloc : Allocator}

theorem length_poolNodes (pool i : ℕ) : (poolNodes pool i).length = i := by
  induction i with
  | zero => rfl
  | succ i ih => rw [poolNodes, List.length_cons, ih]

theorem mem_poolNodes {i : ℕ} : n ∈ poolNodes pool i ↔ ∃ j < i, n = Thread.node (pool + threadBytes * j) := by
  induction i with
  | zero => simp [poolNodes]
  | succ i ih =>
    rw [poolNodes, List.mem_cons, ih]
    constructor
    · rintro (rfl | ⟨j, hj, rfl⟩)
      · exact ⟨i, Nat.lt_succ_self i, rfl⟩
      · exact ⟨j, hj.trans (Nat.lt_succ_self i), rfl⟩
    · rintro ⟨j, hj, rfl⟩
      rcases Nat.lt_succ_iff_lt_or_eq.mp hj with hlt | rfl
      · exact Or.inr ⟨j, hlt, rfl⟩
      · exact Or.inl rfl

theorem poolNodes_bounds {i : ℕ} (hn : n ∈ poolNodes pool i) : pool ≤ n ∧ n < pool + threadBytes * i := by
  obtain ⟨j, hj, rfl⟩ := mem_poolNodes.mp hn
  simp only [Thread.node, threadBytes]
  omega

theorem nodup_poolNodes (pool i : ℕ) : (poolNodes pool i).Nodup := by
  induction i with
  | zero => exact List.nodup_nil
  | succ i ih =>
    refine List.nodup_cons.mpr ⟨fun hmem => ?_, ih⟩
    have := (poolNodes_bounds hmem).2
    simp only [Thread.node] at this
    omega

theorem linkPool_eq (s : Scheduler) (pool i : ℕ) : linkPool s pool i = s.setHeap (linkPool s pool i).heap := by
  induction i with
  | zero => rfl
  | succ i ih =>
    rw [linkPool, ih]
    rfl

theorem linkPool_succ (s : Scheduler) (pool i : ℕ) : (linkPool s pool (i + 1)).heap =
    insertAfter (Function.update (linkPool s pool i).heap
        (Thread.tid (threadOf (Thread.node (pool + threadBytes * i)))) (kThreadPoolInitNum - i))
      s.freeThreadList (Thread.node (pool + threadBytes * i)) := by
  have hfree : (linkPool s pool i).freeThreadList = s.freeThreadList := by
    rw [linkPool_eq, Scheduler.setHeap_freeThreadList]
  simp only [linkPool, Scheduler.store, Scheduler.setHeap_heap, Scheduler.setHeap_freeThreadList, hfree, listAdd]

theorem linkPool_congr (hheap : s'.heap = s.heap) (hfree : s'.freeThreadList = s.freeThreadList) (pool i : ℕ) :
    (linkPool s' pool i).heap = (linkPool s pool i).heap := by
  induction i with
  | zero => exact hheap
  | succ i ih => rw [linkPool_succ, linkPool_succ, ih, hfree]

theorem linkPool_spec {i : ℕ} (hempty : s.heap s.freeThreadList = s.freeThreadList)
    (hsmall : pool + threadBytes * i < 2 ^ 32)
    (hfree : s.freeThreadList < pool ∨ pool + threadBytes * i ≤ s.freeThreadList) :
    Seg (linkPool s pool i).heap s.freeThreadList (poolNodes pool i) s.freeThreadList ∧
      ∀ z, z ≠ s.freeThreadList → z < pool ∨ pool + threadBytes * i ≤ z →
        (linkPool s pool i).heap z = s.heap z := by
  induction i with
  | zero => exact ⟨hempty, fun _ _ _ => rfl⟩
  | succ i ih =>
    simp only [threadBytes] at hsmall hfree
    obtain ⟨hseg, hsame⟩ := ih (by simp only [threadBytes]; omega) (by simp only [threadBytes]; omega)
    have hof : threadOf (Thread.node (pool + threadBytes * i)) = pool + threadBytes * i := by
      simp only [threadOf, Thread.node, threadBytes]
      rw [sub32_of_le (by omega) (by omega)]
      omega
    generalize hheap : Function.update (linkPool s pool i).heap (pool + threadBytes * i)
      (kThreadPoolInitNum - i) = heap
    have hstep : (linkPool s pool (i + 1)).heap =
        insertAfter heap s.freeThreadList (Thread.node (pool + threadBytes * i)) := by
      rw [linkPool_succ, ← hheap, hof, Thread.tid]
    have hword : ∀ z, z ≠ pool + threadBytes * i → heap z = (linkPool s pool i).heap z := by
      intro z hz
      rw [← hheap, Function.update_of_ne hz]
    have hnotin : s.freeThreadList ∉ poolNodes pool i := fun hmem => by
      have := poolNodes_bounds hmem
      simp only [threadBytes] at this
      omega
    rw [hstep]
    constructor
    · have hold : Seg heap s.freeThreadList ([] ++ poolNodes pool i) s.freeThreadList := by
        refine hseg.congr fun z hz => hword z ?_
        rintro rfl
        rcases List.mem_cons.mp hz with he | hmem
        · simp only [threadBytes] at he
          omega
        · exact lt_irrefl _ (poolNodes_bounds hmem).2
      refine hold.insert (List.nodup_cons.mpr ⟨hnotin, nodup_poolNodes pool i⟩) fun hmem => ?_
      rcases List.mem_cons.mp hmem with he | hmem
      · simp only [Thread.node, threadBytes] at he
        omega
      · have := (poolNodes_bounds hmem).2
        simp only [Thread.node] at this
        omega
    · intro z hz hout
      simp only [threadBytes] at hout
      rw [insertAfter_of_ne hz (by simp only [Thread.node, threadBytes]; omega),
        hword z (by simp only [threadBytes]; omega)]
      exact hsame z hz (by simp only [threadBytes]; omega)

/-! ## The lists and the current thread -/

theorem Scheduler.reqBytes_eq {size a : ℕ} (h : DirectMapping.reqBytes s.alloc size = .ok (a, alloc)) :
    s.reqBytes size = .ok (a, s.setAlloc alloc) := bind_ok h _

theorem Scheduler.newList_eq {a : ℕ} (h : DirectMapping.reqBytes s.alloc (4 : ℕ) = .ok (a, alloc)) (ha : a ≠ 0) :
    s.newList = .ok (a, (s.setAlloc alloc).store a a) := by
  rw [newList, bind_ok (reqBytes_eq h)]
  simp only [if_neg ha]

@[simps -fullyApplied]
def Scheduler.setFree (s : Scheduler) (free : ℕ) : Scheduler := { s with freeThreadList := free }

def initHeap (b : InitBlocks) (s : Scheduler) : ℕ → ℕ :=
  let pool := linkPool ((s.store b.free b.free).setFree b.free) b.pool kThreadPoolInitNum
  let heap := Function.update pool.heap b.head b.head
  let heap := Function.update (Function.update heap (Queue.head b.queue) b.head) (Queue.tail b.queue) b.head
  Function.update heap b.block b.block

def initLists (b : InitBlocks) (s : Scheduler) (alloc : Allocator) : Scheduler :=
  { s with
    heap := initHeap b s
    alloc := alloc
    freeThreadList := b.free
    waitThreadQueue := b.queue
    blockThreadList := b.block }

theorem Scheduler.newQueue_eq {a q : ℕ} {alloc₁ : Allocator}
    (h₁ : DirectMapping.reqBytes s.alloc (4 : ℕ) = .ok (a, alloc₁)) (ha : a ≠ 0)
    (h₂ : DirectMapping.reqBytes alloc₁ queueBytes = .ok (q, alloc)) : s.newQueue = .ok (q,
      ((((s.setAlloc alloc₁).store a a).setAlloc alloc).store (Queue.head q) a).store (Queue.tail q) a) := by
  rw [newQueue, bind_ok (newList_eq h₁ ha)]
  exact bind_ok (reqBytes_eq (s := (s.setAlloc alloc₁).store a a) h₂) _

theorem threadInit_eq (hreq : reqAll s.alloc InitBlocks.sizes = .ok (b.addrs, alloc)) (hgranted : 0 ∉ b.addrs) :
    threadInit s = .ok (mainThread (initLists b s alloc) b.kMain) := by
  simp only [InitBlocks.addrs, List.mem_cons, not_or] at hgranted
  obtain ⟨hpool, hfree, hhead, -, hblock, -⟩ := hgranted
  obtain ⟨alloc₁, h₁, hreq⟩ := of_reqAll_cons hreq
  obtain ⟨alloc₂, h₂, hreq⟩ := of_reqAll_cons hreq
  obtain ⟨alloc₃, h₃, hreq⟩ := of_reqAll_cons hreq
  obtain ⟨alloc₄, h₄, hreq⟩ := of_reqAll_cons hreq
  obtain ⟨alloc₅, h₅, hreq⟩ := of_reqAll_cons hreq
  obtain ⟨alloc₆, h₆, hreq⟩ := of_reqAll_cons hreq
  obtain ⟨-, rfl⟩ := Prod.mk.inj (Except.ok.inj hreq)
  have hlink : ∀ s' : Scheduler, s'.heap = (s.store b.free b.free).heap → s'.freeThreadList = b.free →
      linkPool s' b.pool kThreadPoolInitNum = s'.setHeap
        (linkPool ((s.store b.free b.free).setFree b.free) b.pool kThreadPoolInitNum).heap := by
    intro s' hheap hlist
    rw [linkPool_eq, linkPool_congr (s := (s.store b.free b.free).setFree b.free) hheap hlist]
  rw [threadInit, bind_ok (Scheduler.reqBytes_eq h₁)]
  simp only [if_neg (Ne.symm hpool)]
  refine (bind_ok (Scheduler.newList_eq h₂ (Ne.symm hfree)) _).trans ?_
  dsimp only
  rw [hlink]
  refine (bind_ok (Scheduler.newQueue_eq h₃ (Ne.symm hhead) h₄) _).trans ?_
  refine (bind_ok (Scheduler.newList_eq h₅ (Ne.symm hblock)) _).trans ?_
  refine (bind_ok (Scheduler.reqBytes_eq h₆) _).trans ?_
  rw [initLists, initHeap]
  generalize (linkPool ((s.store b.free b.free).setFree b.free) b.pool kThreadPoolInitNum).heap = heap
  simp only [Scheduler.store, Scheduler.setHeap, Scheduler.setAlloc]
  · rfl
  · rfl

theorem mainThread_eq (hlow : kMainStackAddr ≤ kMain) : mainThread s kMain =
    ((((((s.store (Thread.pcb kMain) s.kPcb).store (Thread.stackAddr kMain) kMainStackAddr).store
      (Thread.esp kMain) (kMainStackAddr - 4)).store (kMainStackAddr - 4) kMain).store
      (Thread.tid kMain) 0).store (Thread.node kMain) 0).setTssEsp0 (kMainStackAddr - 4) := by
  have hnode : Thread.esp kMain ≠ Thread.node kMain := by
    simp only [Thread.esp, Thread.node]
    omega
  have htid : Thread.esp kMain ≠ Thread.tid kMain := by
    simp only [Thread.esp, Thread.tid]
    omega
  have htop : Thread.esp kMain ≠ kMainStackAddr - 4 := by
    simp only [Thread.esp]
    omega
  rw [mainThread, Scheduler.store_self, Scheduler.store_of_ne hnode, Scheduler.store_of_ne htid,
    Scheduler.store_of_ne htop, Scheduler.store_self]

theorem mainThread_of_ne (hlow : kMainStackAddr ≤ kMain) (htop : z ≠ kMainStackAddr - 4)
    (hz : z < kMain ∨ kMain + threadBytes ≤ z) : (mainThread s kMain).heap z = s.heap z := by
  simp only [threadBytes] at hz
  rw [mainThread_eq hlow, Scheduler.setTssEsp0_heap,
    Scheduler.store_of_ne (by simp only [Thread.node]; omega),
    Scheduler.store_of_ne (by simp only [Thread.tid]; omega), Scheduler.store_of_ne htop,
    Scheduler.store_of_ne (by simp only [Thread.esp]; omega),
    Scheduler.store_of_ne (by simp only [Thread.stackAddr]; omega),
    Scheduler.store_of_ne (by simp only [Thread.pcb]; omega)]

theorem mainThread_words (hlow : kMainStackAddr ≤ kMain) :
    (mainThread s kMain).heap (Thread.esp kMain) = kMainStackAddr - 4 ∧
      (mainThread s kMain).heap (Thread.stackAddr kMain) = kMainStackAddr ∧
      (mainThread s kMain).heap (kMainStackAddr - 4) = kMain := by
  have hpos : 0 < kMainStackAddr := by decide
  rw [mainThread_eq hlow, Scheduler.setTssEsp0_heap]
  refine ⟨?_, ?_, ?_⟩
  · rw [Scheduler.store_of_ne (by simp only [Thread.esp, Thread.node]; omega),
      Scheduler.store_of_ne (by simp only [Thread.esp, Thread.tid]; omega),
      Scheduler.store_of_ne (by simp only [Thread.esp]; omega), Scheduler.store_self]
  · rw [Scheduler.store_of_ne (by simp only [Thread.stackAddr, Thread.node]; omega),
      Scheduler.store_of_ne (by simp only [Thread.stackAddr, Thread.tid]; omega),
      Scheduler.store_of_ne (by simp only [Thread.stackAddr]; omega),
      Scheduler.store_of_ne (by simp only [Thread.stackAddr, Thread.esp]; omega), Scheduler.store_self]
  · rw [Scheduler.store_of_ne (by simp only [Thread.node]; omega),
      Scheduler.store_of_ne (by simp only [Thread.tid]; omega), Scheduler.store_self]

theorem mainThread_pcb (hlow : kMainStackAddr ≤ kMain) :
    (mainThread s kMain).heap (Thread.pcb kMain) = s.kPcb := by
  rw [mainThread_eq hlow, Scheduler.setTssEsp0_heap,
    Scheduler.store_of_ne (by simp only [Thread.pcb, Thread.node]; omega),
    Scheduler.store_of_ne (by simp only [Thread.pcb, Thread.tid]; omega),
    Scheduler.store_of_ne (by simp only [Thread.pcb]; omega),
    Scheduler.store_of_ne (by simp only [Thread.pcb, Thread.esp]; omega),
    Scheduler.store_of_ne (by simp only [Thread.pcb, Thread.stackAddr]; omega), Scheduler.store_self]

theorem mainThread_tss (hlow : kMainStackAddr ≤ kMain) : (mainThread s kMain).tssEsp0 = kMainStackAddr - 4 := by
  rw [mainThread_eq hlow]
  rfl

theorem mainThread_sameHeads (hlow : kMainStackAddr ≤ kMain)
    (h : (mainThread s kMain).heap s.waitThreadQueue = s.heap s.waitThreadQueue) :
    SameHeads s (mainThread s kMain) := by
  refine ⟨?_, ?_, ?_, h⟩ <;> rw [mainThread_eq hlow] <;> rfl

theorem mainThread_alloc (hlow : kMainStackAddr ≤ kMain) : (mainThread s kMain).alloc = s.alloc := by
  rw [mainThread_eq hlow]
  rfl

/-! ## The memory of the lists -/

def InitBlocks.areas (b : InitBlocks) : List (ℕ × ℕ) := b.addrs.zip sizes

def Piece.request (kMain : ℕ) : Piece → ℕ
  | freeHead => 1
  | waitHead => 2
  | queue => 3
  | blockHead => 4
  | thread t => if t = kMain then 5 else 0
  | pcb _ => 6
  | top _ => 7

structure InitHeads (b : InitBlocks) (s : Scheduler) : Prop where
  free : s.freeThreadList = b.free
  queue : s.waitThreadQueue = b.queue
  wait : s.heap b.queue = b.head
  block : s.blockThreadList = b.block

theorem InitHeads.area (h : InitHeads b s) {a : Piece} (ha : a.Listed b.threads P) (hpcb : ∀ p, a ≠ .pcb p) :
    ∃ x, b.areas[a.request b.kMain]? = some x ∧ x.1 ≤ a.base s ∧ a.base s + a.size ≤ x.1 + x.2 := by
  have hwait : s.heap s.waitThreadQueue = b.head := by rw [h.queue, h.wait]
  cases a with
  | freeHead => exact ⟨(b.free, 4), rfl, h.free.ge, (congrArg (· + 4) h.free).le⟩
  | waitHead => exact ⟨(b.head, 4), rfl, hwait.ge, (congrArg (· + 4) hwait).le⟩
  | queue => exact ⟨(b.queue, queueBytes), rfl, h.queue.ge, (congrArg (· + queueBytes) h.queue).le⟩
  | blockHead => exact ⟨(b.block, 4), rfl, h.block.ge, (congrArg (· + 4) h.block).le⟩
  | thread t =>
    by_cases ht : t = b.kMain
    · subst ht
      exact ⟨(b.kMain, threadBytes), by rw [Piece.request, if_pos rfl]; rfl, le_rfl, le_rfl⟩
    · obtain ⟨i, hi, rfl⟩ := ha.resolve_left ht
      refine ⟨(b.pool, kThreadPoolInitNum * threadBytes), by rw [Piece.request, if_neg ht]; rfl, ?_⟩
      simp only [Piece.base, Piece.size, kThreadPoolInitNum, threadBytes] at hi ⊢
      omega
  | pcb p => exact absurd rfl (hpcb p)
  | top t => exact ha.elim

theorem Piece.thread_of_request {a c : Piece} (ha : a.Listed T P) (hne : a ≠ c) (hpcb : ∀ p, a ≠ .pcb p)
    (he : a.request kMain = c.request kMain) :
    ∃ t t', a = .thread t ∧ c = .thread t' ∧ t ≠ kMain ∧ t' ≠ kMain := by
  cases a <;> cases c <;> grind [Piece.request, Piece.Listed]

theorem InitHeads.layout (h : InitHeads b s) (hstart : Started R P s₀)
    (hall : AllFresh s₀.alloc b.areas s.alloc) : Layout s b.threads P := by
  have hpcb : ∀ a : Piece, a.Listed b.threads P → (∀ p, a ≠ .pcb p) → ∀ p ∈ P,
      a.base s + a.size ≤ p ∨ p + pcbBytes ≤ a.base s := by
    intro a ha hother p hp
    obtain ⟨x, hx, hin⟩ := h.area ha hother
    exact (hall.old x (List.mem_of_getElem? hx) p pcbBytes (hstart.owned p hp)).symm.within hin ⟨le_rfl, le_rfl⟩
  refine ⟨fun a c ha hc hne => ?_, fun a ha => ?_⟩
  · by_cases hother : ∀ p, a ≠ .pcb p
    · by_cases hother' : ∀ p, c ≠ .pcb p
      · by_cases hreq : a.request b.kMain = c.request b.kMain
        · obtain ⟨t, t', rfl, rfl, ht, ht'⟩ := Piece.thread_of_request ha hne hother hreq
          obtain ⟨i, -, rfl⟩ := ha.resolve_left ht
          obtain ⟨j, -, rfl⟩ := hc.resolve_left ht'
          have hij : i ≠ j := fun he => hne (he ▸ rfl)
          simp only [Piece.base, Piece.size, threadBytes]
          omega
        · obtain ⟨x, hx, hin⟩ := h.area ha hother
          obtain ⟨y, hy, hin'⟩ := h.area hc hother'
          exact (separate_of_ne hall.apart hx hy hreq).within hin hin'
      · obtain ⟨p, rfl⟩ := not_forall_not.mp hother'
        exact hpcb a ha hother p hc
    · obtain ⟨p, rfl⟩ := not_forall_not.mp hother
      by_cases hother' : ∀ p, c ≠ .pcb p
      · exact (hpcb c hc hother' p ha).symm
      · obtain ⟨q, rfl⟩ := not_forall_not.mp hother'
        exact hstart.apart p ha q hc fun he => hne (he ▸ rfl)
  · by_cases hother : ∀ p, a ≠ .pcb p
    · obtain ⟨x, hx, hlow, hhigh⟩ := h.area ha hother
      exact (hall.owned x (List.mem_of_getElem? hx)).mono hlow hhigh
    · obtain ⟨p, rfl⟩ := not_forall_not.mp hother
      exact hall.kept p pcbBytes (hstart.owned p ha)

theorem InitBlocks.size_bounds : ∀ size ∈ sizes, 0 < size ∧ size ≤ 2 ^ 25 := by decide

/-- The lists that `ThreadInit` makes, before it comes to the current thread. -/
structure Arranged (R : ℕ) (P : Set ℕ) (b : InitBlocks) (s₀ s : Scheduler) : Prop where
  heap : s.heap = initHeap b s₀
  heads : InitHeads b s
  layout : Layout s b.threads P
  ready : Ready R s.alloc kThreadPoolInitNum
  main : ∀ i < kThreadPoolInitNum, b.pool + threadBytes * i ≠ b.kMain
  free : b.free + 4 ≤ b.pool ∨ b.pool + threadBytes * kThreadPoolInitNum ≤ b.free
  empty : ∀ p ∈ P, s₀.heap (Pcb.threadList p) = Pcb.threadList p

theorem Started.arranged (h : Started R P s₀) (hreq : reqAll s₀.alloc InitBlocks.sizes = .ok (b.addrs, alloc))
    (hgranted : 0 ∉ b.addrs) : Arranged R P b s₀ (initLists b s₀ alloc) := by
  obtain ⟨hall, hready⟩ := h.ready.reqAll InitBlocks.size_bounds hreq hgranted
  have hsep : ∀ {i j x y}, b.areas[i]? = some x → b.areas[j]? = some y → i ≠ j → Separate x y :=
    fun hi hj hij => separate_of_ne hall.apart hi hj hij
  have hqueue : Queue.head b.queue ≠ b.block := by
    have := hsep (i := 3) (j := 4) rfl rfl (by decide)
    simp only [Separate, queueBytes] at this
    simp only [Queue.head]
    omega
  have hheads : InitHeads b (initLists b s₀ alloc) := by
    refine ⟨rfl, rfl, ?_, rfl⟩
    simp only [initLists, initHeap]
    exact (Function.update_of_ne hqueue ..).trans
      ((Function.update_of_ne (Queue.head_ne_tail _) ..).trans (Function.update_self ..))
  refine ⟨rfl, hheads, hheads.layout h hall, hready, fun i hi he => ?_, ?_, h.empty⟩
  · have := hsep (i := 0) (j := 5) rfl rfl (by decide)
    simp only [Separate, kThreadPoolInitNum, threadBytes] at this hi he
    omega
  · have := hsep (i := 1) (j := 0) rfl rfl (by decide)
    simp only [Separate, kThreadPoolInitNum, threadBytes] at this ⊢
    omega

section Arranged
variable (h : Arranged R P b s₀ s)
include h

theorem Arranged.kMain_ge : kMainStackAddr ≤ b.kMain := by
  have hlow := (h.layout.bounds h.ready.inv (a := .thread b.kMain) (Or.inl rfl)).1
  simp only [Piece.base, kKVirtualAddr, kMainStackAddr] at hlow ⊢
  omega

theorem Arranged.mainThread_word {a : Piece} {o : ℕ} (ha : a.Listed b.threads P) (ho : o < a.size)
    (hmain : a ≠ .thread b.kMain) :
    (mainThread s b.kMain).heap (a.base s + o) = s.heap (a.base s + o) := by
  have hlow := (h.layout.bounds h.ready.inv ha).1
  have hsep : a.base s + a.size ≤ b.kMain ∨ b.kMain + threadBytes ≤ a.base s :=
    h.layout.apart a (.thread b.kMain) ha (Or.inl rfl) hmain
  refine mainThread_of_ne h.kMain_ge ?_ ?_
  · simp only [kKVirtualAddr, kMainStackAddr] at hlow ⊢
    omega
  · omega

theorem Arranged.sameHeads : SameHeads s (mainThread s b.kMain) :=
  mainThread_sameHeads h.kMain_ge (h.mainThread_word (a := .queue) (o := 0) trivial (by decide) (by simp))

theorem Arranged.word_pool {a : Piece} {o : ℕ} (ha : a.Listed b.threads P) (ho : o < a.size)
    (hlist : a ≠ .waitHead ∧ a ≠ .queue ∧ a ≠ .blockHead) : s.heap (a.base s + o) =
      (linkPool ((s₀.store b.free b.free).setFree b.free) b.pool kThreadPoolInitNum).heap (a.base s + o) := by
  have hblock : a.base s + o ≠ b.block := by
    rw [← h.heads.block]
    exact h.layout.apart.word_ne (b := Piece.blockHead) (k := 0) ha trivial hlist.2.2 ho (by decide)
  have hhead : a.base s + o ≠ b.head := by
    rw [← h.heads.wait, ← h.heads.queue]
    exact h.layout.apart.word_ne (b := Piece.waitHead) (k := 0) ha trivial hlist.1 ho (by decide)
  have hqh : a.base s + o ≠ Queue.head b.queue := by
    rw [← h.heads.queue]
    exact h.layout.apart.word_ne (b := Piece.queue) (k := 0) ha trivial hlist.2.1 ho (by decide)
  have hqt : a.base s + o ≠ Queue.tail b.queue := by
    rw [← h.heads.queue]
    exact h.layout.apart.word_ne (b := Piece.queue) (k := 4) ha trivial hlist.2.1 ho (by decide)
  nth_rewrite 1 [h.heap]
  simp only [initHeap]
  rw [Function.update_of_ne hblock, Function.update_of_ne hqt, Function.update_of_ne hqh,
    Function.update_of_ne hhead]

theorem Arranged.new_words : s.heap b.head = b.head ∧ s.heap (Queue.tail b.queue) = b.head ∧
    s.heap b.block = b.block := by
  have hwait : s.heap s.waitThreadQueue = b.head := by rw [h.heads.queue, h.heads.wait]
  have hhb : b.head ≠ b.block := by
    rw [← hwait, ← h.heads.block]
    exact h.layout.apart.word_ne (a := Piece.waitHead) (b := Piece.blockHead) (o := 0) (k := 0) trivial trivial
      (by simp)
      (by decide) (by decide)
  have hqueue : ∀ o < 8, b.queue + o ≠ b.head ∧ b.queue + o ≠ b.block := by
    intro o ho
    rw [← hwait, ← h.heads.block, ← h.heads.queue]
    constructor
    · exact h.layout.apart.word_ne (a := Piece.queue) (b := Piece.waitHead) (k := 0) trivial trivial (by simp) ho
        (by decide)
    · exact h.layout.apart.word_ne (a := Piece.queue) (b := Piece.blockHead) (k := 0) trivial trivial (by simp) ho
        (by decide)
  have hhead : b.head ≠ Queue.head b.queue := (hqueue 0 (by decide)).1.symm
  have htail : b.head ≠ Queue.tail b.queue := (hqueue 4 (by decide)).1.symm
  have htail' : Queue.tail b.queue ≠ b.block := (hqueue 4 (by decide)).2
  simp only [h.heap, initHeap]
  refine ⟨?_, ?_, Function.update_self ..⟩
  · rw [Function.update_of_ne hhb, Function.update_of_ne htail, Function.update_of_ne hhead,
      Function.update_self]
  · rw [Function.update_of_ne htail', Function.update_self]

theorem Arranged.linkPool_spec :
    Seg (linkPool ((s₀.store b.free b.free).setFree b.free) b.pool kThreadPoolInitNum).heap b.free
        (poolNodes b.pool kThreadPoolInitNum) b.free ∧
      ∀ p ∈ P, ∀ o < pcbBytes, (linkPool ((s₀.store b.free b.free).setFree b.free) b.pool
        kThreadPoolInitNum).heap (p + o) = s₀.heap (p + o) := by
  have hthread : ∀ i < kThreadPoolInitNum, (Piece.thread (b.pool + threadBytes * i)).Listed b.threads P :=
    fun i hi => Or.inr ⟨i, hi, rfl⟩
  have hlast := (h.layout.bounds h.ready.inv (hthread (kThreadPoolInitNum - 1) (by decide))).2
  have hsmall : b.pool + threadBytes * kThreadPoolInitNum < 2 ^ 32 := hlast
  obtain ⟨hseg, hsame⟩ := Scheduling.linkPool_spec (s := (s₀.store b.free b.free).setFree b.free)
    (Scheduler.store_self ..) hsmall (by have := h.free; rw [Scheduler.setFree_freeThreadList]; omega)
  refine ⟨hseg, fun p hp o ho => ?_⟩
  have hfree : p + o ≠ b.free := by
    rw [← h.heads.free]
    exact h.layout.apart.word_ne (a := Piece.pcb p) (b := Piece.freeHead) (k := 0) hp trivial (by simp) ho (by decide)
  have hpool : p + o < b.pool ∨ b.pool + threadBytes * kThreadPoolInitNum ≤ p + o := by
    by_contra hin
    obtain ⟨i, o', hi, ho', he⟩ : ∃ i o', i < kThreadPoolInitNum ∧ o' < 24 ∧
        p + o = b.pool + threadBytes * i + o' := by
      refine ⟨(p + o - b.pool) / 24, (p + o - b.pool) % 24, ?_, ?_, ?_⟩ <;>
        simp only [kThreadPoolInitNum, threadBytes] at hin ⊢ <;> omega
    exact h.layout.apart.word_ne (a := Piece.pcb p) (b := Piece.thread _) hp (hthread i hi) (by simp) ho ho' he
  rw [hsame _ hfree hpool, Scheduler.setFree_heap, Scheduler.store_of_ne hfree]

theorem Arranged.pcb_word {p o : ℕ} (hp : p ∈ P) (ho : o < pcbBytes) : s.heap (p + o) = s₀.heap (p + o) :=
  (h.word_pool (a := .pcb p) hp ho ⟨(by simp), (by simp), (by simp)⟩).trans (h.linkPool_spec.2 p hp o ho)

end Arranged

def firstLists (b : InitBlocks) : ThreadSlot → List ℕ
  | .free => poolNodes b.pool kThreadPoolInitNum
  | _ => []

def Piece.slot : Piece → ThreadSlot
  | waitHead => .wait
  | blockHead => .block
  | pcb p => .threads p
  | _ => .free

section First
variable (h : Arranged R P b s₀ s)
include h

theorem Arranged.piece_of_mem {i : ThreadSlot} (hi : i ∈ threadSlots P)
    (hz : z ∈ threadHead (mainThread s b.kMain) i :: firstLists b i) :
    ∃ a : Piece, a.Listed b.threads P ∧ a ≠ .queue ∧ a ≠ .thread b.kMain ∧ a.slot = i ∧ z = a.base s + a.link := by
  rw [h.sameHeads.threadHead_eq] at hz
  cases i with
  | free =>
    rcases List.mem_cons.mp hz with rfl | hz
    · exact ⟨.freeHead, trivial, (by simp), (by simp), rfl, rfl⟩
    · obtain ⟨j, hj, rfl⟩ := mem_poolNodes.mp hz
      exact ⟨.thread (b.pool + threadBytes * j), Or.inr ⟨j, hj, rfl⟩, (by simp),
        fun he => h.main j hj (Piece.thread.inj he), rfl, rfl⟩
  | wait => exact ⟨.waitHead, trivial, (by simp), (by simp), rfl, List.mem_singleton.mp hz⟩
  | block => exact ⟨.blockHead, trivial, (by simp), (by simp), rfl, List.mem_singleton.mp hz⟩
  | threads p => exact ⟨.pcb p, hi p rfl, (by simp), (by simp), rfl, List.mem_singleton.mp hz⟩

theorem Arranged.first_word {i : ThreadSlot} (hi : i ∈ threadSlots P)
    (hz : z ∈ threadHead (mainThread s b.kMain) i :: firstLists b i) :
    (mainThread s b.kMain).heap z = s.heap z := by
  obtain ⟨a, ha, -, hmain, -, rfl⟩ := h.piece_of_mem hi hz
  exact h.mainThread_word ha a.link_lt hmain

theorem Arranged.loose_queue {o : ℕ} (ho : o < queueBytes) :
    Loose (threadSlots P) (threadHead (mainThread s b.kMain)) (firstLists b) (s.waitThreadQueue + o) := by
  intro i hi hz
  obtain ⟨a, ha, hqueue, -, -, he⟩ := h.piece_of_mem hi hz
  exact hqueue (h.layout.apart.word_inj (a := Piece.queue) trivial ha ho a.link_lt he).1.symm

theorem Arranged.rings : Family (mainThread s b.kMain).heap (threadSlots P)
    (threadHead (mainThread s b.kMain)) (threadHead (mainThread s b.kMain)) (firstLists b) := by
  have hseg := h.linkPool_spec.1
  refine ⟨fun i hi => ?_, fun i hi => ?_, fun i hi j hj z hz hz' => ?_⟩
  · suffices hold : Seg s.heap (threadHead (mainThread s b.kMain) i) (firstLists b i)
        (threadHead (mainThread s b.kMain) i) from hold.congr fun z hz => h.first_word hi hz
    rw [h.sameHeads.threadHead_eq]
    have hwait : s.heap s.waitThreadQueue = b.head := by rw [h.heads.queue, h.heads.wait]
    cases i with
    | free =>
      rw [show threadHead s .free = b.free from h.heads.free]
      refine hseg.congr fun z hz => ?_
      rw [← show threadHead s .free = b.free from h.heads.free, ← h.sameHeads.threadHead_eq] at hz
      obtain ⟨a, ha, hqueue, -, hslot, rfl⟩ := h.piece_of_mem hi hz
      refine h.word_pool ha a.link_lt ⟨?_, hqueue, ?_⟩ <;> rintro rfl <;> cases hslot
    | wait =>
      rw [threadHead, hwait]
      exact h.new_words.1
    | block =>
      rw [threadHead, h.heads.block]
      exact h.new_words.2.2
    | threads p =>
      exact (h.pcb_word (hi p rfl) (show 44 < 48 by decide)).trans (h.empty p (hi p rfl))
  · cases i with
    | free =>
      refine List.nodup_cons.mpr ⟨fun hmem => ?_, nodup_poolNodes ..⟩
      obtain ⟨hge, hlt⟩ := poolNodes_bounds hmem
      rw [h.sameHeads.threadHead_eq, threadHead, h.heads.free] at hge hlt
      have := h.free
      omega
    | wait => exact List.nodup_singleton _
    | block => exact List.nodup_singleton _
    | threads p => exact List.nodup_singleton _
  · obtain ⟨a, ha, -, -, rfl, rfl⟩ := h.piece_of_mem hi hz
    obtain ⟨c, hc, -, -, rfl, he⟩ := h.piece_of_mem hj hz'
    rw [(h.layout.apart.word_inj ha hc a.link_lt c.link_lt he).1]

theorem Arranged.lists : ThreadLists (mainThread s b.kMain) P (firstLists b) where
  rings := h.rings
  tail := by
    have htail := h.mainThread_word (a := .queue) (o := 4) trivial (by decide) (by simp)
    rw [h.sameHeads.queue, h.sameHeads.wait, h.heads.queue, h.heads.wait, ← h.new_words.2.1]
    rw [Piece.base, h.heads.queue] at htail
    exact htail
  head_loose := by
    rw [h.sameHeads.queue]
    exact h.loose_queue (o := 0) (by decide)
  tail_loose := by
    rw [h.sameHeads.queue]
    exact h.loose_queue (o := 4) (by decide)

theorem Arranged.main_notMem (i : ThreadSlot) : Thread.node b.kMain ∉ firstLists b i := by
  intro hn
  cases i with
  | free =>
    obtain ⟨j, hj, he⟩ := mem_poolNodes.mp hn
    exact h.main j hj (Nat.add_right_cancel he).symm
  | _ => exact absurd hn List.not_mem_nil

theorem Arranged.placed : Placed R b.threads P b.kMain (mainThread s b.kMain) (firstLists b) := by
  obtain ⟨-, hstack, htop⟩ := mainThread_words (s := s) h.kMain_ge
  refine ⟨?_, ?_, h.lists, fun i hi n hn => ?_, fun t ht htm => Or.inl ?_, Or.inl rfl,
    fun i _ hn => absurd hn (h.main_notMem i), mainThread_tss h.kMain_ge, htop, hstack⟩
  · rw [mainThread_alloc h.kMain_ge, firstLists, length_poolNodes]
    exact h.ready
  · exact h.layout.congr h.sameHeads (by rw [mainThread_alloc h.kMain_ge]; exact fun _ _ ho => ho)
  · cases i with
    | free =>
      obtain ⟨j, hj, rfl⟩ := mem_poolNodes.mp hn
      exact ⟨_, Or.inr ⟨j, hj, rfl⟩, rfl⟩
    | _ => exact absurd hn List.not_mem_nil
  · obtain ⟨j, hj, rfl⟩ := ht.resolve_left htm
    exact mem_poolNodes.mpr ⟨j, hj, rfl⟩

theorem Arranged.allPlaced : AllPlaced R b.threads P b.kMain (mainThread s b.kMain) :=
  ⟨firstLists b, h.placed, fun _ => (mainThread_words h.kMain_ge).1⟩

theorem Arranged.unlinked :
    Unlinked (mainThread s b.kMain) P (Thread.node (getCurThread (mainThread s b.kMain).toKernel)) := by
  intro i hi
  rw [h.placed.getCurThread_eq, h.placed.listNodes_eq hi]
  exact h.main_notMem i

end First

/-! ## A boot -/

def bootThreads (alloc : Allocator) (kPcb : ℕ) : Scheduler where
  mem := fun _ => 0
  heap := Function.update (fun _ => 0) (Pcb.threadList kPcb) (Pcb.threadList kPcb)
  alloc := alloc
  avlMem := []
  pageState := fun _ => 0
  cr2 := 0
  cr3 := 0x1000
  freeProcList := 0
  freeThreadList := 0
  tssEsp0 := 0
  log := []
  kPcb := kPcb
  waitThreadQueue := 0
  blockThreadList := 0
  esp := 0xbb00
  timer := kTimerReset

theorem InitBlocks.exists_addrs : ∀ {as : List ℕ}, as.length = 6 → ∃ b : InitBlocks, as = b.addrs
  | [pool, free, head, queue, block, kMain], _ => ⟨⟨pool, free, head, queue, block, kMain⟩, rfl⟩

theorem exists_started {alloc₀ : Allocator} {ls : Slot → List ℕ} (h : Carved 20 alloc₀ ls 0) :
    ∃ kPcb alloc₁ b alloc,
      (∃ pcbs list, reqAll alloc₀ [16 * pcbBytes, 4, pcbBytes] = .ok ([pcbs, list, kPcb], alloc₁)) ∧
      Started (2 ^ 20) {kPcb} (bootThreads alloc₁ kPcb) ∧
      reqAll alloc₁ InitBlocks.sizes = .ok (InitBlocks.addrs b, alloc) ∧ 0 ∉ b.addrs := by
  obtain ⟨hready, hpages⟩ := ready_megabyte h
  have hready₁ := hready.mono (show [16 * pcbBytes, 4, pcbBytes].length +
    (InitBlocks.sizes.length + kThreadPoolInitNum) ≤ 256 by decide)
  obtain ⟨as, alloc₁, hreq, hgranted, hle⟩ := hready₁.reqAll_granted (by decide)
    (le_trans (by decide) hpages)
  obtain ⟨pcbs, list, kPcb, rfl⟩ := List.length_eq_three.mp (length_reqAll hreq)
  obtain ⟨hall, hready₂⟩ := hready₁.reqAll (by decide) hreq hgranted
  rw [List.length_cons, List.length_cons, List.length_singleton] at hle
  obtain ⟨as, alloc, hreq', hgranted', -⟩ := hready₂.reqAll_granted (by decide) (show 6 ≤ _ by omega)
  obtain ⟨b, rfl⟩ := InitBlocks.exists_addrs (length_reqAll hreq')
  refine ⟨kPcb, alloc₁, b, alloc, ⟨pcbs, list, hreq⟩, ⟨hready₂, ?_, ?_, ?_⟩, hreq', hgranted'⟩
  · rintro p rfl
    exact hall.owned (p, pcbBytes) (by simp)
  · rintro p rfl q rfl hne
    exact absurd rfl hne
  · rintro p rfl
    exact Function.update_self (Pcb.threadList p) (Pcb.threadList p) fun _ => 0

theorem Arranged.boot_pid {kPcb : ℕ} (h : Arranged R {kPcb} b (bootThreads alloc kPcb) s) :
    (mainThread s b.kMain).heap (Pcb.pid kPcb) = 0 :=
  calc (mainThread s b.kMain).heap (Pcb.pid kPcb)
      = s.heap (kPcb + 0) := h.mainThread_word (a := .pcb kPcb) rfl (show 0 < 48 by decide) (by simp)
    _ = (bootThreads alloc kPcb).heap (kPcb + 0) := h.pcb_word rfl (by decide)
    _ = 0 := by simp [bootThreads, Pcb.threadList]

/-! ## Runs -/

theorem AllPlaced.onePlace (h : AllPlaced R T P kMain s) : OnePlace s P := by
  obtain ⟨ls, hplaced, -⟩ := h
  exact ⟨ls, hplaced.lists.rings⟩

theorem Started.allPlaced (h : Started R P s₀) (hreq : reqAll s₀.alloc InitBlocks.sizes = .ok (b.addrs, alloc))
    (hgranted : 0 ∉ b.addrs) (hinit : threadInit s₀ = .ok s) : AllPlaced R b.threads P b.kMain s := by
  obtain rfl := Except.ok.inj ((threadInit_eq hreq hgranted).symm.trans hinit)
  exact (h.arranged hreq hgranted).allPlaced

/-- After `ThreadInit`, while no linked node is linked again, each node is in at most
one list and all lists are rings. -/
theorem one_place (R : ℕ) (P : Set ℕ) (s₀ s : Scheduler) (b : InitBlocks) (alloc : Allocator)
    (hstart : Started R P s₀) (hreq : reqAll s₀.alloc InitBlocks.sizes = .ok (b.addrs, alloc))
    (hgranted : 0 ∉ b.addrs) (hinit : threadInit s₀ = .ok s) (ops : List ThreadOp)
    (hops : Along threadExec (LinksLoose b.threads P) s ops) :
    ∃ s', run threadExec s ops = .ok s' ∧ OnePlace s' P := by
  have hplaced := hstart.allPlaced hreq hgranted hinit
  obtain ⟨s', hrun, hplaced'⟩ : ∃ s', run threadExec s ops = .ok s' ∧ AllPlaced R b.threads P b.kMain s' :=
    run_returns (fun _ _ h hop => h.exec hop) hplaced hops
  exact ⟨s', hrun, hplaced'.onePlace⟩

theorem one_place_boot : ∃ alloc₀ kPcb alloc₁ b s s', directMappingInit 0x100000 .zero = .ok alloc₀ ∧
    (∃ pcbs list, reqAll alloc₀ [16 * pcbBytes, 4, pcbBytes] = .ok ([pcbs, list, kPcb], alloc₁)) ∧
    threadInit (bootThreads alloc₁ kPcb) = .ok s ∧ InitBlocks.kMain b = getCurThread s.toKernel ∧
    run threadExec s [.sleep, .wake b.kMain, .switch, .create kPcb] = .ok s' ∧ OnePlace s' {kPcb} := by
  obtain ⟨alloc₀, ls, hboot, hcarved⟩ := init_megabyte
  obtain ⟨kPcb, alloc₁, b, alloc, hproc, hstart, hreq, hgranted⟩ := exists_started hcarved
  have hinit := threadInit_eq (s := bootThreads alloc₁ kPcb) hreq hgranted
  have harranged := hstart.arranged hreq hgranted
  obtain ⟨s', hrun, hone⟩ := one_place (2 ^ 20) {kPcb} _ _ b alloc hstart hreq hgranted hinit
    [.sleep, .wake b.kMain, .switch, .create kPcb]
    ⟨harranged.unlinked, fun _ _ => ⟨Or.inl rfl, fun _ _ => ⟨trivial, fun _ _ => ⟨rfl, fun _ _ => trivial⟩⟩⟩⟩
  exact ⟨alloc₀, kPcb, alloc₁, b, _, s', hboot, hproc, hinit, harranged.placed.getCurThread_eq.symm, hrun, hone⟩

/-! ## A thread in two lists -/

theorem not_onePlace {p : ℕ} (hp : p ∈ P)
    (hnext : s.heap (Pcb.threadList p) = s.heap (s.heap s.waitThreadQueue)) : ¬ OnePlace s P := by
  rintro ⟨ls, hrings⟩
  have hmem : ∀ i ∈ threadSlots P, s.heap (threadHead s i) ∈ threadHead s i :: ls i := by
    intro i hi
    rcases (hrings.seg i hi).next_mem List.mem_cons_self with hin | he
    · exact List.mem_cons_of_mem _ hin
    · rw [he]
      exact List.mem_cons_self
  have hthreads := hmem (.threads p) (threads_mem_threadSlots hp)
  rw [threadHead, hnext] at hthreads
  exact ThreadSlot.noConfusion (hrings.apart _ (threads_mem_threadSlots hp) .wait (wait_mem_threadSlots P) _
    hthreads (hmem .wait (wait_mem_threadSlots P)))

section Twice
variable {ls : ThreadSlot → List ℕ} {x e : ℕ}

theorem Placed.prepareStack_word (h : Placed R T P kMain s ls) (hx : x ∈ T)
    (hesp : s.heap (Thread.esp x) = e) (h20 : 20 ≤ e) (hlt : e < 2 ^ 32)
    (hfar : ∀ a : Piece, a.Listed T P → e < a.base s ∨ a.base s + a.size ≤ e - 20) (startFunc : ℕ)
    {a : Piece} {o : ℕ} (ha : a.Listed T P) (ho : o < a.size) (hne : a = .thread x → o ≠ 12) :
    (Scheduling.prepareStack s x startFunc).heap (a.base s + o) = s.heap (a.base s + o) := by
  refine prepareStack_of_ne hesp h20 hlt ?_ (fun he => ?_) ?_
  · have : e < x ∨ x + 24 ≤ e - 20 := hfar (.thread x) hx
    simp only [Thread.esp]
    omega
  · obtain ⟨rfl, rfl⟩ := h.layout.apart.word_inj (b := Piece.thread x) ha hx ho (show 12 < 24 by decide) he
    exact hne rfl rfl
  · have := hfar a ha
    omega

theorem Placed.run_next (h : Placed R T P kMain s ls) (hx : x ∈ T) (hwait : ls .wait = [])
    (hesp : s.heap (Thread.esp x) = e) (h20 : 20 ≤ e) (hlt : e < 2 ^ 32)
    (hfar : ∀ a : Piece, a.Listed T P → e < a.base s ∨ a.base s + a.size ≤ e - 20)
    (hpid : s.heap (Pcb.pid (s.heap (Thread.pcb x))) = 0) (startFunc : ℕ) {p : ℕ} (hp : p ∈ P)
    (hthreads : s.heap (Pcb.threadList p) = Thread.node x) :
    ¬ OnePlace (kThreadRun s x startFunc) P := by
  have hword : ∀ {a : Piece} {o : ℕ}, a.Listed T P → o < a.size → (a = .thread x → o ≠ 12) → _ :=
    h.prepareStack_word hx hesp h20 hlt hfar startFunc
  have hkept : ∀ z ∈ queueWords s.heap s.waitThreadQueue [],
      (Scheduling.prepareStack s x startFunc).heap z = s.heap z := by
    intro z hz
    simp only [queueWords, List.mem_cons, List.not_mem_nil, or_false] at hz
    rcases hz with rfl | rfl | rfl
    · exact hword (a := .queue) (o := 0) trivial (by decide) (by simp)
    · exact hword (a := .queue) (o := 4) trivial (by decide) (by simp)
    · exact hword (a := .waitHead) (o := 0) trivial (by decide) (by simp)
  have hqueue := h.lists.isQueue
  rw [hwait] at hqueue
  have hprepared := hqueue.congr hkept
  have hhead := hkept _ (List.mem_cons_self ..)
  have hlinked := hprepared.enqueue (n := Thread.node x) (by
    simp only [queueWords, hhead, List.mem_cons, List.not_mem_nil, or_false, not_or]
    exact ⟨(h.node_ne hx).1, (h.node_ne hx).2,
      h.layout.apart.word_ne (a := Piece.thread x) (b := Piece.waitHead) (k := 0) hx trivial (by simp)
        (show 16 < 24 by decide)
        (by decide)⟩)
  have hfirst : XyOS.enqueue (Scheduling.prepareStack s x startFunc).heap s.waitThreadQueue (Thread.node x)
      (Pcb.threadList p) = Thread.node x := by
    rw [enqueue_of_ne hprepared, ← hthreads]
    · exact hword (a := .pcb p) hp (show 44 < 48 by decide) (by simp)
    · exact h.layout.apart.word_ne (a := Piece.pcb p) (b := Piece.queue) hp trivial (by simp) (show 44 < 48 by decide)
        (show 4 < 8 by decide)
    · exact h.layout.apart.word_ne (a := Piece.pcb p) (b := Piece.thread x) hp hx (by simp) (show 44 < 48 by decide)
        (show 16 < 24 by decide)
    · rw [List.mem_singleton, hhead]
      exact h.layout.apart.word_ne (a := Piece.pcb p) (b := Piece.waitHead) (k := 0) hp trivial (by simp)
        (show 44 < 48 by decide) (by decide)
  have hrun : kThreadRun s x startFunc = (Scheduling.prepareStack s x startFunc).setHeap
      (XyOS.enqueue (Scheduling.prepareStack s x startFunc).heap s.waitThreadQueue (Thread.node x)) :=
    if_pos hpid
  have hqueue' : (Scheduling.prepareStack s x startFunc).waitThreadQueue = s.waitThreadQueue := by
    rw [prepareStack_eq, Scheduler.setHeap_waitThreadQueue]
  rw [hrun]
  refine not_onePlace hp ?_
  rw [Scheduler.setHeap_heap, Scheduler.setHeap_waitThreadQueue, hqueue', hfirst]
  exact hlinked.ring.1.symm

theorem Placed.created_run (h : Placed R T P kMain s ls) {rest : List ℕ}
    (hfree : ls .free = Thread.node x :: rest) (hx : x ∈ T) (hwait : ls .wait = []) {p : ℕ} (hp : p ∈ P)
    (hpid : s.heap (Pcb.pid p) = 0) (startFunc : ℕ) :
    ∃ s', run threadExec s [.create p, .run x startFunc] = .ok s' ∧ ¬ OnePlace s' P := by
  obtain ⟨stack, alloc, hcreate, hready, howned, hmain, hlt, h20, hfar⟩ := h.createThread hfree hx p
  have hweak : ∀ a : Piece, a.Listed T P → newTop stack < a.base s ∨ a.base s + a.size ≤ newTop stack :=
    fun a ha => (hfar a ha).imp_right fun hle => hle.trans (Nat.sub_le ..)
  have hplaced := h.created hfree hx hp hready howned hmain hweak
  obtain ⟨-, hsame⟩ := h.created_lists alloc hfree hx hp hweak
  obtain ⟨-, hpcb, hesp, -⟩ := h.layout.created_new alloc hx hp hweak
  have hpid₁ : (Scheduling.created s x stack p alloc).heap (Pcb.pid p) = 0 := by
    have hne : ∀ o < 24, p + 0 ≠ x + o := fun o ho =>
      h.layout.apart.word_ne (a := Piece.pcb p) (b := Piece.thread x) hp hx (by simp) (show 0 < 48 by decide) ho
    rw [← hpid]
    refine h.created_word hfree hp (h.loose_word (a := .pcb p) (o := 0) hp (show 0 < 48 by decide)
      (Or.inr (show 0 ≠ 44 by decide))) (hne 4 (by decide)) (hne 8 (by decide)) (hne 12 (by decide)) ?_
    have : newTop stack < p ∨ p + 48 ≤ newTop stack := hweak (.pcb p) hp
    simp only [Pcb.pid]
    omega
  generalize Scheduling.created s x stack p alloc = s₁ at hcreate hplaced hsame hpcb hesp hpid₁
  refine ⟨kThreadRun s₁ x startFunc, (run_cons (bind_ok hcreate _)).trans (run_cons rfl), ?_⟩
  refine hplaced.run_next hx ?_ hesp h20 hlt (fun a ha => ?_) ?_ startFunc hp ?_
  · rw [Function.update_of_ne (by simp), Function.update_of_ne (by simp), hwait]
  · rw [hsame.base_eq ha]
    exact hfar a ha
  · rw [hpcb, hpid₁]
  · exact hplaced.lists.rings.next_head (threads_mem_threadSlots hp) (Function.update_self ..)

end Twice

theorem thread_in_two_lists : ∃ alloc₀ kPcb alloc₁ s x s', directMappingInit 0x100000 .zero = .ok alloc₀ ∧
    (∃ pcbs list, reqAll alloc₀ [16 * pcbBytes, 4, pcbBytes] = .ok ([pcbs, list, kPcb], alloc₁)) ∧
    threadInit (bootThreads alloc₁ kPcb) = .ok s ∧ (∃ s₁, createThread s kPcb = .ok (x, s₁)) ∧
    run threadExec s [.create kPcb, .run x 0x101000] = .ok s' ∧ ¬ OnePlace s' {kPcb} := by
  obtain ⟨alloc₀, ls, hboot, hcarved⟩ := init_megabyte
  obtain ⟨kPcb, alloc₁, b, alloc, hproc, hstart, hreq, hgranted⟩ := exists_started hcarved
  have hinit := threadInit_eq (s := bootThreads alloc₁ kPcb) hreq hgranted
  have harranged := hstart.arranged hreq hgranted
  have hx : b.pool + threadBytes * 127 ∈ b.threads := Or.inr ⟨127, by decide, rfl⟩
  have hfree : firstLists b .free = Thread.node (b.pool + threadBytes * 127) :: poolNodes b.pool 127 := rfl
  obtain ⟨stack, alloc', hcreate, -⟩ := harranged.placed.createThread hfree hx kPcb
  obtain ⟨s', hrun, htwice⟩ := harranged.placed.created_run hfree hx rfl rfl harranged.boot_pid 0x101000
  exact ⟨alloc₀, kPcb, alloc₁, _, _, s', hboot, hproc, hinit, ⟨_, hcreate⟩, hrun, htwice⟩

end XyOS.Scheduling
