import XyOS.Memory.DirectMappingOwned
import XyOS.Foundation.Runs
import XyOS.Thread.ThreadLists

/-! Where a thread is. `CreateThread` links the member `node` into the list of the
process, and `KThreadRun`, `ThreadSwitch` and `ThreadSleep` link the same member into
the queue and the block list without taking it out. -/

namespace XyOS.Scheduling
open Linked Runs Process DirectMapping

inductive ThreadOp
  | create (pcb : ℕ)
  | run (thread startFunc : ℕ)
  | switch
  | sleep
  | wake (thread : ℕ)

def threadExec (s : Scheduler) : ThreadOp → Except Fault Scheduler
  | .create pcb => do
    let (_, s) ← createThread s pcb
    .ok s
  | .run thread startFunc => .ok (kThreadRun s thread startFunc)
  | .switch => .ok (threadSwitch s)
  | .sleep => .ok (threadSleep s)
  | .wake thread => threadWake s thread

def Unlinked (s : Scheduler) (P : Set ℕ) (n : ℕ) : Prop :=
  ∀ i ∈ threadSlots P, n ∉ listNodes s.heap (threadHead s i)

/-- An operation on a thread in `T` or a process in `P`, in a state in which the node
that `KThreadRun` or `ThreadSleep` links is in no list. -/
def LinksLoose (T P : Set ℕ) (s : Scheduler) : ThreadOp → Prop
  | .create pcb => pcb ∈ P
  | .run thread _ => thread ∈ T ∧
      (s.heap (Pcb.pid (s.heap (Thread.pcb thread))) = 0 → Unlinked s P (Thread.node thread))
  | .switch => True
  | .sleep => Unlinked s P (Thread.node (getCurThread s.toKernel))
  | .wake thread => thread ∈ T

/-! ## The memory of the lists -/

namespace Piece

/-- The pieces that the lists of threads are in. -/
def Listed (T P : Set ℕ) : Piece → Prop
  | thread t => t ∈ T
  | pcb p => p ∈ P
  | top _ => False
  | _ => True

def link : Piece → ℕ
  | thread _ => 16
  | pcb _ => 44
  | _ => 0

theorem link_lt (a : Piece) : a.link < a.size := by
  cases a <;> simp [link, size, queueBytes, threadBytes, pcbBytes]

end Piece

structure Layout (s : Scheduler) (T P : Set ℕ) : Prop where
  apart : Regions.Apart (Piece.base s) Piece.size (Piece.Listed T P)
  owned : ∀ a : Piece, a.Listed T P → Owned s.alloc (a.base s) a.size

/-- The threads in `T` but `kMain` are free or in the list of a process; `kMain` is the
current thread, and in the queue, in the block list or in no list. -/
structure Placed (R : ℕ) (T P : Set ℕ) (kMain : ℕ) (s : Scheduler) (ls : ThreadSlot → List ℕ) : Prop where
  ready : Ready R s.alloc (ls .free).length
  layout : Layout s T P
  lists : ThreadLists s P ls
  nodes : ∀ i ∈ threadSlots P, ∀ n ∈ ls i, ∃ t ∈ T, n = Thread.node t
  others : ∀ t ∈ T, t ≠ kMain → Thread.node t ∈ ls .free ∨ ∃ p ∈ P, Thread.node t ∈ ls (.threads p)
  mem : kMain ∈ T
  away : ∀ i ∈ threadSlots P, Thread.node kMain ∈ ls i → i = .wait ∨ i = .block
  current : s.tssEsp0 = kMainStackAddr - 4
  top : s.heap (kMainStackAddr - 4) = kMain
  stack : s.heap (Thread.stackAddr kMain) = kMainStackAddr

/-- Until `kMain` is in the queue for the first time, its stack pointer is at the top. -/
def AllPlaced (R : ℕ) (T P : Set ℕ) (kMain : ℕ) (s : Scheduler) : Prop :=
  ∃ ls, Placed R T P kMain s ls ∧
    (Thread.node kMain ∉ ls .wait → s.heap (Thread.esp kMain) = kMainStackAddr - 4)

variable {R kMain t z : ℕ} {T P : Set ℕ} {s s' : Scheduler} {ls : ThreadSlot → List ℕ}

theorem SameHeads.base_eq (hs : SameHeads s s') {a : Piece} (ha : a.Listed T P) : a.base s' = a.base s := by
  cases a with
  | freeHead => exact hs.free
  | queue => exact hs.queue
  | waitHead => rw [Piece.base, hs.queue, hs.wait, Piece.base]
  | blockHead => exact hs.block
  | thread t => rfl
  | pcb p => rfl
  | top t => exact ha.elim

theorem Layout.congr (h : Layout s T P) (hs : SameHeads s s')
    (halloc : ∀ b n, Owned s.alloc b n → Owned s'.alloc b n) : Layout s' T P := by
  refine ⟨h.apart.congr fun a ha => hs.base_eq ha, fun a ha => ?_⟩
  rw [hs.base_eq ha]
  exact halloc _ _ (h.owned a ha)

theorem Layout.bounds (h : Layout s T P) (hinv : Invariant R s.alloc s.alloc.lists) {a : Piece}
    (ha : a.Listed T P) : kKVirtualAddr ≤ a.base s ∧ a.base s + a.size < 2 ^ 32 := by
  have hb := (h.owned a ha).bounds hinv
  simp only [kKVirtualAddr, managedSize, kDirectMappingSize, kNodePoolSize] at hb ⊢
  omega

section Links
variable {Q : Set ℕ} (h : Layout s T P) (hQ : Q ⊆ P)

theorem Piece.Listed.mono {a : Piece} (ha : a.Listed T Q) (hQ : Q ⊆ P) : a.Listed T P := by
  cases a with
  | pcb p => exact hQ ha
  | _ => exact ha

theorem link_of_linked (hnodes : ∀ i ∈ threadSlots Q, ∀ n ∈ ls i, ∃ t ∈ T, n = Thread.node t)
    (hz : ¬ Loose (threadSlots Q) (threadHead s) ls z) :
    ∃ a : Piece, a.Listed T Q ∧ a ≠ .queue ∧ z = a.base s + a.link := by
  simp only [Loose, not_forall, not_not] at hz
  obtain ⟨i, hi, hz⟩ := hz
  rcases List.mem_cons.mp hz with rfl | hz
  · cases i with
    | free => exact ⟨.freeHead, trivial, (by simp), rfl⟩
    | wait => exact ⟨.waitHead, trivial, (by simp), rfl⟩
    | block => exact ⟨.blockHead, trivial, (by simp), rfl⟩
    | threads p => exact ⟨.pcb p, hi p rfl, (by simp), rfl⟩
  · obtain ⟨t, ht, rfl⟩ := hnodes i hi z hz
    exact ⟨.thread t, ht, (by simp), rfl⟩

include h

theorem Layout.node_ne (ht : t ∈ T) :
    Thread.node t ≠ Queue.head s.waitThreadQueue ∧ Thread.node t ≠ Queue.tail s.waitThreadQueue := by
  constructor
  · exact h.apart.word_ne (a := Piece.thread t) (b := Piece.queue) (k := 0) ht trivial (by simp)
      (show 16 < 24 by decide)
      (by decide)
  · exact h.apart.word_ne (a := Piece.thread t) (b := Piece.queue) ht trivial (by simp) (show 16 < 24 by decide)
      (show 4 < 8 by decide)

theorem Layout.threadOf_node (hinv : Invariant R s.alloc s.alloc.lists) (ht : t ∈ T) :
    threadOf (Thread.node t) = t := by
  have hb : t + 24 < 2 ^ 32 := (h.bounds hinv (a := .thread t) ht).2
  simp only [threadOf, Thread.node]
  rw [sub32_of_le (by omega) (by omega)]
  omega

include hQ

theorem Layout.loose_word (hnodes : ∀ i ∈ threadSlots Q, ∀ n ∈ ls i, ∃ t ∈ T, n = Thread.node t) {a : Piece}
    {o : ℕ} (ha : a.Listed T P) (ho : o < a.size) (hlink : a.Listed T Q → a = .queue ∨ o ≠ a.link) :
    Loose (threadSlots Q) (threadHead s) ls (a.base s + o) := by
  by_contra hz
  obtain ⟨b, hb, hqueue, he⟩ := link_of_linked hnodes hz
  obtain ⟨rfl, rfl⟩ := h.apart.word_inj ha (hb.mono hQ) ho b.link_lt he
  rcases hlink hb with rfl | hlink
  · exact hqueue rfl
  · exact hlink rfl

theorem Layout.loose_node (ht : t ∈ T) (hn : ∀ i ∈ threadSlots Q, Thread.node t ∉ ls i) :
    Loose (threadSlots Q) (threadHead s) ls (Thread.node t) := by
  have hne : ∀ a : Piece, a.Listed T P → (∀ t', a ≠ .thread t') → Thread.node t ≠ a.base s + a.link :=
    fun a ha hthread he => hthread t (h.apart.word_inj (a := Piece.thread t) ht ha (show 16 < 24 by decide)
      a.link_lt he).1.symm
  intro i hi hmem
  rcases List.mem_cons.mp hmem with he | hmem
  · cases i with
    | free => exact hne .freeHead trivial (by simp) he
    | wait => exact hne .waitHead trivial (by simp) he
    | block => exact hne .blockHead trivial (by simp) he
    | threads p => exact hne (.pcb p) (hQ (hi p rfl)) (by simp) he
  · exact hn i hi hmem

theorem Layout.ring_length (hinv : Invariant R s.alloc s.alloc.lists)
    (hnodes : ∀ i ∈ threadSlots Q, ∀ n ∈ ls i, ∃ t ∈ T, n = Thread.node t) (hlists : ThreadLists s Q ls)
    {i : ThreadSlot} (hi : i ∈ threadSlots Q) : (ls i).length < loopFuel := by
  refine length_lt_of_nodup (hlists.rings.nodup i hi) fun z hz => ?_
  obtain ⟨a, ha, -, rfl⟩ := link_of_linked hnodes fun hl => hl i hi hz
  have hb := (h.bounds hinv (ha.mono hQ)).2
  have hlink := a.link_lt
  rw [loopFuel]
  omega

theorem Layout.listNodes_eq (hinv : Invariant R s.alloc s.alloc.lists)
    (hnodes : ∀ i ∈ threadSlots Q, ∀ n ∈ ls i, ∃ t ∈ T, n = Thread.node t) (hlists : ThreadLists s Q ls)
    {i : ThreadSlot} (hi : i ∈ threadSlots Q) : listNodes s.heap (threadHead s i) = ls i :=
  collect_seg (hlists.rings.seg i hi) (List.nodup_cons.mp (hlists.rings.nodup i hi)).1
    (h.ring_length hQ hinv hnodes hlists hi).le

end Links

section Placed
variable (h : Placed R T P kMain s ls)
include h

theorem Placed.bounds {a : Piece} (ha : a.Listed T P) :
    kKVirtualAddr ≤ a.base s ∧ a.base s + a.size < 2 ^ 32 := h.layout.bounds h.ready.inv ha

theorem Placed.link_of_linked (hz : ¬ Loose (threadSlots P) (threadHead s) ls z) :
    ∃ a : Piece, a.Listed T P ∧ a ≠ .queue ∧ z = a.base s + a.link := Scheduling.link_of_linked h.nodes hz

theorem Placed.loose_word {a : Piece} {o : ℕ} (ha : a.Listed T P) (ho : o < a.size)
    (hlink : a = .queue ∨ o ≠ a.link) :
    Loose (threadSlots P) (threadHead s) ls (a.base s + o) :=
  h.layout.loose_word subset_rfl h.nodes ha ho fun _ => hlink

theorem Placed.loose_low (hz : z < kKVirtualAddr) : Loose (threadSlots P) (threadHead s) ls z := by
  by_contra hlinked
  obtain ⟨a, ha, -, he⟩ := h.link_of_linked hlinked
  have := (h.bounds ha).1
  omega

theorem Placed.node_ne (ht : t ∈ T) :
    Thread.node t ≠ Queue.head s.waitThreadQueue ∧ Thread.node t ≠ Queue.tail s.waitThreadQueue :=
  h.layout.node_ne ht

theorem Placed.threadOf_node (ht : t ∈ T) : threadOf (Thread.node t) = t :=
  h.layout.threadOf_node h.ready.inv ht

theorem Placed.getCurThread_eq : getCurThread s.toKernel = kMain := by
  rw [getCurThread, h.current, h.top]

theorem Placed.listNodes_eq {i : ThreadSlot} (hi : i ∈ threadSlots P) :
    listNodes s.heap (threadHead s i) = ls i :=
  h.layout.listNodes_eq subset_rfl h.ready.inv h.nodes h.lists hi

theorem Placed.eq_main {i : ThreadSlot} (hi : i ∈ threadSlots P) (hplace : i = .wait ∨ i = .block) {n : ℕ}
    (hn : n ∈ ls i) : n = Thread.node kMain := by
  obtain ⟨t, ht, rfl⟩ := h.nodes i hi n hn
  by_contra hne
  have htm : t ≠ kMain := fun he => hne (he ▸ rfl)
  rcases h.others t ht htm with hfree | ⟨p, hp, hthreads⟩
  · have := h.lists.rings.apart i hi .free (free_mem_threadSlots P) _ (List.mem_cons_of_mem _ hn)
      (List.mem_cons_of_mem _ hfree)
    rcases hplace with rfl | rfl <;> cases this
  · have := h.lists.rings.apart i hi (.threads p) (threads_mem_threadSlots hp) _ (List.mem_cons_of_mem _ hn)
      (List.mem_cons_of_mem _ hthreads)
    rcases hplace with rfl | rfl <;> cases this

theorem Placed.nil_or_main {i : ThreadSlot} (hi : i ∈ threadSlots P) (hplace : i = .wait ∨ i = .block) :
    ls i = [] ∨ ls i = [Thread.node kMain] := by
  have hnd := (List.nodup_cons.mp (h.lists.rings.nodup i hi)).2
  have hmain : ∀ n ∈ ls i, n = Thread.node kMain := fun n hn => h.eq_main hi hplace hn
  cases hl : ls i with
  | nil => exact Or.inl rfl
  | cons n ns =>
    rw [hl] at hnd hmain
    obtain rfl := hmain n List.mem_cons_self
    cases ns with
    | nil => exact Or.inr rfl
    | cons m ms =>
      obtain rfl := hmain m (by simp)
      exact absurd List.mem_cons_self (List.nodup_cons.mp hnd).1

end Placed

/-! ## Creation -/

def newTop (stack : ℕ) : ℕ := sub32 (sub32 (u32 (kKStackSize + stack)) 1) 4

theorem newAddr_eq {stack : ℕ} (h : stack + 0x1000 < 2 ^ 32) :
    sub32 (u32 (kKStackSize + stack)) 1 = stack + 0xfff := by
  rw [kKStackSize, u32_of_lt (by omega), sub32_of_le (by omega) (by omega)]
  omega

theorem newTop_eq {stack : ℕ} (h : stack + 0x1000 < 2 ^ 32) : newTop stack = stack + 0xffb := by
  rw [newTop, newAddr_eq h, sub32_of_le (by omega) (by omega)]
  omega

theorem openThread_eq (s : Scheduler) (newThread stack pcb : ℕ) : openThread s newThread stack pcb =
    (((s.store (Thread.stackAddr newThread) (sub32 (u32 (kKStackSize + stack)) 1)).store
      (Thread.pcb newThread) pcb).store (Thread.esp newThread) (newTop stack)).store (newTop stack)
      newThread := by
  have hne : Thread.stackAddr newThread ≠ Thread.pcb newThread := by
    simp only [Thread.stackAddr, Thread.pcb]
    omega
  rw [openThread, Scheduler.store_self, Scheduler.store_of_ne hne, Scheduler.store_self, ← newTop]

theorem openThread_of_ne {newThread stack pcb : ℕ} (haddr : z ≠ Thread.stackAddr newThread)
    (hpcb : z ≠ Thread.pcb newThread) (hesp : z ≠ Thread.esp newThread) (htop : z ≠ newTop stack) :
    (openThread s newThread stack pcb).heap z = s.heap z := by
  rw [openThread_eq, Scheduler.store_of_ne htop, Scheduler.store_of_ne hesp, Scheduler.store_of_ne hpcb,
    Scheduler.store_of_ne haddr]

theorem openThread_sameHeads (s : Scheduler) (newThread stack pcb : ℕ)
    (h : (openThread s newThread stack pcb).heap s.waitThreadQueue = s.heap s.waitThreadQueue) :
    SameHeads s (openThread s newThread stack pcb) := by
  refine ⟨?_, ?_, ?_, h⟩ <;> rw [openThread_eq] <;> rfl

@[simps -fullyApplied]
def Scheduler.setAlloc (s : Scheduler) (alloc : Allocator) : Scheduler := { s with alloc := alloc }

def created (s : Scheduler) (newThread stack pcb : ℕ) (alloc : Allocator) : Scheduler :=
  let s := openThread ((s.setHeap (listRemove s.heap s.freeThreadList).2).setAlloc alloc) newThread stack pcb
  s.setHeap (listAdd s.heap (Pcb.threadList pcb) (Thread.node newThread))

theorem createThread_eq {newThread stack pcb : ℕ} {alloc : Allocator}
    (hempty : isListEmpty s.heap s.freeThreadList = false)
    (hnew : threadOf (s.heap s.freeThreadList) = newThread)
    (hreq : DirectMapping.reqBytes s.alloc kKStackSize = .ok (stack, alloc)) :
    createThread s pcb = .ok (newThread, created s newThread stack pcb alloc) := by
  have hreq' : (s.setHeap (listRemove s.heap s.freeThreadList).2).reqBytes kKStackSize =
      .ok (stack, (s.setHeap (listRemove s.heap s.freeThreadList).2).setAlloc alloc) := bind_ok hreq _
  rw [createThread, if_pos hempty]
  refine (bind_ok hreq' _).trans ?_
  simp only [listRemove, hnew]
  rfl

theorem createThread_empty {pcb : ℕ} (hempty : isListEmpty s.heap s.freeThreadList = true) :
    createThread s pcb = .ok (0, s) := by
  rw [createThread, hempty, if_neg (by decide)]

theorem ThreadLists.createThread_nil (h : ThreadLists s P ls) (hfree : ls .free = []) (pcb : ℕ) :
    createThread s pcb = .ok (0, s) := by
  have hseg := h.rings.seg .free (free_mem_threadSlots P)
  rw [hfree] at hseg
  exact createThread_empty (beq_iff_eq.mpr hseg)

theorem ThreadLists.createThread_cons (h : ThreadLists s P ls) {x stack : ℕ} {rest : List ℕ} {alloc : Allocator}
    (hfree : ls .free = Thread.node x :: rest) (hx : threadOf (Thread.node x) = x)
    (hreq : DirectMapping.reqBytes s.alloc kKStackSize = .ok (stack, alloc)) (pcb : ℕ) :
    createThread s pcb = .ok (x, created s x stack pcb alloc) := by
  have hslot := free_mem_threadSlots P
  have hnext : s.heap s.freeThreadList = Thread.node x := h.rings.next_head hslot hfree
  have hempty : isListEmpty s.heap s.freeThreadList = false := by
    rw [isListEmpty, hnext, beq_eq_false_iff_ne]
    intro he
    have hnd := h.rings.nodup .free hslot
    rw [hfree, threadHead, he] at hnd
    simp at hnd
  exact createThread_eq hempty (by rw [hnext, hx]) hreq

theorem created_heads (s : Scheduler) (newThread stack pcb : ℕ) (alloc : Allocator) :
    (created s newThread stack pcb alloc).freeThreadList = s.freeThreadList ∧
      (created s newThread stack pcb alloc).waitThreadQueue = s.waitThreadQueue ∧
      (created s newThread stack pcb alloc).blockThreadList = s.blockThreadList ∧
      (created s newThread stack pcb alloc).alloc = alloc ∧
      (created s newThread stack pcb alloc).tssEsp0 = s.tssEsp0 := by
  rw [created, openThread_eq]
  exact ⟨rfl, rfl, rfl, rfl, rfl⟩

theorem created_of_ne {newThread stack pcb : ℕ} {alloc : Allocator} (hlist : z ≠ Pcb.threadList pcb)
    (hnode : z ≠ Thread.node newThread) (haddr : z ≠ Thread.stackAddr newThread)
    (hpcb : z ≠ Thread.pcb newThread) (hesp : z ≠ Thread.esp newThread) (htop : z ≠ newTop stack) :
    (created s newThread stack pcb alloc).heap z = (listRemove s.heap s.freeThreadList).2 z :=
  calc (created s newThread stack pcb alloc).heap z
      = (openThread ((s.setHeap (listRemove s.heap s.freeThreadList).2).setAlloc alloc) newThread stack
          pcb).heap z := insertAfter_of_ne hlist hnode
    _ = (listRemove s.heap s.freeThreadList).2 z := openThread_of_ne haddr hpcb hesp htop

theorem created_kept {newThread stack pcb : ℕ} {alloc : Allocator}
    (hnext : s.heap s.freeThreadList = Thread.node newThread) (hhead : z ≠ s.freeThreadList)
    (hlist : z ≠ Pcb.threadList pcb) (hnode : z ≠ Thread.node newThread)
    (haddr : z ≠ Thread.stackAddr newThread) (hpcb : z ≠ Thread.pcb newThread)
    (hesp : z ≠ Thread.esp newThread) (htop : z ≠ newTop stack) :
    (created s newThread stack pcb alloc).heap z = s.heap z := by
  rw [created_of_ne hlist hnode haddr hpcb hesp htop]
  exact removeAfter_of_ne hhead (by rw [hnext]; exact hnode)

theorem Layout.created_new (h : Layout s T P) {x stack p : ℕ} (alloc : Allocator) (hx : x ∈ T) (hp : p ∈ P)
    (hfar : ∀ a : Piece, a.Listed T P → newTop stack < a.base s ∨ a.base s + a.size ≤ newTop stack) :
    (created s x stack p alloc).heap (Thread.stackAddr x) = sub32 (u32 (kKStackSize + stack)) 1 ∧
      (created s x stack p alloc).heap (Thread.pcb x) = p ∧
      (created s x stack p alloc).heap (Thread.esp x) = newTop stack ∧
      (created s x stack p alloc).heap (newTop stack) = x := by
  have htop : ∀ o < 24, x + o ≠ newTop stack := by
    have : newTop stack < x ∨ x + 24 ≤ newTop stack := hfar (.thread x) hx
    intro o ho
    omega
  have hlist : ∀ o < 24, x + o ≠ Pcb.threadList p := fun o ho =>
    h.apart.word_ne (a := Piece.thread x) (b := Piece.pcb p) hx hp (by simp) ho (show 44 < 48 by decide)
  have hlist_top : newTop stack ≠ Pcb.threadList p := by
    have : newTop stack < p ∨ p + 48 ≤ newTop stack := hfar (.pcb p) hp
    simp only [Pcb.threadList]
    omega
  have hfield : ∀ {a b : ℕ}, a ≠ b → x + a ≠ x + b := fun hne he => hne (Nat.add_left_cancel he)
  have hopen : ∀ z, z ≠ Pcb.threadList p → z ≠ Thread.node x → (created s x stack p alloc).heap z =
      (openThread ((s.setHeap (listRemove s.heap s.freeThreadList).2).setAlloc alloc) x stack p).heap z :=
    fun z hz hn => insertAfter_of_ne hz hn
  have haddr_top : Thread.stackAddr x ≠ newTop stack := htop 4 (by decide)
  have hpcb_top : Thread.pcb x ≠ newTop stack := htop 8 (by decide)
  have hesp_top : Thread.esp x ≠ newTop stack := htop 12 (by decide)
  have hnode_top : newTop stack ≠ Thread.node x := (htop 16 (by decide)).symm
  have haddr_pcb : Thread.stackAddr x ≠ Thread.pcb x := hfield (by decide)
  have haddr_esp : Thread.stackAddr x ≠ Thread.esp x := hfield (by decide)
  have hpcb_esp : Thread.pcb x ≠ Thread.esp x := hfield (by decide)
  refine ⟨?_, ?_, ?_, ?_⟩
  · rw [hopen (Thread.stackAddr x) (hlist 4 (by decide)) (hfield (by decide)), openThread_eq,
      Scheduler.store_of_ne haddr_top, Scheduler.store_of_ne haddr_esp, Scheduler.store_of_ne haddr_pcb,
      Scheduler.store_self]
  · rw [hopen (Thread.pcb x) (hlist 8 (by decide)) (hfield (by decide)), openThread_eq,
      Scheduler.store_of_ne hpcb_top, Scheduler.store_of_ne hpcb_esp, Scheduler.store_self]
  · rw [hopen (Thread.esp x) (hlist 12 (by decide)) (hfield (by decide)), openThread_eq,
      Scheduler.store_of_ne hesp_top, Scheduler.store_self]
  · rw [hopen (newTop stack) hlist_top hnode_top, openThread_eq, Scheduler.store_self]

theorem Placed.request (h : Placed R T P kMain s ls) {n : ℕ} (hn : (ls .free).length = n + 1) :
    ∃ stack alloc, DirectMapping.reqBytes s.alloc kKStackSize = .ok (stack, alloc) ∧ Ready R alloc n ∧
      (∀ b m, Owned s.alloc b m → Owned alloc b m) ∧ newTop stack ≠ kMainStackAddr - 4 ∧
      newTop stack < 2 ^ 32 ∧ 20 ≤ newTop stack ∧
      ∀ a : Piece, a.Listed T P → newTop stack < a.base s ∨ a.base s + a.size ≤ newTop stack - 20 := by
  have hready := h.ready
  rw [hn] at hready
  rcases hready.reqBytes (k := 12) (by decide) size_page with hnone | ⟨stack, alloc, hreq, -, hfresh, hready'⟩
  · refine ⟨0, s.alloc, hnone, hready.mono (Nat.le_succ n), fun _ _ ho => ho, by decide, by decide, by decide,
      fun a ha => ?_⟩
    have hlow := (h.bounds ha).1
    rw [newTop_eq (by decide)]
    simp only [kKVirtualAddr] at hlow
    omega
  · have hbound := hfresh.owned.bounds hready'.inv
    simp only [kKVirtualAddr, managedSize, kDirectMappingSize, kNodePoolSize] at hbound
    have htop : newTop stack = stack + 0xffb := newTop_eq (by omega)
    refine ⟨stack, alloc, hreq, hready', hfresh.kept, ?_, by omega, by omega, fun a ha => ?_⟩
    · rw [htop, kMainStackAddr]
      omega
    · have hsep := hfresh.apart _ _ (h.layout.owned a ha)
      rw [htop]
      omega

section Created
variable {x stack pcb : ℕ} {rest : List ℕ} {alloc : Allocator}

theorem Placed.openThread_word (h : Placed R T P kMain s ls) (hx : x ∈ T)
    (hfar : ∀ a : Piece, a.Listed T P → newTop stack < a.base s ∨ a.base s + a.size ≤ newTop stack)
    {a : Piece} {o : ℕ} (ha : a.Listed T P) (ho : o < a.size) (hfield : a = .thread x → o ≠ 4 ∧ o ≠ 8 ∧ o ≠ 12)
    (s₁ : Scheduler) (pcb : ℕ) :
    (openThread s₁ x stack pcb).heap (a.base s + o) = s₁.heap (a.base s + o) := by
  have hne : ∀ o' < 24, o' = 4 ∨ o' = 8 ∨ o' = 12 → a.base s + o ≠ x + o' := by
    intro o' ho' hw he
    obtain ⟨rfl, rfl⟩ := h.layout.apart.word_inj (b := Piece.thread x) ha hx ho ho' he
    have := hfield rfl
    omega
  refine openThread_of_ne (hne 4 (by decide) (by simp)) (hne 8 (by decide) (by simp))
    (hne 12 (by decide) (by simp)) ?_
  have := hfar a ha
  omega

theorem Placed.created_lists (h : Placed R T P kMain s ls) (alloc : Allocator)
    (hfree : ls .free = Thread.node x :: rest) (hx : x ∈ T) (hp : pcb ∈ P)
    (hfar : ∀ a : Piece, a.Listed T P → newTop stack < a.base s ∨ a.base s + a.size ≤ newTop stack) :
    ThreadLists (created s x stack pcb alloc) P (Function.update (Function.update ls .free rest)
        (.threads pcb) (Thread.node x :: ls (.threads pcb))) ∧
      SameHeads s (created s x stack pcb alloc) := by
  have hsplit : ls .free = [] ++ Thread.node x :: rest := hfree
  obtain ⟨hlists₁, hloose, hsame₁⟩ := h.lists.remove (free_mem_threadSlots P) (by decide) hsplit
  generalize hs₁ : s.setHeap (listRemove s.heap (lastFrom (threadHead s .free) [])).2 = s₁ at hlists₁ hsame₁
  have hcreated : Scheduling.created s x stack pcb alloc =
      (openThread (s₁.setAlloc alloc) x stack pcb).setHeap
        (listAdd (openThread (s₁.setAlloc alloc) x stack pcb).heap (Pcb.threadList pcb) (Thread.node x)) := by
    rw [← hs₁]
    rfl
  have hsame₂ : SameHeads s₁ (openThread (s₁.setAlloc alloc) x stack pcb) := by
    have hword : _ = s₁.heap s.waitThreadQueue := h.openThread_word hx hfar (a := .queue) (o := 0) trivial
      (by decide) (by simp) (s₁.setAlloc alloc) pcb
    have hqueue : s₁.waitThreadQueue = s.waitThreadQueue := hsame₁.queue
    have hheads := openThread_sameHeads (s₁.setAlloc alloc) x stack pcb (by
      rw [Scheduler.setAlloc_waitThreadQueue, hqueue]
      exact hword)
    exact ⟨hheads.free, hheads.queue, hheads.block, hheads.wait⟩
  have hlists₂ : ThreadLists (openThread (s₁.setAlloc alloc) x stack pcb) P
      (Function.update ls .free rest) := by
    refine hlists₁.congr hsame₂ ?_ fun z hz => ?_
    · rw [hsame₁.queue]
      exact h.openThread_word hx hfar (a := .queue) (o := 4) trivial (by decide) (by simp) _ pcb
    · rw [hsame₁.threadHead_eq] at hz
      obtain ⟨a, ha, -, rfl⟩ := h.link_of_linked fun hl => hz (hl.drop hsplit)
      refine h.openThread_word hx hfar ha a.link_lt ?_ _ pcb
      rintro rfl
      simp [Piece.link]
  have hsame₃ := hsame₁.trans hsame₂
  obtain ⟨hlists₃, hsame₄⟩ := hlists₂.push (threads_mem_threadSlots hp) (by simp) (n := Thread.node x)
    (by rw [hsame₃.threadHead_eq]; exact hloose) (by rw [hsame₃.queue]; exact (h.node_ne hx).1)
    (by rw [hsame₃.queue]; exact (h.node_ne hx).2)
  rw [hcreated]
  refine ⟨?_, hsame₃.trans hsame₄⟩
  rw [Function.update_of_ne (by simp)] at hlists₃
  exact hlists₃

theorem Placed.created_word (h : Placed R T P kMain s ls) (hfree : ls .free = Thread.node x :: rest)
    (hp : pcb ∈ P) (hz : Loose (threadSlots P) (threadHead s) ls z)
    (haddr : z ≠ Thread.stackAddr x) (hpcb : z ≠ Thread.pcb x) (hesp : z ≠ Thread.esp x)
    (htop : z ≠ newTop stack) : (created s x stack pcb alloc).heap z = s.heap z := by
  have hhead : z ≠ s.freeThreadList := fun he => hz .free (free_mem_threadSlots P) (he ▸ List.mem_cons_self)
  have hnode : z ≠ Thread.node x := fun he => hz .free (free_mem_threadSlots P) (by simp [he, hfree])
  have hlist : z ≠ Pcb.threadList pcb := fun he =>
    hz (.threads pcb) (threads_mem_threadSlots hp) (he ▸ List.mem_cons_self)
  have hnext : s.heap s.freeThreadList = Thread.node x :=
    h.lists.rings.next_head (free_mem_threadSlots P) hfree
  exact created_kept hnext hhead hlist hnode haddr hpcb hesp htop

theorem Placed.free_ne_main (h : Placed R T P kMain s ls) (hfree : ls .free = Thread.node x :: rest) :
    x ≠ kMain := by
  rintro rfl
  rcases h.away .free (free_mem_threadSlots P) (by simp [hfree]) with he | he <;> cases he

theorem Placed.created_main (h : Placed R T P kMain s ls) (hfree : ls .free = Thread.node x :: rest)
    (hx : x ∈ T) (hp : pcb ∈ P)
    (hfar : ∀ a : Piece, a.Listed T P → newTop stack < a.base s ∨ a.base s + a.size ≤ newTop stack)
    {o : ℕ} (ho : o < 24) (hlink : o ≠ 16) :
    (created s x stack pcb alloc).heap (kMain + o) = s.heap (kMain + o) := by
  have hne : ∀ o' < 24, kMain + o ≠ x + o' := fun o' ho' he => h.free_ne_main hfree (Piece.thread.inj
    (h.layout.apart.word_inj (a := Piece.thread kMain) (b := Piece.thread x) h.mem hx ho ho' he).1).symm
  refine h.created_word hfree hp (h.loose_word (a := .thread kMain) h.mem ho (Or.inr hlink))
    (hne 4 (by decide)) (hne 8 (by decide)) (hne 12 (by decide)) ?_
  have hsep : newTop stack < kMain ∨ kMain + 24 ≤ newTop stack := hfar (.thread kMain) h.mem
  omega

theorem mem_createdLists (hfree : ls .free = Thread.node x :: rest) {i : ThreadSlot} {n : ℕ}
    (hn : n ∈ Function.update (Function.update ls .free rest) (.threads pcb)
      (Thread.node x :: ls (.threads pcb)) i) : n ∈ ls i ∨ i = .threads pcb ∧ n = Thread.node x := by
  by_cases hi : i = .threads pcb
  · rw [hi, Function.update_self, List.mem_cons] at hn
    rw [hi]
    exact hn.symm.imp_right fun he => ⟨rfl, he⟩
  · rw [Function.update_of_ne hi] at hn
    by_cases hi' : i = .free
    · rw [hi', Function.update_self] at hn
      rw [hi', hfree]
      exact Or.inl (List.mem_cons_of_mem _ hn)
    · rw [Function.update_of_ne hi'] at hn
      exact Or.inl hn

theorem Placed.created (h : Placed R T P kMain s ls) (hfree : ls .free = Thread.node x :: rest)
    (hx : x ∈ T) (hp : pcb ∈ P) (hready : Ready R alloc rest.length)
    (howned : ∀ b m, Owned s.alloc b m → Owned alloc b m) (hmain : newTop stack ≠ kMainStackAddr - 4)
    (hfar : ∀ a : Piece, a.Listed T P → newTop stack < a.base s ∨ a.base s + a.size ≤ newTop stack) :
    Placed R T P kMain (created s x stack pcb alloc)
      (Function.update (Function.update ls .free rest) (.threads pcb)
        (Thread.node x :: ls (.threads pcb))) := by
  obtain ⟨hlists, hsame⟩ := h.created_lists alloc hfree hx hp hfar
  have hxm := h.free_ne_main hfree
  obtain ⟨-, -, -, halloc, htss⟩ := created_heads s x stack pcb alloc
  have htop : (Scheduling.created s x stack pcb alloc).heap (kMainStackAddr - 4) =
      s.heap (kMainStackAddr - 4) := by
    have hlow : kKVirtualAddr ≤ x := (h.bounds (a := .thread x) hx).1
    simp only [kKVirtualAddr] at hlow
    refine h.created_word hfree hp (h.loose_low (by decide)) ?_ ?_ ?_ hmain.symm <;>
      simp only [Thread.stackAddr, Thread.pcb, Thread.esp, kMainStackAddr] <;> omega
  refine ⟨?_, h.layout.congr hsame (by rw [halloc]; exact howned), hlists, fun i hi n hn => ?_,
    fun t ht htm => ?_, h.mem, fun i hi hn => ?_, by rw [htss, h.current], by rw [htop, h.top],
    (h.created_main hfree hx hp hfar (by decide) (by decide)).trans h.stack⟩
  · rw [halloc, Function.update_of_ne (by simp), Function.update_self]
    exact hready
  · rcases mem_createdLists hfree hn with hn | ⟨-, rfl⟩
    · exact h.nodes i hi n hn
    · exact ⟨x, hx, rfl⟩
  · by_cases htx : t = x
    · refine Or.inr ⟨pcb, hp, ?_⟩
      rw [htx, Function.update_self]
      exact List.mem_cons_self
    · rcases h.others t ht htm with hf | ⟨p, hpP, hthreads⟩
      · rw [hfree, List.mem_cons] at hf
        refine Or.inl ?_
        rw [Function.update_of_ne (by simp), Function.update_self]
        exact hf.resolve_left fun he => htx (Nat.add_right_cancel he)
      · refine Or.inr ⟨p, hpP, ?_⟩
        by_cases hpp : p = pcb
        · rw [hpp, Function.update_self]
          exact List.mem_cons_of_mem _ (hpp ▸ hthreads)
        · rwa [Function.update_of_ne fun he => hpp (ThreadSlot.threads.inj he), Function.update_of_ne (by simp)]
  · rcases mem_createdLists hfree hn with hn | ⟨-, he⟩
    · exact h.away i hi hn
    · exact absurd (Nat.add_right_cancel he).symm hxm

theorem Placed.createThread (h : Placed R T P kMain s ls) (hfree : ls .free = Thread.node x :: rest)
    (hx : x ∈ T) (pcb : ℕ) : ∃ stack alloc,
      Scheduling.createThread s pcb = .ok (x, Scheduling.created s x stack pcb alloc) ∧
      Ready R alloc rest.length ∧ (∀ b m, Owned s.alloc b m → Owned alloc b m) ∧
      newTop stack ≠ kMainStackAddr - 4 ∧ newTop stack < 2 ^ 32 ∧ 20 ≤ newTop stack ∧
      ∀ a : Piece, a.Listed T P → newTop stack < a.base s ∨ a.base s + a.size ≤ newTop stack - 20 := by
  obtain ⟨stack, alloc, hreq, hrest⟩ := h.request (congrArg List.length hfree)
  exact ⟨stack, alloc, h.lists.createThread_cons hfree (h.threadOf_node hx) hreq pcb, hrest⟩

theorem AllPlaced.create (hall : AllPlaced R T P kMain s) (hp : pcb ∈ P) :
    ∃ s', threadExec s (.create pcb) = .ok s' ∧ AllPlaced R T P kMain s' := by
  obtain ⟨ls, h, hesp⟩ := hall
  have hslot := free_mem_threadSlots P
  cases hfree : ls .free with
  | nil => exact ⟨s, bind_ok (h.lists.createThread_nil hfree pcb) _, ls, h, hesp⟩
  | cons n rest =>
    obtain ⟨x, hx, rfl⟩ := h.nodes .free hslot n (by simp [hfree])
    obtain ⟨stack, alloc, hcreate, hready, howned, hmain, -, -, hfar⟩ := h.createThread hfree hx pcb
    have hfar : ∀ a : Piece, a.Listed T P → newTop stack < a.base s ∨ a.base s + a.size ≤ newTop stack :=
      fun a ha => (hfar a ha).imp_right fun hle => hle.trans (Nat.sub_le ..)
    refine ⟨_, bind_ok hcreate _, _, h.created hfree hx hp hready howned hmain hfar, fun hwait => ?_⟩
    rw [Function.update_of_ne (by simp), Function.update_of_ne (by simp)] at hwait
    exact (h.created_main hfree hx hp hfar (by decide) (by decide)).trans (hesp hwait)

end Created

/-! ## Steps of the current thread -/

theorem Placed.moved (h : Placed R T P kMain s ls) {ls' : ThreadSlot → List ℕ} (hlists : ThreadLists s' P ls')
    (hsame : SameHeads s s') (halloc : s'.alloc = s.alloc) (htss : s'.tssEsp0 = s.tssEsp0)
    (htop : s'.heap (kMainStackAddr - 4) = s.heap (kMainStackAddr - 4))
    (hstack : s'.heap (Thread.stackAddr kMain) = s.heap (Thread.stackAddr kMain))
    (hother : ∀ i, i ≠ .wait → i ≠ .block → ls' i = ls i)
    (hmain : ∀ i, i = .wait ∨ i = .block → ∀ n ∈ ls' i, n ∈ ls i ∨ n = Thread.node kMain) :
    Placed R T P kMain s' ls' := by
  have hkept : ∀ i, ¬ (i = .wait ∨ i = .block) → ls' i = ls i := fun i hi =>
    hother i (fun he => hi (Or.inl he)) fun he => hi (Or.inr he)
  refine ⟨?_, h.layout.congr hsame (by rw [halloc]; exact fun _ _ ho => ho), hlists, fun i hi n hn => ?_,
    fun t ht htm => ?_, h.mem, fun i hi hn => ?_, htss.trans h.current, htop.trans h.top,
    hstack.trans h.stack⟩
  · rw [halloc, hkept .free (by simp)]
    exact h.ready
  · by_cases hplace : i = .wait ∨ i = .block
    · rcases hmain i hplace n hn with hn | rfl
      · exact h.nodes i hi n hn
      · exact ⟨kMain, h.mem, rfl⟩
    · rw [hkept i hplace] at hn
      exact h.nodes i hi n hn
  · rcases h.others t ht htm with hfree | ⟨p, hp, hthreads⟩
    · exact Or.inl (by rwa [hkept .free (by simp)])
    · exact Or.inr ⟨p, hp, by rwa [hkept (.threads p) (by simp)]⟩
  · by_contra hplace
    rw [hkept i hplace] at hn
    exact hplace (h.away i hi hn)

theorem Placed.top_ne (h : Placed R T P kMain s ls) {a : Piece} {o : ℕ} (ha : a.Listed T P) :
    kMainStackAddr - 4 ≠ a.base s + o := by
  have hlow := (h.bounds ha).1
  simp only [kKVirtualAddr, kMainStackAddr] at hlow ⊢
  omega

theorem Placed.stackAddr_ne (h : Placed R T P kMain s ls) {a : Piece} {o : ℕ} (ha : a.Listed T P) (ho : o < a.size)
    (hne : a ≠ .thread kMain ∨ o ≠ 4) : Thread.stackAddr kMain ≠ a.base s + o := fun he => by
  obtain ⟨rfl, rfl⟩ := h.layout.apart.word_inj (a := Piece.thread kMain) h.mem ha (show 4 < 24 by decide) ho he
  simp at hne

theorem Placed.loose_stackAddr (h : Placed R T P kMain s ls) :
    Loose (threadSlots P) (threadHead s) ls (Thread.stackAddr kMain) :=
  h.loose_word (a := .thread kMain) h.mem (show 4 < 24 by decide) (Or.inr (by simp [Piece.link]))

theorem Placed.enqueue (h : Placed R T P kMain s ls)
    (hloose : Loose (threadSlots P) (threadHead s) ls (Thread.node kMain)) :
    Placed R T P kMain (s.setHeap (enqueue s.heap s.waitThreadQueue (Thread.node kMain)))
      (Function.update ls .wait (ls .wait ++ [Thread.node kMain])) := by
  have hnode := h.node_ne h.mem
  refine h.moved (h.lists.enqueue hloose hnode.1 hnode.2) ⟨rfl, rfl, rfl, ?_⟩ rfl rfl ?_ ?_
    (fun i hw _ => Function.update_of_ne hw ..) fun i hplace n hn => ?_
  · exact h.lists.enqueue_of_loose h.lists.head_loose (Queue.head_ne_tail _) hnode.1.symm
  · exact h.lists.enqueue_of_loose (h.loose_low (by decide)) (h.top_ne (a := .queue) trivial)
      (h.top_ne (a := .thread kMain) h.mem)
  · exact h.lists.enqueue_of_loose h.loose_stackAddr
      (h.stackAddr_ne (a := .queue) trivial (by decide) (Or.inl (by simp)))
      (h.stackAddr_ne (a := .thread kMain) h.mem (show 16 < 24 by decide) (Or.inr (by decide)))
  · rcases hplace with rfl | rfl
    · rw [Function.update_self, List.mem_append, List.mem_singleton] at hn
      exact hn
    · rw [Function.update_of_ne (by simp)] at hn
      exact Or.inl hn

theorem Placed.dequeue (h : Placed R T P kMain s ls) {ns : List ℕ} (hls : ls .wait = Thread.node kMain :: ns) :
    Placed R T P kMain (s.setHeap (dequeue s.heap s.waitThreadQueue).2) (Function.update ls .wait ns) ∧
      Loose (threadSlots P) (threadHead (s.setHeap (XyOS.dequeue s.heap s.waitThreadQueue).2))
        (Function.update ls .wait ns) (Thread.node kMain) := by
  obtain ⟨hlists, hloose, hsame⟩ := h.lists.dequeue hls
  refine ⟨h.moved hlists hsame rfl rfl ?_ ?_ (fun i hw _ => Function.update_of_ne hw ..)
    fun i hplace n hn => Or.inl ?_, by rwa [hsame.threadHead_eq]⟩
  · exact h.lists.dequeue_of_loose (h.loose_low (by decide)) (h.top_ne (a := .queue) trivial)
  · exact h.lists.dequeue_of_loose h.loose_stackAddr
      (h.stackAddr_ne (a := .queue) trivial (by decide) (Or.inl (by simp)))
  · rcases hplace with rfl | rfl
    · rw [Function.update_self] at hn
      rw [hls]
      exact List.mem_cons_of_mem _ hn
    · rwa [Function.update_of_ne (by simp)] at hn

theorem prepareStack_of_ne {thread startFunc e : ℕ} (he : s.heap (Thread.esp thread) = e) (h20 : 20 ≤ e)
    (hlt : e < 2 ^ 32) (hfar : Thread.esp thread < e - 20 ∨ e ≤ Thread.esp thread)
    (hz : z ≠ Thread.esp thread) (hstack : z < e - 20 ∨ e ≤ z) :
    (prepareStack s thread startFunc).heap z = s.heap z := by
  have h4 : sub32 e 4 = e - 4 := sub32_of_le (by omega) hlt
  have h16 : sub32 (e - 4) 16 = e - 20 := by rw [sub32_of_le (by omega) (by omega), Nat.sub_sub]
  simp only [prepareStack, he, h4]
  rw [Scheduler.store_self, Scheduler.store_of_ne (show Thread.esp thread ≠ e - 4 by omega),
    Scheduler.store_self, h16, Scheduler.store_self, Scheduler.store_of_ne (by omega),
    Scheduler.store_of_ne (by omega), Scheduler.store_of_ne (by omega), Scheduler.store_of_ne (by omega),
    Scheduler.store_of_ne hz, Scheduler.store_of_ne (by omega), Scheduler.store_of_ne hz]

theorem prepareStack_eq (s : Scheduler) (thread startFunc : ℕ) :
    prepareStack s thread startFunc = s.setHeap (prepareStack s thread startFunc).heap := rfl

theorem Placed.loose_node (h : Placed R T P kMain s ls) (ht : t ∈ T)
    (hn : ∀ i ∈ threadSlots P, Thread.node t ∉ ls i) :
    Loose (threadSlots P) (threadHead s) ls (Thread.node t) := h.layout.loose_node subset_rfl ht hn

theorem Placed.notMem_of_unlinked (h : Placed R T P kMain s ls) {n : ℕ} (hu : Unlinked s P n)
    (i : ThreadSlot) (hi : i ∈ threadSlots P) : n ∉ ls i := by
  rw [← h.listNodes_eq hi]
  exact hu i hi

theorem Placed.eq_main_of_unlinked (h : Placed R T P kMain s ls) (ht : t ∈ T)
    (hu : Unlinked s P (Thread.node t)) : t = kMain := by
  have hn := h.notMem_of_unlinked hu
  by_contra htm
  rcases h.others t ht htm with hfree | ⟨p, hp, hthreads⟩
  · exact hn .free (free_mem_threadSlots P) hfree
  · exact hn (.threads p) (threads_mem_threadSlots hp) hthreads

theorem Placed.setsEsp (h : Placed R T P kMain s ls) (hfree : s'.freeThreadList = s.freeThreadList)
    (hqueue : s'.waitThreadQueue = s.waitThreadQueue) (hblock : s'.blockThreadList = s.blockThreadList)
    (halloc : s'.alloc = s.alloc) (htss : s'.tssEsp0 = s.tssEsp0)
    (hheap : ∀ z, z = kMainStackAddr - 4 ∨ kKVirtualAddr ≤ z → z ≠ Thread.esp kMain →
      s'.heap z = s.heap z) : Placed R T P kMain s' ls := by
  have hpiece : ∀ a : Piece, a.Listed T P → ∀ o < a.size, a ≠ .thread kMain ∨ o ≠ 12 →
      s'.heap (a.base s + o) = s.heap (a.base s + o) := by
    intro a ha o ho hne
    refine hheap _ (Or.inr ((h.bounds ha).1.trans (Nat.le_add_right _ o))) fun he => ?_
    obtain ⟨rfl, rfl⟩ := h.layout.apart.word_inj (b := Piece.thread kMain) ha h.mem ho (show 12 < 24 by decide) he
    simp at hne
  have hsame : SameHeads s s' :=
    ⟨hfree, hqueue, hblock, hpiece .queue trivial 0 (by decide) (Or.inl (by simp))⟩
  have hlists : ThreadLists s' P ls := by
    refine h.lists.congr hsame (hpiece .queue trivial 4 (by decide) (Or.inl (by simp))) fun z hz => ?_
    obtain ⟨a, ha, -, rfl⟩ := h.link_of_linked hz
    refine hpiece a ha a.link a.link_lt ?_
    by_cases hthread : a = .thread kMain
    · exact Or.inr (by rw [hthread]; simp [Piece.link])
    · exact Or.inl hthread
  exact h.moved hlists hsame halloc htss (hheap _ (Or.inl rfl) (h.top_ne (a := .thread kMain) h.mem))
    (hpiece (.thread kMain) h.mem 4 (show 4 < 24 by decide) (Or.inr (by decide))) (fun _ _ _ => rfl)
    fun _ _ _ hn => Or.inl hn

theorem Placed.prepareStack (h : Placed R T P kMain s ls) (startFunc : ℕ)
    (hesp : s.heap (Thread.esp kMain) = kMainStackAddr - 4) :
    Placed R T P kMain (prepareStack s kMain startFunc) ls := by
  have hlow : kKVirtualAddr ≤ kMain := (h.bounds (a := .thread kMain) h.mem).1
  refine h.setsEsp ?_ ?_ ?_ ?_ ?_ fun z hz hne => prepareStack_of_ne hesp (by decide) (by decide) ?_ hne ?_
  · rw [prepareStack_eq, Scheduler.setHeap_freeThreadList]
  · rw [prepareStack_eq, Scheduler.setHeap_waitThreadQueue]
  · rw [prepareStack_eq, Scheduler.setHeap_blockThreadList]
  · rw [prepareStack_eq, Scheduler.setHeap_alloc]
  · rw [prepareStack_eq, Scheduler.setHeap_tssEsp0]
  · simp only [kKVirtualAddr, kMainStackAddr, Thread.esp] at hlow ⊢
    omega
  · simp only [kKVirtualAddr, kMainStackAddr] at hz ⊢
    omega

theorem AllPlaced.run (hall : AllPlaced R T P kMain s) {thread : ℕ} (startFunc : ℕ) (ht : thread ∈ T)
    (hu : s.heap (Pcb.pid (s.heap (Thread.pcb thread))) = 0 → Unlinked s P (Thread.node thread)) :
    AllPlaced R T P kMain (kThreadRun s thread startFunc) := by
  obtain ⟨ls, h, hesp⟩ := hall
  rw [kThreadRun]
  split
  · rename_i hpid
    obtain rfl := h.eq_main_of_unlinked ht (hu hpid)
    have hn := h.notMem_of_unlinked (hu hpid)
    have hprepared := h.prepareStack startFunc (hesp (hn .wait (wait_mem_threadSlots P)))
    refine ⟨_, hprepared.enqueue (hprepared.loose_node ht hn), fun hwait => absurd ?_ hwait⟩
    rw [Function.update_self]
    simp
  · exact ⟨ls, h, hesp⟩

theorem threadSwitch_nil (h : IsQueue s.heap s.waitThreadQueue []) : threadSwitch s = s := by
  have hd := dequeue_nil h
  simp only [threadSwitch, hd, if_true]
  rfl

theorem enterProc_self (s : Scheduler) (pcb : ℕ) : enterProc s pcb pcb = s := if_neg (not_not.mpr rfl)

theorem Placed.switchReg (h : Placed R T P kMain s ls) :
    Placed R T P kMain (switchReg s (Thread.esp kMain) (Thread.esp kMain)) ls :=
  h.setsEsp rfl rfl rfl rfl rfl fun _ _ hz => switchReg_of_ne hz

theorem Placed.switchTo (h : Placed R T P kMain s ls)
    (hn : ∀ i ∈ threadSlots P, Thread.node kMain ∉ ls i) :
    Placed R T P kMain (switchTo s kMain kMain)
      (Function.update ls .wait (ls .wait ++ [Thread.node kMain])) := by
  have hjoined := h.enqueue (h.loose_node h.mem hn)
  have htop : sub32 ((s.setHeap (XyOS.enqueue s.heap s.waitThreadQueue (Thread.node kMain))).heap
      (Thread.stackAddr kMain)) 4 = kMainStackAddr - 4 := by
    rw [hjoined.stack]
    decide
  rw [Scheduling.switchTo, enterProc_self, htop, ← hjoined.current]
  exact hjoined.switchReg

theorem AllPlaced.switch (hall : AllPlaced R T P kMain s) : AllPlaced R T P kMain (threadSwitch s) := by
  obtain ⟨ls, h, hesp⟩ := hall
  have hqueue := h.lists.isQueue
  rcases h.nil_or_main (wait_mem_threadSlots P) (Or.inl rfl) with hnil | hone
  · rw [hnil] at hqueue
    rw [threadSwitch_nil hqueue]
    exact ⟨ls, h, hesp⟩
  · rw [hone] at hqueue
    obtain ⟨hleft, hloose⟩ := h.dequeue hone
    have hfirst : (XyOS.dequeue s.heap s.waitThreadQueue).1 = Thread.node kMain := (dequeue_cons hqueue).1
    have hne : Thread.node kMain ≠ 0 := Nat.succ_ne_zero _
    have hcur := hleft.getCurThread_eq
    have hswitched := hleft.switchTo fun i hi hm => hloose i hi (List.mem_cons_of_mem _ hm)
    have hswitch : threadSwitch s =
        Scheduling.switchTo (s.setHeap (XyOS.dequeue s.heap s.waitThreadQueue).2) kMain kMain := by
      simp only [threadSwitch, hfirst, if_neg hne, hcur, h.threadOf_node h.mem]
    rw [hswitch]
    refine ⟨_, hswitched, fun hwait => absurd ?_ hwait⟩
    rw [Function.update_self]
    simp

theorem Placed.block (h : Placed R T P kMain s ls) (hn : ∀ i ∈ threadSlots P, Thread.node kMain ∉ ls i) :
    Placed R T P kMain (s.setHeap (listAdd s.heap s.blockThreadList (Thread.node kMain)))
      (Function.update ls .block (Thread.node kMain :: ls .block)) := by
  have hnode := h.node_ne h.mem
  have hloose := h.loose_node h.mem hn
  obtain ⟨hlists, hsame⟩ := h.lists.push (block_mem_threadSlots P) (by decide) hloose hnode.1 hnode.2
  refine h.moved hlists hsame rfl rfl ?_ ?_ (fun i _ hb => Function.update_of_ne hb ..) fun i hplace n hn => ?_
  · exact insertAfter_of_ne (h.top_ne (a := .blockHead) (o := 0) trivial)
      (h.top_ne (a := .thread kMain) h.mem)
  · exact insertAfter_of_ne (h.stackAddr_ne (a := .blockHead) (o := 0) trivial (by decide) (Or.inl (by simp)))
      (h.stackAddr_ne (a := .thread kMain) h.mem (show 16 < 24 by decide) (Or.inr (by decide)))
  · rcases hplace with rfl | rfl
    · rw [Function.update_of_ne (by decide)] at hn
      exact Or.inl hn
    · rw [Function.update_self, List.mem_cons] at hn
      exact hn.symm

theorem AllPlaced.sleep (hall : AllPlaced R T P kMain s)
    (hu : Unlinked s P (Thread.node (getCurThread s.toKernel))) : AllPlaced R T P kMain (threadSleep s) := by
  obtain ⟨ls, h, hesp⟩ := hall
  rw [h.getCurThread_eq] at hu
  have hn := h.notMem_of_unlinked hu
  rw [threadSleep, h.getCurThread_eq]
  refine AllPlaced.switch ⟨_, h.block hn, fun hwait => ?_⟩
  rw [Function.update_of_ne (by decide)] at hwait
  rw [Scheduler.setHeap_heap]
  refine Eq.trans (insertAfter_of_ne ?_ fun he => ?_) (hesp hwait)
  · exact h.layout.apart.word_ne (a := Piece.thread kMain) (b := Piece.blockHead) (k := 0) h.mem trivial (by simp)
      (show 12 < 24 by decide) (by decide)
  · exact absurd (Nat.add_left_cancel he) (by decide)

theorem Placed.unblock (h : Placed R T P kMain s ls) (hls : ls .block = [Thread.node kMain]) :
    Placed R T P kMain (s.setHeap (listRemove s.heap s.blockThreadList).2) (Function.update ls .block []) ∧
      ∀ i ∈ threadSlots P, Thread.node kMain ∉ Function.update ls .block [] i := by
  have hslot := block_mem_threadSlots P
  have hsplit : ls .block = [] ++ [Thread.node kMain] := hls
  obtain ⟨hlists, hloose, hsame⟩ := h.lists.remove hslot (by decide) hsplit
  have hnext : s.heap s.blockThreadList = Thread.node kMain := h.lists.rings.next_head hslot hls
  refine ⟨h.moved hlists hsame rfl rfl ?_ ?_ (fun i _ hb => Function.update_of_ne hb ..)
    fun i hplace n hn => Or.inl ?_, fun i hi hm => hloose i hi (List.mem_cons_of_mem _ hm)⟩
  · refine removeAfter_of_ne (h.top_ne (a := .blockHead) (o := 0) trivial) ?_
    rw [hnext]
    exact h.top_ne (a := .thread kMain) h.mem
  · refine removeAfter_of_ne (h.stackAddr_ne (a := .blockHead) (o := 0) trivial (by decide) (Or.inl (by simp))) ?_
    rw [hnext]
    exact h.stackAddr_ne (a := .thread kMain) h.mem (show 16 < 24 by decide) (Or.inr (by decide))
  · rcases hplace with rfl | rfl
    · rwa [Function.update_of_ne (by decide)] at hn
    · rw [Function.update_self] at hn
      exact absurd hn List.not_mem_nil

theorem ThreadLists.follow_block {Q : Set ℕ} (h : ThreadLists s Q ls) (hlen : (ls .block).length < loopFuel)
    (thread : ℕ) :
    s.follow (fun n => n == s.blockThreadList || n == Thread.node thread) s.blockThreadList =
      .ok (lastFrom s.blockThreadList ((ls .block).takeWhile fun n =>
        !(n == s.blockThreadList || n == Thread.node thread))) := by
  have hseg : Seg s.heap s.blockThreadList (ls .block) s.blockThreadList :=
    h.rings.seg .block (block_mem_threadSlots Q)
  rw [Kernel.follow, walk_seg _ hseg (by simp) hlen]

theorem Placed.follow_block (h : Placed R T P kMain s ls) (thread : ℕ) :
    s.follow (fun n => n == s.blockThreadList || n == Thread.node thread) s.blockThreadList =
      .ok (lastFrom s.blockThreadList ((ls .block).takeWhile fun n =>
        !(n == s.blockThreadList || n == Thread.node thread))) :=
  h.lists.follow_block (h.layout.ring_length subset_rfl h.ready.inv h.nodes h.lists (block_mem_threadSlots P))
    thread

theorem AllPlaced.wake_returns (hall : AllPlaced R T P kMain s) (thread : ℕ) :
    ∃ s', threadWake s thread = .ok s' := by
  obtain ⟨ls, h, -⟩ := hall
  rw [threadWake, bind_ok (h.follow_block thread)]
  split
  · exact ⟨_, rfl⟩
  · exact ⟨s, rfl⟩

theorem AllPlaced.wake (hall : AllPlaced R T P kMain s) {thread : ℕ} (ht : thread ∈ T)
    (hexec : threadWake s thread = .ok s') : AllPlaced R T P kMain s' := by
  obtain ⟨ls, h, hesp⟩ := hall
  have hslot := block_mem_threadSlots P
  have hhead : ∀ t ∈ T, s.blockThreadList ≠ Thread.node t := fun t ht =>
    h.layout.apart.word_ne (a := Piece.blockHead) (b := Piece.thread t) (o := 0) trivial ht (by simp) (by decide)
      (show 16 < 24 by decide)
  obtain ⟨tmp, hfollow, hwake⟩ := of_bind_ok hexec
  obtain rfl := Except.ok.inj ((h.follow_block thread).symm.trans hfollow)
  have hseg := h.lists.rings.seg .block hslot
  rcases h.nil_or_main hslot (Or.inr rfl) with hnil | hone
  · rw [hnil] at hseg hwake
    have hend : s.heap s.blockThreadList = s.blockThreadList := hseg
    rw [List.takeWhile_nil, lastFrom_nil, hend, if_neg (hhead thread ht)] at hwake
    obtain rfl := Except.ok.inj hwake
    exact ⟨ls, h, hesp⟩
  · rw [hone] at hseg hwake
    obtain ⟨hfirst, hend⟩ : s.heap s.blockThreadList = Thread.node kMain ∧
      s.heap (Thread.node kMain) = s.blockThreadList := hseg
    by_cases hmain : thread = kMain
    · subst hmain
      simp only [List.takeWhile_cons, beq_self_eq_true, Bool.or_true, Bool.not_true, Bool.false_eq_true,
        if_false, lastFrom_nil, hfirst, if_true] at hwake
      obtain rfl := Except.ok.inj hwake
      obtain ⟨hplaced, hn⟩ := h.unblock hone
      refine ⟨_, hplaced.enqueue (hplaced.loose_node ht hn), fun hwait => absurd ?_ hwait⟩
      rw [Function.update_self]
      simp
    · have hne : Thread.node kMain ≠ Thread.node thread := fun he => hmain (Nat.add_right_cancel he).symm
      simp only [List.takeWhile_cons, beq_eq_false_iff_ne.mpr (hhead kMain h.mem).symm,
        beq_eq_false_iff_ne.mpr hne, Bool.or_false, Bool.not_false, if_true, List.takeWhile_nil, lastFrom_cons,
        lastFrom_nil, hend, if_neg (hhead thread ht)] at hwake
      obtain rfl := Except.ok.inj hwake
      exact ⟨ls, h, hesp⟩

theorem AllPlaced.exec {op : ThreadOp} (hall : AllPlaced R T P kMain s) (hop : LinksLoose T P s op) :
    ∃ s', threadExec s op = .ok s' ∧ AllPlaced R T P kMain s' := by
  cases op with
  | create pcb => exact hall.create hop
  | run thread startFunc => exact ⟨_, rfl, hall.run startFunc hop.1 hop.2⟩
  | switch => exact ⟨_, rfl, hall.switch⟩
  | sleep => exact ⟨_, rfl, hall.sleep hop⟩
  | wake thread =>
    obtain ⟨s', hexec⟩ := hall.wake_returns thread
    exact ⟨s', hexec, hall.wake hop hexec⟩

end XyOS.Scheduling
