import XyOS.Thread.ThreadInit

/-! `DestructThread` after `CreateThread`. It clears the member `pcb` before it looks for the
list of the process there, and in the list at `NULL` it looks for the member `sibling`,
while `CreateThread` has linked the member `node` into the list of the process. -/

namespace XyOS.Scheduling
open Linked Runs Process DirectMapping

/-- The threads `ts` are in the list of the process `pcb`, by the member that
`CreateThread` links, and their records, the process and the head of the free list are
apart in memory. -/
structure HasThreads (k : Kernel) (pcb : ℕ) (ts : List ℕ) : Prop where
  ring : Seg k.heap (Pcb.threadList pcb) (ts.map Thread.node) (Pcb.threadList pcb)
  threads : ts.Pairwise fun t u => Separate (t, threadBytes) (u, threadBytes)
  process : ∀ t ∈ ts, Separate (t, threadBytes) (pcb, pcbBytes)
  free : ∀ t ∈ ts, Separate (t, threadBytes) (k.freeThreadList, 4)
  head : Separate (pcb, pcbBytes) (k.freeThreadList, 4)

/-- `DestructThread` has undone the creation of the thread `t`: it is gone from between the
threads `xs` and `ys` of its process, its stack is released and it is free. -/
structure Undone (kEnd : ℕ) (k : Kernel) (pcb : ℕ) (xs : List ℕ) (t : ℕ) (ys : List ℕ) (k' : Kernel) : Prop where
  list : Seg k'.heap (Pcb.threadList pcb) ((xs ++ ys).map Thread.node) (Pcb.threadList pcb)
  stack : relBytes kEnd k.alloc (u32 (sub32 (k.heap (Thread.stackAddr t)) kKStackSize + 1)) = .ok k'.alloc
  free : k'.heap k'.freeThreadList = Thread.node t ∧ k'.heap (Thread.node t) = k.heap k.freeThreadList

variable {kEnd pcb t z : ℕ} {xs ys ts : List ℕ} {k k' : Kernel}

theorem HasThreads.before (h : HasThreads k pcb (xs ++ t :: ys)) :
    (∀ o < threadBytes, lastFrom (Pcb.threadList pcb) (xs.map Thread.node) ≠ t + o) ∧
      lastFrom (Pcb.threadList pcb) (xs.map Thread.node) ≠ k.freeThreadList := by
  have ht : t ∈ xs ++ t :: ys := by simp
  have hmem := lastFrom_mem (Pcb.threadList pcb) (xs.map Thread.node)
  rcases List.mem_cons.mp hmem with he | hin
  · have hsep := h.process t ht
    have hhead := h.head
    simp only [Separate, threadBytes, pcbBytes] at hsep hhead ⊢
    rw [he, Pcb.threadList]
    constructor
    · intro o ho
      omega
    · omega
  · obtain ⟨u, hu, he⟩ := List.mem_map.mp hin
    have hsep := (List.pairwise_append.mp h.threads).2.2 u hu t List.mem_cons_self
    have hfree := h.free u (List.mem_append_left _ hu)
    simp only [Separate, threadBytes] at hsep hfree ⊢
    rw [← he, Thread.node]
    constructor
    · intro o ho
      omega
    · omega

theorem destructThread_heap (h : destructThread kEnd k t = .ok k') :
    ∃ prev, (Function.update k.heap (Thread.pcb t) 0) prev = Thread.sibling t ∧
      k'.heap = insertAfter (removeAfter 0 (Function.update k.heap (Thread.pcb t) 0) prev)
        k.freeThreadList (Thread.node t) := by
  obtain ⟨alloc, -, h⟩ := of_bind_ok h
  obtain ⟨prev, hfollow, h⟩ := of_bind_ok h
  obtain rfl := Except.ok.inj h
  refine ⟨prev, ?_, rfl⟩
  rw [Kernel.follow] at hfollow
  split at hfollow
  · rename_i tmp hwalk
    obtain rfl := Except.ok.inj hfollow
    have hstop := walk_stop hwalk
    simpa [Kernel.store] using hstop
  · cases hfollow

theorem HasThreads.still_linked (h : HasThreads k pcb (xs ++ t :: ys))
    (hdestruct : destructThread kEnd k t = .ok k') :
    k'.heap (lastFrom (Pcb.threadList pcb) (xs.map Thread.node)) = Thread.node t := by
  obtain ⟨prev, hprev, hheap⟩ := destructThread_heap hdestruct
  obtain ⟨hthread, hfree⟩ := h.before
  have hpcb : lastFrom (Pcb.threadList pcb) (xs.map Thread.node) ≠ Thread.pcb t := hthread 8 (by decide)
  have hnode : lastFrom (Pcb.threadList pcb) (xs.map Thread.node) ≠ Thread.node t := hthread 16 (by decide)
  have hring := h.ring
  rw [List.map_append, List.map_cons] at hring
  have hnext := hring.next_last
  have hkept : Function.update k.heap (Thread.pcb t) 0
      (lastFrom (Pcb.threadList pcb) (xs.map Thread.node)) = Thread.node t := by
    rw [Function.update_of_ne hpcb, hnext]
  have hne : lastFrom (Pcb.threadList pcb) (xs.map Thread.node) ≠ prev := by
    rintro rfl
    rw [hkept] at hprev
    simp only [Thread.node, Thread.sibling] at hprev
    omega
  rw [hheap, insertAfter_of_ne hfree hnode, removeAfter_of_ne hne, hkept]
  rw [hprev]
  exact hthread 20 (by decide)

theorem HasThreads.not_undone (h : HasThreads k pcb (xs ++ t :: ys))
    (hdestruct : destructThread kEnd k t = .ok k') : ¬ Undone kEnd k pcb xs t ys k' := by
  intro hundone
  have hlinked := h.still_linked hdestruct
  have hlist := hundone.list
  rw [List.map_append] at hlist
  cases ys with
  | nil =>
    rw [List.map_nil, List.append_nil] at hlist
    rw [hlist.next_end] at hlinked
    have hsep := h.process t (by simp)
    simp only [Separate, threadBytes, pcbBytes, Pcb.threadList, Thread.node] at hsep hlinked
    omega
  | cons y ys =>
    rw [List.map_cons] at hlist
    rw [hlist.next_last] at hlinked
    have hsep := (List.pairwise_cons.mp (List.pairwise_append.mp h.threads).2.1).1 y List.mem_cons_self
    simp only [Separate, threadBytes, Thread.node] at hsep hlinked
    omega

/-- A process whose list holds any number of threads that `CreateThread` made: no call of
`DestructThread` for any of them undoes it. -/
theorem destruct_never_undoes (kEnd : ℕ) (k : Kernel) (pcb : ℕ) (xs : List ℕ) (t : ℕ) (ys : List ℕ)
    (h : HasThreads k pcb (xs ++ t :: ys)) :
    ¬ ∃ k', destructThread kEnd k t = .ok k' ∧ Undone kEnd k pcb xs t ys k' := by
  rintro ⟨k', hdestruct, hundone⟩
  exact h.not_undone hdestruct hundone

/-! ## Threads that `CreateThread` made -/

section Made
variable {R kMain p : ℕ} {T P : Set ℕ} {s : Scheduler} {ls : ThreadSlot → List ℕ}

theorem Placed.separate (h : Placed R T P kMain s ls) {a b : Piece} (ha : a.Listed T P) (hb : b.Listed T P)
    (hab : a ≠ b) : Separate (a.base s, a.size) (b.base s, b.size) := h.layout.apart a b ha hb hab

theorem Placed.hasThreads (h : Placed R T P kMain s ls) (hp : p ∈ P) :
    ∃ ts, ls (.threads p) = ts.map Thread.node ∧ HasThreads s.toKernel p ts := by
  have hslot := threads_mem_threadSlots hp
  have hnodes : ∀ n ∈ ls (.threads p), Thread.node (threadOf n) = n ∧ threadOf n ∈ T := by
    intro n hn
    obtain ⟨t, ht, rfl⟩ := h.nodes _ hslot n hn
    rw [h.threadOf_node ht]
    exact ⟨rfl, ht⟩
  have hmap : ((ls (.threads p)).map threadOf).map Thread.node = ls (.threads p) := by
    rw [List.map_map]
    exact (List.map_congr_left fun n hn => (hnodes n hn).1).trans (List.map_id _)
  have hmem : ∀ t ∈ (ls (.threads p)).map threadOf, t ∈ T := by
    intro t ht
    obtain ⟨n, hn, rfl⟩ := List.mem_map.mp ht
    exact (hnodes n hn).2
  have hnodup : ((ls (.threads p)).map threadOf).Nodup := by
    refine List.Nodup.of_map Thread.node ?_
    rw [hmap]
    exact (List.nodup_cons.mp (h.lists.rings.nodup _ hslot)).2
  refine ⟨_, hmap.symm, ?_, ?_, ?_, ?_, ?_⟩
  · rw [hmap]
    exact h.lists.rings.seg _ hslot
  · refine hnodup.imp_of_mem fun {t u} ht hu hne => ?_
    exact h.separate (a := .thread t) (b := .thread u) (hmem t ht) (hmem u hu) (by simpa using hne)
  · intro t ht
    exact h.separate (a := .thread t) (b := .pcb p) (hmem t ht) hp (by simp)
  · intro t ht
    exact h.separate (a := .thread t) (b := .freeHead) (hmem t ht) trivial (by simp)
  · exact h.separate (a := .pcb p) (b := .freeHead) hp trivial (by simp)

end Made

theorem exists_created : ∃ alloc₀ kPcb alloc₁ s x s₁, directMappingInit 0x100000 .zero = .ok alloc₀ ∧
    (∃ pcbs list, reqAll alloc₀ [16 * pcbBytes, 4, pcbBytes] = .ok ([pcbs, list, kPcb], alloc₁)) ∧
    threadInit (bootThreads alloc₁ kPcb) = .ok s ∧ createThread s kPcb = .ok (x, s₁) ∧
    HasThreads s₁.toKernel kPcb [x] := by
  obtain ⟨alloc₀, ls, hboot, hcarved⟩ := init_megabyte
  obtain ⟨kPcb, alloc₁, b, alloc, hproc, hstart, hreq, hgranted⟩ := exists_started hcarved
  have hinit := threadInit_eq (s := bootThreads alloc₁ kPcb) hreq hgranted
  have hplaced := (hstart.arranged hreq hgranted).placed
  have hp : kPcb ∈ ({kPcb} : Set ℕ) := rfl
  have hx : b.pool + threadBytes * 127 ∈ b.threads := Or.inr ⟨127, by decide, rfl⟩
  have hfree : firstLists b .free = Thread.node (b.pool + threadBytes * 127) :: poolNodes b.pool 127 := rfl
  obtain ⟨stack, alloc', hcreate, hready, howned, hmain, -, -, hfar⟩ := hplaced.createThread hfree hx kPcb
  have hcreated := hplaced.created hfree hx hp hready howned hmain fun a ha =>
    (hfar a ha).imp_right fun hle => hle.trans (Nat.sub_le ..)
  obtain ⟨ts, hts, hthreads⟩ := hcreated.hasThreads hp
  rw [Function.update_self] at hts
  have hone : ts = [b.pool + threadBytes * 127] := by
    have hlist : [Thread.node (b.pool + threadBytes * 127)] = ts.map Thread.node := hts
    obtain ⟨t, rfl⟩ : ∃ t, ts = [t] := List.length_eq_one_iff.mp (by simpa using (congrArg List.length hlist).symm)
    rw [List.map_singleton] at hlist
    have hnode := (List.cons.inj hlist).1
    simp only [Thread.node] at hnode
    rw [List.cons.injEq]
    exact ⟨by omega, rfl⟩
  rw [hone] at hthreads
  exact ⟨alloc₀, kPcb, alloc₁, _, _, _, hboot, hproc, hinit, hcreate, hthreads⟩

theorem destruct_never_undoes_boot : ∃ alloc₀ kPcb alloc₁ s x s₁, directMappingInit 0x100000 .zero = .ok alloc₀ ∧
    threadInit (bootThreads alloc₁ kPcb) = .ok s ∧ createThread s kPcb = .ok (x, s₁) ∧
    ¬ ∃ k', destructThread 0x100000 s₁.toKernel x = .ok k' ∧ Undone 0x100000 s₁.toKernel kPcb [] x [] k' := by
  obtain ⟨alloc₀, kPcb, alloc₁, s, x, s₁, hboot, -, hinit, hcreate, hthreads⟩ := exists_created
  exact ⟨alloc₀, kPcb, alloc₁, s, x, s₁, hboot, hinit, hcreate,
    destruct_never_undoes 0x100000 s₁.toKernel kPcb [] x [] hthreads⟩

/-- If `DestructThread` of the only thread of the kernel returns at all, the head of its list
still links to the thread, which then is in the free list. -/
theorem destructed_still_listed : ∃ alloc₀ kPcb alloc₁ s x s₁, directMappingInit 0x100000 .zero = .ok alloc₀ ∧
    (∃ pcbs list, reqAll alloc₀ [16 * pcbBytes, 4, pcbBytes] = .ok ([pcbs, list, kPcb], alloc₁)) ∧
    threadInit (bootThreads alloc₁ kPcb) = .ok s ∧ createThread s kPcb = .ok (x, s₁) ∧
    HasThreads s₁.toKernel kPcb [x] ∧
    ∀ k', destructThread 0x100000 s₁.toKernel x = .ok k' →
      k'.heap (Pcb.threadList kPcb) = Thread.node x ∧ ¬ Undone 0x100000 s₁.toKernel kPcb [] x [] k' := by
  obtain ⟨alloc₀, kPcb, alloc₁, s, x, s₁, hboot, hproc, hinit, hcreate, hthreads⟩ := exists_created
  refine ⟨alloc₀, kPcb, alloc₁, s, x, s₁, hboot, hproc, hinit, hcreate, hthreads, fun k' hdestruct => ?_⟩
  have hlist : HasThreads s₁.toKernel kPcb ([] ++ x :: []) := hthreads
  exact ⟨hlist.still_linked hdestruct, hlist.not_undone hdestruct⟩

end XyOS.Scheduling
