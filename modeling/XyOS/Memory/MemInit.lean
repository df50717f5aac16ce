import XyOS.Memory.LinearMemory
import XyOS.Memory.Segment

/-! `MemInit` of `memory_manager.c` up to `DirectMappingInit`: `GdtInit` writes its descriptors
through the page tables of `PagingInit`. -/

namespace XyOS.Segment
open Paging

def gdtEntries : List Entry :=
  [⟨0, 0, 0, 0, 0⟩,
    ⟨1, kSegBaseAddr, kSegSize, access kSegPriority0 kSegTypeCode, kDescriptorFlags⟩,
    ⟨2, kSegBaseAddr, kSegSize, access kSegPriority0 kSegTypeData, kDescriptorFlags⟩,
    ⟨3, kSegBaseAddr, kSegSize, access kSegPriority3 kSegTypeCode, kDescriptorFlags⟩,
    ⟨4, kSegBaseAddr, kSegSize, access kSegPriority3 kSegTypeData, kDescriptorFlags⟩,
    ⟨5, kTssBaseAddr, sTssSize, kTssAccess, kTssFlags⟩]

def Entry.store (pd : ℕ) (m : Memory) (e : Entry) : Option Memory :=
  storeBytes pd m (gdtEntry e.i) (segDescriptor e.baseAddr e.limit e.access e.flags).bytes

def gdtInitPaged (pd : ℕ) (m : Memory) (gdtLimit : BitVec 32) : Option (Memory × Gdtr) :=
  (gdtEntries.foldlM (Entry.store pd) m).map fun m => (m, ⟨gdtLimit.setWidth 16, kGdtBaseAddr⟩)

variable {m lin : Memory}

theorem gdtInit_eq (m : Memory) (gdtLimit : BitVec 32) :
    gdtInit m gdtLimit = (gdtEntries.foldl Entry.set m, ⟨gdtLimit.setWidth 16, kGdtBaseAddr⟩) := rfl

theorem length_bytes (d : SegDescriptor) : d.bytes.length = 8 := rfl

theorem stores_simulate {n : ℕ} (hn : n ≤ 512) {es : List Entry} (hes : ∀ e ∈ es, e.i < n) (h : Tables m)
    (hshows : Shows lin m) : ∃ m', es.foldlM (Entry.store 0x1000) m = some m' ∧ Tables m' ∧
      Shows (es.foldl Entry.set lin) m' ∧ ∀ x, 8 * n ≤ x → m' x = m x := by
  induction es generalizing m lin with
  | nil => exact ⟨m, rfl, h, hshows, fun _ _ => rfl⟩
  | cons e es ih =>
    have he := hes e List.mem_cons_self
    set l := (segDescriptor e.baseAddr e.limit e.access e.flags).bytes with hl
    have hlength : l.length = 8 := length_bytes _
    have hout : ∀ x, 8 * e.i ≤ x → x < 8 * e.i + l.length → ¬ InTables x := by
      intro x _ hx
      unfold InTables
      omega
    have hin : 8 * e.i + l.length ≤ 0x4000000 := by omega
    have hstore : Entry.store 0x1000 m e = some (Text.writeBytes m (8 * e.i) l) := h.storeBytes hin hout
    obtain ⟨m', hrun, htables, hshows', hframe⟩ := ih (fun f hf => hes f (List.mem_cons_of_mem e hf))
      (h.writeBytes hout) (hshows.writeBytes (8 * e.i) l)
    refine ⟨m', ?_, htables, hshows', fun x hx => ?_⟩
    · rw [List.foldlM_cons, hstore]
      exact hrun
    · rw [hframe x hx, Text.writeBytes_of_outside (by omega)]

theorem gdtInitPaged_spec (h : Tables m) (hshows : Shows lin m) (gdtLimit : BitVec 32) :
    ∃ m', gdtInitPaged 0x1000 m gdtLimit = some (m', (gdtInit lin gdtLimit).2) ∧ Tables m' ∧
      Shows (gdtInit lin gdtLimit).1 m' ∧ ∀ x, 48 ≤ x → m' x = m x := by
  have hes : ∀ e ∈ gdtEntries, e.i < 6 := by
    simp only [gdtEntries, List.forall_mem_cons, List.not_mem_nil, false_imp_iff, implies_true, and_true]
    decide
  obtain ⟨m', hrun, htables, hshows', hframe⟩ := stores_simulate (by decide) hes h hshows
  refine ⟨m', ?_, htables, hshows', hframe⟩
  rw [gdtInitPaged, hrun, gdtInit_eq]
  rfl

end XyOS.Segment

namespace XyOS.MemoryManager
open Paging Segment PageAllocator

/-- The machine after `MemInit`, except for what `DirectMappingInit` does. -/
structure Machine where
  mem : Memory
  pageState : Bitmap
  cr3 : ℕ
  gdtr : Gdtr

/-- `none` if the page allocator does not come to an end or a store meets a page fault. -/
def memInit (avlMem : List AvlPhysMem) (m : Memory) (pageState : Bitmap) (gdtLimit : BitVec 32) : Option Machine := do
  let (m, pageState, cr3) ← (pagingInit avlMem m pageState).toOption
  let (m, gdtr) ← gdtInitPaged cr3 m gdtLimit
  some ⟨m, pageState, cr3, gdtr⟩

def physical (s : Machine) (sel : BitVec 16) (offset : BitVec 32) : Option ℕ :=
  (linear (linearMemory s.cr3 s.mem) s.gdtr sel offset).bind fun v => walk s.mem s.cr3 v.toNat

structure Segmented (gdtLimit : BitVec 32) (s : Machine) : Prop where
  cr3 : s.cr3 = 0x1000
  tables : Tables s.mem
  gdt : ∃ lin, (∀ x < 48, (gdtInit lin gdtLimit).1 (0xc0000000 + x) = s.mem x) ∧ s.gdtr = (gdtInit lin gdtLimit).2

theorem pagingInit_eq (avlMem : List AvlPhysMem) (m : Memory) (pageState : Bitmap) :
    (pagingInit avlMem m pageState).toOption =
      (pageAllocatorInit avlMem pageState).toOption.map fun b => (kernelTables m, b, 0x1000) := by
  rw [pagingInit]
  cases pageAllocatorInit avlMem pageState with
  | error e => rfl
  | ok b => rfl

theorem memInit_of_some {avlMem : List AvlPhysMem} {m m₁ m₂ : Memory} {pageState b : Bitmap} {gdtLimit : BitVec 32}
    {cr3 : ℕ} {gdtr : Gdtr} (hpaging : (pagingInit avlMem m pageState).toOption = some (m₁, b, cr3))
    (hgdt : gdtInitPaged cr3 m₁ gdtLimit = some (m₂, gdtr)) :
    memInit avlMem m pageState gdtLimit = some ⟨m₂, b, cr3, gdtr⟩ := by
  rw [memInit, hpaging]
  change (gdtInitPaged cr3 m₁ gdtLimit).bind _ = _
  rw [hgdt]
  rfl

theorem memInit_of_none {avlMem : List AvlPhysMem} {m : Memory} {pageState : Bitmap} {gdtLimit : BitVec 32}
    (hpaging : (pagingInit avlMem m pageState).toOption = none) :
    memInit avlMem m pageState gdtLimit = none := by
  rw [memInit, hpaging]
  rfl

theorem memInit_spec (m : Memory) (gdtLimit : BitVec 32) : ∃ m' gdtr,
    (∀ avlMem pageState, memInit avlMem m pageState gdtLimit =
      (pageAllocatorInit avlMem pageState).toOption.map fun b => ⟨m', b, 0x1000, gdtr⟩) ∧
    (∀ b, Segmented gdtLimit ⟨m', b, 0x1000, gdtr⟩) ∧ ∀ x, 48 ≤ x → ¬ InTables x → m' x = m x := by
  have htables := tables_kernelTables m
  obtain ⟨m', hrun, htables', hshows, hframe⟩ := gdtInitPaged_spec htables htables.shows gdtLimit
  refine ⟨m', _, fun avlMem b => ?_, fun b => ⟨rfl, htables', ⟨_, fun x hx => hshows x (by omega), rfl⟩⟩,
    fun x hx hout => ?_⟩
  · have hpaging := pagingInit_eq avlMem m b
    cases hpage : (pageAllocatorInit avlMem b).toOption with
    | none => exact memInit_of_none (hpaging.trans (congrArg _ hpage))
    | some b' => exact memInit_of_some (hpaging.trans (congrArg _ hpage)) hrun
  · unfold InTables at hout
    rw [hframe x hx]
    exact (kernelTables_spec m).2.2 x (by omega) (by omega)

variable {gdtLimit : BitVec 32} {s : Machine}

theorem Segmented.linearMemory_gdt (h : Segmented gdtLimit s) : ∃ lin, s.gdtr = (gdtInit lin gdtLimit).2 ∧
    ∀ x, 0xc0000000 ≤ x → x < 0xc0000000 + 48 → linearMemory s.cr3 s.mem x = (gdtInit lin gdtLimit).1 x := by
  obtain ⟨lin, hmem, hgdtr⟩ := h.gdt
  refine ⟨lin, hgdtr, fun x hx hx' => ?_⟩
  obtain ⟨y, rfl⟩ := Nat.exists_eq_add_of_le hx
  rw [h.cr3, h.tables.shows y (by omega), hmem y (by omega)]

theorem Segmented.lookup (h : Segmented gdtLimit s) {d : BitVec 16 × BitVec 8} (hd : d ∈ segments) :
    lookup (linearMemory s.cr3 s.mem) s.gdtr d.1 =
      if 8 * (d.1 >>> 3).toNat + 7 ≤ (gdtLimit.setWidth 16).toNat then some (flat d.2) else none := by
  obtain ⟨lin, hgdtr, hmem⟩ := h.linearMemory_gdt
  have hindices : ∀ s ∈ segments, (s.1 >>> 3).toNat ≤ 4 := forall_segments.mpr (by decide)
  have hindex := hindices d hd
  have hbase : (gdtInit lin gdtLimit).2.baseAddr = 0xc0000000 := rfl
  rw [hgdtr, lookup_congr fun x hx hx' => hmem x (by omega) (by omega), lookup_segments lin gdtLimit hd]

theorem Segmented.physical (h : Segmented gdtLimit s) {d : BitVec 16 × BitVec 8} (hd : d ∈ segments)
    (offset : BitVec 32) : physical s d.1 offset =
      if 8 * (d.1 >>> 3).toNat + 7 ≤ (gdtLimit.setWidth 16).toNat then translate offset.toNat else none := by
  have hpresent : ∀ s ∈ segments, (flat s.2).Present := forall_segments.mpr (by decide)
  have hsize : offset.toNat ≤ (flat d.2).size := by
    rw [size_flat]
    exact Nat.le_of_lt_succ offset.isLt
  rw [MemoryManager.physical, linear, h.lookup hd]
  split_ifs with hle
  · simp only [if_pos (And.intro (hpresent d hd) hsize), Option.bind_some]
    rw [h.cr3, show (flat d.2).base + offset = offset from BitVec.zero_add offset, h.tables.walk offset.isLt]
  · rfl

theorem segmented_of_mem {avlMem : List AvlPhysMem} {m : Memory} {pageState : Bitmap}
    (h : s ∈ memInit avlMem m pageState gdtLimit) : Segmented gdtLimit s := by
  obtain ⟨m', gdtr, hrun, hsegmented, -⟩ := memInit_spec m gdtLimit
  rw [hrun] at h
  obtain ⟨b, -, rfl⟩ := Option.map_eq_some_iff.mp h
  exact hsegmented b

/-- `MemInit` ends whenever the page allocator does. From then on each segment of the kernel and of
the processes leads an offset below 4 MB to itself, one of the direct mapping area to physical
memory and every other one to a page fault, if its descriptor lies below the limit of the table. No
byte outside the descriptors and the page tables has changed. -/
theorem memInit_physical (m : Memory) (gdtLimit : BitVec 32) (avlMem : List AvlPhysMem) (pageState : Bitmap) :
    ((memInit avlMem m pageState gdtLimit).isSome = true ↔ ∃ b, pageAllocatorInit avlMem pageState = .ok b) ∧
      ∀ s ∈ memInit avlMem m pageState gdtLimit,
        (∀ d ∈ segments, ∀ offset, physical s d.1 offset =
          if 8 * (d.1 >>> 3).toNat + 7 ≤ (gdtLimit.setWidth 16).toNat then translate offset.toNat else none) ∧
        ∀ x, 48 ≤ x → ¬ InTables x → s.mem x = m x := by
  obtain ⟨m', gdtr, hrun, -, hframe⟩ := memInit_spec m gdtLimit
  refine ⟨?_, fun s hs => ⟨fun d hd offset => (segmented_of_mem hs).physical hd offset, ?_⟩⟩
  · rw [hrun]
    cases pageAllocatorInit avlMem pageState with
    | error e => simp [Except.toOption]
    | ok b => simp [Except.toOption]
  · rw [hrun] at hs
    obtain ⟨b, -, rfl⟩ := Option.map_eq_some_iff.mp hs
    exact hframe

end XyOS.MemoryManager
