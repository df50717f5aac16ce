import Mathlib.Logic.Function.Basic
import XyOS.Memory.PageAllocatorDefs

/-! The table of available memory that `kernel_start` makes of the memory map of
the bootloader. An entry of the map has 64-bit words and one of the table 32-bit
words, and a size of `0xffffffff` ends the table. The loop goes over the map as a
list, so the `size` field that leads from one entry to the next is left out. -/

namespace XyOS.Boot

open PageAllocator

structure MultibootMmapEntry where
  addr : ℕ
  len : ℕ
  type : ℕ
deriving DecidableEq, Repr

def multibootMemoryAvailable : ℕ := 1

def uint32Max : ℕ := 0xffffffff

def record (mmap : MultibootMmapEntry) : AvlPhysMem := ⟨u32 mmap.addr, u32 mmap.len⟩

def fillAvlMem : List MultibootMmapEntry → (ℕ → AvlPhysMem) → ℕ → ℕ → AvlPhysMem
  | [], avlMem, t => Function.update avlMem t { avlMem t with size := uint32Max }
  | mmap :: rest, avlMem, t =>
    if mmap.type = multibootMemoryAvailable then
      fillAvlMem rest (Function.update avlMem t (record mmap)) (t + 1)
    else fillAvlMem rest avlMem t

def detectAvlMem (mmap : List MultibootMmapEntry) (avlMem : ℕ → AvlPhysMem) : ℕ → AvlPhysMem :=
  fillAvlMem mmap avlMem 0

/-! ## What the table should say -/

def Covers (t : AvlPhysMem) (x : ℕ) : Prop := t.addr ≤ x ∧ x < t.addr + t.size

namespace MultibootMmapEntry

def Available (e : MultibootMmapEntry) : Prop := e.type = multibootMemoryAvailable

instance : DecidablePred Available := fun e => inferInstanceAs (Decidable (e.type = _))

def Covers (e : MultibootMmapEntry) (x : ℕ) : Prop := e.addr ≤ x ∧ x < e.addr + e.len

end MultibootMmapEntry

def availableEntries (mmap : List MultibootMmapEntry) : List MultibootMmapEntry :=
  mmap.filter fun e => e.Available

/-- The first entry of size `0xffffffff` is the one at `n`. -/
def EndsAt (avlMem : ℕ → AvlPhysMem) (n : ℕ) : Prop :=
  (avlMem n).size = uint32Max ∧ ∀ i < n, (avlMem i).size ≠ uint32Max

/-- The entries that `PageAllocatorInit` and `RelPage` go over in a table that ends at `n`. -/
def entries (avlMem : ℕ → AvlPhysMem) (n : ℕ) : List AvlPhysMem := (List.range n).map avlMem

structure Faithful (mmap : List MultibootMmapEntry) (avlMem : ℕ → AvlPhysMem) : Prop where
  endsAt : EndsAt avlMem (availableEntries mmap).length
  covers : ∀ n, EndsAt avlMem n → ∀ x < 2 ^ 32,
    ((∃ t ∈ entries avlMem n, Covers t x) ↔ ∃ e ∈ availableEntries mmap, e.Covers x)

theorem EndsAt.unique {avlMem : ℕ → AvlPhysMem} {m n : ℕ} (hm : EndsAt avlMem m) (hn : EndsAt avlMem n) :
    m = n := by
  rcases Nat.lt_trichotomy m n with hlt | heq | hgt
  · exact absurd hm.1 (hn.2 m hlt)
  · exact heq
  · exact absurd hn.1 (hm.2 n hgt)

/-! ## The loop -/

variable {mmap : List MultibootMmapEntry} {avlMem : ℕ → AvlPhysMem}

theorem fillAvlMem_below (mmap : List MultibootMmapEntry) (avlMem : ℕ → AvlPhysMem) {i t : ℕ} (h : i < t) :
    fillAvlMem mmap avlMem t i = avlMem i := by
  induction mmap generalizing avlMem t with
  | nil => exact Function.update_of_ne (Nat.ne_of_lt h) ..
  | cons e mmap ih =>
    rw [fillAvlMem]
    split
    · rw [ih _ (Nat.lt_succ_of_lt h)]
      exact Function.update_of_ne (Nat.ne_of_lt h) ..
    · exact ih _ h

theorem availableEntries_cons_of_available {e : MultibootMmapEntry} (h : e.Available) :
    availableEntries (e :: mmap) = e :: availableEntries mmap :=
  List.filter_cons_of_pos (decide_eq_true h)

theorem availableEntries_cons_of_not {e : MultibootMmapEntry} (h : ¬ e.Available) :
    availableEntries (e :: mmap) = availableEntries mmap :=
  List.filter_cons_of_neg (by simpa using h)

theorem fillAvlMem_cons_of_available {e : MultibootMmapEntry} (h : e.Available) (t : ℕ) :
    fillAvlMem (e :: mmap) avlMem t = fillAvlMem mmap (Function.update avlMem t (record e)) (t + 1) :=
  if_pos h

theorem fillAvlMem_cons_of_not {e : MultibootMmapEntry} (h : ¬ e.Available) (t : ℕ) :
    fillAvlMem (e :: mmap) avlMem t = fillAvlMem mmap avlMem t :=
  if_neg h

theorem fillAvlMem_record (mmap : List MultibootMmapEntry) (avlMem : ℕ → AvlPhysMem) {t i : ℕ}
    {e : MultibootMmapEntry} (h : (availableEntries mmap)[i]? = some e) :
    fillAvlMem mmap avlMem t (t + i) = record e := by
  induction mmap generalizing avlMem t i with
  | nil => cases h
  | cons f mmap ih =>
    by_cases hf : f.Available
    · rw [availableEntries_cons_of_available hf] at h
      rw [fillAvlMem_cons_of_available hf]
      cases i with
      | zero =>
        obtain rfl : f = e := Option.some.inj h
        exact (fillAvlMem_below _ _ (Nat.lt_add_one t)).trans (Function.update_self ..)
      | succ i =>
        rw [← Nat.add_assoc, Nat.add_right_comm]
        exact ih _ h
    · rw [availableEntries_cons_of_not hf] at h
      rw [fillAvlMem_cons_of_not hf]
      exact ih _ h

theorem fillAvlMem_end (mmap : List MultibootMmapEntry) (avlMem : ℕ → AvlPhysMem) (t : ℕ) :
    (fillAvlMem mmap avlMem t (t + (availableEntries mmap).length)).size = uint32Max := by
  induction mmap generalizing avlMem t with
  | nil =>
    show (Function.update avlMem t _ t).size = uint32Max
    rw [Function.update_self]
  | cons e mmap ih =>
    by_cases he : e.Available
    · rw [availableEntries_cons_of_available he, fillAvlMem_cons_of_available he, List.length_cons,
        ← Nat.add_assoc, Nat.add_right_comm]
      exact ih _ (t + 1)
    · rw [availableEntries_cons_of_not he, fillAvlMem_cons_of_not he]
      exact ih _ t

theorem entries_detectAvlMem (mmap : List MultibootMmapEntry) (avlMem : ℕ → AvlPhysMem) :
    entries (detectAvlMem mmap avlMem) (availableEntries mmap).length = (availableEntries mmap).map record := by
  apply List.ext_getElem
  · simp [entries]
  · intro i h1 h2
    have hi : i < (availableEntries mmap).length := by simpa [entries] using h1
    have hrec := fillAvlMem_record mmap avlMem (t := 0) (List.getElem?_eq_getElem hi)
    rw [Nat.zero_add] at hrec
    simpa [entries, detectAvlMem] using hrec

theorem detectAvlMem_endsAt_iff (mmap : List MultibootMmapEntry) (avlMem : ℕ → AvlPhysMem) :
    EndsAt (detectAvlMem mmap avlMem) (availableEntries mmap).length ↔
      ∀ e ∈ availableEntries mmap, u32 e.len ≠ uint32Max := by
  have hlast := fillAvlMem_end mmap avlMem 0
  rw [Nat.zero_add] at hlast
  have hentries := entries_detectAvlMem mmap avlMem
  constructor
  · intro h e he
    have hmem : record e ∈ entries (detectAvlMem mmap avlMem) (availableEntries mmap).length := by
      rw [hentries]
      exact List.mem_map_of_mem he
    obtain ⟨i, hi, hrec⟩ := List.mem_map.mp hmem
    have hsize := h.2 i (List.mem_range.mp hi)
    rw [hrec] at hsize
    exact hsize
  · intro h
    refine ⟨hlast, fun i hi => ?_⟩
    have hmem : detectAvlMem mmap avlMem i ∈ (availableEntries mmap).map record := by
      rw [← hentries]
      exact List.mem_map_of_mem (List.mem_range.mpr hi)
    obtain ⟨e, he, hrec⟩ := List.mem_map.mp hmem
    rw [← hrec]
    exact h e he

/-! ## Words cut to 32 bits -/

/-- Bytes below 4 GB that the record of a long entry leaves out. -/
def Lost (e : MultibootMmapEntry) (x : ℕ) : Prop :=
  e.addr < 2 ^ 32 ∧ 2 ^ 32 ≤ e.len ∧ e.addr + u32 e.len ≤ x

/-- Bytes below 4 GB that the record of an entry above 4 GB covers. -/
def Added (e : MultibootMmapEntry) (x : ℕ) : Prop :=
  2 ^ 32 ≤ e.addr ∧ u32 e.addr ≤ x ∧ x < u32 e.addr + u32 e.len

theorem covers_record_iff {e : MultibootMmapEntry} {x : ℕ} (hx : x < 2 ^ 32) :
    Covers (record e) x ↔ e.Covers x ∧ ¬ Lost e x ∨ Added e x := by
  simp only [Covers, record, MultibootMmapEntry.Covers, Lost, Added]
  have haddr : e.addr < 2 ^ 32 → u32 e.addr = e.addr := u32_of_lt
  have hlen : e.len < 2 ^ 32 → u32 e.len = e.len := u32_of_lt
  have hle : u32 e.len ≤ e.len := Nat.mod_le _ _
  omega

theorem Lost.covers {e : MultibootMmapEntry} {x : ℕ} (h : Lost e x) (hx : x < 2 ^ 32) : e.Covers x := by
  obtain ⟨-, hlen, hlow⟩ := h
  constructor
  · omega
  · omega

/-- The table is faithful exactly when no stored length is the end mark, some record covers what is lost
below 4 GB, and some entry of the map covers what is added there. -/
theorem detectAvlMem_faithful_iff (mmap : List MultibootMmapEntry) (avlMem : ℕ → AvlPhysMem) :
    Faithful mmap (detectAvlMem mmap avlMem) ↔
      (∀ e ∈ availableEntries mmap, u32 e.len ≠ uint32Max) ∧
      ∀ e ∈ availableEntries mmap, ∀ x < 2 ^ 32,
        (Lost e x → ∃ f ∈ availableEntries mmap, Covers (record f) x) ∧
        (Added e x → ∃ f ∈ availableEntries mmap, f.Covers x) := by
  have hmem : ∀ x, (∃ t ∈ entries (detectAvlMem mmap avlMem) (availableEntries mmap).length, Covers t x) ↔
      ∃ e ∈ availableEntries mmap, Covers (record e) x := by
    intro x
    rw [entries_detectAvlMem]
    simp only [List.mem_map, exists_exists_and_eq_and]
  constructor
  · intro h
    refine ⟨(detectAvlMem_endsAt_iff mmap avlMem).mp h.endsAt, fun e he x hx => ?_⟩
    have hiff := (hmem x).symm.trans (h.covers _ h.endsAt x hx)
    exact ⟨fun hlost => hiff.mpr ⟨e, he, hlost.covers hx⟩,
      fun hadded => hiff.mp ⟨e, he, (covers_record_iff hx).mpr (Or.inr hadded)⟩⟩
  · rintro ⟨hmark, hbytes⟩
    have hend := (detectAvlMem_endsAt_iff mmap avlMem).mpr hmark
    refine ⟨hend, fun n hn x hx => ?_⟩
    rw [← hend.unique hn, hmem x]
    constructor
    · rintro ⟨e, he, hcov⟩
      rcases (covers_record_iff hx).mp hcov with ⟨hcov, -⟩ | hadded
      · exact ⟨e, he, hcov⟩
      · exact (hbytes e he x hx).2 hadded
    · rintro ⟨e, he, hcov⟩
      by_cases hlost : Lost e x
      · exact (hbytes e he x hx).1 hlost
      · exact ⟨e, he, (covers_record_iff hx).mpr (Or.inl ⟨hcov, hlost⟩)⟩

/-- On a machine with 8 GB the memory above 4 GB is entered a second time from address 0 on. -/
theorem detectAvlMem_not_faithful :
    ¬ Faithful [⟨0x100000, 0xbff00000, 1⟩, ⟨0x100000000, 0x140000000, 1⟩]
      (detectAvlMem [⟨0x100000, 0xbff00000, 1⟩, ⟨0x100000000, 0x140000000, 1⟩] fun _ => ⟨0, 0⟩) := by
  intro h
  have hcov := h.covers _ h.endsAt 0 (by decide)
  rw [entries_detectAvlMem] at hcov
  obtain ⟨e, he, hlow, -⟩ := hcov.mp ⟨record ⟨0x100000000, 0x140000000, 1⟩,
    List.mem_map_of_mem (by decide), by decide, by decide⟩
  have hmem := (List.mem_filter.mp he).1
  simp only [List.mem_cons, List.not_mem_nil, or_false] at hmem
  rcases hmem with rfl | rfl
  · exact absurd hlow (by decide)
  · exact absurd hlow (by decide)

end XyOS.Boot
