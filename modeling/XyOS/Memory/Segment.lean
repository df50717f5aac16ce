import Mathlib.Tactic.SplitIfs
import XyOS.Foundation.Text

/-! The global descriptor table of `segment.c` and the processor that reads it. -/

namespace XyOS.Segment
open Text

def kKCodeSeg : BitVec 16 := 0x8
def kKDataSeg : BitVec 16 := 0x10
def kUCodeSeg : BitVec 16 := 0x1b
def kUDataSeg : BitVec 16 := 0x23

def kTssBaseAddr : BitVec 32 := 0xc001e000
def kGdtBaseAddr : ℕ := 0xc0000000
def kGdtEntrySize : ℕ := 8
def kSegSize : BitVec 32 := 0xffffffff
def kDescriptorFlags : BitVec 8 := 0xc
def kSegBaseAddr : BitVec 32 := 0
def kSegPriority0 : BitVec 8 := 0x9
def kSegPriority3 : BitVec 8 := 0xf
def kSegTypeData : BitVec 8 := 0x2
def kSegTypeCode : BitVec 8 := 0xa
def sTssSize : BitVec 32 := 103
def kTssAccess : BitVec 8 := 0x89
def kTssFlags : BitVec 8 := 0x1

def access (priority type : BitVec 8) : BitVec 8 := priority <<< 4 ||| type

structure SegDescriptor where
  limit_0_15 : BitVec 16
  baseAddr_0_15 : BitVec 16
  baseAddr_16_23 : BitVec 8
  access : BitVec 8
  limit_16_19 : BitVec 4
  flags : BitVec 4
  baseAddr_24_31 : BitVec 8

def segDescriptor (baseAddr limit : BitVec 32) (access flags : BitVec 8) : SegDescriptor where
  limit_0_15 := limit.setWidth 16
  limit_16_19 := (limit >>> 16).setWidth 4
  baseAddr_0_15 := baseAddr.setWidth 16
  baseAddr_16_23 := (baseAddr >>> 16).setWidth 8
  baseAddr_24_31 := (baseAddr >>> 24).setWidth 8
  access := access
  flags := flags.setWidth 4

/-- The packed record. The bit field declared first has the low bits. -/
def SegDescriptor.bytes (d : SegDescriptor) : List UInt8 :=
  [⟨d.limit_0_15.setWidth 8⟩, ⟨(d.limit_0_15 >>> 8).setWidth 8⟩,
    ⟨d.baseAddr_0_15.setWidth 8⟩, ⟨(d.baseAddr_0_15 >>> 8).setWidth 8⟩,
    ⟨d.baseAddr_16_23⟩, ⟨d.access⟩, ⟨d.flags ++ d.limit_16_19⟩, ⟨d.baseAddr_24_31⟩]

def setGdtEntry (m : Memory) (descriptor : ℕ) (baseAddr limit : BitVec 32) (access flags : BitVec 8) :
    Memory :=
  writeBytes m descriptor (segDescriptor baseAddr limit access flags).bytes

def gdtEntry (i : ℕ) : ℕ := kGdtBaseAddr + kGdtEntrySize * i

structure Gdtr where
  limit : BitVec 16
  baseAddr : ℕ

/-- `GdtInit` up to the loading of `%gdtr`. The limit is the low half of the address of
the function `GdtLimit`, which is not called. -/
def gdtInit (m : Memory) (gdtLimit : BitVec 32) : Memory × Gdtr :=
  let m := setGdtEntry m (gdtEntry 0) 0 0 0 0
  let m := setGdtEntry m (gdtEntry 1) kSegBaseAddr kSegSize (access kSegPriority0 kSegTypeCode) kDescriptorFlags
  let m := setGdtEntry m (gdtEntry 2) kSegBaseAddr kSegSize (access kSegPriority0 kSegTypeData) kDescriptorFlags
  let m := setGdtEntry m (gdtEntry 3) kSegBaseAddr kSegSize (access kSegPriority3 kSegTypeCode) kDescriptorFlags
  let m := setGdtEntry m (gdtEntry 4) kSegBaseAddr kSegSize (access kSegPriority3 kSegTypeData) kDescriptorFlags
  let m := setGdtEntry m (gdtEntry 5) kTssBaseAddr sTssSize kTssAccess kTssFlags
  (m, ⟨gdtLimit.setWidth 16, kGdtBaseAddr⟩)

/-! ## The processor -/

structure Descriptor where
  base : BitVec 32
  limit : BitVec 20
  access : BitVec 8
  flags : BitVec 4
deriving DecidableEq

def readDescriptor (m : Memory) (a : ℕ) : Descriptor where
  base := (m (a + 7)).toBitVec ++ (m (a + 4)).toBitVec ++ (m (a + 3)).toBitVec ++ (m (a + 2)).toBitVec
  limit := (m (a + 6)).toBitVec.setWidth 4 ++ (m (a + 1)).toBitVec ++ (m a).toBitVec
  access := (m (a + 5)).toBitVec
  flags := ((m (a + 6)).toBitVec >>> 4).setWidth 4

def Descriptor.Present (d : Descriptor) : Prop := d.access.getLsbD 7 = true

instance (d : Descriptor) : Decidable d.Present := inferInstanceAs (Decidable (_ = _))

def Descriptor.dpl (d : Descriptor) : BitVec 2 := (d.access >>> 5).setWidth 2

def Descriptor.IsCode (d : Descriptor) : Prop := d.access.getLsbD 4 = true ∧ d.access.getLsbD 3 = true

instance (d : Descriptor) : Decidable d.IsCode := inferInstanceAs (Decidable (_ ∧ _))

/-- The greatest offset: the limit counts pages if the granularity flag is set. -/
def Descriptor.size (d : Descriptor) : ℕ :=
  if d.flags.getLsbD 3 = true then d.limit.toNat * 2 ^ 12 + (2 ^ 12 - 1) else d.limit.toNat

/-- The descriptor that a selector names, if it is not the null selector and lies below the
limit of the table. -/
def lookup (m : Memory) (gdtr : Gdtr) (sel : BitVec 16) : Option Descriptor :=
  let i := (sel >>> 3).toNat
  if i = 0 ∨ sel.getLsbD 2 = true ∨ gdtr.limit.toNat < kGdtEntrySize * i + (kGdtEntrySize - 1) then none
  else some (readDescriptor m (gdtr.baseAddr + kGdtEntrySize * i))

def linear (m : Memory) (gdtr : Gdtr) (sel : BitVec 16) (offset : BitVec 32) : Option (BitVec 32) :=
  match lookup m gdtr sel with
  | none => none
  | some d => if d.Present ∧ offset.toNat ≤ d.size then some (d.base + offset) else none

/-! ## Descriptors in memory -/

variable {m : Memory} {a a' : ℕ}

theorem word_bytes (w : BitVec 32) : (w >>> 24).setWidth 8 ++ (w >>> 16).setWidth 8 ++
    (w.setWidth 16 >>> 8).setWidth 8 ++ (w.setWidth 16).setWidth 8 = w := by
  apply BitVec.eq_of_getLsbD_eq
  intro i hi
  simp only [BitVec.getLsbD_append, BitVec.getLsbD_setWidth, BitVec.getLsbD_ushiftRight]
  split_ifs <;> grind

theorem limit_bytes (w : BitVec 32) (f : BitVec 4) : (f ++ (w >>> 16).setWidth 4).setWidth 4 ++
    (w.setWidth 16 >>> 8).setWidth 8 ++ (w.setWidth 16).setWidth 8 = w.setWidth 20 := by
  apply BitVec.eq_of_getLsbD_eq
  intro i hi
  simp only [BitVec.getLsbD_append, BitVec.getLsbD_setWidth, BitVec.getLsbD_ushiftRight]
  split_ifs <;> grind

theorem flags_bits (f l : BitVec 4) : ((f ++ l) >>> 4).setWidth 4 = f := by
  apply BitVec.eq_of_getLsbD_eq
  intro i hi
  simp only [BitVec.getLsbD_append, BitVec.getLsbD_setWidth, BitVec.getLsbD_ushiftRight]
  split_ifs <;> grind

theorem readDescriptor_congr {m' : Memory} (h : ∀ x, a ≤ x → x < a + 8 → m' x = m x) :
    readDescriptor m' a = readDescriptor m a := by
  simp only [readDescriptor, h a (by omega) (by omega), h (a + 1) (by omega) (by omega),
    h (a + 2) (by omega) (by omega), h (a + 3) (by omega) (by omega), h (a + 4) (by omega) (by omega),
    h (a + 5) (by omega) (by omega), h (a + 6) (by omega) (by omega), h (a + 7) (by omega) (by omega)]

theorem lookup_congr {m' : Memory} {gdtr : Gdtr} {sel : BitVec 16}
    (h : ∀ x, gdtr.baseAddr + 8 * (sel >>> 3).toNat ≤ x → x < gdtr.baseAddr + 8 * (sel >>> 3).toNat + 8 →
      m' x = m x) : lookup m' gdtr sel = lookup m gdtr sel := by
  have hread : readDescriptor m' (gdtr.baseAddr + kGdtEntrySize * (sel >>> 3).toNat) =
      readDescriptor m (gdtr.baseAddr + kGdtEntrySize * (sel >>> 3).toNat) := readDescriptor_congr h
  simp only [lookup]
  rw [hread]

theorem readDescriptor_setGdtEntry (m : Memory) (a : ℕ) (baseAddr limit : BitVec 32) (access flags : BitVec 8) :
    readDescriptor (setGdtEntry m a baseAddr limit access flags) a =
      ⟨baseAddr, limit.setWidth 20, access, flags.setWidth 4⟩ := by
  let d := segDescriptor baseAddr limit access flags
  have hbyte (i : ℕ) (hi : i < d.bytes.length) :
      setGdtEntry m a baseAddr limit access flags (a + i) = d.bytes[i] := writeBytes_apply hi
  have h0 := hbyte 0 (show 0 < 8 by decide)
  rw [Nat.add_zero] at h0
  rw [readDescriptor, hbyte 7 (show 7 < 8 by decide), hbyte 6 (show 6 < 8 by decide),
    hbyte 5 (show 5 < 8 by decide), hbyte 4 (show 4 < 8 by decide), hbyte 3 (show 3 < 8 by decide),
    hbyte 2 (show 2 < 8 by decide), hbyte 1 (show 1 < 8 by decide), h0]
  exact congr (congrFun (congrArg₂ Descriptor.mk (word_bytes baseAddr) (limit_bytes limit _)) access)
    (flags_bits _ _)

theorem setGdtEntry_of_outside {x : ℕ} (baseAddr limit : BitVec 32) (access flags : BitVec 8)
    (h : x < a ∨ a + 8 ≤ x) : setGdtEntry m a baseAddr limit access flags x = m x :=
  writeBytes_of_outside h

theorem readDescriptor_setGdtEntry_of_ne {i j : ℕ} (baseAddr limit : BitVec 32) (access flags : BitVec 8)
    (h : i ≠ j) : readDescriptor (setGdtEntry m (gdtEntry j) baseAddr limit access flags) (gdtEntry i) =
      readDescriptor m (gdtEntry i) := by
  refine readDescriptor_congr fun x h₁ h₂ => setGdtEntry_of_outside _ _ _ _ ?_
  simp only [gdtEntry, kGdtEntrySize] at h₁ h₂ ⊢
  omega

/-! ## The table after `GdtInit` -/

def flat (access : BitVec 8) : Descriptor := ⟨0, 0xfffff, access, 0xc⟩

theorem size_flat (access : BitVec 8) : (flat access).size = 2 ^ 32 - 1 := by
  simp [Descriptor.size, flat]

def segments : List (BitVec 16 × BitVec 8) :=
  [(kKCodeSeg, access kSegPriority0 kSegTypeCode), (kKDataSeg, access kSegPriority0 kSegTypeData),
    (kUCodeSeg, access kSegPriority3 kSegTypeCode), (kUDataSeg, access kSegPriority3 kSegTypeData)]

theorem forall_segments {P : BitVec 16 × BitVec 8 → Prop} : (∀ s ∈ segments, P s) ↔
    P (kKCodeSeg, access kSegPriority0 kSegTypeCode) ∧ P (kKDataSeg, access kSegPriority0 kSegTypeData) ∧
      P (kUCodeSeg, access kSegPriority3 kSegTypeCode) ∧ P (kUDataSeg, access kSegPriority3 kSegTypeData) := by
  simp only [segments, List.forall_mem_cons, List.not_mem_nil, false_imp_iff, implies_true, and_true]

section Init
variable (m : Memory) (gdtLimit : BitVec 32)

theorem readDescriptor_segments {s : BitVec 16 × BitVec 8} (hs : s ∈ segments) :
    readDescriptor (gdtInit m gdtLimit).1 (gdtEntry (s.1 >>> 3).toNat) = flat s.2 := by
  have hpast {j k : ℕ} (h : j ≠ k) (m : Memory) (b l : BitVec 32) (ac fl : BitVec 8) :=
    readDescriptor_setGdtEntry_of_ne (m := m) b l ac fl h
  simp only [segments, List.mem_cons, List.not_mem_nil, or_false] at hs
  simp only [gdtInit]
  rcases hs with rfl | rfl | rfl | rfl
  · rw [show (kKCodeSeg >>> 3).toNat = 1 from rfl, hpast, hpast, hpast, hpast, readDescriptor_setGdtEntry] <;> decide
  · rw [show (kKDataSeg >>> 3).toNat = 2 from rfl, hpast, hpast, hpast, readDescriptor_setGdtEntry] <;> decide
  · rw [show (kUCodeSeg >>> 3).toNat = 3 from rfl, hpast, hpast, readDescriptor_setGdtEntry] <;> decide
  · rw [show (kUDataSeg >>> 3).toNat = 4 from rfl, hpast, readDescriptor_setGdtEntry] <;> decide

theorem lookup_segments {s : BitVec 16 × BitVec 8} (hs : s ∈ segments) :
    lookup (gdtInit m gdtLimit).1 (gdtInit m gdtLimit).2 s.1 =
      if 8 * (s.1 >>> 3).toNat + 7 ≤ (gdtLimit.setWidth 16).toNat then some (flat s.2) else none := by
  have hsel : ∀ s ∈ segments, (s.1 >>> 3).toNat ≠ 0 ∧ s.1.getLsbD 2 = false := forall_segments.mpr (by decide)
  have hread := readDescriptor_segments m gdtLimit hs
  rw [gdtEntry] at hread
  simp only [lookup, (hsel s hs).1, (hsel s hs).2, Bool.false_eq_true, false_or, kGdtEntrySize]
  by_cases hle : 8 * (s.1 >>> 3).toNat + 7 ≤ (gdtLimit.setWidth 16).toNat
  · rw [if_pos hle]
    exact (if_neg (Nat.not_lt.mpr hle)).trans (congrArg some hread)
  · rw [if_neg hle]
    exact if_pos (Nat.not_le.mp hle)

theorem linear_segments {s : BitVec 16 × BitVec 8} (hs : s ∈ segments) (offset : BitVec 32) :
    linear (gdtInit m gdtLimit).1 (gdtInit m gdtLimit).2 s.1 offset =
      if 8 * (s.1 >>> 3).toNat + 7 ≤ (gdtLimit.setWidth 16).toNat then some offset else none := by
  have hpresent : ∀ s ∈ segments, (flat s.2).Present := forall_segments.mpr (by decide)
  have hsize : offset.toNat ≤ (flat s.2).size := by
    rw [size_flat]
    exact Nat.le_of_lt_succ offset.isLt
  rw [linear, lookup_segments m gdtLimit hs]
  split_ifs with hle
  · exact (if_pos ⟨hpresent s hs, hsize⟩).trans (congrArg some (BitVec.zero_add offset))
  · rfl

/-- The table gives the flat model, with the privilege that each selector asks for, exactly if the
low half of the address of `GdtLimit` reaches to the end of the fifth descriptor. -/
theorem gdtInit_flat_iff : (∀ s ∈ segments, ∃ d, lookup (gdtInit m gdtLimit).1 (gdtInit m gdtLimit).2 s.1 = some d ∧
      d.access = s.2 ∧ d.dpl = s.1.setWidth 2 ∧
      ∀ offset, linear (gdtInit m gdtLimit).1 (gdtInit m gdtLimit).2 s.1 offset = some offset) ↔
    39 ≤ (gdtLimit.setWidth 16).toNat := by
  constructor
  · intro h
    have hlast : (kUDataSeg, access kSegPriority3 kSegTypeData) ∈ segments := by decide
    obtain ⟨d, hd, -⟩ := h _ hlast
    by_contra hlt
    have hnone := (lookup_segments m gdtLimit hlast).trans (if_neg hlt)
    cases hnone.symm.trans hd
  · intro hle s hs
    have hindex : ∀ s ∈ segments, 8 * (s.1 >>> 3).toNat + 7 ≤ 39 ∧ (flat s.2).dpl = s.1.setWidth 2 :=
      forall_segments.mpr (by decide)
    have hin := (hindex s hs).1.trans hle
    refine ⟨flat s.2, ?_, rfl, (hindex s hs).2, fun offset => ?_⟩
    · rw [lookup_segments m gdtLimit hs, if_pos hin]
    · rw [linear_segments m gdtLimit hs, if_pos hin]

end Init

/-! ## Runs of `set_gdt_entry` -/

structure Entry where
  i : ℕ
  baseAddr : BitVec 32
  limit : BitVec 32
  access : BitVec 8
  flags : BitVec 8

def Entry.set (m : Memory) (e : Entry) : Memory := setGdtEntry m (gdtEntry e.i) e.baseAddr e.limit e.access e.flags

def Entry.descriptor (e : Entry) : Descriptor := ⟨e.baseAddr, e.limit.setWidth 20, e.access, e.flags.setWidth 4⟩

theorem readDescriptor_sets (m : Memory) (es : List Entry) (i : ℕ) :
    readDescriptor (es.foldl Entry.set m) (gdtEntry i) =
      match es.reverse.find? fun e => e.i = i with
      | some e => e.descriptor
      | none => readDescriptor m (gdtEntry i) := by
  induction es using List.reverseRecOn with
  | nil => rfl
  | append_singleton es e ih =>
    rw [List.foldl_append, List.foldl_cons, List.foldl_nil, List.reverse_append, List.reverse_singleton,
      List.singleton_append, Entry.set]
    by_cases hi : e.i = i
    · have hfind : (e :: es.reverse).find? (fun e => e.i = i) = some e := List.find?_cons_of_pos (decide_eq_true hi)
      rw [hfind, ← hi]
      exact readDescriptor_setGdtEntry ..
    · have hfind : (e :: es.reverse).find? (fun e => e.i = i) = es.reverse.find? (fun e => e.i = i) :=
        List.find?_cons_of_neg (by simpa using hi)
      rw [hfind, readDescriptor_setGdtEntry_of_ne _ _ _ _ (Ne.symm hi), ih]

end XyOS.Segment
