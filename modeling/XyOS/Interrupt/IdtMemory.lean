import XyOS.Interrupt.Dispatch
import XyOS.Memory.MemInit

/-! The interrupt descriptor table in memory, from `IdtInit` on, behind the page tables and the
segments of `MemInit`. -/

namespace XyOS.Interrupt
open Paging Text MemoryManager

def kIdtBaseAddr : ℕ := 0xc001f000
def kIdtEntrySize : ℕ := 8
def idtLimit : ℕ := kIdtEntryNum <<< 3 - 1

def idtGate (v : ℕ) : ℕ := kIdtBaseAddr + kIdtEntrySize * v

def halfBytes (w : BitVec 16) : List UInt8 := [⟨w.setWidth 8⟩, ⟨(w >>> 8).setWidth 8⟩]

def readHalf (m : Memory) (a : ℕ) : BitVec 16 := (m (a + 1)).toBitVec ++ (m a).toBitVec

def IntrGateDescriptor.bytes (g : IntrGateDescriptor) : List UInt8 :=
  halfBytes g.offset_0_15 ++ halfBytes g.segSel ++ halfBytes g.type ++ halfBytes g.offset_16_31

def readGate (m : Memory) (a : ℕ) : IntrGateDescriptor :=
  ⟨readHalf m a, readHalf m (a + 2), readHalf m (a + 4), readHalf m (a + 6)⟩

structure Idtr where
  limit : BitVec 16
  baseAddr : ℕ

def fetchGate (m : Memory) (idtr : Idtr) (v : ℕ) : Option IntrGateDescriptor :=
  if kIdtEntrySize * v + (kIdtEntrySize - 1) ≤ idtr.limit.toNat then
    some (readGate m (idtr.baseAddr + kIdtEntrySize * v))
  else none

/-! ## The functions of `idt.c` and `interrupt.c` with open paging -/

def setIdtEntryPaged (pd : ℕ) (m : Memory) (v : ℕ) (g : IntrGateDescriptor) : Option Memory :=
  storeBytes pd m (idtGate v) g.bytes

def setIdtEntries (pd : ℕ) (intrVec : ℕ → BitVec 32) (type : BitVec 16) (i : ℕ) : ℕ → Memory → Option Memory
  | 0, m => some m
  | n + 1, m => do
    let m ← setIdtEntries pd intrVec type i n m
    setIdtEntryPaged pd m (i + n) (idtEntry (intrVec (i + n)) kKCodeSeg type)

/-- `IdtInit` with open paging. `ss0` is the word at offset 8 of the task state segment. -/
def idtInitPaged (pd : ℕ) (intrVec : ℕ → BitVec 32) (m : Memory) : Option (Memory × Idtr) := do
  let m ← storeBytes pd m (Segment.kTssBaseAddr.toNat + 8) (halfBytes kKCodeSeg ++ halfBytes 0)
  let m ← setIdtEntries pd intrVec kIdtExcType 0 kIdtExcNum m
  let m ← setIdtEntries pd intrVec kIdtIntrType kIdtExcNum (kIdtEntryNum - kIdtExcNum) m
  let m ← setIdtEntryPaged pd m kIdtSyscallNum (idtEntry (intrVec kIdtSyscallNum) kUCodeSeg kIdtTrapType)
  some (m, ⟨BitVec.ofNat 16 idtLimit, kIdtBaseAddr⟩)

def enableIdtPaged (pd : ℕ) (m : Memory) (v : ℕ) : Option Memory :=
  storeBytes pd m (idtGate v + 4) (halfBytes (readHalf (linearMemory pd m) (idtGate v + 4) ||| 0x8000))

def disableIdtPaged (pd : ℕ) (m : Memory) (v : ℕ) : Option Memory :=
  storeBytes pd m (idtGate v + 4) (halfBytes (readHalf (linearMemory pd m) (idtGate v + 4) &&& 0x7fff))

structure PagedRegistry where
  mem : Memory
  intrVecMap : Bitmap
  intrHandler : ℕ → ℕ

def regIntrHandlerPaged (pd : ℕ) (s : PagedRegistry) (v handler : ℕ) : Option (Bool × PagedRegistry) :=
  if isBitmapSet s.intrVecMap v = true then some (false, s)
  else do
    let s := { s with intrVecMap := setBitmap s.intrVecMap v }
    let s := { s with intrHandler := Function.update s.intrHandler v handler }
    let m ← enableIdtPaged pd s.mem v
    some (true, { s with mem := m })

def removeIntrHandlerPaged (pd : ℕ) (s : PagedRegistry) (v : ℕ) : Option PagedRegistry := do
  let m ← disableIdtPaged pd s.mem v
  let s := { s with mem := m }
  let s := { s with intrHandler := Function.update s.intrHandler v 0 }
  some { s with intrVecMap := clearBitmap s.intrVecMap v }

def execPaged (pd : ℕ) (s : PagedRegistry) : Call → Option PagedRegistry
  | .reg v handler => (regIntrHandlerPaged pd s v handler).map Prod.snd
  | .remove v => removeIntrHandlerPaged pd s v

/-! ## Gates in memory -/

variable {m m' : Memory} {a v : ℕ}

theorem half_bytes (w : BitVec 16) : (w >>> 8).setWidth 8 ++ w.setWidth 8 = w := by
  apply BitVec.eq_of_getLsbD_eq
  intro i hi
  simp only [BitVec.getLsbD_append, BitVec.getLsbD_setWidth, BitVec.getLsbD_ushiftRight]
  split_ifs <;> grind

theorem readHalf_congr (h : ∀ x, a ≤ x → x < a + 2 → m' x = m x) : readHalf m' a = readHalf m a := by
  rw [readHalf, readHalf, h a (by omega) (by omega), h (a + 1) (by omega) (by omega)]

theorem readGate_congr {b : ℕ} (h : ∀ i < 8, m' (b + i) = m (a + i)) : readGate m' b = readGate m a := by
  have h0 := h 0 (by omega)
  rw [Nat.add_zero, Nat.add_zero] at h0
  rw [readGate, readGate, readHalf, readHalf, readHalf, readHalf, h0, h 1 (by omega), h 2 (by omega),
    h (2 + 1) (by omega), h 4 (by omega), h (4 + 1) (by omega), h 6 (by omega), h (6 + 1) (by omega)]
  rfl

theorem readHalf_halfBytes (m : Memory) (a : ℕ) (w : BitVec 16) : readHalf (writeBytes m a (halfBytes w)) a = w := by
  have h0 : writeBytes m a (halfBytes w) (a + 0) = ⟨w.setWidth 8⟩ := writeBytes_apply (show 0 < 2 by decide)
  have h1 : writeBytes m a (halfBytes w) (a + 1) = ⟨(w >>> 8).setWidth 8⟩ := writeBytes_apply (show 1 < 2 by decide)
  rw [Nat.add_zero] at h0
  rw [readHalf, h1, h0]
  exact half_bytes w

theorem readHalf_halfBytes_of_ne {b : ℕ} (w : BitVec 16) (h : b + 2 ≤ a ∨ a + 2 ≤ b) :
    readHalf (writeBytes m a (halfBytes w)) b = readHalf m b :=
  readHalf_congr fun x _ _ => writeBytes_of_outside (show x < a ∨ a + 2 ≤ x by omega)

theorem readGate_bytes (m : Memory) (a : ℕ) (g : IntrGateDescriptor) : readGate (writeBytes m a g.bytes) a = g := by
  rw [IntrGateDescriptor.bytes, writeBytes_append, writeBytes_append, writeBytes_append]
  simp only [readGate, List.length_append, show ∀ w, (halfBytes w).length = 2 from fun _ => rfl]
  simp (disch := omega) only [readHalf_halfBytes_of_ne, readHalf_halfBytes]

theorem readGate_type (m : Memory) (a : ℕ) (type : BitVec 16) :
    readGate (writeBytes m (a + 4) (halfBytes type)) a = { readGate m a with type := type } := by
  simp (disch := omega) only [readGate, readHalf_halfBytes_of_ne, readHalf_halfBytes]

def gatesOf (m : Memory) (v : ℕ) : IntrGateDescriptor := readGate m (0x1f000 + 8 * v)

theorem gatesOf_bytes (m : Memory) (v : ℕ) (g : IntrGateDescriptor) :
    gatesOf (writeBytes m (0x1f000 + 8 * v) g.bytes) = Function.update (gatesOf m) v g := by
  funext w
  by_cases hwv : w = v
  · rw [hwv, Function.update_self, gatesOf, readGate_bytes]
  · rw [Function.update_of_ne hwv, gatesOf, gatesOf]
    refine readGate_congr fun i hi => writeBytes_of_outside ?_
    change _ ∨ 0x1f000 + 8 * v + 8 ≤ _
    omega

theorem gatesOf_type (m : Memory) (v : ℕ) (type : BitVec 16) :
    gatesOf (writeBytes m (0x1f000 + 8 * v + 4) (halfBytes type)) =
      Function.update (gatesOf m) v { gatesOf m v with type := type } := by
  funext w
  by_cases hwv : w = v
  · rw [hwv, Function.update_self, gatesOf, readGate_type, gatesOf]
  · rw [Function.update_of_ne hwv, gatesOf, gatesOf]
    refine readGate_congr fun i hi => writeBytes_of_outside ?_
    change _ ∨ 0x1f000 + 8 * v + 4 + 2 ≤ _
    omega

/-! ## Stores to the tables of the processor -/

def InIdt (x : ℕ) : Prop := 0x1e008 ≤ x ∧ x < 0x1e00c ∨ 0x1f000 ≤ x ∧ x < 0x1f800

theorem not_inTables {x : ℕ} (h : InIdt x) : ¬ InTables x := by
  unfold InIdt at h
  unfold InTables
  omega

structure Stored (m : Memory) (p : ℕ) (l : List UInt8) : Prop where
  run : storeBytes 0x1000 m (0xc0000000 + p) l = some (writeBytes m p l)
  tables : Tables (writeBytes m p l)
  frame : ∀ x, ¬ InIdt x → writeBytes m p l x = m x

theorem stored {p : ℕ} {l : List UInt8} (h : Tables m) (hin : ∀ x, p ≤ x → x < p + l.length → InIdt x)
    (hp : p + l.length ≤ 0x4000000) : Stored m p l where
  run := h.storeBytes hp fun x hx hx' => not_inTables (hin x hx hx')
  tables := h.writeBytes fun x hx hx' => not_inTables (hin x hx hx')
  frame x hx := writeBytes_of_outside (by
    by_contra hout
    exact hx (hin x (by omega) (by omega)))

theorem idtGate_eq (v : ℕ) : idtGate v = 0xc0000000 + (0x1f000 + 8 * v) := by
  unfold idtGate kIdtBaseAddr kIdtEntrySize
  omega

theorem stored_gate (h : Tables m) (hv : v < kIdtEntryNum) (g : IntrGateDescriptor) :
    Stored m (0x1f000 + 8 * v) g.bytes := by
  have hlength : g.bytes.length = 8 := rfl
  unfold kIdtEntryNum at hv
  refine stored h (fun x hx hx' => ?_) (by omega)
  unfold InIdt
  omega

theorem Stored.setIdtEntry {g : IntrGateDescriptor} (h : Stored m (0x1f000 + 8 * v) g.bytes) :
    setIdtEntryPaged 0x1000 m v g = some (writeBytes m (0x1f000 + 8 * v) g.bytes) := by
  rw [setIdtEntryPaged, idtGate_eq, h.run]

theorem stored_type (h : Tables m) (hv : v < kIdtEntryNum) (type : BitVec 16) :
    Stored m (0x1f000 + 8 * v + 4) (halfBytes type) := by
  have hlength : (halfBytes type).length = 2 := rfl
  unfold kIdtEntryNum at hv
  refine stored h (fun x hx hx' => ?_) (by omega)
  unfold InIdt
  omega

theorem readGate_linearMemory (h : Tables m) (hv : v < kIdtEntryNum) :
    readGate (linearMemory 0x1000 m) (idtGate v) = gatesOf m v := by
  unfold kIdtEntryNum at hv
  refine readGate_congr fun i hi => ?_
  rw [idtGate_eq, Nat.add_assoc]
  exact h.shows _ (by omega)

theorem type_linearMemory (h : Tables m) (hv : v < kIdtEntryNum) :
    readHalf (linearMemory 0x1000 m) (idtGate v + 4) = (gatesOf m v).type :=
  congrArg IntrGateDescriptor.type (readGate_linearMemory h hv)

theorem enableIdtPaged_eq (h : Tables m) (hv : v < kIdtEntryNum) : enableIdtPaged 0x1000 m v =
    some (writeBytes m (0x1f000 + 8 * v + 4) (halfBytes ((gatesOf m v).type ||| 0x8000))) := by
  rw [enableIdtPaged, type_linearMemory h hv, idtGate_eq]
  exact (stored_type h hv _).run

theorem disableIdtPaged_eq (h : Tables m) (hv : v < kIdtEntryNum) : disableIdtPaged 0x1000 m v =
    some (writeBytes m (0x1f000 + 8 * v + 4) (halfBytes ((gatesOf m v).type &&& 0x7fff))) := by
  rw [disableIdtPaged, type_linearMemory h hv, idtGate_eq]
  exact (stored_type h hv _).run

/-! ## The table after `IdtInit` -/

variable (intrVec : ℕ → BitVec 32)

theorem setIdtEntries_spec (h : Tables m) (type : BitVec 16) {i n : ℕ} (hn : i + n ≤ kIdtEntryNum) :
    ∃ m', setIdtEntries 0x1000 intrVec type i n m = some m' ∧ Tables m' ∧
      (∀ w, gatesOf m' w = if i ≤ w ∧ w < i + n then idtEntry (intrVec w) kKCodeSeg type else gatesOf m w) ∧
      ∀ x, ¬ InIdt x → m' x = m x := by
  induction n with
  | zero =>
    refine ⟨m, rfl, h, fun w => ?_, fun _ _ => rfl⟩
    rw [if_neg (by omega)]
  | succ n ih =>
    obtain ⟨m₁, hrun, h₁, hgates, hframe⟩ := ih (by omega)
    have hstored := stored_gate h₁ (show i + n < kIdtEntryNum by omega)
      (idtEntry (intrVec (i + n)) kKCodeSeg type)
    refine ⟨_, ?_, hstored.tables, fun w => ?_, fun x hx => (hstored.frame x hx).trans (hframe x hx)⟩
    · rw [setIdtEntries, hrun]
      exact hstored.setIdtEntry
    · rw [gatesOf_bytes]
      by_cases hw : w = i + n
      · rw [hw, Function.update_self, if_pos (by omega)]
      · rw [Function.update_of_ne hw, hgates w]
        exact if_congr (by omega) rfl rfl

theorem idtInitPaged_of_some {pd : ℕ} {m₁ m₂ m₃ m₄ : Memory}
    (htss : storeBytes pd m (Segment.kTssBaseAddr.toNat + 8) (halfBytes kKCodeSeg ++ halfBytes 0) = some m₁)
    (hexc : setIdtEntries pd intrVec kIdtExcType 0 kIdtExcNum m₁ = some m₂)
    (hintr : setIdtEntries pd intrVec kIdtIntrType kIdtExcNum (kIdtEntryNum - kIdtExcNum) m₂ = some m₃)
    (hsyscall : setIdtEntryPaged pd m₃ kIdtSyscallNum (idtEntry (intrVec kIdtSyscallNum) kUCodeSeg kIdtTrapType) =
      some m₄) : idtInitPaged pd intrVec m = some (m₄, ⟨BitVec.ofNat 16 idtLimit, kIdtBaseAddr⟩) := by
  simp only [idtInitPaged, htss, hexc, hintr, hsyscall, Option.bind_eq_bind, Option.bind_some]

theorem idtInitPaged_spec (h : Tables m) : ∃ m',
    idtInitPaged 0x1000 intrVec m = some (m', ⟨BitVec.ofNat 16 idtLimit, kIdtBaseAddr⟩) ∧ Tables m' ∧
      (∀ w < kIdtEntryNum, gatesOf m' w = idtInit intrVec w) ∧ ∀ x, ¬ InIdt x → m' x = m x := by
  have htss : Stored m 0x1e008 (halfBytes kKCodeSeg ++ halfBytes 0) := by
    refine stored h (fun x hx hx' => Or.inl ⟨hx, hx'⟩) (by decide)
  obtain ⟨m₂, hexc, h₂, hgates₂, hframe₂⟩ := setIdtEntries_spec intrVec htss.tables kIdtExcType
    (show 0 + kIdtExcNum ≤ kIdtEntryNum by decide)
  obtain ⟨m₃, hintr, h₃, hgates₃, hframe₃⟩ := setIdtEntries_spec intrVec h₂ kIdtIntrType
    (show kIdtExcNum + (kIdtEntryNum - kIdtExcNum) ≤ kIdtEntryNum by decide)
  have hsyscall := stored_gate h₃ (show kIdtSyscallNum < kIdtEntryNum by decide)
    (idtEntry (intrVec kIdtSyscallNum) kUCodeSeg kIdtTrapType)
  refine ⟨_, idtInitPaged_of_some intrVec htss.run hexc hintr hsyscall.setIdtEntry, hsyscall.tables, fun w hw => ?_,
    fun x hx => ?_⟩
  · rw [gatesOf_bytes, idtInit]
    by_cases hsys : w = kIdtSyscallNum
    · rw [if_pos hsys, hsys, Function.update_self]
    · rw [if_neg hsys, Function.update_of_ne hsys, hgates₃, hgates₂]
      have hsum : kIdtExcNum + (kIdtEntryNum - kIdtExcNum) = kIdtEntryNum := by decide
      by_cases hw' : w < kIdtExcNum
      · rw [if_pos hw', if_neg (by omega), if_pos (by omega)]
      · rw [if_neg hw', if_pos (by omega)]
  · rw [hsyscall.frame x hx, hframe₃ x hx, hframe₂ x hx, htss.frame x hx]

/-! ## Runs -/

/-- The gates in memory are those of the registry, behind the page tables of `PagingInit`. -/
structure Refines (s : PagedRegistry) (r : Registry) : Prop where
  tables : Tables s.mem
  intrVecMap : s.intrVecMap = r.intrVecMap
  intrHandler : s.intrHandler = r.intrHandler
  gates : ∀ w < kIdtEntryNum, gatesOf s.mem w = r.idt w

variable {intrVec}

theorem Refines.storeType {s : PagedRegistry} {r : Registry} (h : Refines s r) (hv : v < kIdtEntryNum)
    (type : BitVec 16) (intrVecMap : Bitmap) (intrHandler : ℕ → ℕ) :
    Refines ⟨writeBytes s.mem (0x1f000 + 8 * v + 4) (halfBytes type), intrVecMap, intrHandler⟩
      ⟨intrVecMap, intrHandler, Function.update r.idt v { r.idt v with type := type }⟩ where
  tables := (stored_type h.tables hv type).tables
  intrVecMap := rfl
  intrHandler := rfl
  gates w hw := by
    change _ = Function.update r.idt v { r.idt v with type := type } w
    rw [gatesOf_type, h.gates v hv]
    by_cases hwv : w = v
    · rw [hwv, Function.update_self, Function.update_self]
    · rw [Function.update_of_ne hwv, Function.update_of_ne hwv, h.gates w hw]

theorem execPaged_simulates {s : PagedRegistry} {r : Registry} {call : Call} (h : Refines s r)
    (hlegal : call.Legal) : ∃ s', execPaged 0x1000 s call = some s' ∧ Refines s' (Interrupt.exec r call) ∧
      ∀ x, ¬ InIdt x → s'.mem x = s.mem x := by
  cases call with
  | reg v handler =>
    have hv : v < kIdtEntryNum := hlegal.1
    rw [execPaged, regIntrHandlerPaged, Interrupt.exec, regIntrHandler, h.intrVecMap, h.intrHandler]
    split_ifs with hused
    · exact ⟨s, rfl, h, fun _ _ => rfl⟩
    · have hgate := h.gates v hv
      refine ⟨_, ?_, h.storeType hv ((r.idt v).type ||| 0x8000) _ _, (stored_type h.tables hv _).frame⟩
      simp only [enableIdtPaged_eq h.tables hv, hgate, Option.bind_eq_bind, Option.bind_some, Option.map_some]
  | remove v =>
    have hv : v < kIdtEntryNum := hlegal
    have hgate := h.gates v hv
    refine ⟨_, ?_, h.storeType hv ((r.idt v).type &&& 0x7fff) _ _, (stored_type h.tables hv _).frame⟩
    simp only [execPaged, removeIntrHandlerPaged, disableIdtPaged_eq h.tables hv, hgate, h.intrVecMap, h.intrHandler,
      Option.bind_eq_bind, Option.bind_some]
    rfl

theorem runPaged_simulates {s : PagedRegistry} {r : Registry} {calls : List Call} (h : Refines s r)
    (hlegal : ∀ call ∈ calls, call.Legal) : ∃ s', calls.foldlM (execPaged 0x1000) s = some s' ∧
      Refines s' (calls.foldl Interrupt.exec r) ∧ ∀ x, ¬ InIdt x → s'.mem x = s.mem x := by
  induction calls generalizing s r with
  | nil => exact ⟨s, rfl, h, fun _ _ => rfl⟩
  | cons call calls ih =>
    obtain ⟨s₁, hstep, h₁, hframe₁⟩ := execPaged_simulates h (hlegal call List.mem_cons_self)
    obtain ⟨s', hrun, h', hframe'⟩ := ih h₁ fun d hd => hlegal d (List.mem_cons_of_mem call hd)
    refine ⟨s', ?_, h', fun x hx => (hframe' x hx).trans (hframe₁ x hx)⟩
    rw [List.foldlM_cons, hstep]
    exact hrun

theorem fetchGate_eq (h : Tables m) (hv : v < kIdtEntryNum) :
    fetchGate (linearMemory 0x1000 m) ⟨BitVec.ofNat 16 idtLimit, kIdtBaseAddr⟩ v = some (gatesOf m v) := by
  have hlimit : kIdtEntrySize * v + (kIdtEntrySize - 1) ≤ (BitVec.ofNat 16 idtLimit).toNat := by
    change 8 * v + 7 ≤ 2047
    unfold kIdtEntryNum at hv
    omega
  rw [fetchGate, if_pos hlimit]
  exact congrArg some (readGate_linearMemory h hv)

/-! ## The kernel after `MemInit` and `IdtInit` -/

def intrRun (intrVec : ℕ → BitVec 32) (calls : List Call) (s : Machine) :
    Option (PagedRegistry × Idtr) := do
  let (m, idtr) ← idtInitPaged s.cr3 intrVec s.mem
  let t ← calls.foldlM (execPaged s.cr3) ⟨m, fun _ => 0, fun _ => 0⟩
  some (t, idtr)

theorem intrRun_of_some {s : Machine} {calls : List Call} {m : Memory} {idtr : Idtr}
    {t : PagedRegistry} (hinit : idtInitPaged s.cr3 intrVec s.mem = some (m, idtr))
    (hrun : calls.foldlM (execPaged s.cr3) ⟨m, fun _ => 0, fun _ => 0⟩ = some t) :
    intrRun intrVec calls s = some (t, idtr) := by
  simp only [intrRun, hinit, hrun, Option.bind_eq_bind, Option.bind_some]

/-- From `MemInit` on, `IdtInit` and any registrations and removals end without a page fault. The gates
that the processor then reads through `%cr3` are those of the registry; a gate is open exactly if its
vector has a handler and is not that of the system call, and the segments translate as before. -/
theorem intrRun_gates (intrVec : ℕ → BitVec 32) {calls : List Call} (hlegal : ∀ call ∈ calls, call.Legal)
    {gdtLimit : BitVec 32} (hroom : 15 ≤ (gdtLimit.setWidth 16).toNat) {avlMem : List PageAllocator.AvlPhysMem}
    {m : Memory} {pageState : Bitmap} {s : Machine} (hs : s ∈ memInit avlMem m pageState gdtLimit) :
    ∃ t idtr, intrRun intrVec calls s = some (t, idtr) ∧
      let r := calls.foldl exec (emptyRegistry intrVec)
      t.intrHandler = r.intrHandler ∧
      (∀ v < kIdtEntryNum, fetchGate (linearMemory s.cr3 t.mem) idtr v = some (r.idt v) ∧
        (Opens s.gdtr (linearMemory s.cr3 t.mem) (r.idt v) ↔ r.intrHandler v ≠ 0 ∧ v ≠ kIdtSyscallNum)) ∧
      (∀ d ∈ Segment.segments, ∀ offset, physical { s with mem := t.mem } d.1 offset = physical s d.1 offset) ∧
      ∀ x, ¬ InIdt x → t.mem x = s.mem x := by
  have hsegmented := segmented_of_mem hs
  obtain ⟨m₁, hinit, h₁, hgates, hframe₁⟩ := idtInitPaged_spec intrVec hsegmented.tables
  have hrefines : Refines ⟨m₁, fun _ => 0, fun _ => 0⟩ (emptyRegistry intrVec) := ⟨h₁, rfl, rfl, hgates⟩
  obtain ⟨t, hrun, ht, hframe₂⟩ := runPaged_simulates hrefines hlegal
  have hframe (x : ℕ) (hx : ¬ InIdt x) : t.mem x = s.mem x := (hframe₂ x hx).trans (hframe₁ x hx)
  have hsegmented' : Segmented gdtLimit { s with mem := t.mem } := by
    obtain ⟨lin, hmem, hgdtr⟩ := hsegmented.gdt
    refine ⟨hsegmented.cr3, ht.tables, lin, fun x hx => (hmem x hx).trans (hframe x ?_).symm, hgdtr⟩
    unfold InIdt
    omega
  have hgdt : GdtLoaded (linearMemory s.cr3 t.mem) s.gdtr := by
    obtain ⟨lin, hgdtr, hmem⟩ := hsegmented'.linearMemory_gdt
    refine ⟨⟨lin, gdtLimit, hgdtr, hmem⟩, ?_⟩
    rw [hgdtr]
    exact hroom
  rw [← hsegmented.cr3] at hinit hrun
  refine ⟨t, _, intrRun_of_some hinit hrun, ht.intrHandler, fun v hv => ⟨?_, ?_⟩, fun d hd offset => ?_, hframe⟩
  · rw [hsegmented.cr3, fetchGate_eq ht.tables hv, ht.gates v hv]
  · exact opens_iff hgdt (gated_run intrVec hlegal hv)
  · rw [hsegmented'.physical hd, hsegmented.physical hd]

theorem intrRun_gates_timer : ∃ s t idtr, s ∈ memInit [] (fun _ => 0) (fun _ => 0) 47 ∧
    intrRun (BitVec.ofNat 32) [.reg 0x20 0xc0103000] s = some (t, idtr) ∧
    ∃ g, fetchGate (linearMemory s.cr3 t.mem) idtr 0x20 = some g ∧ Opens s.gdtr (linearMemory s.cr3 t.mem) g := by
  have hlegal : ∀ call ∈ [Call.reg 0x20 0xc0103000], call.Legal := by simp [Call.Legal, kIdtEntryNum]
  obtain ⟨m', gdtr, hinit, -⟩ := memInit_spec (fun _ => 0) 47
  have hpages : (PageAllocator.pageAllocatorInit [] fun _ => 0).toOption =
      some (PageAllocator.clearLow PageAllocator.kDynamicMappingStartPage fun _ => 0) := rfl
  have hs := (hinit [] fun _ => 0).trans (congrArg _ hpages)
  obtain ⟨t, idtr, hrun, -, hgates, -⟩ := intrRun_gates (BitVec.ofNat 32) hlegal (by decide) hs
  obtain ⟨hgate, hopens⟩ := hgates 0x20 (by decide)
  exact ⟨_, t, idtr, hs, hrun, _, hgate, hopens.mpr ⟨by decide, by decide⟩⟩

end XyOS.Interrupt
