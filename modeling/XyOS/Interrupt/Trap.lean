import XyOS.Interrupt.TrapDefs

/-! What the entry of an interrupt leaves on the stack and what its end takes from there. -/

namespace XyOS.Interrupt
open Machine

@[ext] structure Interrupted where
  gpr : Gpr → BitVec 32
  seg : Seg → BitVec 16
  cs : BitVec 16
  eip : BitVec 32
  eflags : BitVec 32

def Processor.interrupted (c : Processor) : Interrupted := ⟨c.gpr, c.seg, c.cs, c.eip, c.eflags⟩

def IntrReg.gpr (f : IntrReg) : Gpr → BitVec 32
  | .eax => f.pEax
  | .ecx => f.pEcx
  | .edx => f.pEdx
  | .ebx => f.pEbx
  | .ebp => f.pEbp
  | .esi => f.pEsi
  | .edi => f.pEdi

def IntrReg.seg (f : IntrReg) : Seg → BitVec 16
  | .ds => f.ds
  | .es => f.es
  | .fs => f.fs
  | .gs => f.gs

def IntrReg.interrupted (f : IntrReg) : Interrupted := ⟨f.gpr, f.seg, f.cs.setWidth 16, f.eip, f.eflags⟩

variable {c : Processor}

/-! ## The end of an interrupt -/

@[simp] theorem ax_setAx (c : Processor) (w : BitVec 16) : (c.setAx w).ax = w := by
  apply BitVec.eq_of_getLsbD_eq
  intro i hi
  simp only [Processor.ax, Processor.setAx, Function.update_self, BitVec.getLsbD_append, BitVec.getLsbD_setWidth]
  grind

@[simp] theorem setAx_mem (c : Processor) (w : BitVec 16) : (c.setAx w).mem = c.mem := rfl
@[simp] theorem setAx_esp (c : Processor) (w : BitVec 16) : (c.setAx w).esp = c.esp := rfl
@[simp] theorem setAx_seg (c : Processor) (w : BitVec 16) : (c.setAx w).seg = c.seg := rfl
@[simp] theorem setAx_cs (c : Processor) (w : BitVec 16) : (c.setAx w).cs = c.cs := rfl
@[simp] theorem setAx_eip (c : Processor) (w : BitVec 16) : (c.setAx w).eip = c.eip := rfl
@[simp] theorem setAx_eflags (c : Processor) (w : BitVec 16) : (c.setAx w).eflags = c.eflags := rfl

theorem operates_popSeg (c : Processor) (s : Seg) : ∃ gpr, operates [.popwAx, .movwAxSeg s] c =
    { c with gpr := gpr, seg := Function.update c.seg s (loadHalf c.mem c.esp), esp := c.esp + 2#32 } := by
  refine ⟨(c.setAx (loadHalf c.mem c.esp)).gpr, ?_⟩
  have hax : Processor.ax { c.setAx (loadHalf c.mem c.esp) with esp := c.esp + 2#32 } = loadHalf c.mem c.esp :=
    ax_setAx c _
  simp only [operates, List.foldl, operate, hax]
  rfl

theorem operates_append (xs ys : List Op) (c : Processor) :
    operates (xs ++ ys) c = operates ys (operates xs c) := List.foldl_append

theorem operates_popSegs (c : Processor) : ∃ gpr,
    operates [.popwAx, .movwAxSeg .ds, .popwAx, .movwAxSeg .es, .popwAx, .movwAxSeg .fs, .popwAx, .movwAxSeg .gs] c =
      { c with
        gpr := gpr
        seg := (readIntrReg c.mem c.esp).seg
        esp := c.esp + 8#32 } := by
  have hsplit : [.popwAx, .movwAxSeg .ds, .popwAx, .movwAxSeg .es, .popwAx, .movwAxSeg .fs, .popwAx, .movwAxSeg .gs] =
      ([.popwAx, .movwAxSeg .ds] ++ [.popwAx, .movwAxSeg .es] ++ [.popwAx, .movwAxSeg .fs] ++
        [.popwAx, .movwAxSeg .gs] : List Op) := rfl
  obtain ⟨g₁, h₁⟩ := operates_popSeg c .ds
  obtain ⟨g₂, h₂⟩ := operates_popSeg (operates [.popwAx, .movwAxSeg .ds] c) .es
  obtain ⟨g₃, h₃⟩ := operates_popSeg (operates [.popwAx, .movwAxSeg .es] (operates [.popwAx, .movwAxSeg .ds] c)) .fs
  obtain ⟨g₄, h₄⟩ := operates_popSeg (operates [.popwAx, .movwAxSeg .fs]
    (operates [.popwAx, .movwAxSeg .es] (operates [.popwAx, .movwAxSeg .ds] c))) .gs
  have e4 : c.esp + 2#32 + 2#32 = c.esp + 4#32 := add_lit_add_lit c.esp 2 2
  have e6 : c.esp + 4#32 + 2#32 = c.esp + 6#32 := add_lit_add_lit c.esp 4 2
  have e8 : c.esp + 6#32 + 2#32 = c.esp + 8#32 := add_lit_add_lit c.esp 6 2
  refine ⟨g₄, ?_⟩
  rw [hsplit, operates_append, operates_append, operates_append, h₄, h₃, h₂, h₁]
  simp only [e4, e6, e8]
  congr 1
  funext s
  cases s <;> simp [Function.update, IntrReg.seg, readIntrReg]

theorem resume_eq (c : Processor) :
    (resume c).interrupted = (readIntrReg c.mem (load c.mem c.esp)).interrupted ∧
      (resume c).esp = load c.mem c.esp + 60#32 ∧ (resume c).mem = c.mem := by
  have hsplit : allTrapsRest = [.popEsp] ++
      [.popwAx, .movwAxSeg .ds, .popwAx, .movwAxSeg .es, .popwAx, .movwAxSeg .fs, .popwAx, .movwAxSeg .gs] ++
      [.popal, .addlEsp 8#32, .iret] := rfl
  obtain ⟨gpr, hsegs⟩ := operates_popSegs { c with esp := load c.mem c.esp }
  have hpop : operates [.popEsp] c = { c with esp := load c.mem c.esp } := rfl
  rw [resume, hsplit, operates_append, operates_append, hpop, hsegs]
  generalize load c.mem c.esp = p
  have e40 : p + 8#32 + 32#32 = p + 40#32 := add_lit_add_lit p 8 32
  have e48 : p + 40#32 + 8#32 = p + 48#32 := add_lit_add_lit p 40 8
  have e60 : p + 48#32 + 12#32 = p + 60#32 := add_lit_add_lit p 48 12
  refine ⟨?_, ?_, rfl⟩
  · have hload (i j : ℕ) : load c.mem (p + BitVec.ofNat 32 i + BitVec.ofNat 32 j) =
        load c.mem (p + BitVec.ofNat 32 (i + j)) := by rw [add_lit_add_lit]
    simp only [operates, List.foldl, operate, Processor.interrupted, IntrReg.interrupted, readIntrReg, e40, e48]
    refine Interrupted.ext (funext fun r => ?_) rfl (congrArg (BitVec.setWidth 16) (hload 48 4)) rfl (hload 48 8)
    cases r with
    | eax => exact hload 8 28
    | ecx => exact hload 8 24
    | edx => exact hload 8 20
    | ebx => exact hload 8 16
    | ebp => exact hload 8 8
    | esi => exact hload 8 4
    | edi => rfl
  · simp only [operates, List.foldl, operate, e40, e48, e60]

/-! ## The entry -/

/-- The words that the processor and the stub push below `b` for the code that `c` interrupts. -/
def stubMem (c : Processor) (v errCode : BitVec 32) : Memory :=
  let m := store c.mem (c.esp - 4#32) c.eflags
  let m := store m (c.esp - 8#32) (c.cs.setWidth 32)
  let m := store m (c.esp - 12#32) c.eip
  let m := store m (c.esp - 16#32) errCode
  store m (c.esp - 20#32) v

def trapMem (c : Processor) (returnAddr : BitVec 32) (m : Memory) : Memory :=
  let m := store m (c.esp - 24#32) (c.gpr .eax)
  let m := store m (c.esp - 28#32) (c.gpr .ecx)
  let m := store m (c.esp - 32#32) (c.gpr .edx)
  let m := store m (c.esp - 36#32) (c.gpr .ebx)
  let m := store m (c.esp - 40#32) (c.esp - 20#32)
  let m := store m (c.esp - 44#32) (c.gpr .ebp)
  let m := store m (c.esp - 48#32) (c.gpr .esi)
  let m := store m (c.esp - 52#32) (c.gpr .edi)
  let m := storeHalf m (c.esp - 54#32) (c.seg .gs)
  let m := storeHalf m (c.esp - 56#32) (c.seg .fs)
  let m := storeHalf m (c.esp - 58#32) (c.seg .es)
  let m := storeHalf m (c.esp - 60#32) (c.seg .ds)
  let m := store m (c.esp - 64#32) (c.esp - 60#32)
  store m (c.esp - 68#32) returnAddr

theorem operate_pushal (c : Processor) : operate c .pushal =
    { c with
      esp := c.esp - 32#32
      mem := store (store (store (store (store (store (store (store c.mem (c.esp - 4#32) (c.gpr .eax))
        (c.esp - 8#32) (c.gpr .ecx)) (c.esp - 12#32) (c.gpr .edx)) (c.esp - 16#32) (c.gpr .ebx))
        (c.esp - 20#32) c.esp) (c.esp - 24#32) (c.gpr .ebp)) (c.esp - 28#32) (c.gpr .esi))
        (c.esp - 32#32) (c.gpr .edi) } := by
  simp only [operate, Processor.push, sub_lit_sub_lit, Nat.reduceAdd]

theorem operates_pushSeg (c : Processor) (s : Seg) : ∃ gpr, operates [.movwSegAx s, .pushwAx] c =
    { c with gpr := gpr, esp := c.esp - 2#32, mem := storeHalf c.mem (c.esp - 2#32) (c.seg s) } := by
  refine ⟨(c.setAx (c.seg s)).gpr, ?_⟩
  simp only [operates, List.foldl, operate, ax_setAx]
  rfl

theorem operates_pushSegs (c : Processor) : ∃ gpr,
    operates [.movwSegAx .gs, .pushwAx, .movwSegAx .fs, .pushwAx, .movwSegAx .es, .pushwAx, .movwSegAx .ds,
        .pushwAx] c =
      { c with
        gpr := gpr
        esp := c.esp - 8#32
        mem := storeHalf (storeHalf (storeHalf (storeHalf c.mem (c.esp - 2#32) (c.seg .gs))
          (c.esp - 4#32) (c.seg .fs)) (c.esp - 6#32) (c.seg .es)) (c.esp - 8#32) (c.seg .ds) } := by
  have hsplit : [.movwSegAx .gs, .pushwAx, .movwSegAx .fs, .pushwAx, .movwSegAx .es, .pushwAx, .movwSegAx .ds,
        .pushwAx] =
      ([.movwSegAx .gs, .pushwAx] ++ [.movwSegAx .fs, .pushwAx] ++ [.movwSegAx .es, .pushwAx] ++
        [.movwSegAx .ds, .pushwAx] : List Op) := rfl
  obtain ⟨g₁, h₁⟩ := operates_pushSeg c .gs
  obtain ⟨g₂, h₂⟩ := operates_pushSeg (operates [.movwSegAx .gs, .pushwAx] c) .fs
  obtain ⟨g₃, h₃⟩ := operates_pushSeg (operates [.movwSegAx .fs, .pushwAx] (operates [.movwSegAx .gs, .pushwAx] c)) .es
  obtain ⟨g₄, h₄⟩ := operates_pushSeg (operates [.movwSegAx .es, .pushwAx]
    (operates [.movwSegAx .fs, .pushwAx] (operates [.movwSegAx .gs, .pushwAx] c))) .ds
  refine ⟨g₄, ?_⟩
  rw [hsplit, operates_append, operates_append, operates_append, h₄, h₃, h₂, h₁]
  simp only [sub_lit_sub_lit, Nat.reduceAdd]

theorem setWidth_back (w : BitVec 16) : (w.setWidth 32).setWidth 16 = w := by
  rw [BitVec.setWidth_setWidth_of_le w (by decide), BitVec.setWidth_eq]

theorem operates_loadSegs (c : Processor) (w : BitVec 16) :
    operates [.movlEax (w.setWidth 32), .movwAxSeg .ds, .movwAxSeg .es, .movwAxSeg .fs, .movwAxSeg .gs] c =
      { c with gpr := Function.update c.gpr .eax (w.setWidth 32), seg := fun _ => w } := by
  simp only [operates, List.foldl, operate, Processor.ax, Function.update_self, setWidth_back]
  congr 1
  funext s
  cases s <;> simp [Function.update]

theorem operates_allTraps (c : Processor) (intrHandlerSel returnAddr eflags : BitVec 32) (cs : BitVec 16)
    (eip : BitVec 32) (m : Memory) : ∃ gpr,
    operates (allTraps intrHandlerSel returnAddr)
        { c with cs := cs, eip := eip, eflags := eflags, esp := c.esp - 20#32, mem := m } =
      { gpr := gpr, seg := fun _ => Segment.kKDataSeg, cs := cs, esp := c.esp - 68#32, eip := intrHandlerSel,
        eflags := eflags, mem := trapMem c returnAddr m } := by
  have hsplit : allTraps intrHandlerSel returnAddr = [.pushal] ++
      [.movwSegAx .gs, .pushwAx, .movwSegAx .fs, .pushwAx, .movwSegAx .es, .pushwAx, .movwSegAx .ds, .pushwAx] ++
      [.movlEax (Segment.kKDataSeg.setWidth 32), .movwAxSeg .ds, .movwAxSeg .es, .movwAxSeg .fs, .movwAxSeg .gs] ++
      [.pushlEsp, .call intrHandlerSel returnAddr] := rfl
  let d : Processor := { c with cs := cs, eip := eip, eflags := eflags, esp := c.esp - 20#32, mem := m }
  obtain ⟨gpr, hsegs⟩ := operates_pushSegs (operates [.pushal] d)
  have hpushal : operates [.pushal] d = operate d .pushal := rfl
  refine ⟨Function.update gpr .eax (Segment.kKDataSeg.setWidth 32), ?_⟩
  rw [hsplit, operates_append, operates_append, operates_append, hsegs, operates_loadSegs, hpushal, operate_pushal]
  simp only [operates, List.foldl, operate, Processor.push, sub_lit_sub_lit, Nat.reduceAdd, d, trapMem]

/-! ## The gate -/

def Opens (gdtr : Segment.Gdtr) (m : Memory) (g : IntrGateDescriptor) : Prop :=
  g.Present ∧ ∃ d, Segment.lookup m gdtr g.segSel = some d ∧ (d.IsCode ∧ d.dpl = 0) ∧ d.Present

def delivered (g : IntrGateDescriptor) (errCode : Option (BitVec 32)) (c : Processor) : Processor :=
  let d := ((c.push c.eflags).push (c.cs.setWidth 32)).push c.eip
  let d := match errCode with
    | none => d
    | some e => d.push e
  { d with cs := g.segSel, eip := g.offset, eflags := gateFlags g c.eflags }

section Gate
variable {gdtr : Segment.Gdtr} {g : IntrGateDescriptor} {errCode : Option (BitVec 32)}

theorem deliver_of_opens (h : Opens gdtr c.mem g) : deliver gdtr g errCode c = .ok (delivered g errCode c) := by
  obtain ⟨hpresent, d, hlookup, hcode, hd⟩ := h
  simp only [deliver, hpresent, not_true_eq_false, if_false, hlookup, hcode, and_self, hd]
  rfl

theorem deliver_of_not_opens (h : ¬ Opens gdtr c.mem g) : ∃ e, deliver gdtr g errCode c = .error e := by
  rw [deliver]
  by_cases hpresent : g.Present
  · rw [if_neg (not_not.mpr hpresent)]
    cases hlookup : Segment.lookup c.mem gdtr g.segSel with
    | none => exact ⟨_, rfl⟩
    | some d =>
      by_cases hcode : d.IsCode ∧ d.dpl = 0
      · have hd : ¬ d.Present := fun hd => h ⟨hpresent, d, hlookup, hcode, hd⟩
        exact ⟨_, (if_neg (not_not.mpr hcode)).trans (if_pos hd)⟩
      · exact ⟨_, if_pos hcode⟩
  · exact ⟨_, if_pos hpresent⟩

theorem operates_stub {v : ℕ} (herr : errCode.isSome = true ↔ v ∈ errCodeVecs) :
    operates (intrVecStub v) (delivered g errCode c) =
      { c with
        cs := g.segSel
        eip := g.offset
        eflags := gateFlags g c.eflags &&& ~~~kIf
        esp := c.esp - 20#32
        mem := stubMem c (BitVec.ofNat 32 v) (errCode.getD 0) } := by
  cases errCode with
  | none =>
    have hv : v ∉ errCodeVecs := fun hv => Bool.noConfusion (herr.mpr hv)
    simp only [intrVecStub, if_neg hv, List.cons_append, List.nil_append, operates, List.foldl, operate, delivered,
      Processor.push, sub_lit_sub_lit, Nat.reduceAdd, stubMem, Option.getD_none]
    rfl
  | some e =>
    have hv : v ∈ errCodeVecs := herr.mp rfl
    simp only [intrVecStub, if_pos hv, List.cons_append, List.nil_append, operates, List.foldl, operate, delivered,
      Processor.push, sub_lit_sub_lit, Nat.reduceAdd, stubMem, Option.getD_some]

theorem interrupt_of_opens {im : Image} {r : Registry} {v : ℕ} (hv : v < kIdtEntryNum)
    (hoffset : (r.idt v).offset = im.intrVec v) (herr : errCode.isSome = true ↔ v ∈ errCodeVecs)
    (h : Opens gdtr c.mem (r.idt v)) : ∃ gpr, interrupt im gdtr r v errCode c = .ok
      { gpr := gpr, seg := fun _ => Segment.kKDataSeg, cs := (r.idt v).segSel, esp := c.esp - 68#32,
        eip := im.intrHandlerSel, eflags := gateFlags (r.idt v) c.eflags &&& ~~~kIf,
        mem := trapMem c im.returnAddr (stubMem c (BitVec.ofNat 32 v) (errCode.getD 0)) } := by
  obtain ⟨gpr, htraps⟩ := operates_allTraps c im.intrHandlerSel im.returnAddr
    (gateFlags (r.idt v) c.eflags &&& ~~~kIf) (r.idt v).segSel (r.idt v).offset
    (stubMem c (BitVec.ofNat 32 v) (errCode.getD 0))
  refine ⟨gpr, ?_⟩
  have heip : (delivered (r.idt v) errCode c).eip = im.intrVec v := hoffset
  rw [interrupt, deliver_of_opens h]
  refine congrArg Except.ok ?_
  rw [heip, im.code_intrVec v hv, operates_append, operates_stub herr, htraps]

end Gate

/-! ## The frame -/

section Frame
variable {v errCode returnAddr : BitVec 32} (hroom : 68 ≤ c.esp.toNat)
include hroom

theorem readIntrReg_trapMem :
    let f := readIntrReg (trapMem c returnAddr (stubMem c v errCode)) (c.esp - 60#32)
    f.interrupted = c.interrupted ∧ f.intrVecNo = v ∧ f.errCode = errCode ∧ f.pEsp = c.esp - 20#32 := by
  intro f
  simp (disch := omega) only [f, readIntrReg, sub_lit_add_lit, Nat.reduceSub, trapMem, stubMem, load_store_below,
    load_storeHalf_below, loadHalf_store_below, loadHalf_storeHalf_below, load_store_self, loadHalf_storeHalf_self]
  refine ⟨Interrupted.ext (funext fun r => ?_) (funext fun s => ?_) (setWidth_back c.cs) rfl rfl,
    trivial, trivial, trivial⟩
  · cases r <;> rfl
  · cases s <;> rfl

theorem load_trapMem :
    load (trapMem c returnAddr (stubMem c v errCode)) (c.esp - 64#32) = c.esp - 60#32 ∧
      load (trapMem c returnAddr (stubMem c v errCode)) (c.esp - 68#32) = returnAddr := by
  simp (disch := omega) only [trapMem, load_store_below, load_store_self, and_self]

theorem trapMem_of_outside {x : ℕ} (hx : x < c.esp.toNat - 68 ∨ c.esp.toNat ≤ x) :
    trapMem c returnAddr (stubMem c v errCode) x = c.mem x := by
  have hword (m : Memory) (w : BitVec 32) {n : ℕ} (h4 : 4 ≤ n) (hn : n ≤ 68) :
      store m (c.esp - BitVec.ofNat 32 n) w x = m x := by
    have hn' := toNat_below (b := c.esp) (i := n) (by omega)
    exact store_of_outside (by omega)
  have hhalf (m : Memory) (w : BitVec 16) {n : ℕ} (h2 : 2 ≤ n) (hn : n ≤ 68) :
      storeHalf m (c.esp - BitVec.ofNat 32 n) w x = m x := by
    have hn' := toNat_below (b := c.esp) (i := n) (by omega)
    exact storeHalf_of_outside (by omega)
  simp (disch := decide) only [trapMem, stubMem, hword, hhalf]

end Frame

theorem interrupted_congr {m m' : Memory} {p : BitVec 32} (hp : p.toNat + 60 ≤ 2 ^ 32)
    (h : ∀ x, p.toNat ≤ x → x < p.toNat + 60 → m' x = m x) :
    (readIntrReg m' p).interrupted = (readIntrReg m p).interrupted := by
  have hword {n : ℕ} (hn : n ≤ 56) : load m' (p + BitVec.ofNat 32 n) = load m (p + BitVec.ofNat 32 n) := by
    have hn' : (p + BitVec.ofNat 32 n).toNat = p.toNat + n := toNat_add_lit (by omega)
    exact load_congr fun x _ _ => h x (by omega) (by omega)
  have hhalf {n : ℕ} (hn : n ≤ 56) : loadHalf m' (p + BitVec.ofNat 32 n) = loadHalf m (p + BitVec.ofNat 32 n) := by
    have hn' : (p + BitVec.ofNat 32 n).toNat = p.toNat + n := toNat_add_lit (by omega)
    exact loadHalf_congr fun x _ _ => h x (by omega) (by omega)
  have hds : loadHalf m' p = loadHalf m p := loadHalf_congr fun x _ _ => h x (by omega) (by omega)
  refine Interrupted.ext (funext fun r => ?_) (funext fun s => ?_) ?_ ?_ ?_
  · cases r <;> exact hword (by decide)
  · cases s
    · exact hds
    all_goals exact hhalf (by decide)
  · exact congrArg (BitVec.setWidth 16) (hword (by decide))
  · exact hword (by decide)
  · exact hword (by decide)

end XyOS.Interrupt
