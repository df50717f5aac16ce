import XyOS.Interrupt.IntrReg
import XyOS.Interrupt.Registry
import XyOS.Memory.Segment

/-! The way of an interrupt into the kernel and back: the gate, the stub of its vector in
`intr_vec.S`, and `_alltraps` of `intr_entry.S` around the call of `IntrHandlerSel`. The
processor is that of ring 0, where an interrupt stays on the stack it meets. -/

namespace XyOS.Interrupt
open Machine

inductive Gpr
  | eax
  | ecx
  | edx
  | ebx
  | ebp
  | esi
  | edi
deriving DecidableEq

inductive Seg
  | ds
  | es
  | fs
  | gs
deriving DecidableEq

structure Processor where
  gpr : Gpr → BitVec 32
  seg : Seg → BitVec 16
  cs : BitVec 16
  esp : BitVec 32
  eip : BitVec 32
  eflags : BitVec 32
  mem : Memory

inductive Op
  | cli
  | pushl (w : BitVec 32)
  | pushal
  | movwSegAx (s : Seg)
  | pushwAx
  | movlEax (w : BitVec 32)
  | movwAxSeg (s : Seg)
  | pushlEsp
  | call (target returnAddr : BitVec 32)
  | popEsp
  | popwAx
  | popal
  | addlEsp (w : BitVec 32)
  | iret

def kIf : BitVec 32 := 0x200

def Processor.push (c : Processor) (w : BitVec 32) : Processor :=
  { c with esp := c.esp - 4#32, mem := store c.mem (c.esp - 4#32) w }

def Processor.setAx (c : Processor) (w : BitVec 16) : Processor :=
  { c with gpr := Function.update c.gpr .eax ((c.gpr .eax).extractLsb' 16 16 ++ w) }

def Processor.ax (c : Processor) : BitVec 16 := (c.gpr .eax).setWidth 16

def operate (c : Processor) : Op → Processor
  | .cli => { c with eflags := c.eflags &&& ~~~kIf }
  | .pushl w => c.push w
  | .pushal =>
    ((((((((c.push (c.gpr .eax)).push (c.gpr .ecx)).push (c.gpr .edx)).push (c.gpr .ebx)).push c.esp).push
      (c.gpr .ebp)).push (c.gpr .esi)).push (c.gpr .edi))
  | .movwSegAx s => c.setAx (c.seg s)
  | .pushwAx => { c with esp := c.esp - 2#32, mem := storeHalf c.mem (c.esp - 2#32) c.ax }
  | .movlEax w => { c with gpr := Function.update c.gpr .eax w }
  | .movwAxSeg s => { c with seg := Function.update c.seg s c.ax }
  | .pushlEsp => c.push c.esp
  | .call target returnAddr => { c.push returnAddr with eip := target }
  | .popEsp => { c with esp := load c.mem c.esp }
  | .popwAx => { c.setAx (loadHalf c.mem c.esp) with esp := c.esp + 2#32 }
  | .popal =>
    -- the saved stack pointer is skipped
    let gpr : Gpr → BitVec 32
      | .edi => load c.mem c.esp
      | .esi => load c.mem (c.esp + 4#32)
      | .ebp => load c.mem (c.esp + 8#32)
      | .ebx => load c.mem (c.esp + 16#32)
      | .edx => load c.mem (c.esp + 20#32)
      | .ecx => load c.mem (c.esp + 24#32)
      | .eax => load c.mem (c.esp + 28#32)
    { c with gpr := gpr, esp := c.esp + 32#32 }
  | .addlEsp w => { c with esp := c.esp + w }
  | .iret =>
    { c with
      eip := load c.mem c.esp
      cs := (load c.mem (c.esp + 4#32)).setWidth 16
      eflags := load c.mem (c.esp + 8#32)
      esp := c.esp + 12#32 }

def operates (code : List Op) (c : Processor) : Processor := code.foldl operate c

/-! ## The code -/

def errCodeVecs : List ℕ := [8, 10, 11, 12, 13, 14, 17, 21]

/-- The stub of a vector up to its `jmp _alltraps`. -/
def intrVecStub (v : ℕ) : List Op :=
  [Op.cli] ++ (if v ∈ errCodeVecs then [] else [Op.pushl 0#32]) ++ [Op.pushl (BitVec.ofNat 32 v)]

/-- `_alltraps` up to the call, with the addresses of `IntrHandlerSel` and of the instruction
behind the call. -/
def allTraps (intrHandlerSel returnAddr : BitVec 32) : List Op :=
  [.pushal, .movwSegAx .gs, .pushwAx, .movwSegAx .fs, .pushwAx, .movwSegAx .es, .pushwAx, .movwSegAx .ds, .pushwAx,
    .movlEax (Segment.kKDataSeg.setWidth 32), .movwAxSeg .ds, .movwAxSeg .es, .movwAxSeg .fs, .movwAxSeg .gs,
    .pushlEsp, .call intrHandlerSel returnAddr]

def allTrapsRest : List Op :=
  [.popEsp, .popwAx, .movwAxSeg .ds, .popwAx, .movwAxSeg .es, .popwAx, .movwAxSeg .fs, .popwAx, .movwAxSeg .gs,
    .popal, .addlEsp 8#32, .iret]

structure Image where
  intrVec : ℕ → BitVec 32
  intrHandlerSel : BitVec 32
  returnAddr : BitVec 32
  code : BitVec 32 → List Op
  code_intrVec : ∀ v < kIdtEntryNum, code (intrVec v) = intrVecStub v ++ allTraps intrHandlerSel returnAddr

/-! ## The gate -/

def IntrGateDescriptor.offset (g : IntrGateDescriptor) : BitVec 32 := g.offset_16_31 ++ g.offset_0_15

def IntrGateDescriptor.IsInterrupt (g : IntrGateDescriptor) : Prop := g.type.getLsbD 8 = false

instance (g : IntrGateDescriptor) : Decidable g.Present := inferInstanceAs (Decidable (_ = _))
instance (g : IntrGateDescriptor) : Decidable g.IsInterrupt := inferInstanceAs (Decidable (_ = _))

/-- TF, NT, RF and VM are cleared by every gate, IF by an interrupt gate only. -/
def gateFlags (g : IntrGateDescriptor) (eflags : BitVec 32) : BitVec 32 :=
  let eflags := eflags &&& ~~~0x34100
  if g.IsInterrupt then eflags &&& ~~~kIf else eflags

inductive Refusal
  | notPresent
  | protection
deriving DecidableEq

/-- The processor takes an interrupt in ring 0: a gate leads to a present code segment of ring 0
or to a fault. -/
def deliver (gdtr : Segment.Gdtr) (g : IntrGateDescriptor) (errCode : Option (BitVec 32)) (c : Processor) :
    Except Refusal Processor :=
  if ¬ g.Present then .error .notPresent
  else
    match Segment.lookup c.mem gdtr g.segSel with
    | none => .error .protection
    | some d =>
      if ¬ (d.IsCode ∧ d.dpl = 0) then .error .protection
      else if ¬ d.Present then .error .notPresent
      else
        let d := ((c.push c.eflags).push (c.cs.setWidth 32)).push c.eip
        let d := match errCode with
          | none => d
          | some e => d.push e
        .ok { d with cs := g.segSel, eip := g.offset, eflags := gateFlags g c.eflags }

def interrupt (im : Image) (gdtr : Segment.Gdtr) (r : Registry) (v : ℕ) (errCode : Option (BitVec 32))
    (c : Processor) : Except Refusal Processor := do
  let c ← deliver gdtr (r.idt v) errCode c
  .ok (operates (im.code c.eip) c)

/-- The end of the interrupt, behind the `ret` of `IntrHandlerSel`. -/
def resume (c : Processor) : Processor := operates allTrapsRest c

end XyOS.Interrupt
