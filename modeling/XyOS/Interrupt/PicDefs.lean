import Mathlib.Data.Nat.Notation

/-! The two interrupt controllers and the functions of `pic.c` that program them. A chip takes
initialisation words, masks, and non-specific ends of interrupts; its lines have fixed
priorities, line 0 first. The kernel issues no other commands. -/

namespace XyOS.Interrupt

inductive Icw
  | icw2
  | icw3
  | icw4
deriving DecidableEq

structure Chip where
  awaits : List Icw
  base : BitVec 8
  cascade : BitVec 8
  autoEoi : Bool
  irr : BitVec 8
  imr : BitVec 8
  isr : BitVec 8
deriving DecidableEq

def clearBit (x : BitVec 8) (i : ℕ) : BitVec 8 := x &&& ~~~(1#8 <<< i)

def setBit (x : BitVec 8) (i : ℕ) : BitVec 8 := x ||| 1#8 <<< i

def firstBit (x : BitVec 8) : Option ℕ := (List.range 8).find? x.getLsbD

/-- A non-specific end of interrupt takes the highest priority out of service. -/
def retire (isr : BitVec 8) : BitVec 8 :=
  match firstBit isr with
  | none => isr
  | some i => clearBit isr i

/-- A byte for the command port: ICW1, OCW3 or OCW2, told apart by bits 4 and 3. -/
def Chip.command (c : Chip) (d : BitVec 8) : Chip :=
  if d.getLsbD 4 = true then
    let awaits := [Icw.icw2] ++ (if d.getLsbD 1 = true then [] else [Icw.icw3]) ++
      (if d.getLsbD 0 = true then [Icw.icw4] else [])
    { c with awaits := awaits, autoEoi := false, irr := 0, imr := 0, isr := 0 }
  else if d.getLsbD 3 = true then c
  else if d.extractLsb' 5 3 = 1#3 then { c with isr := retire c.isr }
  else c

def Chip.data (c : Chip) (d : BitVec 8) : Chip :=
  match c.awaits with
  | [] => { c with imr := d }
  | .icw2 :: rest => { c with awaits := rest, base := d &&& 0xf8 }
  | .icw3 :: rest => { c with awaits := rest, cascade := d }
  | .icw4 :: rest => { c with awaits := rest, autoEoi := d.getLsbD 1 }

/-- The line is requested, not masked, and no line of the same or a higher priority is in service. -/
def Chip.asks (c : Chip) (i : ℕ) : Bool :=
  c.irr.getLsbD i && !c.imr.getLsbD i && (List.range (i + 1)).all fun j => !c.isr.getLsbD j

def Chip.request (c : Chip) : Option ℕ := (List.range 8).find? c.asks

def Chip.serve (c : Chip) (i : ℕ) : Chip :=
  { c with irr := clearBit c.irr i, isr := if c.autoEoi = true then c.isr else setBit c.isr i }

structure Pics where
  master : Chip
  slave : Chip
deriving DecidableEq

def kMPicCmd : ℕ := 0x20
def kMPicData : ℕ := 0x21
def kSPicCmd : ℕ := 0xa0
def kSPicData : ℕ := 0xa1
def kIrqSlave : ℕ := 2
def kIcw1 : BitVec 8 := 0x11
def kMIcw2 : ℕ := 0x20
def kSIcw2 : ℕ := kMIcw2 + 8
def kMIcw3 : BitVec 8 := 1#8 <<< kIrqSlave
def kSIcw3 : BitVec 8 := BitVec.ofNat 8 kIrqSlave
def kIcw4 : BitVec 8 := 0x1
def kPicEoi : BitVec 8 := 0x20

def outb (p : Pics) (port : ℕ) (data : BitVec 8) : Pics :=
  if port = kMPicCmd then { p with master := p.master.command data }
  else if port = kMPicData then { p with master := p.master.data data }
  else if port = kSPicCmd then { p with slave := p.slave.command data }
  else if port = kSPicData then { p with slave := p.slave.data data }
  else p

def inb (p : Pics) (port : ℕ) : BitVec 8 := if port = kMPicData then p.master.imr else p.slave.imr

def picInit (p : Pics) : Pics :=
  let p := outb p kMPicCmd kIcw1
  let p := outb p kMPicData (BitVec.ofNat 8 kMIcw2)
  let p := outb p kMPicData kMIcw3
  let p := outb p kMPicData kIcw4
  let p := outb p kSPicCmd kIcw1
  let p := outb p kSPicData (BitVec.ofNat 8 kSIcw2)
  let p := outb p kSPicData kSIcw3
  let p := outb p kSPicData kIcw4
  let p := outb p kMPicCmd 0x20
  let p := outb p kSPicCmd 0x20
  let p := outb p kMPicCmd 0x48
  let p := outb p kMPicCmd 0x0a
  let p := outb p kSPicCmd 0x48
  let p := outb p kSPicCmd 0x0a
  let p := outb p kMPicData 0xfb
  outb p kSPicData 0xff

def sendEoi (p : Pics) (intrVec : ℕ) : Pics :=
  let p := if intrVec ≥ kSIcw2 then outb p kSPicCmd kPicEoi else p
  outb p kMPicCmd kPicEoi

/-- `1u << n` in the byte `imr`. -/
def irqBit (n : ℕ) : BitVec 8 := (1#32 <<< n).setWidth 8

def enableIrq (p : Pics) (intrVec : ℕ) : Pics :=
  if intrVec < kSIcw2 then outb p kMPicData (inb p kMPicData &&& ~~~irqBit (intrVec - kMIcw2))
  else outb p kSPicData (inb p kSPicData &&& ~~~irqBit (intrVec - kSIcw2))

def disableIrq (p : Pics) (intrVec : ℕ) : Pics :=
  if intrVec < kSIcw2 then outb p kMPicData (inb p kMPicData ||| irqBit (intrVec - kMIcw2))
  else outb p kSPicData (inb p kSPicData ||| irqBit (intrVec - kSIcw2))

def enableAllIrqs (p : Pics) : Pics := outb (outb p kMPicData 0) kSPicData 0

/-! ## Lines and vectors -/

def Pics.raise (p : Pics) (line : ℕ) : Pics :=
  if line < 8 then { p with master := { p.master with irr := setBit p.master.irr line } }
  else { p with slave := { p.slave with irr := setBit p.slave.irr (line - 8) } }

/-- The master, whose cascade line follows the slave. -/
def Pics.cascaded (p : Pics) : Chip :=
  if p.slave.request.isSome then { p.master with irr := setBit p.master.irr kIrqSlave }
  else { p.master with irr := clearBit p.master.irr kIrqSlave }

def Pics.request (p : Pics) : Option ℕ :=
  match p.cascaded.request with
  | none => none
  | some i =>
    if p.master.cascade.getLsbD i = true then p.slave.request.map (8 + ·) else some i

def Pics.acknowledge (p : Pics) (line : ℕ) : Pics :=
  if line < 8 then { p with master := p.master.serve line }
  else { p with master := p.master.serve kIrqSlave, slave := p.slave.serve (line - 8) }

def Pics.vector (p : Pics) (line : ℕ) : ℕ :=
  if line < 8 then p.master.base.toNat + line else p.slave.base.toNat + (line - 8)

end XyOS.Interrupt
