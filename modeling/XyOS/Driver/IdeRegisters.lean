import Mathlib.Logic.Function.Basic
import XyOS.Driver.Ide

/-! The ports that `RSec` and `WSec` of `ide.c` write, one after the other. What the reads
of the alternate status register return is a list of answers, and a function that waits
for more answers than there are has not come to its end. -/

namespace XyOS.Driver

def kIoBase : ℕ := 0x1f0
def kCtrlBase : ℕ := 0x3f6
def kDataReg : ℕ := kIoBase + 0
def kSecCountReg : ℕ := kIoBase + 2
def kSecNoReg : ℕ := kIoBase + 3
def kCylinderLowReg : ℕ := kIoBase + 4
def kCylinderHighReg : ℕ := kIoBase + 5
def kDriveHeadSelReg : ℕ := kIoBase + 6
def kCmdReg : ℕ := kIoBase + 7
def kDeviceCtrlReg : ℕ := kCtrlBase + 0

def kIdeBsy : BitVec 8 := 0x80
def kIdeErr : BitVec 8 := 0x1
def kIdeDf : BitVec 8 := 0x20
def kIdeRdy : BitVec 8 := 0x40
def kIdeDrq : BitVec 8 := 0x08

def kRead : BitVec 8 := 0x20
def kWrite : BitVec 8 := 0x30

inductive PortWrite
  | outb (port : ℕ) (value : BitVec 8)
  | outsl (port src words : ℕ)

/-- `IdeWait`: `true` for the result `0`, and the answers that are left. -/
def ideWait (checkErr : Bool) : List (BitVec 8) → Option (Bool × List (BitVec 8))
  | [] => none
  | status :: answers =>
    if status &&& kIdeBsy ≠ 0 then
      if checkErr ∧ status &&& (kIdeDf ||| kIdeErr) ≠ 0 then some (false, answers)
      else ideWait checkErr answers
    else some (true, answers)

def waitReady : List (BitVec 8) → Option (List (BitVec 8))
  | [] => none
  | status :: answers => if status &&& kIdeRdy = 0 then waitReady answers else some answers

def rSecWrites (devNo : BitVec 8) (secAddr : BitVec 32) (answers : List (BitVec 8)) :
    Option (List PortWrite) := do
  let _ ← ideWait false answers
  some [
    .outb kDeviceCtrlReg 0,
    .outb kSecCountReg 1,
    .outb kSecNoReg (secAddr.setWidth 8),
    .outb kCylinderLowReg ((secAddr >>> 8).setWidth 8),
    .outb kCylinderHighReg ((secAddr >>> 16).setWidth 8),
    .outb kDriveHeadSelReg
      ((0xe0#32 ||| ((devNo.setWidth 32 &&& 1#32) <<< 4) ||| (secAddr >>> 24)).setWidth 8),
    .outb kCmdReg kRead]

def wSecWrites (devNo : BitVec 8) (secAddr : BitVec 32) (src : ℕ) (answers : List (BitVec 8)) :
    Option (List PortWrite) := do
  let (_, answers) ← ideWait false answers
  let command : List PortWrite := [
    .outb kDeviceCtrlReg 0,
    .outb kSecCountReg 1,
    .outb kSecNoReg (secAddr.setWidth 8),
    .outb kCylinderLowReg ((secAddr >>> 8).setWidth 8),
    .outb kCylinderHighReg ((secAddr >>> 16).setWidth 8),
    .outb kDriveHeadSelReg
      ((0xe0#32 ||| ((devNo.setWidth 32 &&& 1#32) <<< 4) ||| (secAddr >>> 24)).setWidth 8),
    .outb kCmdReg kWrite]
  let answers ← waitReady answers
  let (done, answers) ← ideWait true answers
  if done = false then some command
  else match answers with
    | [] => none
    | status :: _ =>
      if status &&& kIdeDrq ≠ 0 then some (command ++ [.outsl kDataReg src (kSecSize / 4)]) else some command

/-! ## The drive -/

/-- The command registers and the byte in the command register, once one is written. -/
def accepted (ports : ℕ → BitVec 8) : List PortWrite → Option (Command × BitVec 8)
  | [] => none
  | .outsl _ _ _ :: writes => accepted ports writes
  | .outb port value :: writes =>
    if port = kCmdReg then
      some (⟨ports kSecNoReg, ports kCylinderLowReg, ports kCylinderHighReg, ports kDriveHeadSelReg⟩, value)
    else accepted (Function.update ports port value) writes

/-- Bit 6 of the drive/head register selects LBA. -/
def Command.lbaMode (c : Command) : Bool := c.driveHead.getLsbD 6

variable {devNo : BitVec 8} {secAddr : BitVec 32} {src : ℕ} {answers : List (BitVec 8)}
  {writes : List PortWrite} {ports : ℕ → BitVec 8}

theorem rSecWrites_accepted (h : rSecWrites devNo secAddr answers = some writes) :
    accepted ports writes = some (makeCommand devNo secAddr, kRead) := by
  rw [rSecWrites] at h
  cases hwait : ideWait false answers with
  | none =>
    rw [hwait] at h
    cases h
  | some r =>
    rw [hwait] at h
    cases h
    rfl

theorem wSecWrites_accepted (h : wSecWrites devNo secAddr src answers = some writes) :
    accepted ports writes = some (makeCommand devNo secAddr, kWrite) := by
  rw [wSecWrites] at h
  obtain ⟨⟨_, answers₁⟩, -, h⟩ := Option.bind_eq_some_iff.mp h
  obtain ⟨answers₂, -, h⟩ := Option.bind_eq_some_iff.mp h
  obtain ⟨⟨done, answers₃⟩, -, h⟩ := Option.bind_eq_some_iff.mp h
  dsimp only at h
  -- The data follows the command, so it is the same command whether it is written or not.
  split at h
  · cases h
    rfl
  · split at h
    · cases h
    · split at h
      · cases h
        rfl
      · cases h
        rfl

/-! ## The drive that is selected -/

theorem makeCommand_lbaMode (devNo : BitVec 8) (secAddr : BitVec 32) :
    (makeCommand devNo secAddr).lbaMode = true := by
  have hhead : ∀ (b : Bool) (h : BitVec 8),
      (0xe0#8 ||| (if b then 0x10#8 else 0#8) ||| h).getLsbD 6 = true := by decide
  rw [Command.lbaMode, driveHead_eq, hhead]

theorem makeCommand_drive_eq (devNo : BitVec 8) (secAddr : BitVec 32) :
    (makeCommand devNo secAddr).drive = (devNo.getLsbD 0 || secAddr.getLsbD 28) := by
  have hhead : ∀ (b : Bool) (h : BitVec 8),
      (0xe0#8 ||| (if b then 0x10#8 else 0#8) ||| h).getLsbD 4 = (b || h.getLsbD 4) := by decide
  have hbit : ((secAddr >>> 24).setWidth 8).getLsbD 4 = secAddr.getLsbD 28 := by
    rw [BitVec.getLsbD_setWidth, BitVec.getLsbD_ushiftRight]
    rfl
  rw [Command.drive, driveHead_eq, hhead, hbit]

structure Addresses (devNo : BitVec 8) (secAddr : BitVec 32) (c : Command) : Prop where
  mode : c.lbaMode = true
  drive : c.drive = devNo.getLsbD 0
  lba : c.lba = secAddr.toNat % 2 ^ 28

theorem addresses_makeCommand_iff : Addresses devNo secAddr (makeCommand devNo secAddr) ↔
    devNo.getLsbD 0 = true ∨ secAddr.getLsbD 28 = false := by
  have hdrive := makeCommand_drive_eq devNo secAddr
  constructor
  · intro h
    rw [h.drive] at hdrive
    revert hdrive
    cases devNo.getLsbD 0 <;> simp
  · intro h
    refine ⟨makeCommand_lbaMode devNo secAddr, ?_, makeCommand_lba devNo secAddr⟩
    rw [hdrive]
    rcases h with h | h
    · rw [h, Bool.true_or]
    · rw [h, Bool.or_false]

/-- Whatever the ports held and whatever the drive answers, `RSec` and `WSec` send their
command to one address, and it is the right one. -/
structure SectorsAddressed (devNo : BitVec 8) (secAddr : BitVec 32) : Prop where
  read : ∀ ports answers writes, rSecWrites devNo secAddr answers = some writes →
    ∃ c, accepted ports writes = some (c, kRead) ∧ Addresses devNo secAddr c
  write : ∀ ports src answers writes, wSecWrites devNo secAddr src answers = some writes →
    ∃ c, accepted ports writes = some (c, kWrite) ∧ Addresses devNo secAddr c
  same : ∀ ports ports' src answers answers' writes writes',
    rSecWrites devNo secAddr answers = some writes →
    wSecWrites devNo secAddr src answers' = some writes' →
    (accepted ports writes).map Prod.fst = (accepted ports' writes').map Prod.fst

theorem sectors_addressed_iff (devNo : BitVec 8) (secAddr : BitVec 32) :
    SectorsAddressed devNo secAddr ↔ devNo.getLsbD 0 = true ∨ secAddr.getLsbD 28 = false := by
  constructor
  · intro h
    have hwrites : ∃ writes, rSecWrites devNo secAddr [0] = some writes := ⟨_, rfl⟩
    obtain ⟨writes, hwrites⟩ := hwrites
    obtain ⟨c, hc, haddr⟩ := h.read (fun _ => 0) [0] writes hwrites
    rw [rSecWrites_accepted hwrites] at hc
    obtain ⟨rfl, -⟩ := Prod.mk.inj (Option.some.inj hc)
    exact addresses_makeCommand_iff.mp haddr
  · intro h
    have haddr := addresses_makeCommand_iff.mpr h
    constructor
    · exact fun ports answers writes hw => ⟨_, rSecWrites_accepted hw, haddr⟩
    · exact fun ports src answers writes hw => ⟨_, wSecWrites_accepted hw, haddr⟩
    · intro ports ports' src answers answers' writes writes' hr hw
      rw [rSecWrites_accepted hr, wSecWrites_accepted hw]
      rfl

theorem drive_changed : ¬ SectorsAddressed 0#8 0x10000000#32 ∧
    (makeCommand 0#8 0x10000000#32).drive = true := by
  refine ⟨fun h => ?_, by decide⟩
  obtain ⟨c, hc, haddr⟩ := h.read (fun _ => 0) [0] _ rfl
  obtain ⟨rfl, -⟩ := Prod.mk.inj (Option.some.inj hc)
  exact absurd haddr.drive (by decide)

end XyOS.Driver
