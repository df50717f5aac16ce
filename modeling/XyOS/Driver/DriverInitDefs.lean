import XyOS.Driver.IdeRegisters
import XyOS.Driver.Keyboard
import XyOS.Foundation.Ports
import XyOS.Interrupt.IntrInit
import XyOS.Interrupt.Pic
import XyOS.Thread.ThreadDefs

/-! `DriverInit`: `IdeInit`, `TimerInit` and `KeyboardInit`, whatever the drive and the keyboard
controller answer. What the drivers call of the kernel is an access of its own. -/

namespace XyOS.DriverInit
open Ports Driver Interrupt

def kTimerVec : ℕ := 0x20
def kKeyboardVec : ℕ := 33
def kIdeVec : ℕ := 46
def kSyscallVec : ℕ := 0x80

inductive KernelCall
  | regIntrHandler (v handler : ℕ)
  | enableIrq (v : ℕ)
  | insl (port words : ℕ)
  | queue
  | runThread (start : ℕ)
  | setTimer (timer : UInt8)
  | clearKeyboard
  | map

structure Handlers where
  ide : ℕ
  timer : ℕ
  keyboard : ℕ
  runIde : ℕ
  ide_ne : ide ≠ 0
  timer_ne : timer ≠ 0
  keyboard_ne : keyboard ≠ 0

/-! ## `ide.c` -/

def kStatusReg : ℕ := kIoBase + 7
def kAlternateStatusReg : ℕ := kCtrlBase + 0
def kIdentity : BitVec 8 := 0xec

/-- `true` for the result `0`. -/
def ideWait (checkErr : Bool) : Program KernelCall Bool := do
  let status ← poll kAlternateStatusReg fun status =>
    status &&& kIdeBsy != 0 && !(checkErr && status &&& (kIdeDf ||| kIdeErr) != 0)
  return status &&& kIdeBsy == 0

theorem exec_ideWait (checkErr : Bool) (bytes : List (BitVec 8)) :
    (Ports.exec (ideWait checkErr) bytes).map Prod.snd = (Driver.ideWait checkErr bytes).map Prod.fst := by
  set again : BitVec 8 → Bool := fun status =>
    status &&& kIdeBsy != 0 && !(checkErr && status &&& (kIdeDf ||| kIdeErr) != 0) with hagain
  have hexec : ∀ bytes, (Ports.exec (ideWait checkErr) bytes).map Prod.snd =
      (pollBytes again bytes).map fun r => r.2.1 &&& kIdeBsy == 0 := by
    intro bytes
    change Option.map Prod.snd ((pollBytes again bytes).bind _) = _
    cases pollBytes again bytes <;> rfl
  have hiff : ∀ status, again status = true ↔
      status &&& kIdeBsy ≠ 0 ∧ ¬ (checkErr = true ∧ status &&& (kIdeDf ||| kIdeErr) ≠ 0) := by
    intro status
    rw [hagain, Bool.and_eq_true, bne_iff_ne, Bool.not_eq_true', ← Bool.not_eq_true, Bool.and_eq_true, bne_iff_ne]
  induction bytes with
  | nil => rfl
  | cons status bytes ih =>
    rw [hexec] at ih ⊢
    rw [pollBytes, Driver.ideWait]
    by_cases hbsy : status &&& kIdeBsy ≠ 0
    · rw [if_pos hbsy]
      by_cases herr : checkErr = true ∧ status &&& (kIdeDf ||| kIdeErr) ≠ 0
      · rw [if_pos herr, if_neg fun h => ((hiff status).mp h).2 herr]
        exact congrArg some (beq_eq_false_iff_ne.mpr hbsy)
      · rw [if_neg herr, if_pos ((hiff status).mpr ⟨hbsy, herr⟩), Option.map_map, ← ih]
        rfl
    · rw [if_neg hbsy, if_neg fun h => hbsy ((hiff status).mp h).1]
      exact congrArg some (beq_iff_eq.mpr (not_not.mp hbsy))

def ideInit (fs : Handlers) : Program KernelCall Bool := do
  let _ ← ideWait false
  outb kDeviceCtrlReg 2
  outb kDriveHeadSelReg 0xf0
  outb kSecCountReg 0
  outb kSecNoReg 0
  outb kCylinderLowReg 0
  outb kCylinderHighReg 0
  outb kCmdReg kIdentity
  if (← inb kCylinderLowReg) ≠ 0 then return false
  if (← inb kCylinderHighReg) ≠ 0 then return false
  if (← inb kStatusReg) = 0 then return false
  if (← ideWait true) = false then return false
  call (.insl kDataReg (512 / 4))
  call .queue
  call (.enableIrq kIdeVec)
  call (.regIntrHandler kIdeVec fs.ide)
  outb kDeviceCtrlReg 0
  call (.runThread fs.runIde)
  return true

/-! ## `timer.c` -/

def kChannel0Port : ℕ := 0x40
def kModeRegPort : ℕ := 0x43
def kModeRegVal : BitVec 8 := 0x36
def kReloadVal : BitVec 32 := 0x0

def timerInit (fs : Handlers) : Program KernelCall Unit := do
  outb kModeRegPort kModeRegVal
  outb kChannel0Port (kReloadVal.setWidth 8)
  outb kChannel0Port ((kReloadVal >>> 8).setWidth 8)
  call (.regIntrHandler kTimerVec fs.timer)
  call (.setTimer Scheduling.kTimerReset)
  call (.enableIrq kTimerVec)

/-! ## `keyboard.c` -/

def kPs2DataPort : ℕ := 0x60

/-- `kStatusReg` of `keyboard.c`, whose `kCmdReg` is the same port. -/
def kPs2StatusReg : ℕ := 0x64

def kPs2CmdReg : ℕ := 0x64
def kCtrlConfig : BitVec 8 := 0b00000100
def kDisablePort1 : BitVec 8 := 0xad
def kEnablePort1 : BitVec 8 := 0xae
def kDisablePort2 : BitVec 8 := 0xa7
def kCtrlSelfTest : BitVec 8 := 0xaa
def kTestPort1 : BitVec 8 := 0xab
def kWCtrlConfig : BitVec 8 := 0x60
def kResetDevice : BitVec 8 := 0xff

def read (port : ℕ) : Program KernelCall (BitVec 8) := do
  let _ ← poll kPs2StatusReg fun status => status &&& 0x1 == 0
  inb port

def write (port : ℕ) (data : BitVec 8) : Program KernelCall Unit := do
  let _ ← poll kPs2StatusReg fun status => status &&& 0x2 != 0
  outb port data

def keyboardInit (fs : Handlers) : Program KernelCall Bool := do
  write kPs2CmdReg kDisablePort1
  write kPs2CmdReg kDisablePort2
  let _ ← inb kPs2DataPort
  write kPs2CmdReg kWCtrlConfig
  write kPs2DataPort kCtrlConfig
  write kPs2CmdReg kCtrlSelfTest
  if (← read kPs2DataPort) ≠ 0x55 then return false
  write kPs2CmdReg kTestPort1
  if (← read kPs2DataPort) ≠ 0 then return false
  write kPs2CmdReg kEnablePort1
  write kPs2DataPort kResetDevice
  let _ ← read kPs2DataPort
  if (← inb kPs2DataPort) ≠ 0xaa then return false
  call .clearKeyboard
  call .map
  write kPs2CmdReg kWCtrlConfig
  write kPs2DataPort (kCtrlConfig ||| 0x1)
  call (.regIntrHandler kKeyboardVec fs.keyboard)
  call (.enableIrq kKeyboardVec)
  return true

def driverInit (fs : Handlers) : Program KernelCall Unit := do
  let _ ← ideInit fs
  timerInit fs
  let _ ← keyboardInit fs
  return ()

/-! ## What the drivers set up -/

/-- The interrupts, whether the drive is told to send none, and the variables of the drivers, of the
pointers only whether they are set. -/
structure Drivers where
  registry : Registry
  pic : PicState
  silent : Bool
  blockQueue : Bool
  threads : List ℕ
  timer : UInt8
  keyboard : Keyboard
  keymap : Bool

/-- Bit 1 of the device control register keeps the drive from sending interrupts. -/
def Drivers.access (s : Drivers) : Access KernelCall → Drivers
  | .inb _ _ => s
  | .outb port b => if port = kDeviceCtrlReg then { s with silent := b.getLsbD 1 } else s
  | .call (.regIntrHandler v handler) => { s with registry := (regIntrHandler s.registry v handler).2 }
  | .call (.enableIrq v) =>
    { s with
      pic.pics := enableIrq s.pic.pics v
      pic.enabled := Function.update s.pic.enabled (v - kMIcw2) true }
  | .call (.insl _ _) => s
  | .call .queue => { s with blockQueue := true }
  | .call (.runThread start) => { s with threads := s.threads ++ [start] }
  | .call (.setTimer timer) => { s with timer := timer }
  | .call .clearKeyboard => { s with keyboard := freeKeyboardBuffer s.keyboard }
  | .call .map => { s with keymap := true }

def Drivers.run (s : Drivers) (t : List (Access KernelCall)) : Drivers := t.foldl Drivers.access s

/-- The state after `SyscallInit`, in which nothing is registered for a device, and only the cascade is
enabled. -/
def bootDrivers (intrVec : ℕ → BitVec 32) (excHandler pfHandler syscall : ℕ) (p : Pics) (silent : Bool) :
    Drivers where
  registry := (intrInitCalls excHandler pfHandler ++ [Call.reg kSyscallVec syscall]).foldl Interrupt.exec
    (emptyRegistry intrVec)
  pic := .init p
  silent := silent
  blockQueue := false
  threads := []
  timer := 0
  keyboard := ⟨0, fun _ => 0, 0⟩
  keymap := false

end XyOS.DriverInit
