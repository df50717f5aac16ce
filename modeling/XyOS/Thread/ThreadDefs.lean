import Mathlib.Tactic.Simps.Basic
import XyOS.Lib.Queue
import XyOS.Process.KernelDefs

/-! The threads of `thread.c` and the time slices of `timer.c`.

The heap of the kernel holds the `Thread`s, the lists that link them and the words
at the tops of the stacks, where a thread's own address is kept. What `SwitchReg`
pushes and pops is on the stacks themselves; of it only the stack pointer, which
goes through the records, is part of the state here. -/

namespace XyOS.Scheduling
open Linked Process DirectMapping Paging

def kThreadPoolInitNum : ℕ := 128
def kMainStackAddr : ℕ := 0xbc00
def kKStackSize : ℕ := 0x1000
def kTimerReset : UInt8 := 0xf
def threadBytes : ℕ := 24
def queueBytes : ℕ := 8

structure Scheduler extends Kernel where
  kPcb : ℕ
  waitThreadQueue : ℕ
  blockThreadList : ℕ
  esp : ℕ
  timer : UInt8

def Pcb.pid (pcb : ℕ) : ℕ := pcb
def Thread.tid (thread : ℕ) : ℕ := thread
def Thread.esp (thread : ℕ) : ℕ := thread + 12

/-- The thread whose member `node` is at `node`. -/
def threadOf (node : ℕ) : ℕ := sub32 node (Thread.node 0)

namespace Scheduler

@[simps toKernel kPcb waitThreadQueue blockThreadList esp timer]
def withKernel (s : Scheduler) (k : Kernel) : Scheduler := { s with toKernel := k }

@[simps -fullyApplied]
def setHeap (s : Scheduler) (heap : ℕ → ℕ) : Scheduler := { s with heap := heap }

@[simps -fullyApplied]
def setTssEsp0 (s : Scheduler) (esp0 : ℕ) : Scheduler := { s with tssEsp0 := esp0 }

@[simps toKernel kPcb waitThreadQueue blockThreadList esp timer]
def setEsp (s : Scheduler) (esp : ℕ) : Scheduler := { s with esp := esp }

@[simps toKernel kPcb waitThreadQueue blockThreadList esp timer]
def setTimer (s : Scheduler) (timer : UInt8) : Scheduler := { s with timer := timer }

def store (s : Scheduler) (a v : ℕ) : Scheduler := s.setHeap (Function.update s.heap a v)

def reqBytes (s : Scheduler) (size : ℕ) : Except Fault (ℕ × Scheduler) := do
  let (a, alloc) ← DirectMapping.reqBytes s.alloc size
  .ok (a, { s with alloc := alloc })

def newList (s : Scheduler) : Except Fault (ℕ × Scheduler) := do
  let (head, s) ← s.reqBytes 4
  .ok (head, if head = 0 then s else s.store head head)

def newQueue (s : Scheduler) : Except Fault (ℕ × Scheduler) := do
  let (head, s) ← s.newList
  let (q, s) ← s.reqBytes queueBytes
  .ok (q, (s.store (Queue.head q) head).store (Queue.tail q) head)

end Scheduler

/-! ## Creation -/

def linkPool (s : Scheduler) (pool : ℕ) : ℕ → Scheduler
  | 0 => s
  | i + 1 =>
    let s := linkPool s pool i
    let current := Thread.node (pool + threadBytes * i)
    let s := s.store (Thread.tid (threadOf current)) (kThreadPoolInitNum - i)
    s.setHeap (listAdd s.heap s.freeThreadList current)

def mainThread (s : Scheduler) (kMain : ℕ) : Scheduler :=
  let s := s.store (Thread.pcb kMain) s.kPcb
  let s := s.store (Thread.stackAddr kMain) kMainStackAddr
  let s := s.store (Thread.esp kMain) (kMainStackAddr - 4)
  let s := s.store (s.heap (Thread.esp kMain)) kMain
  let s := s.store (Thread.tid kMain) 0
  let s := s.store (Thread.node kMain) 0
  s.setTssEsp0 (s.heap (Thread.esp kMain))

def threadInit (s : Scheduler) : Except Fault Scheduler := do
  let (pool, s) ← s.reqBytes (kThreadPoolInitNum * threadBytes)
  if pool = 0 then .ok { s with freeThreadList := 0 }
  else
    let (free, s) ← s.newList
    let s := linkPool { s with freeThreadList := free } pool kThreadPoolInitNum
    let (wait, s) ← s.newQueue
    let (block, s) ← s.newList
    let (kMain, s) ← s.reqBytes threadBytes
    .ok (mainThread { s with waitThreadQueue := wait, blockThreadList := block } kMain)

def openThread (s : Scheduler) (newThread stack pcb : ℕ) : Scheduler :=
  let s := s.store (Thread.stackAddr newThread) (sub32 (u32 (kKStackSize + stack)) 1)
  let s := s.store (Thread.pcb newThread) pcb
  let s := s.store (Thread.esp newThread) (sub32 (s.heap (Thread.stackAddr newThread)) 4)
  s.store (s.heap (Thread.esp newThread)) newThread

def createThread (s : Scheduler) (pcb : ℕ) : Except Fault (ℕ × Scheduler) :=
  if isListEmpty s.heap s.freeThreadList = false then do
    let removed := listRemove s.heap s.freeThreadList
    let newThread := threadOf removed.1
    let (stack, s) ← (s.setHeap removed.2).reqBytes kKStackSize
    let s := openThread s newThread stack pcb
    .ok (newThread, s.setHeap (listAdd s.heap (Pcb.threadList pcb) (Thread.node newThread)))
  else .ok (0, s)

/-- The words that `KThreadRun` puts below the top of the stack for `SwitchReg` to pop. -/
def prepareStack (s : Scheduler) (thread startFunc : ℕ) : Scheduler :=
  let s := s.store (Thread.esp thread) (sub32 (s.heap (Thread.esp thread)) 4)
  let s := s.store (s.heap (Thread.esp thread)) startFunc
  let s := s.store (Thread.esp thread) (sub32 (s.heap (Thread.esp thread)) 16)
  let t := s.heap (Thread.esp thread)
  (((s.store t 0).store (t + 4) 0).store (t + 8) 0).store (t + 12) 0

def kThreadRun (s : Scheduler) (thread startFunc : ℕ) : Scheduler :=
  if s.heap (Pcb.pid (s.heap (Thread.pcb thread))) = 0 then
    let s := prepareStack s thread startFunc
    s.setHeap (enqueue s.heap s.waitThreadQueue (Thread.node thread))
  else s

/-! ## Switching -/

def switchProc (s : Scheduler) (curPcb newPcb : ℕ) : Scheduler :=
  let s := s.withKernel (switchPd s.toKernel (directMappingPhysAddr (s.heap (Pcb.pageDir newPcb))))
  let s := s.store (Pcb.state newPcb) ProcState.run.value
  s.store (Pcb.state curPcb) ProcState.wait.value

def enterProc (s : Scheduler) (curPcb newPcb : ℕ) : Scheduler :=
  if s.heap (Pcb.pid curPcb) ≠ s.heap (Pcb.pid newPcb) then switchProc s curPcb newPcb else s

/-- `SwitchReg` saves the stack pointer below four registers, and the new thread
resumes above its own four registers and its return address. -/
def switchReg (s : Scheduler) (curEsp newEsp : ℕ) : Scheduler :=
  let s := s.store curEsp (sub32 s.esp 16)
  s.setEsp (u32 (s.heap newEsp + 20))

def switchTo (s : Scheduler) (cur new : ℕ) : Scheduler :=
  let s := s.setHeap (enqueue s.heap s.waitThreadQueue (Thread.node cur))
  let s := enterProc s (s.heap (Thread.pcb cur)) (s.heap (Thread.pcb new))
  let s := s.setTssEsp0 (sub32 (s.heap (Thread.stackAddr new)) 4)
  switchReg s (Thread.esp cur) (Thread.esp new)

def threadSwitch (s : Scheduler) : Scheduler :=
  let removed := dequeue s.heap s.waitThreadQueue
  let s := s.setHeap removed.2
  if removed.1 = 0 then s else switchTo s (getCurThread s.toKernel) (threadOf removed.1)

def threadSleep (s : Scheduler) : Scheduler :=
  let curThread := getCurThread s.toKernel
  threadSwitch (s.setHeap (listAdd s.heap s.blockThreadList (Thread.node curThread)))

def threadWake (s : Scheduler) (thread : ℕ) : Except Fault Scheduler := do
  let tmp ← s.follow (fun n => n == s.blockThreadList || n == Thread.node thread) s.blockThreadList
  if s.heap tmp = Thread.node thread then
    let heap := (listRemove s.heap tmp).2
    .ok (s.setHeap (enqueue heap s.waitThreadQueue (Thread.node thread)))
  else .ok s

def threadWakeAll (s : Scheduler) : List ℕ → Except Fault Scheduler
  | [] => .ok s
  | thread :: threads => do threadWakeAll (← threadWake s thread) threads

def timerHandler (s : Scheduler) : Scheduler :=
  let s := s.setTimer (s.timer - 1)
  if s.timer = 0 then threadSwitch (s.setTimer kTimerReset) else s

end XyOS.Scheduling
