import XyOS.Memory.LinearMemory

/-! The kernel state that `process.c`, the thread release of `thread.c` and the
page fault handler of `paging.c` work on.

`mem` is physical memory as far as page directories, page tables and pages are
concerned. The words of `Pcb`s, `Thread`s and list nodes are in `heap`, by their
address. `log` is no part of the kernel: it keeps what the properties of the handlers
are about. -/

namespace XyOS.Process
open Linked DirectMapping PageAllocator Paging

inductive Event
  | reqBytes (a : ℕ)
  | relBytes (a : ℕ)
  | setPde (entry : ℕ) (e : Pde)
  | setPte (entry : ℕ) (e : Pte)
deriving DecidableEq

structure Kernel where
  mem : Memory
  heap : ℕ → ℕ
  alloc : Allocator
  avlMem : List AvlPhysMem
  pageState : Bitmap
  cr2 : ℕ
  cr3 : ℕ
  freeProcList : ℕ
  freeThreadList : ℕ
  tssEsp0 : ℕ
  log : List Event

/-- The physical address behind a pointer into what `PagingInit` maps. `CreateProc` and
`CloseProc` follow no other pointers to page directories and page tables. -/
def physical (ptr : ℕ) : ℕ := (Paging.translate ptr).getD 0

def toInt32 (x : ℕ) : ℤ := if x < 2 ^ 31 then x else (x : ℤ) - 2 ^ 32

def isBitSet (data i : ℕ) : Bool := data &&& 1 <<< i != 0

/-! ## Members of the structures -/

def Pcb.pageDir (pcb : ℕ) : ℕ := pcb + 4
def Pcb.state (pcb : ℕ) : ℕ := pcb + 8
def Pcb.codeAddr (pcb : ℕ) : ℕ := pcb + 12
def Pcb.codeSize (pcb : ℕ) : ℕ := pcb + 16
def Pcb.dataAddr (pcb : ℕ) : ℕ := pcb + 20
def Pcb.dataSize (pcb : ℕ) : ℕ := pcb + 24
def Pcb.father (pcb : ℕ) : ℕ := pcb + 28
def Pcb.left (pcb : ℕ) : ℕ := pcb + 32
def Pcb.right (pcb : ℕ) : ℕ := pcb + 36
def Pcb.node (pcb : ℕ) : ℕ := pcb + 40
def Pcb.threadList (pcb : ℕ) : ℕ := pcb + 44
def pcbBytes : ℕ := 48

def Thread.stackAddr (thread : ℕ) : ℕ := thread + 4
def Thread.pcb (thread : ℕ) : ℕ := thread + 8
def Thread.node (thread : ℕ) : ℕ := thread + 16
def Thread.sibling (thread : ℕ) : ℕ := thread + 20

inductive ProcState
  | wait
  | run
  | die

def ProcState.value : ProcState → ℕ
  | .wait => 0
  | .run => 1
  | .die => 2

namespace Kernel

def store (k : Kernel) (a v : ℕ) : Kernel := { k with heap := Function.update k.heap a v }

def setCr3 (k : Kernel) (physAddr : ℕ) : Kernel := { k with cr3 := physAddr }

def record (k : Kernel) (e : Event) : Kernel := { k with log := e :: k.log }

/-- Where the current page tables lead the linear address `v`, `none` for a page fault. -/
def linear (k : Kernel) (v : ℕ) : Option ℕ := Paging.walk k.mem k.cr3 v

def setPte (k : Kernel) (entry : ℕ) (e : Pte) : Kernel :=
  { k with mem := writeWord k.mem entry e.toWord }.record (.setPte entry e)

def follow (k : Kernel) (stop : ℕ → Bool) (prev : ℕ) : Except Fault ℕ :=
  match Linked.walk k.heap (fun n => !stop n) loopFuel prev with
  | some tmp => .ok tmp
  | none => .error .diverges

end Kernel

def switchPd (k : Kernel) (pdAddr : ℕ) : Kernel := k.setCr3 (directMappingPhysAddr pdAddr)

def getCurThread (k : Kernel) : ℕ := k.heap k.tssEsp0

/-! ## Creation -/

def addSon (k : Kernel) (son father : ℕ) : Except Fault Kernel := do
  let tmp ← k.follow (fun n => n == 0) father
  .ok (k.store tmp son)

/-- The members that `CreateProc` sets before it clones the directory into `a`. -/
def openPcb (heap : ℕ → ℕ) (newPcb a : ℕ) : ℕ → ℕ :=
  let heap := Function.update heap (Pcb.state newPcb) ProcState.wait.value
  let heap := Function.update heap (Pcb.threadList newPcb) (Pcb.threadList newPcb)
  Function.update heap (Pcb.pageDir newPcb) a

def sharePcb (heap : ℕ → ℕ) (newPcb father : ℕ) : ℕ → ℕ :=
  let heap := Function.update heap (Pcb.node newPcb) 0
  let heap := Function.update heap (Pcb.codeAddr newPcb) (heap (Pcb.codeAddr father))
  let heap := Function.update heap (Pcb.codeSize newPcb) (heap (Pcb.codeSize father))
  let heap := Function.update heap (Pcb.dataAddr newPcb) (heap (Pcb.dataAddr father))
  Function.update heap (Pcb.dataSize newPcb) (heap (Pcb.dataSize father))

def createProc (k : Kernel) (father : ℕ) : Except Fault (ℕ × Kernel) :=
  if isListEmpty k.heap k.freeProcList then .ok (0, k)
  else do
    let removed := listRemove k.heap k.freeProcList
    let newPcb := sub32 removed.1 (Pcb.node 0)
    let (a, alloc) ← reqBytes k.alloc kPdSize
    let heap := openPcb removed.2 newPcb a
    let mem := uPdClone k.mem (physical a) (physical (heap (Pcb.pageDir father)))
    let k := { k with heap := heap, alloc := alloc, mem := mem }.store (Pcb.father newPcb) father
    let k ← addSon k (Pcb.right newPcb) (Pcb.left father)
    .ok (newPcb, { k with heap := sharePcb k.heap newPcb father })

/-! ## Release -/

def destructThread (kEnd : ℕ) (k : Kernel) (thread : ℕ) : Except Fault Kernel := do
  let k := k.store (Thread.pcb thread) 0
  let alloc ← relBytes kEnd k.alloc (u32 (sub32 (k.heap (Thread.stackAddr thread)) 0x1000 + 1))
  let k := { k with alloc := alloc }
  let prev ← k.follow (fun n => n == Thread.sibling thread) (Pcb.threadList (k.heap (Thread.pcb thread)))
  let k := { k with heap := (listRemove k.heap prev).2 }
  .ok { k with heap := listAdd k.heap k.freeThreadList (Thread.node thread) }

/-- The `while` over the sons; a son that is not `DIE` blocks it for ever. -/
def destructSons (kEnd : ℕ) : ℕ → Kernel → ℕ → Except Fault Kernel
  | 0, _, _ => .error .diverges
  | fuel + 1, k, tmp =>
    if tmp = 0 then .ok k
    else do
      let son := sub32 tmp (Pcb.right 0)
      if k.heap (Pcb.state son) ≠ ProcState.die.value then .error .blocked
      else
        let k ← destructThread kEnd k (sub32 (k.heap (Pcb.threadList son)) (Thread.sibling 0))
        let k := k.store (Pcb.threadList son) 0
        let next := k.heap tmp
        let k := k.store (Pcb.right son) 0
        destructSons kEnd fuel { k with heap := listAdd k.heap k.freeProcList (Pcb.node son) } next

def destructAllSons (kEnd : ℕ) (k : Kernel) (pcb : ℕ) : Except Fault Kernel :=
  if k.heap (Pcb.left pcb) = 0 then .ok k
  else do
    let k ← destructSons kEnd loopFuel k (k.heap (Pcb.left pcb))
    .ok (k.store (Pcb.left pcb) 0)

def destructThreads (kEnd pcb curThread : ℕ) : ℕ → Kernel → ℕ → Except Fault Kernel
  | 0, _, _ => .error .diverges
  | fuel + 1, k, tmp =>
    if k.heap tmp = Pcb.threadList pcb then .ok k
    else if k.heap tmp ≠ Thread.sibling curThread then do
      let k ← destructThread kEnd k (sub32 (k.heap tmp) (Thread.sibling 0))
      destructThreads kEnd pcb curThread fuel k tmp
    else destructThreads kEnd pcb curThread fuel k (k.heap tmp)

def relPages (pt : ℕ) : ℕ → Kernel → Kernel
  | 0, k => k
  | i + 1, k =>
    let k := relPages pt i k
    let e := getPte k.mem (physical (pt + 4 * i))
    if e.pageAddr ≠ 0 then
      let r := relPage k.avlMem k.mem k.pageState (getPageNo (e.pageAddr.toNat <<< 12))
      { k with mem := r.1, pageState := r.2 }
    else k

def Kernel.relBytes (kEnd : ℕ) (k : Kernel) (a : ℕ) : Except Fault Kernel := do
  let alloc ← DirectMapping.relBytes kEnd k.alloc a
  .ok ({ k with alloc := alloc }.record (.relBytes a))

def releaseTable (kEnd entry : ℕ) (k : Kernel) : Except Fault Kernel :=
  if (getPde k.mem entry).ptAddr ≠ 0 then
    let k := relPages (getPde k.mem entry).ptAddr.toNat kPteMaxNum k
    k.relBytes kEnd (directMappingVirtualAddr (getPde k.mem entry).ptAddr.toNat)
  else .ok k

def releaseTables (kEnd pageDir : ℕ) : ℕ → Kernel → Except Fault Kernel
  | 0, k => .ok k
  | n + 1, k => do
    releaseTables kEnd pageDir n (← releaseTable kEnd (physical (pageDir + 4 * (kPdeNum - (n + 1)))) k)

def closeProc (kEnd : ℕ) (k : Kernel) : Except Fault Kernel := do
  let curThread := getCurThread k
  let pcb := k.heap (Thread.pcb curThread)
  let k ← destructAllSons kEnd k pcb
  let k := switchPd k kKPdAddr
  let k ← destructThreads kEnd pcb curThread loopFuel k (Pcb.threadList pcb)
  let pageDir := k.heap (Pcb.pageDir pcb)
  let k ← releaseTables kEnd pageDir kPdeNum k
  let k ← k.relBytes kEnd pageDir
  .ok (k.store (Pcb.state pcb) ProcState.die.value)

/-! ## Page faults -/

def pdeAccess (errCode : ℕ) : BitVec 8 :=
  if isBitSet errCode 1 then kUPdeWritePresentAccess else kUPdeReadPresentAccess

def pteAccess (errCode : ℕ) : BitVec 8 :=
  if isBitSet errCode 1 then kUPteWritePresentAccess else kUPteReadPresentAccess

/-- `&pd[pd_i]` for the faulting address, with the signed division of the source. -/
def pdePtr (k : Kernel) : ℕ :=
  ofInt32 (directMappingVirtualAddr k.cr3 + 4 * Int.tdiv (toInt32 k.cr2) 0x400000)

/-- `&pt[pt_i]` for the directory entry at `entry`, whose frame is used as a linear address. -/
def ptePtr (k : Kernel) (entry : ℕ) : ℕ :=
  (getPde k.mem entry).ptAddr.toNat <<< 12 + 4 * (getPageNo k.cr2 % kPteMaxNum)

def installTable (k : Kernel) (errCode entry a : ℕ) (alloc : Allocator) : Kernel :=
  let e := makePde (pdeAccess errCode) (directMappingPhysAddr a)
  { k with alloc := alloc, mem := writeWord k.mem entry e.toWord,
           log := .setPde entry e :: .reqBytes a :: k.log }

def requireTable (k : Kernel) (errCode entry : ℕ) : Except Fault Kernel :=
  if (getPde k.mem entry).ptAddr = 0 then do
    let (a, alloc) ← reqBytes k.alloc kPtMaxSize
    .ok (installTable k errCode entry a alloc)
  else .ok k

/-- `PfHandler` returns, or is interrupted by a page fault of its own: at the directory entry,
before it has done anything, or when it is about to store `e` at the linear address `ptr`. -/
inductive Handled
  | returned (k : Kernel)
  | noDirectory (k : Kernel)
  | noTable (k : Kernel) (ptr : ℕ) (e : Pte)

def installPage (k : Kernel) (errCode entry : ℕ) : Handled :=
  let ptr := ptePtr k entry
  let r := reqPage k.pageState
  let e := makePte (pteAccess errCode) r.1
  let k := { k with pageState := r.2 }
  match k.linear ptr with
  | some x => .returned (k.setPte x e)
  | none => .noTable k ptr e

def pfHandler (kEnd : ℕ) (k : Kernel) (errCode : ℕ) : Except Fault Handled :=
  if isBitSet errCode 0 = false then
    match k.linear (pdePtr k) with
    | some entry => do
      let k ← requireTable k errCode entry
      .ok (installPage k errCode entry)
    | none => .ok (.noDirectory k)
  else if isBitSet errCode 2 then (closeProc kEnd k).map .returned
  else if isBitSet errCode 1 then (closeProc kEnd k).map .returned
  else .ok (.returned k)

end XyOS.Process
