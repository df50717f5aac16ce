import XyOS.Memory.DirectMappingDefs
import XyOS.Memory.PageAllocatorDefs

/-! Page directories and page tables of `paging.c` in physical memory, and the
two-level walk of 32-bit paging. -/

namespace XyOS.Paging
open DirectMapping PageAllocator

def kKPdAddr : ℕ := 0xc0001000
def kKPtAddr : ℕ := 0xc000d000
def kPdeNum : ℕ := 1024
def kUPdeNum : ℕ := 768
def kKPdeDirectMappingNum : ℕ := 16
def kPteMaxNum : ℕ := 1024
def kPtMaxSize : ℕ := 4096
def kPdSize : ℕ := 4096

def kPdeAbsentAddr : ℕ := 0
def kKPdeWritePresentAccess : BitVec 8 := 3
def kKPdeWriteAbsentAccess : BitVec 8 := 2
def kUPdeReadPresentAccess : BitVec 8 := 5
def kUPdeWritePresentAccess : BitVec 8 := 7
def kUPdeWriteAbsentAccess : BitVec 8 := 6
def kKPteWritePresentAccess : BitVec 8 := 3
def kUPteReadPresentAccess : BitVec 8 := 5
def kUPteWritePresentAccess : BitVec 8 := 7

structure Pde where
  access : BitVec 8
  ignored : BitVec 4
  ptAddr : BitVec 20
deriving DecidableEq

structure Pte where
  access : BitVec 9
  ignored : BitVec 3
  pageAddr : BitVec 20
deriving DecidableEq

def Pde.toWord (e : Pde) : ℕ := e.access.toNat + 2 ^ 8 * e.ignored.toNat + 2 ^ 12 * e.ptAddr.toNat

def Pde.ofWord (w : ℕ) : Pde := ⟨.ofNat 8 w, .ofNat 4 (w / 2 ^ 8), .ofNat 20 (w / 2 ^ 12)⟩

def Pte.toWord (e : Pte) : ℕ := e.access.toNat + 2 ^ 9 * e.ignored.toNat + 2 ^ 12 * e.pageAddr.toNat

def Pte.ofWord (w : ℕ) : Pte := ⟨.ofNat 9 w, .ofNat 3 (w / 2 ^ 9), .ofNat 20 (w / 2 ^ 12)⟩

def getPde (m : Memory) (entry : ℕ) : Pde := .ofWord (readWord m entry)

def getPte (m : Memory) (entry : ℕ) : Pte := .ofWord (readWord m entry)

def getPtAddrInPde (physAddr : ℕ) : BitVec 20 := .ofNat 20 (physAddr >>> 12)

def getPageAddrInPte (physAddr : ℕ) : BitVec 20 := .ofNat 20 (physAddr >>> 12)

def makePde (access : BitVec 8) (address : ℕ) : Pde := ⟨access, 0, getPtAddrInPde address⟩

def makePte (access : BitVec 8) (address : ℕ) : Pte := ⟨access.setWidth 9, 0, getPageAddrInPte address⟩

def setPde (m : Memory) (entry : ℕ) (access : BitVec 8) (address : ℕ) : Memory :=
  writeWord m entry (makePde access address).toWord

def setPte (m : Memory) (entry : ℕ) (access : BitVec 8) (address : ℕ) : Memory :=
  writeWord m entry (makePte access address).toWord

def walk (m : Memory) (pd v : ℕ) : Option ℕ :=
  let pde := readWord m (pd + 4 * (v >>> 22))
  if pde % 2 = 1 then
    let pte := readWord m ((pde >>> 12) <<< 12 + 4 * ((v >>> 12) % 1024))
    if pte % 2 = 1 then some ((pte >>> 12) <<< 12 + v % 0x1000) else none
  else none

/-! ## PagingInit -/

def fillIdentity (pt : ℕ) : ℕ → Memory → Memory
  | 0, m => m
  | j + 1, m => setPte (fillIdentity pt j m) (pt + 4 * j) kKPteWritePresentAccess (j * pageSize)

/-- The directory entries from `i` on that are set to one absent value, after `n` rounds. -/
def fillAbsent (pd i : ℕ) (access : BitVec 8) : ℕ → Memory → Memory
  | 0, m => m
  | n + 1, m => setPde (fillAbsent pd i access n m) (pd + 4 * (i + n)) access kPdeAbsentAddr

def fillPt (pt : ℕ) : ℕ → Memory × ℕ → Memory × ℕ
  | 0, s => s
  | j + 1, s =>
    let (m, pageAddr) := fillPt pt j s
    (setPte m (pt + 4 * j) kKPteWritePresentAccess pageAddr, u32 (pageAddr + pageSize))

def fillDirect (pd : ℕ) : ℕ → Memory → Memory × ℕ × ℕ
  | 0, m => (m, directMappingPhysAddr kKPtAddr, 0)
  | n + 1, m =>
    let ptAddr := (fillDirect pd n m).2.1
    let pageAddr := (fillDirect pd n m).2.2
    let m := setPde (fillDirect pd n m).1 (pd + 4 * (kUPdeNum + n)) kKPdeWritePresentAccess ptAddr
    let filled := fillPt ptAddr kPteMaxNum (m, pageAddr)
    (filled.1, u32 (ptAddr + kPtMaxSize), filled.2)

def kernelTables (m : Memory) : Memory :=
  let kPd := directMappingPhysAddr kKPdAddr
  let ptAddr := directMappingPhysAddr (sub32 kKPtAddr kPtMaxSize)
  let m := setPde m kPd kKPdeWritePresentAccess ptAddr
  let m := fillIdentity ptAddr kPteMaxNum m
  let m := fillAbsent kPd 1 kUPdeWriteAbsentAccess (kUPdeNum - 1) m
  let m := (fillDirect kPd kKPdeDirectMappingNum m).1
  let i := kUPdeNum + kKPdeDirectMappingNum
  fillAbsent kPd i kKPdeWriteAbsentAccess (kPdeNum - i) m

def pagingInit (avlMem : List AvlPhysMem) (m : Memory) (pageState : Bitmap) :
    Except Fault (Memory × Bitmap × ℕ) := do
  let pageState ← pageAllocatorInit avlMem pageState
  .ok (kernelTables m, pageState, directMappingPhysAddr kKPdAddr)

/-! ## UPdClone -/

def clearWritable (fatherPd : ℕ) : ℕ → Memory → Memory
  | 0, m => m
  | i + 1, m =>
    let m := clearWritable fatherPd i m
    let e := getPde m (fatherPd + 4 * i)
    writeWord m (fatherPd + 4 * i) { e with access := e.access &&& ~~~ 2 }.toWord

def copyPdes (curPd fatherPd : ℕ) : ℕ → Memory → Memory
  | 0, m => m
  | i + 1, m =>
    let m := copyPdes curPd fatherPd i m
    writeWord m (curPd + 4 * i) (getPde m (fatherPd + 4 * i)).toWord

def uPdClone (m : Memory) (curPd fatherPd : ℕ) : Memory :=
  copyPdes curPd fatherPd kPdeNum (clearWritable fatherPd kUPdeNum m)

end XyOS.Paging
