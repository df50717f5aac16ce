import XyOS.Lib.ListDefs

/-! The buddy allocator of `direct_mapping_allocator.c`. Its `MemBlock`s live in
the node pool, a part of memory that nothing else uses: the link word of a node
is keyed by the address of the `node` member, the `addr` word by the address of
the `MemBlock`. -/

namespace XyOS.DirectMapping
open Linked

def kMemBlockTypeNum : ℕ := 26
def kNodePoolSize : ℕ := 0x100000
def kDirectMappingSize : ℕ := 0x4000000
def kKVirtualAddr : ℕ := 0xc0000000

/-- `sizeof(MemBlock)`, with `node` at offset 4. -/
def memBlockBytes : ℕ := 8

def directMappingVirtualAddr (physicalAddr : ℕ) : ℕ := u32 (physicalAddr + kKVirtualAddr)

def directMappingPhysAddr (virtualAddr : ℕ) : ℕ := sub32 virtualAddr kKVirtualAddr

def getStruct (ptr : ℕ) : ℕ := sub32 ptr 4

def nodeOf (block : ℕ) : ℕ := u32 (block + 4)

structure Allocator where
  next : ℕ → ℕ
  addr : ℕ → ℕ
  memBlockPool : ℕ
  freeMemList : ℕ → ℕ
  allocatedMemList : ℕ → ℕ

namespace Allocator

def listAdd (s : Allocator) (prev newNode : ℕ) : Allocator :=
  { s with next := XyOS.listAdd s.next prev newNode }

def listRemove (s : Allocator) (prev : ℕ) : ℕ × Allocator :=
  ((XyOS.listRemove s.next prev).1, { s with next := (XyOS.listRemove s.next prev).2 })

def setAddr (s : Allocator) (block a : ℕ) : Allocator :=
  { s with addr := Function.update s.addr block a }

def blockAddr (s : Allocator) (ptr : ℕ) : ℕ := s.addr (getStruct ptr)

end Allocator

def slot (list : ℕ → ℕ) (i : ℕ) : Except Fault ℕ :=
  if i < kMemBlockTypeNum then .ok (list i) else .error .outOfBounds

def getMemBlockSize (sizeType : ℕ) : ℕ := 2 ^ sizeType

/-- The `for` loop of `GetMemBlockSizeType`, `n` rounds before `i` reaches 32. -/
def topBit (size : ℕ) : ℕ → ℕ → ℕ
  | 0, i => i
  | n + 1, i => if size >>> i = 1 then i else topBit size n (i + 1)

def getMemBlockSizeType (size : ℤ) : ℕ :=
  let i := topBit (ofInt32 size) 32 0
  if ofInt32 size &&& 1 <<< (i % 32) = ofInt32 size then i else i + 1

/-- `while (tmp->next != head && block(tmp->next)->addr < a) tmp = tmp->next`. -/
def seek (s : Allocator) (head a : ℕ) : Except Fault ℕ :=
  match walk s.next (fun n => n != head && decide (s.blockAddr n < a)) loopFuel head with
  | some tmp => .ok tmp
  | none => .error .diverges

/-! ## The pool of `MemBlock`s -/

def poolFill (pool limit : ℕ) : ℕ → Allocator → ℕ → Except Fault Allocator
  | 0, _, _ => .error .diverges
  | fuel + 1, s, tmp =>
    if tmp < limit then
      poolFill pool limit fuel (s.listAdd pool (nodeOf tmp)) (u32 (tmp + memBlockBytes))
    else .ok s

def memBlockPoolInit (s : Allocator) (a size : ℕ) : Except Fault Allocator :=
  let pool := nodeOf a
  poolFill pool (u32 (getStruct pool + size)) loopFuel
    { s with memBlockPool := pool, next := Function.update s.next pool pool } (getStruct pool)

/-- The block taken from the pool, `0` when the pool is used up. -/
def reqMemBlock (s : Allocator) : ℕ × Allocator :=
  if isListEmpty s.next s.memBlockPool then (0, s)
  else (getStruct (s.listRemove s.memBlockPool).1, (s.listRemove s.memBlockPool).2)

def relMemBlock (s : Allocator) (memBlock : ℕ) : Allocator :=
  { s with next := Function.update s.next (nodeOf memBlock) 0 }.listAdd s.memBlockPool
    (nodeOf memBlock)

/-! ## Initialisation -/

def initList (s : Allocator) (i : ℕ) : Allocator :=
  let (b, s) := reqMemBlock s
  let s := { s with freeMemList := Function.update s.freeMemList i (nodeOf b)
                    next := Function.update s.next (nodeOf b) (nodeOf b) }
  let (b, s) := reqMemBlock s
  { s with allocatedMemList := Function.update s.allocatedMemList i (nodeOf b)
           next := Function.update s.next (nodeOf b) (nodeOf b) }

def initLists : ℕ → Allocator → Allocator
  | 0, s => s
  | n + 1, s => initList (initLists n s) n

def managedSize : ℕ := kDirectMappingSize - kNodePoolSize

/-- The inner `while` of the carving loop: free blocks of type `j` from offset `i` on. -/
def carveType (j : ℕ) : ℕ → Allocator → ℕ → Except Fault (Allocator × ℕ)
  | 0, _, _ => .error .diverges
  | fuel + 1, s, i =>
    if i + getMemBlockSize j ≤ managedSize then do
      let (newBlock, s) := reqMemBlock s
      let s := s.setAddr newBlock (directMappingVirtualAddr i)
      let head ← slot s.freeMemList j
      carveType j fuel (s.listAdd head (nodeOf newBlock)) (i + getMemBlockSize j)
    else .ok (s, i)

def carve : ℕ → Allocator → ℕ → Except Fault Allocator
  | 0, s, _ => .ok s
  | j + 1, s, i =>
    if i < managedSize then do
      let (s, i) ← carveType j loopFuel s i
      carve j s i
    else .ok s

def directMappingInit (kEnd : ℕ) (s : Allocator) : Except Fault Allocator := do
  let s ← memBlockPoolInit s (directMappingVirtualAddr managedSize) kNodePoolSize
  let s := initLists kMemBlockTypeNum s
  let sizeType := getMemBlockSizeType kEnd
  let size := getMemBlockSize sizeType
  let (reserved, s) := reqMemBlock s
  let s := s.setAddr reserved kKVirtualAddr
  let head ← slot s.allocatedMemList sizeType
  carve kMemBlockTypeNum (s.listAdd head (nodeOf reserved)) size

/-! ## Requests -/

/-- `DivBlock`, cut off after `fuel` nested calls. -/
def divBlock : ℕ → Allocator → ℕ → Except Fault (Bool × Allocator)
  | 0, _, _ => .error .diverges
  | fuel + 1, s, sizeType =>
    if sizeType = 0 ∨ sizeType = kMemBlockTypeNum then .ok (false, s)
    else do
      let head ← slot s.freeMemList sizeType
      if isListEmpty s.next head = false then
        let (node, s) := s.listRemove head
        let newBlock1 := getStruct node
        let (newBlock2, s) := reqMemBlock s
        let s := s.setAddr newBlock2 (u32 (s.addr newBlock1 + getMemBlockSize (sizeType - 1)))
        let lower ← slot s.freeMemList (sizeType - 1)
        let s := s.listAdd lower (nodeOf newBlock1)
        let s := s.listAdd lower (nodeOf newBlock2)
        .ok (true, s)
      else
        let (done, s) ← divBlock fuel s (sizeType + 1)
        if done then divBlock fuel s sizeType else .ok (false, s)

def reqBytesFuel : ℕ → Allocator → ℤ → Except Fault (ℕ × Allocator)
  | 0, _, _ => .error .diverges
  | fuel + 1, s, size => do
    let sizeType := getMemBlockSizeType size
    let head ← slot s.freeMemList sizeType
    if isListEmpty s.next head then
      let (done, s) ← divBlock loopFuel s (sizeType + 1)
      if done then reqBytesFuel fuel s size else .ok (0, s)
    else
      let (node, s) := s.listRemove head
      let freeBlock := getStruct node
      let allocated ← slot s.allocatedMemList sizeType
      let tmp ← seek s allocated (s.addr freeBlock)
      let s := s.listAdd tmp (nodeOf freeBlock)
      .ok (s.addr freeBlock, s)

def reqBytes (s : Allocator) (size : ℤ) : Except Fault (ℕ × Allocator) :=
  reqBytesFuel loopFuel s size

/-! ## Releases -/

def reservedSize (kEnd : ℕ) : ℕ := getMemBlockSize (getMemBlockSizeType kEnd)

def mergeable (kEnd : ℕ) (s : Allocator) (sizeType head tmp : ℕ) : Bool :=
  let block1 := s.next tmp
  let block2 := s.next (s.next tmp)
  let size := getMemBlockSize sizeType
  block2 != head && u32 (s.blockAddr block1 + size) == s.blockAddr block2 &&
    sub32 (s.blockAddr block1) (reservedSize kEnd) / size % 2 == 0

/-- The `while` of `MergeBlock`: the node before the first mergeable pair. -/
def mergeFind (kEnd : ℕ) (s : Allocator) (sizeType head : ℕ) : ℕ → ℕ → Except Fault (Option ℕ)
  | 0, _ => .error .diverges
  | fuel + 1, tmp =>
    if s.next tmp = head then .ok none
    else if mergeable kEnd s sizeType head tmp then .ok (some tmp)
    else mergeFind kEnd s sizeType head fuel (s.next tmp)

def mergeBlock (kEnd : ℕ) : ℕ → Allocator → ℕ → Except Fault Allocator
  | 0, _, _ => .error .diverges
  | fuel + 1, s, sizeType =>
    if sizeType = kMemBlockTypeNum - 1 then .ok s
    else do
      let head ← slot s.freeMemList sizeType
      match ← mergeFind kEnd s sizeType head loopFuel head with
      | none => .ok s
      | some tmp =>
        let block1 := getStruct (s.next tmp)
        let block2 := getStruct (s.next (s.next tmp))
        let (_, s) := s.listRemove tmp
        let (_, s) := s.listRemove (s.next tmp)
        let s := relMemBlock s block2
        let upper ← slot s.freeMemList (sizeType + 1)
        let tmp ← seek s upper (s.addr block1)
        mergeBlock kEnd fuel (s.listAdd tmp (nodeOf block1)) (sizeType + 1)

/-- The inner `while` of `RelBytes` on one list: `some` when it jumps to `out`,
with the value of `remove` there. -/
def relScan (a head : ℕ) : ℕ → Allocator → ℕ → Except Fault (Option (ℕ × Allocator))
  | 0, _, _ => .error .diverges
  | fuel + 1, s, remove =>
    if s.next remove = head then .ok none
    else if s.blockAddr (s.next remove) = a then .ok (some (s.listRemove remove))
    else if s.blockAddr (s.next remove) > a then .ok (some (remove, s))
    else relScan a head fuel s (s.next remove)

/-- The `for` of `RelBytes` over the last `n` size types: the size type, `remove`
and the state at `out`, `none` when `size_type` reaches `kMemBlockTypeNum`. -/
def relFind (a : ℕ) : ℕ → Allocator → Except Fault (Option (ℕ × ℕ × Allocator))
  | 0, _ => .ok none
  | n + 1, s => do
    let sizeType := kMemBlockTypeNum - (n + 1)
    let head ← slot s.allocatedMemList sizeType
    if isListEmpty s.next head then relFind a n s
    else
      match ← relScan a head loopFuel s head with
      | some (remove, s) => .ok (some (sizeType, remove, s))
      | none => relFind a n s

def relBytes (kEnd : ℕ) (s : Allocator) (a : ℕ) : Except Fault Allocator := do
  match ← relFind a kMemBlockTypeNum s with
  | none => .ok s
  | some (sizeType, remove, s) =>
    let head ← slot s.freeMemList sizeType
    let tmp ← seek s head a
    mergeBlock kEnd loopFuel (s.listAdd tmp remove) sizeType

end XyOS.DirectMapping
