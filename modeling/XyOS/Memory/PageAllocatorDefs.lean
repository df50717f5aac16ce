import XyOS.Foundation.Bytes
import XyOS.Foundation.Word
import XyOS.Lib.Bitmap

/-! The physical page allocator of `paging.c`. A table of available memory is the
list of its entries before the one of size `0xffffffff`. The message that
`PageAllocatorInit` prints for an empty table is left out. -/

namespace XyOS.PageAllocator

def pageSize : ℕ := 0x1000
def kVirtualPageNum : ℕ := 0x100000
def kDynamicMappingStartPage : ℕ := 0x4000

structure AvlPhysMem where
  addr : ℕ
  size : ℕ

def getPageNo (addr : ℕ) : ℕ := addr / pageSize

def getPagePhysAddr (n : ℕ) : ℕ := u32 (n * pageSize)

/-- `while (addr < t->addr)`: the pages in front of a region. -/
def setBelow (t : AvlPhysMem) : ℕ → Bitmap → ℕ → Except Fault (Bitmap × ℕ)
  | 0, _, _ => .error .diverges
  | fuel + 1, b, addr =>
    if addr < t.addr then setBelow t fuel (setBitmap b (getPageNo addr)) (u32 (addr + pageSize))
    else .ok (b, addr)

/-- `while (addr + PageSize <= t->addr + t->size)`: the pages in a region. -/
def clearInside (t : AvlPhysMem) : ℕ → Bitmap → ℕ → Except Fault (Bitmap × ℕ)
  | 0, _, _ => .error .diverges
  | fuel + 1, b, addr =>
    if u32 (addr + pageSize) ≤ u32 (t.addr + t.size) then
      clearInside t fuel (clearBitmap b (getPageNo addr)) (u32 (addr + pageSize))
    else .ok (b, addr)

def scanTable : List AvlPhysMem → Bitmap → ℕ → Except Fault (Bitmap × ℕ)
  | [], b, addr => .ok (b, addr)
  | t :: ts, b, addr => do
    let (b, addr) ← setBelow t loopFuel b addr
    let (b, addr) ← clearInside t loopFuel b addr
    scanTable ts b addr

/-- `while (GetPageNo(addr) != 0)`: the pages behind the last region. -/
def clearRest : ℕ → Bitmap → ℕ → Except Fault Bitmap
  | 0, _, _ => .error .diverges
  | fuel + 1, b, addr =>
    if getPageNo addr ≠ 0 then clearRest fuel (clearBitmap b (getPageNo addr)) (u32 (addr + pageSize))
    else .ok b

def clearLow : ℕ → Bitmap → Bitmap
  | 0, b => b
  | n + 1, b => clearBitmap (clearLow n b) n

def pageAllocatorInit (avlMem : List AvlPhysMem) (pageState : Bitmap) : Except Fault Bitmap := do
  let (b, addr) ← scanTable avlMem pageState 0
  let b ← clearRest loopFuel b addr
  .ok (clearLow kDynamicMappingStartPage b)

def reqPageFrom (b : Bitmap) : ℕ → ℕ → ℕ × Bitmap
  | 0, _ => (0, b)
  | n + 1, i =>
    if isBitmapSet b i = false then (getPagePhysAddr i, setBitmap b i) else reqPageFrom b n (i + 1)

def reqPage (pageState : Bitmap) : ℕ × Bitmap :=
  reqPageFrom pageState (kVirtualPageNum - kDynamicMappingStartPage) kDynamicMappingStartPage

/-- The end of the last page wraps to 0, so `ClearPage` writes nothing there. -/
def clearPage (m : Memory) (n : ℕ) : Memory :=
  let addr := getPagePhysAddr n
  fillWords addr (fun _ => 0) ((u32 (addr + pageSize) - addr) / 4) m

def available (t : AvlPhysMem) (addr : ℕ) : Bool :=
  t.addr < addr && u32 (t.addr + t.size) ≥ u32 (addr + pageSize)

def relPage (avlMem : List AvlPhysMem) (m : Memory) (pageState : Bitmap) (n : ℕ) : Memory × Bitmap :=
  if avlMem.any fun t => available t (getPagePhysAddr n) then (clearPage m n, clearBitmap pageState n)
  else (m, pageState)

end XyOS.PageAllocator
