import XyOS.Process.FaultDirectory

/-! What a not-present fault does to the translations of the other pages of the address space.
A new page table takes over whatever its block held before. -/

namespace XyOS.Process
open Runs DirectMapping PageAllocator Paging

/-- A page directory with a page table of its own for each region. -/
structure AddressSpace (R : ℕ) (k : Kernel) (d : ℕ) : Prop extends Directory R k d where
  apart : ∀ i < 1024, ∀ j < 1024, tableFrame k.mem d i ≠ 0 → tableFrame k.mem d i = tableFrame k.mem d j → i = j

variable {R kEnd d i t v errCode : ℕ} {k k₁ : Kernel} {f : PageFault} {alloc : Allocator}

theorem AddressSpace.walk_putPage (h : AddressSpace R k d) (haddr : f.addr < 2 ^ 32)
    (hne : tableFrame k.mem d (f.addr / 0x400000) ≠ 0) (hv : v < 2 ^ 32)
    (hpage : v / 0x1000 ≠ f.addr / 0x1000) (errCode : ℕ) :
    walk (putPage k errCode (pteOf k.mem d f.addr)).mem (0x1000 * d) v = walk k.mem (0x1000 * d) v := by
  apply walk_eq_of_readWord
  · exact (h.sameDir haddr hne errCode).pde (by omega)
  · rw [putPage_setPte, Paging.setPte]
    apply readWord_writeWord_of_disjoint
    by_cases htable : tableFrame k.mem d (v / 0x400000) = tableFrame k.mem d (f.addr / 0x400000)
    · -- one table, so one region, and another entry of it
      have hregion := h.apart _ (by omega) _ (by omega) hne htable.symm
      unfold pteOf
      omega
    · unfold pteOf
      omega

/-! ## The first half -/

theorem initialPde_apart {i j : ℕ} (hne : (initialPde i).ptAddr.toNat ≠ 0)
    (heq : (initialPde i).ptAddr.toNat = (initialPde j).ptAddr.toNat) : i = j := by
  rw [initialPde_ptAddr] at hne heq
  rw [initialPde_ptAddr] at heq
  grind

theorem AddressSpace.initial (hsize : 2 ^ 20 ≤ R) (halloc : Invariant R k.alloc k.alloc.lists)
    (hdir : ∀ i < 1024, pde k.mem 1 i = initialPde i) : AddressSpace R k 1 := by
  refine ⟨Directory.initial hsize halloc hdir, fun i hi j hj hne heq => ?_⟩
  rw [tableFrame, hdir i hi] at hne heq
  rw [tableFrame, hdir j hj] at heq
  exact initialPde_apart hne heq

end XyOS.Process
