import XyOS.Memory.DirectMappingExhaustion
import XyOS.Memory.DirectMappingPages
import XyOS.Memory.PagingInit
import XyOS.Process.KernelDefs

/-! Page tables and page directories in blocks of `ReqBytes`. -/

namespace XyOS.Process
open DirectMapping Paging Cells Runs

/-- The block at `a` can be used as a page table or a page directory: `SetPde` keeps its physical
address, and `SwitchPd` puts it into `%cr3` with the low 12 bits clear. -/
structure PageStructure (a : ℕ) : Prop where
  pde : ∀ m entry access, (getPde (setPde m entry access (directMappingPhysAddr a)) entry).ptAddr.toNat <<< 12 =
    directMappingPhysAddr a
  cr3 : ∀ k : Kernel, (switchPd k a).cr3 % 2 ^ 12 = 0

def ReturnsAligned (R : ℕ) (s : Allocator) (size : ℤ) : Prop :=
  ∃ a s', reqBytes s size = .ok (a, s') ∧ (a ≠ 0 →
    (2 ^ getMemBlockSizeType size ≤ R → 2 ^ getMemBlockSizeType size ∣ a) ∧
      (size = 4096 → 4096 ≤ R → PageStructure a))

variable {R a : ℕ} {s : Allocator} {size : ℤ}

theorem getPde_setPde (m : Memory) (entry : ℕ) (access : BitVec 8) (address : ℕ) :
    getPde (setPde m entry access address) entry = makePde access address := by
  rw [getPde, setPde, readWord_writeWord (Pde.toWord_lt _), Pde.ofWord_toWord]

theorem pageStructure_of_dvd (hdvd : 2 ^ 12 ∣ a) (hlow : kKVirtualAddr ≤ a) (hlt : a < 2 ^ 32) : PageStructure a := by
  have hphys : directMappingPhysAddr a = a - kKVirtualAddr := sub32_of_le hlow hlt
  have hbase : 2 ^ 12 ∣ kKVirtualAddr := by decide
  obtain ⟨f, hf⟩ := Nat.dvd_sub hdvd hbase
  have hlt' : f < 2 ^ 20 := by omega
  constructor
  · intro m entry access
    rw [getPde_setPde, hphys, hf, makePde, getPtAddrInPde, BitVec.toNat_ofNat, Nat.shiftRight_eq_div_pow,
      Nat.mul_div_cancel_left _ (by decide), Nat.mod_eq_of_lt hlt', Nat.shiftLeft_eq, Nat.mul_comm]
  · intro k
    change directMappingPhysAddr a % 2 ^ 12 = 0
    rw [hphys, hf, Nat.mul_mod_right]

theorem Invariant.returnsAligned (h : Invariant R s s.lists) (hrange : InRange size)
    (henough : EnoughNodes s.lists (getMemBlockSizeType size)) : ReturnsAligned R s size := by
  have hk := getMemBlockSizeType_lt hrange.1 hrange.2
  rcases h.reqBytes hk rfl henough with hnone | ⟨a, s', ls', hrun, hg⟩
  · exact ⟨0, s, hnone, fun h0 => absurd rfl h0⟩
  · obtain ⟨p, rfl, -, hmem⟩ := hg.fresh
    have hp : Holds ls' (getMemBlockSizeType size) p := ⟨hk, Or.inr ((hmem p).mpr (Or.inl rfl))⟩
    have hbounds := (hg.inv.sound.blocks.bounds hp).1
    have hlt := (Nat.le_add_right _ _).trans_lt (hg.inv.sound.blocks.lt hp)
    refine ⟨_, s', hrun, fun _ => ⟨fun hR => hg.inv.dvd_blockAddr hp hR, ?_⟩⟩
    rintro rfl hR
    rw [size_page] at hp
    exact pageStructure_of_dvd (hg.inv.dvd_blockAddr hp hR) hbounds hlt

theorem requests_aligned (s : Allocator) (kEnd : ℕ) (hpos : 0 < kEnd) (hle : kEnd ≤ 2 ^ 25) :
    ∃ s₀, directMappingInit kEnd s = .ok s₀ ∧ ∀ sizes,
      Along request (fun s size => InRange size ∧ EnoughNodes s.lists (getMemBlockSizeType size)) s₀ sizes →
        Along request (ReturnsAligned (reservedSize kEnd)) s₀ sizes := by
  obtain ⟨hr, s₀, ls, hinit, hcarved⟩ := directMappingInit_carved s hpos hle
  refine ⟨s₀, hinit, fun sizes hsizes => ?_⟩
  refine hsizes.imp (I := fun s => Invariant (reservedSize kEnd) s s.lists) ?_ ?_ (hcarved.invariant hr).lists
  · rintro s size s' hinv ⟨hrange, henough⟩ hrun
    exact hinv.request hrange henough hrun
  · rintro s size hinv ⟨hrange, henough⟩
    exact Invariant.returnsAligned hinv hrange henough

theorem requests_aligned_page :
    ∃ s₀, directMappingInit 0x100000 .zero = .ok s₀ ∧ ReturnsAligned (reservedSize 0x100000) s₀ 4096 := by
  obtain ⟨s₀, hinit, haligned⟩ := requests_aligned .zero 0x100000 (by norm_num) (by norm_num)
  obtain ⟨s₁, ls, hinit', hcarved⟩ := init_megabyte
  obtain rfl : s₀ = s₁ := Except.ok.inj (hinit.symm.trans hinit')
  refine ⟨s₀, hinit, (haligned [4096] ⟨⟨⟨by norm_num, by norm_num⟩, fun t _ ht _ _ => ?_⟩, fun _ _ => trivial⟩).1⟩
  rw [hcarved.repr.lists_eq pool_mem_slots]
  have := hcarved.pool
  omega

end XyOS.Process
