import XyOS.Memory.DirectMappingInit
import XyOS.Memory.DirectMappingMergeBlock
import XyOS.Memory.DirectMappingShort

/-! What `DirectMappingInit` carves and what one `ReqBytes` changes, read off the lists. -/

namespace XyOS.DirectMapping
open Linked Cells

variable {R : ℕ} {s s' : Allocator} {ls ls' : Slot → List ℕ} {k p : ℕ}

theorem getMemBlockSizeType_lt {size : ℤ} (hpos : 1 ≤ size) (hle : size ≤ 2 ^ 25) :
    getMemBlockSizeType size < 26 := by
  obtain ⟨n, rfl⟩ := Int.eq_ofNat_of_zero_le (show 0 ≤ size by omega)
  exact Nat.lt_succ_of_le (getMemBlockSizeType_le (by omega) (by exact_mod_cast hle) (by norm_num))

/-! ## The carved area -/

def Allocator.CoversOffset (s : Allocator) (k p x : ℕ) : Prop :=
  s.blockAddr p ≤ kKVirtualAddr + x ∧ kKVirtualAddr + x < s.blockAddr p + 2 ^ k

structure CarvedExactly (kEnd : ℕ) (s : Allocator) : Prop where
  reserved : ∃ p, s.lists (.allocated (getMemBlockSizeType kEnd)) = [p] ∧ s.blockAddr p = kKVirtualAddr
  allocated : ∀ k < 26, k ≠ getMemBlockSizeType kEnd → s.lists (.allocated k) = []
  inside : ∀ k p, Holds s.lists k p →
    kKVirtualAddr ≤ s.blockAddr p ∧ s.blockAddr p + 2 ^ k ≤ kKVirtualAddr + managedSize
  partition : ∀ x < managedSize, ∃! b : ℕ × ℕ, Holds s.lists b.1 b.2 ∧ s.CoversOffset b.1 b.2 x
  one : ∀ k < 26, (s.lists (.free k)).length ≤ 1
  aligned : ∀ k < 26, ∀ p ∈ s.lists (.free k), kKVirtualAddr + reservedSize kEnd ≤ s.blockAddr p ∧
    2 ^ k ∣ s.blockAddr p - kKVirtualAddr - reservedSize kEnd
  unmerged : ∀ k < 26, ∀ p ∈ s.lists (.free k), ∀ q ∈ s.lists (.free k),
    ¬ AcceptedPair kEnd k (s.blockAddr p) (s.blockAddr q)

theorem Blocks.partition (h : Blocks R (Holds ls) s.blockAddr) {x : ℕ} (hx : x < managedSize) :
    ∃! b : ℕ × ℕ, Holds ls b.1 b.2 ∧ s.CoversOffset b.1 b.2 x := by
  obtain ⟨c, ⟨k, p, hp, rfl⟩, hc⟩ := h.tiling.cover ((kKVirtualAddr + x : ℕ) - kKVirtualAddr - R)
    (by push_cast; omega) (by push_cast; omega)
  rw [cellAt_covers] at hc
  have hcovers : s.CoversOffset k p x := by
    unfold Allocator.CoversOffset
    exact_mod_cast hc
  refine ⟨(k, p), ⟨hp, hcovers⟩, ?_⟩
  rintro ⟨j, q⟩ ⟨hq, hqx⟩
  obtain ⟨rfl, rfl⟩ := h.overlap hq hp hqx hcovers
  rfl

theorem Blocks.aligned {B : ℕ → ℕ → Prop} {blk : ℕ → ℕ} (h : Blocks R B blk) (hp : B k p)
    (habove : kKVirtualAddr + R ≤ blk p) : 2 ^ k ∣ blk p - kKVirtualAddr - R := by
  have hdvd : (2 : ℤ) ^ k ∣ (blk p : ℤ) - kKVirtualAddr - R := h.tiling.aligned _ (mem_cells hp)
  have hcast : (blk p : ℤ) - kKVirtualAddr - R = ((blk p - kKVirtualAddr - R : ℕ) : ℤ) := by omega
  rw [hcast] at hdvd
  exact_mod_cast hdvd

theorem not_acceptedPair_self (kEnd a : ℕ) (hk : k < 26) : ¬ AcceptedPair kEnd k a a := by
  rintro ⟨hsum, -⟩
  have hpos : 0 < 2 ^ k := by positivity
  have hpow := pow_le_of_lt_26 hk
  simp only [getMemBlockSize, u32] at hsum
  omega

/-- The reserved block and at most one free block of every type tile the managed area. -/
theorem directMappingInit_exact (s : Allocator) {kEnd : ℕ} (hpos : 0 < kEnd) (hle : kEnd ≤ 2 ^ 25) :
    ∃ s', directMappingInit kEnd s = .ok s' ∧ CarvedExactly kEnd s' := by
  obtain ⟨hr, s', ls, hinit, hcarved⟩ := directMappingInit_carved s hpos hle
  have hinv := (hcarved.invariant hr).lists
  have hfree : ∀ k < 26, s'.lists (.free k) = ls (.free k) := fun k hk =>
    hcarved.repr.lists_eq (free_mem_slots.mpr hk)
  have halloc : ∀ k < 26, s'.lists (.allocated k) = ls (.allocated k) := fun k hk =>
    hcarved.repr.lists_eq (allocated_mem_slots.mpr hk)
  obtain ⟨q, hq, haq⟩ := hcarved.reserved
  refine ⟨s', hinit, ⟨⟨q, by rw [halloc _ hr, hq], haq⟩, fun k hk hne => ?_,
    fun k p hp => hinv.sound.blocks.bounds hp, fun x hx => hinv.sound.blocks.partition hx,
    fun k hk => ?_, fun k hk p hp => ?_, fun k hk p hp p' hp' => ?_⟩⟩
  · rw [halloc k hk, hcarved.allocated k hne]
  · rw [hfree k hk]
    rcases hcarved.free_le_one hk with he | ⟨x, he⟩
    · simp [he]
    · simp [he]
  · exact ⟨hinv.free_above hk hp, hinv.sound.blocks.aligned ⟨hk, Or.inl hp⟩ (hinv.free_above hk hp)⟩
  · rw [hfree k hk] at hp hp'
    rcases hcarved.free_le_one hk with he | ⟨x, he⟩
    · simp [he] at hp
    · rw [he, List.mem_singleton] at hp hp'
      rw [hp', ← hp]
      exact not_acceptedPair_self kEnd _ hk

theorem directMappingInit_exact_megabyte :
    ∃ s', directMappingInit 0x100000 .zero = .ok s' ∧ CarvedExactly 0x100000 s' :=
  directMappingInit_exact .zero (by norm_num) (by norm_num)

/-! ## One request -/

/-- A request of type `k` divides the block at `p`, the first one in the list of type `t`, and takes
its upper end. -/
structure TakenFrom (s : Allocator) (k t p : ℕ) (rest : List ℕ) (a : ℕ) (s' : Allocator) : Prop where
  addr : a = s.blockAddr p + 2 ^ t - 2 ^ k
  top : s'.lists (.free t) = rest
  pieces : ∀ j, k ≤ j → j < t →
    ∃ x, s'.lists (.free j) = [x] ∧ s'.blockAddr x = s.blockAddr p + 2 ^ t - 2 ^ (j + 1)
  gained : ∃ q, s'.blockAddr q = a ∧ q ∉ s.lists (.allocated k) ∧
    s'.lists (.allocated k) = insertAt s'.blockAddr a q (s.lists (.allocated k))
  pool : s'.lists .pool = (s.lists .pool).drop (t - k)
  free : ∀ j < 26, j < k ∨ t < j → s'.lists (.free j) = s.lists (.free j)
  allocated : ∀ j < 26, j ≠ k → s'.lists (.allocated j) = s.lists (.allocated j)
  kept : ∀ j x, Holds s.lists j x → s'.blockAddr x = s.blockAddr x
  head : s'.head = s.head

theorem Invariant.taken_fit {size : ℤ} {rest : List ℕ} (h : Invariant R s s.lists) (hk : k < 26)
    (hp : s.lists (.free k) = p :: rest) (hsize : getMemBlockSizeType size = k) :
    ∃ s', DirectMapping.reqBytes s size = .ok (s.blockAddr p, s') ∧ TakenFrom s k k p rest (s.blockAddr p) s' := by
  obtain ⟨s', hrun, hsound, hhead, haddr, -⟩ := h.sound.take hk hp hsize
  have hblk : s'.blockAddr = s.blockAddr := funext fun x => congrFun haddr (getStruct x)
  have hlists := fun i hi => hsound.repr.lists_eq (i := i) hi
  have hpf : p ∈ s.lists (.free k) := by simp [hp]
  refine ⟨s', hrun (loopFuel - 1), ⟨by omega, ?_, fun j h1 h2 => by omega, ⟨p, by rw [hblk], ?_, ?_⟩, ?_,
    fun j hj hjk => ?_, fun j hj hjk => ?_, fun _ x _ => by rw [hblk], hhead⟩⟩
  · rw [hlists _ (free_mem_slots.mpr hk), takeLists_free_self]
  · exact h.sound.free_notMem_allocated hk hpf k hk
  · rw [hlists _ (allocated_mem_slots.mpr hk), takeLists_allocated_self, hblk]
  · rw [hlists _ pool_mem_slots, Nat.sub_self]
    simp [takeLists]
  · rw [hlists _ (free_mem_slots.mpr hj), takeLists_free_of_ne (by omega)]
  · rw [hlists _ (allocated_mem_slots.mpr hj), takeLists_allocated_of_ne hjk]

theorem Invariant.taken_split {size : ℤ} {t : ℕ} {rest : List ℕ} (h : Invariant R s s.lists) (hkt : k < t)
    (ht : t < 26) (hempty : ∀ j, k ≤ j → j < t → s.lists (.free j) = [])
    (hp : s.lists (.free t) = p :: rest) (hpool : t - k ≤ (s.lists .pool).length)
    (hsize : getMemBlockSizeType size = k) :
    ∃ a s', DirectMapping.reqBytes s size = .ok (a, s') ∧ TakenFrom s k t p rest a s' := by
  have hk : k < 26 := hkt.trans ht
  obtain ⟨s₁, ls₁, q, p', s', hd, hls₁, hp', hq, hrun, hsound, hhead, haddr, -⟩ :=
    h.sound.take_split hkt ht hempty hp hpool hsize
  have hblk : s'.blockAddr = s₁.blockAddr := funext fun x => congrFun haddr (getStruct x)
  have hlists := fun i hi => hsound.repr.lists_eq (i := i) hi
  have hqfree : q ∈ ls₁ (.free k) := by simp [hls₁]
  refine ⟨_, s', hrun, ⟨by omega, ?_, fun j hkj hjt => ?_, ⟨q, by rw [hblk], ?_, ?_⟩, ?_,
    fun j hj hout => ?_, fun j hj hjk => ?_, fun j x hx => by rw [hblk, hd.addr j x hx], hhead⟩⟩
  · rw [hlists _ (free_mem_slots.mpr ht), takeLists_free_of_ne (by omega), hd.top]
  · rw [hlists _ (free_mem_slots.mpr (by omega)), hblk]
    rcases Nat.eq_or_lt_of_le hkj with rfl | hlt
    · exact ⟨p', takeLists_free_self, by omega⟩
    · obtain ⟨x, hx, hax⟩ := hd.between j hlt hjt
      exact ⟨x, by rw [takeLists_free_of_ne (by omega), hx], by omega⟩
  · rw [← hd.allocated k]
    exact hd.sound.free_notMem_allocated hk hqfree k hk
  · rw [hlists _ (allocated_mem_slots.mpr hk), takeLists_allocated_self, hd.allocated, hblk]
  · rw [hlists _ pool_mem_slots, ← hd.pool]
    simp [takeLists]
  · rw [hlists _ (free_mem_slots.mpr hj), takeLists_free_of_ne (by omega), hd.other j hout]
  · rw [hlists _ (allocated_mem_slots.mpr hj), takeLists_allocated_of_ne hjk, hd.allocated]

/-- `ReqBytes` in closed form: it fails without an effect when no list from its type on holds a block,
and takes the upper end of the first block of the least such list otherwise. -/
theorem reqBytes_closed_form {R : ℕ} {s : Allocator} {size : ℤ} (h : Invariant R s s.lists) (hpos : 1 ≤ size)
    (hle : size ≤ 2 ^ 25) :
    ∃ a s', reqBytes s size = .ok (a, s') ∧
      ((∀ j, getMemBlockSizeType size ≤ j → j < 26 → s.lists (.free j) = []) → a = 0 ∧ s' = s) ∧
      ∀ t p rest, getMemBlockSizeType size ≤ t → t < 26 →
        (∀ j, getMemBlockSizeType size ≤ j → j < t → s.lists (.free j) = []) →
        s.lists (.free t) = p :: rest → t - getMemBlockSizeType size ≤ (s.lists .pool).length →
        TakenFrom s (getMemBlockSizeType size) t p rest a s' := by
  have hk := getMemBlockSizeType_lt hpos hle
  obtain ⟨a, s', hrun⟩ := h.sound.repr.reqBytes_returns hk rfl
  -- the result is unique, so it is the one that the case at hand computes
  refine ⟨a, s', hrun, fun hnone => ?_, fun t p rest hkt ht hempty hp hpool => ?_⟩
  · have hfail := hrun.symm.trans (h.sound.repr.reqBytes_none hk hnone rfl)
    simpa only [Except.ok.injEq, Prod.mk.injEq] using hfail
  · obtain ⟨a', s'', hrun', htaken⟩ : ∃ a' s'', reqBytes s size = .ok (a', s'') ∧
        TakenFrom s (getMemBlockSizeType size) t p rest a' s'' := by
      rcases Nat.eq_or_lt_of_le hkt with rfl | hlt
      · obtain ⟨s'', hrun', htaken⟩ := h.taken_fit hk hp rfl
        exact ⟨_, s'', hrun', htaken⟩
      · exact h.taken_split hlt ht hempty hp hpool rfl
    have hsame := hrun.symm.trans hrun'
    simp only [Except.ok.injEq, Prod.mk.injEq] at hsame
    obtain ⟨rfl, rfl⟩ := hsame
    exact htaken

theorem reqBytes_closed_form_megabyte :
    ∃ s₀ p s', directMappingInit 0x100000 .zero = .ok s₀ ∧ reqBytes s₀ 0x100000 = .ok (0xc3e00000, s') ∧
      TakenFrom s₀ 20 21 p [] 0xc3e00000 s' := by
  obtain ⟨s₀, ls, hinit, hcarved⟩ := init_megabyte
  have hsize : getMemBlockSizeType 0x100000 = 20 := by decide
  obtain ⟨p, hp, hap⟩ := hcarved.carved 21 (by norm_num) (by norm_num) (by decide)
  have hlists := fun i hi => hcarved.repr.lists_eq (i := i) hi
  have hempty : ∀ j, 20 ≤ j → j < 21 → s₀.lists (.free j) = [] := by
    intro j h1 h2
    rw [hlists _ (free_mem_slots.mpr (by omega))]
    exact hcarved.rest j (Or.inr (by rw [show j = 20 by omega]; decide))
  have hpool := hcarved.pool
  obtain ⟨a, s', hrun, -, htaken⟩ := reqBytes_closed_form (hcarved.invariant (by norm_num)).lists
    (show (1 : ℤ) ≤ 0x100000 by norm_num) (by norm_num)
  rw [hsize] at htaken
  have hfrom := htaken 21 p [] (by norm_num) (by norm_num) hempty
    ((hlists _ (free_mem_slots.mpr (by norm_num))).trans hp) (by rw [hlists _ pool_mem_slots]; omega)
  have ha : a = 0xc3e00000 := by
    rw [hfrom.addr, hap]
    decide
  subst ha
  exact ⟨s₀, p, s', hinit, hrun, hfrom⟩

/-! ## The range of sizes -/

def TotalAt (s : Allocator) (size : ℤ) : Prop :=
  ∃ a s', reqBytes s size = .ok (a, s') ∧
    ((∀ k < 26, (getMemBlockSize k : ℤ) < size) → a = 0 ∧ ∀ i ∈ slots, s'.lists i = s.lists i)

theorem getMemBlockSizeType_congr {x y : ℤ} (h : ofInt32 x = ofInt32 y) :
    getMemBlockSizeType x = getMemBlockSizeType y := by
  unfold getMemBlockSizeType
  rw [h]

theorem le_getMemBlockSizeType {size : ℤ} (hlow : -2 ^ 31 ≤ size) (hhigh : size < 2 ^ 31)
    (hout : size < 1 ∨ 2 ^ 25 < size) : 26 ≤ getMemBlockSizeType size := by
  by_cases hzero : size = 0
  · rw [hzero]
    decide
  · obtain ⟨n, hn⟩ : ∃ n, ofInt32 size = n := ⟨_, rfl⟩
    have hbig : 2 ^ 25 < n ∧ n < 2 ^ 32 := by
      unfold ofInt32 at hn
      omega
    have htype : getMemBlockSizeType size = getMemBlockSizeType n :=
      getMemBlockSizeType_congr (hn.trans (ofInt32_natCast hbig.2).symm)
    rw [htype, getMemBlockSizeType_eq_clog (by omega) hbig.2]
    exact (Nat.lt_clog_iff_pow_lt (by norm_num)).mpr hbig.1

theorem reqBytes_outOfBounds {size : ℤ} (s : Allocator) (h : 26 ≤ getMemBlockSizeType size) :
    reqBytes s size = .error .outOfBounds := by
  obtain ⟨f, hf⟩ : ∃ f, loopFuel = f + 1 := ⟨loopFuel - 1, rfl⟩
  have hslot : slot s.freeMemList (getMemBlockSizeType size) = .error .outOfBounds :=
    if_neg (by simp only [kMemBlockTypeNum]; omega)
  rw [reqBytes, hf, reqBytesFuel, hslot]
  rfl

theorem reqBytes_total_iff {R : ℕ} {s : Allocator} {size : ℤ} (h : Invariant R s s.lists)
    (hlow : -2 ^ 31 ≤ size) (hhigh : size < 2 ^ 31) : TotalAt s size ↔ 1 ≤ size ∧ size ≤ 2 ^ 25 := by
  constructor
  · rintro ⟨a, s', hrun, -⟩
    by_contra hout
    rw [reqBytes_outOfBounds s (le_getMemBlockSizeType hlow hhigh (by omega))] at hrun
    simp at hrun
  · rintro ⟨hpos, hle⟩
    obtain ⟨a, s', hrun⟩ := h.sound.repr.reqBytes_returns (getMemBlockSizeType_lt hpos hle) rfl
    refine ⟨a, s', hrun, fun hnone => ?_⟩
    have := hnone 25 (by norm_num)
    simp only [getMemBlockSize] at this
    omega

theorem reqBytes_total_iff_page :
    ∃ s₀, directMappingInit 0x100000 .zero = .ok s₀ ∧ TotalAt s₀ 4096 := by
  obtain ⟨s₀, ls, hinit, hcarved⟩ := init_megabyte
  exact ⟨s₀, hinit, (reqBytes_total_iff (hcarved.invariant (by norm_num)).lists (by norm_num)
    (by norm_num)).mpr (by norm_num)⟩

theorem reqBytes_not_total :
    ∃ s₀, directMappingInit 0x100000 .zero = .ok s₀ ∧ Invariant 0x100000 s₀ s₀.lists ∧
      ¬ TotalAt s₀ 0 ∧ ¬ TotalAt s₀ 0x2000001 := by
  obtain ⟨s₀, ls, hinit, hcarved⟩ := init_megabyte
  have hfault : ∀ size : ℤ, 26 ≤ getMemBlockSizeType size → ¬ TotalAt s₀ size := by
    rintro size htype ⟨a, s', hrun, -⟩
    rw [reqBytes_outOfBounds s₀ htype] at hrun
    simp at hrun
  exact ⟨s₀, hinit, (hcarved.invariant (by norm_num)).lists, hfault 0 (by decide), hfault _ (by decide)⟩

end XyOS.DirectMapping
