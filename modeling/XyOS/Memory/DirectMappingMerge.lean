import XyOS.Memory.DirectMappingClosedForm
import XyOS.Memory.DirectMappingRuns

/-! `MergeBlock` against what it is for: it keeps the free lists well formed exactly when there is
nothing to merge. -/

namespace XyOS.DirectMapping
open Linked

variable {s s' : Allocator} {ls : Slot → List ℕ} {kEnd k : ℕ}

theorem Repr.mergeBlock_corrupts (h : Repr s freeSlots ls) (hk : k < 25)
    (hpair : HasPair kEnd s k (ls (.free k))) (hrun : mergeBlock kEnd loopFuel s k = .ok s')
    (ls' : Slot → List ℕ) : ¬ Repr s' freeSlots ls' := by
  intro hbad
  have hF := free_mem_freeSlots (show k < 26 by omega)
  obtain ⟨s₂, xs, b₁, b₂, ys, hrun₂, hhead, -, htail, hinner, ms, hms⟩ := h.mergeBlock_breaks hk hpair
  obtain rfl := Except.ok.inj (hrun₂.symm.trans hrun)
  by_cases hys : ys = []
  · have hnull : s₂.next (s₂.head (.free k)) = 0 := by rw [hhead, htail hys]
    have hmem := hbad.reaches_mem hF ⟨1, hnull⟩
    exact (hbad.node _ hF 0 hmem).ne_zero rfl
  · have hseg : Seg s₂.next (s₂.head (.free k)) xs b₂ := by
      rw [hhead]
      exact hinner hys
    have hlist := hbad.reaches_mem hF ((hseg.snoc rfl).exists_iterate (x := b₂) (by simp))
    have hhead' : s₂.head .pool = s.memBlockPool := congrFun hhead .pool
    have hpoolmem : b₂ ∈ s₂.head .pool :: ls' .pool := by
      refine hbad.reaches_mem pool_mem_freeSlots ?_
      unfold Allocator.Reaches
      rw [hhead']
      exact (hms.snoc rfl).exists_iterate (by simp)
    have hslot := hbad.rings.apart _ hF _ pool_mem_freeSlots b₂ hlist hpoolmem
    simp at hslot

/-! ## What `MergeBlock` is for -/

def Allocator.blocks (s : Allocator) (kind : ℕ → Slot) : Set (ℕ × ℕ) :=
  {b | b.1 < 26 ∧ ∃ p ∈ s.lists (kind b.1), s.blockAddr p = b.2}

def InBlock (b : ℕ × ℕ) (x : ℕ) : Prop := b.2 ≤ x ∧ x < b.2 + 2 ^ b.1

def Allocator.FreeByte (s : Allocator) (x : ℕ) : Prop := ∃ b ∈ s.blocks .free, InBlock b x

structure FreeWell (R : ℕ) (s : Allocator) : Prop where
  repr : Repr s freeSlots s.lists
  asc : ∀ k < 26, Ascending s.blockAddr (s.lists (.free k))
  inside : ∀ b ∈ s.blocks .free, b.2 + 2 ^ b.1 ≤ 2 ^ 32
  aligned : ∀ b ∈ s.blocks .free, 2 ^ b.1 ∣ sub32 b.2 R
  disjoint : ∀ b ∈ s.blocks .free, ∀ c ∈ s.blocks .free, ∀ x, InBlock b x → InBlock c x → b = c

def LowerHalf (kEnd k a : ℕ) : Prop := sub32 a (reservedSize kEnd) / getMemBlockSize k % 2 = 0

def BuddyPair (kEnd : ℕ) (F : Set (ℕ × ℕ)) (k a : ℕ) : Prop :=
  (k, a) ∈ F ∧ (k, a + getMemBlockSize k) ∈ F ∧ LowerHalf kEnd k a

/-- `n` merges upwards from type `k` turn the free blocks `F` into `F'`. -/
inductive MergeRun (kEnd : ℕ) : ℕ → Set (ℕ × ℕ) → ℕ → Set (ℕ × ℕ) → Prop
  | stop (k : ℕ) (F : Set (ℕ × ℕ)) : MergeRun kEnd k F 0 F
  | merge {k a n : ℕ} {F F' : Set (ℕ × ℕ)} (hpair : BuddyPair kEnd F k a)
      (hrest : MergeRun kEnd (k + 1) (insert (k + 1, a) (F \ {(k, a), (k, a + getMemBlockSize k)})) n F') :
      MergeRun kEnd k F (n + 1) F'

/-- `MergeBlock` returns, keeps the free memory and the shape of the free lists, changes nothing but
the pairs it merges, gives one node to the pool for each of them, and leaves no pair if there was at
most one in its list and none elsewhere. -/
def MergesWell (kEnd : ℕ) (s : Allocator) (k : ℕ) : Prop :=
  ∃ s' n, mergeBlock kEnd loopFuel s k = .ok s' ∧ FreeWell (reservedSize kEnd) s' ∧
    (∀ x, s'.FreeByte x ↔ s.FreeByte x) ∧ MergeRun kEnd k (s.blocks .free) n (s'.blocks .free) ∧
    (s'.lists .pool).length = (s.lists .pool).length + n ∧
    ∀ a, (∀ j < 25, ∀ c, BuddyPair kEnd (s.blocks .free) j c → j = k ∧ c = a) →
      ∀ j < 25, ∀ c, ¬ BuddyPair kEnd (s'.blocks .free) j c

theorem Allocator.mem_blocks {kind : ℕ → Slot} {p : ℕ} (hk : k < 26) (hp : p ∈ s.lists (kind k)) :
    (k, s.blockAddr p) ∈ s.blocks kind := ⟨hk, p, hp, rfl⟩

theorem FreeWell.next_of_adjacent {R p q : ℕ} {xs rest : List ℕ} (h : FreeWell R s) (hk : k < 26)
    (hls : s.lists (.free k) = xs ++ p :: rest) (hq : q ∈ s.lists (.free k))
    (hadj : s.blockAddr q = s.blockAddr p + getMemBlockSize k) : ∃ ys, rest = q :: ys := by
  have hasc := h.asc k hk
  have hlow : (k, s.blockAddr p) ∈ s.blocks .free := Allocator.mem_blocks hk (by simp [hls])
  have hpos : 0 < 2 ^ k := by positivity
  rw [getMemBlockSize] at hadj
  rw [hls] at hasc hq
  obtain ⟨-, hasc₂, hcross⟩ := List.pairwise_append.mp hasc
  obtain ⟨habove, hasc₃⟩ := List.pairwise_cons.mp hasc₂
  have hqrest : q ∈ rest := by
    rcases List.mem_append.mp hq with hx | hx
    · have := hcross q hx p (by simp)
      omega
    · rcases List.mem_cons.mp hx with rfl | hx
      · omega
      · exact hx
  obtain ⟨y, ys, rfl⟩ := List.exists_cons_of_ne_nil (List.ne_nil_of_mem hqrest)
  have hy : (k, s.blockAddr y) ∈ s.blocks .free := Allocator.mem_blocks hk (by simp [hls])
  rcases List.mem_cons.mp hqrest with rfl | hq'
  · exact ⟨ys, rfl⟩
  · have hlt := (List.pairwise_cons.mp hasc₃).1 q hq'
    have hgt := habove y (by simp)
    have hsame := h.disjoint _ hlow _ hy (s.blockAddr y) ⟨by simp only; omega, by simp only; omega⟩
      ⟨le_rfl, by simp⟩
    simp only [Prod.mk.injEq] at hsame
    omega

theorem FreeWell.hasPair_iff {R : ℕ} (h : FreeWell R s) (hk : k < 26) :
    HasPair kEnd s k (s.lists (.free k)) ↔ ∃ a, BuddyPair kEnd (s.blocks .free) k a := by
  have hasc := h.asc k hk
  constructor
  · rintro ⟨xs, b₁, b₂, ys, hls, hsum, hhalf⟩
    rw [hls] at hasc
    have hlt : s.blockAddr b₁ < s.blockAddr b₂ :=
      (List.pairwise_cons.mp (List.pairwise_append.mp hasc).2.1).1 b₂ (by simp)
    have hb₁ : (k, s.blockAddr b₁) ∈ s.blocks .free := Allocator.mem_blocks hk (by simp [hls])
    have hb₂ : (k, s.blockAddr b₂) ∈ s.blocks .free := Allocator.mem_blocks hk (by simp [hls])
    have hin := h.inside _ hb₁
    have hpos : 0 < 2 ^ k := by positivity
    -- the sum does not wrap, since the second block is the higher one
    have hnext : s.blockAddr b₁ + getMemBlockSize k = s.blockAddr b₂ := by
      simp only [getMemBlockSize, u32] at hsum hin ⊢
      omega
    exact ⟨s.blockAddr b₁, hb₁, by rwa [hnext], hhalf⟩
  · rintro ⟨a, hlow, ⟨-, q, hq, hqa⟩, hhalf⟩
    obtain ⟨-, p, hp, hpa⟩ := hlow
    simp only at hp hq hqa hpa
    obtain ⟨xs, rest, hls⟩ := List.append_of_mem hp
    obtain ⟨ys, rfl⟩ := h.next_of_adjacent hk hls hq (by rw [hqa, hpa])
    have hin := h.inside _ (Allocator.mem_blocks hk hq)
    have hself : 0 < 2 ^ k := by positivity
    refine ⟨xs, p, q, ys, hls, ?_, by rw [hpa]; exact hhalf⟩
    rw [hpa, hqa]
    exact u32_of_lt (by simp only at hin; omega)

theorem Sound.freeWell {R : ℕ} (h : Sound R s ls) (hR : R ≤ kKVirtualAddr)
    (hasc : ∀ k < 26, Ascending s.blockAddr (ls (.free k))) : FreeWell R s := by
  have hlists : ∀ k < 26, s.lists (.free k) = ls (.free k) := fun k hk =>
    h.repr.lists_eq (free_mem_slots.mpr hk)
  have hholds : ∀ b ∈ s.blocks .free, ∃ p, Holds ls b.1 p ∧ s.blockAddr p = b.2 := by
    rintro ⟨k, a⟩ ⟨hk, p, hp, hpa⟩
    exact ⟨p, ⟨hk, Or.inl (hlists k hk ▸ hp)⟩, hpa⟩
  refine ⟨(h.repr.mono fun i hi => hi.1).lists, fun k hk => ?_, fun b hb => ?_, fun b hb => ?_,
    fun b hb c hc x hbx hcx => ?_⟩
  · rw [hlists k hk]
    exact hasc k hk
  · obtain ⟨p, hp, hpa⟩ := hholds b hb
    have := h.blocks.lt hp
    omega
  · obtain ⟨p, hp, hpa⟩ := hholds b hb
    have hlow := (h.blocks.bounds hp).1
    have hlt := h.blocks.lt hp
    -- the tiling is aligned at the end of the reserved block, `MergeBlock` counts from its size
    have hdvd : (2 : ℤ) ^ b.1 ∣ (s.blockAddr p : ℤ) - kKVirtualAddr - R :=
      h.blocks.tiling.aligned _ (Blocks.mem_cells hp)
    have htype : b.1 ≤ 25 := by
      have := hb.1
      omega
    have hbase : 2 ^ b.1 ∣ kKVirtualAddr := (pow_dvd_pow 2 htype).trans (by decide)
    have hbase' : (2 : ℤ) ^ b.1 ∣ (kKVirtualAddr : ℤ) := by exact_mod_cast hbase
    have hpos : 0 < 2 ^ b.1 := by positivity
    rw [← hpa, sub32_of_le (hR.trans hlow) (by omega)]
    have hsum := Int.dvd_add hdvd hbase'
    have hdist : (s.blockAddr p : ℤ) - kKVirtualAddr - R + kKVirtualAddr = ((s.blockAddr p - R : ℕ) : ℤ) := by
      omega
    rw [hdist] at hsum
    exact_mod_cast hsum
  · obtain ⟨p, hp, hpa⟩ := hholds b hb
    obtain ⟨q, hq, hqa⟩ := hholds c hc
    unfold InBlock at hbx hcx
    rw [← hpa] at hbx
    rw [← hqa] at hcx
    obtain ⟨hkind, rfl⟩ := h.blocks.overlap hp hq hbx hcx
    exact Prod.ext hkind (hpa.symm.trans hqa)

theorem FreeWell.mergeBlock_none {R : ℕ} (h : FreeWell R s) (hk : k < 26)
    (hcond : k = 25 ∨ ∀ a, ¬ BuddyPair kEnd (s.blocks .free) k a) : mergeBlock kEnd loopFuel s k = .ok s := by
  rcases h.repr.mergeBlock_cases kEnd (free_mem_freeSlots hk) hk (show 0 < loopFuel by decide) with
    ⟨hstop, -⟩ | ⟨hlt, xs, b₁, b₂, ys, hls, hacc, -⟩
  · exact hstop
  · obtain ⟨a, hpair⟩ := (h.hasPair_iff hk).mp ⟨xs, b₁, b₂, ys, hls, hacc⟩
    rcases hcond with hlast | hno
    · omega
    · exact absurd hpair (hno a)

theorem FreeWell.mergeBlock_broken {R a : ℕ} (h : FreeWell R s) (hk : k < 25)
    (hpair : BuddyPair kEnd (s.blocks .free) k a) (hrun : mergeBlock kEnd loopFuel s k = .ok s')
    (ls' : Slot → List ℕ) : ¬ Repr s' freeSlots ls' := by
  exact h.repr.mergeBlock_corrupts hk ((h.hasPair_iff (by omega)).mpr ⟨a, hpair⟩) hrun ls'

/-- `MergeBlock` does its work exactly when it has none. -/
theorem mergeBlock_well_iff {s : Allocator} {kEnd k : ℕ} (h : FreeWell (reservedSize kEnd) s) (hk : k < 26) :
    MergesWell kEnd s k ↔ k = 25 ∨ ∀ a, ¬ BuddyPair kEnd (s.blocks .free) k a := by
  constructor
  · rintro ⟨s', n, hrun, hwell, -⟩
    by_contra hcond
    simp only [not_or, not_forall, not_not] at hcond
    obtain ⟨hk', a, hpair⟩ := hcond
    exact h.mergeBlock_broken (by omega) hpair hrun _ hwell.repr
  · intro hcond
    refine ⟨s, 0, h.mergeBlock_none hk hcond, h, fun _ => Iff.rfl, .stop k _, rfl, ?_⟩
    intro a honly j hj c hpair
    obtain ⟨rfl, -⟩ := honly j hj c hpair
    rcases hcond with hlast | hno
    · omega
    · exact hno c hpair

theorem mergeBlock_well_iff_carved :
    ∃ s₀, directMappingInit 0x100000 .zero = .ok s₀ ∧ MergesWell 0x100000 s₀ 20 := by
  obtain ⟨s₀, ls, hinit, hcarved⟩ := init_megabyte
  have hinv := hcarved.invariant (by norm_num)
  have hempty : s₀.lists (.free 20) = [] := by
    rw [hcarved.repr.lists_eq (free_mem_slots.mpr (by norm_num)), (carved_megabyte hcarved).1]
  have hwell : FreeWell (reservedSize 0x100000) s₀ := hinv.sound.freeWell (by decide) hinv.ascFree
  refine ⟨s₀, hinit, (mergeBlock_well_iff hwell (by norm_num)).mpr (Or.inr fun a hpair => ?_)⟩
  obtain ⟨-, p, hp, -⟩ := hpair.1
  simp [hempty] at hp

/-- The halves of a block of two megabytes: when the upper one is released, `MergeBlock` breaks the
list. -/
theorem mergeBlock_breaks_list :
    ∃ s₀ s₁ s, directMappingInit 0x100000 .zero = .ok s₀ ∧
      reqBytes s₀ 0x100000 = .ok (0xc3e00000, s₁) ∧
      relBytes 0x100000 s₁ 0xc3e00000 = mergeBlock 0x100000 loopFuel s 20 ∧
      FreeWell (reservedSize 0x100000) s ∧ ¬ MergesWell 0x100000 s 20 := by
  obtain ⟨s₀, ls, hinit, hcarved⟩ := init_megabyte
  obtain ⟨s₁, s, ls₂, x, y, hreq, -, -, hrel, hinv, hpair, -, hax, hay, -⟩ := hcarved.split_state
  have hF := free_mem_freeSlots (show 20 < 26 by norm_num)
  have hwell : FreeWell (reservedSize 0x100000) s := hinv.sound.freeWell (by decide) hinv.ascFree
  refine ⟨s₀, s₁, s, hinit, hreq, hrel, hwell, ?_⟩
  rintro ⟨s', n, hrun, hwell', -⟩
  refine hwell.repr.mergeBlock_corrupts (by norm_num) ⟨[], x, y, [], ?_, ?_⟩ hrun _ hwell'.repr
  · rw [hinv.sound.repr.lists_eq (free_mem_slots.mpr (by norm_num)), hpair]
    rfl
  · rw [hax, hay]
    exact ⟨by decide, by decide⟩

end XyOS.DirectMapping
