import XyOS.Memory.DirectMappingRequest

/-! The representation invariant of the allocator and what `ReqBytes` does to a
state that satisfies it. -/

namespace XyOS.DirectMapping
open Linked Cells

/-- All lists are rings over the pool, their blocks tile the managed area, both
lists of every type ascend, and the reserved block of size `R` is allocated. -/
structure Invariant (R : ℕ) (s : Allocator) (ls : Slot → List ℕ) : Prop where
  sound : Sound R s ls
  ascFree : ∀ k < 26, Ascending s.blockAddr (ls (.free k))
  ascAllocated : ∀ k < 26, Ascending s.blockAddr (ls (.allocated k))
  reserved : ∃ r p, R = 2 ^ r ∧ r < 26 ∧ p ∈ ls (.allocated r) ∧ s.blockAddr p = kKVirtualAddr

def EnoughNodes (ls : Slot → List ℕ) (k : ℕ) : Prop :=
  ∀ t, k ≤ t → t < 26 → (∀ j, k ≤ j → j < t → ls (.free j) = []) → ls (.free t) ≠ [] →
    t - k ≤ (ls .pool).length

structure Granted (R : ℕ) (s : Allocator) (ls : Slot → List ℕ) (k a : ℕ)
    (s' : Allocator) (ls' : Slot → List ℕ) : Prop where
  inv : Invariant R s' ls'
  head : s'.head = s.head
  nodes : nodes slots ls' = nodes slots ls
  fresh : ∃ p, s'.blockAddr p = a ∧ (∀ j < 26, p ∉ ls (.allocated j)) ∧
    ∀ x, x ∈ ls' (.allocated k) ↔ x = p ∨ x ∈ ls (.allocated k)
  allocated : ∀ j, j ≠ k → ls' (.allocated j) = ls (.allocated j)
  free : ∀ j < 26, (∃ x, ls' (.free j) = [x]) ∨ (ls' (.free j)).Sublist (ls (.free j))
  kept : ∀ j x, Holds ls j x → ∃ j', Holds ls' j' x
  addr : ∀ j x, Holds ls j x → s'.blockAddr x = s.blockAddr x
  confined : Confined s s'

variable {R : ℕ} {s s' : Allocator} {ls : Slot → List ℕ} {k p : ℕ} {rest : List ℕ}

theorem Ascending.congr {blk blk' : ℕ → ℕ} {l : List ℕ} (h : Ascending blk l)
    (he : ∀ x ∈ l, blk' x = blk x) : Ascending blk' l := by
  refine List.Pairwise.imp_of_mem ?_ h
  intro x y hx hy hxy
  rwa [he x hx, he y hy]

theorem Sound.ascending_take (h : Sound R s ls) (hk : k < 26) (hp : ls (.free k) = p :: rest)
    (hasc : Ascending s.blockAddr (ls (.allocated k))) :
    Ascending s.blockAddr (insertAt s.blockAddr (s.blockAddr p) p (ls (.allocated k))) := by
  refine ascending_insertAt hasc fun x hx he => ?_
  have hpH : Holds ls k p := ⟨hk, Or.inl (by simp [hp])⟩
  have hxH : Holds ls k x := ⟨hk, Or.inr hx⟩
  obtain rfl := h.blocks.inj k x p hxH hpH he
  have hslot := h.repr.slot_unique (free_mem_slots.mpr hk) (allocated_mem_slots.mpr hk)
    (show x ∈ ls (.free k) by simp [hp]) hx
  exact absurd hslot (by simp)

theorem Sound.free_notMem_allocated (h : Sound R s ls) (hk : k < 26) (hp : p ∈ ls (.free k))
    (j : ℕ) (hj : j < 26) : p ∉ ls (.allocated j) := fun ha =>
  absurd (h.repr.slot_unique (free_mem_slots.mpr hk) (allocated_mem_slots.mpr hj) hp ha) (by simp)

theorem Sound.invariant_take (h : Sound R s ls) (hp : ls (.free k) = p :: rest)
    (hrest : Ascending s.blockAddr rest) (hfree : ∀ j < 26, j ≠ k → Ascending s.blockAddr (ls (.free j)))
    (halloc : ∀ j < 26, Ascending s.blockAddr (ls (.allocated j)))
    (hreserved : ∃ r x, R = 2 ^ r ∧ r < 26 ∧ x ∈ ls (.allocated r) ∧ s.blockAddr x = kKVirtualAddr)
    (hsound : Sound R s' (takeLists s.blockAddr ls k p rest)) (hblk : s'.blockAddr = s.blockAddr) :
    Invariant R s' (takeLists s.blockAddr ls k p rest) := by
  refine ⟨hsound, fun j hj => ?_, fun j hj => ?_, ?_⟩
  · rw [hblk]
    by_cases hjk : j = k
    · rw [hjk, takeLists_free_self]
      exact hrest
    · rw [takeLists_free_of_ne hjk]
      exact hfree j hj hjk
  · rw [hblk]
    by_cases hjk : j = k
    · subst hjk
      rw [takeLists_allocated_self]
      exact h.ascending_take hj hp (halloc j hj)
    · rw [takeLists_allocated_of_ne hjk]
      exact halloc j hj
  · obtain ⟨r, x, hR, hr, hx, hax⟩ := hreserved
    refine ⟨r, x, hR, hr, ?_, by rw [hblk, hax]⟩
    by_cases hrk : r = k
    · rw [hrk, takeLists_allocated_self, mem_insertAt]
      exact Or.inr (hrk ▸ hx)
    · rwa [takeLists_allocated_of_ne hrk]

theorem Invariant.grant_fit {size : ℤ} (h : Invariant R s ls) (hk : k < 26)
    (hp : ls (.free k) = p :: rest) (hsize : getMemBlockSizeType size = k) :
    ∃ s', reqBytes s size = .ok (s.blockAddr p, s') ∧
      Granted R s ls k (s.blockAddr p) s' (takeLists s.blockAddr ls k p rest) := by
  obtain ⟨s', hrun, hsound, hhead, haddr, hconf⟩ := h.sound.take hk hp hsize
  have hblk : s'.blockAddr = s.blockAddr := funext fun x => congrFun haddr (getStruct x)
  have hpf : p ∈ ls (.free k) := by simp [hp]
  have hrest : Ascending s.blockAddr rest := by
    have hasc := h.ascFree k hk
    rw [hp] at hasc
    exact (List.pairwise_cons.mp hasc).2
  have hinv := h.sound.invariant_take hp hrest (fun j hj _ => h.ascFree j hj) h.ascAllocated h.reserved
    hsound hblk
  refine ⟨s', hrun (loopFuel - 1), hinv, hhead, nodes_takeLists hk hp, ?_, ?_, ?_, ?_,
    fun _ x _ => by rw [hblk], hconf⟩
  · refine ⟨p, by rw [hblk], h.sound.free_notMem_allocated hk hpf, fun x => ?_⟩
    rw [takeLists_allocated_self, mem_insertAt]
  · exact fun j hj => takeLists_allocated_of_ne hj
  · intro j _
    right
    by_cases hjk : j = k
    · subst hjk
      rw [takeLists_free_self, hp]
      exact List.sublist_cons_self ..
    · rw [takeLists_free_of_ne hjk]
  · exact fun j x hx => ⟨j, (holds_takeLists hp j x).mpr hx⟩

theorem Divided.free_cases {t a j : ℕ} {s₁ : Allocator} {ls₁ : Slot → List ℕ} (hp : ls (.free t) = p :: rest)
    (hd : Divided R s ls k t a rest s₁ ls₁) (hjk : j ≠ k) :
    (∃ x, ls₁ (.free j) = [x]) ∨ (ls₁ (.free j)).Sublist (ls (.free j)) := by
  rcases lt_trichotomy j t with hlt | rfl | hgt
  · rcases Nat.lt_or_gt_of_ne hjk with hlow | hhigh
    · rw [hd.other j (Or.inl hlow)]
      exact Or.inr (List.Sublist.refl _)
    · obtain ⟨x, hx, -⟩ := hd.between j hhigh hlt
      exact Or.inl ⟨x, hx⟩
  · rw [hd.top, hp]
    exact Or.inr (List.sublist_cons_self ..)
  · rw [hd.other j (Or.inr hgt)]
    exact Or.inr (List.Sublist.refl _)

theorem Divided.ascFree {t a : ℕ} {s₁ : Allocator} {ls₁ : Slot → List ℕ} (h : Invariant R s ls)
    (hp : ls (.free t) = p :: rest) (hd : Divided R s ls k t a rest s₁ ls₁)
    (j : ℕ) (hj : j < 26) (hjk : j ≠ k) : Ascending s₁.blockAddr (ls₁ (.free j)) := by
  rcases hd.free_cases hp hjk with ⟨x, hx⟩ | hsub
  · rw [hx]
    exact List.pairwise_singleton _ _
  · have hold : Ascending s₁.blockAddr (ls (.free j)) :=
      (h.ascFree j hj).congr fun x hx => hd.addr j x ⟨hj, Or.inl hx⟩
    exact hold.sublist hsub

theorem Invariant.grant_split {size : ℤ} {t : ℕ} (h : Invariant R s ls) (hkt : k < t) (ht : t < 26)
    (hempty : ∀ j, k ≤ j → j < t → ls (.free j) = []) (hp : ls (.free t) = p :: rest)
    (hpool : t - k ≤ (ls .pool).length) (hsize : getMemBlockSizeType size = k) :
    ∃ a s' ls', reqBytes s size = .ok (a, s') ∧ a + 2 ^ k = s.blockAddr p + 2 ^ t ∧
      (∃ x, ls' (.free k) = [x] ∧ s'.blockAddr x + 2 ^ (k + 1) = s.blockAddr p + 2 ^ t) ∧
      ls' (.free t) = rest ∧ ((∀ j, j < k ∨ t < j → ls' (.free j) = ls (.free j)) ∧
        ∀ j, k ≤ j → j < t → ∃ x, ls' (.free j) = [x]) ∧ Granted R s ls k a s' ls' := by
  have hk : k < 26 := hkt.trans ht
  obtain ⟨s₁, ls₁, q, p', s', hd, hls₁, hp', hq, hrun, hsound, hhead, haddr, hconf⟩ :=
    h.sound.take_split hkt ht hempty hp hpool hsize
  have hblk : s'.blockAddr = s₁.blockAddr := funext fun x => congrFun haddr (getStruct x)
  have hsame : ∀ j x, Holds ls j x → s'.blockAddr x = s.blockAddr x := by
    intro j x hx
    rw [hblk, hd.addr j x hx]
  have hasc₁ : ∀ j < 26, Ascending s₁.blockAddr (ls₁ (.allocated j)) := by
    intro j hj
    rw [hd.allocated j]
    exact (h.ascAllocated j hj).congr fun x hx => hd.addr j x ⟨hj, Or.inr hx⟩
  have hqfree : q ∈ ls₁ (.free k) := by simp [hls₁]
  have hbetween : ∀ j, k ≤ j → j < t → ∃ x, takeLists s₁.blockAddr ls₁ k q [p'] (.free j) = [x] := by
    intro j hkj hjt
    rcases Nat.eq_or_lt_of_le hkj with rfl | hlt
    · exact ⟨p', takeLists_free_self⟩
    · obtain ⟨x, hx, -⟩ := hd.between j hlt hjt
      exact ⟨x, by rw [takeLists_free_of_ne (by omega), hx]⟩
  have hreserved : ∃ r x, R = 2 ^ r ∧ r < 26 ∧ x ∈ ls₁ (.allocated r) ∧ s₁.blockAddr x = kKVirtualAddr := by
    obtain ⟨r, x, hR, hr, hx, hax⟩ := h.reserved
    exact ⟨r, x, hR, hr, by rwa [hd.allocated], by rw [hd.addr r x ⟨hr, Or.inr hx⟩, hax]⟩
  have hinv := hd.sound.invariant_take hls₁ (List.pairwise_singleton _ _) (hd.ascFree h hp) hasc₁ hreserved
    hsound hblk
  refine ⟨s₁.blockAddr q, s', _, hrun, hq, ⟨p', takeLists_free_self, by rw [hblk, hp']⟩,
    by rw [takeLists_free_of_ne (by omega), hd.top],
    ⟨fun j hj => by rw [takeLists_free_of_ne (by omega), hd.other j hj], hbetween⟩,
    ⟨hinv, hhead, (nodes_takeLists hk hls₁).trans hd.nodes, ?_, ?_, ?_, ?_, hsame, hconf⟩⟩
  · refine ⟨q, by rw [hblk], fun j hj => ?_, fun x => ?_⟩
    · rw [← hd.allocated j]
      exact hd.sound.free_notMem_allocated hk hqfree j hj
    · rw [takeLists_allocated_self, mem_insertAt, hd.allocated]
  · intro j hj
    rw [takeLists_allocated_of_ne hj, hd.allocated]
  · intro j hj
    by_cases hjk : j = k
    · subst hjk
      exact Or.inl ⟨p', takeLists_free_self⟩
    · rw [takeLists_free_of_ne hjk]
      exact hd.free_cases hp hjk
  · intro j x hx
    obtain ⟨j', hx'⟩ := hd.kept j x hx
    exact ⟨j', (holds_takeLists hls₁ j' x).mpr hx'⟩

theorem Repr.reqBytes_none {size : ℤ} (h : Repr s slots ls) (hk : k < 26)
    (hempty : ∀ j, k ≤ j → j < 26 → ls (.free j) = []) (hsize : getMemBlockSizeType size = k) :
    reqBytes s size = .ok (0, s) := by
  have hisEmpty : isListEmpty s.next (s.head (.free k)) = true :=
    (h.empty_iff (free_mem_slots.mpr hk)).mpr (hempty k le_rfl hk)
  have hdiv := h.divBlock_none (25 - k) loopFuel (k := k + 1) (by omega) (by omega)
    (fun j h1 h2 => hempty j (by omega) h2) (by simp only [loopFuel]; omega)
  obtain ⟨f, hf⟩ : ∃ f, loopFuel = f + 1 := ⟨loopFuel - 1, rfl⟩
  rw [reqBytes, hf, reqBytesFuel, hsize, slot_free s hk]
  simp only [bind, Except.bind, hisEmpty, if_true, hdiv, Bool.false_eq_true, if_false]

theorem exists_least_free (ls : Slot → List ℕ) (k : ℕ) :
    (∀ j, k ≤ j → j < 26 → ls (.free j) = []) ∨
      ∃ t, k ≤ t ∧ t < 26 ∧ (∀ j, k ≤ j → j < t → ls (.free j) = []) ∧ ls (.free t) ≠ [] := by
  by_cases hex : ∃ t, k ≤ t ∧ t < 26 ∧ ls (.free t) ≠ []
  · right
    classical
    obtain ⟨h1, h2, h3⟩ := Nat.find_spec hex
    refine ⟨Nat.find hex, h1, h2, fun j hj hlt => ?_, h3⟩
    by_contra hne
    exact Nat.find_min hex hlt ⟨hj, hlt.trans h2, hne⟩
  · left
    intro j h1 h2
    by_contra hne
    exact hex ⟨j, h1, h2, hne⟩

theorem Invariant.reqBytes_some {size : ℤ} (h : Invariant R s ls) (hsize : getMemBlockSizeType size = k)
    (henough : EnoughNodes ls k) {j : ℕ} (hkj : k ≤ j) (hj : j < 26) (hfree : ls (.free j) ≠ []) :
    ∃ a s' ls', DirectMapping.reqBytes s size = .ok (a, s') ∧ Granted R s ls k a s' ls' := by
  rcases exists_least_free ls k with hnone | ⟨t, hkt, ht, hempty, hne⟩
  · exact absurd (hnone j hkj hj) hfree
  obtain ⟨p, rest, hp⟩ := List.exists_cons_of_ne_nil hne
  rcases Nat.eq_or_lt_of_le hkt with rfl | hlt
  · obtain ⟨s', hrun, hgrant⟩ := h.grant_fit ht hp hsize
    exact ⟨_, s', _, hrun, hgrant⟩
  · obtain ⟨a, s', ls', hrun, -, -, -, -, hgrant⟩ :=
      h.grant_split hlt ht hempty hp (henough t hkt ht hempty hne) hsize
    exact ⟨a, s', ls', hrun, hgrant⟩

theorem Invariant.reqBytes {size : ℤ} (h : Invariant R s ls) (hk : k < 26)
    (hsize : getMemBlockSizeType size = k) (henough : EnoughNodes ls k) :
    DirectMapping.reqBytes s size = .ok (0, s) ∨
      ∃ a s' ls', DirectMapping.reqBytes s size = .ok (a, s') ∧ Granted R s ls k a s' ls' := by
  rcases exists_least_free ls k with hnone | ⟨t, hkt, ht, -, hne⟩
  · exact Or.inl (h.sound.repr.reqBytes_none hk hnone hsize)
  · exact Or.inr (h.reqBytes_some hsize henough hkt ht hne)

theorem Granted.addr_ne {a : ℕ} {ls' : Slot → List ℕ} (h : Granted R s ls k a s' ls') (hk : k < 26) :
    ∀ j < 26, ∀ q ∈ ls (.allocated j), s.blockAddr q ≠ a := by
  intro j hj q hq haq
  obtain ⟨p, hpa, hpnew, hpmem⟩ := h.fresh
  obtain ⟨j', hq'⟩ := h.kept j q ⟨hj, Or.inr hq⟩
  have haddr : s'.blockAddr q = s'.blockAddr p := by
    rw [h.addr j q ⟨hj, Or.inr hq⟩, haq, hpa]
  obtain ⟨-, rfl⟩ := h.inv.sound.blocks.addr_inj hq' ⟨hk, Or.inr ((hpmem p).mpr (Or.inl rfl))⟩ haddr
  exact hpnew j hj hq

theorem Invariant.above_reserved (h : Invariant R s ls)
    (hp : Holds ls k p) (hne : s.blockAddr p ≠ kKVirtualAddr) : kKVirtualAddr + R ≤ s.blockAddr p := by
  obtain ⟨r, q, rfl, hr, hq, haq⟩ := h.reserved
  have hqH : Holds ls r q := ⟨hr, Or.inr hq⟩
  have hb := h.sound.blocks.bounds hp
  by_contra hlt
  have hpos : 0 < 2 ^ k := by positivity
  obtain ⟨-, rfl⟩ := h.sound.blocks.overlap hp hqH ⟨le_rfl, Nat.lt_add_of_pos_right hpos⟩
    ⟨by rw [haq]; exact hb.1, by rw [haq]; omega⟩
  exact hne haq

theorem Invariant.free_above (h : Invariant R s ls) (hk : k < 26) (hp : p ∈ ls (.free k)) :
    kKVirtualAddr + R ≤ s.blockAddr p := by
  refine h.above_reserved ⟨hk, Or.inl hp⟩ fun hbase => ?_
  obtain ⟨r, q, -, hr, hq, haq⟩ := h.reserved
  obtain ⟨-, rfl⟩ := h.sound.blocks.addr_inj ⟨hk, Or.inl hp⟩ ⟨hr, Or.inr hq⟩ (hbase.trans haq.symm)
  exact h.sound.free_notMem_allocated hk hp r hr hq

end XyOS.DirectMapping
