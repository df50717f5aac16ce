import Mathlib.Algebra.Ring.GeomSum
import XyOS.Foundation.Runs
import XyOS.Memory.DirectMappingPages

/-! Memory that was requested and not released, and where the block of one more
request lies. -/

namespace XyOS.DirectMapping
open Linked Cells Runs

def Owned (s : Allocator) (b n : ℕ) : Prop :=
  ∃ k < 26, ∃ p ∈ s.lists (.allocated k), s.blockAddr p ≤ b ∧ b + n ≤ s.blockAddr p + 2 ^ k

structure Ready (R : ℕ) (s : Allocator) (n : ℕ) : Prop where
  inv : Invariant R s s.lists
  pool : 52 * n ≤ (s.lists .pool).length

structure Fresh (s : Allocator) (k a : ℕ) (s' : Allocator) : Prop where
  owned : Owned s' a (2 ^ k)
  kept : ∀ b n, Owned s b n → Owned s' b n
  apart : ∀ b n, Owned s b n → b + n ≤ a ∨ a + 2 ^ k ≤ b

variable {R k a b n m : ℕ} {s s' : Allocator} {ls ls' : Slot → List ℕ} {size : ℤ}

theorem Owned.mono (h : Owned s b n) {b' n' : ℕ} (hb : b ≤ b') (hn : b' + n' ≤ b + n) : Owned s b' n' := by
  obtain ⟨k, hk, p, hp, h1, h2⟩ := h
  exact ⟨k, hk, p, hp, by omega, by omega⟩

theorem Owned.bounds (h : Owned s b n) (hinv : Invariant R s s.lists) :
    kKVirtualAddr ≤ b ∧ b + n ≤ kKVirtualAddr + managedSize := by
  obtain ⟨k, hk, p, hp, h1, h2⟩ := h
  have hbound := hinv.sound.blocks.bounds (show Holds s.lists k p from ⟨hk, Or.inr hp⟩)
  omega

theorem Ready.mono (h : Ready R s n) (hm : m ≤ n) : Ready R s m :=
  ⟨h.inv, (Nat.mul_le_mul_left 52 hm).trans h.pool⟩

theorem Blocks.apart {B : ℕ → ℕ → Prop} {blk : ℕ → ℕ} (h : Blocks R B blk) {j p q : ℕ} (hp : B k p)
    (hq : B j q) (hne : p ≠ q) : blk p + 2 ^ k ≤ blk q ∨ blk q + 2 ^ j ≤ blk p := by
  by_contra hover
  have hk : 0 < 2 ^ k := by positivity
  have hj : 0 < 2 ^ j := by positivity
  exact hne (h.overlap (x := max (blk p) (blk q)) hp hq ⟨le_max_left .., by omega⟩
    ⟨le_max_right .., by omega⟩).2

theorem Granted.slot_length (h : Granted R s ls k a s' ls') (i : Slot) (hi : i ∈ slots) (hpool : i ≠ .pool) :
    (ls' i).length ≤ (ls i).length + 1 := by
  cases i with
  | pool => exact absurd rfl hpool
  | free j =>
    rcases h.free j (free_mem_slots.mp hi) with ⟨x, hx⟩ | hsub
    · rw [hx, List.length_singleton]
      omega
    · exact hsub.length_le.trans (Nat.le_succ _)
  | allocated j =>
    by_cases hjk : j = k
    · subst hjk
      obtain ⟨p, -, -, hmem⟩ := h.fresh
      have hnd := (List.nodup_cons.mp (h.inv.sound.repr.rings.nodup _ hi)).2
      have hsub : (ls' (.allocated j)).toFinset ⊆ insert p (ls (.allocated j)).toFinset := by
        intro x hx
        rw [Finset.mem_insert, List.mem_toFinset]
        exact (hmem x).mp (List.mem_toFinset.mp hx)
      calc (ls' (.allocated j)).length = (ls' (.allocated j)).toFinset.card :=
            (List.toFinset_card_of_nodup hnd).symm
        _ ≤ (insert p (ls (.allocated j)).toFinset).card := Finset.card_le_card hsub
        _ ≤ (ls (.allocated j)).toFinset.card + 1 := Finset.card_insert_le ..
        _ ≤ (ls (.allocated j)).length + 1 := Nat.add_le_add_right (List.toFinset_card_le _) 1
    · rw [h.allocated j hjk]
      exact Nat.le_succ _

theorem card_slots_le : slots.card ≤ 53 := by
  have himage (f : ℕ → Slot) : ((Finset.range kMemBlockTypeNum).image f).card ≤ 26 :=
    Finset.card_image_le.trans (Finset.card_range _).le
  have hpair := Finset.card_union_le ((Finset.range kMemBlockTypeNum).image Slot.free)
    ((Finset.range kMemBlockTypeNum).image Slot.allocated)
  have hall := Finset.card_union_le ((Finset.range kMemBlockTypeNum).image Slot.free ∪
    (Finset.range kMemBlockTypeNum).image Slot.allocated) {Slot.pool}
  have hfree := himage Slot.free
  have hallocated := himage Slot.allocated
  rw [Finset.card_singleton] at hall
  rw [slots]
  omega

theorem Granted.pool_le (h : Granted R s ls k a s' ls') : (ls .pool).length ≤ (ls' .pool).length + 52 := by
  have hcard := congrArg Multiset.card h.nodes
  rw [card_nodes, card_nodes, ← Finset.add_sum_erase _ _ pool_mem_slots,
    ← Finset.add_sum_erase slots (fun i => (ls i).length) pool_mem_slots] at hcard
  have hle : ∑ i ∈ slots.erase .pool, (ls' i).length ≤ ∑ i ∈ slots.erase .pool, ((ls i).length + 1) :=
    Finset.sum_le_sum fun i hi => h.slot_length i (Finset.mem_of_mem_erase hi) (Finset.ne_of_mem_erase hi)
  have hslots := card_slots_le
  rw [Finset.sum_add_distrib, ← Finset.card_eq_sum_ones, Finset.card_erase_of_mem pool_mem_slots] at hle
  omega

theorem Granted.lists_allocated (h : Granted R s s.lists k a s' ls') {j : ℕ} (hj : j < 26) :
    s'.lists (.allocated j) = ls' (.allocated j) :=
  h.inv.sound.repr.lists_eq (allocated_mem_slots.mpr hj)

theorem Granted.isFresh (h : Granted R s s.lists k a s' ls') (hk : k < 26) : Fresh s k a s' := by
  obtain ⟨p, hpa, hpnew, hpmem⟩ := h.fresh
  have hpH : Holds ls' k p := ⟨hk, Or.inr ((hpmem p).mpr (Or.inl rfl))⟩
  have hkeep : ∀ j < 26, ∀ q ∈ s.lists (.allocated j), q ∈ ls' (.allocated j) := by
    intro j hj q hq
    by_cases hjk : j = k
    · subst hjk
      exact (hpmem q).mpr (Or.inr hq)
    · rwa [h.allocated j hjk]
  refine ⟨⟨k, hk, p, ?_, hpa.le, (congrArg (· + 2 ^ k) hpa).ge⟩, ?_, ?_⟩
  · rw [h.lists_allocated hk]
    exact (hpmem p).mpr (Or.inl rfl)
  · rintro b n ⟨j, hj, q, hq, h1, h2⟩
    refine ⟨j, hj, q, ?_, ?_⟩
    · rw [h.lists_allocated hj]
      exact hkeep j hj q hq
    · rw [h.addr j q ⟨hj, Or.inr hq⟩]
      exact ⟨h1, h2⟩
  · rintro b n ⟨j, hj, q, hq, h1, h2⟩
    have hqp : q ≠ p := by
      rintro rfl
      exact hpnew j hj hq
    have hsep := h.inv.sound.blocks.apart (show Holds ls' j q from ⟨hj, Or.inr (hkeep j hj q hq)⟩) hpH hqp
    rw [hpa, h.addr j q ⟨hj, Or.inr hq⟩] at hsep
    omega

theorem Ready.enough (h : Ready R s (n + 1)) (k : ℕ) : EnoughNodes s.lists k := by
  intro t _ ht _ _
  have := h.pool
  omega

theorem Ready.fresh (h : Ready R s (n + 1)) (hk : k < 26) (hg : Granted R s s.lists k a s' ls') :
    a ≠ 0 ∧ Fresh s k a s' ∧ Ready R s' n := by
  have hfresh := hg.isFresh hk
  have hbase := (hfresh.owned.bounds hg.inv.lists).1
  refine ⟨by simp only [kKVirtualAddr] at hbase; omega, hfresh, hg.inv.lists, ?_⟩
  have hpool := hg.pool_le
  have hn := h.pool
  rw [hg.inv.sound.repr.lists_eq pool_mem_slots]
  omega

theorem Ready.reqBytes (h : Ready R s (n + 1)) (hk : k < 26) (hsize : getMemBlockSizeType size = k) :
    DirectMapping.reqBytes s size = .ok (0, s) ∨
      ∃ a s', DirectMapping.reqBytes s size = .ok (a, s') ∧ a ≠ 0 ∧ Fresh s k a s' ∧ Ready R s' n := by
  rcases h.inv.reqBytes hk hsize (h.enough k) with hnone | ⟨a, s', ls', hrun, hg⟩
  · exact Or.inl hnone
  · exact Or.inr ⟨a, s', hrun, h.fresh hk hg⟩

/-! ## Requests in a row -/

def reqAll (s : Allocator) : List ℕ → Except Fault (List ℕ × Allocator)
  | [] => .ok ([], s)
  | size :: sizes => do
    let (a, s) ← reqBytes s size
    let (as, s) ← reqAll s sizes
    .ok (a :: as, s)

theorem of_reqAll_cons {size a : ℕ} {sizes as : List ℕ} (h : reqAll s (size :: sizes) = .ok (a :: as, s')) :
    ∃ s₁, reqBytes s size = .ok (a, s₁) ∧ reqAll s₁ sizes = .ok (as, s') := by
  obtain ⟨⟨a', s₁⟩, hone, h⟩ := of_bind_ok h
  obtain ⟨⟨as', s₂⟩, hrest, h⟩ := of_bind_ok h
  obtain ⟨he, rfl⟩ := Prod.mk.inj (Except.ok.inj h)
  obtain ⟨rfl, rfl⟩ := List.cons.inj he
  exact ⟨s₁, hone, hrest⟩

theorem length_reqAll {sizes as : List ℕ} (h : reqAll s sizes = .ok (as, s')) : as.length = sizes.length := by
  induction sizes generalizing s as with
  | nil =>
    obtain ⟨rfl, -⟩ := Prod.mk.inj (Except.ok.inj h)
    rfl
  | cons size sizes ih =>
    obtain ⟨⟨a, s₁⟩, hone, h⟩ := of_bind_ok h
    obtain ⟨⟨as', s₂⟩, hrest, h⟩ := of_bind_ok h
    obtain ⟨rfl, rfl⟩ := Prod.mk.inj (Except.ok.inj h)
    rw [List.length_cons, List.length_cons, ih hrest]

def Separate (x y : ℕ × ℕ) : Prop := x.1 + x.2 ≤ y.1 ∨ y.1 + y.2 ≤ x.1

theorem Separate.symm {x y : ℕ × ℕ} (h : Separate x y) : Separate y x := Or.symm h

theorem Separate.within {x y : ℕ × ℕ} (h : Separate x y) {a m c k : ℕ} (hx : x.1 ≤ a ∧ a + m ≤ x.1 + x.2)
    (hy : y.1 ≤ c ∧ c + k ≤ y.1 + y.2) : a + m ≤ c ∨ c + k ≤ a := by
  rcases h with h | h <;> omega

theorem separate_of_ne {l : List (ℕ × ℕ)} (h : l.Pairwise Separate) {i j : ℕ} {x y : ℕ × ℕ}
    (hi : l[i]? = some x) (hj : l[j]? = some y) (hij : i ≠ j) : Separate x y := by
  obtain ⟨hi', rfl⟩ := List.getElem?_eq_some_iff.mp hi
  obtain ⟨hj', rfl⟩ := List.getElem?_eq_some_iff.mp hj
  rcases Nat.lt_or_gt_of_ne hij with hlt | hgt
  · exact List.pairwise_iff_getElem.mp h i j hi' hj' hlt
  · exact (List.pairwise_iff_getElem.mp h j i hj' hi' hgt).symm

structure AllFresh (s : Allocator) (blocks : List (ℕ × ℕ)) (s' : Allocator) : Prop where
  kept : ∀ b n, Owned s b n → Owned s' b n
  owned : ∀ x ∈ blocks, Owned s' x.1 x.2
  old : ∀ x ∈ blocks, ∀ b n, Owned s b n → Separate (b, n) x
  apart : blocks.Pairwise Separate

theorem le_two_pow_sizeType {size : ℕ} (hpos : 0 < size) (hle : size ≤ 2 ^ 25) :
    getMemBlockSizeType size < 26 ∧ size ≤ 2 ^ getMemBlockSizeType size := by
  have hlt : size < 2 ^ 32 := hle.trans_lt (by norm_num)
  have htype := getMemBlockSizeType_le hpos.ne' hle (by norm_num)
  refine ⟨by omega, ?_⟩
  rw [getMemBlockSizeType_eq_clog hpos.ne' hlt]
  exact Nat.le_pow_clog (by norm_num) size

theorem Fresh.cons {size : ℕ} {blocks : List (ℕ × ℕ)} {s₁ : Allocator} (h : Fresh s k a s₁) (hle : size ≤ 2 ^ k)
    (hall : AllFresh s₁ blocks s') : AllFresh s ((a, size) :: blocks) s' := by
  have hown : Owned s₁ a size := h.owned.mono le_rfl (by omega)
  refine ⟨fun b n ho => hall.kept b n (h.kept b n ho), ?_, ?_, ?_⟩
  · intro x hx
    rcases List.mem_cons.mp hx with rfl | hx
    · exact hall.kept _ _ hown
    · exact hall.owned x hx
  · intro x hx b n ho
    rcases List.mem_cons.mp hx with rfl | hx
    · rcases h.apart b n ho with hleft | hright
      · exact Or.inl hleft
      · exact Or.inr ((Nat.add_le_add_left hle a).trans hright)
    · exact hall.old x hx b n (h.kept b n ho)
  · exact List.pairwise_cons.mpr ⟨fun x hx => hall.old x hx _ _ hown, hall.apart⟩

theorem Ready.reqAll {sizes as : List ℕ} (h : Ready R s (sizes.length + n))
    (hsizes : ∀ size ∈ sizes, 0 < size ∧ size ≤ 2 ^ 25)
    (hreq : DirectMapping.reqAll s sizes = .ok (as, s')) (hgranted : 0 ∉ as) :
    AllFresh s (as.zip sizes) s' ∧ Ready R s' n := by
  induction sizes generalizing s as with
  | nil =>
    obtain ⟨rfl, rfl⟩ := Prod.mk.inj (Except.ok.inj hreq)
    rw [List.length_nil, Nat.zero_add] at h
    exact ⟨⟨fun _ _ ho => ho, nofun, nofun, List.Pairwise.nil⟩, h⟩
  | cons size sizes ih =>
    obtain ⟨a, as', rfl⟩ := List.exists_cons_of_length_eq_add_one (length_reqAll hreq)
    obtain ⟨s₁, hone, hrest⟩ := of_reqAll_cons hreq
    obtain ⟨ha, has⟩ := not_or.mp (mt List.mem_cons.mpr hgranted)
    obtain ⟨hk, hle⟩ := le_two_pow_sizeType (hsizes size List.mem_cons_self).1
      (hsizes size List.mem_cons_self).2
    rw [List.length_cons, Nat.add_right_comm] at h
    rcases h.reqBytes hk rfl with hnone | ⟨b, s₁', hrun, -, hfresh, hready⟩
    · exact absurd (congrArg Prod.fst (Except.ok.inj (hnone.symm.trans hone))) ha
    · obtain ⟨rfl, rfl⟩ := Prod.mk.inj (Except.ok.inj (hrun.symm.trans hone))
      obtain ⟨hall, hready⟩ := ih hready (fun x hx => hsizes x (List.mem_cons_of_mem _ hx)) hrest has
      exact ⟨hfresh.cons hle hall, hready⟩

/-! ## Requests that succeed -/

def freePages (ls : Slot → List ℕ) : ℕ := ∑ j ∈ Finset.range 14, (ls (.free (12 + j))).length * 2 ^ j

theorem exists_of_freePages_pos (h : 0 < freePages ls) : ∃ j < 26, 12 ≤ j ∧ ls (.free j) ≠ [] := by
  obtain ⟨j, hj, hpos⟩ := Finset.exists_ne_zero_of_sum_ne_zero h.ne'
  refine ⟨12 + j, by have := Finset.mem_range.mp hj; omega, Nat.le_add_right .., fun hnil => hpos ?_⟩
  rw [hnil, List.length_nil, Nat.zero_mul]

theorem sum_below_two_pow {d : ℕ} (hd : d ≤ 14) :
    (∑ j ∈ Finset.range 14, if j < d then 2 ^ j else 0) + 1 = 2 ^ d := by
  have hfilter : (Finset.range 14).filter (· < d) = Finset.range d := by
    ext j
    simp only [Finset.mem_filter, Finset.mem_range]
    omega
  rw [← Finset.sum_filter, hfilter, Nat.geomSum_eq (le_refl 2)]
  have : 0 < 2 ^ d := by positivity
  omega

theorem freePages_split {d : ℕ} {p : ℕ} {rest : List ℕ} (hd : d < 14) (hp : ls (.free (12 + d)) = p :: rest)
    (htop : ls' (.free (12 + d)) = rest) (hempty : ∀ j < d, ls (.free (12 + j)) = [])
    (hbelow : ∀ j < d, ∃ x, ls' (.free (12 + j)) = [x])
    (hother : ∀ j, d < j → ls' (.free (12 + j)) = ls (.free (12 + j))) :
    freePages ls = freePages ls' + 1 := by
  have hterm : ∀ j ∈ Finset.range 14, (ls (.free (12 + j))).length * 2 ^ j + (if j < d then 2 ^ j else 0) =
      (ls' (.free (12 + j))).length * 2 ^ j + if j = d then 2 ^ d else 0 := by
    intro j _
    rcases lt_trichotomy j d with hlt | rfl | hgt
    · obtain ⟨x, hx⟩ := hbelow j hlt
      rw [hempty j hlt, hx, if_pos hlt, if_neg hlt.ne]
      simp
    · rw [hp, htop, if_neg (lt_irrefl j), if_pos rfl, List.length_cons]
      ring
    · rw [hother j hgt, if_neg hgt.not_gt, if_neg hgt.ne']
  have hsum := Finset.sum_congr rfl hterm
  rw [Finset.sum_add_distrib, Finset.sum_add_distrib, Finset.sum_ite_eq' .., if_pos (Finset.mem_range.mpr hd),
    ← sum_below_two_pow hd.le] at hsum
  rw [freePages, freePages]
  omega

theorem freePages_congr (h : ∀ j, 12 ≤ j → ls' (.free j) = ls (.free j)) : freePages ls' = freePages ls := by
  rw [freePages, freePages]
  exact Finset.sum_congr rfl fun j _ => by rw [h _ (Nat.le_add_right ..)]

theorem Granted.freePages_lists (h : Granted R s ls k a s' ls') : freePages s'.lists = freePages ls' := by
  rw [freePages, freePages]
  refine Finset.sum_congr rfl fun j hj => ?_
  have := Finset.mem_range.mp hj
  rw [h.inv.sound.repr.lists_eq (free_mem_slots.mpr (by omega))]

theorem Ready.granted (h : Ready R s (n + 1)) (hk : k ≤ 12) (hsize : getMemBlockSizeType size = k)
    (hfree : 0 < freePages s.lists) : ∃ a s', DirectMapping.reqBytes s size = .ok (a, s') ∧ a ≠ 0 ∧
      Ready R s' n ∧ freePages s.lists ≤ freePages s'.lists + 1 := by
  obtain ⟨j, hj26, hj12, hne⟩ := exists_of_freePages_pos hfree
  rcases exists_least_free s.lists k with hnone | ⟨t, hkt, ht, hempty, hne⟩
  · exact absurd (hnone j (hk.trans hj12) hj26) hne
  obtain ⟨p, rest, hp⟩ := List.exists_cons_of_ne_nil hne
  rcases Nat.eq_or_lt_of_le hkt with rfl | hlt
  · obtain ⟨s', hrun, hg⟩ := h.inv.grant_fit ht hp hsize
    obtain ⟨ha, -, hready⟩ := h.fresh ht hg
    refine ⟨_, s', hrun, ha, hready, ?_⟩
    rw [hg.freePages_lists]
    rcases Nat.eq_or_lt_of_le hk with rfl | hk12
    · rw [freePages_split (d := 0) (by norm_num) hp takeLists_free_self nofun nofun
        fun j hj => takeLists_free_of_ne (by omega)]
    · rw [freePages_congr fun j hj => takeLists_free_of_ne (by omega)]
      exact Nat.le_succ _
  · obtain ⟨b, s', ls', hrun, -, -, htop, ⟨hother, hbelow⟩, hg⟩ :=
      h.inv.grant_split hlt ht hempty hp (h.enough k t hkt ht hempty hne) hsize
    obtain ⟨ha, -, hready⟩ := h.fresh (hlt.trans ht) hg
    refine ⟨b, s', hrun, ha, hready, ?_⟩
    rw [hg.freePages_lists]
    by_cases ht12 : t < 12
    · rw [freePages_congr fun j hj => hother j (Or.inr (by omega))]
      exact Nat.le_succ _
    · obtain ⟨d, rfl⟩ := Nat.exists_eq_add_of_le (not_lt.mp ht12)
      rw [freePages_split (by omega) hp htop (fun j hj => hempty _ (by omega) (by omega))
        (fun j hj => hbelow _ (by omega) (by omega)) fun j hj => hother _ (Or.inr (by omega))]

theorem Ready.reqAll_granted {sizes : List ℕ} (h : Ready R s (sizes.length + n))
    (hsizes : ∀ size ∈ sizes, getMemBlockSizeType size ≤ 12) (hfree : sizes.length ≤ freePages s.lists) :
    ∃ as s', DirectMapping.reqAll s sizes = .ok (as, s') ∧ 0 ∉ as ∧
      freePages s.lists ≤ freePages s'.lists + sizes.length := by
  induction sizes generalizing s with
  | nil => exact ⟨[], s, rfl, nofun, Nat.le_add_right ..⟩
  | cons size sizes ih =>
    rw [List.length_cons] at hfree
    rw [List.length_cons, Nat.add_right_comm] at h
    obtain ⟨a, s₁, hone, ha, hready, hle⟩ := h.granted (hsizes size List.mem_cons_self) rfl (by omega)
    obtain ⟨as, s₂, hrest, has, hle'⟩ :=
      ih hready (fun x hx => hsizes x (List.mem_cons_of_mem _ hx)) (by omega)
    refine ⟨a :: as, s₂, ?_, ?_, ?_⟩
    · exact (bind_ok hone _).trans (bind_ok hrest _)
    · rw [List.mem_cons, not_or]
      exact ⟨ha.symm, has⟩
    · rw [List.length_cons]
      omega

theorem ready_megabyte {alloc : Allocator} {ls : Slot → List ℕ} (h : Carved 20 alloc ls 0) :
    Ready (2 ^ 20) alloc 256 ∧ 256 ≤ freePages alloc.lists := by
  refine ⟨⟨(h.invariant (by norm_num)).lists, ?_⟩, ?_⟩
  · have := h.pool
    rw [h.repr.lists_eq pool_mem_slots]
    omega
  · obtain ⟨p, hp, -⟩ := h.carved 25 (by norm_num) (by norm_num) (by
      rw [carvedSize, managedSize, kDirectMappingSize, kNodePoolSize]
      norm_num)
    rw [← h.repr.lists_eq (free_mem_slots.mpr (by norm_num))] at hp
    have hle := Finset.single_le_sum (f := fun j => (alloc.lists (.free (12 + j))).length * 2 ^ j)
      (fun _ _ => Nat.zero_le _) (Finset.mem_range.mpr (show 13 < 14 by norm_num))
    simp only [hp, List.length_singleton] at hle
    exact le_trans (by norm_num) hle

end XyOS.DirectMapping
