import XyOS.Foundation.Runs
import XyOS.Memory.DirectMappingInit
import XyOS.Memory.DirectMappingRelease

/-! Runs of `ReqBytes` and `RelBytes` calls after `DirectMappingInit`. -/

namespace XyOS.DirectMapping
open Linked Cells Runs

inductive Call
  | req (size : ℤ)
  | rel (a : ℕ)

structure Client where
  alloc : Allocator
  held : List (ℕ × ℕ)

def Client.exec (kEnd : ℕ) (c : Client) : Call → Except Fault Client
  | .req size => do
    let (a, s) ← reqBytes c.alloc size
    .ok ⟨s, if a = 0 then c.held else (a, getMemBlockSizeType size) :: c.held⟩
  | .rel a => do
    let s ← relBytes kEnd c.alloc a
    .ok ⟨s, c.held.filter fun b => b.1 != a⟩

/-- Sizes are in range and only outstanding blocks are released. -/
def Legal (c : Client) : Call → Prop
  | .req size => 1 ≤ size ∧ size ≤ 2 ^ 25
  | .rel a => ∃ k, (a, k) ∈ c.held

/-- The pool has the nodes that a request needs; a released block is met first
by the search of `RelBytes` and has no free buddy. -/
def Careful (kEnd : ℕ) (c : Client) : Call → Prop
  | .req size => EnoughNodes c.alloc.lists (getMemBlockSizeType size)
  | .rel a => ∀ k, (a, k) ∈ c.held → FirstMet c.alloc c.alloc.lists k a ∧
      (k < 25 → NoFreeBuddy (reservedSize kEnd) c.alloc c.alloc.lists k a)

def Allocator.Reaches (s : Allocator) (i : Slot) (p : ℕ) : Prop := ∃ n, s.next^[n] (s.head i) = p

structure Safe (kEnd : ℕ) (c : Client) : Prop where
  disjoint : c.held.Pairwise fun b b' => b.1 + 2 ^ b.2 ≤ b'.1 ∨ b'.1 + 2 ^ b'.2 ≤ b.1
  inside : ∀ b ∈ c.held, kKVirtualAddr + reservedSize kEnd ≤ b.1 ∧ b.1 + 2 ^ b.2 ≤ poolBase
  noNull : ∀ i ∈ slots, ¬ c.alloc.Reaches i 0
  apart : ∀ i ∈ slots, ∀ j ∈ slots, ∀ p, c.alloc.Reaches i p → c.alloc.Reaches j p → i = j

/-! ## The invariant of a run -/

structure Tracked (kEnd : ℕ) (c : Client) (ls : Slot → List ℕ) : Prop where
  inv : Invariant (reservedSize kEnd) c.alloc ls
  unmerged : ∀ k < 25, Unmerged (reservedSize kEnd) c.alloc.blockAddr k (ls (.free k))
  held : ∀ a k, (a, k) ∈ c.held ↔
    k < 26 ∧ a ≠ kKVirtualAddr ∧ ∃ p ∈ ls (.allocated k), c.alloc.blockAddr p = a
  distinct : (c.held.map Prod.fst).Nodup

variable {kEnd : ℕ} {c : Client} {ls : Slot → List ℕ}

theorem Repr.reaches_mem {s : Allocator} {D : Set Slot} {i : Slot} {p : ℕ} (h : Repr s D ls) (hi : i ∈ D)
    (hp : s.Reaches i p) : p ∈ s.head i :: ls i := by
  obtain ⟨n, rfl⟩ := hp
  exact (h.rings.seg i hi).iterate_ring n

theorem Tracked.safe (h : Tracked kEnd c ls) : Safe kEnd c := by
  have hrepr := h.inv.sound.repr
  refine ⟨?_, ?_, ?_, ?_⟩
  · have hpair : c.held.Pairwise fun b b' => b.1 ≠ b'.1 := List.pairwise_map.mp h.distinct
    refine hpair.imp_of_mem ?_
    rintro ⟨a, k⟩ ⟨a', k'⟩ hb hb' hne
    obtain ⟨hk, -, p, hp, rfl⟩ := (h.held a k).mp hb
    obtain ⟨hk', -, p', hp', rfl⟩ := (h.held a' k').mp hb'
    by_contra hover
    simp only [not_or, not_le] at hover hne
    have hpos : 0 < 2 ^ k := by positivity
    have hpos' : 0 < 2 ^ k' := by positivity
    -- both blocks contain the higher of the two addresses
    obtain ⟨-, rfl⟩ := h.inv.sound.blocks.overlap (x := max (c.alloc.blockAddr p) (c.alloc.blockAddr p'))
      ⟨hk, Or.inr hp⟩ ⟨hk', Or.inr hp'⟩ (by omega) (by omega)
    exact hne rfl
  · rintro ⟨a, k⟩ hb
    obtain ⟨hk, hne, p, hp, rfl⟩ := (h.held a k).mp hb
    have hpH : Holds ls k p := ⟨hk, Or.inr hp⟩
    exact ⟨h.inv.above_reserved hpH hne, (h.inv.sound.blocks.bounds hpH).2⟩
  · intro i hi h0
    exact (hrepr.node i hi 0 (hrepr.reaches_mem hi h0)).ne_zero rfl
  · intro i hi j hj p hpi hpj
    exact hrepr.rings.apart i hi j hj p (hrepr.reaches_mem hi hpi) (hrepr.reaches_mem hj hpj)

/-! ## The steps -/

theorem Granted.unmerged {R : ℕ} {s s' : Allocator} {ls' : Slot → List ℕ} {k a j : ℕ}
    (h : Granted R s ls k a s' ls') (hj : j < 26) (hun : Unmerged R s.blockAddr j (ls (.free j))) :
    Unmerged R s'.blockAddr j (ls' (.free j)) := by
  rcases h.free j hj with ⟨x, hx⟩ | hsub
  · rw [hx]
    exact unmerged_singleton R s'.blockAddr j x
  · exact hun.subset (fun x hx => hsub.subset hx) fun x hx => h.addr j x ⟨hj, Or.inl (hsub.subset hx)⟩

theorem Tracked.grant (h : Tracked kEnd c ls) {k a : ℕ} {s' : Allocator} {ls' : Slot → List ℕ}
    (hk : k < 26) (hg : Granted (reservedSize kEnd) c.alloc ls k a s' ls') :
    a ≠ 0 ∧ Tracked kEnd ⟨s', (a, k) :: c.held⟩ ls' := by
  obtain ⟨p, hpa, hpnew, hpmem⟩ := hg.fresh
  have hpH : Holds ls' k p := ⟨hk, Or.inr ((hpmem p).mpr (Or.inl rfl))⟩
  have hbase := (hg.inv.sound.blocks.bounds hpH).1
  rw [hpa] at hbase
  have hfresh := hg.addr_ne hk
  refine ⟨?_, hg.inv, fun j hj => hg.unmerged (by omega) (h.unmerged j hj), ?_, ?_⟩
  · rintro rfl
    simp [kKVirtualAddr] at hbase
  · intro b j
    have hmem : ∀ x, x ∈ ls' (.allocated j) ↔ (j = k ∧ x = p) ∨ x ∈ ls (.allocated j) := by
      intro x
      by_cases hjk : j = k
      · subst hjk
        simp [hpmem]
      · simp [hg.allocated j hjk, hjk]
    simp only [List.mem_cons, Prod.mk.injEq, h.held, hmem]
    constructor
    · rintro (⟨rfl, rfl⟩ | ⟨hj, hb, q, hq, rfl⟩)
      · refine ⟨hk, ?_, p, Or.inl ⟨rfl, rfl⟩, hpa⟩
        rintro rfl
        obtain ⟨r, q, -, hr, hq, haq⟩ := h.inv.reserved
        exact hfresh r hr q hq haq
      · exact ⟨hj, hb, q, Or.inr hq, hg.addr j q ⟨hj, Or.inr hq⟩⟩
    · rintro ⟨hj, hb, q, ⟨rfl, rfl⟩ | hq, rfl⟩
      · exact Or.inl ⟨hpa, rfl⟩
      · exact Or.inr ⟨hj, hb, q, hq, (hg.addr j q ⟨hj, Or.inr hq⟩).symm⟩
  · refine List.nodup_cons.mpr ⟨fun ha => ?_, h.distinct⟩
    obtain ⟨⟨b, j⟩, hb, rfl⟩ := List.mem_map.mp ha
    obtain ⟨hj, -, q, hq, haq⟩ := (h.held b j).mp hb
    exact hfresh j hj q hq haq

theorem Tracked.giveBack (h : Tracked kEnd c ls) {k a : ℕ} {s' : Allocator} {ls' : Slot → List ℕ}
    (hk : k < 26) (hbuddy : k < 25 → NoFreeBuddy (reservedSize kEnd) c.alloc ls k a)
    (hother : ∀ j < 26, j ≠ k → ∀ q ∈ ls (.allocated j), c.alloc.blockAddr q ≠ a)
    (hr : Released (reservedSize kEnd) c.alloc ls k a s' ls') :
    Tracked kEnd ⟨s', c.held.filter fun b => b.1 != a⟩ ls' := by
  have hblk : s'.blockAddr = c.alloc.blockAddr := funext fun x => congrFun hr.addr (getStruct x)
  refine ⟨hr.inv, ?_, ?_, ?_⟩
  · intro j hj
    simp only [hblk]
    by_cases hjk : j = k
    · subst hjk
      obtain ⟨p, rfl, hmem⟩ := hr.back
      refine ((h.unmerged j hj).insert (hbuddy hj)).subset (fun x hx => ?_) fun _ _ => rfl
      rw [mem_insertAt]
      exact (hmem x).mp hx
    · rw [hr.free j hjk]
      exact h.unmerged j hj
  · intro b j
    simp only [List.mem_filter, h.held, bne_iff_ne, hblk]
    by_cases hjk : j = k
    · subst hjk
      simp only [hr.gone]
      constructor
      · rintro ⟨⟨hj, hb, q, hq, rfl⟩, hne⟩
        exact ⟨hj, hb, q, ⟨hq, hne⟩, rfl⟩
      · rintro ⟨hj, hb, q, ⟨hq, hne⟩, rfl⟩
        exact ⟨⟨hj, hb, q, hq, rfl⟩, hne⟩
    · rw [hr.allocated j hjk]
      constructor
      · exact fun hm => hm.1
      · rintro ⟨hj, hb, q, hq, rfl⟩
        exact ⟨⟨hj, hb, q, hq, rfl⟩, hother j hj hjk q hq⟩
  · exact h.distinct.sublist (List.filter_sublist.map _)

structure Evolved (s : Allocator) (ls : Slot → List ℕ) (s' : Allocator) (ls' : Slot → List ℕ) : Prop where
  nodes : nodes slots ls' = nodes slots ls
  kept : ∀ j x, Holds ls j x → (∃ j', Holds ls' j' x) ∧ s'.blockAddr x = s.blockAddr x

theorem Evolved.refl (s : Allocator) (ls : Slot → List ℕ) : Evolved s ls s ls :=
  ⟨rfl, fun j _ hx => ⟨⟨j, hx⟩, rfl⟩⟩

theorem Evolved.trans {s s₁ s₂ : Allocator} {ls ls₁ ls₂ : Slot → List ℕ} (h : Evolved s ls s₁ ls₁)
    (h' : Evolved s₁ ls₁ s₂ ls₂) : Evolved s ls s₂ ls₂ := by
  refine ⟨h'.nodes.trans h.nodes, fun j x hx => ?_⟩
  obtain ⟨⟨j₁, hx₁⟩, ha₁⟩ := h.kept j x hx
  exact ⟨(h'.kept j₁ x hx₁).1, (h'.kept j₁ x hx₁).2.trans ha₁⟩

theorem EnoughNodes.congr {ls' : Slot → List ℕ} {k : ℕ} (h : EnoughNodes ls k)
    (he : ∀ i ∈ slots, ls' i = ls i) : EnoughNodes ls' k := by
  intro t hkt ht hempty hne
  rw [he _ pool_mem_slots]
  rw [he _ (free_mem_slots.mpr ht)] at hne
  refine h t hkt ht (fun j h1 h2 => ?_) hne
  rw [← he _ (free_mem_slots.mpr (h2.trans ht))]
  exact hempty j h1 h2

theorem Tracked.exec (h : Tracked kEnd c ls) (call : Call) (hlegal : Legal c call)
    (hcare : Careful kEnd c call) :
    ∃ c' ls', c.exec kEnd call = .ok c' ∧ Tracked kEnd c' ls' ∧ Evolved c.alloc ls c'.alloc ls' := by
  have hlists : ∀ i ∈ slots, c.alloc.lists i = ls i := fun i hi => h.inv.sound.repr.lists_eq hi
  cases call with
  | req size =>
    obtain ⟨n, rfl⟩ := Int.eq_ofNat_of_zero_le (show 0 ≤ size by have := hlegal.1; omega)
    have hk : getMemBlockSizeType n < 26 := by
      refine Nat.lt_succ_of_le (getMemBlockSizeType_le ?_ ?_ (by norm_num))
      · have := hlegal.1
        omega
      · exact_mod_cast hlegal.2
    rcases h.inv.reqBytes hk rfl (EnoughNodes.congr hcare fun i hi => (hlists i hi).symm) with
      hnone | ⟨a, s', ls', hrun, hg⟩
    · refine ⟨c, ls, ?_, h, Evolved.refl _ _⟩
      rw [Client.exec, hnone]
      rfl
    · obtain ⟨ha, htracked⟩ := h.grant hk hg
      refine ⟨_, ls', ?_, htracked, hg.nodes, fun j x hx => ⟨hg.kept j x hx, hg.addr j x hx⟩⟩
      rw [Client.exec, hrun]
      simp only [bind, Except.bind, if_neg ha]
  | rel a =>
    obtain ⟨k, hak⟩ := hlegal
    obtain ⟨hfirst, hbuddy⟩ := hcare k hak
    obtain ⟨hk, hne, p, hp, rfl⟩ := (h.held a k).mp hak
    have hfirst' : FirstMet c.alloc ls k (c.alloc.blockAddr p) := by
      intro j hj q hq
      rw [← hlists _ (allocated_mem_slots.mpr (hj.trans hk))] at hq
      exact hfirst j hj q hq
    have hbuddy' : k < 25 → NoFreeBuddy (reservedSize kEnd) c.alloc ls k (c.alloc.blockAddr p) := by
      intro hk' q hq
      rw [← hlists _ (free_mem_slots.mpr hk)] at hq
      exact hbuddy hk' q hq
    obtain ⟨s', ls', hrun, hr⟩ := h.inv.relBytes kEnd rfl hk hp hne hfirst' (fun hk' => h.unmerged k hk')
      hbuddy'
    have hother : ∀ j < 26, j ≠ k → ∀ q ∈ ls (.allocated j),
        c.alloc.blockAddr q ≠ c.alloc.blockAddr p := by
      intro j hj hjk q hq haq
      exact hjk (h.inv.sound.blocks.addr_inj ⟨hj, Or.inr hq⟩ ⟨hk, Or.inr hp⟩ haq).1
    refine ⟨_, ls', ?_, h.giveBack hk hbuddy' hother hr, hr.nodes, fun j x hx => ?_⟩
    · rw [Client.exec, hrun]
      rfl
    · exact ⟨⟨j, (hr.holds j x).mpr hx⟩, congrFun hr.addr (getStruct x)⟩

theorem Carved.tracked {s : Allocator} (h : Carved (getMemBlockSizeType kEnd) s ls 0)
    (hr : getMemBlockSizeType kEnd < 26) : Tracked kEnd ⟨s, []⟩ ls := by
  have hinv := h.invariant hr
  refine ⟨hinv, ?_, ?_, List.nodup_nil⟩
  · intro k hk
    rcases h.free_le_one (show k < 26 by omega) with he | ⟨x, he⟩
    · rw [he]
      intro x hx
      simp at hx
    · rw [he]
      exact unmerged_singleton _ _ _ _
  · intro a k
    simp only [List.not_mem_nil, false_iff]
    rintro ⟨hk, hne, p, hp, rfl⟩
    obtain ⟨q, hq, haq⟩ := h.reserved
    by_cases hkr : k = getMemBlockSizeType kEnd
    · rw [hkr, hq, List.mem_singleton] at hp
      exact hne (hp ▸ haq)
    · rw [h.allocated k hkr] at hp
      simp at hp

theorem Tracked.run {c₀ : Client} {ls₀ : Slot → List ℕ} (h : Tracked kEnd c₀ ls₀) {calls : List Call}
    (hcalls : Along (Client.exec kEnd) (fun c call => Legal c call ∧ Careful kEnd c call) c₀ calls) :
    ∃ c ls, Runs.run (Client.exec kEnd) c₀ calls = .ok c ∧ Tracked kEnd c ls ∧
      Evolved c₀.alloc ls₀ c.alloc ls := by
  obtain ⟨c, hrun, ls, ht, he⟩ := run_returns
    (I := fun c => ∃ ls, Tracked kEnd c ls ∧ Evolved c₀.alloc ls₀ c.alloc ls)
    (fun c call ⟨ls, ht, he⟩ ⟨hlegal, hcare⟩ => by
      obtain ⟨c', ls', hexec, ht', he'⟩ := ht.exec call hlegal hcare
      exact ⟨c', hexec, ls', ht', he.trans he'⟩)
    ⟨ls₀, h, Evolved.refl _ _⟩ hcalls
  exact ⟨c, ls, hrun, ht, he⟩

theorem exec_req (kEnd : ℕ) {a k : ℕ} {size : ℤ} {s' : Allocator} (hrun : reqBytes c.alloc size = .ok (a, s'))
    (ha : a ≠ 0) (hk : getMemBlockSizeType size = k) :
    c.exec kEnd (.req size) = .ok ⟨s', (a, k) :: c.held⟩ := by
  rw [Client.exec, hrun]
  simp only [bind, Except.bind, if_neg ha, hk]

theorem carved_megabyte {s : Allocator} (h : Carved 20 s ls 0) :
    ls (.free 20) = [] ∧ (∃ p, ls (.free 21) = [p] ∧ s.blockAddr p = 0xc3d00000) ∧
      (∃ q, ls (.allocated 20) = [q] ∧ s.blockAddr q = 0xc0000000) ∧
      ∀ k, k ≠ 20 → ls (.allocated k) = [] := by
  refine ⟨h.rest 20 (Or.inr (by decide)), ?_, h.reserved, h.allocated⟩
  obtain ⟨p, hp, hap⟩ := h.carved 21 (by norm_num) (by norm_num) (by decide)
  exact ⟨p, hp, hap.trans (by decide)⟩

/-- Every run of careful calls after `DirectMappingInit` returns and is safe. -/
theorem careful_run_safe (s : Allocator) (kEnd : ℕ) (hpos : 0 < kEnd) (hle : kEnd ≤ 2 ^ 25) :
    ∃ s₀, directMappingInit kEnd s = .ok s₀ ∧ ∀ calls,
      Along (Client.exec kEnd) (fun c call => Legal c call ∧ Careful kEnd c call) ⟨s₀, []⟩ calls →
      ∃ c, Runs.run (Client.exec kEnd) ⟨s₀, []⟩ calls = .ok c ∧ Safe kEnd c := by
  obtain ⟨hr, s₀, ls₀, hinit, hcarved⟩ := directMappingInit_carved s hpos hle
  refine ⟨s₀, hinit, fun calls hcalls => ?_⟩
  obtain ⟨c, ls, hrun, ht, -⟩ := (hcarved.tracked hr).run hcalls
  exact ⟨c, hrun, ht.safe⟩

def fitCalls : List Call := [.req 0x200000, .rel 0xc3d00000]

theorem Carved.fit_req {s : Allocator} (h : Carved 20 s ls 0) :
    ∃ s', Client.exec 0x100000 ⟨s, []⟩ (.req 0x200000) = .ok ⟨s', [(0xc3d00000, 21)]⟩ ∧
      Careful 0x100000 ⟨s', [(0xc3d00000, 21)]⟩ (.rel 0xc3d00000) := by
  obtain ⟨-, ⟨p, hp, hap⟩, ⟨q, hq, haq⟩, hother⟩ := carved_megabyte h
  have hsize : getMemBlockSizeType 0x200000 = 21 := by decide
  obtain ⟨s', hrun, hg⟩ := (h.invariant (by norm_num)).grant_fit (by norm_num) hp hsize
  rw [hap] at hrun
  have hlists := fun i hi => hg.inv.sound.repr.lists_eq (i := i) hi
  refine ⟨s', exec_req _ hrun (by norm_num) hsize, fun k hk => ?_⟩
  simp only [List.mem_singleton, Prod.mk.injEq, true_and] at hk
  subst hk
  refine ⟨fun j hj x hx => ?_, fun _ x hx => ?_⟩
  · rw [hlists _ (allocated_mem_slots.mpr (by omega)), takeLists_allocated_of_ne (by omega)] at hx
    by_cases hj20 : j = 20
    · rw [hj20, hq, List.mem_singleton] at hx
      rw [hx, hg.addr 20 q ⟨by norm_num, Or.inr (by simp [hq])⟩, haq]
      norm_num
    · simp [hother j hj20] at hx
  · rw [hlists _ (free_mem_slots.mpr (by norm_num)), takeLists_free_self] at hx
    simp at hx

theorem Carved.fit_along {s : Allocator} (h : Carved 20 s ls 0) :
    Along (Client.exec 0x100000) (fun c call => Legal c call ∧ Careful 0x100000 c call) ⟨s, []⟩
      fitCalls := by
  obtain ⟨s', hexec, hcare⟩ := h.fit_req
  refine ⟨⟨⟨by norm_num, by norm_num⟩, ?_⟩, fun c' hc' => ?_⟩
  · exact (h.enoughNodes _).congr fun i hi => h.repr.lists_eq hi
  · obtain rfl := Except.ok.inj (hexec.symm.trans hc')
    exact ⟨⟨⟨21, by simp⟩, hcare⟩, fun _ _ => trivial⟩

theorem careful_run_safe_megabyte :
    ∃ s₀ c, directMappingInit 0x100000 .zero = .ok s₀ ∧
      Runs.run (Client.exec 0x100000) ⟨s₀, []⟩ fitCalls = .ok c ∧ Safe 0x100000 c := by
  obtain ⟨s₀, hinit, hsafe⟩ := careful_run_safe .zero 0x100000 (by norm_num) (by norm_num)
  obtain ⟨s₁, ls, hinit', hcarved⟩ := init_megabyte
  obtain rfl : s₀ = s₁ := Except.ok.inj (hinit.symm.trans hinit')
  obtain ⟨c, hrun, hc⟩ := hsafe _ hcarved.fit_along
  exact ⟨s₀, c, hinit, hrun, hc⟩

def splitCalls : List Call := [.req 0x100000, .rel 0xc3e00000]

theorem exec_rel {a : ℕ} {s' : Allocator} (hrun : relBytes kEnd c.alloc a = .ok s') :
    c.exec kEnd (.rel a) = .ok ⟨s', c.held.filter fun b => b.1 != a⟩ := by
  rw [Client.exec, hrun]
  rfl

theorem Carved.split_state {s : Allocator} (h : Carved 20 s ls 0) :
    ∃ s₁ s₂ ls₂ x y, reqBytes s 0x100000 = .ok (0xc3e00000, s₁) ∧ Invariant (2 ^ 20) s₁ s₁.lists ∧
      (∃ q ∈ s₁.lists (.allocated 20), s₁.blockAddr q = 0xc3e00000) ∧
      relBytes 0x100000 s₁ 0xc3e00000 = mergeBlock 0x100000 loopFuel s₂ 20 ∧ Invariant (2 ^ 20) s₂ ls₂ ∧
      ls₂ (.free 20) = [x, y] ∧ ls₂ (.free 21) = [] ∧ s₂.blockAddr x = 0xc3d00000 ∧ s₂.blockAddr y = 0xc3e00000 ∧
      s₂.head = s.head := by
  obtain ⟨hempty, ⟨p, hp, hap⟩, ⟨q, hq, haq⟩, hother⟩ := carved_megabyte h
  have hinv := h.invariant (by norm_num)
  have hsize : getMemBlockSizeType 0x100000 = 20 := by decide
  obtain ⟨a, s₁, ls₁, hrun, ha, ⟨x, hx, hax⟩, htop, -, hg⟩ := hinv.grant_split (k := 20) (by norm_num)
    (by norm_num) (fun j h1 h2 => by rw [show j = 20 by omega]; exact hempty) hp
    (by have := h.pool; omega) hsize
  rw [hap] at ha hax
  obtain rfl : a = 0xc3e00000 := by omega
  obtain ⟨y, hay, -, hymem⟩ := hg.fresh
  have hyA : y ∈ ls₁ (.allocated 20) := (hymem y).mpr (Or.inl rfl)
  obtain ⟨xs, ys, hys, hbelow, hgone⟩ := hg.inv.allocated_split (by norm_num) hyA
  have hfirst : FirstMet s₁ ls₁ 20 (s₁.blockAddr y) := by
    intro j hj z hz
    rw [hg.allocated j (by omega), hother j (by omega)] at hz
    simp at hz
  obtain ⟨s₂, hrel, hsound, hhead, haddr⟩ :=
    hg.inv.sound.relBytes_eq 0x100000 (by norm_num) hys hbelow hfirst
  have hblk : s₂.blockAddr = s₁.blockAddr := funext fun z => congrFun haddr (getStruct z)
  have hpair : giveLists s₁.blockAddr ls₁ 20 y (xs ++ ys) (.free 20) = [x, y] := by
    rw [giveLists_free_self, hx, insertAt, hay]
    have hlt : s₁.blockAddr x < 0xc3e00000 := by omega
    simp [hlt]
  have hlists := hg.inv.sound.repr.lists_eq (allocated_mem_slots.mpr (show 20 < 26 by norm_num))
  have hne : s₁.blockAddr y ≠ kKVirtualAddr := by
    rw [hay]
    decide
  exact ⟨s₁, s₂, _, x, y, hrun, hg.inv.lists, ⟨y, by rwa [hlists], hay⟩, by rw [← hay, hrel],
    hg.inv.give (by norm_num) hys hgone hne hsound hblk, hpair,
    by rw [giveLists_free_of_ne (by norm_num), htop], by rw [hblk]; omega, by rw [hblk, hay],
    hhead.trans hg.head⟩

theorem Carved.split_execs {s : Allocator} (h : Carved 20 s ls 0) :
    ∃ s₁ s₂, Client.exec 0x100000 ⟨s, []⟩ (.req 0x100000) = .ok ⟨s₁, [(0xc3e00000, 20)]⟩ ∧
      Client.exec 0x100000 ⟨s₁, [(0xc3e00000, 20)]⟩ (.rel 0xc3e00000) = .ok ⟨s₂, []⟩ ∧
      s₂.head = s.head ∧ s₂.next (s.head (.free 20)) = 0 := by
  obtain ⟨s₁, s₂, ls₂, x, y, hrun, -, -, hrel, hinv, hpair, hup, hax, hay, hhead⟩ := h.split_state
  have hsize : getMemBlockSizeType 0x100000 = 20 := by decide
  have hpair' : HasPair 0x100000 s₂ 20 (ls₂ (.free 20)) := by
    refine ⟨[], x, y, [], hpair, ?_⟩
    rw [hax, hay]
    exact ⟨by decide, by decide⟩
  obtain ⟨s₃, xs, b₁, b₂, ys, hrun₃, hhead₃, hls₃, htail, -⟩ :=
    (hinv.sound.repr.mono freeSlots_subset).mergeBlock_breaks (by norm_num) hpair'
  have hys : ys = [] := by
    have hlen := congrArg List.length (hpair.symm.trans hls₃)
    simp only [List.length_cons, List.length_nil, List.length_append] at hlen
    exact List.length_eq_zero_iff.mp (by omega)
  have hnull := htail hys
  refine ⟨s₁, s₃, exec_req _ hrun (by norm_num) hsize, ?_, hhead₃.trans hhead, ?_⟩
  swap
  · rw [← hhead]
    exact hnull
  have hfull : relBytes 0x100000 s₁ 0xc3e00000 = .ok s₃ := by rw [hrel, hrun₃]
  rw [exec_rel hfull]
  simp

theorem Carved.split_run {s : Allocator} (h : Carved 20 s ls 0) :
    ∃ s', Along (Client.exec 0x100000) Legal ⟨s, []⟩ splitCalls ∧
      Runs.run (Client.exec 0x100000) ⟨s, []⟩ splitCalls = .ok ⟨s', []⟩ ∧
      s'.head = s.head ∧ s'.next (s.head (.free 20)) = 0 := by
  obtain ⟨s₁, s₂, hreq, hrel, hnull⟩ := h.split_execs
  refine ⟨s₂, ⟨⟨by norm_num, by norm_num⟩, fun c' hc' => ?_⟩, ?_, hnull⟩
  · obtain rfl := Except.ok.inj (hreq.symm.trans hc')
    exact ⟨⟨20, by simp⟩, fun _ _ => trivial⟩
  · rw [splitCalls, run_cons hreq, run_cons hrel]
    rfl

theorem split_run_unsafe :
    ∃ s₀ c, directMappingInit 0x100000 .zero = .ok s₀ ∧
      Along (Client.exec 0x100000) Legal ⟨s₀, []⟩ splitCalls ∧
      Runs.run (Client.exec 0x100000) ⟨s₀, []⟩ splitCalls = .ok c ∧ ¬ Safe 0x100000 c := by
  obtain ⟨s₀, ls, hinit, hcarved⟩ := init_megabyte
  obtain ⟨s', hlegal, hrun, hhead, hnull⟩ := hcarved.split_run
  refine ⟨s₀, _, hinit, hlegal, hrun, fun hsafe => ?_⟩
  rw [← hhead] at hnull
  exact hsafe.noNull (.free 20) (free_mem_slots.mpr (by norm_num)) ⟨1, hnull⟩

end XyOS.DirectMapping
