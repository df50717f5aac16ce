import XyOS.Foundation.Runs
import XyOS.Memory.PageAllocatorDefs

/-! Runs of `ReqPage` and `RelPage`. `ReqPage` scans upwards from a page number
that is a multiple of 32, so of the pages that share a bit it only ever returns
the lowest, and different returned pages have different bits. -/

namespace XyOS.PageAllocator
open Runs

variable {b : Bitmap} {avlMem : List AvlPhysMem}

theorem isBitmapSet_congr {i j : ℕ} (h : SameBit i j) : isBitmapSet b i = isBitmapSet b j := by
  rw [isBitmapSet_eq, isBitmapSet_eq, h.1, h.2]

/-! ## One request -/

theorem reqPageFrom_spec (b : Bitmap) (n i : ℕ) :
    (reqPageFrom b n i = (0, b) ∧ ∀ k, i ≤ k → k < i + n → isBitmapSet b k = true) ∨
      ∃ j, i ≤ j ∧ j < i + n ∧ isBitmapSet b j = false ∧
        (∀ k, i ≤ k → k < j → isBitmapSet b k = true) ∧
        reqPageFrom b n i = (getPagePhysAddr j, setBitmap b j) := by
  induction n generalizing i with
  | zero => exact Or.inl ⟨rfl, fun k h1 h2 => by omega⟩
  | succ n ih =>
    rw [reqPageFrom]
    cases hset : isBitmapSet b i with
    | false => exact Or.inr ⟨i, Nat.le_refl i, by omega, hset, fun k h1 h2 => by omega, if_pos rfl⟩
    | true =>
      rw [if_neg (by simp)]
      have hfirst : ∀ k, i ≤ k → (i + 1 ≤ k → isBitmapSet b k = true) → isBitmapSet b k = true := by
        intro k hk hrest
        rcases Nat.eq_or_lt_of_le hk with rfl | hlt
        · exact hset
        · exact hrest hlt
      rcases ih (i + 1) with ⟨hnone, hall⟩ | ⟨j, h1, h2, hj, hbelow, hreq⟩
      · exact Or.inl ⟨hnone, fun k hk hkn => hfirst k hk fun h => hall k h (by omega)⟩
      · exact Or.inr ⟨j, by omega, by omega, hj, fun k hk hkj => hfirst k hk fun h => hbelow k h hkj, hreq⟩

/-- The pages that `ReqPage` can return: the lowest of those that share a bit. -/
def Grantable (n : ℕ) : Prop :=
  kDynamicMappingStartPage ≤ n ∧ n < kVirtualPageNum ∧ n % 32 < 4

theorem Grantable.eq_of_sameBit {i j : ℕ} (hi : Grantable i) (hj : Grantable j) (h : SameBit i j) :
    i = j := by
  have h1 := hi.2.2
  have h2 := hj.2.2
  obtain ⟨h3, h4⟩ := h
  omega

theorem Grantable.getPageNo {n : ℕ} (h : Grantable n) :
    getPageNo (getPagePhysAddr n) = n ∧ getPagePhysAddr n ≠ 0 := by
  obtain ⟨h1, h2, -⟩ := h
  simp only [kDynamicMappingStartPage, kVirtualPageNum] at h1 h2
  have haddr : getPagePhysAddr n = n * 0x1000 := u32_of_lt (by simp only [pageSize]; omega)
  rw [haddr, PageAllocator.getPageNo, pageSize]
  omega

theorem reqPage_spec (b : Bitmap) :
    (reqPage b = (0, b) ∧
        ∀ n, kDynamicMappingStartPage ≤ n → n < kVirtualPageNum → isBitmapSet b n = true) ∨
      ∃ n, Grantable n ∧ isBitmapSet b n = false ∧ reqPage b = (getPagePhysAddr n, setBitmap b n) := by
  rcases reqPageFrom_spec b (kVirtualPageNum - kDynamicMappingStartPage) kDynamicMappingStartPage with
    ⟨hnone, hall⟩ | ⟨n, h1, h2, hn, hbelow, hreq⟩
  · refine Or.inl ⟨hnone, fun n h1 h2 => hall n h1 ?_⟩
    simp only [kDynamicMappingStartPage, kVirtualPageNum] at h2 ⊢
    omega
  · refine Or.inr ⟨n, ⟨h1, ?_, ?_⟩, hn, hreq⟩
    · simp only [kDynamicMappingStartPage, kVirtualPageNum] at h2 ⊢
      omega
    · by_contra hge
      -- the lowest page with the bit of `n` would have been met before
      have hset := hbelow (n / 32 * 32 + n % 4)
        (by simp only [kDynamicMappingStartPage] at h1 ⊢; omega) (by omega)
      have hsame : SameBit (n / 32 * 32 + n % 4) n := by
        constructor <;> omega
      rw [isBitmapSet_congr hsame, hn] at hset
      exact Bool.noConfusion hset

/-! ## Runs -/

inductive PageCall
  | req
  | rel (n : ℕ)

structure PageClient where
  mem : Memory
  pageState : Bitmap
  held : List ℕ

def PageClient.exec (avlMem : List AvlPhysMem) (c : PageClient) : PageCall → Except Fault PageClient
  | .req =>
    let (addr, b) := reqPage c.pageState
    .ok { c with pageState := b, held := if addr = 0 then c.held else getPageNo addr :: c.held }
  | .rel n =>
    let (m, b) := relPage avlMem c.mem c.pageState n
    .ok ⟨m, b, c.held.erase n⟩

def PageLegal (c : PageClient) : PageCall → Prop
  | .req => True
  | .rel n => n ∈ c.held

/-- Held pages have bits of their own, and these are set. -/
structure Owned (c : PageClient) : Prop where
  nodup : c.held.Nodup
  grantable : ∀ n ∈ c.held, Grantable n
  set : ∀ n ∈ c.held, isBitmapSet c.pageState n = true

theorem isBitmapSet_relPage {m : Memory} {n i : ℕ} (hne : ¬ SameBit n i) :
    isBitmapSet (relPage avlMem m b n).2 i = isBitmapSet b i := by
  rw [relPage]
  split
  · rw [isBitmapSet_clearBitmap, decide_eq_false hne]
    rfl
  · rfl

theorem Owned.kept {c : PageClient} (h : Owned c) {n i : ℕ} (hn : n ∈ c.held) (hi : i ∈ c.held)
    (hne : i ≠ n) : isBitmapSet (relPage avlMem c.mem c.pageState n).2 i = true := by
  rw [isBitmapSet_relPage]
  · exact h.set i hi
  · exact fun hs => hne ((h.grantable n hn).eq_of_sameBit (h.grantable i hi) hs).symm

theorem Owned.fresh {c : PageClient} (h : Owned c) {n : ℕ} (hn : isBitmapSet c.pageState n = false) :
    n ∉ c.held := by
  intro hmem
  rw [h.set n hmem] at hn
  exact Bool.noConfusion hn

theorem Owned.exec {c : PageClient} (h : Owned c) (call : PageCall) (hlegal : PageLegal c call) :
    ∃ c', c.exec avlMem call = .ok c' ∧ Owned c' := by
  cases call with
  | req =>
    rcases reqPage_spec c.pageState with ⟨hnone, -⟩ | ⟨n, hg, hn, hreq⟩
    · exact ⟨c, by rw [PageClient.exec, hnone]; rfl, h⟩
    · refine ⟨⟨c.mem, setBitmap c.pageState n, n :: c.held⟩, ?_, ?_, ?_, ?_⟩
      · rw [PageClient.exec, hreq]
        simp only [hg.getPageNo.1, if_neg hg.getPageNo.2]
      · exact List.nodup_cons.mpr ⟨h.fresh hn, h.nodup⟩
      · rintro i (_ | ⟨_, hi⟩)
        · exact hg
        · exact h.grantable i hi
      · intro i hi
        rw [isBitmapSet_setBitmap]
        rcases List.mem_cons.mp hi with rfl | hi
        · simp [SameBit]
        · simp [h.set i hi]
  | rel n =>
    refine ⟨_, rfl, h.nodup.erase n, fun i hi => h.grantable i (List.mem_of_mem_erase hi), fun i hi => ?_⟩
    obtain ⟨hne, hi⟩ := h.nodup.mem_erase_iff.mp hi
    exact h.kept hlegal hi hne

def freePages (b : Bitmap) : List ℕ :=
  (List.range' kDynamicMappingStartPage (kVirtualPageNum - kDynamicMappingStartPage)).filter fun n =>
    !isBitmapSet b n

def afterReqs (b : Bitmap) : ℕ → Bitmap
  | 0 => b
  | k + 1 => (reqPage (afterReqs b k)).2

/-- The calls hand out all free pages in ascending order before one of them fails. -/
def HandsOutAll (b : Bitmap) : Prop :=
  ∀ k, (∀ n, (freePages b)[k]? = some n → (reqPage (afterReqs b k)).1 = getPagePhysAddr n) ∧
    ((reqPage (afterReqs b k)).1 = 0 → (freePages b).length ≤ k)

theorem mem_freePages {n : ℕ} :
    n ∈ freePages b ↔ kDynamicMappingStartPage ≤ n ∧ n < kVirtualPageNum ∧ isBitmapSet b n = false := by
  rw [freePages, List.mem_filter, List.mem_range'_1, Bool.not_eq_true', ← and_assoc]
  refine and_congr_left fun _ => and_congr_right fun hlow => ?_
  simp only [kDynamicMappingStartPage, kVirtualPageNum] at hlow ⊢

theorem getPagePhysAddr_inj {i j : ℕ} (hi : i < kVirtualPageNum) (hj : j < kVirtualPageNum)
    (h : getPagePhysAddr i = getPagePhysAddr j) : i = j := by
  simp only [getPagePhysAddr, pageSize, kVirtualPageNum, u32] at hi hj h
  omega

theorem HandsOutAll.freePages_eq_nil (h : HandsOutAll b) : freePages b = [] := by
  by_contra hne
  obtain ⟨p, hp⟩ := List.exists_mem_of_ne_nil _ hne
  obtain ⟨hlow, hhigh, hfree⟩ := mem_freePages.mp hp
  -- the highest page that shares the bit of `p`
  obtain ⟨q, hq⟩ : ∃ q, q = p / 32 * 32 + p % 4 + 28 := ⟨_, rfl⟩
  have hsame : SameBit q p := by
    constructor <;> omega
  have hqmem : q ∈ freePages b := by
    refine mem_freePages.mpr ⟨?_, ?_, by rw [isBitmapSet_congr hsame, hfree]⟩
    · simp only [kDynamicMappingStartPage] at hlow ⊢
      omega
    · simp only [kVirtualPageNum] at hhigh ⊢
      omega
  have hq0 : q < kVirtualPageNum := (mem_freePages.mp hqmem).2.1
  obtain ⟨k, hk⟩ := List.getElem?_of_mem hqmem
  have haddr := (h k).1 q hk
  rcases reqPage_spec (afterReqs b k) with ⟨hnone, -⟩ | ⟨n, hg, -, hreq⟩
  · rw [hnone] at haddr
    have := getPagePhysAddr_inj (i := 0) (by decide) hq0 haddr
    omega
  · rw [hreq] at haddr
    have hnq := getPagePhysAddr_inj hg.2.1 hq0 haddr
    have := hg.2.2
    omega

theorem reqPage_handsOutAll_iff (b : Bitmap) : HandsOutAll b ↔ freePages b = [] := by
  constructor
  · exact HandsOutAll.freePages_eq_nil
  · intro hnil k
    rw [hnil]
    exact ⟨fun n hn => by simp at hn, fun _ => by simp⟩

theorem reqPage_skips_free_pages : ¬ HandsOutAll fun _ => 0 := by
  intro h
  have hmem : 0x4000 ∈ freePages fun _ => 0 := mem_freePages.mpr ⟨by decide, by decide, by decide⟩
  rw [h.freePages_eq_nil] at hmem
  exact List.not_mem_nil hmem

/-! ## A request that is taken back -/

structure LowestFree (b : Bitmap) (p : ℕ) : Prop where
  low : kDynamicMappingStartPage ≤ p
  high : p < kVirtualPageNum
  free : isBitmapSet b p = false
  below : ∀ k, kDynamicMappingStartPage ≤ k → k < p → isBitmapSet b k = true

theorem LowestFree.reqPage {p : ℕ} (h : LowestFree b p) :
    PageAllocator.reqPage b = (getPagePhysAddr p, setBitmap b p) := by
  rcases reqPageFrom_spec b (kVirtualPageNum - kDynamicMappingStartPage) kDynamicMappingStartPage with
    ⟨-, hall⟩ | ⟨n, h1, -, hn, hbelow, hreq⟩
  · have hset := hall p h.low (by
      have := h.high
      simp only [kDynamicMappingStartPage, kVirtualPageNum] at this ⊢
      omega)
    rw [h.free] at hset
    exact Bool.noConfusion hset
  · have hpn : p = n := by
      rcases Nat.lt_trichotomy p n with hlt | heq | hgt
      · have := hbelow p h.low hlt
        rw [h.free] at this
        exact Bool.noConfusion this
      · exact heq
      · have := h.below n h1 hgt
        rw [hn] at this
        exact Bool.noConfusion this
    subst hpn
    exact hreq

end XyOS.PageAllocator
