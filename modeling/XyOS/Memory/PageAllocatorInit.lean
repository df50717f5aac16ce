import Mathlib.Tactic.Ring
import XyOS.Memory.PageAllocatorDefs

/-! `PageAllocatorInit` writes every page once, in ascending order, so a page
reads as the last page that shares its bit was marked. -/

namespace XyOS.PageAllocator

/-! ## Marks in ascending order -/

def writeMark (mark : ℕ → Bool) (b : Bitmap) (i : ℕ) : Bitmap :=
  if mark i then setBitmap b i else clearBitmap b i

def paint (mark : ℕ → Bool) : ℕ → ℕ → Bitmap → Bitmap
  | _, 0, b => b
  | k, n + 1, b => paint mark (k + 1) n (writeMark mark b k)

variable {mark mark' : ℕ → Bool} {b : Bitmap} {i j : ℕ}

theorem paint_append (mark : ℕ → Bool) (k n n' : ℕ) (b : Bitmap) :
    paint mark k (n + n') b = paint mark (k + n) n' (paint mark k n b) := by
  induction n generalizing k b with
  | zero => rw [Nat.zero_add, Nat.add_zero, paint]
  | succ n ih =>
    rw [Nat.add_right_comm, paint, paint, ih (k + 1)]
    congr 1
    omega

theorem paint_congr {k n : ℕ} (h : ∀ i, k ≤ i → i < k + n → mark i = mark' i) :
    paint mark k n b = paint mark' k n b := by
  induction n generalizing k b with
  | zero => rfl
  | succ n ih =>
    rw [paint, paint, writeMark, writeMark, h k (Nat.le_refl k) (by omega)]
    exact ih fun i h1 h2 => h i (by omega) (by omega)

theorem isBitmapSet_writeMark (mark : ℕ → Bool) (b : Bitmap) (i j : ℕ) :
    isBitmapSet (writeMark mark b i) j = if SameBit i j then mark i else isBitmapSet b j := by
  rw [writeMark]
  by_cases hs : SameBit i j
  · rw [if_pos hs]
    split
    case isTrue hm => rw [isBitmapSet_setBitmap, decide_eq_true hs, Bool.true_or, hm]
    case isFalse hm =>
      rw [isBitmapSet_clearBitmap, decide_eq_true hs, Bool.not_true, Bool.false_and]
      simpa using hm
  · rw [if_neg hs]
    split
    · rw [isBitmapSet_setBitmap, decide_eq_false hs, Bool.false_or]
    · rw [isBitmapSet_clearBitmap, decide_eq_false hs, Bool.not_false, Bool.true_and]

theorem isBitmapSet_paint_of_not {k n : ℕ} (h : ∀ i, k ≤ i → i < k + n → ¬ SameBit i j) :
    isBitmapSet (paint mark k n b) j = isBitmapSet b j := by
  induction n generalizing k b with
  | zero => rfl
  | succ n ih =>
    rw [paint, ih fun i h1 h2 => h i (by omega) (by omega), isBitmapSet_writeMark,
      if_neg (h k (Nat.le_refl k) (by omega))]

theorem isBitmapSet_paint {k n m : ℕ} (hk : k ≤ m) (hm : m < k + n) (hs : SameBit m j)
    (hlast : ∀ i, m < i → i < k + n → ¬ SameBit i j) : isBitmapSet (paint mark k n b) j = mark m := by
  obtain ⟨d, rfl⟩ := Nat.exists_eq_add_of_le hk
  obtain ⟨e, rfl⟩ : ∃ e, n = d + (e + 1) := ⟨n - d - 1, by omega⟩
  rw [paint_append, paint, isBitmapSet_paint_of_not fun i h1 h2 => hlast i (by omega) (by omega),
    isBitmapSet_writeMark, if_pos hs]

/-! ## The table -/

def inside (ts : List AvlPhysMem) (n : ℕ) : Bool :=
  ts.any fun t => t.addr ≤ n * pageSize && (n + 1) * pageSize ≤ t.addr + t.size

/-- Page `n` is set to allocated: it lies in no region, but not behind all of them. -/
def marked (ts : List AvlPhysMem) (n : ℕ) : Bool :=
  (ts.any fun t => n * pageSize < t.addr) && !inside ts n

/-- Ascending disjoint regions below the last two pages. -/
structure WellFormed (ts : List AvlPhysMem) : Prop where
  ascending : ts.Pairwise fun t u => t.addr + t.size ≤ u.addr
  bounded : ∀ t ∈ ts, t.addr + t.size ≤ 0xfffff000 - 0x1000

variable {t : AvlPhysMem} {ts : List AvlPhysMem} {m k : ℕ}

theorem inside_cons : inside (t :: ts) m = true ↔
    (t.addr ≤ 0x1000 * m ∧ 0x1000 * (m + 1) ≤ t.addr + t.size) ∨ inside ts m = true := by
  simp only [inside, List.any_cons, Bool.or_eq_true, Bool.and_eq_true, decide_eq_true_eq,
    Nat.mul_comm _ pageSize]
  rfl

theorem inside_iff : inside ts m = true ↔
    ∃ t ∈ ts, t.addr ≤ 0x1000 * m ∧ 0x1000 * (m + 1) ≤ t.addr + t.size := by
  simp only [inside, List.any_eq_true, Bool.and_eq_true, decide_eq_true_eq, Nat.mul_comm _ pageSize]
  rfl

theorem marked_iff : marked ts m = true ↔
    (∃ t ∈ ts, 0x1000 * m < t.addr) ∧ inside ts m = false := by
  simp only [marked, Bool.and_eq_true, List.any_eq_true, decide_eq_true_eq, Bool.not_eq_true',
    Nat.mul_comm _ pageSize]
  rfl

theorem marked_before (h : WellFormed (t :: ts)) (hm : 0x1000 * m < t.addr) :
    marked (t :: ts) m = true := by
  refine marked_iff.mpr ⟨⟨t, List.mem_cons_self .., hm⟩, ?_⟩
  rw [← Bool.not_eq_true, inside_cons]
  rintro (⟨h1, -⟩ | hin)
  · omega
  · obtain ⟨u, hu, h1, -⟩ := inside_iff.mp hin
    have := (List.pairwise_cons.mp h.ascending).1 u hu
    omega

theorem marked_inside (h1 : t.addr ≤ 0x1000 * m) (h2 : 0x1000 * (m + 1) ≤ t.addr + t.size) :
    marked (t :: ts) m = false := by
  rw [← Bool.not_eq_true, marked_iff]
  rintro ⟨-, hin⟩
  rw [inside_cons.mpr (Or.inl ⟨h1, h2⟩)] at hin
  exact Bool.noConfusion hin

theorem marked_behind (h1 : t.addr ≤ 0x1000 * m) (h2 : ¬ 0x1000 * (m + 1) ≤ t.addr + t.size) :
    marked (t :: ts) m = marked ts m := by
  have hin : inside (t :: ts) m = inside ts m := by
    rw [Bool.eq_iff_iff, inside_cons]
    exact or_iff_right fun h => h2 h.2
  rw [Bool.eq_iff_iff, marked_iff, marked_iff, hin]
  refine and_congr_left fun _ => ?_
  simp only [List.mem_cons, exists_eq_or_imp]
  exact or_iff_right (by omega)

/-! ## The loops -/

theorem getPageNo_mul (k : ℕ) : getPageNo (0x1000 * k) = k := Nat.mul_div_cancel_left k (by decide)

theorem u32_add_pageSize {k : ℕ} (hk : k < 0xfffff) : u32 (0x1000 * k + pageSize) = 0x1000 * (k + 1) :=
  u32_of_lt (by simp only [pageSize]; omega)

theorem setBelow_spec (t : AvlPhysMem) {K : ℕ} (hK : K ≤ 0xfffff) (d fuel k : ℕ) (b : Bitmap)
    (hend : t.addr ≤ 0x1000 * K) (hk : k ≤ K) (hd : t.addr ≤ 0x1000 * (k + d)) (hfuel : d < fuel) :
    ∃ n, setBelow t fuel b (0x1000 * k) = .ok (paint (fun _ => true) k n b, 0x1000 * (k + n)) ∧
      k + n ≤ K ∧ t.addr ≤ 0x1000 * (k + n) ∧
      ∀ m, k ≤ m → m < k + n → 0x1000 * m < t.addr := by
  induction d generalizing k b fuel with
  | zero =>
    obtain ⟨fuel, rfl⟩ : ∃ f, fuel = f + 1 := ⟨fuel - 1, by omega⟩
    refine ⟨0, ?_, hk, hd, fun m h1 h2 => by omega⟩
    rw [setBelow, if_neg (by omega)]
    rfl
  | succ d ih =>
    obtain ⟨fuel, rfl⟩ : ∃ f, fuel = f + 1 := ⟨fuel - 1, by omega⟩
    by_cases hlt : 0x1000 * k < t.addr
    · obtain ⟨n, hrun, hn, hstop, hall⟩ := @ih fuel (k + 1) (setBitmap b k) (by omega) (by omega) (by omega)
      refine ⟨n + 1, ?_, by omega, by rw [show k + (n + 1) = k + 1 + n by omega]; exact hstop,
        fun m h1 h2 => ?_⟩
      · rw [setBelow, if_pos hlt, getPageNo_mul, u32_add_pageSize (by omega), hrun,
          show k + (n + 1) = k + 1 + n by omega]
        rfl
      · by_cases hmk : m = k
        · rw [hmk]
          exact hlt
        · exact hall m (by omega) (by omega)
    · refine ⟨0, ?_, hk, by omega, fun m h1 h2 => by omega⟩
      rw [setBelow, if_neg hlt]
      rfl

theorem clearInside_spec (t : AvlPhysMem) {e : ℕ} (he : u32 (t.addr + t.size) = e) (hend : e < 0xfffff000)
    (d fuel k : ℕ) (b : Bitmap) (hk : k ≤ 0xffffe) (hd : e ≤ 0x1000 * (k + d)) (hfuel : d < fuel) :
    ∃ n, clearInside t fuel b (0x1000 * k) = .ok (paint (fun _ => false) k n b, 0x1000 * (k + n)) ∧
      k + n ≤ 0xffffe ∧ ¬ 0x1000 * (k + n + 1) ≤ e ∧
      ∀ m, k ≤ m → m < k + n → 0x1000 * (m + 1) ≤ e := by
  induction d generalizing k b fuel with
  | zero =>
    obtain ⟨fuel, rfl⟩ : ∃ f, fuel = f + 1 := ⟨fuel - 1, by omega⟩
    refine ⟨0, ?_, hk, by omega, fun m h1 h2 => by omega⟩
    rw [clearInside, u32_add_pageSize (by omega), he, if_neg (by omega)]
    rfl
  | succ d ih =>
    obtain ⟨fuel, rfl⟩ : ∃ f, fuel = f + 1 := ⟨fuel - 1, by omega⟩
    by_cases hle : 0x1000 * (k + 1) ≤ e
    · obtain ⟨n, hrun, hn, hstop, hall⟩ := @ih fuel (k + 1) (clearBitmap b k) (by omega) (by omega) (by omega)
      refine ⟨n + 1, ?_, by omega, by rw [show k + (n + 1) = k + 1 + n by omega]; exact hstop,
        fun m h1 h2 => ?_⟩
      · rw [clearInside, u32_add_pageSize (by omega), he, if_pos hle, getPageNo_mul, hrun,
          show k + (n + 1) = k + 1 + n by omega]
        rfl
      · by_cases hmk : m = k
        · rw [hmk]
          exact hle
        · exact hall m (by omega) (by omega)
    · refine ⟨0, ?_, hk, hle, fun m h1 h2 => by omega⟩
      rw [clearInside, u32_add_pageSize (by omega), he, if_neg hle]
      rfl

theorem WellFormed.tail (h : WellFormed (t :: ts)) : WellFormed ts :=
  ⟨(List.pairwise_cons.mp h.ascending).2, fun u hu => h.bounded u (List.mem_cons_of_mem _ hu)⟩

theorem scanTable_spec (h : WellFormed ts) (k : ℕ) (b : Bitmap) (hk : k ≤ 0xffffe) :
    ∃ n, scanTable ts b (0x1000 * k) = .ok (paint (marked ts) k n b, 0x1000 * (k + n)) ∧
      k + n ≤ 0xffffe ∧ ∀ m, k + n ≤ m → marked ts m = false := by
  induction ts generalizing k b with
  | nil => exact ⟨0, rfl, hk, fun m _ => rfl⟩
  | cons t ts ih =>
    have hend := h.bounded t (List.mem_cons_self ..)
    have hfuel : 0xffffe < loopFuel := by decide
    obtain ⟨n₁, hrun₁, hk₁, hstop₁, hset⟩ := setBelow_spec t (by omega) 0xffffe loopFuel k b (by omega) hk
      (by omega) hfuel
    obtain ⟨n₂, hrun₂, hk₂, hstop₂, hclear⟩ := clearInside_spec t (u32_of_lt (by omega)) (by omega)
      0xffffe loopFuel (k + n₁) (paint (fun _ => true) k n₁ b) hk₁ (by omega) hfuel
    obtain ⟨n₃, hrun₃, hk₃, hrest⟩ := ih h.tail (k + n₁ + n₂)
      (paint (fun _ => false) (k + n₁) n₂ (paint (fun _ => true) k n₁ b)) hk₂
    have hbehind : ∀ m, k + n₁ + n₂ ≤ m → marked (t :: ts) m = marked ts m := fun m hm =>
      marked_behind (by omega) (by omega)
    -- each of the three parts is painted with the marks of the whole table
    have e₁ : ∀ b, paint (fun _ => true) k n₁ b = paint (marked (t :: ts)) k n₁ b := fun b =>
      paint_congr fun m h1 h2 => (marked_before h (hset m h1 h2)).symm
    have e₂ : ∀ b, paint (fun _ => false) (k + n₁) n₂ b = paint (marked (t :: ts)) (k + n₁) n₂ b :=
      fun b => paint_congr fun m h1 h2 => (marked_inside (by omega) (hclear m h1 h2)).symm
    have e₃ : ∀ b, paint (marked ts) (k + n₁ + n₂) n₃ b = paint (marked (t :: ts)) (k + n₁ + n₂) n₃ b :=
      fun b => paint_congr fun m h1 _ => (hbehind m h1).symm
    refine ⟨n₁ + n₂ + n₃, ?_, by omega, fun m hm => ?_⟩
    · rw [scanTable, hrun₁]
      simp only [bind, Except.bind, hrun₂, hrun₃]
      rw [paint_append, paint_append]
      simp only [← Nat.add_assoc, e₁, e₂, e₃]
    · rw [hbehind m (by omega)]
      exact hrest m (by omega)

theorem clearRest_spec (d fuel k : ℕ) (b : Bitmap) (hk : 0 < k) (hd : k + d = 0x100000)
    (hfuel : d < fuel) :
    clearRest fuel b (u32 (0x1000 * k)) = .ok (paint (fun _ => false) k d b) := by
  induction d generalizing k b fuel with
  | zero =>
    obtain ⟨fuel, rfl⟩ : ∃ f, fuel = f + 1 := ⟨fuel - 1, by omega⟩
    obtain rfl : k = 0x100000 := hd
    rw [clearRest, if_neg (by decide)]
    rfl
  | succ d ih =>
    obtain ⟨fuel, rfl⟩ : ∃ f, fuel = f + 1 := ⟨fuel - 1, by omega⟩
    have haddr : u32 (0x1000 * k) = 0x1000 * k := u32_of_lt (by omega)
    have hnext : 0x1000 * k + pageSize = 0x1000 * (k + 1) := rfl
    rw [haddr, clearRest, getPageNo_mul, if_pos (by omega), hnext,
      ih fuel (k + 1) (clearBitmap b k) (by omega) (by omega) (by omega)]
    rfl

theorem isBitmapSet_clearLow (n : ℕ) (b : Bitmap) (h : ∀ i < n, ¬ SameBit i j) :
    isBitmapSet (clearLow n b) j = isBitmapSet b j := by
  induction n with
  | zero => rfl
  | succ n ih =>
    rw [clearLow, isBitmapSet_clearBitmap, decide_eq_false (h n (Nat.lt_succ_self n)),
      ih fun i hi => h i (by omega)]
    rfl

def lastShared (n : ℕ) : ℕ := 32 * (n / 32) + 28 + n % 4

theorem isBitmapSet_zero (n : ℕ) : isBitmapSet (fun _ => 0) n = false := by
  simp [isBitmapSet]

theorem pageAllocatorInit_reads (h : WellFormed ts) :
    ∃ b, pageAllocatorInit ts (fun _ => 0) = .ok b ∧
      ∀ n, 0x4000 ≤ n → n < 0x100000 → isBitmapSet b n = marked ts (lastShared n) := by
  obtain ⟨K, hscan, hK, hrest⟩ := scanTable_spec h 0 (fun _ => 0) (by omega)
  rw [Nat.mul_zero, Nat.zero_add] at hscan
  rw [Nat.zero_add] at hK
  simp only [Nat.zero_add] at hrest
  have hlow : ∀ n, 0x4000 ≤ n → ∀ i < 0x4000, ¬ SameBit i n := by
    rintro n hn i hi ⟨h1, -⟩
    omega
  by_cases hK0 : K = 0
  · subst hK0
    refine ⟨clearLow 0x4000 (fun _ => 0), ?_, fun n h1 _ => ?_⟩
    · rw [pageAllocatorInit, hscan]
      rfl
    · rw [isBitmapSet_clearLow _ _ (hlow n h1), isBitmapSet_zero, hrest _ (Nat.zero_le _)]
  · have hclear := clearRest_spec (0x100000 - K) loopFuel K (paint (marked ts) 0 K (fun _ => 0))
      (by omega) (by omega) (by simp only [loopFuel]; omega)
    have hwrap : u32 (0x1000 * K) = 0x1000 * K := u32_of_lt (by omega)
    rw [hwrap] at hclear
    have hall : paint (fun _ => false) K (0x100000 - K) (paint (marked ts) 0 K (fun _ => 0)) =
        paint (marked ts) 0 0x100000 (fun _ => 0) := by
      have hfree : ∀ b, paint (fun _ => false) K (0x100000 - K) b = paint (marked ts) K (0x100000 - K) b :=
        fun b => paint_congr fun m h1 _ => (hrest m h1).symm
      rw [hfree]
      have happ := paint_append (marked ts) 0 K (0x100000 - K) (fun _ => 0)
      rw [Nat.zero_add, Nat.add_sub_cancel' (show K ≤ 0x100000 by omega)] at happ
      exact happ.symm
    refine ⟨clearLow 0x4000 (paint (marked ts) 0 0x100000 (fun _ => 0)), ?_, fun n h1 h2 => ?_⟩
    · rw [pageAllocatorInit, hscan]
      simp only [bind, Except.bind]
      rw [hclear, hall]
      rfl
    · rw [isBitmapSet_clearLow _ _ (hlow n h1)]
      refine isBitmapSet_paint (Nat.zero_le _) (by simp only [lastShared]; omega)
        (by simp only [SameBit, lastShared]; omega) ?_
      rintro i hi hlt ⟨h3, h4⟩
      simp only [lastShared] at hi
      omega

/-- The bitmap says of every page above the direct mapping area whether it is available. -/
def Correct (ts : List AvlPhysMem) (b : Bitmap) : Prop :=
  ∀ n, kDynamicMappingStartPage ≤ n → n < kVirtualPageNum →
    (isBitmapSet b n = false ↔ inside ts n = true)

/-- A page reads right exactly when the last page that shares its bit was marked
as the page should be, and the last page of all never does: the bitmap is wrong
for every table. -/
theorem pageAllocatorInit_incorrect {ts : List AvlPhysMem} (h : WellFormed ts) :
    ∃ b, pageAllocatorInit ts (fun _ => 0) = .ok b ∧ ¬ Correct ts b ∧
      ∀ n, kDynamicMappingStartPage ≤ n → n < kVirtualPageNum →
        ((isBitmapSet b n = false ↔ inside ts n = true) ↔ marked ts (lastShared n) = !inside ts n) := by
  obtain ⟨b, hrun, hreads⟩ := pageAllocatorInit_reads h
  refine ⟨b, hrun, fun hcorrect => ?_, fun n h1 h2 => ?_⟩
  · have hout : ∀ m, 0xffffe ≤ m → (inside ts m = false ∧ marked ts m = false) := by
      intro m hm
      constructor
      · rw [← Bool.not_eq_true, inside_iff]
        rintro ⟨t, ht, -, h2⟩
        have := h.bounded t ht
        omega
      · rw [← Bool.not_eq_true, marked_iff]
        rintro ⟨⟨t, ht, h1⟩, -⟩
        have := h.bounded t ht
        omega
    have hfree : isBitmapSet b 0xfffff = false := by
      rw [hreads 0xfffff (by omega) (by omega)]
      exact (hout _ (by decide)).2
    have hin := (hcorrect 0xfffff (by decide) (by decide)).mp hfree
    rw [(hout 0xfffff (by omega)).1] at hin
    exact Bool.noConfusion hin
  · rw [hreads n h1 h2]
    cases marked ts (lastShared n) <;> cases inside ts n <;> simp

theorem pageAllocatorInit_incorrect_one_region :
    WellFormed [⟨0, 0x8000000⟩] ∧ ∃ b, pageAllocatorInit [⟨0, 0x8000000⟩] (fun _ => 0) = .ok b ∧
      ¬ Correct [⟨0, 0x8000000⟩] b := by
  have h : WellFormed [⟨0, 0x8000000⟩] := ⟨List.pairwise_singleton _ _, by simp⟩
  obtain ⟨b, hrun, hb, -⟩ := pageAllocatorInit_incorrect h
  exact ⟨h, b, hrun, hb⟩

/-- With 128 MB of memory the page behind them reads as free. -/
theorem page_behind_memory_free :
    WellFormed [⟨0, 0x8000000⟩] ∧ ∃ b, pageAllocatorInit [⟨0, 0x8000000⟩] (fun _ => 0) = .ok b ∧
      isBitmapSet b 0x8000 = false ∧ inside [⟨0, 0x8000000⟩] 0x8000 = false := by
  have h : WellFormed [⟨0, 0x8000000⟩] := ⟨List.pairwise_singleton _ _, by simp⟩
  obtain ⟨b, hrun, hreads⟩ := pageAllocatorInit_reads h
  refine ⟨h, b, hrun, ?_, by decide⟩
  rw [hreads 0x8000 (by omega) (by omega)]
  decide

end XyOS.PageAllocator
