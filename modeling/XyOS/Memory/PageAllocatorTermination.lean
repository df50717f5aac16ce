import XyOS.Memory.PageAllocatorInit

/-! The loops of `PageAllocatorInit` compare words that wrap. The address is
always that of a page, so a bound behind the start of the last page is one that
the address never passes, and the loop goes around the address space for ever. -/

namespace XyOS.PageAllocator

/-- Both loops over a region stop: its start is not behind that of the last page,
and its end cut to 32 bits lies in front of that page. -/
def Passable (t : AvlPhysMem) : Prop :=
  t.addr ≤ 0xfffff000 ∧ u32 (t.addr + t.size) < 0xfffff000

instance (t : AvlPhysMem) : Decidable (Passable t) := inferInstanceAs (Decidable (_ ∧ _))

def NeverStops (loop : ℕ → Bitmap → ℕ → Except Fault (Bitmap × ℕ)) : Prop :=
  ∀ fuel b k, loop fuel b (0x1000 * (k % 0x100000)) = .error .diverges

variable {t : AvlPhysMem} {ts : List AvlPhysMem}

/-! ## A loop that does not stop -/

theorem u32_page_succ (k : ℕ) :
    u32 (0x1000 * (k % 0x100000) + pageSize) = 0x1000 * ((k + 1) % 0x100000) := by
  unfold u32 pageSize
  omega

theorem setBelow_neverStops (h : 0xfffff000 < t.addr) : NeverStops (setBelow t) := by
  intro fuel b k
  induction fuel generalizing b k with
  | zero => rfl
  | succ fuel ih =>
    have hpage := Nat.mod_lt k (show 0 < 0x100000 by decide)
    rw [setBelow, if_pos (by omega), u32_page_succ]
    exact ih _ (k + 1)

theorem clearInside_neverStops (h : 0xfffff000 ≤ u32 (t.addr + t.size)) : NeverStops (clearInside t) := by
  intro fuel b k
  induction fuel generalizing b k with
  | zero => rfl
  | succ fuel ih =>
    have hpage := Nat.mod_lt (k + 1) (show 0 < 0x100000 by decide)
    rw [clearInside, u32_page_succ, if_pos (by omega)]
    exact ih _ (k + 1)

theorem neverStops_of_not_passable (h : ¬ Passable t) :
    NeverStops (setBelow t) ∨ NeverStops (clearInside t) := by
  by_cases haddr : t.addr ≤ 0xfffff000
  · right
    apply clearInside_neverStops
    by_contra hend
    exact h ⟨haddr, Nat.not_le.mp hend⟩
  · left
    apply setBelow_neverStops
    omega

/-! ## Loops that stop -/

theorem setBelow_returns (h : t.addr ≤ 0xfffff000) {k : ℕ} (hk : k ≤ 0xfffff) (b : Bitmap) :
    ∃ b' k', k' ≤ 0xfffff ∧ setBelow t loopFuel b (0x1000 * k) = .ok (b', 0x1000 * k') := by
  have hd : t.addr ≤ 0x1000 * (k + 0xfffff) := by
    rw [Nat.mul_add]
    exact h.trans (Nat.le_add_left _ _)
  obtain ⟨n, hrun, hn, -⟩ := setBelow_spec t (Nat.le_refl 0xfffff) 0xfffff loopFuel k b h hk hd (by decide)
  exact ⟨_, k + n, hn, hrun⟩

theorem clearInside_returns (h : u32 (t.addr + t.size) < 0xfffff000) {k : ℕ} (hk : k ≤ 0xfffff) (b : Bitmap) :
    ∃ b' k', k' ≤ 0xfffff ∧ clearInside t loopFuel b (0x1000 * k) = .ok (b', 0x1000 * k') := by
  by_cases hlast : k = 0xfffff
  · obtain ⟨n, hrun, hn, -⟩ := clearInside_spec t rfl h 0xfffff (loopFuel - 1) 0 (clearBitmap b 0xfffff)
      (by omega) (by omega) (by decide)
    refine ⟨paint (fun _ => false) 0 n (clearBitmap b 0xfffff), 0 + n, by omega, ?_⟩
    rw [hlast, show loopFuel = loopFuel - 1 + 1 from rfl, clearInside,
      show u32 (0x1000 * 0xfffff + pageSize) = 0x1000 * 0 from rfl, if_pos (Nat.zero_le _)]
    exact hrun
  · obtain ⟨n, hrun, hn, -⟩ := clearInside_spec t rfl h 0xfffff loopFuel k b (by omega) (by omega) (by decide)
    exact ⟨_, k + n, by omega, hrun⟩

theorem clearRest_returns {k : ℕ} (hk : k ≤ 0xfffff) (b : Bitmap) :
    ∃ b', clearRest loopFuel b (0x1000 * k) = .ok b' := by
  by_cases hzero : k = 0
  · refine ⟨b, ?_⟩
    rw [hzero, show loopFuel = loopFuel - 1 + 1 from rfl, clearRest, if_neg (by decide)]
  · have hrun := clearRest_spec (0x100000 - k) loopFuel k b (by omega) (by omega)
      (Nat.lt_of_le_of_lt (Nat.sub_le _ _) (by decide))
    rw [u32_of_lt (by omega)] at hrun
    exact ⟨_, hrun⟩

/-! ## The table -/

theorem scanTable_returns (h : ∀ t ∈ ts, Passable t) {k : ℕ} (hk : k ≤ 0xfffff) (b : Bitmap) :
    ∃ b' k', k' ≤ 0xfffff ∧ scanTable ts b (0x1000 * k) = .ok (b', 0x1000 * k') := by
  induction ts generalizing k b with
  | nil => exact ⟨b, k, hk, rfl⟩
  | cons t ts ih =>
    obtain ⟨haddr, hend⟩ := h t (List.mem_cons_self ..)
    obtain ⟨b₁, k₁, hk₁, hset⟩ := setBelow_returns haddr hk b
    obtain ⟨b₂, k₂, hk₂, hclear⟩ := clearInside_returns hend hk₁ b₁
    obtain ⟨b₃, k₃, hk₃, hrest⟩ := ih (fun u hu => h u (List.mem_cons_of_mem _ hu)) hk₂ b₂
    refine ⟨b₃, k₃, hk₃, ?_⟩
    rw [scanTable, hset]
    simp only [bind, Except.bind, hclear]
    exact hrest

theorem scanTable_diverges (h : ∃ t ∈ ts, ¬ Passable t) {k : ℕ} (hk : k ≤ 0xfffff) (b : Bitmap) :
    scanTable ts b (0x1000 * k) = .error .diverges := by
  induction ts generalizing k b with
  | nil =>
    obtain ⟨t, ht, -⟩ := h
    exact absurd ht List.not_mem_nil
  | cons t ts ih =>
    have hmod : ∀ {k}, k ≤ 0xfffff → k % 0x100000 = k := fun hk => Nat.mod_eq_of_lt (by omega)
    by_cases ht : Passable t
    · -- the loops pass `t`, and the region that is not passable is behind it
      obtain ⟨u, hu, hnot⟩ := h
      have hmem : u ∈ ts := by
        rcases List.mem_cons.mp hu with rfl | hu
        · exact absurd ht hnot
        · exact hu
      obtain ⟨b₁, k₁, hk₁, hset⟩ := setBelow_returns ht.1 hk b
      obtain ⟨b₂, k₂, hk₂, hclear⟩ := clearInside_returns ht.2 hk₁ b₁
      rw [scanTable, hset]
      simp only [bind, Except.bind, hclear]
      exact ih ⟨u, hmem, hnot⟩ hk₂ b₂
    · rw [scanTable]
      by_cases haddr : t.addr ≤ 0xfffff000
      · obtain ⟨b₁, k₁, hk₁, hset⟩ := setBelow_returns haddr hk b
        have hclear := clearInside_neverStops (t := t) (Nat.not_lt.mp fun hend => ht ⟨haddr, hend⟩)
          loopFuel b₁ k₁
        rw [hmod hk₁] at hclear
        rw [hset]
        simp only [bind, Except.bind, hclear]
      · have hset := setBelow_neverStops (Nat.not_le.mp haddr) loopFuel b k
        rw [hmod hk] at hset
        rw [hset]
        rfl

theorem pageAllocatorInit_diverges (h : ∃ t ∈ ts, ¬ Passable t) (b : Bitmap) :
    pageAllocatorInit ts b = .error .diverges := by
  rw [pageAllocatorInit, show (0 : ℕ) = 0x1000 * 0 from rfl, scanTable_diverges h (Nat.zero_le _) b]
  rfl

/-- `PageAllocatorInit` returns exactly when it can pass every region of the table, and a region
that it cannot pass has a loop that does not stop for any number of steps. -/
theorem pageAllocatorInit_returns_iff (ts : List AvlPhysMem) (b : Bitmap) :
    ((∃ b', pageAllocatorInit ts b = .ok b') ↔ ∀ t ∈ ts, Passable t) ∧
      ∀ t ∈ ts, ¬ Passable t → NeverStops (setBelow t) ∨ NeverStops (clearInside t) := by
  refine ⟨⟨?_, ?_⟩, fun t _ h => neverStops_of_not_passable h⟩
  · rintro ⟨b', hrun⟩ t ht
    by_contra hnot
    rw [pageAllocatorInit_diverges ⟨t, ht, hnot⟩] at hrun
    cases hrun
  · intro h
    obtain ⟨b₁, k₁, hk₁, hscan⟩ := scanTable_returns h (Nat.zero_le 0xfffff) b
    obtain ⟨b₂, hclear⟩ := clearRest_returns hk₁ b₁
    refine ⟨clearLow kDynamicMappingStartPage b₂, ?_⟩
    rw [pageAllocatorInit, show (0 : ℕ) = 0x1000 * 0 from rfl, hscan]
    simp only [bind, Except.bind, hclear]

theorem pageAllocatorInit_loops_at_top :
    (∀ b', pageAllocatorInit [⟨0x100000, 0xffeff000⟩] (fun _ => 0) ≠ .ok b') ∧
      NeverStops (clearInside ⟨0x100000, 0xffeff000⟩) := by
  refine ⟨fun b' hrun => ?_, clearInside_neverStops (by decide)⟩
  rw [pageAllocatorInit_diverges ⟨_, List.mem_singleton_self _, by decide⟩] at hrun
  cases hrun

end XyOS.PageAllocator
