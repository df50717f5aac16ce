import Mathlib.Data.List.Nodup
import Mathlib.Data.Set.Insert
import XyOS.Memory.PagingInit

/-! The address spaces of several page directories in one memory: what `UPdClone`
and the writes of a page fault do to them.

Directories and page tables are named by their frames. -/

namespace XyOS.Paging
open DirectMapping PageAllocator

def pde (m : Memory) (d i : ℕ) : Pde := getPde m (0x1000 * d + 4 * i)

/-- The frame of the page table for region `i` of directory `d`, or 0. -/
def tableFrame (m : Memory) (d i : ℕ) : ℕ := (pde m d i).ptAddr.toNat

def Pde.readOnly (e : Pde) : Pde := { e with access := e.access &&& ~~~ 2 }

def SameFrame (m m' : Memory) (f : ℕ) : Prop := ∀ x, 0x1000 * f ≤ x → x < 0x1000 * f + 0x1000 → m' x = m x

variable {m m' : Memory} {d f i j : ℕ}

theorem Pde.toWord_ofWord {w : ℕ} (hw : w < 2 ^ 32) : (Pde.ofWord w).toWord = w := by
  simp only [Pde.ofWord, Pde.toWord, BitVec.toNat_ofNat]
  omega

theorem toWord_getPde (m : Memory) (a : ℕ) : (getPde m a).toWord = readWord m a :=
  Pde.toWord_ofWord (readWord_lt m a)

theorem getPde_writeWord (m : Memory) (a : ℕ) (e : Pde) : getPde (writeWord m a e.toWord) a = e := by
  rw [getPde, readWord_writeWord e.toWord_lt, Pde.ofWord_toWord]

theorem Pde.readOnly_writable (e : Pde) : e.readOnly.access.getLsbD 1 = false := by
  rw [Pde.readOnly, BitVec.getLsbD_and, BitVec.getLsbD_not]
  simp

theorem toWord_makePde_mod_two (access : BitVec 8) (address : ℕ) :
    (makePde access address).toWord % 2 = access.toNat % 2 := by
  simp only [Pde.toWord, makePde]
  omega

theorem toWord_readOnly_mod_two (e : Pde) : e.readOnly.toWord % 2 = e.toWord % 2 := by
  have hbit : ∀ a : BitVec 8, (a &&& ~~~ 2).toNat % 2 = a.toNat % 2 := by decide
  have := hbit e.access
  simp only [Pde.toWord, Pde.readOnly]
  omega

theorem SameFrame.readWord (h : SameFrame m m' f) (hj : j < 1024) :
    readWord m' (0x1000 * f + 4 * j) = readWord m (0x1000 * f + 4 * j) :=
  readWord_congr fun x h1 h2 => h x (by omega) (by omega)

theorem SameFrame.pde (h : SameFrame m m' d) (hi : i < 1024) : pde m' d i = pde m d i := by
  rw [Paging.pde, getPde, h.readWord hi, ← getPde, ← Paging.pde]

theorem SameFrame.tableFrame (h : SameFrame m m' d) (hi : i < 1024) :
    tableFrame m' d i = tableFrame m d i := by
  rw [Paging.tableFrame, h.pde hi, ← Paging.tableFrame]

theorem sameFrame_writeWord (m : Memory) (w : ℕ) (hj : j < 1024) (hne : f ≠ d) :
    SameFrame m (writeWord m (0x1000 * d + 4 * j) w) f := by
  intro x h1 h2
  exact writeWord_of_lt_or_gt (by omega)

/-! ## UPdClone -/

theorem clearWritable_eq (fatherPd n : ℕ) (m : Memory) :
    clearWritable fatherPd n m =
      fillWords fatherPd (fun i => (getPde m (fatherPd + 4 * i)).readOnly.toWord) n m := by
  induction n with
  | zero => rfl
  | succ n ih =>
    have hread : getPde (clearWritable fatherPd n m) (fatherPd + 4 * n) = getPde m (fatherPd + 4 * n) := by
      rw [ih, getPde, readWord_congr fun x _ _ => fillWords_of_outside (by omega), ← getPde]
    rw [clearWritable, fillWords, hread, ih]
    rfl

theorem copyPdes_eq {curPd fatherPd n : ℕ} (hapart : curPd + 4 * n ≤ fatherPd ∨ fatherPd + 4 * n ≤ curPd)
    (m : Memory) :
    copyPdes curPd fatherPd n m = fillWords curPd (fun i => readWord m (fatherPd + 4 * i)) n m := by
  induction n with
  | zero => rfl
  | succ n ih =>
    have hread : readWord (copyPdes curPd fatherPd n m) (fatherPd + 4 * n) =
        readWord m (fatherPd + 4 * n) := by
      rw [ih (by omega), readWord_congr fun x _ _ => fillWords_of_outside (by omega)]
    rw [copyPdes, fillWords, toWord_getPde, hread, ih (by omega)]

theorem uPdClone_spec (m : Memory) (hne : f ≠ d) :
    (∀ i < 1024, pde (uPdClone m (0x1000 * f) (0x1000 * d)) d i =
        if i < 768 then (pde m d i).readOnly else pde m d i) ∧
      (∀ i < 1024, pde (uPdClone m (0x1000 * f) (0x1000 * d)) f i =
        pde (uPdClone m (0x1000 * f) (0x1000 * d)) d i) ∧
      ∀ g, g ≠ f → g ≠ d → SameFrame m (uPdClone m (0x1000 * f) (0x1000 * d)) g := by
  have hclone : uPdClone m (0x1000 * f) (0x1000 * d) =
      fillWords (0x1000 * f) (fun i => readWord (clearWritable (0x1000 * d) 768 m) (0x1000 * d + 4 * i)) 1024
        (clearWritable (0x1000 * d) 768 m) :=
    copyPdes_eq (n := 1024) (by omega) _
  have hcleared := clearWritable_eq (0x1000 * d) 768 m
  generalize clearWritable (0x1000 * d) 768 m = m₁ at hclone hcleared
  generalize uPdClone m (0x1000 * f) (0x1000 * d) = m₂ at hclone ⊢
  have hout : ∀ x, x < 0x1000 * f ∨ 0x1000 * f + 0x1000 ≤ x → m₂ x = m₁ x := by
    intro x hx
    rw [hclone]
    exact fillWords_of_outside hx
  have hfather : SameFrame m₁ m₂ d := fun x h1 h2 => hout x (by omega)
  refine ⟨fun i hi => ?_, fun i hi => ?_, fun g hgf hgd x h1 h2 => ?_⟩
  · rw [hfather.pde hi]
    by_cases hu : i < 768
    · rw [if_pos hu, pde, hcleared, getPde, readWord_fillWords hu (Pde.toWord_lt _), Pde.ofWord_toWord, ← pde]
    · rw [if_neg hu, pde, hcleared, getPde, readWord_congr fun x _ _ => fillWords_of_outside (by omega),
        ← getPde, ← pde]
  · have hcopy : readWord m₂ (0x1000 * f + 4 * i) = readWord m₁ (0x1000 * d + 4 * i) := by
      rw [hclone]
      exact readWord_fillWords (f := fun i => readWord m₁ (0x1000 * d + 4 * i)) hi (readWord_lt _ _)
    rw [hfather.pde hi, pde, getPde, hcopy, ← getPde, ← pde]
  · rw [hout x (by omega), hcleared]
    exact fillWords_of_outside (by omega)

theorem uPdClone_tableFrame (m : Memory) (hne : f ≠ d) (hi : i < 1024) :
    tableFrame (uPdClone m (0x1000 * f) (0x1000 * d)) d i = tableFrame m d i ∧
      tableFrame (uPdClone m (0x1000 * f) (0x1000 * d)) f i = tableFrame m d i := by
  obtain ⟨hfather, hcopy, -⟩ := uPdClone_spec m hne
  have htable : tableFrame (uPdClone m (0x1000 * f) (0x1000 * d)) d i = tableFrame m d i := by
    rw [tableFrame, hfather i hi]
    split <;> rfl
  refine ⟨htable, ?_⟩
  rw [← htable, tableFrame, hcopy i hi, ← tableFrame]

/-! ## The invariant -/

/-- The directories in the frames `dirs`. They and the page tables that `PfHandler`
installs are in frames from `owned`; a page table serves one region only. -/
structure Spaces (m : Memory) (owned : Set ℕ) (dirs : List ℕ) : Prop where
  bound : ∀ f ∈ owned, 0x100 ≤ f ∧ f < 0x3f00
  direct : DirectTables m
  nodup : dirs.Nodup
  dir : ∀ d ∈ dirs, d = 1 ∨ d ∈ owned
  first : ∀ d ∈ dirs, tableFrame m d 0 = 0xc
  kernel : ∀ d ∈ dirs, ∀ i, 768 ≤ i → i < 1024 → pde m d i = initialPde i
  user : ∀ d ∈ dirs, ∀ i, 0 < i → i < 768 → tableFrame m d i ≠ 0 →
    tableFrame m d i ∈ owned ∧ tableFrame m d i ∉ dirs
  region : ∀ d ∈ dirs, ∀ e ∈ dirs, ∀ i j, 0 < i → i < 768 → 0 < j → j < 768 → tableFrame m d i ≠ 0 →
    tableFrame m d i = tableFrame m e j → i = j

variable {owned : Set ℕ} {dirs : List ℕ} {t v w : ℕ} {access : BitVec 8}

theorem DirectTables.congr (h : DirectTables m) (hsame : ∀ f, 0xd ≤ f → f < 0x1d → SameFrame m m' f) :
    DirectTables m' := by
  intro i hi j hj
  rw [← h i hi j hj, show 0xd000 + 0x1000 * i = 0x1000 * (0xd + i) by omega]
  exact (hsame (0xd + i) (by omega) (by omega)).readWord hj

theorem Spaces.dir_bounds (h : Spaces m owned dirs) (hd : d ∈ dirs) : d = 1 ∨ 0x100 ≤ d ∧ d < 0x3f00 :=
  (h.dir d hd).imp id fun ho => h.bound d ho

theorem Spaces.notMem_dirs (h : Spaces m owned dirs) (hf : f ∉ owned) (hb : 0x100 ≤ f) : f ∉ dirs := by
  intro hd
  rcases h.dir f hd with rfl | ho
  · omega
  · exact hf ho

theorem Spaces.tableFrame_cases (h : Spaces m owned dirs) (hd : d ∈ dirs) (hi : i < 768) :
    tableFrame m d i = 0 ∨ tableFrame m d i = 0xc ∧ i = 0 ∨
      tableFrame m d i ∈ owned ∧ tableFrame m d i ∉ dirs ∧ 0 < i := by
  by_cases h0 : i = 0
  · rw [h0, h.first d hd]
    exact Or.inr (Or.inl ⟨rfl, rfl⟩)
  · by_cases hz : tableFrame m d i = 0
    · exact Or.inl hz
    · have hpos := Nat.pos_of_ne_zero h0
      exact Or.inr (Or.inr ⟨(h.user d hd i hpos hi hz).1, (h.user d hd i hpos hi hz).2, hpos⟩)

theorem Spaces.tableFrame_notMem (h : Spaces m owned dirs) (hd : d ∈ dirs) (hi : i < 768) :
    tableFrame m d i ∉ dirs := by
  intro ht
  rcases h.tableFrame_cases hd hi with hz | ⟨hc, -⟩ | ⟨-, hn, -⟩
  · have := h.dir_bounds ht
    omega
  · have := h.dir_bounds ht
    omega
  · exact hn ht

theorem Spaces.tableFrame_bounds (h : Spaces m owned dirs) (hd : d ∈ dirs) (hi : i < 768) :
    tableFrame m d i < 0xd ∨ 0x100 ≤ tableFrame m d i ∧ tableFrame m d i < 0x3f00 := by
  rcases h.tableFrame_cases hd hi with hz | ⟨hc, -⟩ | ⟨ho, -⟩
  · omega
  · omega
  · exact Or.inr (h.bound _ ho)

theorem Spaces.congr (h : Spaces m owned dirs) (hdirect : DirectTables m')
    (htable : ∀ d ∈ dirs, ∀ i < 768, tableFrame m' d i = tableFrame m d i)
    (hkernel : ∀ d ∈ dirs, ∀ i, 768 ≤ i → i < 1024 → pde m' d i = pde m d i) : Spaces m' owned dirs := by
  refine ⟨h.bound, hdirect, h.nodup, h.dir, fun d hd => ?_, fun d hd i h1 h2 => ?_, fun d hd i h1 h2 hne => ?_,
    fun d hd e he i j h1 h2 h3 h4 hne heq => ?_⟩
  · rw [htable d hd 0 (by omega), h.first d hd]
  · rw [hkernel d hd i h1 h2, h.kernel d hd i h1 h2]
  · rw [htable d hd i h2] at hne ⊢
    exact h.user d hd i h1 h2 hne
  · rw [htable d hd i h2] at hne heq
    rw [htable e he j h4] at heq
    exact h.region d hd e he i j h1 h2 h3 h4 hne heq

theorem Spaces.mono (h : Spaces m owned dirs) (hf : 0x100 ≤ f ∧ f < 0x3f00) :
    Spaces m (insert f owned) dirs := by
  refine ⟨fun g hg => ?_, h.direct, h.nodup, fun d hd => (h.dir d hd).imp id Or.inr, h.first, h.kernel,
    fun d hd i h1 h2 hne => ?_, h.region⟩
  · rcases hg with rfl | hg
    · exact hf
    · exact h.bound g hg
  · exact ⟨Or.inr (h.user d hd i h1 h2 hne).1, (h.user d hd i h1 h2 hne).2⟩

/-! ## The steps -/

theorem Spaces.sameFrame_page (h : Spaces m owned dirs) {e : ℕ} (hd : d ∈ dirs) (he : e ∈ dirs) (hi : i < 768)
    (hj : j < 1024) (w : ℕ) : SameFrame m (writeWord m (0x1000 * tableFrame m d i + 4 * j) w) e := by
  refine sameFrame_writeWord m w hj fun heq => ?_
  rw [heq] at he
  exact h.tableFrame_notMem hd hi he

theorem Spaces.page (h : Spaces m owned dirs) (hd : d ∈ dirs) (hi : i < 768) (hj : j < 1024) (w : ℕ) :
    Spaces (writeWord m (0x1000 * tableFrame m d i + 4 * j) w) owned dirs := by
  refine h.congr (h.direct.congr fun g h1 h2 => sameFrame_writeWord m w hj ?_) (fun e he i' hi' => ?_)
    fun e he i' h1 h2 => ?_
  · have := h.tableFrame_bounds hd hi
    omega
  · exact (h.sameFrame_page hd he hi hj w).tableFrame (by omega)
  · exact (h.sameFrame_page hd he hi hj w).pde h2

theorem pde_setPde_self (m : Memory) (address : ℕ) :
    pde (setPde m (0x1000 * d + 4 * i) access address) d i = makePde access address :=
  getPde_writeWord _ _ _

theorem pde_setPde_of_ne (m : Memory) (address : ℕ) (hi : i < 1024) {e : ℕ} (hj : j < 1024)
    (hne : ¬ (e = d ∧ j = i)) : pde (setPde m (0x1000 * d + 4 * i) access address) e j = pde m e j := by
  rw [pde, getPde, setPde, readWord_writeWord_of_disjoint (by omega), ← getPde, ← pde]

theorem makePde_ptAddr (access : BitVec 8) (ht : t < 2 ^ 20) :
    (makePde access (0x1000 * t)).ptAddr.toNat = t := by
  rw [makePde, getPtAddrInPde, BitVec.toNat_ofNat, Nat.shiftRight_eq_div_pow,
    show (2 ^ 12 : ℕ) = 0x1000 from rfl, Nat.mul_div_cancel_left _ (by decide), Nat.mod_eq_of_lt ht]

theorem tableFrame_setPde_self (m : Memory) (d i : ℕ) (access : BitVec 8) (ht : t < 2 ^ 20) :
    tableFrame (setPde m (0x1000 * d + 4 * i) access (0x1000 * t)) d i = t := by
  rw [tableFrame, pde_setPde_self, makePde_ptAddr access ht]

theorem tableFrame_setPde_of_ne (m : Memory) (address : ℕ) (hi : i < 1024) {e : ℕ} (hj : j < 1024)
    (hne : ¬ (e = d ∧ j = i)) :
    tableFrame (setPde m (0x1000 * d + 4 * i) access address) e j = tableFrame m e j := by
  rw [tableFrame, pde_setPde_of_ne m address hi hj hne, ← tableFrame]

theorem Spaces.table (h : Spaces m owned dirs) (hd : d ∈ dirs) (h0 : 0 < i) (hi : i < 768)
    (ht : 0x100 ≤ t ∧ t < 0x3f00) (hfresh : t ∉ owned) :
    Spaces (setPde m (0x1000 * d + 4 * i) access (0x1000 * t)) (insert t owned) dirs := by
  have hself := tableFrame_setPde_self m d i access (show t < 2 ^ 20 by omega)
  have hother : ∀ e j, j < 1024 → ¬ (e = d ∧ j = i) →
      pde (setPde m (0x1000 * d + 4 * i) access (0x1000 * t)) e j = pde m e j := fun e j hj hne =>
    pde_setPde_of_ne m _ (by omega) hj hne
  have hsame : ∀ g, g ≠ d → SameFrame m (setPde m (0x1000 * d + 4 * i) access (0x1000 * t)) g := fun g hg =>
    sameFrame_writeWord m _ (by omega) hg
  generalize setPde m (0x1000 * d + 4 * i) access (0x1000 * t) = m' at hself hother hsame ⊢
  have htable : ∀ e j, j < 1024 → ¬ (e = d ∧ j = i) → tableFrame m' e j = tableFrame m e j := by
    intro e j hj hne
    rw [tableFrame, hother e j hj hne, ← tableFrame]
  have hd' := h.dir_bounds hd
  refine ⟨(h.mono ht).bound, h.direct.congr fun g h1 h2 => hsame g (by omega), h.nodup, (h.mono ht).dir,
    fun e he => ?_, fun e he j h1 h2 => ?_, fun e he j h1 h2 hne => ?_,
    fun e he e' he' j j' h1 h2 h3 h4 hne heq => ?_⟩
  · rw [htable e 0 (by omega) (by omega), h.first e he]
  · rw [hother e j h2 (by omega), h.kernel e he j h1 h2]
  · by_cases hji : e = d ∧ j = i
    · rw [hji.1, hji.2, hself]
      exact ⟨Or.inl rfl, h.notMem_dirs hfresh ht.1⟩
    · rw [htable e j (by omega) hji] at hne ⊢
      exact (h.mono ht).user e he j h1 h2 hne
  · have hold : ∀ e ∈ dirs, ∀ j, 0 < j → j < 768 → tableFrame m e j ≠ t := by
      intro e he j h1 h2 heq
      have hne : tableFrame m e j ≠ 0 := by omega
      exact hfresh (heq ▸ (h.user e he j h1 h2 hne).1)
    by_cases hji : e = d ∧ j = i
    · by_cases hji' : e' = d ∧ j' = i
      · rw [hji.2, hji'.2]
      · rw [hji.1, hji.2, hself, htable e' j' (by omega) hji'] at heq
        exact absurd heq.symm (hold e' he' j' h3 h4)
    · rw [htable e j (by omega) hji] at hne heq
      by_cases hji' : e' = d ∧ j' = i
      · rw [hji'.1, hji'.2, hself] at heq
        exact absurd heq (hold e he j h1 h2)
      · rw [htable e' j' (by omega) hji'] at heq
        exact h.region e he e' he' j j' h1 h2 h3 h4 hne heq

theorem Spaces.clone (h : Spaces m owned dirs) (hd : d ∈ dirs) (hf : 0x100 ≤ f ∧ f < 0x3f00)
    (hfresh : f ∉ owned) :
    Spaces (uPdClone m (0x1000 * f) (0x1000 * d)) (insert f owned) (f :: dirs) := by
  have hnew : f ∉ dirs := h.notMem_dirs hfresh hf.1
  have hne : f ≠ d := fun he => hnew (he ▸ hd)
  obtain ⟨hfather, hcopy, hframe⟩ := uPdClone_spec m hne
  have hclone := fun i hi => uPdClone_tableFrame m hne (i := i) hi
  generalize uPdClone m (0x1000 * f) (0x1000 * d) = m' at hfather hcopy hframe hclone ⊢
  have hbound := h.dir_bounds hd
  -- every old directory keeps its tables, and the new one has those of the father
  have htable : ∀ e ∈ dirs, ∀ i < 1024, tableFrame m' e i = tableFrame m e i := by
    intro e he i hi
    by_cases hed : e = d
    · rw [hed]
      exact (hclone i hi).1
    · exact (hframe e (fun hef => hnew (hef ▸ he)) hed).tableFrame hi
  have hsource : ∀ e ∈ f :: dirs, ∃ e₀ ∈ dirs, ∀ i < 1024, tableFrame m' e i = tableFrame m e₀ i := by
    intro e he
    rcases List.mem_cons.mp he with rfl | he
    · exact ⟨d, hd, fun i hi => (hclone i hi).2⟩
    · exact ⟨e, he, htable e he⟩
  have hkernel : ∀ e ∈ dirs, ∀ i, 768 ≤ i → i < 1024 → pde m' e i = initialPde i := by
    intro e he i h1 h2
    rw [← h.kernel e he i h1 h2]
    by_cases hed : e = d
    · rw [hed, hfather i h2, if_neg (by omega)]
    · exact (hframe e (fun hef => hnew (hef ▸ he)) hed).pde h2
  refine ⟨(h.mono hf).bound, h.direct.congr fun g h1 h2 => hframe g (by omega) (by omega),
    List.nodup_cons.mpr ⟨hnew, h.nodup⟩, fun e he => ?_, fun e he => ?_, fun e he i h1 h2 => ?_,
    fun e he i h1 h2 hne => ?_, fun e he e' he' i j h1 h2 h3 h4 hne heq => ?_⟩
  · rcases List.mem_cons.mp he with rfl | he
    · exact Or.inr (Or.inl rfl)
    · exact (h.mono hf).dir e he
  · obtain ⟨e₀, he₀, hsame⟩ := hsource e he
    rw [hsame 0 (by omega), h.first e₀ he₀]
  · rcases List.mem_cons.mp he with rfl | he
    · rw [hcopy i h2, hkernel d hd i h1 h2]
    · exact hkernel e he i h1 h2
  · obtain ⟨e₀, he₀, hsame⟩ := hsource e he
    rw [hsame i (by omega)] at hne ⊢
    obtain ⟨ho, hn⟩ := h.user e₀ he₀ i h1 h2 hne
    refine ⟨Or.inr ho, fun hmem => ?_⟩
    rcases List.mem_cons.mp hmem with heq | hmem
    · exact hfresh (heq ▸ ho)
    · exact hn hmem
  · obtain ⟨e₀, he₀, hsame⟩ := hsource e he
    obtain ⟨e₁, he₁, hsame'⟩ := hsource e' he'
    rw [hsame i (by omega)] at hne heq
    rw [hsame' j (by omega)] at heq
    exact h.region e₀ he₀ e₁ he₁ i j h1 h2 h3 h4 hne heq

/-! ## The walks -/

theorem Spaces.walk_direct (h : Spaces m owned dirs) (hd : d ∈ dirs) (hlow : 0xc0000000 ≤ v)
    (hhigh : v < 0xc4000000) :
    walk m (0x1000 * d) v = some (v - 0xc0000000) ∧
      (pde m d (v / 2 ^ 22)).access = kKPdeWritePresentAccess := by
  have hpde := h.kernel d hd (v / 2 ^ 22) (by omega) (by omega)
  constructor
  · refine h.direct.walk hlow hhigh ?_
    rw [← initialPde_direct (by omega) (by omega), ← hpde, pde, toWord_getPde]
  · rw [hpde, initialPde, if_neg (by omega), if_neg (by omega), if_pos (by omega)]
    rfl

theorem tableFrame_eq (m : Memory) (d i : ℕ) :
    tableFrame m d i = readWord m (0x1000 * d + 4 * i) / 2 ^ 12 := by
  have := readWord_lt m (0x1000 * d + 4 * i)
  rw [tableFrame, pde, getPde, Pde.ofWord, BitVec.toNat_ofNat, Nat.mod_eq_of_lt (by omega)]

theorem walk_add (m : Memory) (pd t : ℕ) {x : ℕ} (hx : x < 0x1000) :
    walk m pd (0x1000 * t + x) = (walk m pd (0x1000 * t)).map (· + x) := by
  have hregion : (0x1000 * t + x) / 2 ^ 22 = 0x1000 * t / 2 ^ 22 := by omega
  have hpage : (0x1000 * t + x) / 2 ^ 12 = 0x1000 * t / 2 ^ 12 := by omega
  rw [walk_eq, walk_eq, hregion, hpage]
  simp only
  split
  · split
    · rw [Option.map_some, show (0x1000 * t + x) % 0x1000 = x by omega, show 0x1000 * t % 0x1000 = 0 by omega,
        Nat.add_zero]
    · rfl
  · rfl

theorem walk_congr (hd : SameFrame m m' d) (ht : SameFrame m m' (tableFrame m d (v / 2 ^ 22)))
    (hv : v < 2 ^ 32) : walk m' (0x1000 * d) v = walk m (0x1000 * d) v := by
  have hpte := ht.readWord (show v / 2 ^ 12 % 1024 < 1024 by omega)
  rw [tableFrame_eq, Nat.mul_comm] at hpte
  rw [walk_eq, walk_eq, hd.readWord (show v / 2 ^ 22 < 1024 by omega)]
  simp only [show (2 ^ 12 : ℕ) = 0x1000 from rfl] at hpte ⊢
  rw [hpte]

/-- The address of the entry of the page table that the walk of `v` reaches. -/
def pteOf (m : Memory) (d v : ℕ) : ℕ := 0x1000 * tableFrame m d (v / 0x400000) + 4 * (v / 0x1000 % 1024)

theorem walk_entries (m : Memory) (d v : ℕ) :
    walk m (0x1000 * d) v =
      if (pde m d (v / 0x400000)).toWord % 2 = 1 ∧ readWord m (pteOf m d v) % 2 = 1 then
        some (readWord m (pteOf m d v) / 0x1000 * 0x1000 + v % 0x1000)
      else none := by
  rw [walk_eq, pteOf, pde, toWord_getPde, tableFrame_eq, Nat.mul_comm 0x1000 (_ / _)]
  simp only [show (2 ^ 22 : ℕ) = 0x400000 from rfl, show (2 ^ 12 : ℕ) = 0x1000 from rfl]
  split <;> simp_all

theorem walk_eq_of_readWord {m m' : Memory} (hdir : pde m' d (v / 0x400000) = pde m d (v / 0x400000))
    (hpte : readWord m' (pteOf m d v) = readWord m (pteOf m d v)) :
    walk m' (0x1000 * d) v = walk m (0x1000 * d) v := by
  have hsame : pteOf m' d v = pteOf m d v := by
    rw [pteOf, tableFrame, hdir, ← tableFrame, ← pteOf]
  rw [walk_entries, walk_entries, hsame, hdir, hpte]

/-- The directory in frame `d` leads the linear address of frame `t` to that frame. -/
def MappedToItself (m : Memory) (d t : ℕ) : Prop := walk m (0x1000 * d) (0x1000 * t) = some (0x1000 * t)

theorem MappedToItself.entry (h : MappedToItself m d t) (hj : j < 1024) :
    walk m (0x1000 * d) (0x1000 * t + 4 * j) = some (0x1000 * t + 4 * j) := by
  rw [walk_add _ _ _ (by omega), h]
  rfl

/-- The page table in frame `t` serves the region that frame `t` is in, and has an entry for itself. -/
structure OwnEntry (m : Memory) (d t : ℕ) : Prop where
  present : (pde m d (t / 1024)).toWord % 2 = 1
  frame : tableFrame m d (t / 1024) = t
  word : readWord m (0x1000 * t + 4 * (t % 1024)) = 0x1000 * t + 3

theorem OwnEntry.mapped (h : OwnEntry m d t) : MappedToItself m d t := by
  have hregion : 0x1000 * t / 0x400000 = t / 1024 := by omega
  have hpage : 0x1000 * t / 0x1000 = t := by omega
  rw [MappedToItself, walk_entries, pteOf, hregion, hpage, h.frame, h.word, if_pos ⟨h.present, by omega⟩,
    Option.some.injEq]
  omega

theorem OwnEntry.congr (h : OwnEntry m d t) {e : ℕ} (hpde : (pde m' e (t / 1024)).toWord % 2 = 1)
    (hframe : tableFrame m' e (t / 1024) = tableFrame m d (t / 1024)) (ht : SameFrame m m' t) :
    OwnEntry m' e t :=
  ⟨hpde, hframe.trans h.frame, (ht.readWord (by omega)).trans h.word⟩

theorem ownEntry_setPde (hne : t ≠ d) (ht : t < 2 ^ 20) (haccess : access.toNat % 2 = 1)
    (hword : readWord m (0x1000 * t + 4 * (t % 1024)) = 0x1000 * t + 3) :
    OwnEntry (setPde m (0x1000 * d + 4 * (t / 1024)) access (0x1000 * t)) d t := by
  refine ⟨?_, tableFrame_setPde_self m d _ access ht, ?_⟩
  · rw [pde_setPde_self, toWord_makePde_mod_two]
    exact haccess
  · rw [setPde, readWord_writeWord_of_disjoint (by omega), hword]

theorem OwnEntry.page (h : OwnEntry m d t) (hne : t ≠ d) (ht : t < 2 ^ 20) (hj : j < 1024)
    (hown : j ≠ t % 1024) (w : ℕ) :
    OwnEntry (writeWord m (0x1000 * t + 4 * j) w) d t := by
  have hsame : SameFrame m (writeWord m (0x1000 * t + 4 * j) w) d := sameFrame_writeWord m w hj hne.symm
  refine ⟨?_, ?_, ?_⟩
  · rw [hsame.pde (by omega), h.present]
  · rw [hsame.tableFrame (by omega), h.frame]
  · rw [readWord_writeWord_of_disjoint (by omega), h.word]

theorem OwnEntry.clone (h : OwnEntry m d t) (hne : f ≠ d) (ht : t < 0xc0000) (htf : t ≠ f) (htd : t ≠ d) :
    OwnEntry (uPdClone m (0x1000 * f) (0x1000 * d)) d t ∧ OwnEntry (uPdClone m (0x1000 * f) (0x1000 * d)) f t ∧
      SameFrame m (uPdClone m (0x1000 * f) (0x1000 * d)) t := by
  obtain ⟨hfather, hcopy, hframe⟩ := uPdClone_spec m hne
  obtain ⟨htable, htable'⟩ := uPdClone_tableFrame m hne (show t / 1024 < 1024 by omega)
  have hpde : (pde (uPdClone m (0x1000 * f) (0x1000 * d)) d (t / 1024)).toWord % 2 = 1 := by
    rw [hfather _ (by omega), if_pos (by omega), toWord_readOnly_mod_two, h.present]
  refine ⟨h.congr hpde htable (hframe t htf htd), h.congr ?_ htable' (hframe t htf htd), hframe t htf htd⟩
  rw [hcopy _ (by omega), hpde]

theorem walk_isSome_iff (m : Memory) (d v : ℕ) :
    (walk m (0x1000 * d) v).isSome ↔ (pde m d (v / 2 ^ 22)).toWord % 2 = 1 ∧
      readWord m (0x1000 * tableFrame m d (v / 2 ^ 22) + 4 * (v / 2 ^ 12 % 1024)) % 2 = 1 := by
  rw [walk_eq, pde, toWord_getPde, tableFrame_eq, Nat.mul_comm 0x1000 (_ / _)]
  by_cases h1 : readWord m (0x1000 * d + 4 * (v / 2 ^ 22)) % 2 = 1
  · rw [if_pos h1]
    simp only [h1, true_and]
    split <;> simp_all
  · rw [if_neg h1]
    exact ⟨fun h => absurd h (by decide), fun h => absurd h.1 h1⟩

theorem Spaces.region_eq (h : Spaces m owned dirs) {e : ℕ} (hd : d ∈ dirs) (he : e ∈ dirs) (hi : i < 768)
    (hj : j < 768) (hne : tableFrame m d i ≠ 0) (heq : tableFrame m d i = tableFrame m e j) : i = j := by
  rcases h.tableFrame_cases hd hi with hz | ⟨hc, rfl⟩ | ⟨ho, -, h0⟩
  · exact absurd hz hne
  · rcases h.tableFrame_cases he hj with hz | ⟨-, rfl⟩ | ⟨ho, -⟩
    · omega
    · rfl
    · have := h.bound _ ho
      omega
  · rcases h.tableFrame_cases he hj with hz | ⟨hc, -⟩ | ⟨-, -, h0'⟩
    · omega
    · have := h.bound _ ho
      omega
    · exact h.region d hd e he i j h0 hi h0' hj hne heq

theorem Spaces.walk_table (h : Spaces m owned dirs) {e : ℕ} (hd : d ∈ dirs) (he : e ∈ dirs) (hne : e ≠ d)
    (hi : i < 768) (hv : v < 0xc0000000) (address : ℕ) :
    walk (setPde m (0x1000 * d + 4 * i) access address) (0x1000 * e) v = walk m (0x1000 * e) v := by
  have hsame : ∀ g, g ≠ d → SameFrame m (setPde m (0x1000 * d + 4 * i) access address) g := fun g hg =>
    sameFrame_writeWord m _ (by omega) hg
  refine walk_congr (hsame e hne) (hsame _ fun heq => ?_) (by omega)
  exact h.tableFrame_notMem he (show v / 2 ^ 22 < 768 by omega) (heq ▸ hd)

theorem Spaces.walk_page (h : Spaces m owned dirs) {e : ℕ} (hd : d ∈ dirs) (he : e ∈ dirs) (hi : i < 768)
    (hj : j < 1024) (hne : tableFrame m d i ≠ 0) (hapart : tableFrame m e i ≠ tableFrame m d i)
    (hv : v < 0xc0000000) :
    walk (writeWord m (0x1000 * tableFrame m d i + 4 * j) w) (0x1000 * e) v = walk m (0x1000 * e) v := by
  have hsame : ∀ g, g ≠ tableFrame m d i →
      SameFrame m (writeWord m (0x1000 * tableFrame m d i + 4 * j) w) g := fun g hg =>
    sameFrame_writeWord m w hj hg
  refine walk_congr (hsame e fun heq => ?_) (hsame _ fun heq => ?_) (by omega)
  · exact h.tableFrame_notMem hd hi (heq ▸ he)
  · obtain rfl := h.region_eq hd he hi (show v / 2 ^ 22 < 768 by omega) hne heq.symm
    exact hapart heq

end XyOS.Paging
