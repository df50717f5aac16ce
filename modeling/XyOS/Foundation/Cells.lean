import Mathlib.Algebra.BigOperators.Group.Finset.Basic
import Mathlib.Algebra.Order.Ring.Int
import Mathlib.Data.Int.Interval
import Mathlib.Data.Set.Insert
import Mathlib.Tactic.Linarith
import Mathlib.Tactic.Ring

/-! Tilings of an integer interval by aligned cells of power-of-two size. A
tiling in which no two halves of one cell stand side by side is determined by
the interval alone. -/

namespace XyOS.Cells

structure Cell where
  kind : ℕ
  start : ℤ

def Cell.Covers (c : Cell) (x : ℤ) : Prop := c.start ≤ x ∧ x < c.start + 2 ^ c.kind

def Cell.Aligned (c : Cell) : Prop := (2 : ℤ) ^ c.kind ∣ c.start

theorem Cell.covers_start (c : Cell) : c.Covers c.start :=
  ⟨le_rfl, by have := pow_pos (show (0 : ℤ) < 2 by norm_num) c.kind; omega⟩

theorem nested {c d : Cell} {x : ℤ} (hc : c.Aligned) (hd : d.Aligned) (hk : c.kind ≤ d.kind)
    (hcx : c.Covers x) (hdx : d.Covers x) :
    d.start ≤ c.start ∧ c.start + 2 ^ c.kind ≤ d.start + 2 ^ d.kind := by
  obtain ⟨u, hu⟩ := hc
  obtain ⟨e, he⟩ := Nat.exists_eq_add_of_le hk
  obtain ⟨w, hw⟩ := hd
  obtain ⟨hc1, hc2⟩ := hcx
  obtain ⟨hd1, hd2⟩ := hdx
  have hpos : (0 : ℤ) < 2 ^ c.kind := by positivity
  have hpow : (2 : ℤ) ^ d.kind = 2 ^ c.kind * 2 ^ e := by rw [he, pow_add]
  rw [hw, hpow] at hd1 hd2 ⊢
  rw [hu] at hc1 hc2 ⊢
  have hlow : 2 ^ e * w < u + 1 := by
    have : (2 : ℤ) ^ c.kind * (2 ^ e * w) < 2 ^ c.kind * (u + 1) := by
      calc (2 : ℤ) ^ c.kind * (2 ^ e * w) = 2 ^ c.kind * 2 ^ e * w := by ring
        _ ≤ x := hd1
        _ < 2 ^ c.kind * u + 2 ^ c.kind := hc2
        _ = 2 ^ c.kind * (u + 1) := by ring
    exact lt_of_mul_lt_mul_left this hpos.le
  have hhigh : u < 2 ^ e * w + 2 ^ e := by
    have : (2 : ℤ) ^ c.kind * u < 2 ^ c.kind * (2 ^ e * w + 2 ^ e) := by
      calc (2 : ℤ) ^ c.kind * u ≤ x := hc1
        _ < 2 ^ c.kind * 2 ^ e * w + 2 ^ c.kind * 2 ^ e := hd2
        _ = 2 ^ c.kind * (2 ^ e * w + 2 ^ e) := by ring
    exact lt_of_mul_lt_mul_left this hpos.le
  constructor
  · calc (2 : ℤ) ^ c.kind * 2 ^ e * w = 2 ^ c.kind * (2 ^ e * w) := by ring
      _ ≤ 2 ^ c.kind * u := mul_le_mul_of_nonneg_left (by omega) hpos.le
  · calc (2 : ℤ) ^ c.kind * u + 2 ^ c.kind = 2 ^ c.kind * (u + 1) := by ring
      _ ≤ 2 ^ c.kind * (2 ^ e * w + 2 ^ e) := mul_le_mul_of_nonneg_left (by omega) hpos.le
      _ = 2 ^ c.kind * 2 ^ e * w + 2 ^ c.kind * 2 ^ e := by ring

theorem nested_eq {c d : Cell} {x : ℤ} (hc : c.Aligned) (hd : d.Aligned) (hk : c.kind = d.kind)
    (hcx : c.Covers x) (hdx : d.Covers x) : c = d := by
  have hstart : c.start = d.start :=
    le_antisymm (nested hd hc hk.ge hdx hcx).1 (nested hc hd hk.le hcx hdx).1
  cases c
  cases d
  simp_all

def around (k : ℕ) (x : ℤ) : Cell := ⟨k, 2 ^ k * (x / 2 ^ k)⟩

theorem around_aligned (k : ℕ) (x : ℤ) : (around k x).Aligned := Dvd.intro _ rfl

theorem around_covers (k : ℕ) (x : ℤ) : (around k x).Covers x := by
  have hpos : (0 : ℤ) < 2 ^ k := by positivity
  have h1 := Int.mul_ediv_add_emod x (2 ^ k)
  have h2 := Int.emod_nonneg x hpos.ne'
  have h3 := Int.emod_lt_of_pos x hpos
  constructor
  · change 2 ^ k * (x / 2 ^ k) ≤ x
    omega
  · change x < 2 ^ k * (x / 2 ^ k) + 2 ^ k
    omega

structure Tiling (lo hi : ℤ) (S : Set Cell) : Prop where
  aligned : ∀ c ∈ S, c.Aligned
  inside : ∀ c ∈ S, lo ≤ c.start ∧ c.start + 2 ^ c.kind ≤ hi
  disjoint : ∀ c ∈ S, ∀ d ∈ S, ∀ x, c.Covers x → d.Covers x → c = d
  cover : ∀ x, lo ≤ x → x < hi → ∃ c ∈ S, c.Covers x

def split (S : Set Cell) (k : ℕ) (o : ℤ) : Set Cell :=
  {c | (c ∈ S ∧ c ≠ ⟨k + 1, o⟩) ∨ c = ⟨k, o⟩ ∨ c = ⟨k, o + 2 ^ k⟩}

theorem halves_cover {k : ℕ} {o x : ℤ} :
    (Cell.mk (k + 1) o).Covers x ↔ (Cell.mk k o).Covers x ∨ (Cell.mk k (o + 2 ^ k)).Covers x := by
  have hpos : (0 : ℤ) < 2 ^ k := by positivity
  simp only [Cell.Covers, pow_succ]
  omega

theorem Tiling.split {lo hi : ℤ} {S : Set Cell} {k : ℕ} {o : ℤ} (h : Tiling lo hi S)
    (hc : ⟨k + 1, o⟩ ∈ S) : Tiling lo hi (split S k o) := by
  have hpos : (0 : ℤ) < 2 ^ k := by positivity
  have hal : (2 : ℤ) ^ (k + 1) ∣ o := h.aligned _ hc
  have hal' : (2 : ℤ) ^ k ∣ o := (pow_dvd_pow 2 (Nat.le_succ k)).trans hal
  have hin := h.inside _ hc
  simp only [pow_succ] at hin
  -- a cell that keeps its place meets neither half
  have hsep : ∀ c ∈ S, c ≠ ⟨k + 1, o⟩ → ∀ x, c.Covers x →
      ¬ ((Cell.mk k o).Covers x ∨ (Cell.mk k (o + 2 ^ k)).Covers x) := by
    intro c hcS hne x hx hh
    exact hne (h.disjoint c hcS _ hc x hx (halves_cover.mpr hh))
  refine ⟨?_, ?_, ?_, ?_⟩
  · rintro c (⟨hcS, _⟩ | rfl | rfl)
    · exact h.aligned c hcS
    · exact hal'
    · exact Int.dvd_add hal' dvd_rfl
  · rintro c (⟨hcS, _⟩ | rfl | rfl)
    · exact h.inside c hcS
    · exact ⟨hin.1, by change o + 2 ^ k ≤ hi; omega⟩
    · exact ⟨by change lo ≤ o + 2 ^ k; omega, by change o + 2 ^ k + 2 ^ k ≤ hi; omega⟩
  · rintro c (⟨hcS, hne⟩ | rfl | rfl) d (⟨hdS, hne'⟩ | rfl | rfl) x hcx hdx
    · exact h.disjoint c hcS d hdS x hcx hdx
    · exact absurd (Or.inl hdx) (hsep c hcS hne x hcx)
    · exact absurd (Or.inr hdx) (hsep c hcS hne x hcx)
    · exact absurd (Or.inl hcx) (hsep d hdS hne' x hdx)
    · rfl
    · simp only [Cell.Covers] at hcx hdx
      omega
    · exact absurd (Or.inr hcx) (hsep d hdS hne' x hdx)
    · simp only [Cell.Covers] at hcx hdx
      omega
    · rfl
  · intro x hlo hhi
    obtain ⟨c, hcS, hx⟩ := h.cover x hlo hhi
    by_cases hce : c = ⟨k + 1, o⟩
    · subst hce
      rcases halves_cover.mp hx with hl | hr
      · exact ⟨_, Or.inr (Or.inl rfl), hl⟩
      · exact ⟨_, Or.inr (Or.inr rfl), hr⟩
    · exact ⟨c, Or.inl ⟨hcS, hce⟩, hx⟩

theorem Tiling.extend {lo hi : ℤ} {S : Set Cell} {k : ℕ} (h : Tiling lo hi S) (hlo : lo ≤ hi)
    (hk : (2 : ℤ) ^ k ∣ hi) : Tiling lo (hi + 2 ^ k) (S ∪ {⟨k, hi⟩}) := by
  have hpos : (0 : ℤ) < 2 ^ k := by positivity
  have hsep : ∀ c ∈ S, ∀ x, c.Covers x → ¬ (Cell.mk k hi).Covers x := by
    intro c hc x hcx hx
    have hin := (h.inside c hc).2
    simp only [Cell.Covers] at hcx hx
    omega
  refine ⟨?_, ?_, ?_, ?_⟩
  · rintro c (hc | rfl)
    · exact h.aligned c hc
    · exact hk
  · rintro c (hc | rfl)
    · have := h.inside c hc
      exact ⟨this.1, by omega⟩
    · exact ⟨hlo, le_rfl⟩
  · rintro c (hc | rfl) d (hd | rfl) x hcx hdx
    · exact h.disjoint c hc d hd x hcx hdx
    · exact absurd hdx (hsep c hc x hcx)
    · exact absurd hcx (hsep d hd x hdx)
    · rfl
  · intro x h1 h2
    by_cases hx : x < hi
    · obtain ⟨c, hc, hcx⟩ := h.cover x h1 hx
      exact ⟨c, Or.inl hc, hcx⟩
    · exact ⟨_, Or.inr rfl, not_lt.mp hx, h2⟩

theorem Tiling.sum_two_pow {ι : Type*} {lo hi : ℤ} {I : Finset ι} {cell : ι → Cell} (h : Tiling lo hi (cell '' I))
    (hinj : Set.InjOn cell I) (hle : lo ≤ hi) : ((∑ i ∈ I, 2 ^ (cell i).kind : ℕ) : ℤ) = hi - lo := by
  let span := fun i => Finset.Ico (cell i).start ((cell i).start + 2 ^ (cell i).kind)
  have hspan : ∀ i, (span i).card = 2 ^ (cell i).kind := by
    intro i
    rw [Int.card_Ico, add_sub_cancel_left]
    exact Int.toNat_natCast (2 ^ (cell i).kind)
  have hunion : I.biUnion span = Finset.Ico lo hi := by
    ext x
    rw [Finset.mem_biUnion, Finset.mem_Ico]
    constructor
    · rintro ⟨i, hi, hx⟩
      have hx := Finset.mem_Ico.mp hx
      have hin := h.inside _ (Set.mem_image_of_mem cell hi)
      omega
    · rintro ⟨hlo, hhi⟩
      obtain ⟨c, ⟨i, hi, rfl⟩, hx⟩ := h.cover x hlo hhi
      exact ⟨i, hi, Finset.mem_Ico.mpr hx⟩
  have hdisjoint : (I : Set ι).PairwiseDisjoint span := by
    intro i hi j hj hij
    refine Finset.disjoint_left.mpr fun x hx hx' => hij (hinj hi hj ?_)
    exact h.disjoint _ (Set.mem_image_of_mem cell hi) _ (Set.mem_image_of_mem cell hj) x
      (Finset.mem_Ico.mp hx) (Finset.mem_Ico.mp hx')
  have hcard := Finset.card_biUnion hdisjoint
  rw [hunion, Int.card_Ico] at hcard
  simp only [hspan] at hcard
  rw [← hcard]
  omega

/-- No two halves of one cell are both present, below kind `K`. -/
def Coalesced (K : ℕ) (S : Set Cell) : Prop :=
  ∀ k o, k < K → (2 : ℤ) ^ (k + 1) ∣ o → ⟨k, o⟩ ∈ S → ⟨k, o + 2 ^ k⟩ ∉ S

variable {lo hi : ℤ} {S T : Set Cell} {K : ℕ}

theorem kind_lt_of_inside {k : ℕ} {o : ℤ} (hnot : (⟨k, o⟩ : Cell) ∉ S) {c : Cell} (hc : c ∈ S)
    (h1 : o ≤ c.start) (h2 : c.start + 2 ^ c.kind ≤ o + 2 ^ k) : c.kind < k := by
  by_contra hlt
  have hle : (2 : ℤ) ^ k ≤ 2 ^ c.kind := pow_le_pow_right₀ (by norm_num) (not_lt.mp hlt)
  have hstart : c.start = o := by omega
  have hkind : c.kind = k := by
    have hpow : (2 : ℤ) ^ c.kind ≤ 2 ^ k := by omega
    have := (pow_le_pow_iff_right₀ (show (1 : ℤ) < 2 by norm_num)).mp hpow
    omega
  exact hnot (by rw [← hstart, ← hkind]; exact hc)

theorem Tiling.filled_mem (h : Tiling lo hi S) (hS : Coalesced K S) (k : ℕ) (o : ℤ) (hk : k ≤ K)
    (ho : (2 : ℤ) ^ k ∣ o)
    (hfill : ∀ x, (Cell.mk k o).Covers x →
      ∃ c ∈ S, c.Covers x ∧ o ≤ c.start ∧ c.start + 2 ^ c.kind ≤ o + 2 ^ k) :
    ⟨k, o⟩ ∈ S := by
  induction k generalizing o with
  | zero =>
    by_contra hnot
    obtain ⟨c, hcS, -, h1, h2⟩ := hfill o (Cell.covers_start _)
    exact absurd (kind_lt_of_inside hnot hcS h1 h2) (Nat.not_lt_zero _)
  | succ k ih =>
    by_contra hnot
    have ho' : (2 : ℤ) ^ k ∣ o := (pow_dvd_pow 2 (Nat.le_succ k)).trans ho
    have hhalf : ∀ a, (a = o ∨ a = o + 2 ^ k) → (⟨k, a⟩ : Cell) ∈ S := by
      intro a ha
      have hda : (2 : ℤ) ^ k ∣ a := by
        rcases ha with rfl | rfl
        · exact ho'
        · exact Int.dvd_add ho' dvd_rfl
      refine ih a (by omega) hda fun x hx => ?_
      have hx' : (Cell.mk (k + 1) o).Covers x := by
        rw [halves_cover]
        rcases ha with rfl | rfl
        · exact Or.inl hx
        · exact Or.inr hx
      obtain ⟨c, hcS, hcx, h1, h2⟩ := hfill x hx'
      have hck : c.kind ≤ k := Nat.lt_succ_iff.mp (kind_lt_of_inside hnot hcS h1 h2)
      exact ⟨c, hcS, hcx, nested (d := ⟨k, a⟩) (h.aligned c hcS) hda hck hcx hx⟩
    exact hS k o (by omega) ho (hhalf o (Or.inl rfl)) (hhalf _ (Or.inr rfl))

theorem Tiling.parent_outside (h : Tiling lo hi S) (hS : Coalesced K S) {c p : Cell}
    (hc : c ∈ S) (hk : c.kind < K) (hp : p.Aligned) (hpk : p.kind = c.kind + 1)
    (hpc : p.Covers c.start) (hlo : lo ≤ p.start) (hhi : p.start + 2 ^ p.kind ≤ hi) : False := by
  have hmem : p ∈ S := by
    refine h.filled_mem hS p.kind p.start (by omega) hp fun x hx => ?_
    obtain ⟨d, hdS, hdx⟩ := h.cover x (hlo.trans hx.1) (lt_of_lt_of_le hx.2 hhi)
    refine ⟨d, hdS, hdx, ?_⟩
    by_cases hdk : d.kind ≤ p.kind
    · exact nested (h.aligned d hdS) hp hdk hdx hx
    · have hnest := nested hp (h.aligned d hdS) (by omega) hx hdx
      have hdc : d = c := by
        refine h.disjoint d hdS c hc c.start ⟨hnest.1.trans hpc.1, ?_⟩ c.covers_start
        exact lt_of_lt_of_le hpc.2 hnest.2
      rw [hdc] at hdk
      omega
  have heq := h.disjoint p hmem c hc c.start hpc c.covers_start
  rw [heq] at hpk
  omega

theorem Tiling.subset_of_coalesced (hS : Tiling lo hi S) (hT : Tiling lo hi T)
    (kS : ∀ c ∈ S, c.kind ≤ K) (kT : ∀ c ∈ T, c.kind ≤ K)
    (cS : Coalesced K S) (cT : Coalesced K T) : S ⊆ T := by
  intro c hc
  have hin := hS.inside c hc
  have hpos : (0 : ℤ) < 2 ^ c.kind := by positivity
  obtain ⟨d, hd, hdc⟩ := hT.cover c.start hin.1 (by omega)
  have hin' := hT.inside d hd
  rcases lt_trichotomy c.kind d.kind with hlt | heq | hgt
  · have hcov := around_covers (c.kind + 1) c.start
    have hal := around_aligned (c.kind + 1) c.start
    have hnest := nested hal (hT.aligned d hd) hlt hcov hdc
    exact (hS.parent_outside cS hc (lt_of_lt_of_le hlt (kT d hd)) hal rfl hcov
      (hin'.1.trans hnest.1) (hnest.2.trans hin'.2)).elim
  · rwa [nested_eq (hS.aligned c hc) (hT.aligned d hd) heq c.covers_start hdc]
  · have hnd := nested (hT.aligned d hd) (hS.aligned c hc) hgt.le hdc c.covers_start
    have hdpos : (0 : ℤ) < 2 ^ d.kind := by positivity
    have hcd : c.Covers d.start := ⟨hnd.1, by omega⟩
    have hcov := around_covers (d.kind + 1) d.start
    have hal := around_aligned (d.kind + 1) d.start
    have hnest := nested hal (hS.aligned c hc) hgt hcov hcd
    exact (hT.parent_outside cT hd (lt_of_lt_of_le hgt (kS c hc)) hal rfl hcov
      (hin.1.trans hnest.1) (hnest.2.trans hin.2)).elim

theorem Tiling.eq_of_coalesced (hS : Tiling lo hi S) (hT : Tiling lo hi T)
    (kS : ∀ c ∈ S, c.kind ≤ K) (kT : ∀ c ∈ T, c.kind ≤ K)
    (cS : Coalesced K S) (cT : Coalesced K T) : S = T :=
  (hS.subset_of_coalesced hT kS kT cS cT).antisymm (hT.subset_of_coalesced hS kT kS cT cS)

end XyOS.Cells
