import Mathlib.Data.Nat.Notation
import Mathlib.Logic.Function.Basic

/-! The bitmaps of `bitmap.h`. A bit is picked in its word by `i % sizeof(unsigned
int)`, so eight indices share every bit that is used. -/

namespace XyOS

abbrev Bitmap := ℕ → BitVec 32

/-- `1llu << i` after `i %= sizeof(unsigned int)`, cut to the word it is combined with. -/
def bitMask (i : ℕ) : BitVec 32 := 1#32 <<< (i % 4)

def setBitmap (bitmap : Bitmap) (i : ℕ) : Bitmap :=
  Function.update bitmap (i / 32) (bitmap (i / 32) ||| bitMask i)

def clearBitmap (bitmap : Bitmap) (i : ℕ) : Bitmap :=
  Function.update bitmap (i / 32) (bitmap (i / 32) &&& ~~~ bitMask i)

def isBitmapSet (bitmap : Bitmap) (i : ℕ) : Bool := bitmap (i / 32) &&& bitMask i != 0

def SameBit (i j : ℕ) : Prop := i / 32 = j / 32 ∧ i % 4 = j % 4

instance (i j : ℕ) : Decidable (SameBit i j) := inferInstanceAs (Decidable (_ ∧ _))

theorem bitMask_eq (i : ℕ) : bitMask i = BitVec.twoPow 32 (i % 4) := by
  rw [bitMask, BitVec.twoPow_eq]

theorem isBitmapSet_eq (bitmap : Bitmap) (i : ℕ) :
    isBitmapSet bitmap i = (bitmap (i / 32)).getLsbD (i % 4) := by
  have hne : BitVec.twoPow 32 (i % 4) ≠ 0 := by
    have : ∀ k < 4, BitVec.twoPow 32 k ≠ 0 := by decide
    exact this _ (Nat.mod_lt i (by decide))
  rw [isBitmapSet, bitMask_eq, BitVec.and_twoPow]
  cases (bitmap (i / 32)).getLsbD (i % 4) with
  | false => simp
  | true => simpa using hne

theorem isBitmapSet_setBitmap (bitmap : Bitmap) (i j : ℕ) :
    isBitmapSet (setBitmap bitmap i) j = (decide (SameBit i j) || isBitmapSet bitmap j) := by
  rw [isBitmapSet_eq, isBitmapSet_eq, setBitmap]
  by_cases hw : j / 32 = i / 32
  · rw [hw, Function.update_self, BitVec.getLsbD_or, bitMask_eq, BitVec.getLsbD_twoPow]
    have hlt : i % 4 < 32 := by omega
    simp [SameBit, hw, hlt, Bool.or_comm]
  · rw [Function.update_of_ne hw]
    simp [SameBit, Ne.symm hw]

theorem isBitmapSet_clearBitmap (bitmap : Bitmap) (i j : ℕ) :
    isBitmapSet (clearBitmap bitmap i) j = (!decide (SameBit i j) && isBitmapSet bitmap j) := by
  rw [isBitmapSet_eq, isBitmapSet_eq, clearBitmap]
  by_cases hw : j / 32 = i / 32
  · rw [hw, Function.update_self, BitVec.getLsbD_and, BitVec.getLsbD_not, bitMask_eq,
      BitVec.getLsbD_twoPow]
    have hlt : j % 4 < 32 := by omega
    have hlt' : i % 4 < 32 := by omega
    simp [SameBit, hw, hlt, hlt', Bool.and_comm]
  · rw [Function.update_of_ne hw]
    simp [SameBit, Ne.symm hw]

theorem clearBitmap_setBitmap {bitmap : Bitmap} {i : ℕ} (h : isBitmapSet bitmap i = false) :
    clearBitmap (setBitmap bitmap i) i = bitmap := by
  rw [isBitmapSet_eq] at h
  funext w
  rw [clearBitmap, setBitmap, Function.update_self, Function.update_idem]
  by_cases hw : w = i / 32
  · rw [hw, Function.update_self]
    apply BitVec.eq_of_getLsbD_eq
    intro k hk
    rw [BitVec.getLsbD_and, BitVec.getLsbD_or, BitVec.getLsbD_not, bitMask_eq, BitVec.getLsbD_twoPow]
    by_cases hki : i % 4 = k
    · rw [← hki, h]
      simp
    · simp [hki, hk]
  · rw [Function.update_of_ne hw]

theorem update_word_comm (bitmap : Bitmap) (v w : ℕ) (f g : BitVec 32 → BitVec 32)
    (h : v = w → ∀ x, g (f x) = f (g x)) :
    Function.update (Function.update bitmap v (f (bitmap v))) w (g (Function.update bitmap v (f (bitmap v)) w)) =
      Function.update (Function.update bitmap w (g (bitmap w))) v
        (f (Function.update bitmap w (g (bitmap w)) v)) := by
  by_cases hvw : v = w
  · subst hvw
    rw [Function.update_self, Function.update_self, Function.update_idem, Function.update_idem, h rfl]
  · rw [Function.update_of_ne (Ne.symm hvw), Function.update_of_ne hvw, Function.update_comm hvw]

theorem setBitmap_comm (bitmap : Bitmap) (i j : ℕ) :
    setBitmap (setBitmap bitmap i) j = setBitmap (setBitmap bitmap j) i := by
  refine update_word_comm bitmap (i / 32) (j / 32) (· ||| bitMask i) (· ||| bitMask j) ?_
  intro _ x
  rw [BitVec.or_assoc, BitVec.or_comm (bitMask i), BitVec.or_assoc]

theorem clearBitmap_comm (bitmap : Bitmap) (i j : ℕ) :
    clearBitmap (clearBitmap bitmap i) j = clearBitmap (clearBitmap bitmap j) i := by
  refine update_word_comm bitmap (i / 32) (j / 32) (· &&& ~~~ bitMask i) (· &&& ~~~ bitMask j) ?_
  intro _ x
  rw [BitVec.and_assoc, BitVec.and_comm (~~~ bitMask i), BitVec.and_assoc]

theorem setBitmap_clearBitmap_comm (bitmap : Bitmap) {i j : ℕ} (h : ¬ SameBit i j) :
    clearBitmap (setBitmap bitmap i) j = setBitmap (clearBitmap bitmap j) i := by
  refine update_word_comm bitmap (i / 32) (j / 32) (· ||| bitMask i) (· &&& ~~~ bitMask j) ?_
  intro hw x
  have hbit : i % 4 ≠ j % 4 := fun hbit => h ⟨hw, hbit⟩
  apply BitVec.eq_of_getLsbD_eq
  intro k hk
  rw [BitVec.getLsbD_or, BitVec.getLsbD_and, BitVec.getLsbD_and, BitVec.getLsbD_or, BitVec.getLsbD_not,
    bitMask_eq, bitMask_eq, BitVec.getLsbD_twoPow, BitVec.getLsbD_twoPow]
  by_cases hki : i % 4 = k
  · simp [hki, hk, show j % 4 ≠ k by omega]
  · simp [hki]

structure Independent (bitmap : Bitmap) (i j : ℕ) : Prop where
  set : isBitmapSet (setBitmap bitmap i) j = true ↔ j = i ∨ isBitmapSet bitmap j = true
  clear : isBitmapSet (clearBitmap bitmap i) j = true ↔ j ≠ i ∧ isBitmapSet bitmap j = true
  set_set : i ≠ j → setBitmap (setBitmap bitmap i) j = setBitmap (setBitmap bitmap j) i
  clear_clear : i ≠ j → clearBitmap (clearBitmap bitmap i) j = clearBitmap (clearBitmap bitmap j) i
  set_clear : i ≠ j → clearBitmap (setBitmap bitmap i) j = setBitmap (clearBitmap bitmap j) i
  restore : isBitmapSet bitmap i = false → clearBitmap (setBitmap bitmap i) i = bitmap

theorem independent_of_not_sameBit (bitmap : Bitmap) {i j : ℕ} (h : SameBit i j → i = j) :
    Independent bitmap i j where
  set := by
    rw [isBitmapSet_setBitmap, Bool.or_eq_true, decide_eq_true_iff]
    exact or_congr_left ⟨fun hs => (h hs).symm, fun hji => hji ▸ ⟨rfl, rfl⟩⟩
  clear := by
    rw [isBitmapSet_clearBitmap, Bool.and_eq_true, Bool.not_eq_true', decide_eq_false_iff_not]
    exact and_congr_left' ⟨fun hs hji => hs (hji ▸ ⟨rfl, rfl⟩), fun hji hs => hji (h hs).symm⟩
  set_set := fun _ => setBitmap_comm bitmap i j
  clear_clear := fun _ => clearBitmap_comm bitmap i j
  set_clear := fun hij => setBitmap_clearBitmap_comm bitmap fun hs => hij (h hs)
  restore := clearBitmap_setBitmap

theorem independent_iff (bitmap : Bitmap) (i j : ℕ) :
    Independent bitmap i j ↔ i = j ∨ i / 32 ≠ j / 32 ∨ i % 4 ≠ j % 4 := by
  constructor
  · intro h
    by_contra hcon
    have hs : SameBit i j := by
      rw [SameBit]
      omega
    have hij : j ≠ i := fun hji => hcon (.inl hji.symm)
    -- the set law needs the bit to be set before, the clear law needs it to be clear
    have hset := h.set
    have hclear := h.clear
    rw [isBitmapSet_setBitmap] at hset
    rw [isBitmapSet_clearBitmap] at hclear
    simp only [hs, hij, decide_true, Bool.true_or, Bool.not_true, Bool.false_and, false_or, ne_eq,
      not_false_eq_true, true_and, true_iff, Bool.false_eq_true, false_iff] at hset hclear
    exact hclear hset
  · intro h
    apply independent_of_not_sameBit
    rintro ⟨hw, hbit⟩
    omega

theorem not_independent_zero_four : isBitmapSet (setBitmap (fun _ => 0) 0) 4 = true ∧
    isBitmapSet (fun _ => 0) 4 = false ∧ ¬ Independent (fun _ => 0) 0 4 := by
  refine ⟨by decide, by decide, fun h => ?_⟩
  exact absurd (h.set.mp (by decide)) (by decide)

end XyOS
