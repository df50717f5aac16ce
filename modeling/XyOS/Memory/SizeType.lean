import Mathlib.Data.Nat.Bitwise
import Mathlib.Data.Nat.Log
import Mathlib.Order.Bounds.Basic
import Mathlib.Tactic.NormNum
import Mathlib.Tactic.Positivity
import XyOS.Memory.DirectMappingDefs

/-! `GetMemBlockSizeType` rounds up to a power of two. -/

namespace XyOS.DirectMapping

theorem shiftRight_eq_one_iff {n i : ℕ} (hn : n ≠ 0) : n >>> i = 1 ↔ Nat.log 2 n = i := by
  rw [Nat.shiftRight_eq_div_pow, Nat.log_eq_iff (Or.inr ⟨by norm_num, hn⟩), pow_succ,
    Nat.div_eq_iff (by positivity)]
  constructor
  · rintro ⟨h1, h2⟩
    omega
  · rintro ⟨h1, h2⟩
    omega

theorem topBit_eq_log {n : ℕ} (hn : n ≠ 0) (m i : ℕ) (hi : i ≤ Nat.log 2 n)
    (hm : Nat.log 2 n < i + m) : topBit n m i = Nat.log 2 n := by
  induction m generalizing i with
  | zero => omega
  | succ m ih =>
    rw [topBit]
    by_cases h : n >>> i = 1
    · rw [if_pos h, (shiftRight_eq_one_iff hn).mp h]
    · rw [if_neg h]
      have hne : Nat.log 2 n ≠ i := fun e => h ((shiftRight_eq_one_iff hn).mpr e)
      exact ih (i + 1) (by omega) (by omega)

theorem and_pow_log {n : ℕ} (hn : n ≠ 0) : n &&& 2 ^ Nat.log 2 n = 2 ^ Nat.log 2 n := by
  have hlow := Nat.pow_log_le_self 2 hn
  have hbit : n.testBit (Nat.log 2 n) = true := by
    have h1 : n / 2 ^ Nat.log 2 n = 1 := by
      rw [← Nat.shiftRight_eq_div_pow]
      exact (shiftRight_eq_one_iff hn).mpr rfl
    simp [Nat.testBit_eq_decide_div_mod_eq, h1]
  rw [Nat.and_two_pow, hbit]
  simp

theorem getMemBlockSizeType_eq_clog {n : ℕ} (hn : n ≠ 0) (hlt : n < 2 ^ 32) :
    getMemBlockSizeType n = Nat.clog 2 n := by
  have hlog : Nat.log 2 n < 32 := Nat.log_lt_of_lt_pow hn hlt
  have hlow := Nat.pow_log_le_self 2 hn
  have hhigh := Nat.lt_pow_succ_log_self (show 1 < 2 by norm_num) n
  simp only [getMemBlockSizeType, ofInt32_natCast hlt, topBit_eq_log hn 32 0 (Nat.zero_le _) (by omega),
    Nat.mod_eq_of_lt hlog, Nat.one_shiftLeft, and_pow_log hn]
  by_cases he : 2 ^ Nat.log 2 n = n
  · rw [if_pos he]
    nth_rewrite 2 [← he]
    rw [Nat.clog_pow 2 _ (by norm_num)]
  · rw [if_neg he]
    apply le_antisymm
    · exact (Nat.lt_clog_iff_pow_lt (by norm_num)).mpr (lt_of_le_of_ne hlow he)
    · exact Nat.clog_le_of_le_pow hhigh.le

theorem getMemBlockSizeType_le {n m : ℕ} (hn : n ≠ 0) (hle : n ≤ 2 ^ m) (hm : m < 32) :
    getMemBlockSizeType n ≤ m := by
  have hlt : n < 2 ^ 32 := lt_of_le_of_lt hle (Nat.pow_lt_pow_right (by norm_num) hm)
  rw [getMemBlockSizeType_eq_clog hn hlt]
  exact Nat.clog_le_of_le_pow hle

/-! ## Both functions on `int` -/

/-- `(int) (1u << size_type)`, the count of the shift taken modulo 32. -/
def getMemBlockSizeInt (sizeType : ℕ) : ℤ := (1#32 <<< (sizeType % 32)).toInt

variable {n k : ℕ} {size : ℤ}

theorem getMemBlockSizeInt_eq (hk : k ≤ 30) : getMemBlockSizeInt k = getMemBlockSize k := by
  have hlt : 2 ^ k < 2 ^ 31 := Nat.pow_lt_pow_right (by norm_num) (by omega)
  have hnat : (1#32 <<< k).toNat = 2 ^ k := by
    rw [BitVec.toNat_shiftLeft, BitVec.toNat_ofNat, Nat.mod_eq_of_lt (show 1 < 2 ^ 32 by norm_num),
      Nat.one_shiftLeft, Nat.mod_eq_of_lt (by omega)]
  rw [getMemBlockSizeInt, Nat.mod_eq_of_lt (show k < 32 by omega), getMemBlockSize,
    BitVec.toInt_eq_toNat_of_lt (by rw [hnat]; omega), hnat]

theorem isLeast_pow_clog {b : ℕ} (hb : 1 < b) (n : ℕ) :
    IsLeast {w : ℤ | (n : ℤ) ≤ w ∧ ∃ j : ℕ, w = (b : ℤ) ^ j} ((b ^ Nat.clog b n : ℕ) : ℤ) := by
  constructor
  · exact ⟨Nat.cast_le.mpr (Nat.le_pow_clog hb n), Nat.clog b n, Nat.cast_pow b _⟩
  · rintro w ⟨hw, j, rfl⟩
    rw [← Nat.cast_pow] at hw ⊢
    have hj : Nat.clog b n ≤ j := Nat.clog_le_of_le_pow (Nat.cast_le.mp hw)
    exact Nat.cast_le.mpr (Nat.pow_le_pow_right (Nat.zero_lt_of_lt hb) hj)

theorem getMemBlockSizeType_natCast (hn : 1 ≤ n) (hle : n ≤ 2 ^ 30) : getMemBlockSizeType n = Nat.clog 2 n :=
  getMemBlockSizeType_eq_clog (by omega) (by omega)

theorem getMemBlockSize_isLeast (hone : 1 ≤ size) (hle : size ≤ 2 ^ 30) :
    IsLeast {w : ℤ | size ≤ w ∧ ∃ j : ℕ, w = 2 ^ j} (getMemBlockSizeInt (getMemBlockSizeType size)) := by
  obtain ⟨n, rfl⟩ := Int.eq_ofNat_of_zero_le (show 0 ≤ size by omega)
  have hle : n ≤ 2 ^ 30 := by omega
  rw [getMemBlockSizeType_natCast (by omega) hle, getMemBlockSizeInt_eq (Nat.clog_le_of_le_pow hle)]
  exact isLeast_pow_clog (by norm_num) n

theorem getMemBlockSizeType_mono {size' : ℤ} (hone : 1 ≤ size) (hsize : size ≤ size') (hle : size' ≤ 2 ^ 30) :
    getMemBlockSizeType size ≤ getMemBlockSizeType size' := by
  obtain ⟨m, rfl⟩ := Int.eq_ofNat_of_zero_le (show 0 ≤ size by omega)
  obtain ⟨n, rfl⟩ := Int.eq_ofNat_of_zero_le (show 0 ≤ size' by omega)
  rw [getMemBlockSizeType_natCast (by omega) (by omega), getMemBlockSizeType_natCast (by omega) (by omega)]
  exact Nat.clog_mono_right 2 (by omega)

theorem getMemBlockSizeType_getMemBlockSizeInt (hk : k ≤ 30) :
    getMemBlockSizeType (getMemBlockSizeInt k) = k := by
  have hle : 2 ^ k ≤ 2 ^ 30 := Nat.pow_le_pow_right (by norm_num) hk
  rw [getMemBlockSizeInt_eq hk, getMemBlockSize, getMemBlockSizeType_natCast Nat.one_le_two_pow hle,
    Nat.clog_pow 2 k (by norm_num)]

theorem size_rounding :
    (∀ size : ℤ, 1 ≤ size → size ≤ 2 ^ 30 →
      IsLeast {w : ℤ | size ≤ w ∧ ∃ j : ℕ, w = 2 ^ j} (getMemBlockSizeInt (getMemBlockSizeType size))) ∧
    (∀ size size' : ℤ, 1 ≤ size → size ≤ size' → size' ≤ 2 ^ 30 →
      getMemBlockSizeType size ≤ getMemBlockSizeType size') ∧
    ∀ k ≤ 30, getMemBlockSizeType (getMemBlockSizeInt k) = k :=
  ⟨fun _ => getMemBlockSize_isLeast, fun _ _ => getMemBlockSizeType_mono,
    fun _ => getMemBlockSizeType_getMemBlockSizeInt⟩

theorem size_rounding_page : getMemBlockSizeInt (getMemBlockSizeType 4097) = 8192 ∧
    IsLeast {w : ℤ | 4097 ≤ w ∧ ∃ j : ℕ, w = 2 ^ j} (getMemBlockSizeInt (getMemBlockSizeType 4097)) :=
  ⟨by decide, size_rounding.1 4097 (by decide) (by decide)⟩

end XyOS.DirectMapping
