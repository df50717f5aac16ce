import Mathlib.Algebra.Group.Nat.Defs

/-! Byte-addressed memory with little-endian 32-bit words. -/

namespace XyOS

abbrev Memory := ℕ → UInt8

def readWord (m : Memory) (a : ℕ) : ℕ :=
  (m a).toNat + 2 ^ 8 * (m (a + 1)).toNat + 2 ^ 16 * (m (a + 2)).toNat + 2 ^ 24 * (m (a + 3)).toNat

def writeWord (m : Memory) (a w : ℕ) : Memory := fun x =>
  if x = a then UInt8.ofNat w
  else if x = a + 1 then UInt8.ofNat (w / 2 ^ 8)
  else if x = a + 2 then UInt8.ofNat (w / 2 ^ 16)
  else if x = a + 3 then UInt8.ofNat (w / 2 ^ 24)
  else m x

variable {m : Memory} {a b w : ℕ}

theorem readWord_lt (m : Memory) (a : ℕ) : readWord m a < 2 ^ 32 := by
  have h0 := (m a).toNat_lt
  have h1 := (m (a + 1)).toNat_lt
  have h2 := (m (a + 2)).toNat_lt
  have h3 := (m (a + 3)).toNat_lt
  unfold readWord
  omega

theorem writeWord_of_lt_or_gt {x : ℕ} (h : x < a ∨ a + 4 ≤ x) : writeWord m a w x = m x := by
  unfold writeWord
  rw [if_neg (by omega), if_neg (by omega), if_neg (by omega), if_neg (by omega)]

theorem readWord_writeWord (hw : w < 2 ^ 32) : readWord (writeWord m a w) a = w := by
  have h1 : ¬ a + 1 = a := by omega
  have h2 : ¬ a + 2 = a ∧ ¬ a + 2 = a + 1 := by omega
  have h3 : ¬ a + 3 = a ∧ ¬ a + 3 = a + 1 ∧ ¬ a + 3 = a + 2 := by omega
  simp only [readWord, writeWord, if_true, h1, h2, h3, if_false, UInt8.toNat_ofNat']
  omega

theorem readWord_writeWord_of_disjoint (h : b + 4 ≤ a ∨ a + 4 ≤ b) :
    readWord (writeWord m a w) b = readWord m b := by
  unfold readWord
  rw [writeWord_of_lt_or_gt (by omega), writeWord_of_lt_or_gt (by omega),
    writeWord_of_lt_or_gt (by omega), writeWord_of_lt_or_gt (by omega)]

def fillWords (base : ℕ) (f : ℕ → ℕ) : ℕ → Memory → Memory
  | 0, m => m
  | n + 1, m => writeWord (fillWords base f n m) (base + 4 * n) (f n)

theorem fillWords_of_outside {base n x : ℕ} {f : ℕ → ℕ} (h : x < base ∨ base + 4 * n ≤ x) :
    fillWords base f n m x = m x := by
  induction n with
  | zero => rfl
  | succ n ih => rw [fillWords, writeWord_of_lt_or_gt (by omega), ih (by omega)]

theorem readWord_fillWords {base n j : ℕ} {f : ℕ → ℕ} (hj : j < n) (hf : f j < 2 ^ 32) :
    readWord (fillWords base f n m) (base + 4 * j) = f j := by
  induction n with
  | zero => omega
  | succ n ih =>
    rw [fillWords]
    by_cases hjn : j = n
    · rw [hjn] at hf ⊢
      rw [readWord_writeWord hf]
    · rw [readWord_writeWord_of_disjoint (by omega), ih (by omega)]

theorem readWord_fillWords_const {base n j : ℕ} (hj : j < n) (hw : w < 2 ^ 32) :
    readWord (fillWords base (fun _ => w) n m) (base + 4 * j) = w :=
  readWord_fillWords (f := fun _ => w) hj hw

theorem readWord_congr {m' : Memory} (h : ∀ x, a ≤ x → x < a + 4 → m' x = m x) :
    readWord m' a = readWord m a := by
  rw [readWord, readWord, h a (by omega) (by omega), h (a + 1) (by omega) (by omega),
    h (a + 2) (by omega) (by omega), h (a + 3) (by omega) (by omega)]

end XyOS
