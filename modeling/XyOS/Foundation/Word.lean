import Mathlib.Algebra.Group.Int.Defs
import Mathlib.Algebra.Group.Nat.Defs

/-! 32-bit unsigned arithmetic on naturals, and the ways in which a computation
over such words can fail to return. -/

namespace XyOS

inductive Fault
  | diverges
  | outOfBounds
  | blocked
  | pageFault
deriving DecidableEq, Repr

/-- A walk over 32-bit pointers that takes this many steps has met some pointer
twice, so it never ends. -/
def loopFuel : ℕ := 2 ^ 32

def u32 (n : ℕ) : ℕ := n % 2 ^ 32

def sub32 (a b : ℕ) : ℕ := (a + (2 ^ 32 - b % 2 ^ 32)) % 2 ^ 32

def ofInt32 (x : ℤ) : ℕ := (x % 2 ^ 32).toNat

theorem u32_of_lt {n : ℕ} (h : n < 2 ^ 32) : u32 n = n := Nat.mod_eq_of_lt h

theorem sub32_of_le {a b : ℕ} (hb : b ≤ a) (ha : a < 2 ^ 32) : sub32 a b = a - b := by
  unfold sub32
  omega

theorem ofInt32_natCast {n : ℕ} (h : n < 2 ^ 32) : ofInt32 (n : ℤ) = n := by
  unfold ofInt32
  omega

end XyOS
