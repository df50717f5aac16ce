import XyOS.Driver.ConsoleDefs

/-! `itoa` writes the canonical numeral of its argument. -/

namespace XyOS.Driver
open Text

inductive Conv
  | d | u | x
deriving DecidableEq

def Conv.char : Conv → UInt8
  | .d => 'd'.toUInt8
  | .u => 'u'.toUInt8
  | .x => 'x'.toUInt8

def Conv.base : Conv → ℕ
  | .d => 10
  | .u => 10
  | .x => 16

def Conv.value : Conv → BitVec 32 → ℤ
  | .d, w => w.toInt
  | .u, w => w.toNat
  | .x, w => w.toNat

def Conv.text (c : Conv) (d : BitVec 32) : List UInt8 := signedNumeral c.base (c.value d)

variable {m : Memory} {p p1 p2 b n ud fuel : ℕ}

theorem Conv.one_lt_base (c : Conv) : 1 < c.base := by cases c <;> decide

theorem Conv.base_le (c : Conv) : c.base ≤ 16 := by cases c <;> decide

theorem Conv.natAbs_value_lt (c : Conv) (d : BitVec 32) : (c.value d).natAbs < 2 ^ 32 := by
  have hnat := d.isLt
  have hlt := BitVec.toInt_lt (x := d)
  have hle := BitVec.le_toInt d
  cases c <;> simp only [Conv.value] <;> omega

theorem Conv.le_base_pow (c : Conv) : 2 ^ 32 ≤ c.base ^ 10 := by cases c <;> decide

theorem digitByte_eq (hn : n < 16) : digitByte n = (Nat.digitChar n).toUInt8 := by
  have h : ∀ n < 16, digitByte n = (Nat.digitChar n).toUInt8 := by decide
  exact h n hn

theorem putDigits_eq (hb : 1 < b) (hb16 : b ≤ 16) (hud : ud < fuel) :
    putDigits b fuel m p ud = .ok (writeBytes m p (digitBytes b ud), p + (digitBytes b ud).length) := by
  induction fuel generalizing m p ud with
  | zero => exact absurd hud (Nat.not_lt_zero ud)
  | succ fuel ih =>
    rw [putDigits, digitBytes_step hb, digitByte_eq ((Nat.mod_lt ud (by omega)).trans_le hb16)]
    by_cases hdiv : ud / b = 0
    · rw [if_pos hdiv, if_pos hdiv]
      rfl
    · have hud0 : 0 < ud := Nat.pos_of_ne_zero fun h0 => hdiv (by rw [h0, Nat.zero_div])
      have hless : ud / b < ud := Nat.div_lt_self hud0 hb
      rw [if_neg hdiv, if_neg hdiv, ih (by omega), writeBytes, List.length_cons]
      congr 2
      omega

theorem reverseDigits_eq (hfuel : p2 - p1 < fuel) : reverseDigits fuel m p1 p2 = .ok (mirror m p1 p2) := by
  induction fuel generalizing m p1 p2 with
  | zero => exact absurd hfuel (Nat.not_lt_zero _)
  | succ fuel ih =>
    rw [reverseDigits]
    split
    · next h => rw [ih (by omega), mirror_swap h]
    · next h => rw [mirror_of_le (by omega)]

theorem itoaDigits_eq (hb : 1 < b) (hb16 : b ≤ 16) (hud : ud < loopFuel) (hlen : ud < b ^ 10) :
    itoaDigits m p b ud = .ok (writeBytes m p (numeral b ud ++ [0])) := by
  have hshort := length_digitBytes_le hb (by omega) hlen
  have hfuel : p + (digitBytes b ud).length - 1 - p < loopFuel := by
    rw [loopFuel]
    omega
  have hwrite : Function.update (writeBytes m p (digitBytes b ud)) (p + (digitBytes b ud).length) 0
      = writeBytes m p (digitBytes b ud ++ [0]) := by
    rw [writeBytes_append]
    rfl
  rw [itoaDigits, putDigits_eq hb hb16 hud]
  change reverseDigits loopFuel (Function.update _ _ 0) p _ = _
  rw [hwrite, reverseDigits_eq hfuel, mirror_writeBytes _ _ (digitBytes_ne_nil b ud), numeral]

theorem toNat_neg_of_toInt_neg {d : BitVec 32} (hd : d.toInt < 0) : (-d).toNat = d.toInt.natAbs := by
  have hlt := d.isLt
  rw [BitVec.toInt_eq_toNat_cond] at hd ⊢
  rw [BitVec.toNat_neg]
  split at hd <;> split <;> omega

theorem itoa_sign (c : Conv) (d : BitVec 32) (m : Memory) (buf : ℕ) :
    itoa m buf c.char d = if c.value d < 0
      then itoaDigits (Function.update m buf '-'.toUInt8) (buf + 1) c.base (c.value d).natAbs
      else itoaDigits m buf c.base (c.value d).natAbs := by
  have hnonneg : ¬ ((d.toNat : ℤ) < 0) := by omega
  rw [itoa]
  cases c with
  | d =>
    by_cases hd : d.toInt < 0
    · -- the negation of the most negative integer wraps to itself, which is right as unsigned
      rw [if_pos ⟨rfl, hd⟩, toNat_neg_of_toInt_neg hd]
      exact (if_pos hd).symm
    · have hpos : d.toNat = d.toInt.natAbs := by
        have hlt := d.isLt
        rw [BitVec.toInt_eq_toNat_cond] at hd ⊢
        split at hd <;> split <;> omega
      rw [if_neg (fun h => hd h.2), hpos]
      exact (if_neg hd).symm
  | u =>
    rw [if_neg (fun h => absurd h.1 (by decide))]
    exact (if_neg hnonneg).symm
  | x =>
    rw [if_neg (fun h => absurd h.1 (by decide))]
    exact (if_neg hnonneg).symm

theorem itoa_eq (c : Conv) (d : BitVec 32) (m : Memory) (buf : ℕ) :
    itoa m buf c.char d = .ok (writeBytes m buf (c.text d ++ [0])) := by
  have hlt := c.natAbs_value_lt d
  have hdigits : ∀ m p, itoaDigits m p c.base (c.value d).natAbs
      = .ok (writeBytes m p (numeral c.base (c.value d).natAbs ++ [0])) :=
    fun m p => itoaDigits_eq c.one_lt_base c.base_le hlt (hlt.trans_le c.le_base_pow)
  rw [itoa_sign, Conv.text, signedNumeral]
  split
  · rw [hdigits, List.cons_append, writeBytes]
  · rw [hdigits]

theorem Conv.length_text_lt (c : Conv) (d : BitVec 32) : (c.text d).length < 12 :=
  Nat.lt_succ_of_le (length_signedNumeral_le c.one_lt_base (by omega)
    ((c.natAbs_value_lt d).trans_le c.le_base_pow))

theorem Conv.zero_notMem_text (c : Conv) (d : BitVec 32) : 0 ∉ c.text d :=
  zero_notMem_signedNumeral c.one_lt_base c.base_le _

theorem itoa_canonical (c : Conv) (d : BitVec 32) (m : Memory) (buf : ℕ) :
    ∃ m', itoa m buf c.char d = .ok m' ∧ IsString m' buf (c.text d) ∧
      parseSigned c.base (c.text d) = c.value d ∧ Canonical (c.text d) ∧
      (c.text d).length < 12 ∧ ∀ x, x < buf ∨ buf + 12 ≤ x → m' x = m x := by
  have hlen := c.length_text_lt d
  refine ⟨_, itoa_eq c d m buf, isString_writeBytes (c.zero_notMem_text d),
    parseSigned_signedNumeral c.one_lt_base c.base_le _,
    canonical_signedNumeral c.one_lt_base c.base_le _, hlen, ?_⟩
  intro x hx
  refine writeBytes_of_outside ?_
  rw [List.length_append, List.length_singleton]
  omega

example : Conv.d.text (BitVec.intMin 32) = "-2147483648".toList.map Char.toUInt8 := by decide

end XyOS.Driver
