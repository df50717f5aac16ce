import Mathlib.Data.Nat.Digits.Lemmas
import Mathlib.Logic.Function.Basic
import XyOS.Foundation.Bytes

/-! Texts in byte memory, and the numerals of natural numbers. -/

namespace XyOS.Text

def writeBytes (m : Memory) (a : ℕ) : List UInt8 → Memory
  | [] => m
  | c :: l => writeBytes (Function.update m a c) (a + 1) l

structure IsString (m : Memory) (a : ℕ) (l : List UInt8) : Prop where
  bytes : ∀ i (h : i < l.length), m (a + i) = l[i]
  terminated : m (a + l.length) = 0
  nonzero : 0 ∉ l

variable {m : Memory} {a x i p1 p2 : ℕ} {c : UInt8} {l : List UInt8}

theorem IsString.head (h : IsString m a (c :: l)) : m a = c := h.bytes 0 (Nat.zero_lt_succ _)

theorem IsString.head_ne_zero (h : IsString m a (c :: l)) : m a ≠ 0 := by
  rw [h.head]
  rintro rfl
  exact h.nonzero List.mem_cons_self

theorem IsString.tail (h : IsString m a (c :: l)) : IsString m (a + 1) l where
  bytes := fun i hi => by
    rw [show a + 1 + i = a + (i + 1) by omega, h.bytes (i + 1) (Nat.succ_lt_succ hi),
      List.getElem_cons_succ]
  terminated := by
    rw [show a + 1 + l.length = a + (l.length + 1) by omega]
    exact h.terminated
  nonzero := fun h0 => h.nonzero (List.mem_cons_of_mem c h0)

theorem IsString.drop {l' : List UInt8} (h : IsString m a (l' ++ l)) : IsString m (a + l'.length) l := by
  induction l' generalizing a with
  | nil => exact h
  | cons c l' ih =>
    rw [List.length_cons, show a + (l'.length + 1) = a + 1 + l'.length by omega]
    exact ih h.tail

theorem writeBytes_of_outside (h : x < a ∨ a + l.length ≤ x) : writeBytes m a l x = m x := by
  induction l generalizing m a with
  | nil => rfl
  | cons c l ih =>
    rw [List.length_cons] at h
    rw [writeBytes, ih (by omega), Function.update_of_ne (by omega)]

theorem writeBytes_apply (h : i < l.length) : writeBytes m a l (a + i) = l[i] := by
  induction l generalizing m a i with
  | nil => exact absurd h (Nat.not_lt_zero i)
  | cons c l ih =>
    rw [writeBytes]
    cases i with
    | zero =>
      rw [writeBytes_of_outside (by omega), Nat.add_zero, Function.update_self, List.getElem_cons_zero]
    | succ i =>
      rw [List.length_cons] at h
      rw [show a + (i + 1) = a + 1 + i by omega, ih (by omega), List.getElem_cons_succ]

theorem isString_writeBytes (h : 0 ∉ l) : IsString (writeBytes m a (l ++ [0])) a l where
  bytes := fun i hi => by
    rw [writeBytes_apply (by rw [List.length_append]; omega), List.getElem_append_left hi]
  terminated := by
    rw [writeBytes_apply (by rw [List.length_append, List.length_singleton]; omega),
      List.getElem_append_right (le_refl _)]
    simp
  nonzero := h

theorem writeBytes_append (m : Memory) (a : ℕ) (l l' : List UInt8) :
    writeBytes m a (l ++ l') = writeBytes (writeBytes m a l) (a + l.length) l' := by
  induction l generalizing m a with
  | nil => rfl
  | cons c l ih =>
    rw [List.cons_append, writeBytes, ih, writeBytes, List.length_cons,
      show a + 1 + l.length = a + (l.length + 1) by omega]

def mirror (m : Memory) (lo hi : ℕ) : Memory := fun x => if lo ≤ x ∧ x ≤ hi then m (lo + hi - x) else m x

theorem mirror_swap (h : p1 < p2) :
    mirror (Function.update (Function.update m p1 (m p2)) p2 (m p1)) (p1 + 1) (p2 - 1) = mirror m p1 p2 := by
  funext x
  simp only [mirror]
  by_cases h1 : x = p1
  · rw [if_neg (by omega), if_pos (by omega), h1, Function.update_of_ne (by omega), Function.update_self,
      Nat.add_sub_cancel_left]
  · by_cases h2 : x = p2
    · rw [if_neg (by omega), if_pos (by omega), h2, Function.update_self, Nat.add_sub_cancel]
    · by_cases hin : p1 < x ∧ x < p2
      · rw [if_pos (by omega), if_pos (by omega), Function.update_of_ne (by omega),
          Function.update_of_ne (by omega)]
        congr 1
        omega
      · rw [if_neg (by omega), if_neg (by omega), Function.update_of_ne h2, Function.update_of_ne h1]

theorem mirror_of_le (h : p2 ≤ p1) : mirror m p1 p2 = m := by
  funext x
  rw [mirror]
  split
  · next hx =>
    congr 1
    omega
  · rfl

theorem mirror_writeBytes (m : Memory) (a : ℕ) (hl : l ≠ []) (l' : List UInt8) :
    mirror (writeBytes m a (l ++ l')) a (a + l.length - 1) = writeBytes m a (l.reverse ++ l') := by
  have hpos := List.length_pos_iff.mpr hl
  funext x
  rw [mirror]
  split
  · next hx =>
    obtain ⟨i, rfl⟩ := Nat.exists_eq_add_of_le hx.1
    have hi : i < l.length := by omega
    rw [show a + (a + l.length - 1) - (a + i) = a + (l.length - 1 - i) by omega,
      writeBytes_apply (by rw [List.length_append]; omega),
      writeBytes_apply (by rw [List.length_append, List.length_reverse]; omega),
      List.getElem_append_left (by omega), List.getElem_append_left (by rw [List.length_reverse]; omega),
      List.getElem_reverse]
  · next hx =>
    rw [writeBytes_append, writeBytes_append, List.length_reverse]
    by_cases hin : a + l.length ≤ x ∧ x < a + l.length + l'.length
    · obtain ⟨i, rfl⟩ := Nat.exists_eq_add_of_le hin.1
      rw [writeBytes_apply (by omega), writeBytes_apply (by omega)]
    · rw [writeBytes_of_outside (by omega), writeBytes_of_outside (by omega),
        writeBytes_of_outside (by omega), writeBytes_of_outside (by rw [List.length_reverse]; omega)]

/-! ## Numerals -/

/-- The digits of `n`, the least significant one first. -/
def digitsOf (b n : ℕ) : List ℕ := if n = 0 then [0] else b.digits n

variable {b n k d : ℕ}

theorem digitsOf_step (hb : 1 < b) (n : ℕ) :
    digitsOf b n = if n / b = 0 then [n % b] else n % b :: digitsOf b (n / b) := by
  by_cases hn : n = 0
  · rw [hn, Nat.zero_div, if_pos rfl, Nat.zero_mod, digitsOf, if_pos rfl]
  · rw [digitsOf, if_neg hn, Nat.digits_def' hb (Nat.pos_of_ne_zero hn)]
    split
    · next hdiv => rw [hdiv, Nat.digits_zero]
    · next hdiv => rw [digitsOf, if_neg hdiv]

theorem digitsOf_ne_nil (b n : ℕ) : digitsOf b n ≠ [] := by
  rw [digitsOf]
  split
  · exact List.cons_ne_nil _ _
  · next hn => exact Nat.digits_ne_nil_iff_ne_zero.mpr hn

theorem ofDigits_digitsOf (b n : ℕ) : Nat.ofDigits b (digitsOf b n) = n := by
  rw [digitsOf]
  split
  · next hn => rw [hn, Nat.ofDigits_singleton]
  · exact Nat.ofDigits_digits b n

theorem digitsOf_lt (hb : 1 < b) (hd : d ∈ digitsOf b n) : d < b := by
  rw [digitsOf] at hd
  split at hd
  · rw [List.mem_singleton.mp hd]
    omega
  · exact Nat.digits_lt_base hb hd

theorem length_digitsOf_le (hb : 1 < b) (hk : 0 < k) (hn : n < b ^ k) : (digitsOf b n).length ≤ k := by
  rw [digitsOf]
  split
  · exact hk
  · exact (Nat.digits_length_le_iff hb n).mpr hn

theorem getLast_digitsOf (b : ℕ) (hn : n ≠ 0) : (digitsOf b n).getLast (digitsOf_ne_nil b n) ≠ 0 := by
  simp only [digitsOf, if_neg hn]
  exact Nat.getLast_digit_ne_zero b hn

def digitBytes (b n : ℕ) : List UInt8 := (digitsOf b n).map fun d => (Nat.digitChar d).toUInt8

theorem digitBytes_ne_nil (b n : ℕ) : digitBytes b n ≠ [] := by
  rw [digitBytes, ne_eq, List.map_eq_nil_iff]
  exact digitsOf_ne_nil b n

theorem digitBytes_step (hb : 1 < b) (n : ℕ) :
    digitBytes b n = if n / b = 0 then [(Nat.digitChar (n % b)).toUInt8]
      else (Nat.digitChar (n % b)).toUInt8 :: digitBytes b (n / b) := by
  rw [digitBytes, digitsOf_step hb]
  split
  · rfl
  · rw [List.map_cons, digitBytes]

theorem length_digitBytes_le (hb : 1 < b) (hk : 0 < k) (hn : n < b ^ k) : (digitBytes b n).length ≤ k := by
  rw [digitBytes, List.length_map]
  exact length_digitsOf_le hb hk hn

def numeral (b n : ℕ) : List UInt8 := (digitBytes b n).reverse

def digitValue (c : UInt8) : ℕ := if c ≤ '9'.toUInt8 then c.toNat - '0'.toNat else c.toNat - 'a'.toNat + 10

def parse (b : ℕ) (l : List UInt8) : ℕ := l.foldl (fun v c => digitValue c + b * v) 0

theorem digitValue_digitChar (hd : d < 16) : digitValue (Nat.digitChar d).toUInt8 = d := by
  have h : ∀ d < 16, digitValue (Nat.digitChar d).toUInt8 = d := by decide
  exact h d hd

theorem parse_numeral (hb : 1 < b) (hb16 : b ≤ 16) (n : ℕ) : parse b (numeral b n) = n := by
  have hdigits : ∀ d ∈ digitsOf b n, ∀ v, digitValue (Nat.digitChar d).toUInt8 + b * v = d + b * v := by
    intro d hd v
    rw [digitValue_digitChar (Nat.lt_of_lt_of_le (digitsOf_lt hb hd) hb16)]
  calc parse b (numeral b n)
      = (digitsOf b n).foldr (fun d v => digitValue (Nat.digitChar d).toUInt8 + b * v) 0 := by
        rw [parse, numeral, digitBytes, List.foldl_reverse, List.foldr_map]
    _ = (digitsOf b n).foldr (fun d v => d + b * v) 0 := List.foldr_ext _ _ _ hdigits
    _ = Nat.ofDigits b (digitsOf b n) := (Nat.ofDigits_eq_foldr b (digitsOf b n)).symm
    _ = n := ofDigits_digitsOf b n

theorem mem_numeral (hb : 1 < b) (hb16 : b ≤ 16) (hc : c ∈ numeral b n) :
    c ≠ 0 ∧ c ≠ '-'.toUInt8 := by
  have h : ∀ d < 16, (Nat.digitChar d).toUInt8 ≠ 0 ∧ (Nat.digitChar d).toUInt8 ≠ '-'.toUInt8 := by decide
  obtain ⟨d, hd, rfl⟩ := List.mem_map.mp (List.mem_reverse.mp hc)
  exact h d (Nat.lt_of_lt_of_le (digitsOf_lt hb hd) hb16)

theorem numeral_leading (hb : 1 < b) (hb16 : b ≤ 16) (h : numeral b n = '0'.toUInt8 :: l) :
    n = 0 ∧ l = [] := by
  rw [numeral, digitBytes, List.reverse_eq_cons_iff] at h
  obtain ⟨ds, ds', hds, -, hlast⟩ := List.map_eq_append_iff.mp h
  obtain ⟨d, rfl, hd⟩ := List.map_eq_singleton_iff.mp hlast
  have hmem : d ∈ digitsOf b n := by
    rw [hds]
    exact List.mem_append_right _ (List.mem_singleton_self d)
  have hd0 : d = 0 := by
    rw [← digitValue_digitChar (Nat.lt_of_lt_of_le (digitsOf_lt hb hmem) hb16), hd]
    rfl
  have hn : n = 0 := by
    by_contra hn
    refine getLast_digitsOf b hn ?_
    simp only [hds, List.getLast_append_singleton, hd0]
  refine ⟨hn, ?_⟩
  have hlen := congrArg List.length h
  rw [hn] at hlen
  simpa [digitsOf] using hlen

def signedNumeral (b : ℕ) (v : ℤ) : List UInt8 :=
  if v < 0 then '-'.toUInt8 :: numeral b v.natAbs else numeral b v.natAbs

def parseSigned (b : ℕ) : List UInt8 → ℤ
  | [] => 0
  | c :: l => if c = '-'.toUInt8 then -(parse b l : ℤ) else parse b (c :: l)

theorem parseSigned_signedNumeral (hb : 1 < b) (hb16 : b ≤ 16) (v : ℤ) :
    parseSigned b (signedNumeral b v) = v := by
  rw [signedNumeral]
  split
  · next hv =>
    rw [parseSigned, if_pos rfl, parse_numeral hb hb16]
    omega
  · next hv =>
    have hparse := parse_numeral hb hb16 v.natAbs
    have hmem := fun c => mem_numeral (c := c) (n := v.natAbs) hb hb16
    cases hnum : numeral b v.natAbs with
    | nil =>
      rw [hnum, parse, List.foldl_nil] at hparse
      rw [parseSigned]
      omega
    | cons c l =>
      rw [hnum] at hparse hmem
      rw [parseSigned, if_neg (hmem c List.mem_cons_self).2, hparse]
      omega

theorem zero_notMem_signedNumeral (hb : 1 < b) (hb16 : b ≤ 16) (v : ℤ) : 0 ∉ signedNumeral b v := by
  have h0 : 0 ∉ numeral b v.natAbs := fun h0 => (mem_numeral hb hb16 h0).1 rfl
  rw [signedNumeral]
  split
  · exact List.not_mem_cons_of_ne_of_not_mem (by decide) h0
  · exact h0

theorem length_signedNumeral_le (hb : 1 < b) (hk : 0 < k) {v : ℤ} (hv : v.natAbs < b ^ k) :
    (signedNumeral b v).length ≤ k + 1 := by
  have hlen : (numeral b v.natAbs).length ≤ k := by
    rw [numeral, List.length_reverse]
    exact length_digitBytes_le hb hk hv
  rw [signedNumeral]
  split
  · rw [List.length_cons]
    omega
  · omega

def Canonical (l : List UInt8) : Prop :=
  ∀ w, (l = '0'.toUInt8 :: w → w = []) ∧ l ≠ '-'.toUInt8 :: '0'.toUInt8 :: w

theorem canonical_signedNumeral (hb : 1 < b) (hb16 : b ≤ 16) (v : ℤ) : Canonical (signedNumeral b v) := by
  intro w
  rw [signedNumeral]
  split
  · next hv =>
    refine ⟨fun h => absurd (List.cons.inj h).1 (by decide), fun h => ?_⟩
    have hzero := (numeral_leading hb hb16 (List.cons.inj h).2).1
    omega
  · refine ⟨fun h => (numeral_leading hb hb16 h).2, fun h => ?_⟩
    have hsign : '-'.toUInt8 ∈ numeral b v.natAbs := by
      rw [h]
      exact List.mem_cons_self
    exact (mem_numeral hb hb16 hsign).2 rfl

end XyOS.Text
