import XyOS.Driver.Printf

/-! What a format says: its pieces, and that no other pieces are spelled in the same way. -/

namespace XyOS.Driver

/-- A conversion with its flag `0`, its width and its character. A `0` behind the `%` is the
flag, and the digit behind it the width. -/
structure Conversion where
  flag : Bool
  width : Option (Fin 10)
  char : UInt8
  leading : flag = false → width ≠ some 0
  digit : width = none → isDigit char = false
  nonzero : char ≠ 0

inductive Piece
  | text (c : UInt8) (nonzero : c ≠ 0) (plain : c ≠ '%'.toUInt8)
  | conv (v : Conversion)

def digitOf (d : Fin 10) : UInt8 := UInt8.ofNat (d + '0'.toNat)

def tailBytes (width : Option (Fin 10)) (c : UInt8) : List UInt8 := (width.map digitOf).toList ++ [c]

def Conversion.bytes (v : Conversion) : List UInt8 :=
  '%'.toUInt8 :: ((if v.flag then ['0'.toUInt8] else []) ++ tailBytes v.width v.char)

def Piece.bytes : Piece → List UInt8
  | .text c _ _ => [c]
  | .conv v => v.bytes

def spell (ps : List Piece) : List UInt8 := ps.flatMap Piece.bytes

def Piece.char? : Piece → Option UInt8
  | .text _ _ _ => none
  | .conv v => some v.char

variable {c c' : UInt8} {l l' fmt : List UInt8} {p p' : Piece} {ps ps' : List Piece} {d e : Fin 10}
  {v v' : Conversion} {w w' : Option (Fin 10)} {q : Scan}

/-! ## Digits -/

theorem isDigit_digitOf (d : Fin 10) : isDigit (digitOf d) = true := by
  have h : ∀ d, isDigit (digitOf d) = true := by decide
  exact h d

theorem digitOf_eq_iff : digitOf d = '0'.toUInt8 ↔ d = 0 := by
  have h : ∀ d, digitOf d = '0'.toUInt8 ↔ d = 0 := by decide
  exact h d

theorem digitOf_injective (h : digitOf d = digitOf e) : d = e := by
  have hinj : ∀ d e, digitOf d = digitOf e → d = e := by decide
  exact hinj d e h

theorem toNat_digitOf (d : Fin 10) : (digitOf d).toNat - '0'.toNat = d := by
  have h : ∀ d : Fin 10, (digitOf d).toNat - '0'.toNat = d := by decide
  exact h d

theorem exists_digitOf (h : isDigit c = true) : ∃ d, c = digitOf d := by
  rw [isDigit, Bool.and_eq_true, decide_eq_true_eq, decide_eq_true_eq, UInt8.le_iff_toNat_le,
    UInt8.le_iff_toNat_le] at h
  obtain ⟨hlo, hhi⟩ := h
  have hlo : 48 ≤ c.toNat := hlo
  have hhi : c.toNat ≤ 57 := hhi
  refine ⟨⟨c.toNat - 48, by omega⟩, UInt8.toNat_inj.mp ?_⟩
  rw [digitOf, UInt8.toNat_ofNat']
  change c.toNat = (c.toNat - 48 + 48) % 2 ^ 8
  omega

/-! ## The scanner over a piece -/

theorem scan_cons (q : Scan) (c : UInt8) (l : List UInt8) : scan q (c :: l) = scan (q.next c) l := rfl

structure Scan.BeforeWidth (q : Scan) (w : Option (Fin 10)) (c : UInt8) : Prop where
  ne_text : q ≠ .text
  width : ∀ d, w = some d → q.next (digitOf d) = .width
  char : w = none → q.next c = .text

theorem Scan.BeforeWidth.conversions (h : q.BeforeWidth w c) :
    conversions q (tailBytes w c ++ l) = c :: Driver.conversions .text l := by
  cases w with
  | none => exact conversions_cons_of_end h.ne_text (h.char rfl)
  | some d =>
    have hnext := h.width d rfl
    change Driver.conversions q (digitOf d :: c :: l) = _
    rw [conversions_cons_of_next (by rw [hnext]; decide), hnext]
    exact conversions_cons_of_end (by decide) rfl

theorem next_zero (hdigit : isDigit c = false) : Scan.zero.next c = .text :=
  if_neg (by rw [hdigit]; decide)

theorem next_percent (hdigit : isDigit c = false) : Scan.percent.next c = .text := by
  have hne : c ≠ '0'.toUInt8 := by
    rintro rfl
    exact absurd hdigit (by decide)
  exact (if_neg hne).trans (next_zero hdigit)

theorem Conversion.beforeWidth (v : Conversion) :
    (if v.flag then Scan.zero else .percent).BeforeWidth v.width v.char := by
  cases hflag : v.flag with
  | true =>
    exact ⟨by decide, fun d _ => if_pos (isDigit_digitOf d), fun h => next_zero (v.digit h)⟩
  | false =>
    refine ⟨by decide, fun d hd => ?_, fun h => next_percent (v.digit h)⟩
    have hne : d ≠ 0 := by
      rintro rfl
      exact v.leading hflag hd
    exact (if_neg fun h => hne (digitOf_eq_iff.mp h)).trans (if_pos (isDigit_digitOf d))

theorem Conversion.conversions (v : Conversion) (l : List UInt8) :
    conversions .text (v.bytes ++ l)
      = Driver.conversions (if v.flag then .zero else .percent) (tailBytes v.width v.char ++ l) := by
  rw [Conversion.bytes, List.cons_append, List.append_assoc,
    conversions_cons_of_next (show Scan.text.next '%'.toUInt8 ≠ .text by decide)]
  cases v.flag with
  | true => exact conversions_cons_of_next (show Scan.percent.next '0'.toUInt8 ≠ .text by decide)
  | false => rfl

theorem Piece.conversions (p : Piece) (l : List UInt8) :
    conversions .text (p.bytes ++ l) = p.char?.toList ++ Driver.conversions .text l := by
  cases p with
  | text c _ plain =>
    have hnext : Scan.text.next c = .text := if_neg plain
    change Driver.conversions .text (c :: l) = Driver.conversions .text l
    rw [Driver.conversions, if_neg (fun h => h.1 rfl), hnext]
  | conv v => exact (v.conversions l).trans v.beforeWidth.conversions

theorem conversions_spell (ps : List Piece) : conversions .text (spell ps) = ps.filterMap Piece.char? := by
  induction ps with
  | nil => rfl
  | cons p ps ih =>
    have hrun := p.conversions (spell ps)
    rw [ih] at hrun
    cases p with
    | text c _ _ => exact hrun
    | conv v => exact hrun

/-! ## Every complete format is spelled -/

theorem exists_tail (hscan : scan q l = .text) (hq : q ≠ .text)
    (hnext : ∀ c, l.head? = some c → q.next c = if isDigit c then .width else .text) :
    ∃ w c l', l = tailBytes w c ++ l' ∧ Complete l' ∧ (w = none → isDigit c = false) := by
  cases l with
  | nil => exact absurd hscan hq
  | cons c l =>
    have hstate := hnext c rfl
    rw [scan_cons, hstate] at hscan
    cases hdigit : isDigit c with
    | false =>
      rw [hdigit] at hscan
      exact ⟨none, c, l, rfl, hscan, fun _ => hdigit⟩
    | true =>
      obtain ⟨d, rfl⟩ := exists_digitOf hdigit
      rw [hdigit] at hscan
      cases l with
      | nil => exact absurd hscan (by decide)
      | cons c' l => exact ⟨some d, c', l, rfl, hscan, fun h => by cases h⟩

theorem exists_conversion (hscan : scan .percent l = .text) (h0 : 0 ∉ l) :
    ∃ (v : Conversion) (l' : List UInt8), '%'.toUInt8 :: l = v.bytes ++ l' ∧ Complete l' := by
  by_cases hflag : l.head? = some '0'.toUInt8
  · obtain ⟨l, rfl⟩ := List.head?_eq_some_iff.mp hflag
    obtain ⟨w, c, l', rfl, hl', hdigit⟩ := exists_tail (q := .zero) hscan (by decide) fun c _ => rfl
    refine ⟨⟨true, w, c, ?_, hdigit, ?_⟩, l', ?_, hl'⟩
    · intro h
      cases h
    · rintro rfl
      exact h0 (by simp [tailBytes])
    · rw [Conversion.bytes, List.cons_append, List.append_assoc]
      rfl
  · obtain ⟨w, c, l', rfl, hl', hdigit⟩ := exists_tail hscan (by decide) fun c hc =>
      if_neg fun h : c = '0'.toUInt8 => hflag (h ▸ hc)
    refine ⟨⟨false, w, c, ?_, hdigit, ?_⟩, l', ?_, hl'⟩
    · rintro - rfl
      exact hflag rfl
    · rintro rfl
      exact h0 (by simp [tailBytes])
    · rw [Conversion.bytes, List.cons_append, List.append_assoc]
      rfl

theorem exists_piece (h0 : 0 ∉ c :: l) (h : Complete (c :: l)) :
    ∃ (p : Piece) (l' : List UInt8), c :: l = p.bytes ++ l' ∧ Complete l' := by
  rw [Complete, scan_cons] at h
  by_cases hc : c = '%'.toUInt8
  · subst hc
    obtain ⟨v, l', hl, hl'⟩ := exists_conversion h fun hmem => h0 (List.mem_cons_of_mem _ hmem)
    exact ⟨.conv v, l', hl, hl'⟩
  · have hnext : Scan.text.next c = .text := if_neg hc
    rw [hnext] at h
    have hnonzero : c ≠ 0 := by
      rintro rfl
      exact h0 List.mem_cons_self
    exact ⟨.text c hnonzero hc, l, rfl, h⟩

theorem Piece.bytes_ne_nil (p : Piece) : p.bytes ≠ [] := by
  cases p with
  | text c _ _ => exact List.cons_ne_nil c []
  | conv v => exact List.cons_ne_nil _ _

theorem exists_spell (h0 : 0 ∉ fmt) (h : Complete fmt) : ∃ ps, spell ps = fmt := by
  induction hn : fmt.length using Nat.strong_induction_on generalizing fmt with
  | _ n ih =>
    cases fmt with
    | nil => exact ⟨[], rfl⟩
    | cons c l =>
      obtain ⟨p, l', hl, hl'⟩ := exists_piece h0 h
      rw [hl] at h0 hn
      have hpos := List.length_pos_iff.mpr p.bytes_ne_nil
      rw [List.length_append] at hn
      obtain ⟨ps, hps⟩ := ih l'.length (by omega) (fun h => h0 (List.mem_append_right _ h)) hl' rfl
      exact ⟨p :: ps, by rw [hl, ← hps]; rfl⟩

/-! ## The pieces are read off the format -/

theorem tailBytes_inj (hw : w = none → isDigit c = false) (hw' : w' = none → isDigit c' = false)
    (h : tailBytes w c ++ l = tailBytes w' c' ++ l') : w = w' ∧ c = c' ∧ l = l' := by
  cases w with
  | none =>
    cases w' with
    | none =>
      obtain ⟨rfl, rfl⟩ := List.cons.inj h
      exact ⟨rfl, rfl, rfl⟩
    | some d =>
      obtain ⟨rfl, -⟩ := List.cons.inj h
      exact absurd (isDigit_digitOf d) (by rw [hw rfl]; decide)
  | some d =>
    cases w' with
    | none =>
      obtain ⟨rfl, -⟩ := List.cons.inj h
      exact absurd (isDigit_digitOf d) (by rw [hw' rfl]; decide)
    | some e =>
      obtain ⟨hd, h⟩ := List.cons.inj h
      obtain ⟨rfl, rfl⟩ := List.cons.inj h
      exact ⟨congrArg some (digitOf_injective hd), rfl, rfl⟩

theorem Conversion.head_ne (hflag : v.flag = false) (h : tailBytes v.width v.char ++ l = c :: l') :
    c ≠ '0'.toUInt8 := by
  rintro rfl
  cases hw : v.width with
  | none =>
    rw [hw] at h
    obtain ⟨hc, -⟩ := List.cons.inj h
    exact absurd (v.digit hw) (by rw [hc]; decide)
  | some d =>
    rw [hw] at h
    obtain ⟨hd, -⟩ := List.cons.inj h
    exact v.leading hflag (by rw [hw, digitOf_eq_iff.mp hd])

theorem Conversion.bytes_inj (h : v.bytes ++ l = v'.bytes ++ l') : v = v' ∧ l = l' := by
  rw [Conversion.bytes, Conversion.bytes, List.cons_append, List.cons_append, List.append_assoc,
    List.append_assoc] at h
  have h := (List.cons.inj h).2
  have htail : v.flag = v'.flag ∧ tailBytes v.width v.char ++ l = tailBytes v'.width v'.char ++ l' := by
    cases hflag : v.flag <;> cases hflag' : v'.flag <;> rw [hflag, hflag'] at h
    · exact ⟨rfl, h⟩
    · exact absurd rfl (Conversion.head_ne hflag h)
    · exact absurd rfl (Conversion.head_ne hflag' h.symm)
    · exact ⟨rfl, (List.cons.inj h).2⟩
  obtain ⟨hwidth, hchar, hl⟩ := tailBytes_inj v.digit v'.digit htail.2
  cases v
  cases v'
  obtain rfl : _ = _ := htail.1
  obtain rfl : _ = _ := hwidth
  obtain rfl : _ = _ := hchar
  exact ⟨rfl, hl⟩

theorem Piece.bytes_inj (h : p.bytes ++ l = p'.bytes ++ l') : p = p' ∧ l = l' := by
  cases p with
  | text c _ plain =>
    cases p' with
    | text c' _ _ =>
      obtain ⟨rfl, rfl⟩ := List.cons.inj h
      exact ⟨rfl, rfl⟩
    | conv v => exact absurd (List.cons.inj h).1 plain
  | conv v =>
    cases p' with
    | text c' _ plain => exact absurd (List.cons.inj h).1.symm plain
    | conv v' =>
      obtain ⟨rfl, hl⟩ := Conversion.bytes_inj h
      exact ⟨rfl, hl⟩

theorem spell_injective (h : spell ps = spell ps') : ps = ps' := by
  induction ps generalizing ps' with
  | nil =>
    cases ps' with
    | nil => rfl
    | cons p ps' => exact absurd (List.append_eq_nil_iff.mp h.symm).1 p.bytes_ne_nil
  | cons p ps ih =>
    cases ps' with
    | nil => exact absurd (List.append_eq_nil_iff.mp h).1 p.bytes_ne_nil
    | cons p' ps' =>
      obtain ⟨rfl, htail⟩ := Piece.bytes_inj h
      rw [ih htail]

end XyOS.Driver
