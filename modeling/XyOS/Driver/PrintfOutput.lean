import XyOS.Driver.Format
import XyOS.Driver.Screen

/-! What `printf` prints, from the pieces of the format to the cells of the screen. -/

namespace XyOS.Driver
open Runs Text

def Conv.ofChar (c : UInt8) : Option Conv := [Conv.d, .u, .x].find? fun v => v.char = c

def charArg (c : UInt8) : BitVec 32 := c.toBitVec.signExtend 32

def field (flag : Bool) (width : ℕ) (l : List UInt8) : List (BitVec 32) :=
  List.replicate (width - l.length) (BitVec.ofNat 32 (if flag then '0' else ' ').toNat) ++ l.map charArg

def Conversion.pad (v : Conversion) : ℕ := (v.width.map Fin.val).getD 0

def Conversion.text (word : BitVec 32) (string : List UInt8) (v : Conversion) : List (BitVec 32) :=
  match Conv.ofChar v.char with
  | some conv => field v.flag v.pad (conv.text word)
  | none => if v.char = 's'.toUInt8 then field v.flag v.pad string else [word]

def Piece.output (word : BitVec 32) (string : List UInt8) : Piece → List (BitVec 32)
  | .text c _ _ => [charArg c]
  | .conv v => v.text word string

def Piece.arity : Piece → ℕ
  | .text _ _ _ => 0
  | .conv _ => 1

/-- The characters that a format stands for, with the arguments from `k` on. -/
def render (args : ℕ → BitVec 32) (strings : ℕ → List UInt8) : ℕ → List Piece → List (BitVec 32)
  | _, [] => []
  | k, p :: ps => p.output (args k) (strings k) ++ render args strings (k + p.arity) ps

def TextAt (m : Memory) (w : BitVec 32) (l : List UInt8) : Prop :=
  w.toNat = 0 ∧ l = "(null)".toList.map Char.toUInt8 ∨
    w.toNat ≠ 0 ∧ IsString m w.toNat l ∧ w.toNat + l.length < 2 ^ 32

def TextsAt (m : Memory) (args : ℕ → BitVec 32) (strings : ℕ → List UInt8) (k : ℕ) (cs : List UInt8) : Prop :=
  ∀ i, cs[i]? = some 's'.toUInt8 → TextAt m (args (k + i)) (strings (k + i))

/-- From `s` to `s'` the characters `out` are put on the screen, `k` arguments are taken and `n`
bytes of the format are read. Only the first 12 bytes of `buf` are written. -/
structure Prints (s s' : Printing) (out : List (BitVec 32)) (k n : ℕ) : Prop where
  console : s'.console = putAll out s.console
  arg : s'.arg = s.arg + k
  format : s'.format = s.format + n
  buf : ∀ x, 12 ≤ x → s'.buf x = s.buf x

variable {m : Memory} {args : ℕ → BitVec 32} {strings : ℕ → List UInt8} {s s' s₁ : Printing}
  {out out' : List (BitVec 32)} {k k' n n' p f fuel : ℕ} {l : List UInt8} {c : UInt8} {t : Console}
  {ps : List Piece} {w : Option (Fin 10)} {pad0 : Bool} {word : BitVec 32} {string : List UInt8}

theorem Prints.trans (h : Prints s s' out k n) (h' : Prints s' s₁ out' k' n') :
    Prints s s₁ (out ++ out') (k + k') (n + n') where
  console := by rw [h'.console, h.console, putAll, putAll, putAll, List.foldl_append]
  arg := by rw [h'.arg, h.arg, Nat.add_assoc]
  format := by rw [h'.format, h.format, Nat.add_assoc]
  buf := fun x hx => (h'.buf x hx).trans (h.buf x hx)

theorem fetch_prints (m : Memory) (s : Printing) : Prints s (fetch m s).2 [] 0 1 :=
  ⟨rfl, rfl, rfl, fun _ _ => rfl⟩

/-! ## The conversions -/

theorem iterate_putchar (c : BitVec 32) (n : ℕ) (t : Console) :
    (putchar c)^[n] t = putAll (List.replicate n c) t := by
  induction n generalizing t with
  | zero => rfl
  | succ n ih =>
    rw [Function.iterate_succ_apply, ih]
    rfl

theorem putChars_eq (h : IsString m p l) (hl : l.length < fuel) (t : Console) :
    putChars m fuel p t = .ok (putAll (l.map charArg) t) := by
  induction l generalizing p fuel t with
  | nil =>
    obtain ⟨fuel, rfl⟩ := Nat.exists_eq_add_one_of_ne_zero (Nat.ne_of_gt hl)
    exact if_pos h.terminated
  | cons c l ih =>
    obtain ⟨fuel, rfl⟩ := Nat.exists_eq_add_one_of_ne_zero (Nat.ne_zero_of_lt hl)
    rw [putChars, if_neg h.head_ne_zero, h.head, ih h.tail (by simpa using hl)]
    rfl

theorem putString_eq (h : IsString m p l) (hl : l.length < loopFuel) (pad0 : Bool) (pad : ℕ) (t : Console) :
    putString m p pad0 pad t = .ok (putAll (field pad0 pad l) t) := by
  rw [putString, bind_ok (stringEnd_eq h hl), putChars_eq h hl, iterate_putchar,
    show p + pad - (p + l.length) = pad - l.length by omega, field, putAll, putAll, putAll, List.foldl_append]

theorem isString_stringArg_of_textAt (h : TextAt m word l) :
    IsString (stringArg m word.toNat).1 (stringArg m word.toNat).2 l ∧ l.length < loopFuel := by
  rw [stringArg]
  rcases h with ⟨hzero, rfl⟩ | ⟨hzero, hl, hfits⟩
  · rw [if_pos hzero]
    exact ⟨isString_nullText, by decide⟩
  · rw [if_neg hzero]
    exact ⟨hl, by rw [loopFuel]; omega⟩

theorem Conv.ofChar_char (v : Conv) : Conv.ofChar v.char = some v := by cases v <;> decide

theorem Conv.exists_char (h : c = 'd'.toUInt8 ∨ c = 'u'.toUInt8 ∨ c = 'x'.toUInt8) : ∃ v : Conv, c = v.char := by
  rcases h with h | h | h
  · exact ⟨.d, h⟩
  · exact ⟨.u, h⟩
  · exact ⟨.x, h⟩

theorem Conv.ofChar_eq_none (h : ¬ (c = 'd'.toUInt8 ∨ c = 'u'.toUInt8 ∨ c = 'x'.toUInt8)) :
    Conv.ofChar c = none := by
  rw [Conv.ofChar, List.find?_eq_none]
  intro v _ hv
  rw [decide_eq_true_eq] at hv
  subst hv
  cases v <;> exact h (by decide)

theorem convert_prints (v : Conversion) (htext : v.char = 's'.toUInt8 → TextAt m (args s.arg) string) :
    ∃ s', convert m args v.char v.flag v.pad s = .ok s' ∧ Prints s s' (v.text (args s.arg) string) 1 0 := by
  rw [convert, Conversion.text]
  split
  · next hnum =>
    obtain ⟨conv, hconv⟩ := Conv.exists_char hnum
    have hlen := conv.length_text_lt (args s.arg)
    rw [hconv, conv.ofChar_char, bind_ok (itoa_eq conv (args s.arg) s.buf 0),
      bind_ok (putString_eq (isString_writeBytes (conv.zero_notMem_text (args s.arg)))
        (by rw [loopFuel]; omega) v.flag v.pad s.console)]
    refine ⟨_, rfl, rfl, rfl, rfl, fun x hx => writeBytes_of_outside ?_⟩
    rw [List.length_append, List.length_singleton]
    omega
  · next hnum =>
    rw [Conv.ofChar_eq_none hnum]
    by_cases hs : v.char = 's'.toUInt8
    · obtain ⟨hl, hshort⟩ := isString_stringArg_of_textAt (htext hs)
      rw [if_pos hs, bind_ok (putString_eq hl hshort v.flag v.pad s.console)]
      exact ⟨_, rfl, (if_pos hs) ▸ rfl, rfl, rfl, fun _ _ => rfl⟩
    · rw [if_neg hs]
      exact ⟨_, rfl, (if_neg hs) ▸ rfl, rfl, rfl, fun _ _ => rfl⟩

/-! ## The format -/

theorem padded_eq (args : ℕ → BitVec 32) (v : Conversion) (h : IsString m s.format (tailBytes v.width v.char ++ l)) :
    ∃ s₁, padded m args (m s.format) v.flag (fetch m s).2 = convert m args v.char v.flag v.pad s₁ ∧
      Prints s s₁ [] 0 (tailBytes v.width v.char).length := by
  rw [padded]
  cases hw : v.width with
  | none =>
    rw [hw] at h
    have hpad : v.pad = 0 := by rw [Conversion.pad, hw]; rfl
    rw [IsString.head h, v.digit hw, if_neg Bool.false_ne_true, hpad]
    exact ⟨_, rfl, fetch_prints m s⟩
  | some d =>
    rw [hw] at h
    have hpad : v.pad = d := by rw [Conversion.pad, hw]; rfl
    have hchar : m (s.format + 1) = v.char := IsString.head (IsString.tail h)
    rw [IsString.head h, if_pos (isDigit_digitOf d), hpad, toNat_digitOf, ← hchar]
    exact ⟨_, rfl, (fetch_prints m s).trans (fetch_prints m _)⟩

theorem conversion_read (args : ℕ → BitVec 32) (v : Conversion)
    (h : IsString m s.format ((if v.flag then ['0'.toUInt8] else []) ++ (tailBytes v.width v.char ++ l))) :
    ∃ s₁, conversion m args s = convert m args v.char v.flag v.pad s₁ ∧
      Prints s s₁ [] 0 ((if v.flag then ['0'.toUInt8] else []).length + (tailBytes v.width v.char).length) := by
  rw [conversion_eq]
  cases hflag : v.flag with
  | true =>
    rw [hflag] at h
    obtain ⟨s₁, h₁, hprints⟩ := padded_eq (s := (fetch m s).2) args v (IsString.tail h)
    rw [hflag] at h₁
    rw [if_pos (IsString.head h)]
    exact ⟨s₁, h₁, (fetch_prints m s).trans hprints⟩
  | false =>
    rw [hflag] at h
    have hhead : m s.format ≠ '0'.toUInt8 := by
      cases htail : tailBytes v.width v.char ++ l with
      | nil => exact absurd (List.append_eq_nil_iff.mp htail).1 (by simp [tailBytes])
      | cons c l' =>
        change IsString m s.format (tailBytes v.width v.char ++ l) at h
        rw [htail] at h
        rw [IsString.head h]
        exact Conversion.head_ne hflag htail
    obtain ⟨s₁, h₁, hprints⟩ := padded_eq args v h
    rw [hflag] at h₁
    rw [if_neg hhead]
    exact ⟨s₁, h₁, (Nat.zero_add (tailBytes v.width v.char).length).symm ▸ hprints⟩

theorem conversion_prints (v : Conversion) (h : IsString m s.format (v.bytes ++ l))
    (htext : v.char = 's'.toUInt8 → TextAt m (args s.arg) string) :
    ∃ s', conversion m args (fetch m s).2 = .ok s' ∧
      Prints s s' (v.text (args s.arg) string) 1 v.bytes.length := by
  rw [Conversion.bytes, List.cons_append, List.append_assoc] at h
  obtain ⟨s₁, h₁, hread⟩ := conversion_read (s := (fetch m s).2) args v (IsString.tail h)
  have harg : s₁.arg = s.arg := hread.arg
  rw [← harg] at htext ⊢
  obtain ⟨s', h', hprints⟩ := convert_prints v htext
  have hall := ((fetch_prints m s).trans hread).trans hprints
  refine ⟨s', h₁.trans h', ?_⟩
  rw [Conversion.bytes, List.length_cons, List.length_append, Nat.add_comm _ 1]
  exact hall

theorem TextsAt.head {v : Conversion}
    (h : TextsAt m args strings k ((Piece.conv v :: ps).filterMap Piece.char?)) :
    v.char = 's'.toUInt8 → TextAt m (args k) (strings k) := fun hs => h 0 (congrArg some hs)

theorem TextsAt.tail {p : Piece} (h : TextsAt m args strings k ((p :: ps).filterMap Piece.char?)) :
    TextsAt m args strings (k + p.arity) (ps.filterMap Piece.char?) := by
  cases p with
  | text c _ _ => exact h
  | conv v =>
    intro i hi
    rw [Piece.arity, Nat.add_assoc, Nat.add_comm 1 i]
    exact h (i + 1) hi

theorem piece_prints (fuel : ℕ) {p : Piece} (h : IsString m s.format (p.bytes ++ l))
    (htexts : TextsAt m args strings s.arg ((p :: ps).filterMap Piece.char?)) :
    ∃ s₁, printLoop m args (fuel + 1) s = printLoop m args fuel s₁ ∧
      Prints s s₁ (p.output (args s.arg) (strings s.arg)) p.arity p.bytes.length := by
  rw [printLoop_succ]
  cases p with
  | text c hzero hplain =>
    have hread : m s.format = c := IsString.head h
    rw [hread, if_neg hzero, if_pos hplain]
    exact ⟨_, rfl, rfl, rfl, rfl, fun _ _ => rfl⟩
  | conv v =>
    have hread : m s.format = '%'.toUInt8 := IsString.head h
    obtain ⟨s₁, h₁, hprints⟩ := conversion_prints v h htexts.head
    rw [hread, if_neg (by decide), if_neg (fun h => h rfl), bind_ok h₁]
    exact ⟨s₁, rfl, hprints⟩

theorem printLoop_prints (h : IsString m s.format (spell ps)) (hfuel : ps.length < fuel)
    (htexts : TextsAt m args strings s.arg (ps.filterMap Piece.char?)) :
    ∃ s', printLoop m args fuel s = .ok s' ∧
      Prints s s' (render args strings s.arg ps) (ps.map Piece.arity).sum ((spell ps).length + 1) := by
  induction ps generalizing s fuel with
  | nil =>
    obtain ⟨fuel, rfl⟩ := Nat.exists_eq_add_one_of_ne_zero (Nat.ne_of_gt hfuel)
    have hzero : m s.format = 0 := h.terminated
    rw [printLoop_succ, if_pos hzero]
    exact ⟨_, rfl, fetch_prints m s⟩
  | cons p ps ih =>
    obtain ⟨fuel, rfl⟩ := Nat.exists_eq_add_one_of_ne_zero (Nat.ne_zero_of_lt hfuel)
    have h : IsString m s.format (p.bytes ++ spell ps) := h
    obtain ⟨s₁, h₁, hprints₁⟩ := piece_prints fuel h htexts
    have hrest : IsString m s₁.format (spell ps) := by
      rw [hprints₁.format]
      exact h.drop
    have htexts' := htexts.tail
    rw [← hprints₁.arg] at htexts'
    obtain ⟨s', h', hprints⟩ := ih hrest (by simpa using hfuel) htexts'
    have hall := hprints₁.trans hprints
    rw [hprints₁.arg] at hall
    refine ⟨s', h₁.trans h', ?_⟩
    rw [render, List.map_cons, List.sum_cons, spell, List.flatMap_cons, List.length_append, Nat.add_assoc]
    exact hall

theorem length_le_length_spell (ps : List Piece) : ps.length ≤ (spell ps).length := by
  induction ps with
  | nil => exact le_refl 0
  | cons p ps ih =>
    have hpos := List.length_pos_iff.mpr p.bytes_ne_nil
    rw [spell, List.flatMap_cons, List.length_append, List.length_cons]
    rw [spell] at ih
    omega

theorem printf_of_spelled (hfmt : IsString m f (spell ps)) (hfits : f + (spell ps).length < 2 ^ 32)
    (htexts : TextsAt m args strings 0 (ps.filterMap Piece.char?)) (buf : Memory) (console : Console) :
    ∃ s, printf m args f buf console = .ok s ∧
      Prints ⟨console, f, 0, buf, []⟩ s (render args strings 0 ps) (ps.map Piece.arity).sum
        ((spell ps).length + 1) := by
  have hle := length_le_length_spell ps
  exact printLoop_prints (s := ⟨console, f, 0, buf, []⟩) hfmt (by rw [loopFuel]; omega) htexts

theorem sum_arity (ps : List Piece) : (ps.map Piece.arity).sum = (ps.filterMap Piece.char?).length := by
  induction ps with
  | nil => rfl
  | cons p ps ih =>
    rw [List.map_cons, List.sum_cons, ih]
    cases p with
    | text c _ _ => exact Nat.zero_add _
    | conv v => exact Nat.add_comm 1 _

variable {fmt : List UInt8}

/-- A complete format reads in one way, and `printf` prints what it says. Each conversion takes one
argument, and 12 of the 20 bytes of `buf` are enough. -/
theorem printf_prints (hfmt : IsString m f fmt) (hfits : f + fmt.length < 2 ^ 32) (hcomplete : Complete fmt)
    (htexts : TextsAt m args strings 0 (conversions .text fmt)) (buf : Memory) (console : Console) :
    ∃! ps, spell ps = fmt ∧ ∃ s, printf m args f buf console = .ok s ∧
      s.console = putAll (render args strings 0 ps) console ∧ s.arg = (conversions .text fmt).length ∧
      ∀ x, 12 ≤ x → s.buf x = buf x := by
  obtain ⟨ps, rfl⟩ := exists_spell hfmt.nonzero hcomplete
  rw [conversions_spell] at htexts ⊢
  obtain ⟨s, hs, hprints⟩ := printf_of_spelled hfmt hfits htexts buf console
  have harg : s.arg = (ps.filterMap Piece.char?).length := by
    rw [hprints.arg, sum_arity, Nat.zero_add]
  exact ⟨ps, ⟨rfl, s, hs, hprints.console, harg, hprints.buf⟩, fun ps' h => spell_injective h.1⟩

theorem printf_prints_padded :
    ∃! ps, spell ps = "%s%05d\n".toList.map Char.toUInt8 ∧
      ∃ s, printf (stringAt ("%s%05d\n".toList.map Char.toUInt8)) (fun _ => 0) 0x1000 (fun _ => 0) blank = .ok s ∧
        s.console = putAll (render (fun _ => 0) (fun _ => "(null)".toList.map Char.toUInt8) 0 ps) blank ∧
        s.arg = 2 ∧ ∀ x, 12 ≤ x → s.buf x = 0 :=
  printf_prints (isString_writeBytes (by decide)) (by decide) (by decide) (fun _ _ => .inl ⟨rfl, rfl⟩) _ _

/-! ## The screen -/

structure Call where
  m : Memory
  args : ℕ → BitVec 32
  strings : ℕ → List UInt8
  format : ℕ
  pieces : List Piece
  buf : Memory

def Call.output (c : Call) : List (BitVec 32) := render c.args c.strings 0 c.pieces

structure Call.Valid (c : Call) : Prop where
  format : IsString c.m c.format (spell c.pieces)
  fits : c.format + (spell c.pieces).length < 2 ^ 32
  texts : TextsAt c.m c.args c.strings 0 (c.pieces.filterMap Piece.char?)

def printAll : List Call → Console → Except Fault Console
  | [], t => .ok t
  | c :: cs, t => do
    let s ← printf c.m c.args c.format c.buf t
    printAll cs s.console

variable {calls : List Call} {v : ℕ → UInt8} {sheet : Sheet}

theorem printAll_of_shows (h : ∀ c ∈ calls, c.Valid) (hshows : Shows v sheet t) :
    ∃ t', printAll calls t = .ok t' ∧ Shows v (sheet.write (calls.flatMap Call.output)) t' := by
  induction calls generalizing sheet t with
  | nil => exact ⟨t, rfl, hshows⟩
  | cons c calls ih =>
    have hc := h c List.mem_cons_self
    obtain ⟨s, hs, hprints⟩ := printf_of_spelled hc.format hc.fits hc.texts c.buf t
    have hput := hshows.putAll c.output
    rw [Call.output, ← hprints.console] at hput
    obtain ⟨t', ht', hshows'⟩ := ih (fun c hc => h c (List.mem_cons_of_mem _ hc)) hput
    refine ⟨t', ?_, ?_⟩
    · rw [printAll, bind_ok hs]
      exact ht'
    · rw [List.flatMap_cons, Sheet.write_append]
      exact hshows'

/-- After `cls` and any calls of `printf` the screen shows, in every cell, the character that was
printed there last; the other cells are blank, and nothing behind the screen is written. -/
theorem printAll_shows (h : ∀ c ∈ calls, c.Valid) (v : ℕ → UInt8) :
    ∃ t, printAll calls (cls v) = .ok t ∧
      Shows (fun a => if a < 2 * cells then 0 else v a) (Sheet.empty.write (calls.flatMap Call.output)) t := by
  have hvideo : (cls v).video = fun a => if a < 2 * cells then 0 else v a := funext fun a => clear_apply _ v a
  have hcls := cls_shows v
  rw [hvideo] at hcls
  exact printAll_of_shows h hcls

def numberCall : Call where
  m := stringAt ("%05d\n".toList.map Char.toUInt8)
  args := fun _ => -42
  strings := fun _ => []
  format := 0x1000
  pieces := [.conv ⟨true, some 5, 'd'.toUInt8, by decide, by decide, by decide⟩,
    .text '\n'.toUInt8 (by decide) (by decide)]
  buf := fun _ => 0

theorem numberCall_valid : numberCall.Valid where
  format := isString_writeBytes (by decide)
  fits := by decide
  texts := fun _ hi => absurd (List.mem_of_getElem? hi) (by decide)

example : numberCall.output = "00-42\n".toList.map fun c => charArg c.toUInt8 := by decide

theorem printAll_shows_numbers :
    ∃ t, printAll [numberCall, numberCall] (cls fun _ => 0) = .ok t ∧
      Shows (fun a => if a < 2 * cells then 0 else 0)
        (Sheet.empty.write ([numberCall, numberCall].flatMap Call.output)) t :=
  printAll_shows (by
    intro c hc
    obtain rfl : c = numberCall := by simpa using hc
    exact numberCall_valid) _

end XyOS.Driver
