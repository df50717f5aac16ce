import XyOS.Driver.Itoa
import XyOS.Foundation.Runs

/-! The bytes `printf` reads of its format. -/

namespace XyOS.Driver
open Runs Text

/-- Where the scanner stands: in the text, or in a conversion behind its `%`, its flag `0` or
its width. -/
inductive Scan
  | text | percent | zero | width
deriving DecidableEq

def Scan.next : Scan → UInt8 → Scan
  | .text, c => if c = '%'.toUInt8 then .percent else .text
  | .percent, c => if c = '0'.toUInt8 then .zero else if isDigit c then .width else .text
  | .zero, c => if isDigit c then .width else .text
  | .width, _ => .text

def scan (q : Scan) (l : List UInt8) : Scan := l.foldl Scan.next q

/-- No conversion is cut off by the end of the format. -/
def Complete (fmt : List UInt8) : Prop := scan .text fmt = .text

instance (fmt : List UInt8) : Decidable (Complete fmt) := inferInstanceAs (Decidable (_ = _))

example : Complete ("%s: %05d".toList.map Char.toUInt8) ∧ ¬ Complete ("%s: %05".toList.map Char.toUInt8) := by
  decide

def conversions : Scan → List UInt8 → List UInt8
  | _, [] => []
  | q, c :: l => if q ≠ .text ∧ q.next c = .text then c :: conversions .text l else conversions (q.next c) l

/-- What the conversion `s` may be given: `NULL` or a string in the address space. -/
def StringArg (m : Memory) (p : BitVec 32) : Prop :=
  p.toNat = 0 ∨ ∃ l, IsString m p.toNat l ∧ p.toNat + l.length < 2 ^ 32

def ArgsValid (m : Memory) (args : ℕ → BitVec 32) (k : ℕ) (cs : List UInt8) : Prop :=
  ∀ i, cs[i]? = some 's'.toUInt8 → StringArg m (args (k + i))

/-- `printf` returns, the last byte it read of the format is the one at `last`, and it read
none behind it. -/
def StaysInside (last : ℕ) (r : Except Fault Printing) : Prop :=
  ∃ s, r = .ok s ∧ (∀ a ∈ s.reads, a ≤ last) ∧ s.reads.getLast? = some last

variable {m : Memory} {args : ℕ → BitVec 32} {s s' : Printing} {p k n fuel pad : ℕ} {c : UInt8}
  {l fmt : List UInt8} {q : Scan} {pad0 : Bool}

/-! ## The conversions return -/

theorem stringEnd_eq (h : IsString m p l) (hl : l.length < fuel) :
    stringEnd m fuel p = .ok (p + l.length) := by
  induction l generalizing p fuel with
  | nil =>
    obtain ⟨fuel, rfl⟩ := Nat.exists_eq_add_one_of_ne_zero (Nat.ne_of_gt hl)
    exact if_pos h.terminated
  | cons c l ih =>
    obtain ⟨fuel, rfl⟩ := Nat.exists_eq_add_one_of_ne_zero (Nat.ne_zero_of_lt hl)
    rw [stringEnd, if_neg h.head_ne_zero, ih h.tail (by simpa using hl), List.length_cons]
    congr 1
    omega

theorem putChars_ok (h : IsString m p l) (hl : l.length < fuel) (t : Console) :
    ∃ t', putChars m fuel p t = .ok t' := by
  induction l generalizing p fuel t with
  | nil =>
    obtain ⟨fuel, rfl⟩ := Nat.exists_eq_add_one_of_ne_zero (Nat.ne_of_gt hl)
    exact ⟨t, if_pos h.terminated⟩
  | cons c l ih =>
    obtain ⟨fuel, rfl⟩ := Nat.exists_eq_add_one_of_ne_zero (Nat.ne_zero_of_lt hl)
    rw [putChars, if_neg h.head_ne_zero]
    exact ih h.tail (by simpa using hl) _

theorem putString_ok (h : IsString m p l) (hl : l.length < loopFuel) (pad0 : Bool) (pad : ℕ)
    (t : Console) : ∃ t', putString m p pad0 pad t = .ok t' := by
  rw [putString, bind_ok (stringEnd_eq h hl)]
  exact putChars_ok h hl _

theorem isString_nullText : IsString nullText 0 ("(null)".toList.map Char.toUInt8) :=
  isString_writeBytes (by decide)

theorem isString_stringArg {w : BitVec 32} (h : StringArg m w) :
    ∃ l, IsString (stringArg m w.toNat).1 (stringArg m w.toNat).2 l ∧ l.length < loopFuel := by
  rw [stringArg]
  split
  · exact ⟨_, isString_nullText, by decide⟩
  · next hp =>
    obtain ⟨l, hl, hfits⟩ := h.resolve_left hp
    exact ⟨l, hl, by rw [loopFuel]; omega⟩

theorem convert_ok (hc : c = 's'.toUInt8 → StringArg m (args s.arg)) (pad0 : Bool) (pad : ℕ) :
    ∃ s', convert m args c pad0 pad s = .ok s' ∧ s'.arg = s.arg + 1 := by
  rw [convert]
  split
  · next hnum =>
    obtain ⟨v, rfl⟩ : ∃ v : Conv, c = v.char := by
      rcases hnum with h | h | h
      · exact ⟨.d, h⟩
      · exact ⟨.u, h⟩
      · exact ⟨.x, h⟩
    have hlen := v.length_text_lt (args s.arg)
    obtain ⟨t, ht⟩ := putString_ok (isString_writeBytes (v.zero_notMem_text (args s.arg)))
      (by rw [loopFuel]; omega) pad0 pad s.console
    rw [bind_ok (itoa_eq v (args s.arg) s.buf 0), bind_ok ht]
    exact ⟨_, rfl, rfl⟩
  · split
    · next hs =>
      obtain ⟨l, hl, hshort⟩ := isString_stringArg (hc hs)
      obtain ⟨t, ht⟩ := putString_ok hl hshort pad0 pad s.console
      rw [bind_ok ht]
      exact ⟨_, rfl, rfl⟩
    · exact ⟨_, rfl, rfl⟩

/-! ## The bytes that are read -/

/-- From `s` to `s'` the next `n` bytes of the format are read, one after the other. -/
structure Advances (s s' : Printing) (n : ℕ) : Prop where
  format : s'.format = s.format + n
  reads : s'.reads = s.reads ++ List.range' s.format n

theorem advances_zero (hformat : s'.format = s.format) (hreads : s'.reads = s.reads) : Advances s s' 0 where
  format := hformat
  reads := by rw [hreads, List.range'_zero, List.append_nil]

theorem Advances.trans {s₁ s₂ s₃ : Printing} {k n : ℕ} (h : Advances s₁ s₂ k) (h' : Advances s₂ s₃ n) :
    Advances s₁ s₃ (k + n) where
  format := by rw [h'.format, h.format, Nat.add_assoc]
  reads := by rw [h'.reads, h.reads, h.format, List.append_assoc, List.range'_append_1]

theorem conversion_eq (m : Memory) (args : ℕ → BitVec 32) (s : Printing) :
    conversion m args s = if m s.format = '0'.toUInt8
      then padded m args (m (s.format + 1)) true (fetch m (fetch m s).2).2
      else padded m args (m s.format) false (fetch m s).2 := rfl

theorem printLoop_succ (m : Memory) (args : ℕ → BitVec 32) (fuel : ℕ) (s : Printing) :
    printLoop m args (fuel + 1) s = if m s.format = 0 then .ok (fetch m s).2
      else if m s.format ≠ '%'.toUInt8 then
        printLoop m args fuel { (fetch m s).2 with
          console := putchar ((m s.format).toBitVec.signExtend 32) s.console }
      else conversion m args (fetch m s).2 >>= printLoop m args fuel := rfl

theorem fetch_advances (m : Memory) (s : Printing) : Advances s (fetch m s).2 1 := ⟨rfl, rfl⟩

theorem convert_advances (h : convert m args c pad0 pad s = .ok s') : Advances s s' 0 := by
  rw [convert] at h
  split at h
  · obtain ⟨buf, -, h⟩ := of_bind_ok h
    obtain ⟨t, -, h⟩ := of_bind_ok h
    obtain rfl := Except.ok.inj h
    exact advances_zero rfl rfl
  · split at h
    · obtain ⟨t, -, h⟩ := of_bind_ok h
      obtain rfl := Except.ok.inj h
      exact advances_zero rfl rfl
    · obtain rfl := Except.ok.inj h
      exact advances_zero rfl rfl

theorem padded_advances (h : padded m args c pad0 s = .ok s') : ∃ n, Advances s s' n := by
  rw [padded] at h
  split at h
  · exact ⟨_, (fetch_advances m s).trans (convert_advances h)⟩
  · exact ⟨_, convert_advances h⟩

theorem conversion_advances (h : conversion m args s = .ok s') : ∃ n, Advances s s' n := by
  rw [conversion_eq] at h
  split at h
  · obtain ⟨n, hn⟩ := padded_advances h
    exact ⟨_, ((fetch_advances m s).trans (fetch_advances m _)).trans hn⟩
  · obtain ⟨n, hn⟩ := padded_advances h
    exact ⟨_, (fetch_advances m s).trans hn⟩

theorem printLoop_advances (h : printLoop m args fuel s = .ok s') : ∃ n, 0 < n ∧ Advances s s' n := by
  induction fuel generalizing s with
  | zero => cases h
  | succ fuel ih =>
    rw [printLoop_succ] at h
    split at h
    · obtain rfl := Except.ok.inj h
      exact ⟨1, Nat.one_pos, fetch_advances m s⟩
    · split at h
      · obtain ⟨n, -, hn⟩ := ih h
        exact ⟨1 + n, by omega, (fetch_advances m s).trans ⟨hn.format, hn.reads⟩⟩
      · obtain ⟨s₁, h₁, h⟩ := of_bind_ok h
        obtain ⟨n₁, hn₁⟩ := conversion_advances h₁
        obtain ⟨n, -, hn⟩ := ih h
        exact ⟨1 + n₁ + n, by omega, ((fetch_advances m s).trans hn₁).trans hn⟩

/-! ## The end of the format -/

theorem conversions_cons_of_next (h : q.next c ≠ .text) : conversions q (c :: l) = conversions (q.next c) l :=
  if_neg fun hc => h hc.2

theorem conversions_cons_of_end (hq : q ≠ .text) (h : q.next c = .text) :
    conversions q (c :: l) = c :: conversions .text l := if_pos ⟨hq, h⟩

/-- A conversion that starts in the state `q`, with `l` at `a` before it, ends inside the
format, or the format ends first and its terminating zero is taken for the character. -/
def Converted (m : Memory) (args : ℕ → BitVec 32) (q : Scan) (l : List UInt8) (a : ℕ) (s : Printing) : Prop :=
  (∃ l', IsString m s.format l' ∧ s.format + l'.length = a + l.length ∧ l'.length < l.length ∧
    scan q l = scan .text l' ∧ ArgsValid m args s.arg (conversions .text l')) ∨
  scan q l ≠ .text ∧ s.format = a + l.length + 1

theorem Converted.cons {a : ℕ} (h : Converted m args (q.next c) l (a + 1) s) :
    Converted m args q (c :: l) a s := by
  rcases h with ⟨l', hl', hend, hlt, hscan, hargs⟩ | ⟨hscan, hend⟩
  · exact .inl ⟨l', hl', by rw [List.length_cons]; omega, by rw [List.length_cons]; omega, hscan, hargs⟩
  · exact .inr ⟨hscan, by rw [List.length_cons]; omega⟩

theorem convert_converted (hl : IsString m s.format l) (hq : q ≠ .text) (hnext : q.next (m s.format) = .text)
    (hargs : ArgsValid m args s.arg (conversions q l)) (pad0 : Bool) (pad : ℕ) :
    ∃ s', convert m args (m s.format) pad0 pad (fetch m s).2 = .ok s' ∧ Converted m args q l s.format s' := by
  cases l with
  | nil =>
    have hzero : m s.format = 0 := hl.terminated
    have hstring : m s.format = 's'.toUInt8 → StringArg m (args (fetch m s).2.arg) :=
      fun hs => absurd (hzero.symm.trans hs) (by decide)
    obtain ⟨s', h', -⟩ := convert_ok hstring pad0 pad
    exact ⟨s', h', .inr ⟨hq, (convert_advances h').format⟩⟩
  | cons c l =>
    rw [hl.head] at hnext ⊢
    rw [conversions_cons_of_end hq hnext] at hargs
    have hstring : c = 's'.toUInt8 → StringArg m (args (fetch m s).2.arg) :=
      fun hs => hargs 0 (congrArg some hs)
    obtain ⟨s', h', harg⟩ := convert_ok hstring pad0 pad
    have hformat : s'.format = s.format + 1 := (convert_advances h').format
    refine ⟨s', h', .inl ⟨l, ?_, ?_, ?_, ?_, ?_⟩⟩
    · rw [hformat]
      exact hl.tail
    · rw [hformat, List.length_cons]
      omega
    · exact Nat.lt_succ_self _
    · exact congrArg (fun q => scan q l) hnext
    · intro i hi
      rw [harg, show (fetch m s).2.arg = s.arg from rfl, Nat.add_assoc, Nat.add_comm 1]
      exact hargs (i + 1) hi

theorem IsString.cons_of_ne_zero (hl : IsString m p l) (h : m p ≠ 0) : ∃ l', l = m p :: l' := by
  cases l with
  | nil => exact absurd hl.terminated h
  | cons c l' => exact ⟨l', by rw [hl.head]⟩

theorem padded_converted (hl : IsString m s.format l) (hq : q ≠ .text)
    (hnext : q.next (m s.format) = if isDigit (m s.format) then .width else .text)
    (hargs : ArgsValid m args s.arg (conversions q l)) (pad0 : Bool) :
    ∃ s', padded m args (m s.format) pad0 (fetch m s).2 = .ok s' ∧ Converted m args q l s.format s' := by
  rw [padded]
  by_cases hdigit : isDigit (m s.format) = true
  · rw [if_pos hdigit] at hnext
    rw [if_pos hdigit]
    obtain ⟨l', rfl⟩ := IsString.cons_of_ne_zero hl (fun h0 => absurd hdigit (by rw [h0]; decide))
    rw [conversions_cons_of_next (by rw [hnext]; decide), hnext] at hargs
    obtain ⟨s', h', hconv⟩ := convert_converted (s := (fetch m s).2) (q := .width) hl.tail (by decide) rfl
      hargs pad0 ((m s.format).toNat - '0'.toNat)
    exact ⟨s', h', .cons (by rw [hnext]; exact hconv)⟩
  · rw [if_neg hdigit] at hnext
    rw [if_neg hdigit]
    exact convert_converted hl hq hnext hargs pad0 0

theorem conversion_converted (hl : IsString m s.format l)
    (hargs : ArgsValid m args s.arg (conversions .percent l)) :
    ∃ s', conversion m args s = .ok s' ∧ Converted m args .percent l s.format s' := by
  rw [conversion_eq]
  by_cases hzero : m s.format = '0'.toUInt8
  · rw [if_pos hzero]
    obtain ⟨l', rfl⟩ := IsString.cons_of_ne_zero hl (by rw [hzero]; decide)
    have hnext : Scan.percent.next (m s.format) = .zero := if_pos hzero
    rw [conversions_cons_of_next (by rw [hnext]; decide), hnext] at hargs
    obtain ⟨s', h', hconv⟩ := padded_converted (s := (fetch m s).2) (q := .zero) hl.tail (by decide) rfl
      hargs true
    exact ⟨s', h', .cons (by rw [hnext]; exact hconv)⟩
  · rw [if_neg hzero]
    have hnext : Scan.percent.next (m s.format) = if isDigit (m s.format) then .width else .text :=
      if_neg hzero
    exact padded_converted hl (by decide) hnext hargs false

theorem printLoop_end (hl : IsString m s.format l) (hargs : ArgsValid m args s.arg (conversions .text l))
    (hfuel : l.length < fuel) :
    (scan .text l = .text → ∃ s', printLoop m args fuel s = .ok s' ∧ s'.format = s.format + l.length + 1) ∧
    (scan .text l ≠ .text →
      ∀ s', printLoop m args fuel s = .ok s' → s.format + l.length + 1 < s'.format) := by
  induction fuel generalizing s l with
  | zero => exact absurd hfuel (Nat.not_lt_zero _)
  | succ fuel ih =>
    rw [printLoop_succ]
    cases l with
    | nil =>
      have hzero : m s.format = 0 := hl.terminated
      rw [if_pos hzero]
      exact ⟨fun _ => ⟨_, rfl, rfl⟩, fun h => absurd rfl h⟩
    | cons c l =>
      rw [List.length_cons] at hfuel
      rw [if_neg hl.head_ne_zero, hl.head, List.length_cons]
      by_cases hc : c = '%'.toUInt8
      · rw [if_neg (not_not.mpr hc)]
        have hnext : Scan.text.next c = .percent := if_pos hc
        have hscan : scan .text (c :: l) = scan .percent l := congrArg (fun q => scan q l) hnext
        rw [conversions_cons_of_next (by rw [hnext]; decide), hnext] at hargs
        obtain ⟨s₁, h₁, hconv⟩ := conversion_converted (s := (fetch m s).2) hl.tail hargs
        rw [bind_ok h₁, hscan]
        rcases hconv with ⟨l', hl', hend, hlt, hscan', hargs'⟩ | ⟨hscan', hend⟩
        · have hend : s₁.format + l'.length = s.format + 1 + l.length := hend
          rw [hscan', show s.format + (l.length + 1) + 1 = s₁.format + l'.length + 1 by omega]
          exact ih hl' hargs' (by omega)
        · refine ⟨fun h => absurd h hscan', fun _ s' h' => ?_⟩
          have hend : s₁.format = s.format + 1 + l.length + 1 := hend
          obtain ⟨n, hn, hadv⟩ := printLoop_advances h'
          have hformat := hadv.format
          omega
      · rw [if_pos hc]
        have hnext : Scan.text.next c = .text := if_neg hc
        have hscan : scan .text (c :: l) = scan .text l := congrArg (fun q => scan q l) hnext
        have hconvs : conversions .text (c :: l) = conversions .text l := by
          rw [conversions, if_neg (fun h => h.1 rfl), hnext]
        rw [hconvs] at hargs
        rw [hscan, show s.format + (l.length + 1) + 1 = s.format + 1 + l.length + 1 by omega]
        exact ih (s := { (fetch m s).2 with console := _ }) hl.tail hargs (by omega)

variable {f : ℕ} {buf : Memory} {console : Console}

theorem staysInside_iff {r : Except Fault Printing} {last : ℕ} (hf : f ≤ last)
    (hreads : ∀ s, r = .ok s → f < s.format ∧ s.reads = List.range' f (s.format - f)) :
    StaysInside last r ↔ ∃ s, r = .ok s ∧ s.format = last + 1 := by
  constructor
  · rintro ⟨s, hs, -, hlast⟩
    obtain ⟨hlt, hrange⟩ := hreads s hs
    refine ⟨s, hs, ?_⟩
    rw [hrange, List.getLast?_range', if_neg (by omega)] at hlast
    have hlast := Option.some.inj hlast
    omega
  · rintro ⟨s, hs, hformat⟩
    obtain ⟨hlt, hrange⟩ := hreads s hs
    refine ⟨s, hs, ?_, ?_⟩
    · intro a ha
      rw [hrange, List.mem_range'_1] at ha
      omega
    · rw [hrange, List.getLast?_range', if_neg (by omega)]
      congr 1
      omega

theorem printf_reads (h : printf m args f buf console = .ok s) :
    f < s.format ∧ s.reads = List.range' f (s.format - f) := by
  obtain ⟨n, hn, hadv⟩ := printLoop_advances h
  have hformat : s.format = f + n := hadv.format
  have hrange : s.reads = [] ++ List.range' f n := hadv.reads
  refine ⟨by omega, ?_⟩
  rw [hrange, List.nil_append, hformat, Nat.add_sub_cancel_left]

theorem printf_end (hfmt : IsString m f fmt) (hfits : f + fmt.length < 2 ^ 32)
    (hargs : ArgsValid m args 0 (conversions .text fmt)) (buf : Memory) (console : Console) :
    (Complete fmt → ∃ s, printf m args f buf console = .ok s ∧ s.format = f + fmt.length + 1) ∧
    (¬ Complete fmt → ∀ s, printf m args f buf console = .ok s → f + fmt.length + 1 < s.format) := by
  have hfuel : fmt.length < loopFuel := by
    rw [loopFuel]
    omega
  exact printLoop_end (s := ⟨console, f, 0, buf, []⟩) hfmt hargs hfuel

theorem printf_of_complete (hfmt : IsString m f fmt) (hfits : f + fmt.length < 2 ^ 32)
    (hargs : ArgsValid m args 0 (conversions .text fmt)) (h : Complete fmt) :
    StaysInside (f + fmt.length) (printf m args f buf console) :=
  (staysInside_iff (Nat.le_add_right f fmt.length) (fun _ => printf_reads)).mpr
    ((printf_end hfmt hfits hargs buf console).1 h)

theorem printf_of_cut (hfmt : IsString m f fmt) (hfits : f + fmt.length < 2 ^ 32)
    (hargs : ArgsValid m args 0 (conversions .text fmt)) (h : ¬ Complete fmt) :
    ¬ StaysInside (f + fmt.length) (printf m args f buf console) := by
  rw [staysInside_iff (Nat.le_add_right f fmt.length) (fun _ => printf_reads)]
  rintro ⟨s, hs, hformat⟩
  have hlt := (printf_end hfmt hfits hargs buf console).2 h s hs
  omega

theorem printf_stays_inside_iff (hfmt : IsString m f fmt) (hfits : f + fmt.length < 2 ^ 32)
    (hargs : ArgsValid m args 0 (conversions .text fmt)) (buf : Memory) (console : Console) :
    StaysInside (f + fmt.length) (printf m args f buf console) ↔ Complete fmt := by
  constructor
  · intro hstays
    by_contra hcut
    exact printf_of_cut hfmt hfits hargs hcut hstays
  · intro hcomplete
    exact printf_of_complete hfmt hfits hargs hcomplete

def stringAt (fmt : List UInt8) : Memory := writeBytes (fun _ => 0) 0x1000 (fmt ++ [0])

def blank : Console := ⟨0, 0, fun _ => 0⟩

theorem printf_stays_inside_iff_padded :
    StaysInside (0x1000 + 7) (printf (stringAt ("%s%05d\n".toList.map Char.toUInt8)) (fun _ => 0) 0x1000
      (fun _ => 0) blank) :=
  (printf_stays_inside_iff (isString_writeBytes (by decide)) (by decide) (fun _ _ => .inl rfl) _ _).mpr
    (by decide)

theorem printf_leaves_format :
    IsString (stringAt ['%'.toUInt8]) 0x1000 ['%'.toUInt8] ∧
    ArgsValid (stringAt ['%'.toUInt8]) (fun _ => 0) 0 (conversions .text ['%'.toUInt8]) ∧
    ¬ StaysInside (0x1000 + 1) (printf (stringAt ['%'.toUInt8]) (fun _ => 0) 0x1000 (fun _ => 0) blank) := by
  have hfmt : IsString (stringAt ['%'.toUInt8]) 0x1000 ['%'.toUInt8] := isString_writeBytes (by decide)
  have hargs : ArgsValid (stringAt ['%'.toUInt8]) (fun _ => 0) 0 (conversions .text ['%'.toUInt8]) :=
    fun _ _ => .inl rfl
  exact ⟨hfmt, hargs, printf_of_cut hfmt (by decide) hargs (by decide)⟩

end XyOS.Driver
