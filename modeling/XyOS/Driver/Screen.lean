import XyOS.Driver.ConsoleDefs

/-! The screen is a sheet of unbounded length, wound around the 24 lines of the video memory. -/

namespace XyOS.Driver

def clear : ℕ → (ℕ → UInt8) → ℕ → UInt8
  | 0, video => video
  | n + 1, video => Function.update (clear n video) n 0

def cls (video : ℕ → UInt8) : Console := ⟨0, 0, clear (COLUMNS * LINES * 2) video⟩

def putAll (l : List (BitVec 32)) (t : Console) : Console := l.foldl (fun t c => putchar c t) t

def cells : ℕ := COLUMNS * LINES

def LineBreak (c : BitVec 32) : Prop := c.toNat = '\n'.toNat ∨ c.toNat = '\r'.toNat

instance (c : BitVec 32) : Decidable (LineBreak c) := inferInstanceAs (Decidable (_ ∨ _))

structure Sheet where
  pos : ℕ
  cell : ℕ → Option UInt8
  ahead : ∀ p, pos ≤ p → cell p = none

namespace Sheet

def empty : Sheet := ⟨0, fun _ => none, fun _ _ => rfl⟩

def feed (s : Sheet) : Sheet where
  pos := (s.pos / COLUMNS + 1) * COLUMNS
  cell := s.cell
  ahead := fun p hp => s.ahead p (by rw [COLUMNS] at hp; omega)

def type (c : UInt8) (s : Sheet) : Sheet where
  pos := s.pos + 1
  cell := Function.update s.cell s.pos (some c)
  ahead := fun p hp => by rw [Function.update_of_ne (by omega), s.ahead p (by omega)]

def put (c : BitVec 32) (s : Sheet) : Sheet :=
  if LineBreak c then s.feed else s.type (UInt8.ofNat (c.toNat % 256))

def write (l : List (BitVec 32)) (s : Sheet) : Sheet := l.foldl (fun s c => s.put c) s

/-- The character at `p` lies on top: no later turn of the sheet has one on its cell. -/
structure Top (s : Sheet) (p : ℕ) (c : UInt8) : Prop where
  cell : s.cell p = some c
  last : ∀ q, p < q → q % cells = p % cells → s.cell q = none

theorem type_self (s : Sheet) (c : UInt8) : (s.type c).cell s.pos = some c := Function.update_self _ _ _

theorem type_of_ne {s : Sheet} {c : UInt8} {p : ℕ} (h : p ≠ s.pos) : (s.type c).cell p = s.cell p :=
  Function.update_of_ne h _ _

theorem write_append (l l' : List (BitVec 32)) (s : Sheet) : s.write (l ++ l') = (s.write l).write l' :=
  List.foldl_append

end Sheet

/-- The console shows of each cell the character on top, and leaves alone what was not typed
on: `v` is the video memory before. -/
structure Shows (v : ℕ → UInt8) (s : Sheet) (t : Console) : Prop where
  column : t.xpos = s.pos % COLUMNS
  line : t.ypos = s.pos / COLUMNS % LINES
  top : ∀ p c, s.Top p c → t.video (2 * (p % cells)) = c ∧ t.video (2 * (p % cells) + 1) = ATTRIBUTE
  rest : ∀ a, (∀ p, p % cells = a / 2 → s.cell p = none) → t.video a = v a

variable {v : ℕ → UInt8} {s : Sheet} {t : Console} {c : BitVec 32} {p n a : ℕ} {b d : UInt8}

theorem clear_apply (n : ℕ) (v : ℕ → UInt8) (a : ℕ) : clear n v a = if a < n then 0 else v a := by
  induction n with
  | zero => rfl
  | succ n ih =>
    rw [clear]
    by_cases h : a = n
    · rw [h, Function.update_self, if_pos (Nat.lt_succ_self n)]
    · rw [Function.update_of_ne h, ih]
      by_cases hlt : a < n
      · rw [if_pos hlt, if_pos (by omega)]
      · rw [if_neg hlt, if_neg (by omega)]

theorem cls_shows (v : ℕ → UInt8) : Shows (cls v).video .empty (cls v) where
  column := rfl
  line := rfl
  top := fun _ _ h => by cases h.cell
  rest := fun _ _ => rfl

namespace Shows

theorem cursor (h : Shows v s t) : t.xpos + t.ypos * COLUMNS = s.pos % cells := by
  rw [h.column, h.line, cells, COLUMNS, LINES]
  omega

theorem newline (h : Shows v s t) : Shows v s.feed t.newline where
  column := by
    change 0 = (s.pos / COLUMNS + 1) * COLUMNS % COLUMNS
    rw [Nat.mul_mod_left]
  line := by
    have hline := h.line
    change (if t.ypos + 1 ≥ LINES then 0 else t.ypos + 1) = (s.pos / COLUMNS + 1) * COLUMNS / COLUMNS % LINES
    rw [Nat.mul_div_cancel _ (by decide)]
    rw [LINES] at hline ⊢
    split <;> omega
  top := fun p c htop => h.top p c ⟨htop.cell, htop.last⟩
  rest := h.rest

end Shows

def Console.store (b : UInt8) (t : Console) : Console :=
  let cell := (t.xpos + t.ypos * COLUMNS) * 2
  { t with
    video := Function.update (Function.update t.video cell b) (cell + 1) ATTRIBUTE
    xpos := t.xpos + 1 }

theorem putchar_eq (c : BitVec 32) (t : Console) :
    putchar c t = if LineBreak c then t.newline
      else if t.xpos + 1 ≥ COLUMNS then (t.store (UInt8.ofNat (c.toNat % 256))).newline
      else t.store (UInt8.ofNat (c.toNat % 256)) := rfl

theorem Shows.store_top (h : Shows v s t) (htop : (s.type b).Top p d) :
    (t.store b).video (2 * (p % cells)) = d ∧ (t.store b).video (2 * (p % cells) + 1) = ATTRIBUTE := by
  have hcursor := h.cursor
  have hcell := htop.cell
  simp only [Console.store]
  by_cases hp : p = s.pos
  · rw [hp, Sheet.type_self] at hcell
    rw [← Option.some.inj hcell, hp, ← hcursor, Function.update_of_ne (by omega), Nat.mul_comm 2,
      Function.update_self, Function.update_self]
    exact ⟨rfl, rfl⟩
  · rw [Sheet.type_of_ne hp] at hcell
    have hlt : p < s.pos := by
      by_contra hge
      rw [s.ahead p (by omega)] at hcell
      cases hcell
    have hne : s.pos % cells ≠ p % cells := by
      intro heq
      have hnone := htop.last s.pos hlt heq
      rw [Sheet.type_self] at hnone
      cases hnone
    have hold : s.Top p d := by
      refine ⟨hcell, fun q hq hmod => ?_⟩
      rw [← Sheet.type_of_ne (fun heq => hne (heq ▸ hmod))]
      exact htop.last q hq hmod
    rw [Function.update_of_ne (by omega), Function.update_of_ne (by omega), Function.update_of_ne (by omega),
      Function.update_of_ne (by omega)]
    exact h.top p d hold

theorem Shows.store_rest (h : Shows v s t) (hrest : ∀ p, p % cells = a / 2 → (s.type b).cell p = none) :
    (t.store b).video a = v a := by
  have hcursor := h.cursor
  have hne : s.pos % cells ≠ a / 2 := by
    intro heq
    have hnone := hrest s.pos heq
    rw [Sheet.type_self] at hnone
    cases hnone
  simp only [Console.store]
  rw [Function.update_of_ne (by omega), Function.update_of_ne (by omega)]
  refine h.rest a fun p hp => ?_
  rw [← Sheet.type_of_ne (fun heq => hne (heq ▸ hp))]
  exact hrest p hp

theorem Shows.putchar (h : Shows v s t) (c : BitVec 32) : Shows v (s.put c) (putchar c t) := by
  have hcolumn := h.column
  have hline := h.line
  rw [putchar_eq, Sheet.put]
  rw [COLUMNS] at hcolumn hline
  rw [LINES] at hline
  by_cases hbreak : LineBreak c
  · rw [if_pos hbreak, if_pos hbreak]
    exact h.newline
  · rw [if_neg hbreak, if_neg hbreak]
    split
    · next hend =>
      -- behind the last column the cursor goes to the next line by itself
      rw [COLUMNS] at hend
      refine ⟨?_, ?_, fun p d htop => h.store_top htop, fun a hrest => h.store_rest hrest⟩
      · change 0 = (s.pos + 1) % COLUMNS
        rw [COLUMNS]
        omega
      · change (if t.ypos + 1 ≥ LINES then 0 else t.ypos + 1) = (s.pos + 1) / COLUMNS % LINES
        rw [COLUMNS, LINES]
        split <;> omega
    · next hend =>
      rw [COLUMNS] at hend
      refine ⟨?_, ?_, fun p d htop => h.store_top htop, fun a hrest => h.store_rest hrest⟩
      · change t.xpos + 1 = (s.pos + 1) % COLUMNS
        rw [COLUMNS]
        omega
      · change t.ypos = (s.pos + 1) / COLUMNS % LINES
        rw [COLUMNS, LINES]
        omega

theorem Shows.putAll (h : Shows v s t) (l : List (BitVec 32)) : Shows v (s.write l) (putAll l t) := by
  induction l generalizing s t with
  | nil => exact h
  | cons c l ih => exact ih (h.putchar c)

end XyOS.Driver
