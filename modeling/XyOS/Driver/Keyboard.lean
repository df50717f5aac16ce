import Mathlib.Logic.Function.Basic
import XyOS.Foundation.Runs
import XyOS.Foundation.Word

/-! The keyboard handler of `keyboard.c`, one call for each byte of the controller.
The lookup in `keymap` is a parameter. -/

namespace XyOS.Driver
open Runs

def kKeyboardBufSize : ℕ := 0x400

structure Keyboard where
  keyCounter : UInt8
  inputBuf : ℕ → UInt8
  cur : UInt32

/-- `case 1` runs into `case 2` when the byte is `0xf0`. -/
def keyboardHandler (mapGet : UInt8 → UInt8) (k : Keyboard) (input : UInt8) : Except Fault Keyboard :=
  if k.keyCounter % 3 = 0 then
    if k.cur.toNat < kKeyboardBufSize then
      .ok { keyCounter := k.keyCounter + 1
            inputBuf := Function.update k.inputBuf k.cur.toNat (mapGet input)
            cur := k.cur + 1 }
    else .error .outOfBounds
  else if k.keyCounter % 3 = 1 ∧ input ≠ 0xf0 then
    .ok { k with cur := k.cur - 1, keyCounter := k.keyCounter + 1 }
  else .ok { k with keyCounter := 0 }

def stroke (key : UInt8) : List UInt8 := [key, 0xf0, key]

def strokes (keys : List UInt8) : List UInt8 := keys.flatMap stroke

structure Decoded (mapGet : UInt8 → UInt8) (keys : List UInt8) (k : Keyboard) : Prop where
  cur : k.cur.toNat = keys.length
  keyCounter : k.keyCounter = 0
  inputBuf : ∀ i (h : i < keys.length), k.inputBuf i = mapGet keys[i]

variable {mapGet : UInt8 → UInt8} {k : Keyboard} {key : UInt8} {keys : List UInt8}

theorem run_stroke_first (mapGet : UInt8 → UInt8) (key : UInt8) (hcounter : k.keyCounter = 0)
    (hcur : k.cur = 0) :
    ∃ k', run (keyboardHandler mapGet) k (stroke key) = .ok k' ∧ k'.keyCounter = 1 ∧ k'.cur = 2 := by
  obtain ⟨counter, buf, cur⟩ := k
  obtain rfl : counter = 0 := hcounter
  obtain rfl : cur = 0 := hcur
  exact ⟨_, rfl, rfl, rfl⟩

theorem run_stroke_next (hkey : key ≠ 0xf0) (hcounter : k.keyCounter = 1) (hcur : k.cur = 2) :
    ∃ k', run (keyboardHandler mapGet) k (stroke key) = .ok k' ∧ k'.keyCounter = 1 ∧ k'.cur = 2 := by
  obtain ⟨counter, buf, cur⟩ := k
  obtain rfl : counter = 1 := hcounter
  obtain rfl : cur = 2 := hcur
  -- the press is taken for a wrong byte and removes a character, which the release puts back
  have hpress : keyboardHandler mapGet ⟨1, buf, 2⟩ key = .ok ⟨1 + 1, buf, 2 - 1⟩ := by
    rw [keyboardHandler, if_neg (by simp), if_pos ⟨rfl, hkey⟩]
  rw [stroke, run_cons hpress]
  exact ⟨_, rfl, rfl, rfl⟩

theorem run_strokes_next (hkeys : ∀ key ∈ keys, key ≠ 0xf0) (hcounter : k.keyCounter = 1) (hcur : k.cur = 2) :
    ∃ k', run (keyboardHandler mapGet) k (strokes keys) = .ok k' ∧ k'.keyCounter = 1 ∧ k'.cur = 2 := by
  induction keys generalizing k with
  | nil => exact ⟨k, rfl, hcounter, hcur⟩
  | cons key keys ih =>
    obtain ⟨k₁, hrun₁, hcounter₁, hcur₁⟩ := run_stroke_next (hkeys key List.mem_cons_self) hcounter hcur
    obtain ⟨k₂, hrun₂, hk₂⟩ := ih (fun key hkey => hkeys key (List.mem_cons_of_mem _ hkey)) hcounter₁ hcur₁
    exact ⟨k₂, (run_append hrun₁ _).trans hrun₂, hk₂⟩

theorem run_strokes (hkeys : ∀ key ∈ keys, key ≠ 0xf0) (hne : keys ≠ []) (hcounter : k.keyCounter = 0)
    (hcur : k.cur = 0) :
    ∃ k', run (keyboardHandler mapGet) k (strokes keys) = .ok k' ∧ k'.keyCounter = 1 ∧ k'.cur = 2 := by
  obtain ⟨key, rest, rfl⟩ := List.exists_cons_of_ne_nil hne
  obtain ⟨k₁, hrun₁, hcounter₁, hcur₁⟩ := run_stroke_first mapGet key hcounter hcur
  obtain ⟨k₂, hrun₂, hk₂⟩ :=
    run_strokes_next (fun key hkey => hkeys key (List.mem_cons_of_mem _ hkey)) hcounter₁ hcur₁
  exact ⟨k₂, (run_append hrun₁ _).trans hrun₂, hk₂⟩

theorem strokes_decoded_iff (mapGet : UInt8 → UInt8) (buf : ℕ → UInt8) (keys : List UInt8)
    (hkeys : ∀ key ∈ keys, key ≠ 0xf0) :
    (∃ k, run (keyboardHandler mapGet) ⟨0, buf, 0⟩ (strokes keys) = .ok k ∧ Decoded mapGet keys k) ↔
      keys = [] := by
  constructor
  · rintro ⟨k, hrun, hk⟩
    by_contra hne
    obtain ⟨k', hrun', hcounter, -⟩ := run_strokes (k := ⟨0, buf, 0⟩) hkeys hne rfl rfl
    obtain rfl := Except.ok.inj (hrun.symm.trans hrun')
    rw [hk.keyCounter] at hcounter
    exact absurd hcounter (by decide)
  · rintro rfl
    exact ⟨_, rfl, rfl, rfl, fun i h => absurd h (Nat.not_lt_zero i)⟩

theorem strokes_decoded_iff_two :
    ¬ ∃ k, run (keyboardHandler id) ⟨0, fun _ => 0, 0⟩ (strokes [0x1c, 0x32]) = .ok k ∧
      Decoded id [0x1c, 0x32] k := by
  rw [strokes_decoded_iff id (fun _ => 0) [0x1c, 0x32] (by simp)]
  exact List.cons_ne_nil _ _

theorem one_stroke_two_characters : ∃ k, run (keyboardHandler id) ⟨0, fun _ => 0, 0⟩ (strokes [0x1c]) = .ok k ∧
    k.cur = 2 ∧ ¬ Decoded id [0x1c] k := by
  obtain ⟨k, hrun, -, hcur⟩ := run_stroke_first (k := ⟨0, fun _ => 0, 0⟩) id 0x1c rfl rfl
  refine ⟨k, hrun, hcur, fun h => ?_⟩
  have := h.cur
  rw [hcur] at this
  exact absurd this (by decide)

def freeKeyboardBuffer (k : Keyboard) : Keyboard := { k with cur := 0, keyCounter := 0 }

inductive KeyboardEvent where
  | byte (input : UInt8)
  | free

def keyboardStep (mapGet : UInt8 → UInt8) (k : Keyboard) : KeyboardEvent → Except Fault Keyboard
  | .byte input => keyboardHandler mapGet k input
  | .free => .ok (freeKeyboardBuffer k)

/-- The byte is written inside `input_buf`, and `cur--` does not pass below 0. -/
def IndexInBounds (k : Keyboard) : KeyboardEvent → Prop
  | .byte input => (k.keyCounter % 3 = 0 → k.cur.toNat < kKeyboardBufSize) ∧
      (k.keyCounter % 3 = 1 → input ≠ 0xf0 → 0 < k.cur.toNat)
  | .free => True

/-- The pairs `x, 0xf0` of a stream in which any other second byte spoils three bytes. -/
def pairs : List UInt8 → ℕ
  | [] => 0
  | [_] => 0
  | [_, y] => if y = 0xf0 then 1 else 0
  | _ :: y :: z :: bytes => if y = 0xf0 then pairs (z :: bytes) + 1 else pairs bytes

def segments : List KeyboardEvent → List (List UInt8)
  | [] => [[]]
  | .free :: events => [] :: segments events
  | .byte input :: events => (segments events).modifyHead (input :: ·)

variable {c : ℕ} {x : UInt8} {bytes : List UInt8} {events : List KeyboardEvent}

theorem keyboardStep_first (mapGet : UInt8 → UInt8) (x : UInt8) (hcounter : k.keyCounter = 0)
    (hcur : k.cur.toNat < kKeyboardBufSize) :
    ∃ k', keyboardStep mapGet k (.byte x) = .ok k' ∧ k'.keyCounter = 1 ∧ k'.cur.toNat = k.cur.toNat + 1 := by
  refine ⟨⟨k.keyCounter + 1, Function.update k.inputBuf k.cur.toNat (mapGet x), k.cur + 1⟩, ?_, ?_, ?_⟩
  · rw [keyboardStep, keyboardHandler, if_pos (by rw [hcounter]; rfl), if_pos hcur]
  · rw [hcounter]
    rfl
  · rw [kKeyboardBufSize] at hcur
    rw [UInt32.toNat_add, UInt32.toNat_one]
    omega

theorem keyboardStep_pair (hcounter : k.keyCounter = 1) :
    keyboardStep mapGet k (.byte 0xf0) = .ok { k with keyCounter := 0 } := by
  rw [keyboardStep, keyboardHandler, if_neg (by rw [hcounter]; decide), if_neg (fun h => h.2 rfl)]

theorem keyboardStep_spoilt (hcounter : k.keyCounter = 1) (hx : x ≠ 0xf0) :
    keyboardStep mapGet k (.byte x) = .ok { k with cur := k.cur - 1, keyCounter := 2 } := by
  rw [keyboardStep, keyboardHandler, if_neg (by rw [hcounter]; decide), if_pos ⟨by rw [hcounter]; rfl, hx⟩,
    hcounter]
  rfl

theorem keyboardStep_last (hcounter : k.keyCounter = 2) :
    keyboardStep mapGet k (.byte x) = .ok { k with keyCounter := 0 } := by
  rw [keyboardStep, keyboardHandler, if_neg (by rw [hcounter]; decide),
    if_neg (fun h => absurd h.1 (by rw [hcounter]; decide))]

theorem indexInBounds_first (hcounter : k.keyCounter = 0) :
    IndexInBounds k (.byte x) ↔ k.cur.toNat < kKeyboardBufSize := by
  rw [IndexInBounds, hcounter]
  exact ⟨fun h => h.1 rfl, fun h => ⟨fun _ => h, fun hmod => absurd hmod (by decide)⟩⟩

theorem indexInBounds_second (hcounter : k.keyCounter = 1) (hcur : 0 < k.cur.toNat) :
    IndexInBounds k (.byte x) := by
  rw [IndexInBounds, hcounter]
  exact ⟨fun hmod => absurd hmod (by decide), fun _ _ => hcur⟩

theorem indexInBounds_last (hcounter : k.keyCounter = 2) : IndexInBounds k (.byte x) := by
  rw [IndexInBounds, hcounter]
  exact ⟨fun hmod => absurd hmod (by decide), fun hmod => absurd hmod (by decide)⟩

theorem along_first (mapGet : UInt8 → UInt8) (x : UInt8) (hcounter : k.keyCounter = 0) (hcur : k.cur.toNat = c)
    (hc : c < kKeyboardBufSize) : ∃ k', k'.keyCounter = 1 ∧ k'.cur.toNat = c + 1 ∧
      ∀ events, Along (keyboardStep mapGet) IndexInBounds k (.byte x :: events) ↔
        Along (keyboardStep mapGet) IndexInBounds k' events := by
  subst hcur
  obtain ⟨k', hstep, hcounter', hcur'⟩ := keyboardStep_first mapGet x hcounter hc
  refine ⟨k', hcounter', hcur', fun events => ?_⟩
  rw [along_cons hstep, indexInBounds_first hcounter]
  exact and_iff_right hc

theorem along_pair (mapGet : UInt8 → UInt8) (hcounter : k.keyCounter = 1) (hcur : k.cur.toNat = c + 1) :
    ∃ k', k'.keyCounter = 0 ∧ k'.cur.toNat = c + 1 ∧
      ∀ events, Along (keyboardStep mapGet) IndexInBounds k (.byte 0xf0 :: events) ↔
        Along (keyboardStep mapGet) IndexInBounds k' events := by
  refine ⟨{ k with keyCounter := 0 }, rfl, hcur, fun events => ?_⟩
  rw [along_cons (keyboardStep_pair hcounter)]
  exact and_iff_right (indexInBounds_second hcounter (by omega))

theorem along_spoilt (mapGet : UInt8 → UInt8) (hcounter : k.keyCounter = 1) (hcur : k.cur.toNat = c + 1)
    (hx : x ≠ 0xf0) : ∃ k', k'.keyCounter = 2 ∧ k'.cur.toNat = c ∧
      ∀ events, Along (keyboardStep mapGet) IndexInBounds k (.byte x :: events) ↔
        Along (keyboardStep mapGet) IndexInBounds k' events := by
  refine ⟨{ k with cur := k.cur - 1, keyCounter := 2 }, rfl, ?_, fun events => ?_⟩
  · have hle : (1 : UInt32) ≤ k.cur := by
      rw [UInt32.le_iff_toNat_le, hcur, UInt32.toNat_one]
      omega
    change (k.cur - 1).toNat = c
    rw [UInt32.toNat_sub_of_le _ _ hle, hcur, UInt32.toNat_one, Nat.add_sub_cancel]
  · rw [along_cons (keyboardStep_spoilt hcounter hx)]
    exact and_iff_right (indexInBounds_second hcounter (by omega))

theorem along_last (mapGet : UInt8 → UInt8) (x : UInt8) (hcounter : k.keyCounter = 2) (hcur : k.cur.toNat = c) :
    ∃ k', k'.keyCounter = 0 ∧ k'.cur.toNat = c ∧
      ∀ events, Along (keyboardStep mapGet) IndexInBounds k (.byte x :: events) ↔
        Along (keyboardStep mapGet) IndexInBounds k' events := by
  refine ⟨{ k with keyCounter := 0 }, rfl, hcur, fun events => ?_⟩
  rw [along_cons (keyboardStep_last hcounter)]
  exact and_iff_right (indexInBounds_last hcounter)

theorem along_first_iff {P : Prop} (hcounter : k.keyCounter = 0) (hcur : k.cur.toNat = c)
    (hP : P → c < kKeyboardBufSize)
    (hrest : c < kKeyboardBufSize → ∀ k', k'.keyCounter = 1 → k'.cur.toNat = c + 1 →
      (Along (keyboardStep mapGet) IndexInBounds k' events ↔ P)) :
    Along (keyboardStep mapGet) IndexInBounds k (.byte x :: events) ↔ P := by
  by_cases hc : c < kKeyboardBufSize
  · obtain ⟨k', hcounter', hcur', hfirst⟩ := along_first mapGet x hcounter hcur hc
    rw [hfirst, hrest hc k' hcounter' hcur']
  · refine iff_of_false (fun h => hc ?_) fun h => hc (hP h)
    rw [← hcur]
    exact (indexInBounds_first hcounter).mp h.1

theorem pairs_pair {y : UInt8} {l : List UInt8} (hy : y = 0xf0) : pairs (x :: y :: l) = pairs l + 1 := by
  cases l with
  | nil => exact if_pos hy
  | cons z l => rw [pairs, if_pos hy]

theorem pairs_spoilt {y : UInt8} {l : List UInt8} (hy : y ≠ 0xf0) : pairs (x :: y :: l) = pairs l.tail := by
  cases l with
  | nil => exact if_neg hy
  | cons z l => rw [pairs, if_neg hy, List.tail_cons]

theorem along_bytes_iff (hcounter : k.keyCounter = 0) (hcur : k.cur.toNat = c) :
    Along (keyboardStep mapGet) IndexInBounds k (bytes.map .byte) ↔
      (bytes ≠ [] → c + pairs bytes.dropLast < kKeyboardBufSize) := by
  -- induction over the groups, each of which leaves `keyCounter` at 0
  induction bytes using pairs.induct generalizing k c with
  | case1 => exact ⟨fun _ h => absurd rfl h, fun _ => trivial⟩
  | case2 x =>
    refine along_first_iff hcounter hcur (fun h => h (List.cons_ne_nil _ _)) fun hc k₁ _ _ => ?_
    exact ⟨fun _ _ => hc, fun _ => trivial⟩
  | case3 x =>
    refine along_first_iff hcounter hcur (fun h => h (List.cons_ne_nil _ _)) fun hc k₁ hcounter₁ hcur₁ => ?_
    obtain ⟨k₂, -, -, hsecond⟩ := along_pair mapGet hcounter₁ hcur₁
    rw [List.map_cons, hsecond]
    exact ⟨fun _ _ => hc, fun _ => trivial⟩
  | case4 x y hy =>
    refine along_first_iff hcounter hcur (fun h => h (List.cons_ne_nil _ _)) fun hc k₁ hcounter₁ hcur₁ => ?_
    obtain ⟨k₂, -, -, hsecond⟩ := along_spoilt mapGet hcounter₁ hcur₁ hy
    rw [List.map_cons, hsecond]
    exact ⟨fun _ _ => hc, fun _ => trivial⟩
  | case5 x z bytes ih =>
    rw [List.dropLast_cons_cons, List.dropLast_cons_cons, pairs_pair rfl]
    refine along_first_iff hcounter hcur (fun h => ?_) fun _ k₁ hcounter₁ hcur₁ => ?_
    · have := h (List.cons_ne_nil _ _)
      omega
    · obtain ⟨k₂, hcounter₂, hcur₂, hsecond⟩ := along_pair mapGet hcounter₁ hcur₁
      rw [List.map_cons, hsecond, ih hcounter₂ hcur₂]
      simp only [ne_eq, reduceCtorEq, not_false_eq_true, true_imp_iff]
      omega
  | case6 x y z bytes hy ih =>
    rw [List.dropLast_cons_cons, List.dropLast_cons_cons, pairs_spoilt hy]
    refine along_first_iff hcounter hcur (fun h => ?_) fun hc k₁ hcounter₁ hcur₁ => ?_
    · have := h (List.cons_ne_nil _ _)
      omega
    · obtain ⟨k₂, hcounter₂, hcur₂, hsecond⟩ := along_spoilt mapGet hcounter₁ hcur₁ hy
      obtain ⟨k₃, hcounter₃, hcur₃, hthird⟩ := along_last mapGet z hcounter₂ hcur₂
      rw [List.map_cons, hsecond, List.map_cons, hthird, ih hcounter₃ hcur₃]
      cases bytes with
      | nil => exact ⟨fun _ _ => hc, fun _ h => absurd rfl h⟩
      | cons w bytes =>
        rw [List.dropLast_cons_cons, List.tail_cons]
        exact ⟨fun h _ => h (List.cons_ne_nil _ _), fun h _ => h (List.cons_ne_nil _ _)⟩

theorem keyboardStep_returns {e : KeyboardEvent} (h : IndexInBounds k e) :
    ∃ k', keyboardStep mapGet k e = .ok k' := by
  cases e with
  | free => exact ⟨_, rfl⟩
  | byte x =>
    rw [keyboardStep, keyboardHandler]
    split
    · next hmod => exact ⟨_, if_pos (h.1 hmod)⟩
    · split
      · exact ⟨_, rfl⟩
      · exact ⟨_, rfl⟩

theorem segments_bytes (bytes : List UInt8) : segments (bytes.map .byte) = [bytes] := by
  induction bytes with
  | nil => rfl
  | cons x bytes ih =>
    rw [List.map_cons, segments, ih]
    rfl

theorem segments_free (bytes : List UInt8) (events : List KeyboardEvent) :
    segments (bytes.map .byte ++ .free :: events) = bytes :: segments events := by
  induction bytes with
  | nil => rfl
  | cons x bytes ih =>
    rw [List.map_cons, List.cons_append, segments, ih]
    rfl

theorem exists_bytes (events : List KeyboardEvent) : ∃ bytes : List UInt8, events = bytes.map .byte ∨
    ∃ rest, rest.length < events.length ∧ events = bytes.map .byte ++ .free :: rest := by
  induction events with
  | nil => exact ⟨[], .inl rfl⟩
  | cons e events ih =>
    cases e with
    | free => exact ⟨[], .inr ⟨events, Nat.lt_succ_self _, rfl⟩⟩
    | byte x =>
      obtain ⟨bytes, rfl | ⟨rest, hlt, rfl⟩⟩ := ih
      · exact ⟨x :: bytes, .inl rfl⟩
      · exact ⟨x :: bytes, .inr ⟨rest, Nat.lt_succ_of_lt hlt, rfl⟩⟩

theorem pairs_fit_iff : (bytes ≠ [] → 0 + pairs bytes.dropLast < kKeyboardBufSize) ↔
    pairs bytes.dropLast < kKeyboardBufSize := by
  rw [Nat.zero_add]
  refine ⟨fun h => ?_, fun h _ => h⟩
  by_cases hnil : bytes = []
  · rw [hnil]
    decide
  · exact h hnil

/-- The index stays in bounds exactly when, between two calls of `free_keyboard_buffer`, fewer
pairs than the buffer has places are followed by another byte. -/
theorem index_in_bounds_iff (mapGet : UInt8 → UInt8) (buf : ℕ → UInt8) (events : List KeyboardEvent) :
    Along (keyboardStep mapGet) IndexInBounds ⟨0, buf, 0⟩ events ↔
      ∀ bytes ∈ segments events, pairs bytes.dropLast < kKeyboardBufSize := by
  induction hn : events.length using Nat.strongRecOn generalizing events buf with
  | ind n ih =>
    have hbytes : ∀ bytes : List UInt8, Along (keyboardStep mapGet) IndexInBounds ⟨0, buf, 0⟩ (bytes.map .byte) ↔
        pairs bytes.dropLast < kKeyboardBufSize :=
      fun bytes => (along_bytes_iff rfl rfl).trans pairs_fit_iff
    obtain ⟨bytes, rfl | ⟨rest, hlt, rfl⟩⟩ := exists_bytes events
    · rw [hbytes, segments_bytes, List.forall_mem_singleton]
    · rw [segments_free, List.forall_mem_cons, along_append]
      -- the buffer that is left behind by the bytes does not matter after the call
      have hfree : ∀ k, Along (keyboardStep mapGet) IndexInBounds k (.free :: rest) ↔
          ∀ bytes ∈ segments rest, pairs bytes.dropLast < kKeyboardBufSize := fun k =>
        (along_cons rfl).trans ((and_iff_right trivial).trans (ih _ (hn ▸ hlt) k.inputBuf rest rfl))
      constructor
      · rintro ⟨hbefore, hafter⟩
        obtain ⟨k', hrun, -⟩ := run_returns (I := fun _ => True)
          (fun k e _ he => (keyboardStep_returns he).imp fun _ hk' => ⟨hk', trivial⟩) trivial hbefore
        exact ⟨(hbytes bytes).mp hbefore, (hfree k').mp (hafter k' hrun)⟩
      · rintro ⟨hbefore, hafter⟩
        exact ⟨(hbytes bytes).mpr hbefore, fun k' _ => (hfree k').mpr hafter⟩

theorem pairs_flatten_replicate (n : ℕ) (x : UInt8) : pairs (List.replicate n [x, 0xf0]).flatten = n := by
  induction n with
  | zero => rfl
  | succ n ih => rw [List.replicate_succ, List.flatten_cons, List.cons_append, List.cons_append,
      List.nil_append, pairs_pair rfl, ih]

theorem index_out_of_bounds : ¬ Along (keyboardStep id) IndexInBounds ⟨0, fun _ => 0, 0⟩
    (((List.replicate 1024 [(0x1c : UInt8), 0xf0]).flatten ++ [0x1c]).map .byte) := by
  rw [along_bytes_iff rfl rfl]
  intro h
  have hlt := h (List.append_ne_nil_of_right_ne_nil _ (List.cons_ne_nil _ _))
  rw [List.dropLast_concat, pairs_flatten_replicate] at hlt
  exact absurd hlt (by decide)

end XyOS.Driver
