import Mathlib.Logic.Function.Basic
import XyOS.Foundation.Bytes

/-! A 32-bit stack machine: a few registers, a byte memory and the instructions that
move words between them. -/

namespace XyOS.Machine

inductive Reg
  | eax
  | edx
  | ebx
  | esi
  | edi
  | ebp
deriving DecidableEq

structure Cpu where
  reg : Reg → BitVec 32
  esp : BitVec 32
  eip : BitVec 32
  interrupts : Bool
  mem : Memory

def load (m : Memory) (a : BitVec 32) : BitVec 32 := BitVec.ofNat 32 (readWord m a.toNat)

def store (m : Memory) (a v : BitVec 32) : Memory := writeWord m a.toNat v.toNat

inductive Instr
  | movFromStack (disp : BitVec 32) (r : Reg)
  | push (r : Reg)
  | pop (r : Reg)
  | movEspTo (r : Reg)
  | movToEsp (r : Reg)
  | sti
  | ret

def step (c : Cpu) : Instr → Cpu
  | .movFromStack disp r => { c with reg := Function.update c.reg r (load c.mem (c.esp + disp)) }
  | .push r => { c with esp := c.esp - 4#32, mem := store c.mem (c.esp - 4#32) (c.reg r) }
  | .pop r => { c with reg := Function.update c.reg r (load c.mem c.esp), esp := c.esp + 4#32 }
  | .movEspTo r => { c with mem := store c.mem (c.reg r) c.esp }
  | .movToEsp r => { c with esp := load c.mem (c.reg r) }
  | .sti => { c with interrupts := true }
  | .ret => { c with eip := load c.mem c.esp, esp := c.esp + 4#32 }

def exec (code : List Instr) (c : Cpu) : Cpu := code.foldl step c

def loadHalf (m : Memory) (a : BitVec 32) : BitVec 16 := (m (a.toNat + 1)).toBitVec ++ (m a.toNat).toBitVec

def storeHalf (m : Memory) (a : BitVec 32) (w : BitVec 16) : Memory :=
  Function.update (Function.update m a.toNat ⟨w.setWidth 8⟩) (a.toNat + 1) ⟨(w >>> 8).setWidth 8⟩

variable {m m' : Memory} {a b v : BitVec 32} {w : BitVec 16}

theorem load_store_self (m : Memory) (a v : BitVec 32) : load (store m a v) a = v := by
  rw [load, store, readWord_writeWord v.isLt, BitVec.ofNat_toNat, BitVec.setWidth_eq]

theorem load_store_of_apart (h : b.toNat + 4 ≤ a.toNat ∨ a.toNat + 4 ≤ b.toNat) :
    load (store m a v) b = load m b := by
  rw [load, store, readWord_writeWord_of_disjoint h, load]

theorem store_of_outside {x : ℕ} (h : x < a.toNat ∨ a.toNat + 4 ≤ x) : store m a v x = m x :=
  writeWord_of_lt_or_gt h

theorem load_congr (h : ∀ x, a.toNat ≤ x → x < a.toNat + 4 → m' x = m x) : load m' a = load m a := by
  rw [load, readWord_congr h, load]

theorem loadHalf_storeHalf_self (m : Memory) (a : BitVec 32) (w : BitVec 16) : loadHalf (storeHalf m a w) a = w := by
  rw [loadHalf, storeHalf, Function.update_self, Function.update_of_ne (by omega), Function.update_self]
  apply BitVec.eq_of_getLsbD_eq
  intro i hi
  simp only [BitVec.getLsbD_append, BitVec.getLsbD_setWidth, BitVec.getLsbD_ushiftRight]
  split <;> grind

theorem storeHalf_of_outside {x : ℕ} (h : x < a.toNat ∨ a.toNat + 2 ≤ x) : storeHalf m a w x = m x := by
  rw [storeHalf, Function.update_of_ne (by omega), Function.update_of_ne (by omega)]

theorem loadHalf_congr (h : ∀ x, a.toNat ≤ x → x < a.toNat + 2 → m' x = m x) : loadHalf m' a = loadHalf m a := by
  rw [loadHalf, loadHalf, h _ (by omega) (by omega), h _ (by omega) (by omega)]

theorem toNat_sub_lit {n : ℕ} (hn : n < 2 ^ 32) (h : n ≤ a.toNat) :
    (a - BitVec.ofNat 32 n).toNat = a.toNat - n := by
  have hn' : (BitVec.ofNat 32 n).toNat = n := by rw [BitVec.toNat_ofNat, Nat.mod_eq_of_lt hn]
  rw [BitVec.toNat_sub_of_le (by rw [BitVec.le_def, hn']; exact h), hn']

theorem toNat_add_lit {n : ℕ} (h : a.toNat + n < 2 ^ 32) :
    (a + BitVec.ofNat 32 n).toNat = a.toNat + n := by
  rw [BitVec.toNat_add, BitVec.toNat_ofNat, Nat.add_mod_mod, Nat.mod_eq_of_lt h]

theorem sub_lit_sub_lit (a : BitVec 32) (i j : ℕ) :
    a - BitVec.ofNat 32 i - BitVec.ofNat 32 j = a - BitVec.ofNat 32 (i + j) := by
  bv_omega

theorem sub_lit_add_lit (a : BitVec 32) {i j : ℕ} (h : j ≤ i) :
    a - BitVec.ofNat 32 i + BitVec.ofNat 32 j = a - BitVec.ofNat 32 (i - j) := by
  bv_omega

theorem add_lit_add_lit (a : BitVec 32) (i j : ℕ) :
    a + BitVec.ofNat 32 i + BitVec.ofNat 32 j = a + BitVec.ofNat 32 (i + j) := by
  bv_omega

theorem add_lit_sub_lit (a : BitVec 32) {i j : ℕ} (h : i ≤ j) :
    a + BitVec.ofNat 32 i - BitVec.ofNat 32 j = a - BitVec.ofNat 32 (j - i) := by
  bv_omega

theorem load_store_below {i j : ℕ} (h : i + 4 ≤ j ∨ j + 4 ≤ i) (hi : i ≤ b.toNat) (hj : j ≤ b.toNat) :
    load (store m (b - BitVec.ofNat 32 j) v) (b - BitVec.ofNat 32 i) = load m (b - BitVec.ofNat 32 i) := by
  have hlt := b.isLt
  have hi' : (b - BitVec.ofNat 32 i).toNat = b.toNat - i := toNat_sub_lit (by omega) hi
  have hj' : (b - BitVec.ofNat 32 j).toNat = b.toNat - j := toNat_sub_lit (by omega) hj
  exact load_store_of_apart (by omega)

theorem toNat_below {i : ℕ} (hi : i ≤ b.toNat) : (b - BitVec.ofNat 32 i).toNat = b.toNat - i :=
  toNat_sub_lit (by have := b.isLt; omega) hi

theorem load_storeHalf_below {i j : ℕ} (h : i + 2 ≤ j ∨ j + 4 ≤ i) (hi : i ≤ b.toNat) (hj : j ≤ b.toNat) :
    load (storeHalf m (b - BitVec.ofNat 32 j) w) (b - BitVec.ofNat 32 i) = load m (b - BitVec.ofNat 32 i) := by
  have hi' := toNat_below hi
  have hj' := toNat_below hj
  exact load_congr fun x _ _ => storeHalf_of_outside (by omega)

theorem loadHalf_store_below {i j : ℕ} (h : i + 4 ≤ j ∨ j + 2 ≤ i) (hi : i ≤ b.toNat) (hj : j ≤ b.toNat) :
    loadHalf (store m (b - BitVec.ofNat 32 j) v) (b - BitVec.ofNat 32 i) =
      loadHalf m (b - BitVec.ofNat 32 i) := by
  have hi' := toNat_below hi
  have hj' := toNat_below hj
  exact loadHalf_congr fun x _ _ => store_of_outside (by omega)

theorem loadHalf_storeHalf_below {i j : ℕ} (h : i + 2 ≤ j ∨ j + 2 ≤ i) (hi : i ≤ b.toNat) (hj : j ≤ b.toNat) :
    loadHalf (storeHalf m (b - BitVec.ofNat 32 j) w) (b - BitVec.ofNat 32 i) =
      loadHalf m (b - BitVec.ofNat 32 i) := by
  have hi' := toNat_below hi
  have hj' := toNat_below hj
  exact loadHalf_congr fun x _ _ => storeHalf_of_outside (by omega)

end XyOS.Machine
