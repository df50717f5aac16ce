import XyOS.Foundation.Text
import XyOS.Memory.PagingInit

/-! Linear memory under the page tables of `PagingInit`. -/

namespace XyOS.Paging
open DirectMapping PageAllocator Text

def InTables (x : ℕ) : Prop := 0x1000 ≤ x ∧ x < 0x2000 ∨ 0xc000 ≤ x ∧ x < 0x1d000

structure Tables (m : Memory) : Prop extends KernelTables m where
  pde : ∀ i < 1024, readWord m (0x1000 + 4 * i) = (initialPde i).toWord

def translate (v : ℕ) : Option ℕ :=
  if v < 0x400000 then some v
  else if 0xc0000000 ≤ v ∧ v < 0xc4000000 then some (v - 0xc0000000)
  else none

/-- A store of bytes from the linear address `v` on, `none` for a page fault. -/
def storeBytes (pd : ℕ) : Memory → ℕ → List UInt8 → Option Memory
  | m, _, [] => some m
  | m, v, c :: l => (walk m pd v).bind fun x => storeBytes pd (Function.update m x c) (u32 (v + 1)) l

/-- The bytes at linear addresses, with zeros where no page is present. -/
def linearMemory (pd : ℕ) (m : Memory) : Memory := fun v => ((walk m pd v).map m).getD 0

def Shows (lin m : Memory) : Prop := ∀ x < 0x4000000, lin (0xc0000000 + x) = m x

variable {m m' lin : Memory} {x p v : ℕ} {l : List UInt8}

theorem tables_kernelTables (m : Memory) : Tables (kernelTables m) :=
  ⟨(kernelTables_spec m).1, (kernelTables_spec m).2.1⟩

theorem Tables.of_eq (h : Tables m) (heq : ∀ x, InTables x → m' x = m x) : Tables m' where
  identity j hj := by
    rw [readWord_congr fun x _ _ => heq x (by unfold InTables; omega), h.identity j hj]
  direct i hi j hj := by
    rw [readWord_congr fun x _ _ => heq x (by unfold InTables; omega), h.direct i hi j hj]
  pde i hi := by
    rw [readWord_congr fun x _ _ => heq x (by unfold InTables; omega), h.pde i hi]

theorem Tables.walk (h : Tables m) (hv : v < 2 ^ 32) : walk m 0x1000 v = translate v := by
  have hpde := h.pde (v / 2 ^ 22) (by omega)
  rw [translate]
  by_cases hid : v < 0x400000
  · rw [if_pos hid]
    have hfirst := h.pde 0 (by omega)
    rw [Nat.mul_zero, Nat.add_zero] at hfirst
    exact h.walk_identity hid (hfirst.trans (by decide))
  rw [if_neg hid]
  by_cases hdir : 0xc0000000 ≤ v ∧ v < 0xc4000000
  · rw [if_pos hdir]
    exact h.direct.walk hdir.1 hdir.2 (hpde.trans (initialPde_direct (by omega) (by omega)))
  · rw [if_neg hdir]
    exact walk_absent ((congrArg (· % 2) hpde).trans (initialPde_absent (by omega) (by omega)))

theorem Tables.walk_direct (h : Tables m) (hx : x < 0x4000000) : Paging.walk m 0x1000 (0xc0000000 + x) = some x := by
  rw [h.walk (by omega), translate, if_neg (by omega), if_pos (by omega), Nat.add_sub_cancel_left]

theorem Tables.shows (h : Tables m) : Shows (linearMemory 0x1000 m) m := by
  intro x hx
  rw [linearMemory, h.walk_direct hx]
  rfl

theorem Shows.writeBytes (h : Shows lin m) (p : ℕ) (l : List UInt8) :
    Shows (writeBytes lin (0xc0000000 + p) l) (writeBytes m p l) := by
  intro x hx
  by_cases hin : p ≤ x ∧ x < p + l.length
  · obtain ⟨i, rfl⟩ := Nat.exists_eq_add_of_le hin.1
    have hi : i < l.length := by omega
    rw [← Nat.add_assoc, writeBytes_apply hi, writeBytes_apply hi]
  · rw [writeBytes_of_outside (by omega), writeBytes_of_outside (by omega), h x hx]

theorem Tables.writeBytes (h : Tables m) (hout : ∀ x, p ≤ x → x < p + l.length → ¬ InTables x) :
    Tables (writeBytes m p l) := by
  refine h.of_eq fun x hx => writeBytes_of_outside ?_
  by_contra hin
  exact hout x (by omega) (by omega) hx

theorem Tables.storeBytes (h : Tables m) (hp : p + l.length ≤ 0x4000000)
    (hout : ∀ x, p ≤ x → x < p + l.length → ¬ InTables x) :
    storeBytes 0x1000 m (0xc0000000 + p) l = some (Text.writeBytes m p l) := by
  induction l generalizing m p with
  | nil => rfl
  | cons c l ih =>
    rw [List.length_cons] at hp hout
    have hstep : Tables (Function.update m p c) :=
      h.of_eq fun x hx => Function.update_of_ne (fun heq => hout x (by omega) (by omega) hx) ..
    rw [Paging.storeBytes, h.walk_direct (by omega), Option.bind_some, u32_of_lt (by omega), Nat.add_assoc,
      ih hstep (by omega) fun x hx hx' => hout x (by omega) (by omega)]
    rfl

end XyOS.Paging
