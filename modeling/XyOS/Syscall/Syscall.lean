import Mathlib.Data.List.Basic
import XyOS.Foundation.Runs
import XyOS.Interrupt.IntrReg

/-! The dispatcher of `syscall.c`. The handlers are arbitrary functions over an arbitrary
state `σ` of the rest of the machine, with `none` for `NULL`. The bodies of the `switch`
are chained as they are in the source, where no `break` stands between them. -/

namespace XyOS.Interrupt

def IntrReg.args (reg : IntrReg) : List (BitVec 32) := [reg.pEcx, reg.pEdx, reg.pEdi, reg.pEsi]

end XyOS.Interrupt

namespace XyOS.Syscall
open Runs
open Interrupt (IntrReg)

def kSyscallMaxNum : ℕ := 128

inductive CallFault
  | outOfTable
  | null
deriving DecidableEq

universe u
variable {σ : Type u}

abbrev Handler (σ : Type u) := σ → ℕ → List (BitVec 32) → BitVec 32 × σ

abbrev Table (σ : Type u) := Fin kSyscallMaxNum → Option (Handler σ)

structure Call where
  index : ℕ
  num : ℕ
  args : List (BitVec 32)
deriving DecidableEq

structure State (σ : Type u) where
  reg : IntrReg
  world : σ
  calls : List Call

def entry (table : Table σ) (i : BitVec 32) : Except CallFault (Option (Handler σ)) :=
  if h : i.toNat < kSyscallMaxNum then .ok (table ⟨i.toNat, h⟩) else .error .outOfTable

/-- `intr_reg->p_eax = syscall[intr_reg->p_eax](num, ...)`. -/
def call (table : Table σ) (num : ℕ) (args : List (BitVec 32)) (s : State σ) :
    Except CallFault (State σ) := do
  match ← entry table s.reg.pEax with
  | none => .error .null
  | some f =>
    let r := f s.world num args
    .ok ⟨{ s.reg with pEax := r.1 }, r.2, s.calls ++ [⟨s.reg.pEax.toNat, num, args⟩]⟩

def case4 (table : Table σ) (s : State σ) : Except CallFault (State σ) :=
  call table 4 [s.reg.pEcx, s.reg.pEdx, s.reg.pEdi, s.reg.pEsi] s

def case3 (table : Table σ) (s : State σ) : Except CallFault (State σ) := do
  case4 table (← call table 3 [s.reg.pEcx, s.reg.pEdx, s.reg.pEdi] s)

def case2 (table : Table σ) (s : State σ) : Except CallFault (State σ) := do
  case3 table (← call table 2 [s.reg.pEcx, s.reg.pEdx] s)

def case1 (table : Table σ) (s : State σ) : Except CallFault (State σ) := do
  case2 table (← call table 1 [s.reg.pEcx] s)

def case0 (table : Table σ) (s : State σ) : Except CallFault (State σ) := do
  case1 table (← call table 0 [] s)

def switch (table : Table σ) (s : State σ) : Except CallFault (State σ) :=
  match s.reg.pEbx.toNat with
  | 0 => case0 table s
  | 1 => case1 table s
  | 2 => case2 table s
  | 3 => case3 table s
  | 4 => case4 table s
  | _ => .ok s

def syscall (table : Table σ) (s : State σ) : Except CallFault (State σ) := do
  if kSyscallMaxNum ≤ s.reg.pEax.toNat then
    .ok { s with reg := { s.reg with pEax := -1 } }
  else if (← entry table s.reg.pEax).isSome then switch table s
  else .ok s

def SameButEax (reg reg' : IntrReg) : Prop := { reg' with pEax := reg.pEax } = reg

/-! ## What a call does -/

variable {table : Table σ} {s s' : State σ} {num : ℕ} {args : List (BitVec 32)} {f : Handler σ}

theorem entry_of_lt {i : BitVec 32} (h : i.toNat < kSyscallMaxNum) :
    entry table i = .ok (table ⟨i.toNat, h⟩) := dif_pos h

theorem call_some (h : s.reg.pEax.toNat < kSyscallMaxNum) (hf : table ⟨s.reg.pEax.toNat, h⟩ = some f) :
    call table num args s = .ok ⟨{ s.reg with pEax := (f s.world num args).1 }, (f s.world num args).2,
      s.calls ++ [⟨s.reg.pEax.toNat, num, args⟩]⟩ := by
  rw [call, bind_ok (entry_of_lt h), hf]

theorem call_length (h : call table num args s = .ok s') : s'.calls.length = s.calls.length + 1 := by
  obtain ⟨e, -, h⟩ := of_bind_ok h
  cases e with
  | none => cases h
  | some f =>
    obtain rfl := Except.ok.inj h
    rw [List.length_append, List.length_singleton]

theorem case3_length (h : case3 table s = .ok s') : s'.calls.length = s.calls.length + 2 := by
  obtain ⟨s₁, h₁, h⟩ := of_bind_ok h
  rw [call_length h, call_length h₁]

theorem case2_length (h : case2 table s = .ok s') : s'.calls.length = s.calls.length + 3 := by
  obtain ⟨s₁, h₁, h⟩ := of_bind_ok h
  rw [case3_length h, call_length h₁]

theorem case1_length (h : case1 table s = .ok s') : s'.calls.length = s.calls.length + 4 := by
  obtain ⟨s₁, h₁, h⟩ := of_bind_ok h
  rw [case2_length h, call_length h₁]

theorem case0_length (h : case0 table s = .ok s') : s'.calls.length = s.calls.length + 5 := by
  obtain ⟨s₁, h₁, h⟩ := of_bind_ok h
  rw [case1_length h, call_length h₁]

theorem switch_length (hk : s.reg.pEbx.toNat < 4) (h : switch table s = .ok s') :
    s.calls.length + 2 ≤ s'.calls.length := by
  have hcases : s.reg.pEbx.toNat = 0 ∨ s.reg.pEbx.toNat = 1 ∨ s.reg.pEbx.toNat = 2 ∨
      s.reg.pEbx.toNat = 3 := by omega
  rw [switch] at h
  rcases hcases with hk | hk | hk | hk
  · rw [hk] at h
    rw [case0_length h]
    omega
  · rw [hk] at h
    rw [case1_length h]
    omega
  · rw [hk] at h
    rw [case2_length h]
    omega
  · rw [hk] at h
    exact Nat.le_of_eq (case3_length h).symm

theorem switch_more (hk : 4 < s.reg.pEbx.toNat) : switch table s = .ok s := by
  rw [switch]
  split
  all_goals first | rfl | omega

theorem syscall_invalid (h : kSyscallMaxNum ≤ s.reg.pEax.toNat) :
    syscall table s = .ok { s with reg := { s.reg with pEax := -1 } } := by
  rw [syscall, if_pos h]

theorem syscall_null (h : s.reg.pEax.toNat < kSyscallMaxNum) (hf : table ⟨s.reg.pEax.toNat, h⟩ = none) :
    syscall table s = .ok s := by
  rw [syscall, if_neg (Nat.not_le.mpr h), bind_ok (entry_of_lt h), hf]
  rfl

theorem syscall_some (h : s.reg.pEax.toNat < kSyscallMaxNum) (hf : table ⟨s.reg.pEax.toNat, h⟩ = some f) :
    syscall table s = switch table s := by
  rw [syscall, if_neg (Nat.not_le.mpr h), bind_ok (entry_of_lt h), hf]
  rfl

/-! ## Exactly one call -/

/-- The system call of `reg` stays in the table and makes at most one call, which, if it
names a handler and at most four arguments, is the one of that handler. -/
structure RunsOnce (table : Table σ) (world : σ) (reg : IntrReg) (s : State σ) : Prop where
  returns : syscall table ⟨reg, world, []⟩ = .ok s
  atMostOne : s.calls.length ≤ 1
  exact : ∀ (h : reg.pEax.toNat < kSyscallMaxNum) (f : Handler σ), table ⟨reg.pEax.toNat, h⟩ = some f →
    ∀ k, reg.pEbx.toNat = k → k ≤ 4 →
      s.calls = [⟨reg.pEax.toNat, k, reg.args.take k⟩] ∧
      s.reg.pEax = (f world k (reg.args.take k)).1 ∧ s.world = (f world k (reg.args.take k)).2
  kept : SameButEax reg s.reg

theorem runsOnce_invalid {world : σ} {reg : IntrReg} (h : kSyscallMaxNum ≤ reg.pEax.toNat) :
    RunsOnce table world reg ⟨{ reg with pEax := -1 }, world, []⟩ := by
  constructor
  · exact syscall_invalid h
  · exact Nat.zero_le 1
  · intro hlt
    exact absurd h (Nat.not_le.mpr hlt)
  · rfl

theorem runsOnce_null {world : σ} {reg : IntrReg} (h : reg.pEax.toNat < kSyscallMaxNum)
    (hf : table ⟨reg.pEax.toNat, h⟩ = none) : RunsOnce table world reg ⟨reg, world, []⟩ := by
  constructor
  · exact syscall_null h hf
  · exact Nat.zero_le 1
  · intro _ f hsome
    rw [hf] at hsome
    cases hsome
  · rfl

theorem runsOnce_four {world : σ} {reg : IntrReg} (h : reg.pEax.toNat < kSyscallMaxNum)
    (hf : table ⟨reg.pEax.toNat, h⟩ = some f) (hk : reg.pEbx.toNat = 4) :
    RunsOnce table world reg ⟨{ reg with pEax := (f world 4 reg.args).1 }, (f world 4 reg.args).2,
      [⟨reg.pEax.toNat, 4, reg.args⟩]⟩ := by
  constructor
  · rw [syscall_some (s := ⟨reg, world, []⟩) h hf, switch]
    simp only [hk]
    exact call_some h hf
  · exact Nat.le_refl 1
  · intro _ g hg k hkk _
    obtain rfl : k = 4 := hkk.symm.trans hk
    obtain rfl := Option.some.inj (hf.symm.trans hg)
    exact ⟨rfl, rfl, rfl⟩
  · rfl

theorem runsOnce_more {world : σ} {reg : IntrReg} (h : reg.pEax.toNat < kSyscallMaxNum)
    (hf : table ⟨reg.pEax.toNat, h⟩ = some f) (hk : 4 < reg.pEbx.toNat) :
    RunsOnce table world reg ⟨reg, world, []⟩ := by
  constructor
  · exact (syscall_some (s := ⟨reg, world, []⟩) h hf).trans (switch_more hk)
  · exact Nat.zero_le 1
  · intro _ _ _ k hkk hle
    omega
  · rfl

/-- A system call runs its handler once exactly if there is no handler to run, or the
number of arguments is not one of those whose body falls through to the next. -/
theorem runs_once_iff (table : Table σ) (world : σ) (reg : IntrReg) :
    (∃ s, RunsOnce table world reg s) ↔
      kSyscallMaxNum ≤ reg.pEax.toNat ∨
      (∃ h : reg.pEax.toNat < kSyscallMaxNum, table ⟨reg.pEax.toNat, h⟩ = none) ∨
      4 ≤ reg.pEbx.toNat := by
  by_cases hlt : reg.pEax.toNat < kSyscallMaxNum
  · cases hf : table ⟨reg.pEax.toNat, hlt⟩ with
    | none => exact iff_of_true ⟨_, runsOnce_null hlt hf⟩ (Or.inr (Or.inl ⟨hlt, hf⟩))
    | some f =>
      constructor
      · rintro ⟨s, hs⟩
        by_contra hno
        have hk : reg.pEbx.toNat < 4 := by
          by_contra hk
          exact hno (Or.inr (Or.inr (by omega)))
        have hret := hs.returns
        rw [syscall_some (s := ⟨reg, world, []⟩) hlt hf] at hret
        have hlen : 0 + 2 ≤ s.calls.length := switch_length hk hret
        have hone := hs.atMostOne
        omega
      · rintro (h | ⟨h, hnone⟩ | h)
        · exact absurd h (Nat.not_le.mpr hlt)
        · rw [hf] at hnone
          cases hnone
        · rcases Nat.eq_or_lt_of_le h with h | h
          · exact ⟨_, runsOnce_four hlt hf h.symm⟩
          · exact ⟨_, runsOnce_more hlt hf h⟩
  · have h := Nat.not_lt.mp hlt
    exact iff_of_true ⟨_, runsOnce_invalid h⟩ (Or.inl h)

def askFor (eax ebx : BitVec 32) : IntrReg where
  ds := 0
  es := 0
  fs := 0
  gs := 0
  pEdi := 0
  pEsi := 0
  pEbp := 0
  pEsp := 0
  pEbx := ebx
  pEdx := 0
  pEcx := 0
  pEax := eax
  intrVecNo := 0x80
  errCode := 0
  eip := 0
  cs := 0
  eflags := 0
  esp := 0
  ss := 0

def countingTable : Table ℕ := fun _ => some fun n _ _ => (200, n + 1)

theorem second_call_outside : ¬ (∃ s, RunsOnce countingTable 0 (askFor 1 0) s) ∧
    syscall countingTable ⟨askFor 1 0, 0, []⟩ = .error .outOfTable := by
  have herr : syscall countingTable ⟨askFor 1 0, 0, []⟩ = .error .outOfTable := rfl
  refine ⟨?_, herr⟩
  rintro ⟨s, hs⟩
  have hret := hs.returns
  rw [herr] at hret
  cases hret

end XyOS.Syscall
