import Mathlib.Tactic.SplitIfs
import XyOS.Lib.Bitmap

/-! The registry of interrupt handlers of `interrupt.c` and the gates of `idt.c`. A
handler is the address of a function, `0` is `NULL`. Loading `idtr` and the task
register, and the programming of the PICs, are left out. -/

namespace XyOS.Interrupt

def kIdtEntryNum : ℕ := 256
def kIdtExcNum : ℕ := 32
def kKCodeSeg : BitVec 16 := 0x8
def kUCodeSeg : BitVec 16 := 0x1b
def kIdtExcType : BitVec 16 := 0x0e00
def kIdtIntrType : BitVec 16 := 0x0e00
def kIdtTrapType : BitVec 16 := 0x6f00
def kIdtSyscallNum : ℕ := 0x80

structure IntrGateDescriptor where
  offset_0_15 : BitVec 16
  segSel : BitVec 16
  type : BitVec 16
  offset_16_31 : BitVec 16

def IntrGateDescriptor.Present (g : IntrGateDescriptor) : Prop := g.type.getLsbD 15 = true

structure Registry where
  intrVecMap : Bitmap
  intrHandler : ℕ → ℕ
  idt : ℕ → IntrGateDescriptor

def idtEntry (offset : BitVec 32) (segSel type : BitVec 16) : IntrGateDescriptor where
  offset_0_15 := offset.setWidth 16
  offset_16_31 := (offset >>> 16).setWidth 16
  segSel := segSel
  type := type

def idtInit (intrVec : ℕ → BitVec 32) (v : ℕ) : IntrGateDescriptor :=
  if v = kIdtSyscallNum then idtEntry (intrVec v) kUCodeSeg kIdtTrapType
  else if v < kIdtExcNum then idtEntry (intrVec v) kKCodeSeg kIdtExcType
  else idtEntry (intrVec v) kKCodeSeg kIdtIntrType

def emptyRegistry (intrVec : ℕ → BitVec 32) : Registry := ⟨fun _ => 0, fun _ => 0, idtInit intrVec⟩

def enableIdt (r : Registry) (v : ℕ) : Registry :=
  { r with idt := Function.update r.idt v { r.idt v with type := (r.idt v).type ||| 0x8000 } }

def disableIdt (r : Registry) (v : ℕ) : Registry :=
  { r with idt := Function.update r.idt v { r.idt v with type := (r.idt v).type &&& 0x7fff } }

def regIntrHandler (r : Registry) (v handler : ℕ) : Bool × Registry :=
  if isBitmapSet r.intrVecMap v = true then (false, r)
  else
    let r := { r with intrVecMap := setBitmap r.intrVecMap v }
    let r := { r with intrHandler := Function.update r.intrHandler v handler }
    (true, enableIdt r v)

def removeIntrHandler (r : Registry) (v : ℕ) : Registry :=
  let r := disableIdt r v
  let r := { r with intrHandler := Function.update r.intrHandler v 0 }
  { r with intrVecMap := clearBitmap r.intrVecMap v }

/-- The handler that `IntrHandlerSel` calls for an interrupt with vector `v`. -/
def intrHandlerSel (r : Registry) (v : ℕ) : Option ℕ :=
  if r.intrHandler v ≠ 0 then some (r.intrHandler v) else none

/-! ## Sequences of calls -/

inductive Call
  | reg (v handler : ℕ)
  | remove (v : ℕ)

def Call.vector : Call → ℕ
  | .reg v _ => v
  | .remove v => v

def Call.Legal : Call → Prop
  | .reg v handler => v < kIdtEntryNum ∧ handler ≠ 0
  | .remove v => v < kIdtEntryNum

def exec (r : Registry) : Call → Registry
  | .reg v handler => (regIntrHandler r v handler).2
  | .remove v => removeIntrHandler r v

structure Consistent (r : Registry) : Prop where
  used : ∀ v < kIdtEntryNum, isBitmapSet r.intrVecMap v = true ↔ r.intrHandler v ≠ 0
  present : ∀ v < kIdtEntryNum, r.intrHandler v ≠ 0 ↔ (r.idt v).Present

/-- What a call should do: registration succeeds for a free vector and then takes
effect, and the other vectors are left alone. -/
structure CallCorrect (r : Registry) (c : Call) : Prop where
  result : ∀ v handler, c = .reg v handler →
    ((regIntrHandler r v handler).1 = true ↔ r.intrHandler v = 0) ∧
    ((regIntrHandler r v handler).1 = true → intrHandlerSel (exec r c) v = some handler)
  others : ∀ w < kIdtEntryNum, w ≠ c.vector →
    isBitmapSet (exec r c).intrVecMap w = isBitmapSet r.intrVecMap w ∧
    (exec r c).intrHandler w = r.intrHandler w ∧ (exec r c).idt w = r.idt w

def Correct : Registry → List Call → Prop
  | _, [] => True
  | r, c :: cs => CallCorrect r c ∧ Consistent (exec r c) ∧ Correct (exec r c) cs

variable (intrVec : ℕ → BitVec 32)

theorem idtInit_type (v : ℕ) : (idtInit intrVec v).type = 0x0e00 ∨ (idtInit intrVec v).type = 0x6f00 := by
  rw [idtInit]
  split_ifs
  · exact Or.inr rfl
  · exact Or.inl rfl
  · exact Or.inl rfl

theorem consistent_empty : Consistent (emptyRegistry intrVec) := by
  refine ⟨fun v _ => ?_, fun v _ => ?_⟩
  · rw [isBitmapSet_eq]
    simp [emptyRegistry]
  · simp only [emptyRegistry, ne_eq, not_true_eq_false, false_iff, IntrGateDescriptor.Present]
    rcases idtInit_type intrVec v with h | h <;> rw [h] <;> decide

theorem disableIdt_empty (v : ℕ) : disableIdt (emptyRegistry intrVec) v = emptyRegistry intrVec := by
  have htype : (idtInit intrVec v).type &&& 0x7fff = (idtInit intrVec v).type := by
    rcases idtInit_type intrVec v with h | h <;> rw [h] <;> decide
  simp only [disableIdt, emptyRegistry, htype, Function.update_eq_self]

theorem remove_empty (v : ℕ) : removeIntrHandler (emptyRegistry intrVec) v = emptyRegistry intrVec := by
  have hclear : clearBitmap (fun _ => 0) v = fun _ => 0 := by
    rw [clearBitmap, Function.update_eq_self_iff]
    simp
  have hhandler : Function.update (fun _ => 0 : ℕ → ℕ) v 0 = fun _ => 0 := Function.update_eq_self v _
  rw [removeIntrHandler, disableIdt_empty]
  simp only [emptyRegistry, hclear, hhandler]

theorem correct_remove (v : ℕ) : CallCorrect (emptyRegistry intrVec) (.remove v) := by
  refine ⟨fun w handler h => Call.noConfusion h, fun w _ _ => ?_⟩
  rw [exec, remove_empty]
  exact ⟨rfl, rfl, rfl⟩

def partner (v : ℕ) : ℕ := if v % 32 < 4 then v + 4 else v - 4

theorem partner_spec {v : ℕ} (hv : v < kIdtEntryNum) :
    partner v < kIdtEntryNum ∧ partner v ≠ v ∧ SameBit v (partner v) := by
  simp only [kIdtEntryNum, partner, SameBit] at hv ⊢
  split_ifs <;> omega

theorem not_consistent_reg {v : ℕ} (hv : v < kIdtEntryNum) (handler : ℕ) :
    ¬ Consistent (exec (emptyRegistry intrVec) (.reg v handler)) := by
  intro h
  obtain ⟨hlt, hne, hsame⟩ := partner_spec hv
  have hfree : isBitmapSet (emptyRegistry intrVec).intrVecMap v = false := by
    rw [isBitmapSet_eq]
    simp [emptyRegistry]
  have hused := h.used (partner v) hlt
  simp only [exec, regIntrHandler, hfree, Bool.false_eq_true, if_false, enableIdt, isBitmapSet_setBitmap,
    decide_eq_true hsame, Bool.true_or, Function.update_of_ne hne, true_iff] at hused
  exact hused rfl

theorem registry_correct_iff (calls : List Call) (hlegal : ∀ c ∈ calls, c.Legal) :
    Correct (emptyRegistry intrVec) calls ↔ ∀ c ∈ calls, ∃ v, c = .remove v := by
  induction calls with
  | nil => simp [Correct]
  | cons c cs ih =>
    have ih := ih fun d hd => hlegal d (List.mem_cons_of_mem c hd)
    cases c with
    | reg v handler =>
      have hv := (hlegal _ List.mem_cons_self).1
      refine ⟨fun h => absurd h.2.1 (not_consistent_reg intrVec hv handler), fun h => ?_⟩
      obtain ⟨w, hw⟩ := h _ List.mem_cons_self
      exact Call.noConfusion hw
    | remove v =>
      simp only [Correct, exec, remove_empty, ih, List.forall_mem_cons, correct_remove, consistent_empty,
        true_and, Call.remove.injEq, exists_eq']

theorem registry_correct_iff_remove :
    Correct (emptyRegistry fun _ => 0) [.remove 14, .remove 33] ∧
      ¬ Correct (emptyRegistry fun _ => 0) [.remove 14, .reg 33 0xc0100000] := by
  rw [registry_correct_iff _ [.remove 14, .remove 33] (by simp [Call.Legal, kIdtEntryNum]),
    registry_correct_iff _ [.remove 14, .reg 33 0xc0100000] (by simp [Call.Legal, kIdtEntryNum])]
  exact ⟨by simp, by simp⟩

theorem fourth_vector_refused :
    ¬ Correct (emptyRegistry fun _ => 0) [.reg 0 0xc0100000, .reg 4 0xc0100000] ∧
      (exec (emptyRegistry fun _ => 0) (.reg 0 0xc0100000)).intrHandler 4 = 0 ∧
      (regIntrHandler (exec (emptyRegistry fun _ => 0) (.reg 0 0xc0100000)) 4 0xc0100000).1 = false :=
  ⟨fun h => not_consistent_reg _ (by decide) 0xc0100000 h.2.1, by decide, by decide⟩

end XyOS.Interrupt
