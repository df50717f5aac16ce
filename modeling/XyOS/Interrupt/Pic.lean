import Mathlib.Logic.Function.Basic
import Mathlib.Logic.Relation
import Mathlib.Order.Nat
import Mathlib.Tactic.SplitIfs
import XyOS.Interrupt.PicDefs

/-! The interrupt controllers over whole runs: which lines are masked, which are in service, and
which of them reach the processor. -/

namespace XyOS.Interrupt

structure PicState where
  pics : Pics
  enabled : ℕ → Bool
  serving : List ℕ

/-- Interrupts are taken and ended last in, first out. An exception may end in `SendEoi` while no
interrupt is in service. -/
inductive PicStep : PicState → PicState → Prop
  | raise {s : PicState} {line : ℕ} (hline : line < 16) (hcascade : line ≠ kIrqSlave) :
      PicStep s { s with pics := s.pics.raise line }
  | acknowledge {s : PicState} {line : ℕ} (hrequest : s.pics.request = some line) :
      PicStep s { s with pics := s.pics.acknowledge line, serving := line :: s.serving }
  | sendEoi {s : PicState} {line : ℕ} {rest : List ℕ} (hserving : s.serving = line :: rest) :
      PicStep s { s with pics := sendEoi s.pics (s.pics.vector line), serving := rest }
  | exception {s : PicState} {v : ℕ} (hv : v < kMIcw2) (hserving : s.serving = []) :
      PicStep s { s with pics := sendEoi s.pics v }
  | enable {s : PicState} {line : ℕ} (hline : line < 16) :
      PicStep s
        { s with
          pics := enableIrq s.pics (kMIcw2 + line)
          enabled := Function.update s.enabled line true }
  | disable {s : PicState} {line : ℕ} (hline : line < 16) :
      PicStep s
        { s with
          pics := disableIrq s.pics (kMIcw2 + line)
          enabled := Function.update s.enabled line false }
  | enableAll {s : PicState} : PicStep s { s with pics := enableAllIrqs s.pics, enabled := fun _ => true }

def PicState.init (p : Pics) : PicState := ⟨picInit p, fun line => line == kIrqSlave, []⟩

/-- The line of the master through which `line` comes. -/
def masterLine (line : ℕ) : ℕ := if line < 8 then line else kIrqSlave

structure Chip.Ready (c : Chip) (base cascade : BitVec 8) : Prop where
  awaits : c.awaits = []
  base : c.base = base
  cascade : c.cascade = cascade
  autoEoi : c.autoEoi = false

structure PicState.Sound (s : PicState) : Prop where
  master : s.pics.master.Ready 0x20 4
  slave : s.pics.slave.Ready 0x28 2
  masterMask : ∀ i < 8, s.pics.master.imr.getLsbD i = !s.enabled i
  slaveMask : ∀ i < 8, s.pics.slave.imr.getLsbD i = !s.enabled (8 + i)
  masterService : ∀ i < 8, s.pics.master.isr.getLsbD i = true ↔ ∃ line ∈ s.serving, masterLine line = i
  slaveService : ∀ i < 8, s.pics.slave.isr.getLsbD i = true ↔ 8 + i ∈ s.serving
  nested : s.serving.Pairwise fun k l => masterLine k < masterLine l
  lines : ∀ line ∈ s.serving, line < 16

variable {p : Pics} {c : Chip} {s s' : PicState} {i j line : ℕ} {x : BitVec 8} {base cascade d : BitVec 8}

/-! ## Bits -/

theorem getLsbD_setBit (x : BitVec 8) (hi : i < 8) (j : ℕ) :
    (setBit x i).getLsbD j = (decide (j = i) || x.getLsbD j) := by
  simp only [setBit, BitVec.getLsbD_or, BitVec.getLsbD_shiftLeft, BitVec.getLsbD_one]
  by_cases hj : j = i
  · simp [hj, hi]
  · have hne : ¬ (¬ j < i ∧ j - i = 0) := by omega
    by_cases hlt : j < i
    · simp [hj, hlt]
    · have hsub : ¬ j - i = 0 := by omega
      simp [hj, hsub]

theorem getLsbD_clearBit (x : BitVec 8) (i j : ℕ) :
    (clearBit x i).getLsbD j = (!decide (j = i) && x.getLsbD j) := by
  by_cases hlt : j < 8
  · simp only [clearBit, BitVec.getLsbD_and, BitVec.getLsbD_not, BitVec.getLsbD_shiftLeft, BitVec.getLsbD_one]
    by_cases hj : j = i
    · simp [hj, hj ▸ hlt]
    · by_cases hji : j < i
      · simp [hj, hji, hlt]
      · have hsub : ¬ j - i = 0 := by omega
        simp [hj, hsub, hlt]
  · simp [BitVec.getLsbD_of_ge _ _ (Nat.le_of_not_lt hlt)]

theorem firstBit_eq_some : firstBit x = some i ↔ x.getLsbD i = true ∧ i < 8 ∧ ∀ j < i, x.getLsbD j = false := by
  simp [firstBit]

theorem irqBit_eq (hi : i < 8) : irqBit i = 1#8 <<< i := by
  have h : ∀ i < 8, irqBit i = 1#8 <<< i := by decide
  exact h i hi

/-! ## A chip -/

theorem Chip.Ready.congr {c' : Chip} (h : c.Ready base cascade) (hawaits : c'.awaits = c.awaits)
    (hbase : c'.base = c.base) (hcascade : c'.cascade = c.cascade) (hauto : c'.autoEoi = c.autoEoi) :
    c'.Ready base cascade :=
  ⟨hawaits.trans h.awaits, hbase.trans h.base, hcascade.trans h.cascade, hauto.trans h.autoEoi⟩

theorem Chip.Ready.data (h : c.Ready base cascade) (d : BitVec 8) : c.data d = { c with imr := d } := by
  rw [Chip.data, h.awaits]

theorem Chip.Ready.serve (h : c.Ready base cascade) (i : ℕ) :
    c.serve i = { c with irr := clearBit c.irr i, isr := setBit c.isr i } := by
  rw [Chip.serve, if_neg (ne_true_of_eq_false h.autoEoi)]

theorem Chip.asks_iff : c.asks i = true ↔
    c.irr.getLsbD i = true ∧ c.imr.getLsbD i = false ∧ ∀ j ≤ i, c.isr.getLsbD j = false := by
  rw [Chip.asks, Bool.and_eq_true, Bool.and_eq_true, Bool.not_eq_true', List.all_eq_true, and_assoc]
  simp only [List.mem_range, Nat.lt_add_one_iff, Bool.not_eq_true']

theorem Chip.request_eq_some : c.request = some i ↔ c.asks i = true ∧ i < 8 ∧ ∀ k < i, c.asks k = false := by
  simp [Chip.request]

theorem Chip.request_eq_none : c.request = none ↔ ∀ i < 8, c.asks i = false := by
  simp [Chip.request]

theorem Chip.request_of_asks (h : c.asks i = true) (hi : i < 8) : ∃ k ≤ i, c.request = some k := by
  cases hreq : c.request with
  | none =>
    rw [Chip.request_eq_none.mp hreq i hi] at h
    exact Bool.noConfusion h
  | some k =>
    refine ⟨k, ?_, rfl⟩
    by_contra hlt
    rw [(Chip.request_eq_some.mp hreq).2.2 i (Nat.lt_of_not_le hlt)] at h
    exact Bool.noConfusion h

theorem getLsbD_retire (hi : x.getLsbD i = true) (hfirst : ∀ j < i, x.getLsbD j = false) (j : ℕ) :
    (retire x).getLsbD j = (!decide (j = i) && x.getLsbD j) := by
  have hlt : i < 8 := by
    by_contra hge
    rw [BitVec.getLsbD_of_ge _ _ (Nat.le_of_not_lt hge)] at hi
    exact Bool.noConfusion hi
  rw [retire, firstBit_eq_some.mpr ⟨hi, hlt, hfirst⟩]
  exact getLsbD_clearBit x i j

theorem retire_of_none (h : ∀ i < 8, x.getLsbD i = false) : retire x = x := by
  have hnone : firstBit x = none := by simpa [firstBit] using h
  rw [retire, hnone]

/-! ## The programming of both chips -/

theorem outb_mPicCmd (p : Pics) (d : BitVec 8) : outb p kMPicCmd d = ⟨p.master.command d, p.slave⟩ := rfl
theorem outb_mPicData (p : Pics) (d : BitVec 8) : outb p kMPicData d = ⟨p.master.data d, p.slave⟩ := rfl
theorem outb_sPicCmd (p : Pics) (d : BitVec 8) : outb p kSPicCmd d = ⟨p.master, p.slave.command d⟩ := rfl
theorem outb_sPicData (p : Pics) (d : BitVec 8) : outb p kSPicData d = ⟨p.master, p.slave.data d⟩ := rfl

def Chip.program (c : Chip) (icw2 icw3 mask : BitVec 8) : Chip :=
  ((((((((c.command kIcw1).data icw2).data icw3).data kIcw4).command 0x20).command 0x48).command 0x0a).data mask)

theorem Chip.program_eq (c : Chip) (icw2 icw3 mask : BitVec 8) :
    c.program icw2 icw3 mask = ⟨[], icw2 &&& 0xf8, icw3, false, 0, mask, 0⟩ := by
  have hicws : (((c.command kIcw1).data icw2).data icw3).data kIcw4 = ⟨[], icw2 &&& 0xf8, icw3, false, 0, 0, 0⟩ := rfl
  have hocw2 (d : Chip) : d.command 0x20 = { d with isr := retire d.isr } := rfl
  have hocw3 (d : Chip) : d.command 0x48 = d ∧ d.command 0x0a = d := ⟨rfl, rfl⟩
  have hnone : retire 0 = 0 := rfl
  rw [Chip.program, hicws, hocw2, (hocw3 _).1, (hocw3 _).2]
  exact congrArg (fun isr => (Chip.mk [] (icw2 &&& 0xf8) icw3 false 0 0 isr).data mask) hnone

theorem picInit_eq (p : Pics) : picInit p =
    ⟨⟨[], 0x20, 4, false, 0, 0xfb, 0⟩, ⟨[], 0x28, 2, false, 0, 0xff, 0⟩⟩ := by
  have hprogram : picInit p = ⟨p.master.program (BitVec.ofNat 8 kMIcw2) kMIcw3 0xfb,
      p.slave.program (BitVec.ofNat 8 kSIcw2) kSIcw3 0xff⟩ := by
    simp only [picInit, outb_mPicCmd, outb_mPicData, outb_sPicCmd, outb_sPicData, Chip.program]
  rw [hprogram, Chip.program_eq, Chip.program_eq]
  rfl

section Masks
variable (hm : p.master.Ready 0x20 4) (hs : p.slave.Ready 0x28 2)
include hm hs

theorem enableIrq_eq (hline : line < 16) : enableIrq p (kMIcw2 + line) =
    if line < 8 then ⟨{ p.master with imr := clearBit p.master.imr line }, p.slave⟩
    else ⟨p.master, { p.slave with imr := clearBit p.slave.imr (line - 8) }⟩ := by
  rw [enableIrq]
  by_cases h8 : line < 8
  · have hlt : kMIcw2 + line < kSIcw2 := Nat.add_lt_add_left h8 _
    rw [if_pos hlt, if_pos h8, Nat.add_sub_cancel_left, irqBit_eq h8, outb_mPicData, hm.data]
    rfl
  · have hge : ¬ kMIcw2 + line < kSIcw2 := fun h => h8 (Nat.lt_of_add_lt_add_left h)
    have hsub : kMIcw2 + line - kSIcw2 = line - 8 := Nat.add_sub_add_left ..
    rw [if_neg hge, if_neg h8, hsub, irqBit_eq (by omega), outb_sPicData, hs.data]
    rfl

theorem disableIrq_eq (hline : line < 16) : disableIrq p (kMIcw2 + line) =
    if line < 8 then ⟨{ p.master with imr := setBit p.master.imr line }, p.slave⟩
    else ⟨p.master, { p.slave with imr := setBit p.slave.imr (line - 8) }⟩ := by
  rw [disableIrq]
  by_cases h8 : line < 8
  · have hlt : kMIcw2 + line < kSIcw2 := Nat.add_lt_add_left h8 _
    rw [if_pos hlt, if_pos h8, Nat.add_sub_cancel_left, irqBit_eq h8, outb_mPicData, hm.data]
    rfl
  · have hge : ¬ kMIcw2 + line < kSIcw2 := fun h => h8 (Nat.lt_of_add_lt_add_left h)
    have hsub : kMIcw2 + line - kSIcw2 = line - 8 := Nat.add_sub_add_left ..
    rw [if_neg hge, if_neg h8, hsub, irqBit_eq (by omega), outb_sPicData, hs.data]
    rfl

theorem enableAllIrqs_eq : enableAllIrqs p = ⟨{ p.master with imr := 0 }, { p.slave with imr := 0 }⟩ :=
  congrArg₂ Pics.mk (hm.data 0) (hs.data 0)

end Masks

theorem sendEoi_eq (p : Pics) (v : ℕ) : sendEoi p v =
    ⟨{ p.master with isr := retire p.master.isr },
      if v ≥ kSIcw2 then { p.slave with isr := retire p.slave.isr } else p.slave⟩ := by
  rw [sendEoi]
  by_cases hv : v ≥ kSIcw2
  · rw [if_pos hv, if_pos hv]
    rfl
  · rw [if_neg hv, if_neg hv]
    rfl

/-! ## Requests -/

theorem cascaded_imr (p : Pics) : p.cascaded.imr = p.master.imr := by
  rw [Pics.cascaded]
  split <;> rfl

theorem cascaded_isr (p : Pics) : p.cascaded.isr = p.master.isr := by
  rw [Pics.cascaded]
  split <;> rfl

theorem cascaded_irr (p : Pics) (i : ℕ) : p.cascaded.irr.getLsbD i =
    if i = kIrqSlave then p.slave.request.isSome else p.master.irr.getLsbD i := by
  rw [Pics.cascaded]
  cases hslave : p.slave.request.isSome with
  | true =>
    rw [if_pos rfl, getLsbD_setBit _ (by decide)]
    by_cases hi : i = kIrqSlave <;> simp [hi]
  | false =>
    rw [if_neg Bool.false_ne_true, getLsbD_clearBit]
    by_cases hi : i = kIrqSlave <;> simp [hi]

theorem getLsbD_four : (4 : BitVec 8).getLsbD i = true ↔ i = kIrqSlave := by
  by_cases hi : i < 8
  · revert i
    decide
  · rw [BitVec.getLsbD_of_ge _ _ (Nat.le_of_not_lt hi)]
    have hne : i ≠ kIrqSlave := by
      rintro rfl
      exact hi (by decide)
    simp [hne]

theorem request_eq_some (hm : p.master.Ready 0x20 4) : p.request = some line ↔
    (line < 8 ∧ line ≠ kIrqSlave ∧ p.cascaded.request = some line) ∨
      (8 ≤ line ∧ p.cascaded.request = some kIrqSlave ∧ p.slave.request = some (line - 8)) := by
  rw [Pics.request]
  cases hcascaded : p.cascaded.request with
  | none => simp
  | some i =>
    have hi := (Chip.request_eq_some.mp hcascaded).2.1
    simp only [hm.cascade, getLsbD_four, Option.some.injEq]
    by_cases hslave : i = kIrqSlave
    · rw [if_pos hslave, Option.map_eq_some_iff]
      constructor
      · rintro ⟨j, hj, rfl⟩
        exact Or.inr ⟨Nat.le_add_right 8 j, hslave, by rw [Nat.add_sub_cancel_left, hj]⟩
      · rintro (⟨-, hne, rfl⟩ | ⟨hle, -, hj⟩)
        · exact absurd hslave hne
        · exact ⟨line - 8, hj, by omega⟩
    · rw [if_neg hslave, Option.some.injEq]
      constructor
      · rintro rfl
        exact Or.inl ⟨hi, hslave, rfl⟩
      · rintro (⟨-, -, rfl⟩ | ⟨-, hi, -⟩)
        · rfl
        · exact absurd hi hslave

theorem PicState.Sound.of_request (hs : s.Sound) (h : s.pics.request = some line) :
    line < 16 ∧ line ≠ kIrqSlave ∧ s.enabled line = true ∧ (8 ≤ line → s.enabled kIrqSlave = true) ∧
      ∀ k ∈ s.serving, masterLine line < masterLine k := by
  have hasks {i : ℕ} (hi : s.pics.cascaded.request = some i) :
      i < 8 ∧ s.enabled i = true ∧ ∀ k ∈ s.serving, i < masterLine k := by
    obtain ⟨hask, hlt, -⟩ := Chip.request_eq_some.mp hi
    obtain ⟨-, himr, hisr⟩ := Chip.asks_iff.mp hask
    rw [cascaded_imr, hs.masterMask i hlt] at himr
    refine ⟨hlt, by simpa using himr, fun k hk => ?_⟩
    by_contra hle
    have hbit := hisr (masterLine k) (Nat.le_of_not_lt hle)
    rw [cascaded_isr, (hs.masterService _ (by omega)).mpr ⟨k, hk, rfl⟩] at hbit
    exact Bool.noConfusion hbit
  rcases (request_eq_some hs.master).mp h with ⟨h8, hne, hreq⟩ | ⟨h8, hreq, hslave⟩
  · obtain ⟨-, henabled, hserving⟩ := hasks hreq
    refine ⟨by omega, hne, henabled, fun hle => absurd h8 (Nat.not_lt.mpr hle), fun k hk => ?_⟩
    rw [masterLine, if_pos h8]
    exact hserving k hk
  · obtain ⟨-, henabled, hserving⟩ := hasks hreq
    obtain ⟨hask, hlt, -⟩ := Chip.request_eq_some.mp hslave
    have himr := (Chip.asks_iff.mp hask).2.1
    rw [hs.slaveMask _ hlt, Nat.add_sub_cancel' h8] at himr
    refine ⟨by omega, ?_, by simpa using himr, fun _ => henabled, fun k hk => ?_⟩
    · rintro rfl
      exact absurd h8 (by decide)
    · rw [masterLine, if_neg (Nat.not_lt.mpr h8)]
      exact hserving k hk

/-! ## Steps -/

theorem sound_init (p : Pics) : (PicState.init p).Sound := by
  rw [PicState.init, picInit_eq]
  refine ⟨⟨rfl, rfl, rfl, rfl⟩, ⟨rfl, rfl, rfl, rfl⟩, ?_, ?_, ?_, ?_, .nil, ?_⟩
  · decide
  · decide
  · simp
  · simp
  · simp

namespace PicState.Sound
variable (hs : s.Sound)
include hs

theorem raise (line : ℕ) : ({ s with pics := s.pics.raise line } : PicState).Sound := by
  simp only [Pics.raise]
  by_cases h8 : line < 8
  · rw [if_pos h8]
    exact ⟨hs.master.congr rfl rfl rfl rfl, hs.slave, hs.masterMask, hs.slaveMask, hs.masterService,
      hs.slaveService, hs.nested, hs.lines⟩
  · rw [if_neg h8]
    exact ⟨hs.master, hs.slave.congr rfl rfl rfl rfl, hs.masterMask, hs.slaveMask, hs.masterService,
      hs.slaveService, hs.nested, hs.lines⟩

theorem acknowledge (hrequest : s.pics.request = some line) :
    ({ s with pics := s.pics.acknowledge line, serving := line :: s.serving } : PicState).Sound := by
  obtain ⟨h16, hne, -, -, hhigher⟩ := hs.of_request hrequest
  have hnested : (line :: s.serving).Pairwise fun k l => masterLine k < masterLine l :=
    List.pairwise_cons.mpr ⟨hhigher, hs.nested⟩
  have hlines : ∀ k ∈ line :: s.serving, k < 16 := List.forall_mem_cons.mpr ⟨h16, hs.lines⟩
  have hmaster {i j : ℕ} (hi : i < 8) (hj : j < 8) (hline : masterLine line = j) :
      (setBit s.pics.master.isr j).getLsbD i = true ↔ ∃ k ∈ line :: s.serving, masterLine k = i := by
    rw [getLsbD_setBit _ hj, Bool.or_eq_true, decide_eq_true_iff, hs.masterService i hi, eq_comm]
    simp only [List.mem_cons, exists_eq_or_imp, hline]
  by_cases h8 : line < 8
  · have hpics : s.pics.acknowledge line = ⟨{ s.pics.master with
        irr := clearBit s.pics.master.irr line, isr := setBit s.pics.master.isr line }, s.pics.slave⟩ := by
      rw [Pics.acknowledge, if_pos h8, hs.master.serve]
    rw [hpics]
    refine ⟨hs.master.congr rfl rfl rfl rfl, hs.slave, hs.masterMask, hs.slaveMask,
      fun i hi => hmaster hi h8 (if_pos h8), fun i hi => ?_, hnested, hlines⟩
    rw [hs.slaveService i hi, List.mem_cons]
    have hother : 8 + i ≠ line := by omega
    simp [hother]
  · have hpics : s.pics.acknowledge line = ⟨{ s.pics.master with
        irr := clearBit s.pics.master.irr kIrqSlave, isr := setBit s.pics.master.isr kIrqSlave },
        { s.pics.slave with
          irr := clearBit s.pics.slave.irr (line - 8), isr := setBit s.pics.slave.isr (line - 8) }⟩ := by
      rw [Pics.acknowledge, if_neg h8, hs.master.serve, hs.slave.serve]
    rw [hpics]
    refine ⟨hs.master.congr rfl rfl rfl rfl, hs.slave.congr rfl rfl rfl rfl, hs.masterMask, hs.slaveMask,
      fun i hi => hmaster hi (by decide) (if_neg h8), fun i hi => ?_, hnested, hlines⟩
    rw [getLsbD_setBit _ (by omega), Bool.or_eq_true, decide_eq_true_iff, hs.slaveService i hi, List.mem_cons]
    refine or_congr_left ?_
    omega

theorem sendEoi {rest : List ℕ} (hserving : s.serving = line :: rest) :
    ({ s with pics := Interrupt.sendEoi s.pics (s.pics.vector line), serving := rest } : PicState).Sound := by
  have hnested := hs.nested
  have hlines := hs.lines
  have hmaster := hs.masterService
  have hslave := hs.slaveService
  rw [hserving] at hnested hlines hmaster hslave
  obtain ⟨hhigher, hrest⟩ := List.pairwise_cons.mp hnested
  obtain ⟨h16, hlines⟩ := List.forall_mem_cons.mp hlines
  have hlt : masterLine line < 8 := by
    rw [masterLine]
    split
    · assumption
    · decide
  have hfirst : s.pics.master.isr.getLsbD (masterLine line) = true ∧
      ∀ j < masterLine line, s.pics.master.isr.getLsbD j = false := by
    refine ⟨(hmaster _ hlt).mpr ⟨line, List.mem_cons_self, rfl⟩, fun j hj => ?_⟩
    by_contra hbit
    obtain ⟨k, hk, rfl⟩ := (hmaster j (hj.trans hlt)).mp (eq_true_of_ne_false hbit)
    rcases List.mem_cons.mp hk with rfl | hk
    · exact absurd hj (lt_irrefl _)
    · exact absurd hj (lt_asymm (hhigher k hk))
  have hservice : ∀ i < 8, (retire s.pics.master.isr).getLsbD i = true ↔ ∃ k ∈ rest, masterLine k = i := by
    intro i hi
    rw [getLsbD_retire hfirst.1 hfirst.2, Bool.and_eq_true, hmaster i hi]
    simp only [List.mem_cons, exists_eq_or_imp, Bool.not_eq_true', decide_eq_false_iff_not]
    constructor
    · rintro ⟨hne, rfl | h⟩
      · exact absurd rfl hne
      · exact h
    · rintro ⟨k, hk, rfl⟩
      exact ⟨(hhigher k hk).ne', Or.inr ⟨k, hk, rfl⟩⟩
  rw [sendEoi_eq]
  by_cases h8 : line < 8
  · have hvector : ¬ s.pics.vector line ≥ kSIcw2 := by
      rw [Pics.vector, if_pos h8, hs.master.base]
      exact Nat.not_le.mpr (Nat.add_lt_add_left h8 _)
    rw [if_neg hvector]
    refine ⟨hs.master.congr rfl rfl rfl rfl, hs.slave, hs.masterMask, hs.slaveMask, hservice, fun i hi => ?_,
      hrest, hlines⟩
    rw [hslave i hi, List.mem_cons]
    have hother : 8 + i ≠ line := by omega
    simp [hother]
  · have hvector : s.pics.vector line ≥ kSIcw2 := by
      rw [Pics.vector, if_neg h8, hs.slave.base]
      exact Nat.le_add_right _ _
    rw [if_pos hvector]
    refine ⟨hs.master.congr rfl rfl rfl rfl, hs.slave.congr rfl rfl rfl rfl, hs.masterMask, hs.slaveMask, hservice,
      fun i hi => ?_, hrest, hlines⟩
    have honly {j : ℕ} (hj : 8 + j ∈ rest) : False := by
      have h := hhigher _ hj
      rw [masterLine, masterLine, if_neg h8, if_neg (by omega)] at h
      exact absurd h (lt_irrefl _)
    have hbit : ∀ j < 8, s.pics.slave.isr.getLsbD j = true ↔ j = line - 8 := by
      intro j hj
      rw [hslave j hj, List.mem_cons, or_iff_left honly]
      omega
    rw [getLsbD_retire ((hbit (line - 8) (by omega)).mpr rfl) fun j hj => ?_, Bool.and_eq_true, hbit i hi]
    · refine iff_of_false ?_ honly
      rintro ⟨hne, rfl⟩
      simp at hne
    · by_contra hset
      exact absurd ((hbit j (by omega)).mp (eq_true_of_ne_false hset)) hj.ne

theorem exception {v : ℕ} (hv : v < kMIcw2) (hserving : s.serving = []) :
    ({ s with pics := Interrupt.sendEoi s.pics v } : PicState).Sound := by
  have hmaster : retire s.pics.master.isr = s.pics.master.isr := retire_of_none fun i hi => by
    have h := hs.masterService i hi
    simpa [hserving] using h
  have hge : ¬ v ≥ kSIcw2 := Nat.not_le.mpr (hv.trans (by decide))
  have hpics : Interrupt.sendEoi s.pics v = s.pics := by
    rw [sendEoi_eq, if_neg hge, hmaster]
  rw [hpics]
  exact hs

theorem setMask {f : BitVec 8 → ℕ → BitVec 8} {b : Bool} (hline : line < 16)
    (hf : ∀ x i j, i < 8 → (f x i).getLsbD j = if j = i then !b else x.getLsbD j) :
    ({ s with
        pics := if line < 8 then ⟨{ s.pics.master with imr := f s.pics.master.imr line }, s.pics.slave⟩
          else ⟨s.pics.master, { s.pics.slave with imr := f s.pics.slave.imr (line - 8) }⟩
        enabled := Function.update s.enabled line b } : PicState).Sound := by
  by_cases h8 : line < 8
  · rw [if_pos h8]
    refine ⟨hs.master.congr rfl rfl rfl rfl, hs.slave, fun i hi => ?_, fun i hi => ?_, hs.masterService,
      hs.slaveService, hs.nested, hs.lines⟩
    · change (f _ line).getLsbD i = !Function.update s.enabled line b i
      rw [hf _ _ _ h8, hs.masterMask i hi, Function.update_apply]
      split <;> rfl
    · change _ = !Function.update s.enabled line b (8 + i)
      rw [hs.slaveMask i hi, Function.update_of_ne (by omega)]
  · rw [if_neg h8]
    refine ⟨hs.master, hs.slave.congr rfl rfl rfl rfl, fun i hi => ?_, fun i hi => ?_, hs.masterService,
      hs.slaveService, hs.nested, hs.lines⟩
    · change _ = !Function.update s.enabled line b i
      rw [hs.masterMask i hi, Function.update_of_ne (by omega)]
    · change (f _ (line - 8)).getLsbD i = !Function.update s.enabled line b (8 + i)
      rw [hf _ _ _ (by omega), hs.slaveMask i hi, Function.update_apply]
      by_cases hi' : i = line - 8
      · rw [if_pos hi', if_pos (by omega)]
      · rw [if_neg hi', if_neg (by omega)]

theorem enable (hline : line < 16) :
    ({ s with
        pics := enableIrq s.pics (kMIcw2 + line)
        enabled := Function.update s.enabled line true } : PicState).Sound := by
  rw [enableIrq_eq hs.master hs.slave hline]
  refine hs.setMask hline fun x i j _ => ?_
  rw [getLsbD_clearBit]
  by_cases hj : j = i <;> simp [hj]

theorem disable (hline : line < 16) :
    ({ s with
        pics := disableIrq s.pics (kMIcw2 + line)
        enabled := Function.update s.enabled line false } : PicState).Sound := by
  rw [disableIrq_eq hs.master hs.slave hline]
  refine hs.setMask hline fun x i j hi => ?_
  rw [getLsbD_setBit _ hi]
  by_cases hj : j = i <;> simp [hj]

theorem enableAll : ({ s with pics := enableAllIrqs s.pics, enabled := fun _ => true } : PicState).Sound := by
  rw [enableAllIrqs_eq hs.master hs.slave]
  exact ⟨hs.master.congr rfl rfl rfl rfl, hs.slave.congr rfl rfl rfl rfl, fun _ _ => BitVec.getLsbD_zero,
    fun _ _ => BitVec.getLsbD_zero, hs.masterService, hs.slaveService, hs.nested, hs.lines⟩

end PicState.Sound

theorem PicStep.sound (h : PicStep s s') (hs : s.Sound) : s'.Sound := by
  cases h with
  | raise _ _ => exact hs.raise _
  | acknowledge hrequest => exact hs.acknowledge hrequest
  | sendEoi hserving => exact hs.sendEoi hserving
  | exception hv hserving => exact hs.exception hv hserving
  | enable hline => exact hs.enable hline
  | disable hline => exact hs.disable hline
  | enableAll => exact hs.enableAll

/-! ## Runs -/

def Pics.masked (p : Pics) (line : ℕ) : Bool :=
  if line < 8 then p.master.imr.getLsbD line else p.slave.imr.getLsbD (line - 8)

def Pics.raised (p : Pics) (line : ℕ) : Bool :=
  if line < 8 then p.master.irr.getLsbD line else p.slave.irr.getLsbD (line - 8)

def Pics.inService (p : Pics) (line : ℕ) : Bool :=
  if line < 8 then p.master.isr.getLsbD line else p.slave.isr.getLsbD (line - 8)

theorem PicState.Sound.of_run (hrun : Relation.ReflTransGen PicStep (PicState.init p) s) : s.Sound := by
  induction hrun with
  | refl => exact sound_init p
  | tail _ hstep ih => exact hstep.sound ih

theorem PicState.Sound.masked (hs : s.Sound) (hline : line < 16) : s.pics.masked line = !s.enabled line := by
  rw [Pics.masked]
  split_ifs with h8
  · exact hs.masterMask line h8
  · rw [hs.slaveMask _ (by omega), Nat.add_sub_cancel' (Nat.le_of_not_lt h8)]

theorem PicState.Sound.inService (hs : s.Sound) (hline : line < 16) (hne : line ≠ kIrqSlave) :
    s.pics.inService line = true ↔ line ∈ s.serving := by
  rw [Pics.inService]
  split_ifs with h8
  · rw [hs.masterService line h8]
    constructor
    · rintro ⟨k, hk, hkl⟩
      rw [masterLine] at hkl
      split_ifs at hkl
      · rwa [← hkl]
      · exact absurd hkl.symm hne
    · exact fun h => ⟨line, h, if_pos h8⟩
  · rw [hs.slaveService _ (by omega), Nat.add_sub_cancel' (Nat.le_of_not_lt h8)]

theorem PicState.Sound.vector (hs : s.Sound) (hline : line < 16) : s.pics.vector line = kMIcw2 + line := by
  rw [Pics.vector]
  split_ifs with h8
  · rw [hs.master.base]
    rfl
  · rw [hs.slave.base]
    change 0x28 + (line - 8) = 0x20 + line
    omega

theorem PicState.Sound.raised (hs : s.Sound) (h : s.pics.request = some line) : s.pics.raised line = true := by
  rw [Pics.raised]
  rcases (request_eq_some hs.master).mp h with ⟨h8, hne, hreq⟩ | ⟨h8, -, hslave⟩
  · rw [if_pos h8]
    have hirr := (Chip.asks_iff.mp (Chip.request_eq_some.mp hreq).1).1
    rwa [cascaded_irr, if_neg hne] at hirr
  · rw [if_neg (Nat.not_lt.mpr h8)]
    exact (Chip.asks_iff.mp (Chip.request_eq_some.mp hslave).1).1

/-- After `PicInit` and any sequence of calls and interrupts, the masked lines are those that were
not enabled, the lines in service are those whose handlers have not sent their end of interrupt, and
only a raised and enabled line that comes before all of these reaches the processor, as the vector
`kMIcw2 + line`. -/
theorem pic_run (hrun : Relation.ReflTransGen PicStep (PicState.init p) s) :
    (∀ line < 16, s.pics.masked line = !s.enabled line) ∧
    (∀ line < 16, line ≠ kIrqSlave → (s.pics.inService line = true ↔ line ∈ s.serving)) ∧
    ∀ line, s.pics.request = some line → line < 16 ∧ line ≠ kIrqSlave ∧ s.pics.raised line = true ∧
      s.enabled line = true ∧ (8 ≤ line → s.enabled kIrqSlave = true) ∧ s.pics.vector line = kMIcw2 + line ∧
      ∀ k ∈ s.serving, masterLine line < masterLine k := by
  have hs := PicState.Sound.of_run hrun
  refine ⟨fun _ => hs.masked, fun _ => hs.inService, fun line h => ?_⟩
  obtain ⟨h16, hne, henabled, hcascade, hhigher⟩ := hs.of_request h
  exact ⟨h16, hne, hs.raised h, henabled, hcascade, hs.vector h16, hhigher⟩

theorem masterLine_lt (line : ℕ) : masterLine line < 8 := by
  rw [masterLine]
  split_ifs with h8
  · exact h8
  · decide

namespace PicState.Sound
variable (hs : s.Sound)
include hs

theorem request_of_asks (hasks : s.pics.cascaded.asks i = true) (hi : i < 8) :
    ∃ first, s.pics.request = some first ∧ masterLine first ≤ i := by
  obtain ⟨k, hk, hreq⟩ := Chip.request_of_asks hasks hi
  obtain ⟨hask, hk8, -⟩ := Chip.request_eq_some.mp hreq
  by_cases hslave : k = kIrqSlave
  · subst hslave
    have hirr := (Chip.asks_iff.mp hask).1
    rw [cascaded_irr, if_pos rfl] at hirr
    obtain ⟨j, hj⟩ := Option.isSome_iff_exists.mp hirr
    refine ⟨8 + j, (request_eq_some hs.master).mpr (Or.inr ⟨Nat.le_add_right 8 j, hreq, ?_⟩), ?_⟩
    · rw [Nat.add_sub_cancel_left, hj]
    · rwa [masterLine, if_neg (by omega)]
  · refine ⟨k, (request_eq_some hs.master).mpr (Or.inl ⟨hk8, hslave, hreq⟩), ?_⟩
    rwa [masterLine, if_pos hk8]

variable (hline : line < 16) (hraised : s.pics.raised line = true) (henabled : s.enabled line = true)
  (hhigher : ∀ k ∈ s.serving, masterLine line < masterLine k)
include hline hraised henabled hhigher

theorem slave_asks (h8 : ¬ line < 8) : s.pics.slave.asks (line - 8) = true := by
  rw [Pics.raised, if_neg h8] at hraised
  refine Chip.asks_iff.mpr ⟨hraised, ?_, fun j hj => ?_⟩
  · rw [hs.slaveMask _ (by omega), Nat.add_sub_cancel' (Nat.le_of_not_lt h8), henabled]
    rfl
  · by_contra hset
    have hmem := (hs.slaveService j (by omega)).mp (eq_true_of_ne_false hset)
    have h := hhigher _ hmem
    rw [masterLine, masterLine, if_neg h8, if_neg (by omega)] at h
    exact absurd h (lt_irrefl _)

theorem cascaded_asks (hne : line ≠ kIrqSlave) (hcascade : 8 ≤ line → s.enabled kIrqSlave = true) :
    s.pics.cascaded.asks (masterLine line) = true := by
  refine Chip.asks_iff.mpr ⟨?_, ?_, fun j hj => ?_⟩
  · rw [cascaded_irr]
    by_cases h8 : line < 8
    · rw [Pics.raised, if_pos h8] at hraised
      rwa [masterLine, if_pos h8, if_neg hne]
    · obtain ⟨k, -, hk⟩ := Chip.request_of_asks (hs.slave_asks hline hraised henabled hhigher h8) (by omega)
      rw [masterLine, if_neg h8, if_pos rfl, hk]
      rfl
  · rw [cascaded_imr, hs.masterMask _ (masterLine_lt line), masterLine]
    split_ifs with h8
    · rw [henabled]
      rfl
    · rw [hcascade (Nat.le_of_not_lt h8)]
      rfl
  · rw [cascaded_isr]
    by_contra hset
    obtain ⟨k, hk, rfl⟩ :=
      (hs.masterService j (hj.trans_lt (masterLine_lt line))).mp (eq_true_of_ne_false hset)
    exact absurd (hhigher k hk) (Nat.not_lt.mpr hj)

end PicState.Sound

def freshPics : Pics := ⟨⟨[], 0, 0, false, 0, 0, 0⟩, ⟨[], 0, 0, false, 0, 0, 0⟩⟩

def slavePics (imr irr : BitVec 8) : Pics := ⟨⟨[], 0x20, 4, false, 0, 0xfb, 0⟩, ⟨[], 0x28, 2, false, irr, imr, 0⟩⟩

def diskState : PicState :=
  ⟨slavePics 0xbf 0x40, Function.update (fun line => line == kIrqSlave) 14 true, []⟩

theorem disk_run : Relation.ReflTransGen PicStep (PicState.init freshPics) diskState := by
  have hinit : PicState.init freshPics = ⟨slavePics 0xff 0, fun line => line == kIrqSlave, []⟩ := by
    rw [PicState.init, picInit_eq]
    rfl
  have henable : enableIrq (slavePics 0xff 0) (kMIcw2 + 14) = slavePics 0xbf 0 := by decide
  have hraise : (slavePics 0xbf 0).raise 14 = slavePics 0xbf 0x40 := by decide
  have h₁ : PicStep (PicState.init freshPics) { diskState with pics := slavePics 0xbf 0 } := by
    rw [hinit, ← henable]
    exact .enable (by decide)
  have h₂ : PicStep { diskState with pics := slavePics 0xbf 0 } diskState := by
    rw [diskState, ← hraise]
    exact .raise (by decide) (by decide)
  exact (Relation.ReflTransGen.single h₁).tail h₂

theorem pic_run_disk : diskState.pics.request = some 14 ∧ diskState.pics.vector 14 = 46 := by
  obtain ⟨-, -, hrequest⟩ := pic_run disk_run
  have hdisk : diskState.pics.request = some 14 := by decide
  obtain ⟨-, -, -, -, -, hvector, -⟩ := hrequest 14 hdisk
  exact ⟨hdisk, hvector⟩

theorem pic_offers (hrun : Relation.ReflTransGen PicStep (PicState.init p) s) (hline : line < 16)
    (hne : line ≠ kIrqSlave) (hraised : s.pics.raised line = true) (henabled : s.enabled line = true)
    (hcascade : 8 ≤ line → s.enabled kIrqSlave = true) (hhigher : ∀ k ∈ s.serving, masterLine line < masterLine k) :
    ∃ first, s.pics.request = some first ∧ masterLine first ≤ masterLine line := by
  have hs := PicState.Sound.of_run hrun
  exact hs.request_of_asks (hs.cascaded_asks hline hraised henabled hhigher hne hcascade) (masterLine_lt line)

theorem pic_offers_disk : ∃ first, diskState.pics.request = some first ∧ masterLine first ≤ masterLine 14 :=
  pic_offers disk_run (by decide) (by decide) (by decide) (by decide) (by decide) (by simp [diskState])

end XyOS.Interrupt
