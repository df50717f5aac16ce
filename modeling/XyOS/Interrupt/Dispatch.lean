import XyOS.Interrupt.Trap

/-! From the gates to the registered handlers, after any registrations and removals. -/

namespace XyOS.Interrupt
open Machine

def gateSel (v : ℕ) : BitVec 16 := if v = kIdtSyscallNum then kUCodeSeg else kKCodeSeg

structure Gated (intrVec : ℕ → BitVec 32) (r : Registry) (v : ℕ) : Prop where
  offset : (r.idt v).offset = intrVec v
  segSel : (r.idt v).segSel = gateSel v
  present : (r.idt v).Present ↔ r.intrHandler v ≠ 0

variable {intrVec : ℕ → BitVec 32} {r : Registry} {v w handler : ℕ}

theorem offset_idtEntry (offset : BitVec 32) (segSel type : BitVec 16) :
    (idtEntry offset segSel type).offset = offset := by
  apply BitVec.eq_of_getLsbD_eq
  intro i hi
  simp only [IntrGateDescriptor.offset, idtEntry, BitVec.getLsbD_append, BitVec.getLsbD_setWidth,
    BitVec.getLsbD_ushiftRight]
  split_ifs <;> grind

theorem idtInit_eq (intrVec : ℕ → BitVec 32) (v : ℕ) :
    ∃ type, idtInit intrVec v = idtEntry (intrVec v) (gateSel v) type := by
  rw [idtInit, gateSel]
  split_ifs
  · exact ⟨_, rfl⟩
  · exact ⟨_, rfl⟩
  · exact ⟨_, rfl⟩

theorem gated_empty (intrVec : ℕ → BitVec 32) (hv : v < kIdtEntryNum) : Gated intrVec (emptyRegistry intrVec) v := by
  obtain ⟨type, heq⟩ := idtInit_eq intrVec v
  refine ⟨?_, ?_, ((consistent_empty intrVec).present v hv).symm⟩
  · exact (congrArg IntrGateDescriptor.offset heq).trans (offset_idtEntry ..)
  · exact congrArg IntrGateDescriptor.segSel heq

theorem Gated.of_eq {r' : Registry} (h : Gated intrVec r v) (hidt : r'.idt v = r.idt v)
    (hhandler : r'.intrHandler v = r.intrHandler v) : Gated intrVec r' v := by
  refine ⟨?_, ?_, ?_⟩
  · rw [hidt, h.offset]
  · rw [hidt, h.segSel]
  · rw [hidt, hhandler, h.present]

theorem Gated.regIntrHandler (h : Gated intrVec r v) (hhandler : handler ≠ 0) :
    Gated intrVec (regIntrHandler r w handler).2 v := by
  rw [Interrupt.regIntrHandler]
  split_ifs with hused
  · exact h
  · by_cases hvw : v = w
    · subst hvw
      refine ⟨?_, ?_, ?_⟩
      · simpa [enableIdt, IntrGateDescriptor.offset] using h.offset
      · simpa [enableIdt] using h.segSel
      · simp [enableIdt, IntrGateDescriptor.Present, hhandler]
    · exact h.of_eq (Function.update_of_ne hvw ..) (Function.update_of_ne hvw ..)

theorem Gated.removeIntrHandler (h : Gated intrVec r v) : Gated intrVec (removeIntrHandler r w) v := by
  by_cases hvw : v = w
  · subst hvw
    refine ⟨?_, ?_, ?_⟩
    · simpa [Interrupt.removeIntrHandler, disableIdt, IntrGateDescriptor.offset] using h.offset
    · simpa [Interrupt.removeIntrHandler, disableIdt] using h.segSel
    · simp [Interrupt.removeIntrHandler, disableIdt, IntrGateDescriptor.Present]
  · exact h.of_eq (Function.update_of_ne hvw ..) (Function.update_of_ne hvw ..)

theorem Gated.exec {call : Call} (h : Gated intrVec r v) (hlegal : call.Legal) :
    Gated intrVec (Interrupt.exec r call) v := by
  cases call with
  | reg w handler => exact h.regIntrHandler hlegal.2
  | remove w => exact h.removeIntrHandler

theorem gated_run (intrVec : ℕ → BitVec 32) {calls : List Call} (hlegal : ∀ call ∈ calls, call.Legal)
    (hv : v < kIdtEntryNum) : Gated intrVec (calls.foldl Interrupt.exec (emptyRegistry intrVec)) v := by
  induction calls using List.reverseRecOn with
  | nil => exact gated_empty intrVec hv
  | append_singleton calls call ih =>
    rw [List.foldl_append, List.foldl_cons, List.foldl_nil]
    exact (ih fun d hd => hlegal d (List.mem_append_left _ hd)).exec
      (hlegal call (List.mem_append_right _ List.mem_cons_self))

/-! ## Dispatch -/

structure GdtLoaded (m : Memory) (gdtr : Segment.Gdtr) : Prop where
  table : ∃ m₀ gdtLimit, gdtr = (Segment.gdtInit m₀ gdtLimit).2 ∧
    ∀ x, Segment.kGdtBaseAddr ≤ x → x < Segment.kGdtBaseAddr + 48 → m x = (Segment.gdtInit m₀ gdtLimit).1 x
  room : 15 ≤ gdtr.limit.toNat

theorem GdtLoaded.lookup {m : Memory} {gdtr : Segment.Gdtr} (h : GdtLoaded m gdtr) {s : BitVec 16 × BitVec 8}
    (hs : s ∈ Segment.segments) : Segment.lookup m gdtr s.1 =
      if 8 * (s.1 >>> 3).toNat + 7 ≤ gdtr.limit.toNat then some (Segment.flat s.2) else none := by
  obtain ⟨⟨m₀, gdtLimit, rfl, htable⟩, -⟩ := h
  have hindices : ∀ s ∈ Segment.segments, (s.1 >>> 3).toNat ≤ 4 := Segment.forall_segments.mpr (by decide)
  have hindex := hindices s hs
  have hbase : (Segment.gdtInit m₀ gdtLimit).2.baseAddr = Segment.kGdtBaseAddr := rfl
  rw [Segment.lookup_congr fun x hx hx' => htable x (by omega) (by omega), Segment.lookup_segments m₀ gdtLimit hs]
  rfl

theorem opens_iff {m : Memory} {gdtr : Segment.Gdtr} (hgdt : GdtLoaded m gdtr) (h : Gated intrVec r v) :
    Opens gdtr m (r.idt v) ↔ r.intrHandler v ≠ 0 ∧ v ≠ kIdtSyscallNum := by
  rw [Opens, h.present, h.segSel, gateSel]
  refine and_congr_right fun _ => ?_
  split_ifs with hv
  · refine iff_of_false ?_ (not_not.mpr hv)
    rintro ⟨d, hlookup, ⟨-, hdpl⟩, -⟩
    have hsel := hgdt.lookup (s := (Segment.kUCodeSeg, Segment.access Segment.kSegPriority3 Segment.kSegTypeCode))
      (by decide)
    rw [show kUCodeSeg = Segment.kUCodeSeg from rfl, hsel] at hlookup
    split_ifs at hlookup
    obtain rfl := Option.some.inj hlookup
    exact absurd hdpl (by decide)
  · refine iff_of_true ?_ hv
    have hsel := hgdt.lookup (s := (Segment.kKCodeSeg, Segment.access Segment.kSegPriority0 Segment.kSegTypeCode))
      (by decide)
    exact ⟨_, hsel.trans (if_pos hgdt.room), by decide, by decide⟩

/-- After any registrations and removals, an interrupt of the kernel enters `IntrHandlerSel` exactly
if its vector has a handler and is not that of the system call. The handler is then called for the
vector and finds the registers of the interrupted code in its frame. -/
theorem interrupt_dispatches {im : Image} {gdtr : Segment.Gdtr} {calls : List Call}
    (hlegal : ∀ call ∈ calls, call.Legal) (hv : v < kIdtEntryNum) {errCode : Option (BitVec 32)}
    (herr : errCode.isSome = true ↔ v ∈ errCodeVecs) {c : Processor} (hgdt : GdtLoaded c.mem gdtr)
    (hroom : 68 ≤ c.esp.toNat) :
    let r := calls.foldl exec (emptyRegistry im.intrVec)
    ((∃ d, interrupt im gdtr r v errCode c = .ok d) ↔ r.intrHandler v ≠ 0 ∧ v ≠ kIdtSyscallNum) ∧
      ∀ d, interrupt im gdtr r v errCode c = .ok d → d.eip = im.intrHandlerSel ∧ d.eflags &&& kIf = 0 ∧
        let f := readIntrReg d.mem (load d.mem (d.esp + 4#32))
        intrHandlerSel r f.intrVecNo.toNat = some (r.intrHandler v) ∧ f.errCode = errCode.getD 0 ∧
          f.interrupted = c.interrupted := by
  intro r
  have hgated : Gated im.intrVec r v := gated_run im.intrVec hlegal hv
  have hopens := opens_iff hgdt hgated
  by_cases ho : Opens gdtr c.mem (r.idt v)
  · obtain ⟨gpr, hint⟩ := interrupt_of_opens hv hgated.offset herr ho
    refine ⟨iff_of_true ⟨_, hint⟩ (hopens.mp ho), fun d hd => ?_⟩
    obtain rfl := Except.ok.inj (hint.symm.trans hd)
    obtain ⟨hregs, hvec, hcode, -⟩ := readIntrReg_trapMem (v := BitVec.ofNat 32 v) hroom
    have harg : c.esp - 68#32 + 4#32 = c.esp - 64#32 := sub_lit_add_lit c.esp (show 4 ≤ 68 by decide)
    refine ⟨rfl, ?_, ?_⟩
    · rw [BitVec.and_assoc, BitVec.not_and_self]
      exact BitVec.and_zero
    · simp only [harg, (load_trapMem hroom).1]
      refine ⟨?_, hcode, hregs⟩
      have hlt : v < 2 ^ 32 := hv.trans (by decide)
      rw [hvec, BitVec.toNat_ofNat, Nat.mod_eq_of_lt hlt, intrHandlerSel, if_pos (hopens.mp ho).1]
  · have hrefused : ∃ e, deliver gdtr (r.idt v) errCode c = .error e := deliver_of_not_opens ho
    obtain ⟨e, he⟩ := hrefused
    have herror : interrupt im gdtr r v errCode c = .error e := by
      rw [interrupt, he]
      rfl
    refine ⟨iff_of_false ?_ (mt hopens.mpr ho), fun d hd => ?_⟩
    · rintro ⟨d, hd⟩
      cases herror.symm.trans hd
    · cases herror.symm.trans hd

def plainImage : Image where
  intrVec := BitVec.ofNat 32
  intrHandlerSel := 0xc0101000
  returnAddr := 0xc0102000
  code a := intrVecStub a.toNat ++ allTraps 0xc0101000 0xc0102000
  code_intrVec v hv := by
    rw [BitVec.toNat_ofNat, Nat.mod_eq_of_lt (hv.trans (by decide))]

def kernelProcessor (esp : BitVec 32) : Processor where
  gpr := fun _ => 7
  seg := fun _ => Segment.kKDataSeg
  cs := Segment.kKCodeSeg
  esp := esp
  eip := 0xc0100000
  eflags := 0x202
  mem := (Segment.gdtInit (fun _ => 0) 47).1

theorem gdtLoaded_kernelProcessor (esp : BitVec 32) :
    GdtLoaded (kernelProcessor esp).mem (Segment.gdtInit (fun _ => 0) 47).2 :=
  ⟨⟨_, _, rfl, fun _ _ _ => rfl⟩, by decide⟩

theorem interrupt_dispatches_timer :
    (∃ d, interrupt plainImage (Segment.gdtInit (fun _ => 0) 47).2
      ([Call.reg 0x20 0xc0103000].foldl exec (emptyRegistry plainImage.intrVec)) 0x20 none
      (kernelProcessor 0x1000) = .ok d) ∧
    ¬ ∃ d, interrupt plainImage (Segment.gdtInit (fun _ => 0) 47).2
      ([Call.reg 0x20 0xc0103000, Call.remove 0x20].foldl exec (emptyRegistry plainImage.intrVec)) 0x20 none
      (kernelProcessor 0x1000) = .ok d := by
  have hreg : ∀ call ∈ [Call.reg 0x20 0xc0103000], call.Legal := by simp [Call.Legal, kIdtEntryNum]
  have hremove : ∀ call ∈ [Call.reg 0x20 0xc0103000, Call.remove 0x20], call.Legal := by
    simp [Call.Legal, kIdtEntryNum]
  have hgdt := gdtLoaded_kernelProcessor 0x1000
  constructor
  · exact (interrupt_dispatches hreg (by decide) (by decide) hgdt (by decide)).1.mpr ⟨by decide, by decide⟩
  · intro h
    exact ((interrupt_dispatches hremove (by decide) (by decide) hgdt (by decide)).1.mp h).1 (by decide)

end XyOS.Interrupt
