import XyOS.Interrupt.Dispatch

/-! Which registrations take effect, and the exceptions after `IntrInit`. -/

namespace XyOS.Interrupt

def kPfVec : ℕ := 14

def intrInitCalls (excHandler pfHandler : ℕ) : List Call :=
  (List.range kIdtExcNum).map (fun v => .reg v excHandler) ++ [.remove kPfVec, .reg kPfVec pfHandler]

def Call.isReg : Call → Bool
  | .reg .. => true
  | .remove _ => false

def Call.handler : Call → ℕ
  | .reg _ handler => handler
  | .remove _ => 0

def lastOf {α : Type*} (p : Call → Bool) (f : Call → α) (a : α) (calls : List Call) : α :=
  ((calls.reverse.find? p).map f).getD a

/-- The last call for a vector with the bit of `v` is a registration. -/
def taken (calls : List Call) (v : ℕ) : Bool :=
  lastOf (fun call => SameBit call.vector v) Call.isReg false calls

def takesEffect (before : List Call) : Call → Bool
  | .reg v _ => !taken before v
  | .remove _ => true

def effectiveFrom : List Call → List Call → List Call
  | _, [] => []
  | before, call :: calls =>
    if takesEffect before call = true then call :: effectiveFrom (before ++ [call]) calls
    else effectiveFrom (before ++ [call]) calls

def effective (calls : List Call) : List Call := effectiveFrom [] calls

def lastHandler (calls : List Call) (v : ℕ) : ℕ :=
  lastOf (fun call => call.vector = v) Call.handler 0 calls

variable {calls before : List Call} {call : Call} {intrVec : ℕ → BitVec 32} {r : Registry} {v w handler : ℕ}

theorem lastOf_append_singleton {α : Type*} (p : Call → Bool) (f : Call → α) (a : α) (calls : List Call)
    (call : Call) : lastOf p f a (calls ++ [call]) = if p call = true then f call else lastOf p f a calls := by
  rw [lastOf, List.reverse_append, List.reverse_singleton, List.singleton_append]
  by_cases h : p call = true
  · rw [List.find?_cons_of_pos h, if_pos h]
    rfl
  · rw [List.find?_cons_of_neg h, if_neg h, lastOf]

theorem effectiveFrom_append_singleton (before calls : List Call) (call : Call) :
    effectiveFrom before (calls ++ [call]) =
      effectiveFrom before calls ++ if takesEffect (before ++ calls) call = true then [call] else [] := by
  induction calls generalizing before with
  | nil => rw [List.nil_append, effectiveFrom, effectiveFrom, effectiveFrom, List.append_nil, List.nil_append]
  | cons c calls ih =>
    rw [List.cons_append, effectiveFrom, effectiveFrom, ih, List.append_assoc, List.singleton_append]
    split_ifs <;> rfl

theorem effective_append_singleton (calls : List Call) (call : Call) :
    effective (calls ++ [call]) = effective calls ++ if takesEffect calls call = true then [call] else [] :=
  effectiveFrom_append_singleton [] calls call

theorem taken_append_singleton (calls : List Call) (call : Call) (v : ℕ) :
    taken (calls ++ [call]) v = if SameBit call.vector v then call.isReg else taken calls v := by
  rw [taken, lastOf_append_singleton]
  simp only [decide_eq_true_eq, taken]

theorem isBitmapSet_of_sameBit {bitmap : Bitmap} (h : SameBit w v) : isBitmapSet bitmap v = isBitmapSet bitmap w := by
  rw [isBitmapSet_eq, isBitmapSet_eq, h.1, h.2]

theorem isBitmapSet_exec (r : Registry) (call : Call) (v : ℕ) :
    isBitmapSet (exec r call).intrVecMap v =
      if SameBit call.vector v then call.isReg else isBitmapSet r.intrVecMap v := by
  cases call with
  | reg w handler =>
    change isBitmapSet (regIntrHandler r w handler).2.intrVecMap v = if SameBit w v then true else _
    rw [regIntrHandler]
    by_cases hused : isBitmapSet r.intrVecMap w = true
    · rw [if_pos hused]
      split_ifs with hsame
      · exact (isBitmapSet_of_sameBit hsame).trans hused
      · rfl
    · rw [if_neg hused]
      refine (isBitmapSet_setBitmap ..).trans ?_
      by_cases hsame : SameBit w v <;> simp [hsame]
  | remove w =>
    refine (isBitmapSet_clearBitmap ..).trans ?_
    change _ = if SameBit w v then false else _
    by_cases hsame : SameBit w v
    · simp [hsame]
    · simp [hsame, disableIdt]

theorem isBitmapSet_run (intrVec : ℕ → BitVec 32) (calls : List Call) (v : ℕ) :
    isBitmapSet (calls.foldl exec (emptyRegistry intrVec)).intrVecMap v = taken calls v := by
  induction calls using List.reverseRecOn with
  | nil =>
    rw [isBitmapSet_eq]
    simp [emptyRegistry, taken, lastOf]
  | append_singleton calls call ih => rw [List.foldl_concat, isBitmapSet_exec, ih, taken_append_singleton]

theorem regIntrHandler_result (r : Registry) (v handler : ℕ) :
    (regIntrHandler r v handler).1 = !isBitmapSet r.intrVecMap v := by
  rw [regIntrHandler]
  split_ifs with hused
  · rw [hused, Bool.not_true]
  · rw [Bool.eq_false_of_not_eq_true hused, Bool.not_false]

theorem intrHandler_exec (r : Registry) (call : Call) :
    (exec r call).intrHandler = if call.isReg = true ∧ isBitmapSet r.intrVecMap call.vector = true then r.intrHandler
      else Function.update r.intrHandler call.vector call.handler := by
  cases call with
  | reg w handler =>
    rw [exec, regIntrHandler]
    by_cases hused : isBitmapSet r.intrVecMap w = true
    · rw [if_pos hused, if_pos ⟨rfl, hused⟩]
    · rw [if_neg hused, if_neg fun h => hused h.2]
      rfl
  | remove w =>
    rw [if_neg fun h => Bool.false_ne_true h.1]
    rfl

theorem takesEffect_iff (before : List Call) (call : Call) :
    takesEffect before call = true ↔ ¬ (call.isReg = true ∧ taken before call.vector = true) := by
  cases call <;> simp [takesEffect, Call.isReg, Call.vector]

theorem intrHandler_run (intrVec : ℕ → BitVec 32) (calls : List Call) (v : ℕ) :
    (calls.foldl exec (emptyRegistry intrVec)).intrHandler v = lastHandler (effective calls) v := by
  induction calls using List.reverseRecOn with
  | nil => rfl
  | append_singleton calls call ih =>
    rw [List.foldl_concat, intrHandler_exec, isBitmapSet_run, effective_append_singleton]
    by_cases heffect : takesEffect calls call = true
    · rw [if_pos heffect, if_neg ((takesEffect_iff ..).mp heffect), lastHandler, lastOf_append_singleton]
      by_cases hv : v = call.vector
      · rw [hv, Function.update_self, if_pos (decide_eq_true rfl)]
      · rw [Function.update_of_ne hv, ih, if_neg (by simpa using Ne.symm hv), lastHandler]
    · rw [if_neg heffect, if_pos (not_not.mp (mt (takesEffect_iff ..).mpr heffect)), List.append_nil, ih]

theorem registrations_run (intrVec : ℕ → BitVec 32) (calls : List Call) (v : ℕ) :
    let r := calls.foldl exec (emptyRegistry intrVec)
    (∀ handler, (regIntrHandler r v handler).1 = !taken calls v) ∧
      r.intrHandler v = lastHandler (effective calls) v :=
  ⟨fun _ => (regIntrHandler_result ..).trans (congrArg _ (isBitmapSet_run ..)), intrHandler_run ..⟩

/-! ## Exceptions -/

def excTable (excHandler pfHandler v : ℕ) : ℕ := if v < 4 then excHandler else if v = kPfVec then pfHandler else 0

structure ExceptionsSet (excHandler pfHandler : ℕ) (r : Registry) : Prop where
  marked : ∀ v < kIdtExcNum, isBitmapSet r.intrVecMap v = true
  handlers : ∀ v < kIdtExcNum, r.intrHandler v = excTable excHandler pfHandler v

variable {excHandler pfHandler : ℕ}

theorem excLoop_spec (intrVec : ℕ → BitVec 32) (excHandler n : ℕ) :
    let r := ((List.range n).map fun v => Call.reg v excHandler).foldl exec (emptyRegistry intrVec)
    n ≤ kIdtExcNum → (∀ v < kIdtExcNum, isBitmapSet r.intrVecMap v = decide (v % 4 < n)) ∧
      ∀ v < kIdtExcNum, r.intrHandler v = if v < 4 ∧ v < n then excHandler else 0 := by
  induction n with
  | zero =>
    intro r _
    refine ⟨fun v hv => ?_, fun v hv => ?_⟩
    · rw [isBitmapSet_eq]
      simp [r, emptyRegistry]
    · rw [if_neg (by omega)]
      rfl
  | succ n ih =>
    intro r hn
    obtain ⟨hmarked, hhandlers⟩ := ih (by omega)
    unfold kIdtExcNum at hn
    have hr : r = exec (((List.range n).map fun v => Call.reg v excHandler).foldl exec (emptyRegistry intrVec))
        (.reg n excHandler) := by
      simp only [r, List.range_succ, List.map_append, List.map_cons, List.map_nil, List.foldl_concat]
    refine ⟨fun v hv => ?_, fun v hv => ?_⟩
    · rw [hr, isBitmapSet_exec, hmarked v hv]
      change (if SameBit n v then true else _) = _
      unfold kIdtExcNum at hv
      by_cases hsame : SameBit n v
      · rw [if_pos hsame]
        unfold SameBit at hsame
        exact (decide_eq_true (by omega)).symm
      · rw [if_neg hsame, decide_eq_decide]
        unfold SameBit at hsame
        omega
    · rw [hr, intrHandler_exec]
      change (if true = true ∧ isBitmapSet _ n = true then _ else (Function.update _ n excHandler : ℕ → ℕ)) v = _
      rw [hmarked n (by unfold kIdtExcNum; omega)]
      by_cases hn4 : n < 4
      · rw [if_neg (by simp; omega)]
        by_cases hvn : v = n
        · rw [hvn, Function.update_self, if_pos (by omega)]
        · rw [Function.update_of_ne hvn, hhandlers v hv]
          exact if_congr (by omega) rfl rfl
      · rw [if_pos (by simp; omega), hhandlers v hv]
        exact if_congr (by omega) rfl rfl

theorem exceptionsSet_intrInit (intrVec : ℕ → BitVec 32) (excHandler pfHandler : ℕ) :
    ExceptionsSet excHandler pfHandler ((intrInitCalls excHandler pfHandler).foldl exec (emptyRegistry intrVec)) := by
  obtain ⟨hmarked, hhandlers⟩ := excLoop_spec intrVec excHandler kIdtExcNum le_rfl
  rw [intrInitCalls, List.foldl_append, List.foldl_cons, List.foldl_cons, List.foldl_nil]
  set r := ((List.range kIdtExcNum).map fun v => Call.reg v excHandler).foldl exec (emptyRegistry intrVec)
  have hfree : isBitmapSet (exec r (.remove kPfVec)).intrVecMap kPfVec = false :=
    (isBitmapSet_exec ..).trans (if_pos (by decide))
  refine ⟨fun v hv => ?_, fun v hv => ?_⟩
  · rw [isBitmapSet_exec, isBitmapSet_exec, hmarked v hv]
    change (if SameBit kPfVec v then true else if SameBit kPfVec v then false else _) = true
    split_ifs
    · rfl
    · exact decide_eq_true (lt_trans (Nat.mod_lt v (by decide)) (by decide))
  · have hpf : (exec (exec r (.remove kPfVec)) (.reg kPfVec pfHandler)).intrHandler =
        Function.update (Function.update r.intrHandler kPfVec 0) kPfVec pfHandler :=
      (intrHandler_exec ..).trans (if_neg fun h => Bool.false_ne_true (hfree.symm.trans h.2))
    rw [hpf, excTable]
    by_cases hv14 : v = kPfVec
    · rw [hv14, Function.update_self, if_neg (by decide), if_pos rfl]
    · rw [Function.update_of_ne hv14, Function.update_of_ne hv14, hhandlers v hv, if_neg hv14]
      exact if_congr (and_iff_left hv) rfl rfl

theorem ExceptionsSet.exec (h : ExceptionsSet excHandler pfHandler r)
    (hremove : ∀ v, call = .remove v → kIdtExcNum ≤ v) :
    ExceptionsSet excHandler pfHandler (Interrupt.exec r call) := by
  cases call with
  | reg w handler =>
    refine ⟨fun v hv => ?_, fun v hv => ?_⟩
    · rw [isBitmapSet_exec, h.marked v hv]
      split_ifs <;> rfl
    · rw [intrHandler_exec]
      by_cases hw : w < kIdtExcNum
      · rw [if_pos ⟨rfl, h.marked w hw⟩, h.handlers v hv]
      · change (if _ then r.intrHandler else Function.update r.intrHandler w handler) v = _
        rw [← h.handlers v hv]
        split_ifs
        · rfl
        · exact Function.update_of_ne (by omega) ..
  | remove w =>
    have hw := hremove w rfl
    refine ⟨fun v hv => ?_, fun v hv => ?_⟩
    · rw [isBitmapSet_exec, h.marked v hv, if_neg]
      rintro ⟨hword, -⟩
      unfold kIdtExcNum at hw hv
      change w / 32 = v / 32 at hword
      omega
    · rw [← h.handlers v hv]
      exact Function.update_of_ne (by omega) ..

theorem ExceptionsSet.run (h : ExceptionsSet excHandler pfHandler r)
    (hremove : ∀ v, .remove v ∈ calls → kIdtExcNum ≤ v) :
    ExceptionsSet excHandler pfHandler (calls.foldl Interrupt.exec r) := by
  induction calls generalizing r with
  | nil => exact h
  | cons call calls ih =>
    have hnext := h.exec fun v hv => hremove v (hv ▸ List.mem_cons_self)
    exact ih hnext fun v hv => hremove v (List.mem_cons_of_mem _ hv)

theorem intrInit_exceptions (intrVec : ℕ → BitVec 32) {excHandler pfHandler : ℕ} (hexc : excHandler ≠ 0)
    (hpf : pfHandler ≠ 0) {calls : List Call} (hlegal : ∀ call ∈ calls, call.Legal)
    (hremove : ∀ v, .remove v ∈ calls → kIdtExcNum ≤ v) {m : Memory} {gdtr : Segment.Gdtr}
    (hgdt : GdtLoaded m gdtr) (hv : v < kIdtExcNum) :
    let r := (intrInitCalls excHandler pfHandler ++ calls).foldl exec (emptyRegistry intrVec)
    intrHandlerSel r v = (if v < 4 then some excHandler else if v = kPfVec then some pfHandler else none) ∧
      (Opens gdtr m (r.idt v) ↔ v < 4 ∨ v = kPfVec) := by
  intro r
  have hset : ExceptionsSet excHandler pfHandler r := by
    have hinit := (exceptionsSet_intrInit intrVec excHandler pfHandler).run hremove
    rwa [← List.foldl_append] at hinit
  have hinit : ∀ call ∈ intrInitCalls excHandler pfHandler, call.Legal := by
    intro call hcall
    rcases List.mem_append.mp hcall with hcall | hcall
    · obtain ⟨w, hw, rfl⟩ := List.mem_map.mp hcall
      exact ⟨(List.mem_range.mp hw).trans (by decide), hexc⟩
    · simp only [List.mem_cons, List.not_mem_nil, or_false] at hcall
      rcases hcall with rfl | rfl
      · exact (by decide : kPfVec < kIdtEntryNum)
      · exact ⟨(by decide : kPfVec < kIdtEntryNum), hpf⟩
  have hgated : Gated intrVec r v := by
    refine gated_run intrVec (fun call hcall => ?_) (hv.trans (by decide))
    exact (List.mem_append.mp hcall).elim (hinit call) (hlegal call)
  have hsyscall : v ≠ kIdtSyscallNum := ((hv.trans (by decide : kIdtExcNum < kIdtSyscallNum))).ne
  rw [opens_iff hgdt hgated, intrHandlerSel, hset.handlers v hv, excTable]
  by_cases hfirst : v < 4
  · simp [hfirst, hexc, hsyscall]
  · by_cases hv14 : v = kPfVec
    · simp [hv14, hpf, hv14 ▸ hfirst, hv14 ▸ hsyscall]
    · simp [hfirst, hv14]

theorem intrInit_exceptions_protection :
    intrHandlerSel ((intrInitCalls 0xc0101000 0xc0102000 ++ [Call.reg 13 0xc0103000]).foldl exec
        (emptyRegistry (BitVec.ofNat 32))) 13 = none ∧
      ¬ Opens (Segment.gdtInit (fun _ => 0) 47).2 (kernelProcessor 0x1000).mem
        (((intrInitCalls 0xc0101000 0xc0102000 ++ [Call.reg 13 0xc0103000]).foldl exec
          (emptyRegistry (BitVec.ofNat 32))).idt 13) := by
  have hlegal : ∀ call ∈ [Call.reg 13 0xc0103000], call.Legal := by simp [Call.Legal, kIdtEntryNum]
  have hexc : (0xc0101000 : ℕ) ≠ 0 := by decide
  have hpf : (0xc0102000 : ℕ) ≠ 0 := by decide
  have hset := intrInit_exceptions (BitVec.ofNat 32) hexc hpf hlegal (by simp) (gdtLoaded_kernelProcessor 0x1000)
    (show 13 < kIdtExcNum by decide)
  exact ⟨hset.1, fun hopens => absurd (hset.2.mp hopens) (by decide)⟩

end XyOS.Interrupt
