import Mathlib.Logic.Relation
import XyOS.Interrupt.Dispatch
import XyOS.Thread.Stacks

/-! Threads that are interrupted anywhere, in handlers too, and switched while their handlers
are not through. -/

namespace XyOS.Interrupt
open Machine Scheduling

/-- What `SwitchReg` sees of the processor. -/
def Processor.core (c : Processor) : Cpu where
  reg
    | .eax => c.gpr .eax
    | .edx => c.gpr .edx
    | .ebx => c.gpr .ebx
    | .esi => c.gpr .esi
    | .edi => c.gpr .edi
    | .ebp => c.gpr .ebp
  esp := c.esp
  eip := c.eip
  interrupts := c.eflags.getLsbD 9
  mem := c.mem

/-- The processor, the running thread, and for each thread the processor at those of its
interrupts whose handlers are not through, the latest first. -/
structure System where
  cpu : Processor
  cur : ℕ
  pending : ℕ → List Processor

/-- The lowest address of the stack of `t` that the running code of `t` leaves alone. -/
def level (st : Stacks) (t : ℕ) : List Processor → ℕ
  | [] => st.hi t
  | c :: _ => c.esp.toNat - 64

/-- Code keeps the stack above the call of its handler, and switches below it. No thread with
an interrupt pending is created anew. -/
def Disciplined (st : Stacks) (pending : ℕ → List Processor) (a b : Core) : Act → Prop
  | .code => ∀ x, level st a.cur (pending a.cur) ≤ x → x < st.hi a.cur → b.cpu.mem x = a.cpu.mem x
  | .switch _ => a.cpu.esp.toNat ≤ level st a.cur (pending a.cur)
  | .create t => pending t = []
  | .prepare t _ => pending t = []

inductive Event
  | thread (act : Act)
  | interrupt (v : ℕ) (errCode : Option (BitVec 32))
  | resume

inductive Advance (st : Stacks) (im : Image) (gdtr : Segment.Gdtr) : Event → System → System → Prop
  | thread {s : System} {c' : Processor} {cur' : ℕ} {act : Act}
      (hstep : Step st act ⟨s.cpu.core, s.cur⟩ ⟨c'.core, cur'⟩)
      (hkeeps : Disciplined st s.pending ⟨s.cpu.core, s.cur⟩ ⟨c'.core, cur'⟩ act) :
      Advance st im gdtr (.thread act) s ⟨c', cur', s.pending⟩
  | interrupt {s : System} {d : Processor} {r : Registry} {v : ℕ} {errCode : Option (BitVec 32)}
      (hcur : s.cur ∈ st.threads) (hv : v < kIdtEntryNum) (hoffset : (r.idt v).offset = im.intrVec v)
      (herr : errCode.isSome = true ↔ v ∈ errCodeVecs) (hlow : st.lo s.cur + 68 ≤ s.cpu.esp.toNat)
      (hhigh : s.cpu.esp.toNat ≤ level st s.cur (s.pending s.cur))
      (hint : interrupt im gdtr r v errCode s.cpu = .ok d) :
      Advance st im gdtr (.interrupt v errCode) s
        ⟨d, s.cur, Function.update s.pending s.cur (s.cpu :: s.pending s.cur)⟩
  | resume {s : System} {c : Processor} {rest : List Processor} (hpending : s.pending s.cur = c :: rest)
      (hcur : s.cur ∈ st.threads) (hesp : s.cpu.esp = c.esp - 64#32) :
      Advance st im gdtr .resume s ⟨resume s.cpu, s.cur, Function.update s.pending s.cur rest⟩

def Reaches (st : Stacks) (im : Image) (gdtr : Segment.Gdtr) : System → System → Prop :=
  Relation.ReflTransGen fun s s' => ∃ e, Advance st im gdtr e s s'

/-! ## The frames of pending interrupts -/

/-- The memory from which the interrupt of `c` in the thread `t` ends. -/
structure Framed (st : Stacks) (t : ℕ) (m : Memory) (c : Processor) : Prop where
  low : st.lo t + 68 ≤ c.esp.toNat
  high : c.esp.toNat ≤ st.hi t
  pointer : load m (c.esp - 64#32) = c.esp - 60#32
  registers : (readIntrReg m (c.esp - 60#32)).interrupted = c.interrupted
  above : ∀ x, c.esp.toNat ≤ x → x < st.hi t → m x = c.mem x

def Nested (st : Stacks) (t : ℕ) (m : Memory) : List Processor → Prop
  | [] => True
  | c :: cs => Framed st t m c ∧ c.esp.toNat ≤ level st t cs ∧ Nested st t m cs

def System.Sound (st : Stacks) (s : System) : Prop := ∀ t ∈ st.threads, Nested st t s.cpu.mem (s.pending t)

variable {st : Stacks} {im : Image} {gdtr : Segment.Gdtr} {t : ℕ} {m m' : Memory} {c : Processor}
  {cs : List Processor} {s s' : System}

theorem Framed.congr (hf : Framed st t m c) (h : ∀ x, c.esp.toNat - 64 ≤ x → x < st.hi t → m' x = m x) :
    Framed st t m' c := by
  have hlow := hf.low
  have hhigh := hf.high
  have h64 : (c.esp - 64#32).toNat = c.esp.toNat - 64 := toNat_below (by omega)
  have h60 : (c.esp - 60#32).toNat = c.esp.toNat - 60 := toNat_below (by omega)
  have hlt := c.esp.isLt
  refine ⟨hlow, hhigh, ?_, ?_, fun x hx hx' => ?_⟩
  · rw [load_congr fun x _ _ => h x (by omega) (by omega), hf.pointer]
  · rw [interrupted_congr (by omega) fun x _ _ => h x (by omega) (by omega), hf.registers]
  · rw [h x (by omega) hx', hf.above x hx hx']

theorem Nested.level_le (h : Nested st t m cs) : level st t cs ≤ st.hi t := by
  cases cs with
  | nil => exact le_rfl
  | cons c cs => exact (Nat.sub_le _ _).trans h.1.high

theorem Nested.congr (hn : Nested st t m cs) (h : ∀ x, level st t cs ≤ x → x < st.hi t → m' x = m x) :
    Nested st t m' cs := by
  induction cs with
  | nil => trivial
  | cons c cs ih =>
    obtain ⟨hf, hle, hrest⟩ := hn
    exact ⟨hf.congr h, hle, ih hrest fun x hx => h x ((Nat.sub_le _ _).trans (hle.trans hx))⟩

theorem Nested.of_region (hn : Nested st t m cs) (h : ∀ x, st.Own t x → m' x = m x) : Nested st t m' cs := by
  cases cs with
  | nil => trivial
  | cons c cs =>
    refine hn.congr fun x hx hx' => h x (Or.inl ⟨?_, hx'⟩)
    have hlow := hn.1.low
    rw [level] at hx
    omega

/-! ## Steps -/

theorem switchReg_of_above {a : Cpu} {cur x : ℕ} (hat : AtSwitch st a cur t) (hcur : cur ∈ st.threads)
    (hx : a.esp.toNat ≤ x) (hx' : x < st.hi cur) : (Machine.exec switchRegCode a).mem x = a.mem x := by
  have hlow := hat.low
  have hrec := st.record_apart cur hcur cur hcur
  have hesp := Stacks.esp_toNat hcur
  have hpush (m : Memory) (v : BitVec 32) {n : ℕ} (h4 : 4 ≤ n) (hn : n ≤ 16) :
      store m (a.esp - BitVec.ofNat 32 n) v x = m x := by
    have hn' := hat.toNat_sub hn
    exact store_of_outside (by omega)
  have hsaved (m : Memory) (v : BitVec 32) : store m (ptr (Thread.esp cur)) v x = m x := by
    rw [threadBytes] at hrec
    exact store_of_outside (by omega)
  rw [(exec_switchReg a hat.curEsp hat.newEsp).1, hsaved, pushed, hpush _ _ (by decide) (by decide),
    hpush _ _ (by decide) (by decide), hpush _ _ (by decide) (by decide), hpush _ _ (by decide) (by decide)]

theorem Nested.step {a b : Core} {act : Act} {pending : ℕ → List Processor} (h : Step st act a b)
    (hd : Disciplined st pending a b act) (ht : t ∈ st.threads) (hn : Nested st t a.cpu.mem (pending t)) :
    Nested st t b.cpu.mem (pending t) := by
  cases h with
  | @code c c' cur hcur hmem =>
    by_cases htc : t = cur
    · subst htc
      exact hn.congr hd
    · exact hn.of_region (hmem t ht htc)
  | @create c cur u hu hne =>
    by_cases htu : t = u
    · subst htu
      rw [show pending t = [] from hd]
      trivial
    · exact hn.of_region fun x hx => createStack_keeps hu ht htu hx.region
  | @prepare c cur u startFunc hu hne hnew =>
    by_cases htu : t = u
    · subst htu
      rw [show pending t = [] from hd]
      trivial
    · exact hn.of_region fun x hx => runStack_keeps hu hnew _ ht htu hx.region
  | @switch c cur u hcur hu hne hat =>
    by_cases htc : t = cur
    · subst htc
      exact hn.congr fun x hx hx' => switchReg_of_above hat ht (hd.trans hx) hx'
    · exact hn.of_region fun x hx => hat.keeps hcur ht htc hx.region

theorem mem_of_interrupt {d : Processor} {r : Registry} {v : ℕ} {errCode : Option (BitVec 32)}
    (hv : v < kIdtEntryNum) (hoffset : (r.idt v).offset = im.intrVec v)
    (herr : errCode.isSome = true ↔ v ∈ errCodeVecs) (h : interrupt im gdtr r v errCode c = .ok d) :
    d.mem = trapMem c im.returnAddr (stubMem c (BitVec.ofNat 32 v) (errCode.getD 0)) := by
  have hopens : Opens gdtr c.mem (r.idt v) := by
    by_contra hnot
    have hrefused : ∃ e, deliver gdtr (r.idt v) errCode c = .error e := deliver_of_not_opens hnot
    obtain ⟨e, he⟩ := hrefused
    rw [interrupt, he] at h
    cases h
  obtain ⟨gpr, heq⟩ := interrupt_of_opens hv hoffset herr hopens
  rw [← Except.ok.inj (heq.symm.trans h)]

theorem framed_trapMem {v errCode returnAddr : BitVec 32} (hlow : st.lo t + 68 ≤ c.esp.toNat)
    (hhigh : c.esp.toNat ≤ st.hi t) : Framed st t (trapMem c returnAddr (stubMem c v errCode)) c := by
  have hroom : 68 ≤ c.esp.toNat := by omega
  exact ⟨hlow, hhigh, (load_trapMem hroom).1, (readIntrReg_trapMem hroom).1,
    fun x hx _ => trapMem_of_outside hroom (Or.inr hx)⟩

theorem Advance.sound {e : Event} (h : Advance st im gdtr e s s') (hs : s.Sound st) : s'.Sound st := by
  intro t ht
  have hn := hs t ht
  cases h with
  | thread hstep hkeeps => exact Nested.step hstep hkeeps ht hn
  | @interrupt _ d r v errCode hcur hv hoffset herr hlow hhigh hint =>
    have hmem := mem_of_interrupt hv hoffset herr hint
    have hroom : 68 ≤ s.cpu.esp.toNat := by omega
    change Nested st t d.mem (Function.update s.pending s.cur (s.cpu :: s.pending s.cur) t)
    by_cases htc : t = s.cur
    · subst htc
      rw [Function.update_self, hmem]
      exact ⟨framed_trapMem hlow (hhigh.trans hn.level_le), hhigh, hn.congr fun x hx _ =>
        trapMem_of_outside hroom (Or.inr (hhigh.trans hx))⟩
    · rw [Function.update_of_ne htc, hmem]
      refine hn.of_region fun x hx => trapMem_of_outside hroom ?_
      by_contra hin
      refine st.region_apart ht hcur htc hx.region (Or.inl ?_)
      have hle := (hs s.cur hcur).level_le
      omega
  | @resume _ c rest hpending hcur hesp =>
    change Nested st t (Interrupt.resume s.cpu).mem (Function.update s.pending s.cur rest t)
    rw [(resume_eq s.cpu).2.2]
    by_cases htc : t = s.cur
    · subst htc
      rw [Function.update_self]
      rw [hpending] at hn
      exact hn.2.2
    · rw [Function.update_of_ne htc]
      exact hn

theorem Reaches.sound (h : Reaches st im gdtr s s') (hs : s.Sound st) : s'.Sound st := by
  induction h with
  | refl => exact hs
  | tail _ hstep ih =>
    obtain ⟨e, hstep⟩ := hstep
    exact hstep.sound ih

/-- Whatever the handlers and the other threads do, and wherever they are interrupted in their turn,
the end of an interrupt gives its thread back the registers, the stack pointer and the stack that the
interrupt met. -/
theorem resume_restores (st : Stacks) (im : Image) (gdtr : Segment.Gdtr) {s₀ s s' : System}
    (h₀ : ∀ t, s₀.pending t = []) (hrun : Reaches st im gdtr s₀ s) (hresume : Advance st im gdtr .resume s s') :
    ∃ c rest, s.pending s.cur = c :: rest ∧ s'.cur = s.cur ∧ s'.pending s.cur = rest ∧
      s'.cpu.interrupted = c.interrupted ∧ s'.cpu.esp = c.esp ∧
      ∀ x, c.esp.toNat ≤ x → x < st.hi s.cur → s'.cpu.mem x = c.mem x := by
  have hsound : s.Sound st := hrun.sound fun t _ => by
    rw [h₀]
    trivial
  cases hresume with
  | @resume _ c rest hpending hcur hesp =>
    have hn := hsound s.cur hcur
    rw [hpending] at hn
    have hframed := hn.1
    obtain ⟨hregs, hsp, hmem⟩ := resume_eq s.cpu
    rw [hesp, hframed.pointer] at hregs hsp
    refine ⟨c, rest, hpending, rfl, Function.update_self .., hregs.trans hframed.registers, ?_, fun x hx hx' => ?_⟩
    · exact hsp.trans (BitVec.sub_add_cancel ..)
    · exact (congrFun hmem x).trans (hframed.above x hx hx')

theorem resume_restores_timer : ∃ s',
    Reaches pairStacks plainImage (Segment.gdtInit (fun _ => 0) 47).2
      ⟨kernelProcessor 0x10f00#32, 0x1000, fun _ => []⟩ s' ∧
    s'.cpu.interrupted = (kernelProcessor 0x10f00#32).interrupted ∧ s'.cpu.esp = 0x10f00#32 := by
  let c := kernelProcessor 0x10f00#32
  let gdtr := (Segment.gdtInit (fun _ => 0) 47).2
  let r := exec (emptyRegistry plainImage.intrVec) (.reg 0x20 0xc0103000)
  have hlegal : (Call.reg 0x20 0xc0103000).Legal := ⟨by decide, by decide⟩
  have hgated : Gated plainImage.intrVec r 0x20 := (gated_empty _ (by decide)).exec hlegal
  have hopens : Opens gdtr c.mem (r.idt 0x20) :=
    (opens_iff (gdtLoaded_kernelProcessor _) hgated).mpr ⟨by decide, by decide⟩
  have herr : (none : Option (BitVec 32)).isSome = true ↔ 0x20 ∈ errCodeVecs := by decide
  obtain ⟨gpr, hint⟩ := interrupt_of_opens (by decide) hgated.offset herr hopens
  generalize hd : Processor.mk gpr _ _ _ _ _ _ = d at hint
  have hesp : d.esp = c.esp - 68#32 := by rw [← hd]
  let s₀ : System := ⟨c, 0x1000, fun _ => []⟩
  let s₁ : System := ⟨d, 0x1000, Function.update s₀.pending 0x1000 [c]⟩
  let s₂ : System := ⟨{ d with esp := d.esp + 4#32 }, 0x1000, s₁.pending⟩
  have hcur : 0x1000 ∈ pairStacks.threads := Or.inl rfl
  have h₁ : Advance pairStacks plainImage gdtr (.interrupt 0x20 none) s₀ s₁ :=
    .interrupt hcur (by decide) hgated.offset herr (by decide) (by decide) hint
  have h₂ : Advance pairStacks plainImage gdtr (.thread .code) s₁ s₂ :=
    .thread (.code hcur fun _ _ _ _ _ => rfl) fun _ _ _ => rfl
  have hback : s₂.cpu.esp = c.esp - 64#32 :=
    (congrArg (· + 4#32) hesp).trans (sub_lit_add_lit c.esp (show 4 ≤ 68 by decide))
  have hpending : s₂.pending s₂.cur = [c] := rfl
  have h₃ : Advance pairStacks plainImage gdtr .resume s₂ _ := .resume hpending hcur hback
  have hrun : Reaches pairStacks plainImage gdtr s₀ s₂ := (Relation.ReflTransGen.single ⟨_, h₁⟩).tail ⟨_, h₂⟩
  have hstart : ∀ t, s₀.pending t = [] := fun _ => rfl
  obtain ⟨c', rest, hpending', -, -, hregs, hsp, -⟩ :=
    resume_restores pairStacks plainImage gdtr hstart hrun h₃
  obtain ⟨rfl, rfl⟩ := List.cons.inj (hpending'.symm.trans hpending)
  exact ⟨_, hrun.tail ⟨_, h₃⟩, hregs, hsp⟩

end XyOS.Interrupt
