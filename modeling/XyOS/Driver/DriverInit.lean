import XyOS.Driver.DriverInitDefs

/-! `DriverInit` over whole runs, finished or not: the handshakes with the drive and the keyboard
controller, and which interrupt lines are open with which handlers. -/

namespace XyOS.DriverInit
open Ports Driver Interrupt

/-- The line has its handler, and what the handler uses is set, or its device sends nothing. -/
inductive Served (fs : Handlers) (s : Drivers) : ℕ → Prop
  | timer (hhandler : s.registry.intrHandler kTimerVec = fs.timer) (htimer : s.timer ≠ 0) : Served fs s 0
  | keyboard (hhandler : s.registry.intrHandler kKeyboardVec = fs.keyboard) (hmap : s.keymap = true)
    (hcounter : s.keyboard.keyCounter = 0) (hcur : s.keyboard.cur = 0) : Served fs s 1
  | cascade : Served fs s kIrqSlave
  | silent (hsilent : s.silent = true) : Served fs s 14
  | ide (hhandler : s.registry.intrHandler kIdeVec = fs.ide) (hqueue : s.blockQueue = true) : Served fs s 14

structure Guarded (fs : Handlers) (s : Drivers) : Prop where
  sound : s.pic.Sound
  served : ∀ line < 16, s.pic.enabled line = true → Served fs s line

def Allowed (fs : Handlers) (s : Drivers) : Access KernelCall → Prop
  | .outb port b => port = kDeviceCtrlReg → b.getLsbD 1 = false → s.pic.enabled 14 = true →
    s.registry.intrHandler kIdeVec = fs.ide ∧ s.blockQueue = true
  | .call (.regIntrHandler v _) => ∀ line < 16, s.pic.enabled line = true → kMIcw2 + line = v →
    line = 14 ∧ s.silent = true
  | .call (.enableIrq v) => ∃ line < 16, v = kMIcw2 + line ∧ Served fs s line
  | .call (.setTimer timer) => timer ≠ 0
  | _ => True

variable {fs : Handlers} {s : Drivers} {x : Access KernelCall} {line v w handler : ℕ}

theorem intrHandler_regIntrHandler (r : Registry) (handler : ℕ) (h : w ≠ v) :
    (regIntrHandler r v handler).2.intrHandler w = r.intrHandler w := by
  rw [regIntrHandler]
  split_ifs
  · rfl
  · exact Function.update_of_ne h ..

theorem Served.regIntrHandler (h : Served fs s line) (hallowed : kMIcw2 + line = v → line = 14 ∧ s.silent = true) :
    Served fs (s.access (.call (.regIntrHandler v handler))) line := by
  by_cases hv : kMIcw2 + line = v
  · obtain ⟨rfl, hsilent⟩ := hallowed hv
    exact .silent hsilent
  · have hother := intrHandler_regIntrHandler s.registry handler hv
    cases h with
    | timer hhandler htimer => exact .timer (hother.trans hhandler) htimer
    | keyboard hhandler hmap hcounter hcur => exact .keyboard (hother.trans hhandler) hmap hcounter hcur
    | cascade => exact .cascade
    | silent hsilent => exact .silent hsilent
    | ide hhandler hqueue => exact .ide (hother.trans hhandler) hqueue

theorem Served.imp {s' : Drivers} (h : Served fs s line) (hregistry : s'.registry = s.registry)
    (htimer : s.timer ≠ 0 → s'.timer ≠ 0) (hmap : s.keymap = true → s'.keymap = true)
    (hcounter : s.keyboard.keyCounter = 0 → s'.keyboard.keyCounter = 0)
    (hcur : s.keyboard.cur = 0 → s'.keyboard.cur = 0) (hsilent : s.silent = true → s'.silent = true)
    (hqueue : s.blockQueue = true → s'.blockQueue = true) : Served fs s' line := by
  cases h with
  | timer hhandler ht => exact .timer (hregistry ▸ hhandler) (htimer ht)
  | keyboard hhandler hm hk hc => exact .keyboard (hregistry ▸ hhandler) (hmap hm) (hcounter hk) (hcur hc)
  | cascade => exact .cascade
  | silent hs => exact .silent (hsilent hs)
  | ide hhandler hq => exact .ide (hregistry ▸ hhandler) (hqueue hq)

theorem Guarded.enableIrq (h : Guarded fs s) (hline : line < 16) (hserved : Served fs s line) :
    Guarded fs (s.access (.call (.enableIrq (kMIcw2 + line)))) := by
  have hsub : kMIcw2 + line - kMIcw2 = line := Nat.add_sub_cancel_left ..
  refine ⟨?_, fun l hl henabled => ?_⟩
  · change PicState.Sound { s.pic with
      pics := Interrupt.enableIrq s.pic.pics (kMIcw2 + line)
      enabled := Function.update s.pic.enabled (kMIcw2 + line - kMIcw2) true }
    rw [hsub]
    exact h.sound.enable hline
  · change Function.update s.pic.enabled (kMIcw2 + line - kMIcw2) true l = true at henabled
    rw [hsub] at henabled
    have hl' : Served fs s l := by
      by_cases heq : l = line
      · exact heq ▸ hserved
      · exact h.served l hl ((Function.update_of_ne heq ..).symm.trans henabled)
    exact hl'.imp rfl id id id id id id

theorem Guarded.access (h : Guarded fs s) (hx : Allowed fs s x) : Guarded fs (s.access x) := by
  cases x with
  | inb port b => exact h
  | outb port b =>
    by_cases hport : port = kDeviceCtrlReg
    · rw [Drivers.access, if_pos hport]
      refine ⟨h.sound, fun line hline henabled => ?_⟩
      by_cases hb : b.getLsbD 1 = true
      · exact (h.served line hline henabled).imp rfl id id id id (fun _ => hb) id
      · by_cases hline14 : line = 14
        · subst hline14
          obtain ⟨hhandler, hqueue⟩ := hx hport (Bool.eq_false_of_not_eq_true hb) henabled
          exact .ide hhandler hqueue
        · cases h.served line hline henabled with
          | timer hhandler htimer => exact .timer hhandler htimer
          | keyboard hhandler hmap hcounter hcur => exact .keyboard hhandler hmap hcounter hcur
          | cascade => exact .cascade
          | silent _ => exact absurd rfl hline14
          | ide _ _ => exact absurd rfl hline14
    · rwa [Drivers.access, if_neg hport]
  | call c =>
    cases c with
    | regIntrHandler v handler =>
      exact ⟨h.sound, fun line hline henabled =>
        (h.served line hline henabled).regIntrHandler (hx line hline henabled)⟩
    | enableIrq v =>
      obtain ⟨line, hline, rfl, hserved⟩ := hx
      exact h.enableIrq hline hserved
    | insl port words => exact h
    | queue => exact ⟨h.sound, fun l hl he => (h.served l hl he).imp rfl id id id id id fun _ => rfl⟩
    | runThread start => exact ⟨h.sound, fun l hl he => (h.served l hl he).imp rfl id id id id id id⟩
    | setTimer timer => exact ⟨h.sound, fun l hl he => (h.served l hl he).imp rfl (fun _ => hx) id id id id id⟩
    | clearKeyboard =>
      exact ⟨h.sound, fun l hl he => (h.served l hl he).imp rfl id id (fun _ => rfl) (fun _ => rfl) id id⟩
    | map => exact ⟨h.sound, fun l hl he => (h.served l hl he).imp rfl id (fun _ => rfl) id id id id⟩

/-! ## Handshakes -/

/-- The handshakes of both devices. The first and the last byte of the keyboard controller are read
without one. -/
def Polite (h : List (Access KernelCall)) : Access KernelCall → Prop
  | .inb port _ => port = kPs2DataPort → (reads kPs2DataPort h).length ∈ [1, 2, 3] →
    ∃ h' status, h = h' ++ [.inb kPs2StatusReg status] ∧ status &&& 0x1 ≠ 0
  | .outb port _ =>
    (port = kPs2DataPort ∨ port = kPs2CmdReg →
      ∃ h' status, h = h' ++ [.inb kPs2StatusReg status] ∧ status &&& 0x2 = 0) ∧
    (port = kCmdReg → ∃ status, (reads kAlternateStatusReg h).getLast? = some status ∧ status &&& kIdeBsy = 0)
  | .call _ => True

def Ok (fs : Handlers) (s : Drivers) (h : List (Access KernelCall)) (x : Access KernelCall) : Prop :=
  Polite h x ∧ Allowed fs (s.run h) x

structure At (s S : Drivers) (R : ℕ → List (BitVec 8)) (h : List (Access KernelCall)) : Prop where
  state : s.run h = S
  reads : ∀ port, port ≠ kPs2StatusReg → reads port h = R port

variable {S : Drivers} {R : ℕ → List (BitVec 8)} {h : List (Access KernelCall)} {port : ℕ} {b : BitVec 8}

theorem run_append_singleton (s : Drivers) (h : List (Access KernelCall)) (x : Access KernelCall) :
    s.run (h ++ [x]) = (s.run h).access x := List.foldl_concat ..

theorem ok_inb (hport : port ≠ kPs2DataPort) : Ok fs s h (.inb port b) :=
  ⟨fun heq => absurd heq hport, trivial⟩

theorem ok_outb (hport : port ∉ [kPs2DataPort, kPs2CmdReg, kCmdReg, kDeviceCtrlReg]) :
    Ok fs s h (.outb port b) := by
  simp only [List.mem_cons, List.not_mem_nil, or_false, not_or] at hport
  obtain ⟨hdata, hps2, hcmd, hctrl⟩ := hport
  exact ⟨⟨fun heq => (heq.elim hdata hps2).elim, fun heq => absurd heq hcmd⟩, fun heq => absurd heq hctrl⟩

theorem ok_call {c : KernelCall} (hstate : s.run h = S) (hallowed : Allowed fs S (.call c)) :
    Ok fs s h (.call c) := ⟨trivial, hstate ▸ hallowed⟩

theorem At.inb (hat : At s S R h) (port : ℕ) (b : BitVec 8) :
    At s S (Function.update R port (R port ++ [b])) (h ++ [.inb port b]) := by
  refine ⟨(run_append_singleton ..).trans hat.state, fun p hp => ?_⟩
  rw [reads_append, hat.reads p hp]
  by_cases hport : p = port
  · rw [hport, Function.update_self, Ports.reads, if_pos rfl, Ports.reads]
  · rw [Function.update_of_ne hport, Ports.reads, if_neg (Ne.symm hport), Ports.reads, List.append_nil]

theorem At.again {l : List (BitVec 8)} (hat : At s S (Function.update R port l) h) (b : BitVec 8) :
    At s S (Function.update R port (l ++ [b])) (h ++ [.inb port b]) := by
  have hnext := hat.inb port b
  rwa [Function.update_self, Function.update_idem] at hnext

theorem At.status (hat : At s S R h) (b : BitVec 8) : At s S R (h ++ [.inb kPs2StatusReg b]) := by
  refine ⟨(run_append_singleton ..).trans hat.state, fun p hp => ?_⟩
  rw [reads_append, hat.reads p hp, Ports.reads, if_neg (Ne.symm hp), Ports.reads, List.append_nil]

theorem At.outb (hat : At s S R h) (port : ℕ) (b : BitVec 8) :
    At s (S.access (.outb port b)) R (h ++ [.outb port b]) := by
  refine ⟨(run_append_singleton ..).trans (congrArg (Drivers.access · _) hat.state), fun p hp => ?_⟩
  rw [reads_append, hat.reads p hp, Ports.reads, Ports.reads, List.append_nil]

theorem At.call (hat : At s S R h) (c : KernelCall) : At s (S.access (.call c)) R (h ++ [.call c]) := by
  refine ⟨(run_append_singleton ..).trans (congrArg (Drivers.access · _) hat.state), fun p hp => ?_⟩
  rw [reads_append, hat.reads p hp, Ports.reads, Ports.reads, List.append_nil]

/-! ## The drivers step by step -/

variable {α : Type} {Q : α → List (Access KernelCall) → Prop}

theorem At.after_inb {f : BitVec 8 → Program KernelCall α} (hat : At s S R h) (hport : port ≠ kPs2DataPort)
    (hf : ∀ b h', At s S (Function.update R port (R port ++ [b])) h' → After (Ok fs s) h' (f b) Q) :
    After (Ok fs s) h (Ports.inb port >>= f) Q :=
  after_bind (Ports.after_inb (fun _ => ok_inb hport) fun b => hat.inb port b) hf

theorem At.after_outb {f : Unit → Program KernelCall α} (hat : At s S R h)
    (hport : port ∉ [kPs2DataPort, kPs2CmdReg, kCmdReg, kDeviceCtrlReg])
    (hf : ∀ h', At s S R h' → After (Ok fs s) h' (f ()) Q) :
    After (Ok fs s) h (Ports.outb port b >>= f) Q := by
  refine after_bind (R := fun _ h' => At s S R h') (Ports.after_outb (ok_outb hport) ?_) fun _ => hf
  have hnext := hat.outb port b
  rwa [Drivers.access, if_neg fun heq => hport (by simp [heq])] at hnext

theorem At.after_control {f : Unit → Program KernelCall α} (hat : At s S R h)
    (hallowed : b.getLsbD 1 = false → S.pic.enabled 14 = true →
      S.registry.intrHandler kIdeVec = fs.ide ∧ S.blockQueue = true)
    (hf : ∀ h', At s (S.access (.outb kDeviceCtrlReg b)) R h' → After (Ok fs s) h' (f ()) Q) :
    After (Ok fs s) h (Ports.outb kDeviceCtrlReg b >>= f) Q := by
  have hok : Ok fs s h (.outb kDeviceCtrlReg b) := by
    refine ⟨⟨fun heq => absurd heq (by decide), fun heq => absurd heq (by decide)⟩, fun _ => ?_⟩
    rw [hat.state]
    exact hallowed
  exact after_bind (Ports.after_outb hok (hat.outb ..)) fun _ => hf

theorem At.after_call {c : KernelCall} {f : Unit → Program KernelCall α} (hat : At s S R h)
    (hallowed : Allowed fs S (.call c))
    (hf : ∀ h', At s (S.access (.call c)) R h' → After (Ok fs s) h' (f ()) Q) :
    After (Ok fs s) h (Ports.call c >>= f) Q :=
  after_bind (Ports.after_call (ok_call hat.state hallowed) (hat.call c)) fun _ => hf

theorem At.write (hat : At s S R h) (hport : port = kPs2DataPort ∨ port = kPs2CmdReg) (data : BitVec 8) :
    After (Ok fs s) h (write port data) fun _ h' => At s S R h' := by
  have hpoll : After (Ok fs s) h (poll kPs2StatusReg fun status => status &&& 0x2 != 0)
      fun b h' => At s S R h' ∧ ∃ h₁, h' = h₁ ++ [.inb kPs2StatusReg b] ∧ b &&& 0x2 = 0 := by
    refine after_poll (P := fun h => At s S R h) (fun _ _ _ => ok_inb (by decide)) (fun _ b hat _ => hat.status b)
      (fun h b hat hb => ⟨hat.status b, h, rfl, by simpa using hb⟩) hat
  refine after_bind hpoll ?_
  rintro b h' ⟨hat', h₁, rfl, hb⟩
  have hctrl : port ≠ kDeviceCtrlReg ∧ port ≠ kCmdReg := by
    rcases hport with rfl | rfl
    · decide
    · decide
  have hok : Ok fs s (h₁ ++ [.inb kPs2StatusReg b]) (.outb port data) :=
    ⟨⟨fun _ => ⟨h₁, b, rfl, hb⟩, fun heq => absurd heq hctrl.2⟩, fun heq => absurd heq hctrl.1⟩
  refine Ports.after_outb hok ?_
  have hnext := hat'.outb port data
  rwa [Drivers.access, if_neg hctrl.1] at hnext

theorem At.read {l : List (BitVec 8)} (hat : At s S (Function.update R kPs2DataPort l) h) :
    After (Ok fs s) h (read kPs2DataPort) fun b h' => At s S (Function.update R kPs2DataPort (l ++ [b])) h' := by
  have hpoll : After (Ok fs s) h (poll kPs2StatusReg fun status => status &&& 0x1 == 0)
      fun b h' => At s S (Function.update R kPs2DataPort l) h' ∧
        ∃ h₁, h' = h₁ ++ [.inb kPs2StatusReg b] ∧ b &&& 0x1 ≠ 0 := by
    refine after_poll (P := fun h => At s S _ h) (fun _ _ _ => ok_inb (by decide)) (fun _ b hat _ => hat.status b)
      (fun h b hat hb => ⟨hat.status b, h, rfl, by simpa using hb⟩) hat
  refine after_bind hpoll ?_
  rintro b h' ⟨hat', h₁, rfl, hb⟩
  exact Ports.after_inb (fun _ => ⟨fun _ _ => ⟨h₁, b, rfl, hb⟩, trivial⟩) fun c => hat'.again c

theorem At.after_data {l : List (BitVec 8)} {f : BitVec 8 → Program KernelCall α}
    (hat : At s S (Function.update R kPs2DataPort l) h) (hlen : l.length ∉ [1, 2, 3])
    (hf : ∀ b h', At s S (Function.update R kPs2DataPort (l ++ [b])) h' → After (Ok fs s) h' (f b) Q) :
    After (Ok fs s) h (Ports.inb kPs2DataPort >>= f) Q := by
  have hreads : Ports.reads kPs2DataPort h = l :=
    (hat.reads kPs2DataPort (by decide)).trans (Function.update_self ..)
  refine after_bind (Ports.after_inb (fun b => ⟨fun _ hmem => ?_, trivial⟩) fun b => hat.again b) hf
  rw [hreads] at hmem
  exact absurd hmem hlen

theorem At.ideWait (hat : At s S R h) (checkErr : Bool) :
    After (Ok fs s) h (ideWait checkErr) fun r h' => ∃ l status,
      At s S (Function.update R kAlternateStatusReg (l ++ [status])) h' ∧
        (r = true ↔ status &&& kIdeBsy = 0) ∧ (checkErr = false → r = true) := by
  have hpoll : After (Ok fs s) h (poll kAlternateStatusReg fun status =>
      status &&& kIdeBsy != 0 && !(checkErr && status &&& (kIdeDf ||| kIdeErr) != 0))
      fun b h' => (∃ l, At s S (Function.update R kAlternateStatusReg (l ++ [b])) h') ∧
        (checkErr = false → b &&& kIdeBsy = 0) := by
    refine after_poll (P := fun h => ∃ l, At s S (Function.update R kAlternateStatusReg l) h)
      (fun _ _ _ => ok_inb (by decide)) ?_ ?_ ⟨R kAlternateStatusReg, by rwa [Function.update_eq_self]⟩
    · rintro h b ⟨l, hat⟩ -
      exact ⟨_, hat.again b⟩
    · rintro h b ⟨l, hat⟩ hb
      refine ⟨⟨l, hat.again b⟩, fun hcheck => ?_⟩
      simpa [hcheck] using hb
  refine after_bind hpoll ?_
  rintro b h' ⟨⟨l, hat'⟩, hidle⟩
  exact after_pure ⟨l, b, hat', beq_iff_eq, fun hcheck => beq_iff_eq.mpr (hidle hcheck)⟩

def ideEffects (fs : Handlers) : Bool → List (Access KernelCall)
  | true => [
    .outb kDeviceCtrlReg 2,
    .call .queue,
    .call (.enableIrq kIdeVec),
    .call (.regIntrHandler kIdeVec fs.ide),
    .outb kDeviceCtrlReg 0,
    .call (.runThread fs.runIde)]
  | false => [.outb kDeviceCtrlReg 2]

def timerEffects (fs : Handlers) : List (Access KernelCall) := [
  .call (.regIntrHandler kTimerVec fs.timer),
  .call (.setTimer Scheduling.kTimerReset),
  .call (.enableIrq kTimerVec)]

def keyboardEffects (fs : Handlers) : Bool → List (Access KernelCall)
  | true => [
    .call .clearKeyboard,
    .call .map,
    .call (.regIntrHandler kKeyboardVec fs.keyboard),
    .call (.enableIrq kKeyboardVec)]
  | false => []

/-- The drive left zeros in the cylinder registers, has a status, and was no longer busy at the end. -/
def DriveAnswers (R : ℕ → List (BitVec 8)) : Prop :=
  R kCylinderLowReg = [0] ∧ R kCylinderHighReg = [0] ∧ (∃ status, R kStatusReg = [status] ∧ status ≠ 0) ∧
    ∃ status, (R kAlternateStatusReg).getLast? = some status ∧ status &&& kIdeBsy = 0

/-- The controller and its first port pass their tests, and the keyboard its own. -/
def KeyboardAnswers (R : ℕ → List (BitVec 8)) : Prop :=
  ∃ flushed ack, R kPs2DataPort = [flushed, 0x55, 0, ack, 0xaa]

structure Unused (S : Drivers) (line : ℕ) : Prop where
  free : isBitmapSet S.registry.intrVecMap (kMIcw2 + line) = false
  masked : S.pic.enabled line = false

theorem Unused.registered {S : Drivers} {line : ℕ} (hu : Unused S line) (handler : ℕ) :
    (regIntrHandler S.registry (kMIcw2 + line) handler).2.intrHandler (kMIcw2 + line) = handler := by
  rw [regIntrHandler, if_neg (Bool.eq_false_iff.mp hu.free)]
  exact Function.update_self ..

theorem Unused.allowed {S : Drivers} {line : ℕ} (hu : Unused S line) (handler : ℕ) :
    Allowed fs S (.call (.regIntrHandler (kMIcw2 + line) handler)) := by
  intro l _ henabled heq
  obtain rfl := Nat.add_left_cancel heq
  exact absurd (henabled.symm.trans hu.masked) (by decide)

theorem Unused.unmarked {S : Drivers} {line : ℕ} (hu : Unused S line) {handler : ℕ}
    (hother : ¬ SameBit v (kMIcw2 + line)) :
    isBitmapSet (regIntrHandler S.registry v handler).2.intrVecMap (kMIcw2 + line) = false :=
  ((isBitmapSet_exec S.registry (.reg v handler) _).trans (if_neg hother)).trans hu.free

theorem At.after_command {f : Unit → Program KernelCall α} (hat : At s S R h)
    (hidle : ∃ status, (R kAlternateStatusReg).getLast? = some status ∧ status &&& kIdeBsy = 0)
    (hf : ∀ h', At s S R h' → After (Ok fs s) h' (f ()) Q) :
    After (Ok fs s) h (Ports.outb kCmdReg b >>= f) Q := by
  have hok : Ok fs s h (.outb kCmdReg b) := by
    refine ⟨⟨fun heq => absurd heq (by decide), fun _ => ?_⟩, fun heq => absurd heq (by decide)⟩
    rw [hat.reads kAlternateStatusReg (by decide)]
    exact hidle
  exact after_bind (Ports.after_outb hok (hat.outb kCmdReg b)) fun _ => hf

theorem At.ideInit (hat : At s S R h) (hlow : R kCylinderLowReg = []) (hhigh : R kCylinderHighReg = [])
    (hstatus : R kStatusReg = []) (hu : Unused S 14) :
    After (Ok fs s) h (ideInit fs) fun r h' => ∃ R', At s (S.run (ideEffects fs r)) R' h' ∧
      (r = true ↔ DriveAnswers R') ∧ R' kPs2DataPort = R kPs2DataPort := by
  rw [DriverInit.ideInit]
  refine after_bind (hat.ideWait false) ?_
  rintro _ h ⟨l, status, hat, hidle, hdone⟩
  refine hat.after_control (fun hb => absurd hb (by decide)) fun h hat => ?_
  refine hat.after_outb (by decide) fun h hat => ?_
  refine hat.after_outb (by decide) fun h hat => ?_
  refine hat.after_outb (by decide) fun h hat => ?_
  refine hat.after_outb (by decide) fun h hat => ?_
  refine hat.after_outb (by decide) fun h hat => ?_
  refine hat.after_command ⟨status, ?_, hidle.mp (hdone rfl)⟩ fun h hat => ?_
  · rw [Function.update_self, List.getLast?_concat]
  refine hat.after_inb (by decide) fun b₁ h hat => ?_
  rw [Function.update_of_ne (by decide), hlow, List.nil_append] at hat
  by_cases h₁ : b₁ ≠ 0
  · rw [if_pos h₁]
    refine after_pure ⟨_, hat, iff_of_false Bool.false_ne_true ?_, rfl⟩
    rintro ⟨hb, -⟩
    exact h₁ (List.singleton_inj.mp hb)
  rw [if_neg h₁]
  refine hat.after_inb (by decide) fun b₂ h hat => ?_
  rw [Function.update_of_ne (by decide), Function.update_of_ne (by decide), hhigh, List.nil_append] at hat
  by_cases h₂ : b₂ ≠ 0
  · rw [if_pos h₂]
    refine after_pure ⟨_, hat, iff_of_false Bool.false_ne_true ?_, rfl⟩
    rintro ⟨-, hb, -⟩
    exact h₂ (List.singleton_inj.mp hb)
  rw [if_neg h₂]
  refine hat.after_inb (by decide) fun b₃ h hat => ?_
  rw [Function.update_of_ne (by decide), Function.update_of_ne (by decide), Function.update_of_ne (by decide),
    hstatus, List.nil_append] at hat
  by_cases h₃ : b₃ = 0
  · rw [if_pos h₃]
    refine after_pure ⟨_, hat, iff_of_false Bool.false_ne_true ?_, rfl⟩
    rintro ⟨-, -, ⟨b, hb, hne⟩, -⟩
    exact hne ((List.singleton_inj.mp hb).symm.trans h₃)
  rw [if_neg h₃]
  refine after_bind (hat.ideWait true) ?_
  rintro r h ⟨l', status', hat, hr, -⟩
  by_cases hfailed : r = false
  · rw [if_pos hfailed]
    refine after_pure ⟨_, hat, iff_of_false Bool.false_ne_true ?_, rfl⟩
    rintro ⟨-, -, -, b, hb, hbsy⟩
    rw [Function.update_self, List.getLast?_concat] at hb
    obtain rfl := Option.some.inj hb
    exact Bool.false_ne_true (hfailed.symm.trans (hr.mpr hbsy))
  rw [if_neg hfailed]
  refine hat.after_call trivial fun h hat => ?_
  refine hat.after_call trivial fun h hat => ?_
  refine hat.after_call ⟨14, by decide, rfl, .silent rfl⟩ fun h hat => ?_
  -- The line is open before it has its handler.
  refine hat.after_call (fun line _ _ heq => ⟨Nat.add_left_cancel heq, rfl⟩) fun h hat => ?_
  refine hat.after_control (fun _ _ => ⟨hu.registered fs.ide, rfl⟩) fun h hat => ?_
  refine hat.after_call trivial fun h hat => ?_
  refine after_pure ⟨_, hat, iff_of_true rfl ⟨?_, ?_, ⟨b₃, rfl, h₃⟩, status', ?_, ?_⟩, rfl⟩
  · exact congrArg (fun b => [b]) (not_not.mp h₁)
  · exact congrArg (fun b => [b]) (not_not.mp h₂)
  · rw [Function.update_self, List.getLast?_concat]
  · exact hr.mp (Bool.eq_true_of_not_eq_false hfailed)

theorem At.timerInit (hat : At s S R h) (hu : Unused S 0) :
    After (Ok fs s) h (timerInit fs) fun _ h' => At s (S.run (timerEffects fs)) R h' := by
  rw [DriverInit.timerInit]
  refine hat.after_outb (by decide) fun h hat => ?_
  refine hat.after_outb (by decide) fun h hat => ?_
  refine hat.after_outb (by decide) fun h hat => ?_
  refine hat.after_call (hu.allowed fs.timer) fun h hat => ?_
  refine hat.after_call (show Scheduling.kTimerReset ≠ 0 by decide) fun h hat => ?_
  have hallowed : Allowed fs ((S.access (.call (.regIntrHandler kTimerVec fs.timer))).access
      (.call (.setTimer Scheduling.kTimerReset))) (.call (.enableIrq kTimerVec)) :=
    ⟨0, by decide, rfl, .timer (hu.registered fs.timer) (show Scheduling.kTimerReset ≠ 0 by decide)⟩
  exact Ports.after_call (ok_call hat.state hallowed) (hat.call (.enableIrq kTimerVec))

theorem keyboardAnswers_update {l : List (BitVec 8)} : KeyboardAnswers (Function.update R kPs2DataPort l) ↔
    ∃ flushed ack, l = [flushed, 0x55, 0, ack, 0xaa] := by
  rw [KeyboardAnswers, Function.update_self]

theorem At.keyboardInit (hat : At s S R h) (hdata : R kPs2DataPort = []) (hu : Unused S 1) :
    After (Ok fs s) h (keyboardInit fs) fun r h' => ∃ l,
      At s (S.run (keyboardEffects fs r)) (Function.update R kPs2DataPort l) h' ∧
        (r = true ↔ KeyboardAnswers (Function.update R kPs2DataPort l)) := by
  rw [DriverInit.keyboardInit]
  replace hat : At s S (Function.update R kPs2DataPort []) h := by rwa [← hdata, Function.update_eq_self]
  refine after_bind (hat.write (Or.inr rfl) _) fun _ h hat => ?_
  refine after_bind (hat.write (Or.inr rfl) _) fun _ h hat => ?_
  refine hat.after_data (by decide) fun flushed h hat => ?_
  refine after_bind (hat.write (Or.inr rfl) _) fun _ h hat => ?_
  refine after_bind (hat.write (Or.inl rfl) _) fun _ h hat => ?_
  refine after_bind (hat.write (Or.inr rfl) _) fun _ h hat => ?_
  refine after_bind hat.read fun b₁ h hat => ?_
  by_cases h₁ : b₁ ≠ 0x55
  · rw [if_pos h₁]
    refine after_pure ⟨_, hat, iff_of_false Bool.false_ne_true ?_⟩
    rw [keyboardAnswers_update]
    rintro ⟨_, _, hl⟩
    simp at hl
  rw [if_neg h₁]
  refine after_bind (hat.write (Or.inr rfl) _) fun _ h hat => ?_
  refine after_bind hat.read fun b₂ h hat => ?_
  by_cases h₂ : b₂ ≠ 0
  · rw [if_pos h₂]
    refine after_pure ⟨_, hat, iff_of_false Bool.false_ne_true ?_⟩
    rw [keyboardAnswers_update]
    rintro ⟨_, _, hl⟩
    simp at hl
  rw [if_neg h₂]
  refine after_bind (hat.write (Or.inr rfl) _) fun _ h hat => ?_
  refine after_bind (hat.write (Or.inl rfl) _) fun _ h hat => ?_
  refine after_bind hat.read fun ack h hat => ?_
  refine hat.after_data (by simp) fun b₃ h hat => ?_
  by_cases h₃ : b₃ ≠ 0xaa
  · rw [if_pos h₃]
    refine after_pure ⟨_, hat, iff_of_false Bool.false_ne_true ?_⟩
    rw [keyboardAnswers_update]
    rintro ⟨_, _, hl⟩
    simp only [List.nil_append, List.cons_append, List.cons.injEq] at hl
    exact h₃ hl.2.2.2.2.1
  rw [if_neg h₃]
  refine hat.after_call trivial fun h hat => ?_
  refine hat.after_call trivial fun h hat => ?_
  refine after_bind (hat.write (Or.inr rfl) _) fun _ h hat => ?_
  refine after_bind (hat.write (Or.inl rfl) _) fun _ h hat => ?_
  have hu' : Unused ((S.access (.call .clearKeyboard)).access (.call .map)) 1 := ⟨hu.free, hu.masked⟩
  refine hat.after_call (hu'.allowed fs.keyboard) fun h hat => ?_
  refine hat.after_call ⟨1, by decide, rfl, .keyboard (hu.registered fs.keyboard) rfl rfl rfl⟩ fun h hat => ?_
  refine after_pure ⟨_, hat, iff_of_true rfl (keyboardAnswers_update.mpr ⟨flushed, ack, ?_⟩)⟩
  rw [not_not.mp h₁, not_not.mp h₂, not_not.mp h₃]
  rfl

/-! ## Runs -/

def effects (fs : Handlers) (detected tested : Bool) : List (Access KernelCall) :=
  ideEffects fs detected ++ timerEffects fs ++ keyboardEffects fs tested

theorem Unused.ide {line : ℕ} (hu : Unused S line) (hother : ¬ SameBit kIdeVec (kMIcw2 + line)) (hne : line ≠ 14)
    (r : Bool) : Unused (S.run (ideEffects fs r)) line := by
  cases r with
  | true => exact ⟨hu.unmarked hother, (Function.update_of_ne hne ..).trans hu.masked⟩
  | false => exact ⟨hu.free, hu.masked⟩

theorem Unused.timer {line : ℕ} (hu : Unused S line) (hother : ¬ SameBit kTimerVec (kMIcw2 + line))
    (hne : line ≠ 0) : Unused (S.run (timerEffects fs)) line :=
  ⟨hu.unmarked hother, (Function.update_of_ne hne ..).trans hu.masked⟩

structure Fresh (s : Drivers) : Prop where
  sound : s.pic.Sound
  enabled : ∀ line, s.pic.enabled line = (line == kIrqSlave)
  unused : ∀ line ∈ [0, 1, 14], Unused s line
  threads : s.threads = []

theorem after_driverInit (hs : Fresh s) : After (Ok fs s) [] (driverInit fs) fun _ h => ∃ detected tested,
    (detected = true ↔ DriveAnswers fun port => reads port h) ∧
      (tested = true ↔ KeyboardAnswers fun port => reads port h) ∧
      s.run h = s.run (effects fs detected tested) := by
  have hat : At s s (fun _ => []) [] := ⟨rfl, fun _ _ => rfl⟩
  have hu0 := hs.unused 0 (by decide)
  have hu1 := hs.unused 1 (by decide)
  rw [driverInit]
  refine after_bind (hat.ideInit rfl rfl rfl (hs.unused 14 (by decide))) ?_
  rintro detected h ⟨R, hat, hdetected, hdata⟩
  refine after_bind (hat.timerInit (hu0.ide (by decide) (by decide) detected)) fun _ h hat => ?_
  have hu1' : Unused ((s.run (ideEffects fs detected)).run (timerEffects fs)) 1 :=
    (hu1.ide (by decide) (by decide) detected).timer (by decide) (by decide)
  refine after_bind (hat.keyboardInit hdata hu1') ?_
  rintro tested h ⟨l, hat, htested⟩
  refine after_pure ⟨detected, tested, ?_, ?_, ?_⟩
  · rw [hdetected, DriveAnswers, DriveAnswers, hat.reads _ (by decide), hat.reads _ (by decide),
      hat.reads _ (by decide), hat.reads _ (by decide)]
    rfl
  · rw [htested, KeyboardAnswers, KeyboardAnswers, hat.reads _ (by decide)]
  · rw [hat.state, effects, Drivers.run, Drivers.run, Drivers.run, Drivers.run, List.foldl_append, List.foldl_append]

theorem taken_of_forall {calls : List Interrupt.Call} (h : ∀ call ∈ calls, ¬ SameBit call.vector v) :
    taken calls v = false := by
  have hnone : calls.reverse.find? (fun call => SameBit call.vector v) = none := by
    rw [List.find?_eq_none]
    intro call hcall
    simpa using h call (List.mem_reverse.mp hcall)
  rw [taken, lastOf, hnone]
  rfl

theorem vector_bootCalls {excHandler pfHandler syscall : ℕ} {call : Interrupt.Call}
    (hcall : call ∈ intrInitCalls excHandler pfHandler ++ [Call.reg kSyscallVec syscall]) :
    call.vector < kIdtExcNum ∨ call.vector = kSyscallVec := by
  simp only [intrInitCalls, List.mem_append, List.mem_map, List.mem_range, List.mem_cons, List.not_mem_nil,
    or_false] at hcall
  rcases hcall with (⟨w, hw, rfl⟩ | rfl | rfl) | rfl
  · exact Or.inl hw
  · exact Or.inl (by decide : kPfVec < kIdtExcNum)
  · exact Or.inl (by decide : kPfVec < kIdtExcNum)
  · exact Or.inr rfl

theorem legal_bootCalls {excHandler pfHandler syscall : ℕ} (hexc : excHandler ≠ 0) (hpf : pfHandler ≠ 0)
    (hsyscall : syscall ≠ 0) {call : Interrupt.Call}
    (hcall : call ∈ intrInitCalls excHandler pfHandler ++ [Call.reg kSyscallVec syscall]) : call.Legal := by
  simp only [intrInitCalls, List.mem_append, List.mem_map, List.mem_range, List.mem_cons, List.not_mem_nil,
    or_false] at hcall
  rcases hcall with (⟨w, hw, rfl⟩ | rfl | rfl) | rfl
  · exact ⟨hw.trans (by decide), hexc⟩
  · exact (by decide : kPfVec < kIdtEntryNum)
  · exact ⟨(by decide : kPfVec < kIdtEntryNum), hpf⟩
  · exact ⟨(by decide : kSyscallVec < kIdtEntryNum), hsyscall⟩

theorem fresh_bootDrivers (intrVec : ℕ → BitVec 32) (excHandler pfHandler syscall : ℕ) (p : Pics)
    (silent : Bool) : Fresh (bootDrivers intrVec excHandler pfHandler syscall p silent) := by
  refine ⟨sound_init p, fun _ => rfl, fun line hline => ⟨?_, ?_⟩, rfl⟩
  · have hlt : line < 16 := by
      simp only [List.mem_cons, List.not_mem_nil, or_false] at hline
      omega
    refine (isBitmapSet_run ..).trans (taken_of_forall fun call hcall => ?_)
    have hvector := vector_bootCalls hcall
    unfold SameBit kMIcw2
    unfold kIdtExcNum kSyscallVec at hvector
    omega
  · simp only [List.mem_cons, List.not_mem_nil, or_false] at hline
    rcases hline with rfl | rfl | rfl <;> rfl

theorem Fresh.guarded (hs : Fresh s) : Guarded fs s := by
  refine ⟨hs.sound, fun line _ henabled => ?_⟩
  rw [hs.enabled] at henabled
  obtain rfl := beq_iff_eq.mp henabled
  exact .cascade

theorem guarded_of_keeps {t : List (Access KernelCall)} (hs : Guarded fs s)
    (ht : ∀ t₁ x t₂, t = t₁ ++ x :: t₂ → Ok fs s t₁ x) : Guarded fs (s.run t) := by
  induction t using List.reverseRecOn with
  | nil => exact hs
  | append_singleton t x ih =>
    rw [run_append_singleton]
    refine (ih fun t₁ y t₂ heq => ht t₁ y (t₂ ++ [x]) ?_).access (ht t x [] rfl).2
    rw [heq, List.append_assoc, List.cons_append]

def kernelHandlers : Handlers where
  ide := 0xc0103000
  timer := 0xc0104000
  keyboard := 0xc0105000
  runIde := 0xc0106000
  ide_ne := by decide
  timer_ne := by decide
  keyboard_ne := by decide

def answers : List (BitVec 8) :=
  [0xd0, 0x50, 0, 0, 0x50, 0x50] ++ [0, 0, 0, 0, 0, 0, 0, 1, 0x55, 0, 1, 0, 0, 0, 1, 0xfa, 0xaa, 0, 0]

theorem driverInit_polite (fs : Handlers) {t₁ t₂ : List (Access KernelCall)} {x : Access KernelCall}
    {r : Option Unit} (hrun : Runs (driverInit fs) (t₁ ++ x :: t₂) r) : Polite t₁ x := by
  have hs := fresh_bootDrivers (BitVec.ofNat 32) 0 0 0 freshPics false
  exact ((after_driverInit hs _ r hrun).keeps t₁ x t₂ rfl).1

theorem driverInit_polite_identify : Polite [.inb kAlternateStatusReg 0x50, .outb kDeviceCtrlReg 2,
    .outb kDriveHeadSelReg 0xf0, .outb kSecCountReg 0, .outb kSecNoReg 0, .outb kCylinderLowReg 0,
    .outb kCylinderHighReg 0] (.outb kCmdReg kIdentity) := by
  have hrun : Runs (driverInit kernelHandlers) ([.inb kAlternateStatusReg 0x50, .outb kDeviceCtrlReg 2,
      .outb kDriveHeadSelReg 0xf0, .outb kSecCountReg 0, .outb kSecNoReg 0, .outb kCylinderLowReg 0,
      .outb kCylinderHighReg 0] ++ .outb kCmdReg kIdentity :: []) none :=
    .ready 0x50 rfl (.outb (.outb (.outb (.outb (.outb (.outb (.outb (.here _))))))))
  exact driverInit_polite kernelHandlers hrun

section Boot
variable (intrVec : ℕ → BitVec 32) (excHandler pfHandler syscall : ℕ) (p : Pics) (silent : Bool)
  {t : List (Access KernelCall)}

/-- At any moment, and whatever the devices answer, an open line has its handler with what this uses, or
the drive is kept from sending. -/
theorem driverInit_guarded {r : Option Unit} (hrun : Runs (driverInit fs) t r) :
    let s := (bootDrivers intrVec excHandler pfHandler syscall p silent).run t
    ∀ line < 16, s.pic.pics.masked line = false → Served fs s line := by
  intro s line hline hmasked
  have hs := fresh_bootDrivers intrVec excHandler pfHandler syscall p silent
  have hg : Guarded fs s := guarded_of_keeps hs.guarded (after_driverInit hs t r hrun).keeps
  have henabled := hg.sound.masked hline
  rw [hmasked] at henabled
  exact hg.served line hline (by simpa using henabled.symm)

theorem driverInit_guarded_answered : ∃ t, Ports.exec (driverInit kernelHandlers) answers = some (t, ()) ∧
    Served kernelHandlers
      ((bootDrivers (BitVec.ofNat 32) 0xc0101000 0xc0102000 0xc0107000 freshPics false).run t) 0 := by
  refine ⟨_, rfl, ?_⟩
  have hrun := runs_of_exec (show Ports.exec (driverInit kernelHandlers) answers = some (_, ()) from rfl)
  exact driverInit_guarded (BitVec.ofNat 32) 0xc0101000 0xc0102000 0xc0107000 freshPics false hrun 0
    (by decide) rfl

def Handlers.of (fs : Handlers) (line : ℕ) : ℕ :=
  if line = 0 then fs.timer else if line = 1 then fs.keyboard else fs.ide

theorem Guarded.serves (hg : Guarded fs s) (hloud : s.pic.enabled 14 = true → s.silent = false)
    (hline : line < 16) (henabled : s.pic.enabled line = true) (hne : line ≠ kIrqSlave) :
    s.registry.intrHandler (kMIcw2 + line) = fs.of line := by
  cases hg.served line hline henabled with
  | timer hhandler _ => exact hhandler
  | keyboard hhandler _ _ _ => exact hhandler
  | cascade => exact absurd rfl hne
  | silent hsilent => exact absurd (hsilent.symm.trans (hloud henabled)) (by decide)
  | ide hhandler _ => exact hhandler

theorem Handlers.of_ne_zero (fs : Handlers) (line : ℕ) : fs.of line ≠ 0 := by
  rw [Handlers.of]
  split_ifs
  · exact fs.timer_ne
  · exact fs.keyboard_ne
  · exact fs.ide_ne

theorem gated_effects {intrVec : ℕ → BitVec 32} (hg : Gated intrVec s.registry v) (detected tested : Bool) :
    Gated intrVec (s.run (effects fs detected tested)).registry v := by
  have hide : Gated intrVec (s.run (ideEffects fs detected)).registry v := by
    cases detected with
    | true => exact hg.regIntrHandler fs.ide_ne
    | false => exact hg
  have htimer : Gated intrVec (s.run (ideEffects fs detected ++ timerEffects fs)).registry v := by
    rw [Drivers.run, List.foldl_append]
    exact hide.regIntrHandler fs.timer_ne
  rw [effects, Drivers.run, List.foldl_append]
  cases tested with
  | true => exact htimer.regIntrHandler fs.keyboard_ne
  | false => exact htimer

theorem enabled_effects (hs : Fresh s) (detected tested : Bool) (line : ℕ) :
    (s.run (effects fs detected tested)).pic.enabled line = true ↔
      line = 0 ∨ line = kIrqSlave ∨ line = 1 ∧ tested = true ∨ line = 14 ∧ detected = true := by
  have henabled : s.pic.enabled = fun line => line == kIrqSlave := funext hs.enabled
  cases detected <;> cases tested <;>
    simp [effects, ideEffects, timerEffects, keyboardEffects, Drivers.run, Drivers.access, henabled,
      Function.update_apply, kIdeVec, kTimerVec, kKeyboardVec, kMIcw2, kIrqSlave] <;> omega

theorem silent_effects (s : Drivers) (detected tested : Bool) :
    (s.run (effects fs detected tested)).silent = !detected := by
  cases detected <;> cases tested <;> rfl

theorem threads_effects (s : Drivers) (detected tested : Bool) :
    (s.run (effects fs detected tested)).threads =
      if detected = true then s.threads ++ [fs.runIde] else s.threads := by
  cases detected <;> cases tested <;> rfl

/-- When `kernel_start` comes to `sti`, the timer is open, the keyboard and the drive are open if they
answered as they should, each leads to its handler, and the thread of the drive runs if there is one. -/
theorem driverInit_lines (hexc : excHandler ≠ 0) (hpf : pfHandler ≠ 0) (hsyscall : syscall ≠ 0)
    (hrun : Runs (driverInit fs) t (some ())) :
    let s := (bootDrivers intrVec excHandler pfHandler syscall p silent).run t
    let detected := DriveAnswers fun port => reads port t
    (∀ line < 16, s.pic.pics.masked line = false ↔ line = 0 ∨ line = kIrqSlave ∨
      line = 1 ∧ (KeyboardAnswers fun port => reads port t) ∨ line = 14 ∧ detected) ∧
    (∀ line < 16, line ≠ kIrqSlave → s.pic.pics.masked line = false →
      intrHandlerSel s.registry (kMIcw2 + line) = some (fs.of line) ∧ (s.registry.idt (kMIcw2 + line)).Present) ∧
    (s.silent = false ↔ detected) ∧ (s.threads = [fs.runIde] ↔ detected) := by
  intro s detected
  have hs := fresh_bootDrivers intrVec excHandler pfHandler syscall p silent
  have hmeets := after_driverInit hs t _ hrun
  have hg : Guarded fs s := guarded_of_keeps hs.guarded hmeets.keeps
  obtain ⟨d, k, hd, hk, hstate⟩ := hmeets.ends () rfl
  change s = _ at hstate
  have hmasked : ∀ line < 16, s.pic.pics.masked line = false ↔ s.pic.enabled line = true := by
    intro line hline
    rw [hg.sound.masked hline]
    simp
  have henabled : ∀ line, s.pic.enabled line = true ↔
      line = 0 ∨ line = kIrqSlave ∨ line = 1 ∧ k = true ∨ line = 14 ∧ d = true := by
    rw [hstate]
    exact enabled_effects hs d k
  have hsilent : s.silent = !d := by rw [hstate, silent_effects]
  refine ⟨fun line hline => ?_, fun line hline hne hopen => ?_, ?_, ?_⟩
  · rw [hmasked line hline, henabled, hk, hd]
    rfl
  · have hloud : s.pic.enabled 14 = true → s.silent = false := by
      intro h14
      rw [henabled] at h14
      rw [hsilent, Bool.not_eq_false']
      simpa [kIrqSlave] using h14
    have hhandler := hg.serves hloud hline ((hmasked line hline).mp hopen) hne
    have hgated : Gated intrVec s.registry (kMIcw2 + line) := by
      rw [hstate]
      have hv : kMIcw2 + line < kIdtEntryNum := by
        unfold kMIcw2 kIdtEntryNum
        omega
      exact gated_effects (gated_run intrVec (fun call => legal_bootCalls hexc hpf hsyscall) hv) d k
    refine ⟨?_, hgated.present.mpr ?_⟩
    · rw [intrHandlerSel, hhandler, if_pos (fs.of_ne_zero line)]
    · rw [hhandler]
      exact fs.of_ne_zero line
  · rw [hsilent, Bool.not_eq_false']
    exact hd
  · rw [hstate, threads_effects, hs.threads]
    refine Iff.trans ?_ hd
    cases d <;> simp

theorem driverInit_lines_answered : ∃ t, Ports.exec (driverInit kernelHandlers) answers = some (t, ()) ∧
    ((bootDrivers (BitVec.ofNat 32) 0xc0101000 0xc0102000 0xc0107000 freshPics false).run t).pic.pics.masked 14 =
      false := by
  refine ⟨_, rfl, ?_⟩
  have hrun := runs_of_exec (show Ports.exec (driverInit kernelHandlers) answers = some (_, ()) from rfl)
  have hlines := driverInit_lines (BitVec.ofNat 32) 0xc0101000 0xc0102000 0xc0107000 freshPics false
    (by decide) (by decide) (by decide) hrun
  refine (hlines.1 14 (by decide)).mpr (Or.inr (Or.inr (Or.inr ⟨rfl, ?_⟩)))
  exact ⟨rfl, rfl, ⟨0x50, rfl, by decide⟩, 0x50, rfl, by decide⟩

end Boot

end XyOS.DriverInit
