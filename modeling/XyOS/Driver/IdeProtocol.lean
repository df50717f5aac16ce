import XyOS.Driver.IdeRegisters
import XyOS.Thread.Sleep

/-! The IDE thread, the scheduler and the drive together. The thread sends a command in
its turn and calls `ThreadSleep`; the drive raises one interrupt for a command, at any
later time; requests and the ends of time slices come at any time. -/

namespace XyOS.Driver
open Runs Process Scheduling

structure Tally where
  asked : ℕ
  commands : ℕ
deriving DecidableEq

structure Protocol where
  ide : Ide
  sched : Scheduler
  outstanding : ℕ
  tallies : List Tally
  finished : List Tally

inductive ProtocolAct
  | request (op : Bool) (devNo : BitVec 8) (secAddr : BitVec 32) (addr : ℕ) (blockNum : BitVec 32)
  | command
  | slice
  | interrupt (status : BitVec 8)

def Protocol.cur (s : Protocol) : ℕ := getCurThread s.sched.toKernel

def Protocol.request (s : Protocol) (block : IdeBlock) : Protocol :=
  { s with ide := s.ide.request block, tallies := s.tallies ++ [⟨block.secNum.toNat, 0⟩] }

/-- `RunIde` until the thread sleeps, which with an empty queue it does not. -/
def Protocol.command (s : Protocol) : Protocol :=
  match s.ide.blockQueue, s.tallies with
  | _ :: _, t :: ts => { s with ide := runIde s.ide, sched := threadSleep s.sched, outstanding := s.outstanding + 1,
                                tallies := { t with commands := t.commands + 1 } :: ts }
  | _, _ => s

def Protocol.interrupt (s : Protocol) (status : BitVec 8) : Except Fault Protocol :=
  let s := { s with outstanding := s.outstanding - 1 }
  if status &&& (kIdeErr ||| kIdeDf) ≠ 0 then .ok s
  else do
    let ide ← ideHandler s.ide
    match s.ide.blockQueue, s.tallies with
    | block :: _, t :: ts =>
      if block.secNum - 1#32 = 0 then
        let sched ← threadWake s.sched block.reqThread
        .ok { s with ide := ide, sched := sched, tallies := ts, finished := t :: s.finished }
      else .ok { s with ide := ide }
    | _, _ => .error .outOfBounds

/-- A step that is not possible, a command out of turn or an interrupt without a command,
is blocked. -/
def Protocol.exec (ideThread : ℕ) (s : Protocol) : ProtocolAct → Except Fault Protocol
  | .request op devNo secAddr addr blockNum => .ok (s.request (ideBlock op devNo secAddr addr blockNum s.cur))
  | .command => if s.cur = ideThread then .ok s.command else .error .blocked
  | .slice => .ok { s with sched := threadSwitch s.sched }
  | .interrupt status => if s.outstanding = 0 then .error .blocked else s.interrupt status

/-- No command is sent before the interrupt of the previous one, an interrupt finds a
request, and a finished request had one command for each of its sectors. -/
structure OneCommandPerSector (s : Protocol) : Prop where
  single : s.outstanding ≤ 1
  found : 0 < s.outstanding → s.ide.blockQueue ≠ []
  exact : ∀ t ∈ s.finished, t.commands = t.asked

/-- No switch lets the IDE thread run while a command is outstanding, not even the one
of its own `ThreadSleep`, requests ask for some sector, and no command fails. -/
def StaysAsleep (ideThread : ℕ) (s : Protocol) : ProtocolAct → Prop
  | .request _ _ _ _ blockNum => blockNum * kBlockSize ≠ 0
  | .command => s.ide.blockQueue ≠ [] → getCurThread (threadSleep s.sched).toKernel ≠ ideThread
  | .slice => 0 < s.outstanding → getCurThread (threadSwitch s.sched).toKernel ≠ ideThread
  | .interrupt status => status &&& (kIdeErr ||| kIdeDf) = 0

def Waiting (block : IdeBlock) (t : Tally) : Prop :=
  block.secNum.toNat = t.asked ∧ t.commands = 0 ∧ 0 < t.asked

/-- The first request has its sectors done up to the outstanding command, the others
have not started. -/
inductive Counted (outstanding : ℕ) : List IdeBlock → List Tally → Prop
  | nil : outstanding = 0 → Counted outstanding [] []
  | cons {block : IdeBlock} {rest : List IdeBlock} {t : Tally} {ts : List Tally} :
      0 < block.secNum.toNat → block.secNum.toNat + t.commands = t.asked + outstanding →
      List.Forall₂ Waiting rest ts → Counted outstanding (block :: rest) (t :: ts)

structure ProtocolInv (ideThread : ℕ) (s : Protocol) : Prop where
  single : s.outstanding ≤ 1
  asleep : 0 < s.outstanding → s.cur ≠ ideThread
  counted : Counted s.outstanding s.ide.blockQueue s.tallies
  finished : ∀ t ∈ s.finished, t.commands = t.asked

variable {ideThread : ℕ} {s s' : Protocol}

theorem ProtocolInv.oneCommandPerSector (h : ProtocolInv ideThread s) : OneCommandPerSector s := by
  refine ⟨h.single, fun hpos hnil => ?_, h.finished⟩
  have hc := h.counted
  rw [hnil] at hc
  generalize s.tallies = tallies at hc
  cases hc with
  | nil h0 => omega

theorem ProtocolInv.request (h : ProtocolInv ideThread s) {block : IdeBlock} (hne : block.secNum ≠ 0) :
    ProtocolInv ideThread (s.request block) := by
  have hpos : 0 < block.secNum.toNat := by bv_omega
  refine ⟨h.single, h.asleep, ?_, h.finished⟩
  have hc := h.counted
  simp only [Protocol.request, Ide.request]
  generalize s.ide.blockQueue = queue, s.tallies = tallies at hc
  cases hc with
  | nil h0 => exact .cons hpos (by simp [h0]) .nil
  | cons hb hsum hrest =>
    exact .cons hb hsum (List.rel_append hrest (.cons ⟨rfl, rfl, hpos⟩ .nil))

theorem ProtocolInv.command (h : ProtocolInv ideThread s) (hcur : s.cur = ideThread)
    (hnext : s.ide.blockQueue ≠ [] → getCurThread (threadSleep s.sched).toKernel ≠ ideThread) :
    ProtocolInv ideThread s.command := by
  have h0 : s.outstanding = 0 := by
    by_contra hne
    exact h.asleep (Nat.pos_of_ne_zero hne) hcur
  have hc := h.counted
  rw [h0] at hc
  cases hq : s.ide.blockQueue with
  | nil =>
    rw [Protocol.command, hq]
    exact h
  | cons block rest =>
    rw [hq] at hc
    cases ht : s.tallies with
    | nil =>
      rw [ht] at hc
      cases hc
    | cons t ts =>
      rw [ht] at hc
      cases hc with
      | cons hb hsum hrest =>
        rw [Protocol.command, hq, ht]
        refine ⟨?_, fun _ => hnext (by rw [hq]; exact List.cons_ne_nil _ _), ?_, h.finished⟩
        · simp only [h0]
          exact le_rfl
        · simp only [runIde_queue, hq, h0]
          exact .cons hb (by simp only [] at hsum ⊢; omega) hrest

theorem counted_of_waiting {rest : List IdeBlock} {ts : List Tally} (h : List.Forall₂ Waiting rest ts) :
    Counted 0 rest ts := by
  cases h with
  | nil => exact .nil rfl
  | cons hw hrest =>
    obtain ⟨hasked, hnone, hpos⟩ := hw
    exact .cons (by omega) (by omega) hrest

theorem ProtocolInv.of_none (hout : s.outstanding = 0) (hcounted : Counted 0 s.ide.blockQueue s.tallies)
    (hfinished : ∀ t ∈ s.finished, t.commands = t.asked) : ProtocolInv ideThread s := by
  refine ⟨?_, fun hp => ?_, ?_, hfinished⟩
  · rw [hout]
    exact Nat.zero_le 1
  · rw [hout] at hp
    exact absurd hp (by decide)
  · rwa [hout]

theorem ProtocolInv.interrupt (h : ProtocolInv ideThread s) (hpos : s.outstanding ≠ 0) {status : BitVec 8}
    (hstatus : status &&& (kIdeErr ||| kIdeDf) = 0) (hexec : s.interrupt status = .ok s') :
    ProtocolInv ideThread s' := by
  have h1 : s.outstanding = 1 := by
    have := h.single
    omega
  have hout : s.outstanding - 1 = 0 := by omega
  have hc := h.counted
  rw [h1] at hc
  rw [Protocol.interrupt, if_neg (not_not.mpr hstatus)] at hexec
  obtain ⟨ide, hide, hexec⟩ := of_bind_ok hexec
  dsimp only at hide hexec
  cases hq : s.ide.blockQueue with
  | nil =>
    rw [ideHandler, hq] at hide
    cases hide
  | cons block rest =>
    rw [hq] at hc hexec
    cases ht : s.tallies with
    | nil =>
      rw [ht] at hc
      cases hc
    | cons t ts =>
      rw [ht] at hc hexec
      rw [ideHandler_cons hq] at hide
      obtain rfl := Except.ok.inj hide
      cases hc with
      | cons hb hsum hrest =>
        by_cases hlast : block.secNum - 1#32 = 0
        · have hone : block.secNum.toNat = 1 := by bv_omega
          simp only [if_pos hlast] at hexec
          obtain ⟨sched, -, hexec⟩ := of_bind_ok hexec
          obtain rfl := Except.ok.inj hexec
          refine .of_none hout (counted_of_waiting hrest) fun u hu => ?_
          rcases List.mem_cons.mp hu with rfl | hu
          · omega
          · exact h.finished u hu
        · have hsub : (block.secNum - 1#32).toNat + 1 = block.secNum.toNat := by bv_omega
          have hpos' : 0 < (block.secNum - 1#32).toNat := by bv_omega
          simp only [if_neg hlast] at hexec
          obtain rfl := Except.ok.inj hexec
          exact .of_none hout (.cons hpos' (by dsimp only; omega) hrest) h.finished

theorem ProtocolInv.exec (h : ProtocolInv ideThread s) {act : ProtocolAct} (hact : StaysAsleep ideThread s act)
    (hexec : s.exec ideThread act = .ok s') : ProtocolInv ideThread s' := by
  cases act with
  | request op devNo secAddr addr blockNum =>
    obtain rfl := Except.ok.inj hexec
    exact h.request hact
  | command =>
    rw [Protocol.exec] at hexec
    split at hexec
    · rename_i hcur
      obtain rfl := Except.ok.inj hexec
      exact h.command hcur hact
    · cases hexec
  | slice =>
    obtain rfl := Except.ok.inj hexec
    exact ⟨h.single, hact, h.counted, h.finished⟩
  | interrupt status =>
    rw [Protocol.exec] at hexec
    split at hexec
    · cases hexec
    · rename_i hpos
      exact h.interrupt hpos hact hexec

structure Idle (s : Protocol) : Prop where
  queue : s.ide.blockQueue = []
  tallies : s.tallies = []
  finished : s.finished = []
  outstanding : s.outstanding = 0

theorem Idle.inv (h : Idle s) : ProtocolInv ideThread s := by
  refine .of_none h.outstanding ?_ ?_
  · rw [h.queue, h.tallies]
    exact .nil rfl
  · rw [h.finished]
    exact nofun

/-- In every run in which the IDE thread stays asleep while a command is outstanding and
no command fails, there is one command for a sector. -/
theorem one_command_per_sector (ideThread : ℕ) (s s' : Protocol) (hidle : Idle s) (acts : List ProtocolAct)
    (hacts : Along (Protocol.exec ideThread) (StaysAsleep ideThread) s acts)
    (hrun : run (Protocol.exec ideThread) s acts = .ok s') : OneCommandPerSector s' :=
  (run_preserves (fun _ _ _ hinv hact hexec => ProtocolInv.exec hinv hact hexec) hidle.inv hacts
    hrun).oneCommandPerSector

def idleProtocol : Protocol := ⟨numberedIde, pairScheduler 0xc0300000, 0, [], []⟩

theorem one_command_per_sector_run : ∃ s, run (Protocol.exec 0xc0400200) idleProtocol
      [.request false 0#8 5#32 0x1000 1#32, .slice, .command, .interrupt 0x50] = .ok s ∧
    OneCommandPerSector s := by
  refine ⟨_, rfl, one_command_per_sector 0xc0400200 idleProtocol _ ⟨rfl, rfl, rfl, rfl⟩
    [.request false 0#8 5#32 0x1000 1#32, .slice, .command, .interrupt 0x50] ?_ rfl⟩
  have hasked : 1#32 * kBlockSize ≠ 0 := by decide
  have hstatus : (0x50 : BitVec 8) &&& (kIdeErr ||| kIdeDf) = 0 := by decide
  refine ⟨hasked, fun s₁ h₁ => ⟨?_, fun s₂ h₂ => ⟨?_, fun s₃ h₃ => ⟨hstatus, fun _ _ => trivial⟩⟩⟩⟩
  · obtain rfl := Except.ok.inj h₁
    exact fun hp => absurd hp (by decide)
  · obtain rfl := Except.ok.inj h₁
    obtain rfl := Except.ok.inj h₂
    exact fun _ => by decide

/-- The time slice of the other thread ends before the interrupt, and the IDE thread sends
the command once more. -/
theorem second_command_sent : ∃ s, run (Protocol.exec 0xc0400200) idleProtocol
      [.request false 0#8 5#32 0x1000 1#32, .slice, .command, .slice, .command] = .ok s ∧
    s.outstanding = 2 ∧ ¬ OneCommandPerSector s :=
  ⟨_, rfl, rfl, fun h => absurd h.single (by decide)⟩

end XyOS.Driver
