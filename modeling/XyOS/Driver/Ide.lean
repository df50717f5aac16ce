import Mathlib.Algebra.GroupWithZero.Nat
import XyOS.Foundation.Bytes
import XyOS.Foundation.Runs
import XyOS.Foundation.Word

/-! The requests of `ide.c`, the commands that `RunIde` sends for them and the interrupts
that `IdeHandler` takes. The drive answers every command without an error: it puts the
sector of a read command into its buffer and stores that of a write command. -/

namespace XyOS.Driver
open Runs

def kSecSize : ℕ := 512
def kBlockSize : BitVec 32 := 8#32

structure Command where
  secNo : BitVec 8
  cylinderLow : BitVec 8
  cylinderHigh : BitVec 8
  driveHead : BitVec 8

def Command.drive (c : Command) : Bool := c.driveHead.getLsbD 4

def Command.lba (c : Command) : ℕ :=
  c.secNo.toNat + 2 ^ 8 * c.cylinderLow.toNat + 2 ^ 16 * c.cylinderHigh.toNat + 2 ^ 24 * (c.driveHead.toNat % 16)

def makeCommand (devNo : BitVec 8) (secAddr : BitVec 32) : Command where
  secNo := secAddr.setWidth 8
  cylinderLow := (secAddr >>> 8).setWidth 8
  cylinderHigh := (secAddr >>> 16).setWidth 8
  driveHead := (0xe0#32 ||| ((devNo.setWidth 32 &&& 1#32) <<< 4) ||| (secAddr >>> 24)).setWidth 8

structure IdeBlock where
  devNo : BitVec 8
  secAddr : BitVec 32
  memAddr : ℕ
  op : Bool
  secNum : BitVec 32
  reqThread : ℕ
deriving DecidableEq

abbrev Sector := ℕ → UInt8

structure Ide where
  mem : Memory
  disk : Bool → ℕ → Sector
  buffer : Sector
  blockQueue : List IdeBlock

def insl (m : Memory) (addr : ℕ) (buffer : Sector) : Memory := fun x =>
  if addr ≤ x ∧ x < addr + kSecSize then buffer (x - addr) else m x

def storeSector (disk : Bool → ℕ → Sector) (c : Command) (sector : Sector) : Bool → ℕ → Sector := fun d a =>
  if d = c.drive ∧ a = c.lba then sector else disk d a

def rSec (s : Ide) (devNo : BitVec 8) (secAddr : BitVec 32) : Ide :=
  let c := makeCommand devNo secAddr
  { s with buffer := s.disk c.drive c.lba }

def wSec (s : Ide) (devNo : BitVec 8) (secAddr : BitVec 32) (src : ℕ) : Ide :=
  { s with disk := storeSector s.disk (makeCommand devNo secAddr) fun j => s.mem (src + j) }

def runIde (s : Ide) : Ide :=
  match s.blockQueue with
  | [] => s
  | newTask :: _ =>
    if newTask.op then wSec s newTask.devNo newTask.secAddr newTask.memAddr
    else rSec s newTask.devNo newTask.secAddr

/-- The interrupt of a command. With an empty queue the block is at no valid address. -/
def ideHandler (s : Ide) : Except Fault Ide :=
  match s.blockQueue with
  | [] => .error .outOfBounds
  | block :: rest =>
    let mem := if block.op = false then insl s.mem block.memAddr s.buffer else s.mem
    let secNum := block.secNum - 1#32
    .ok { s with mem := mem, blockQueue := if secNum = 0 then rest else { block with secNum := secNum } :: rest }

def ideBlock (op : Bool) (devNo : BitVec 8) (secAddr : BitVec 32) (addr : ℕ) (blockNum : BitVec 32)
    (reqThread : ℕ) : IdeBlock :=
  ⟨devNo, secAddr, addr, op, blockNum * kBlockSize, reqThread⟩

def Ide.request (s : Ide) (block : IdeBlock) : Ide := { s with blockQueue := s.blockQueue ++ [block] }

def ideWrite (s : Ide) (devNo : BitVec 8) (secAddr : BitVec 32) (src : ℕ) (blockNum : BitVec 32)
    (curThread : ℕ) : Ide :=
  s.request (ideBlock true devNo secAddr src blockNum curThread)

def ideRead (s : Ide) (devNo : BitVec 8) (secAddr : BitVec 32) (dst : ℕ) (blockNum : BitVec 32)
    (curThread : ℕ) : Ide :=
  s.request (ideBlock false devNo secAddr dst blockNum curThread)

/-! ## Rounds -/

inductive IdeEvent
  | round
  | request (block : IdeBlock)

/-- A round is a command and its interrupt. -/
def Ide.exec (s : Ide) : IdeEvent → Except Fault Ide
  | .round => ideHandler (runIde s)
  | .request block => .ok (s.request block)

def rounds : List IdeEvent → ℕ
  | [] => 0
  | .round :: evs => rounds evs + 1
  | .request _ :: evs => rounds evs

def requests : List IdeEvent → List IdeBlock
  | [] => []
  | .round :: evs => requests evs
  | .request block :: evs => block :: requests evs

def transferred (m : Memory) (disk : Bool → ℕ → Sector) (block : IdeBlock) : Memory × (Bool → ℕ → Sector) :=
  let c := makeCommand block.devNo block.secAddr
  if block.op then (m, storeSector disk c fun j => m (block.memAddr + j))
  else (insl m block.memAddr (disk c.drive c.lba), disk)

variable {s s' : Ide} {block : IdeBlock} {rest : List IdeBlock} {evs : List IdeEvent}

theorem transferred_twice (m : Memory) (disk : Bool → ℕ → Sector) (block block' : IdeBlock)
    (hdev : block'.devNo = block.devNo) (hsec : block'.secAddr = block.secAddr)
    (hmem : block'.memAddr = block.memAddr) (hop : block'.op = block.op) :
    transferred (transferred m disk block).1 (transferred m disk block).2 block' = transferred m disk block := by
  simp only [transferred, hdev, hsec, hmem, hop]
  cases hb : block.op with
  | true =>
    refine Prod.ext rfl ?_
    funext d a
    simp only [if_true, storeSector]
    split
    · rfl
    · rfl
  | false =>
    refine Prod.ext ?_ rfl
    funext x
    simp only [Bool.false_eq_true, if_false, insl]
    split
    · rfl
    · rfl

theorem runIde_cons (hq : s.blockQueue = block :: rest) : runIde s =
    if block.op then wSec s block.devNo block.secAddr block.memAddr else rSec s block.devNo block.secAddr := by
  rw [runIde, hq]

theorem runIde_queue (s : Ide) : (runIde s).blockQueue = s.blockQueue := by
  cases hq : s.blockQueue with
  | nil => rw [runIde, hq, hq]
  | cons block rest =>
    rw [runIde_cons hq]
    split
    · exact hq
    · exact hq

theorem ideHandler_cons (hq : s.blockQueue = block :: rest) : ideHandler s =
    .ok { s with mem := if block.op = false then insl s.mem block.memAddr s.buffer else s.mem,
                 blockQueue := if block.secNum - 1#32 = 0 then rest
                   else { block with secNum := block.secNum - 1#32 } :: rest } := by
  rw [ideHandler, hq]

theorem exec_round (hq : s.blockQueue = block :: rest) : ∃ s', s.exec .round = .ok s' ∧
    (s'.mem, s'.disk) = transferred s.mem s.disk block ∧
    s'.blockQueue = if block.secNum - 1#32 = 0 then rest
      else { block with secNum := block.secNum - 1#32 } :: rest := by
  refine ⟨_, ideHandler_cons ((runIde_queue s).trans hq), ?_, rfl⟩
  rw [runIde_cons hq, transferred]
  cases block.op with
  | true => rfl
  | false => rfl

/-! ## Whole requests -/

/-- How often `--sec_num == 0` is evaluated until it is true. -/
def turns (secNum : BitVec 32) : ℕ := (secNum - 1#32).toNat + 1

/-- `block` is the first in the queue with `k` of its sectors done, and `m` and `disk`
are memory and disk as they were before the first of them. -/
structure Serving (m : Memory) (disk : Bool → ℕ → Sector) (block : IdeBlock) (rest : List IdeBlock) (k : ℕ)
    (s : Ide) : Prop where
  queue : s.blockQueue = { block with secNum := block.secNum - BitVec.ofNat 32 k } :: rest
  start : k = 0 → (s.mem, s.disk) = (m, disk)
  later : 0 < k → (s.mem, s.disk) = transferred m disk block

theorem Serving.round {m : Memory} {disk : Bool → ℕ → Sector} {k : ℕ} (h : Serving m disk block rest k s)
    (hk : k < turns block.secNum) : ∃ s', s.exec .round = .ok s' ∧
      (s'.mem, s'.disk) = transferred m disk block ∧
      (k + 1 < turns block.secNum → Serving m disk block rest (k + 1) s') ∧
      (k + 1 = turns block.secNum → s'.blockQueue = rest) := by
  obtain ⟨s', hexec, htrans, hqueue⟩ := exec_round h.queue
  have hdone : (s'.mem, s'.disk) = transferred m disk block := by
    rw [htrans]
    rcases Nat.eq_zero_or_pos k with hk0 | hk0
    · obtain ⟨hm, hd⟩ := Prod.mk.inj (h.start hk0)
      rw [hm, hd]
      rfl
    · obtain ⟨hm, hd⟩ := Prod.mk.inj (h.later hk0)
      rw [hm, hd]
      exact transferred_twice m disk block _ rfl rfl rfl rfl
  have hlt := (block.secNum - 1#32).isLt
  have hnext : block.secNum - BitVec.ofNat 32 k - 1#32 = block.secNum - BitVec.ofNat 32 (k + 1) := by bv_omega
  have hzero : block.secNum - BitVec.ofNat 32 (k + 1) = 0 ↔ k + 1 = turns block.secNum := by
    rw [turns] at hk ⊢
    constructor
    · intro he
      bv_omega
    · intro he
      bv_omega
  refine ⟨s', hexec, hdone, fun hlast => ⟨?_, fun h0 => absurd h0 (Nat.succ_ne_zero k), fun _ => hdone⟩,
    fun hlast => ?_⟩
  · rw [hqueue, hnext, if_neg (fun he => by have := hzero.mp he; omega)]
  · rw [hqueue, hnext, if_pos (hzero.mpr hlast)]

theorem run_requests (s : Ide) (hevs : rounds evs = 0) : ∃ s', run Ide.exec s evs = .ok s' ∧
    s'.blockQueue = s.blockQueue ++ requests evs ∧ (s'.mem, s'.disk) = (s.mem, s.disk) := by
  induction evs generalizing s with
  | nil => exact ⟨s, rfl, (List.append_nil _).symm, rfl⟩
  | cons e evs ih =>
    cases e with
    | round => exact absurd hevs (Nat.succ_ne_zero _)
    | request b =>
      obtain ⟨s', hrun, hqueue, hsame⟩ := ih (s.request b) hevs
      refine ⟨s', hrun, ?_, hsame⟩
      rw [hqueue, requests, Ide.request, List.append_assoc, List.singleton_append]

theorem Serving.run {m : Memory} {disk : Bool → ℕ → Sector} {k : ℕ} (h : Serving m disk block rest k s)
    (hk : k < turns block.secNum) (hevs : rounds evs + k = turns block.secNum) :
    ∃ s', run Ide.exec s evs = .ok s' ∧ s'.blockQueue = rest ++ requests evs ∧
      (s'.mem, s'.disk) = transferred m disk block := by
  induction evs generalizing s rest k with
  | nil =>
    rw [rounds] at hevs
    omega
  | cons e evs ih =>
    cases e with
    | request b =>
      have hnext : Serving m disk block (rest ++ [b]) k (s.request b) := by
        refine ⟨?_, h.start, h.later⟩
        rw [Ide.request, h.queue, List.cons_append]
      obtain ⟨s', hrun, hqueue, htrans⟩ := ih hnext hk hevs
      refine ⟨s', hrun, ?_, htrans⟩
      rw [hqueue, requests, List.append_assoc, List.singleton_append]
    | round =>
      obtain ⟨s₁, hexec, htrans, hmore, hlast⟩ := h.round hk
      rw [rounds] at hevs
      by_cases hend : k + 1 = turns block.secNum
      · obtain ⟨s', hrun, hqueue, hsame⟩ := run_requests s₁ (show rounds evs = 0 by omega)
        refine ⟨s', (run_cons hexec).trans hrun, ?_, hsame.trans htrans⟩
        rw [hqueue, hlast hend, requests]
      · obtain ⟨s', hrun, hqueue, htrans'⟩ := ih (hmore (by omega)) (by omega) (by omega)
        exact ⟨s', (run_cons hexec).trans hrun, hqueue, htrans'⟩

theorem serve_block (hq : s.blockQueue = block :: rest)
    (hevs : rounds evs = turns block.secNum) :
    ∃ s', run Ide.exec s evs = .ok s' ∧ s'.blockQueue = rest ++ requests evs ∧
      (s'.mem, s'.disk) = transferred s.mem s.disk block := by
  have hstart : Serving s.mem s.disk block rest 0 s := by
    refine ⟨?_, fun _ => rfl, fun h0 => absurd h0 (Nat.lt_irrefl 0)⟩
    rw [hq, show block.secNum - BitVec.ofNat 32 0 = block.secNum from BitVec.sub_zero _]
  exact hstart.run (Nat.succ_pos _) hevs

theorem split_rounds {n : ℕ} (h : n ≤ rounds evs) : ∃ evs₁ evs₂, evs = evs₁ ++ evs₂ ∧ rounds evs₁ = n ∧
    rounds evs = n + rounds evs₂ ∧ requests evs = requests evs₁ ++ requests evs₂ := by
  induction evs generalizing n with
  | nil =>
    rw [rounds, Nat.le_zero] at h
    exact ⟨[], [], rfl, h.symm, by rw [h, Nat.zero_add], rfl⟩
  | cons e evs ih =>
    cases e with
    | request b =>
      obtain ⟨evs₁, evs₂, he, h₁, h₂, h₃⟩ := ih (n := n) h
      exact ⟨.request b :: evs₁, evs₂, by rw [he, List.cons_append], h₁, h₂, by rw [requests, h₃]; rfl⟩
    | round =>
      cases n with
      | zero => exact ⟨[], .round :: evs, rfl, rfl, (Nat.zero_add _).symm, rfl⟩
      | succ n =>
        rw [rounds] at h
        obtain ⟨evs₁, evs₂, he, h₁, h₂, h₃⟩ := ih (n := n) (by omega)
        refine ⟨.round :: evs₁, evs₂, by rw [he, List.cons_append], by rw [rounds, h₁], ?_, h₃⟩
        rw [rounds, h₂]
        omega

def sectors (blocks : List IdeBlock) : ℕ := (blocks.map fun b => turns b.secNum).sum

theorem serve_ahead {ahead tail : List IdeBlock} (hq : s.blockQueue = ahead ++ tail)
    (hevs : rounds evs = sectors ahead) :
    ∃ s', run Ide.exec s evs = .ok s' ∧ s'.blockQueue = tail ++ requests evs := by
  induction ahead generalizing s evs tail with
  | nil =>
    obtain ⟨s', hrun, hqueue, -⟩ := run_requests s hevs
    exact ⟨s', hrun, by rw [hqueue, hq, List.nil_append]⟩
  | cons b ahead ih =>
    have hsum : sectors (b :: ahead) = turns b.secNum + sectors ahead := List.sum_cons
    obtain ⟨evs₁, evs₂, rfl, h₁, h₂, h₃⟩ := split_rounds (show turns b.secNum ≤ rounds evs by omega)
    obtain ⟨s₁, hrun₁, hqueue₁, -⟩ := serve_block hq h₁
    rw [List.append_eq, List.append_assoc] at hqueue₁
    obtain ⟨s', hrun, hqueue⟩ := ih hqueue₁ (show rounds evs₂ = sectors ahead by omega)
    exact ⟨s', (run_append hrun₁ evs₂).trans hrun, by rw [hqueue, h₃, List.append_assoc]⟩

/-! ## The sector of a command -/

theorem driveHead_eq (devNo : BitVec 8) (secAddr : BitVec 32) : (makeCommand devNo secAddr).driveHead =
    0xe0#8 ||| (if devNo.getLsbD 0 then 0x10#8 else 0#8) ||| (secAddr >>> 24).setWidth 8 := by
  have hdev : ∀ d : BitVec 8, ((d.setWidth 32 &&& 1#32) <<< 4).setWidth 8 =
      if d.getLsbD 0 then 0x10#8 else 0#8 := by decide
  simp only [makeCommand, BitVec.setWidth_or, hdev]
  rfl

theorem makeCommand_lba (devNo : BitVec 8) (secAddr : BitVec 32) :
    (makeCommand devNo secAddr).lba = secAddr.toNat % 2 ^ 28 := by
  have hhead : ∀ (b : Bool) (h : BitVec 8),
      (0xe0#8 ||| (if b then 0x10#8 else 0#8) ||| h).toNat % 16 = h.toNat % 16 := by decide
  have hlt := secAddr.isLt
  rw [Command.lba, driveHead_eq, hhead]
  simp only [makeCommand, BitVec.toNat_setWidth, BitVec.toNat_ushiftRight, Nat.shiftRight_eq_div_pow]
  omega

theorem makeCommand_drive {devNo : BitVec 8} {secAddr : BitVec 32} (h : secAddr.toNat < 2 ^ 28) :
    (makeCommand devNo secAddr).drive = devNo.getLsbD 0 := by
  have hhead : ∀ (b : Bool) (h : BitVec 8), h.getLsbD 4 = false →
      (0xe0#8 ||| (if b then 0x10#8 else 0#8) ||| h).getLsbD 4 = b := by decide
  have hbit : secAddr.getLsbD 28 = false := by
    rw [← BitVec.testBit_toNat]
    exact Nat.testBit_lt_two_pow h
  rw [Command.drive, driveHead_eq, hhead]
  rw [BitVec.getLsbD_setWidth, BitVec.getLsbD_ushiftRight, hbit, Bool.and_false]

/-! ## What a request should do -/

section Delivery
variable (devNo : BitVec 8) (secAddr : BitVec 32) (addr : ℕ) (blockNum : BitVec 32)

/-- The memory from `addr` on agrees with the sectors of the request, in order. -/
def Delivered (s : Ide) : Prop :=
  ∀ i < 8 * blockNum.toNat, ∀ j < kSecSize,
    s.mem (addr + kSecSize * i + j) = s.disk (devNo.getLsbD 0) (secAddr.toNat + i) j

/-- Behind the first sector, memory and disk agree already. A sector number that needs
more than 28 bits is cut, so for it the first sector must agree as well: what a write
leaves there, or the sector that a read gets in its place. -/
structure AgreesBefore (op : Bool) (s : Ide) : Prop where
  behind : ∀ i < 8 * blockNum.toNat, 0 < i → ∀ j < kSecSize,
    s.mem (addr + kSecSize * i + j) = s.disk (devNo.getLsbD 0) (secAddr.toNat + i) j
  first : 2 ^ 28 ≤ secAddr.toNat → ∀ j < kSecSize,
    (if op then s.mem (addr + j)
      else s.disk (makeCommand devNo secAddr).drive (makeCommand devNo secAddr).lba j) =
    s.disk (devNo.getLsbD 0) secAddr.toNat j

variable {devNo secAddr addr blockNum}

theorem insl_first {m : Memory} {buffer : Sector} {j : ℕ} (hj : j < kSecSize) :
    insl m addr buffer (addr + kSecSize * 0 + j) = buffer j := by
  rw [insl, if_pos (by omega), Nat.mul_zero, Nat.add_zero, Nat.add_sub_cancel_left]

theorem insl_behind {m : Memory} {buffer : Sector} {i j : ℕ} (hi : 0 < i) :
    insl m addr buffer (addr + kSecSize * i + j) = m (addr + kSecSize * i + j) := by
  have hmul : kSecSize * 1 ≤ kSecSize * i := Nat.mul_le_mul_left _ hi
  rw [insl, if_neg (by omega)]

theorem read_delivered_iff {reqThread : ℕ} (hpos : 0 < blockNum.toNat)
    (htrans : (s'.mem, s'.disk) =
      transferred s.mem s.disk (ideBlock false devNo secAddr addr blockNum reqThread)) :
    Delivered devNo secAddr addr blockNum s' ↔ AgreesBefore devNo secAddr addr blockNum false s := by
  obtain ⟨hmem, hdisk⟩ := Prod.mk.inj (htrans.trans (show transferred s.mem s.disk
    (ideBlock false devNo secAddr addr blockNum reqThread) = (insl s.mem addr
      (s.disk (makeCommand devNo secAddr).drive (makeCommand devNo secAddr).lba), s.disk) from rfl))
  simp only [Delivered, hmem, hdisk]
  constructor
  · refine fun h => ⟨fun i hi h0 j hj => ?_, fun _ j hj => ?_⟩
    · rw [← h i hi j hj, insl_behind h0]
    · have hfirst := h 0 (by omega) j hj
      rw [insl_first hj] at hfirst
      exact hfirst
  · intro h i hi j hj
    rcases Nat.eq_zero_or_pos i with rfl | h0
    · rw [insl_first hj, Nat.add_zero]
      by_cases hsec : secAddr.toNat < 2 ^ 28
      · rw [makeCommand_drive hsec, makeCommand_lba, Nat.mod_eq_of_lt hsec]
      · exact h.first (by omega) j hj
    · rw [insl_behind h0]
      exact h.behind i hi h0 j hj

theorem write_delivered_iff {reqThread : ℕ} (hpos : 0 < blockNum.toNat)
    (htrans : (s'.mem, s'.disk) =
      transferred s.mem s.disk (ideBlock true devNo secAddr addr blockNum reqThread)) :
    Delivered devNo secAddr addr blockNum s' ↔ AgreesBefore devNo secAddr addr blockNum true s := by
  obtain ⟨hmem, hdisk⟩ := Prod.mk.inj (htrans.trans (show transferred s.mem s.disk
    (ideBlock true devNo secAddr addr blockNum reqThread) =
      (s.mem, storeSector s.disk (makeCommand devNo secAddr) fun j => s.mem (addr + j)) from rfl))
  have hother {i : ℕ} (hi : 0 < i ∨ 2 ^ 28 ≤ secAddr.toNat) :
      storeSector s.disk (makeCommand devNo secAddr) (fun j => s.mem (addr + j)) (devNo.getLsbD 0)
        (secAddr.toNat + i) = s.disk (devNo.getLsbD 0) (secAddr.toNat + i) := by
    rw [storeSector, if_neg]
    rintro ⟨-, he⟩
    rw [makeCommand_lba] at he
    omega
  simp only [Delivered, hmem, hdisk]
  constructor
  · refine fun h => ⟨fun i hi h0 j hj => ?_, fun hsec j hj => ?_⟩
    · rw [h i hi j hj, hother (Or.inl h0)]
    · have hfirst := h 0 (by omega) j hj
      rw [hother (Or.inr hsec), Nat.mul_zero, Nat.add_zero] at hfirst
      exact hfirst
  · intro h i hi j hj
    rcases Nat.eq_zero_or_pos i with rfl | h0
    · by_cases hsec : secAddr.toNat < 2 ^ 28
      · rw [storeSector, if_pos, Nat.mul_zero, Nat.add_zero]
        exact ⟨(makeCommand_drive hsec).symm, by rw [makeCommand_lba, Nat.mod_eq_of_lt hsec, Nat.add_zero]⟩
      · rw [hother (Or.inr (by omega)), Nat.mul_zero, Nat.add_zero]
        exact h.first (by omega) j hj
    · rw [hother (Or.inl h0)]
      exact h.behind i hi h0 j hj

end Delivery

def ideRequest (op : Bool) (s : Ide) (devNo : BitVec 8) (secAddr : BitVec 32) (addr : ℕ) (blockNum : BitVec 32)
    (curThread : ℕ) : Ide :=
  if op then ideWrite s devNo secAddr addr blockNum curThread
  else ideRead s devNo secAddr addr blockNum curThread

theorem ideRequest_queue (op : Bool) (s : Ide) (devNo : BitVec 8) (secAddr : BitVec 32) (addr : ℕ)
    (blockNum : BitVec 32) (curThread : ℕ) :
    (ideRequest op s devNo secAddr addr blockNum curThread).blockQueue =
      s.blockQueue ++ [ideBlock op devNo secAddr addr blockNum curThread] := by
  cases op with
  | true => rfl
  | false => rfl

theorem turns_blocks {blockNum : BitVec 32} (hpos : 1 ≤ blockNum.toNat) (hlt : blockNum.toNat < 2 ^ 29) :
    turns (blockNum * kBlockSize) = 8 * blockNum.toNat := by
  have hmul : (blockNum * kBlockSize).toNat = 8 * blockNum.toNat := by
    rw [BitVec.toNat_mul, show kBlockSize.toNat = 8 from rfl, Nat.mod_eq_of_lt (by omega), Nat.mul_comm]
  rw [turns]
  bv_omega

/-- A request of `n` blocks is taken from the queue by the `8 n` rounds after those of the
requests before it. It has delivered its sectors if and only if all of them but the
first were in place before. -/
theorem request_delivered_iff (s : Ide) (op : Bool) (devNo : BitVec 8) (secAddr : BitVec 32) (addr : ℕ)
    (blockNum : BitVec 32) (curThread : ℕ) (hpos : 1 ≤ blockNum.toNat) (hlt : blockNum.toNat < 2 ^ 29)
    (evs₁ evs₂ : List IdeEvent) (h₁ : rounds evs₁ = sectors s.blockQueue)
    (h₂ : rounds evs₂ = 8 * blockNum.toNat) :
    ∃ s₁ s₂, run Ide.exec (ideRequest op s devNo secAddr addr blockNum curThread) evs₁ = .ok s₁ ∧
      run Ide.exec s₁ evs₂ = .ok s₂ ∧
      s₁.blockQueue = ideBlock op devNo secAddr addr blockNum curThread :: requests evs₁ ∧
      s₂.blockQueue = requests evs₁ ++ requests evs₂ ∧
      (Delivered devNo secAddr addr blockNum s₂ ↔ AgreesBefore devNo secAddr addr blockNum op s₁) := by
  obtain ⟨s₁, hrun₁, hq₁⟩ := serve_ahead (ideRequest_queue op s devNo secAddr addr blockNum curThread) h₁
  obtain ⟨s₂, hrun₂, hq₂, htrans⟩ := serve_block hq₁ (h₂.trans (turns_blocks hpos hlt).symm)
  refine ⟨s₁, s₂, hrun₁, hrun₂, hq₁, hq₂, ?_⟩
  cases op with
  | true => exact write_delivered_iff hpos htrans
  | false => exact read_delivered_iff hpos htrans

def numberedIde : Ide := ⟨fun _ => 0, fun _ a _ => UInt8.ofNat a, fun _ => 0, []⟩

theorem request_delivered_iff_read : ∃ s₁ s₂,
    run Ide.exec (ideRequest false numberedIde 0#8 5#32 0x1000 1#32 0) [] = .ok s₁ ∧
    run Ide.exec s₁ (List.replicate 8 .round) = .ok s₂ ∧
    s₁.blockQueue = [ideBlock false 0#8 5#32 0x1000 1#32 0] ∧ s₂.blockQueue = [] ∧
    (Delivered 0#8 5#32 0x1000 1#32 s₂ ↔ AgreesBefore 0#8 5#32 0x1000 1#32 false s₁) :=
  request_delivered_iff numberedIde false 0#8 5#32 0x1000 1#32 0 (by decide) (by decide) []
    (List.replicate 8 .round) rfl rfl

theorem second_sector_missed : ∃ s,
    run Ide.exec (ideRead numberedIde 0#8 5#32 0x1000 1#32 0) (List.replicate 8 .round) = .ok s ∧
    s.blockQueue = [] ∧ s.mem 0x1000 = 5 ∧ s.mem 0x1200 = 0 ∧ s.disk false 6 0 = 6 ∧
    ¬ Delivered 0#8 5#32 0x1000 1#32 s := by
  obtain ⟨s, hrun, hq, htrans⟩ := serve_block (s := ideRead numberedIde 0#8 5#32 0x1000 1#32 0)
    rfl (show rounds (List.replicate 8 .round) = 8 from rfl)
  obtain ⟨hmem, hdisk⟩ := Prod.mk.inj htrans
  have hnext : s.mem 0x1200 = 0 := by
    rw [hmem]
    rfl
  have hsector : s.disk false 6 0 = 6 := by
    rw [hdisk]
    rfl
  refine ⟨s, hrun, hq, ?_, hnext, hsector, fun hd => ?_⟩
  · rw [hmem]
    decide
  · have hword : s.mem 0x1200 = s.disk false 6 0 := hd 1 (by decide) 0 (by decide)
    rw [hnext, hsector] at hword
    exact absurd hword (by decide)

end XyOS.Driver
