import XyOS.Foundation.Machine
import XyOS.Thread.ThreadDefs

/-! `SwitchReg` of `switch_reg.S` and the stacks that it leaves and enters. -/

namespace XyOS.Scheduling
open Machine Process

def switchRegCode : List Instr :=
  [.movFromStack 4#32 .eax, .movFromStack 8#32 .edx,
    .push .ebx, .push .esi, .push .edi, .push .ebp,
    .movEspTo .eax, .movToEsp .edx,
    .pop .ebp, .pop .edi, .pop .esi, .pop .ebx,
    .sti, .ret]

def ptr (a : ℕ) : BitVec 32 := BitVec.ofNat 32 a

def createStack (m : Memory) (t stackAddr : ℕ) : Memory :=
  let m := store m (ptr (Thread.stackAddr t)) (ptr stackAddr)
  let m := store m (ptr (Thread.esp t)) (load m (ptr (Thread.stackAddr t)) - 4#32)
  store m (load m (ptr (Thread.esp t))) (ptr t)

def runStack (m : Memory) (t : ℕ) (startFunc : BitVec 32) : Memory :=
  let m := store m (ptr (Thread.esp t)) (load m (ptr (Thread.esp t)) - 4#32)
  let m := store m (load m (ptr (Thread.esp t))) startFunc
  let m := store m (ptr (Thread.esp t)) (load m (ptr (Thread.esp t)) - 16#32)
  let e := load m (ptr (Thread.esp t))
  store (store (store (store m e 0) (e + 4#32) 0) (e + 8#32) 0) (e + 12#32) 0

/-! ## The machine during a switch -/

structure Context where
  ebx : BitVec 32
  esi : BitVec 32
  edi : BitVec 32
  ebp : BitVec 32
  esp : BitVec 32
  eip : BitVec 32
deriving DecidableEq

def contextOf (c : Cpu) : Context :=
  ⟨c.reg .ebx, c.reg .esi, c.reg .edi, c.reg .ebp, c.esp, c.eip⟩

def callerContext (c : Cpu) : Context :=
  ⟨c.reg .ebx, c.reg .esi, c.reg .edi, c.reg .ebp, c.esp + 4#32, load c.mem c.esp⟩

def pushed (c : Cpu) : Memory :=
  let m := store c.mem (c.esp - 4#32) (c.reg .ebx)
  let m := store m (c.esp - 8#32) (c.reg .esi)
  let m := store m (c.esp - 12#32) (c.reg .edi)
  store m (c.esp - 16#32) (c.reg .ebp)

theorem exec_push (c : Cpu) :
    exec [.push .ebx, .push .esi, .push .edi, .push .ebp] c =
      { c with esp := c.esp - 16#32, mem := pushed c } := by
  have h8 : c.esp - 4#32 - 4#32 = c.esp - 8#32 := sub_lit_sub_lit c.esp 4 4
  have h12 : c.esp - 8#32 - 4#32 = c.esp - 12#32 := sub_lit_sub_lit c.esp 8 4
  have h16 : c.esp - 12#32 - 4#32 = c.esp - 16#32 := sub_lit_sub_lit c.esp 12 4
  simp only [exec, List.foldl, step, h8, h12, h16, pushed]

theorem exec_pop (c : Cpu) :
    contextOf (exec [.pop .ebp, .pop .edi, .pop .esi, .pop .ebx, .sti, .ret] c) =
        ⟨load c.mem (c.esp + 12#32), load c.mem (c.esp + 8#32), load c.mem (c.esp + 4#32), load c.mem c.esp,
          c.esp + 20#32, load c.mem (c.esp + 16#32)⟩ ∧
      (exec [.pop .ebp, .pop .edi, .pop .esi, .pop .ebx, .sti, .ret] c).mem = c.mem := by
  have h8 : c.esp + 4#32 + 4#32 = c.esp + 8#32 := add_lit_add_lit c.esp 4 4
  have h12 : c.esp + 8#32 + 4#32 = c.esp + 12#32 := add_lit_add_lit c.esp 8 4
  have h16 : c.esp + 12#32 + 4#32 = c.esp + 16#32 := add_lit_add_lit c.esp 12 4
  have h20 : c.esp + 16#32 + 4#32 = c.esp + 20#32 := add_lit_add_lit c.esp 16 4
  simp only [exec, List.foldl, step, contextOf, h8, h12, h16, h20, Function.update_self, ne_eq, reduceCtorEq,
    not_false_eq_true, Function.update_of_ne, and_self]

theorem exec_switchReg (c : Cpu) {p q : BitVec 32} (hp : load c.mem (c.esp + 4#32) = p)
    (hq : load c.mem (c.esp + 8#32) = q) :
    (exec switchRegCode c).mem = store (pushed c) p (c.esp - 16#32) ∧
      let m := store (pushed c) p (c.esp - 16#32)
      contextOf (exec switchRegCode c) = ⟨load m (load m q + 12#32), load m (load m q + 8#32),
        load m (load m q + 4#32), load m (load m q), load m q + 20#32, load m (load m q + 16#32)⟩ := by
  have hsplit : switchRegCode = ([.movFromStack 4#32 .eax, .movFromStack 8#32 .edx] : List Instr) ++
      ([.push .ebx, .push .esi, .push .edi, .push .ebp] : List Instr) ++
      ([.movEspTo .eax, .movToEsp .edx] : List Instr) ++
      ([.pop .ebp, .pop .edi, .pop .esi, .pop .ebx, .sti, .ret] : List Instr) := rfl
  have happend (xs ys : List Instr) (c : Cpu) : exec (xs ++ ys) c = exec ys (exec xs c) :=
    List.foldl_append
  let r := Function.update (Function.update c.reg .eax p) .edx q
  let m := store (pushed c) p (c.esp - 16#32)
  have hargs : exec [.movFromStack 4#32 .eax, .movFromStack 8#32 .edx] c = { c with reg := r } := by
    simp only [exec, List.foldl, step, hp, hq, r]
  have hpushed : pushed { c with reg := r } = pushed c := by
    simp only [pushed, r, ne_eq, reduceCtorEq, not_false_eq_true, Function.update_of_ne]
  have hswap : exec [.movEspTo .eax, .movToEsp .edx] { c with reg := r, esp := c.esp - 16#32, mem := pushed c } =
      { c with reg := r, esp := load m q, mem := m } := by
    simp only [exec, List.foldl, step, r, m, Function.update_self, ne_eq, reduceCtorEq, not_false_eq_true,
      Function.update_of_ne]
  rw [hsplit, happend, happend, happend, hargs, exec_push, hpushed, hswap]
  obtain ⟨hcontext, hmem⟩ := exec_pop { c with reg := r, esp := load m q, mem := m }
  exact ⟨hmem, hcontext⟩

end XyOS.Scheduling
