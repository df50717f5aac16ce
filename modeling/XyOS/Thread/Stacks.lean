import Mathlib.Data.Set.Insert
import XyOS.Thread.SwitchReg

/-! Threads with stacks of their own, one of them running, and what `SwitchReg` brings
back when one that was suspended or prepared gets its turn. -/

namespace XyOS.Scheduling
open Machine Process

structure Stacks where
  threads : Set ℕ
  lo : ℕ → ℕ
  hi : ℕ → ℕ
  stackAddr : ℕ → ℕ
  bound : ∀ t ∈ threads, t + threadBytes ≤ 2 ^ 32 ∧ hi t ≤ 2 ^ 32 ∧ stackAddr t < 2 ^ 32
  room : ∀ t ∈ threads, lo t + 24 ≤ stackAddr t ∧ stackAddr t ≤ hi t
  stacks_apart : ∀ t ∈ threads, ∀ u ∈ threads, t ≠ u → hi t ≤ lo u ∨ hi u ≤ lo t
  records_apart : ∀ t ∈ threads, ∀ u ∈ threads, t ≠ u → t + threadBytes ≤ u ∨ u + threadBytes ≤ t
  record_apart : ∀ t ∈ threads, ∀ u ∈ threads, t + threadBytes ≤ lo u ∨ hi u ≤ t

def Stacks.Region (st : Stacks) (t a : ℕ) : Prop :=
  st.lo t ≤ a ∧ a < st.hi t ∨ t ≤ a ∧ a < t + threadBytes

/-- What the other threads rely on: the stack and the saved stack pointer. -/
def Stacks.Own (st : Stacks) (t a : ℕ) : Prop :=
  st.lo t ≤ a ∧ a < st.hi t ∨ Thread.esp t ≤ a ∧ a < Thread.esp t + 4

structure Core where
  cpu : Cpu
  cur : ℕ

inductive Act
  | code
  | create (t : ℕ)
  | prepare (t : ℕ) (startFunc : BitVec 32)
  | switch (t : ℕ)

def Act.Concerns (t : ℕ) : Act → Prop
  | .code => False
  | .create u => u = t
  | .prepare u _ => u = t
  | .switch u => u = t

structure Created (st : Stacks) (m : Memory) (t : ℕ) : Prop where
  esp : load m (ptr (Thread.esp t)) = ptr (st.stackAddr t) - 4#32
  top : load m (ptr (st.stackAddr t) - 4#32) = ptr t

/-- The running thread calls `SwitchReg(&cur->esp, &x->esp)` with room for four words
on its own stack. -/
structure AtSwitch (st : Stacks) (c : Cpu) (cur x : ℕ) : Prop where
  low : st.lo cur + 16 ≤ c.esp.toNat
  high : c.esp.toNat + 12 ≤ st.hi cur
  curEsp : load c.mem (c.esp + 4#32) = ptr (Thread.esp cur)
  newEsp : load c.mem (c.esp + 8#32) = ptr (Thread.esp x)

inductive Step (st : Stacks) : Act → Core → Core → Prop
  | code {c c' : Cpu} {cur : ℕ} (hcur : cur ∈ st.threads)
      (hmem : ∀ t ∈ st.threads, t ≠ cur → ∀ a, st.Own t a → c'.mem a = c.mem a) :
      Step st .code ⟨c, cur⟩ ⟨c', cur⟩
  | create {c : Cpu} {cur t : ℕ} (ht : t ∈ st.threads) (hne : t ≠ cur) :
      Step st (.create t) ⟨c, cur⟩ ⟨{ c with mem := createStack c.mem t (st.stackAddr t) }, cur⟩
  | prepare {c : Cpu} {cur t : ℕ} {startFunc : BitVec 32} (ht : t ∈ st.threads) (hne : t ≠ cur)
      (hnew : Created st c.mem t) :
      Step st (.prepare t startFunc) ⟨c, cur⟩ ⟨{ c with mem := runStack c.mem t startFunc }, cur⟩
  | switch {c : Cpu} {cur x : ℕ} (hcur : cur ∈ st.threads) (hx : x ∈ st.threads) (hne : x ≠ cur)
      (hat : AtSwitch st c cur x) : Step st (.switch x) ⟨c, cur⟩ ⟨exec switchRegCode c, x⟩

inductive Steps (st : Stacks) : List Act → Core → Core → Prop
  | nil (s : Core) : Steps st [] s s
  | cons {act : Act} {acts : List Act} {s s₁ s' : Core} :
      Step st act s s₁ → Steps st acts s₁ s' → Steps st (act :: acts) s s'

variable {st : Stacks} {m m' : Memory} {t u a x : ℕ} {k : Context}

theorem Stacks.Own.region (h : st.Own t a) : st.Region t a := by
  simp only [Own, Region, Thread.esp, threadBytes] at h ⊢
  omega

theorem Stacks.region_apart (ht : t ∈ st.threads) (hu : u ∈ st.threads) (hne : t ≠ u)
    (h : st.Region t a) : ¬ st.Region u a := by
  have h₁ := st.stacks_apart t ht u hu hne
  have h₂ := st.records_apart t ht u hu hne
  have h₃ := st.record_apart t ht u hu
  have h₄ := st.record_apart u hu t ht
  simp only [Region] at h ⊢
  omega

def Stacks.Word (st : Stacks) (t : ℕ) (p : BitVec 32) : Prop :=
  ∀ a, p.toNat ≤ a → a < p.toNat + 4 → st.Region t a

theorem Stacks.store_keeps (ht : t ∈ st.threads) (hu : u ∈ st.threads) (hne : u ≠ t) {p v : BitVec 32}
    (hp : st.Word u p) (ha : st.Region t a) : store m p v a = m a := by
  refine store_of_outside ?_
  by_contra hin
  have hw := hp a (by omega) (by omega)
  exact st.region_apart hu ht hne hw ha

theorem ptr_toNat {n : ℕ} (h : n < 2 ^ 32) : (ptr n).toNat = n := by
  rw [ptr, BitVec.toNat_ofNat, Nat.mod_eq_of_lt h]

theorem Stacks.esp_toNat (ht : t ∈ st.threads) : (ptr (Thread.esp t)).toNat = t + 12 := by
  have hb := (st.bound t ht).1
  rw [threadBytes] at hb
  rw [Thread.esp, ptr_toNat (by omega)]

theorem Stacks.word_record (ht : t ∈ st.threads) {o : ℕ} (ho : o + 4 ≤ 24) : st.Word t (ptr (t + o)) := by
  have hb := (st.bound t ht).1
  intro a h₁ h₂
  simp only [threadBytes] at hb
  rw [ptr_toNat (by omega)] at h₁ h₂
  simp only [Region, threadBytes]
  omega

theorem Stacks.word_esp (ht : t ∈ st.threads) : st.Word t (ptr (Thread.esp t)) :=
  st.word_record ht (show 12 + 4 ≤ 24 by decide)

theorem Stacks.word_stack {p : BitVec 32} (hlo : st.lo t ≤ p.toNat) (hhi : p.toNat + 4 ≤ st.hi t) :
    st.Word t p := by
  intro a h₁ h₂
  exact Or.inl ⟨by omega, by omega⟩

/-! ## A saved context -/

structure Saved (st : Stacks) (m : Memory) (t : ℕ) (k : Context) : Prop where
  low : st.lo t + 20 ≤ k.esp.toNat
  high : k.esp.toNat ≤ st.hi t
  esp : load m (ptr (Thread.esp t)) = k.esp - 20#32
  ebp : load m (k.esp - 20#32) = k.ebp
  edi : load m (k.esp - 16#32) = k.edi
  esi : load m (k.esp - 12#32) = k.esi
  ebx : load m (k.esp - 8#32) = k.ebx
  eip : load m (k.esp - 4#32) = k.eip

theorem load_stack {p : BitVec 32} (h : ∀ a, st.Own t a → m' a = m a) (hlo : st.lo t ≤ p.toNat)
    (hhi : p.toNat + 4 ≤ st.hi t) : load m' p = load m p :=
  load_congr fun x h₁ h₂ => h x (Or.inl ⟨by omega, by omega⟩)

theorem load_esp (h : ∀ a, st.Own t a → m' a = m a) (ht : t ∈ st.threads) :
    load m' (ptr (Thread.esp t)) = load m (ptr (Thread.esp t)) := by
  have he := Stacks.esp_toNat ht
  refine load_congr fun x h₁ h₂ => h x (Or.inr ?_)
  simp only [Thread.esp] at he h₁ h₂ ⊢
  omega

theorem Saved.congr (hs : Saved st m t k) (ht : t ∈ st.threads) (h : ∀ a, st.Own t a → m' a = m a) :
    Saved st m' t k := by
  have hlow := hs.low
  have hhigh := hs.high
  have hword (n : ℕ) (hn : 4 ≤ n) (hn' : n ≤ 20) :
      load m' (k.esp - BitVec.ofNat 32 n) = load m (k.esp - BitVec.ofNat 32 n) := by
    have htoNat : (k.esp - BitVec.ofNat 32 n).toNat = k.esp.toNat - n := toNat_sub_lit (by omega) (by omega)
    exact load_stack h (by omega) (by omega)
  refine ⟨hlow, hhigh, ?_, ?_, ?_, ?_, ?_, ?_⟩
  · rw [load_esp h ht]
    exact hs.esp
  · rw [hword 20 (by decide) (by decide)]
    exact hs.ebp
  · rw [hword 16 (by decide) (by decide)]
    exact hs.edi
  · rw [hword 12 (by decide) (by decide)]
    exact hs.esi
  · rw [hword 8 (by decide) (by decide)]
    exact hs.ebx
  · rw [hword 4 (by decide) (by decide)]
    exact hs.eip

/-! ## Switching -/

section Switch
variable {c : Cpu} {cur : ℕ} (hat : AtSwitch st c cur x) (hcur : cur ∈ st.threads)
include hat

theorem AtSwitch.toNat_sub {n : ℕ} (hn : n ≤ 16) : (c.esp - BitVec.ofNat 32 n).toNat = c.esp.toNat - n :=
  toNat_sub_lit (by omega) (by have := hat.low; omega)

theorem AtSwitch.word_push {n : ℕ} (hn : 4 ≤ n) (hn' : n ≤ 16) : st.Word cur (c.esp - BitVec.ofNat 32 n) := by
  have hlow := hat.low
  have hhigh := hat.high
  have htoNat := hat.toNat_sub hn'
  exact st.word_stack (by omega) (by omega)

include hcur

theorem AtSwitch.keeps (ht : t ∈ st.threads) (hne : t ≠ cur) (ha : st.Region t a) :
    (exec switchRegCode c).mem a = c.mem a := by
  have hpush (n : ℕ) (hn : 4 ≤ n) (hn' : n ≤ 16) (m : Memory) (v : BitVec 32) :
      store m (c.esp - BitVec.ofNat 32 n) v a = m a :=
    st.store_keeps ht hcur hne.symm (hat.word_push hn hn') ha
  rw [(exec_switchReg c hat.curEsp hat.newEsp).1, st.store_keeps ht hcur hne.symm (st.word_esp hcur) ha,
    pushed, hpush 16 (by decide) (by decide), hpush 12 (by decide) (by decide),
    hpush 8 (by decide) (by decide), hpush 4 (by decide) (by decide)]

theorem AtSwitch.saved : Saved st (exec switchRegCode c).mem cur (callerContext c) := by
  have hlow := hat.low
  have hhigh := hat.high
  have hbound := (st.bound cur hcur).2.1
  have hrec := st.record_apart cur hcur cur hcur
  have h4 : (c.esp + 4#32).toNat = c.esp.toNat + 4 := toNat_add_lit (by omega)
  have h0 : (c.esp - 0#32).toNat = c.esp.toNat - 0 := hat.toNat_sub (by decide)
  have hesp := Stacks.esp_toNat hcur
  have e20 : c.esp + 4#32 - 20#32 = c.esp - 16#32 := add_lit_sub_lit c.esp (show 4 ≤ 20 by decide)
  have e16 : c.esp + 4#32 - 16#32 = c.esp - 12#32 := add_lit_sub_lit c.esp (show 4 ≤ 16 by decide)
  have e12 : c.esp + 4#32 - 12#32 = c.esp - 8#32 := add_lit_sub_lit c.esp (show 4 ≤ 12 by decide)
  have e8 : c.esp + 4#32 - 8#32 = c.esp - 4#32 := add_lit_sub_lit c.esp (show 4 ≤ 8 by decide)
  have e4 : c.esp + 4#32 - 4#32 = c.esp - 0#32 := add_lit_sub_lit c.esp (show 4 ≤ 4 by decide)
  have e0 : c.esp - 0#32 = c.esp := BitVec.sub_zero c.esp
  have hskip (m : Memory) (v : BitVec 32) {n : ℕ} (hn : n ≤ 16) :
      load (store m (ptr (Thread.esp cur)) v) (c.esp - BitVec.ofNat 32 n) =
        load m (c.esp - BitVec.ofNat 32 n) := by
    have hn₁ := hat.toNat_sub hn
    rw [threadBytes] at hrec
    exact load_store_of_apart (by omega)
  have hpast (m : Memory) (v : BitVec 32) {n n' : ℕ} (hn : n + 4 ≤ n') (hn' : n' ≤ 16) :
      load (store m (c.esp - BitVec.ofNat 32 n') v) (c.esp - BitVec.ofNat 32 n) =
        load m (c.esp - BitVec.ofNat 32 n) :=
    load_store_below (Or.inl hn) (by omega) (by omega)
  rw [(exec_switchReg c hat.curEsp hat.newEsp).1]
  refine ⟨?_, ?_, ?_, ?_, ?_, ?_, ?_, ?_⟩
  · rw [callerContext, h4]
    omega
  · rw [callerContext, h4]
    omega
  · rw [load_store_self, callerContext, e20]
  · rw [callerContext, e20, hskip _ _ (by decide), pushed, load_store_self]
  · rw [callerContext, e16, hskip _ _ (by decide), pushed, hpast _ _ (by decide) (by decide), load_store_self]
  · rw [callerContext, e12, hskip _ _ (by decide), pushed, hpast _ _ (by decide) (by decide),
      hpast _ _ (by decide) (by decide), load_store_self]
  · rw [callerContext, e8, hskip _ _ (by decide), pushed, hpast _ _ (by decide) (by decide),
      hpast _ _ (by decide) (by decide), hpast _ _ (by decide) (by decide), load_store_self]
  · rw [callerContext, e4, hskip _ _ (by decide), pushed, hpast _ _ (by decide) (by decide),
      hpast _ _ (by decide) (by decide), hpast _ _ (by decide) (by decide), hpast _ _ (by decide) (by decide), e0]

theorem AtSwitch.restores (hx : x ∈ st.threads) (hne : x ≠ cur) (hs : Saved st c.mem x k) :
    contextOf (exec switchRegCode c) = k := by
  obtain ⟨hmem, hcontext⟩ := exec_switchReg c hat.curEsp hat.newEsp
  have hsaved := hs.congr hx fun a ha => hat.keeps hcur hx hne ha.region
  rw [hmem] at hsaved
  have e12 : k.esp - 20#32 + 12#32 = k.esp - 8#32 := sub_lit_add_lit k.esp (show 12 ≤ 20 by decide)
  have e8 : k.esp - 20#32 + 8#32 = k.esp - 12#32 := sub_lit_add_lit k.esp (show 8 ≤ 20 by decide)
  have e4 : k.esp - 20#32 + 4#32 = k.esp - 16#32 := sub_lit_add_lit k.esp (show 4 ≤ 20 by decide)
  have e20 : k.esp - 20#32 + 20#32 = k.esp := BitVec.sub_add_cancel ..
  have e16 : k.esp - 20#32 + 16#32 = k.esp - 4#32 := sub_lit_add_lit k.esp (show 16 ≤ 20 by decide)
  rw [hcontext]
  simp only [hsaved.esp, e12, e8, e4, e20, e16, hsaved.ebp, hsaved.edi, hsaved.esi, hsaved.ebx, hsaved.eip]

theorem AtSwitch.simulates (hx : x ∈ st.threads) (hne : x ≠ cur) {s : Scheduler} (hesp : s.esp = c.esp.toNat)
    (hword : s.heap (Thread.esp x) = (load c.mem (ptr (Thread.esp x))).toNat) :
    (switchReg s (Thread.esp cur) (Thread.esp x)).heap (Thread.esp cur) =
        (load (exec switchRegCode c).mem (ptr (Thread.esp cur))).toNat ∧
      (switchReg s (Thread.esp cur) (Thread.esp x)).esp = (exec switchRegCode c).esp.toNat := by
  obtain ⟨hmem, hcontext⟩ := exec_switchReg c hat.curEsp hat.newEsp
  have hnew := load_esp (fun a ha => hat.keeps hcur hx hne ha.region) hx
  rw [hmem] at hnew
  have hne' : Thread.esp x ≠ Thread.esp cur := fun he => hne (Nat.add_right_cancel he)
  have hlow := hat.low
  have hsub := hat.toNat_sub (n := 16) le_rfl
  have hlt := c.esp.isLt
  have hesp' : (exec switchRegCode c).esp = load c.mem (ptr (Thread.esp x)) + 20#32 :=
    (congrArg Context.esp hcontext).trans (congrArg (· + 20#32) hnew)
  refine ⟨?_, ?_⟩
  · rw [switchReg, Scheduler.setEsp_toKernel, Scheduler.store, Scheduler.setHeap_heap, Function.update_self,
      hmem, load_store_self, hsub, hesp, sub32_of_le (by omega) hlt]
  · rw [switchReg, Scheduler.setEsp_esp, Scheduler.store, Scheduler.setHeap_heap, Function.update_of_ne hne',
      hword, hesp', BitVec.toNat_add, u32]
    rfl

end Switch

/-! ## Creation -/

section Create
variable (ht : t ∈ st.threads)
include ht

theorem Stacks.top_toNat {n : ℕ} (hn : n ≤ 24) :
    (ptr (st.stackAddr t) - BitVec.ofNat 32 n).toNat = st.stackAddr t - n := by
  have hroom := st.room t ht
  have hsa : (ptr (st.stackAddr t)).toNat = st.stackAddr t := ptr_toNat (st.bound t ht).2.2
  rw [toNat_sub_lit (by omega) (by omega), hsa]

theorem Stacks.word_top {n : ℕ} (hn : 4 ≤ n) (hn' : n ≤ 24) :
    st.Word t (ptr (st.stackAddr t) - BitVec.ofNat 32 n) := by
  have hroom := st.room t ht
  have htoNat := Stacks.top_toNat ht hn'
  exact st.word_stack (by omega) (by omega)

theorem Stacks.esp_apart {n : ℕ} (hn : 4 ≤ n) (hn' : n ≤ 24) :
    (ptr (Thread.esp t)).toNat + 4 ≤ (ptr (st.stackAddr t) - BitVec.ofNat 32 n).toNat ∨
      (ptr (st.stackAddr t) - BitVec.ofNat 32 n).toNat + 4 ≤ (ptr (Thread.esp t)).toNat := by
  have hroom := st.room t ht
  have htoNat := Stacks.top_toNat ht hn'
  have hesp := Stacks.esp_toNat ht
  have hrec := st.record_apart t ht t ht
  rw [threadBytes] at hrec
  omega

theorem Stacks.word_stackAddr : st.Word t (ptr (Thread.stackAddr t)) :=
  st.word_record ht (show 4 + 4 ≤ 24 by decide)

theorem createStack_keeps (hu : u ∈ st.threads) (hne : u ≠ t) (ha : st.Region u a) :
    createStack m t (st.stackAddr t) a = m a := by
  simp only [createStack, load_store_self]
  rw [st.store_keeps hu ht hne.symm (st.word_top ht (by decide) (by decide)) ha,
    st.store_keeps hu ht hne.symm (st.word_esp ht) ha,
    st.store_keeps hu ht hne.symm (st.word_stackAddr ht) ha]

theorem createStack_created (m : Memory) : Created st (createStack m t (st.stackAddr t)) t := by
  simp only [createStack, load_store_self]
  refine ⟨?_, load_store_self ..⟩
  rw [load_store_of_apart (st.esp_apart ht (by decide) (by decide)), load_store_self]

theorem runStack_eq (hnew : Created st m t) (startFunc : BitVec 32) : runStack m t startFunc =
    store (store (store (store (store (store (store m
      (ptr (Thread.esp t)) (ptr (st.stackAddr t) - 8#32))
      (ptr (st.stackAddr t) - 8#32) startFunc)
      (ptr (Thread.esp t)) (ptr (st.stackAddr t) - 24#32))
      (ptr (st.stackAddr t) - 24#32) 0)
      (ptr (st.stackAddr t) - 20#32) 0)
      (ptr (st.stackAddr t) - 16#32) 0)
      (ptr (st.stackAddr t) - 12#32) 0 := by
  have e8 : ptr (st.stackAddr t) - 4#32 - 4#32 = ptr (st.stackAddr t) - 8#32 := sub_lit_sub_lit _ 4 4
  have e24 : ptr (st.stackAddr t) - 8#32 - 16#32 = ptr (st.stackAddr t) - 24#32 := sub_lit_sub_lit _ 8 16
  have e20 : ptr (st.stackAddr t) - 24#32 + 4#32 = ptr (st.stackAddr t) - 20#32 :=
    sub_lit_add_lit _ (show 4 ≤ 24 by decide)
  have e16 : ptr (st.stackAddr t) - 24#32 + 8#32 = ptr (st.stackAddr t) - 16#32 :=
    sub_lit_add_lit _ (show 8 ≤ 24 by decide)
  have e12 : ptr (st.stackAddr t) - 24#32 + 12#32 = ptr (st.stackAddr t) - 12#32 :=
    sub_lit_add_lit _ (show 12 ≤ 24 by decide)
  have hpast := load_store_of_apart (m := store m (ptr (Thread.esp t)) (ptr (st.stackAddr t) - 8#32))
    (v := startFunc) (st.esp_apart ht (n := 8) (by decide) (by decide))
  simp only [runStack, load_store_self, hnew.esp, e8, hpast, e24, e20, e16, e12]

theorem runStack_keeps (hnew : Created st m t) (startFunc : BitVec 32) (hu : u ∈ st.threads) (hne : u ≠ t)
    (ha : st.Region u a) : runStack m t startFunc a = m a := by
  have htop (n : ℕ) (hn : 4 ≤ n) (hn' : n ≤ 24) (m : Memory) (v : BitVec 32) :
      store m (ptr (st.stackAddr t) - BitVec.ofNat 32 n) v a = m a :=
    st.store_keeps hu ht hne.symm (st.word_top ht hn hn') ha
  have hesp (m : Memory) (v : BitVec 32) : store m (ptr (Thread.esp t)) v a = m a :=
    st.store_keeps hu ht hne.symm (st.word_esp ht) ha
  rw [runStack_eq ht hnew, htop 12 (by decide) (by decide), htop 16 (by decide) (by decide),
    htop 20 (by decide) (by decide), htop 24 (by decide) (by decide), hesp, htop 8 (by decide) (by decide), hesp]

def startContext (st : Stacks) (t : ℕ) (startFunc : BitVec 32) : Context :=
  ⟨0, 0, 0, 0, ptr (st.stackAddr t) - 4#32, startFunc⟩

theorem runStack_saved (hnew : Created st m t) (startFunc : BitVec 32) :
    Saved st (runStack m t startFunc) t (startContext st t startFunc) ∧
      load (runStack m t startFunc) (ptr (st.stackAddr t) - 4#32) = ptr t := by
  have hroom := st.room t ht
  have h4 := Stacks.top_toNat ht (n := 4) (by decide)
  have e24 : ptr (st.stackAddr t) - 4#32 - 20#32 = ptr (st.stackAddr t) - 24#32 := sub_lit_sub_lit _ 4 20
  have e20 : ptr (st.stackAddr t) - 4#32 - 16#32 = ptr (st.stackAddr t) - 20#32 := sub_lit_sub_lit _ 4 16
  have e16 : ptr (st.stackAddr t) - 4#32 - 12#32 = ptr (st.stackAddr t) - 16#32 := sub_lit_sub_lit _ 4 12
  have e12 : ptr (st.stackAddr t) - 4#32 - 8#32 = ptr (st.stackAddr t) - 12#32 := sub_lit_sub_lit _ 4 8
  have e8 : ptr (st.stackAddr t) - 4#32 - 4#32 = ptr (st.stackAddr t) - 8#32 := sub_lit_sub_lit _ 4 4
  have hsa : (ptr (st.stackAddr t)).toNat = st.stackAddr t := ptr_toNat (st.bound t ht).2.2
  have hpast (m : Memory) (v : BitVec 32) {n n' : ℕ} (hne : n + 4 ≤ n' ∨ n' + 4 ≤ n) (hn : n ≤ 24)
      (hn' : n' ≤ 24) :
      load (store m (ptr (st.stackAddr t) - BitVec.ofNat 32 n') v) (ptr (st.stackAddr t) - BitVec.ofNat 32 n) =
        load m (ptr (st.stackAddr t) - BitVec.ofNat 32 n) :=
    load_store_below hne (by omega) (by omega)
  have hskip (m : Memory) (v : BitVec 32) {n : ℕ} (h4 : 4 ≤ n) (hn : n ≤ 24) :
      load (store m (ptr (Thread.esp t)) v) (ptr (st.stackAddr t) - BitVec.ofNat 32 n) =
        load m (ptr (st.stackAddr t) - BitVec.ofNat 32 n) :=
    load_store_of_apart (st.esp_apart ht h4 hn).symm
  have hesp (m : Memory) (v : BitVec 32) {n : ℕ} (h4 : 4 ≤ n) (hn : n ≤ 24) :
      load (store m (ptr (st.stackAddr t) - BitVec.ofNat 32 n) v) (ptr (Thread.esp t)) =
        load m (ptr (Thread.esp t)) :=
    load_store_of_apart (st.esp_apart ht h4 hn)
  rw [runStack_eq ht hnew]
  refine ⟨⟨?_, ?_, ?_, ?_, ?_, ?_, ?_, ?_⟩, ?_⟩
  · simp only [startContext, h4]
    omega
  · simp only [startContext, h4]
    omega
  · rw [startContext, e24]
    simp (disch := decide) only [hesp, load_store_self]
  · rw [startContext, e24]
    simp (disch := decide) only [hpast, load_store_self]
  · rw [startContext, e20]
    simp (disch := decide) only [hpast, load_store_self]
  · rw [startContext, e16]
    simp (disch := decide) only [hpast, load_store_self]
  · rw [startContext, e12, load_store_self]
  · rw [startContext, e8]
    simp (disch := decide) only [hpast, hskip, load_store_self]
  · simp (disch := decide) only [hpast, hskip]
    exact hnew.top

end Create

/-! ## Runs -/

variable {act : Act} {acts : List Act} {s s' : Core}

theorem Step.keeps (h : Step st act s s') (ht : t ∈ st.threads) (hcur : s.cur ≠ t) (hact : ¬ act.Concerns t) :
    s'.cur ≠ t ∧ ∀ a, st.Own t a → s'.cpu.mem a = s.cpu.mem a := by
  cases h with
  | code _ hmem => exact ⟨hcur, hmem t ht hcur.symm⟩
  | create hu _ =>
    refine ⟨hcur, fun a ha => createStack_keeps hu ht (fun he => hact he.symm) ha.region⟩
  | prepare hu _ hnew =>
    refine ⟨hcur, fun a ha => runStack_keeps hu hnew _ ht (fun he => hact he.symm) ha.region⟩
  | switch hc _ _ hat =>
    exact ⟨hact, fun a ha => hat.keeps hc ht hcur.symm ha.region⟩

theorem Steps.keeps (h : Steps st acts s s') (ht : t ∈ st.threads) (hcur : s.cur ≠ t)
    (hacts : ∀ act ∈ acts, ¬ act.Concerns t) :
    s'.cur ≠ t ∧ ∀ a, st.Own t a → s'.cpu.mem a = s.cpu.mem a := by
  induction h with
  | nil s => exact ⟨hcur, fun _ _ => rfl⟩
  | cons hstep _ ih =>
    obtain ⟨hcur₁, hmem₁⟩ := hstep.keeps ht hcur (hacts _ List.mem_cons_self)
    obtain ⟨hcur₂, hmem₂⟩ := ih hcur₁ fun act hact => hacts act (List.mem_cons_of_mem _ hact)
    exact ⟨hcur₂, fun a ha => (hmem₂ a ha).trans (hmem₁ a ha)⟩

theorem Step.restores (h : Step st (.switch t) s s') (hs : Saved st s.cpu.mem t k) :
    contextOf s'.cpu = k ∧ ∀ a, st.Own t a → s'.cpu.mem a = s.cpu.mem a := by
  cases h with
  | switch hcur ht hne hat =>
    exact ⟨hat.restores hcur ht hne hs, fun a ha => hat.keeps hcur ht hne ha.region⟩

/-- A thread that calls `SwitchReg` goes on, when it is switched back to, in the context
of its call, whatever the other threads do on their stacks in between. A thread that
`KThreadRun` prepared starts at its function with cleared registers. -/
theorem switch_transparent (st : Stacks) :
    (∀ t x acts, ∀ s₁ s₂ s₃ s₄ : Core, s₁.cur = t → Step st (.switch x) s₁ s₂ → Steps st acts s₂ s₃ →
      (∀ act ∈ acts, ¬ act.Concerns t) → Step st (.switch t) s₃ s₄ →
      contextOf s₄.cpu = callerContext s₁.cpu) ∧
    (∀ t startFunc acts, ∀ s₁ s₂ s₃ s₄ : Core, Step st (.prepare t startFunc) s₁ s₂ → Steps st acts s₂ s₃ →
      (∀ act ∈ acts, ¬ act.Concerns t) → Step st (.switch t) s₃ s₄ →
      contextOf s₄.cpu = ⟨0, 0, 0, 0, ptr (st.stackAddr t) - 4#32, startFunc⟩ ∧
        load s₄.cpu.mem (ptr (st.stackAddr t) - 4#32) = ptr t) := by
  refine ⟨fun t x acts s₁ s₂ s₃ s₄ hcur hleave hsteps hacts hback => ?_,
    fun t startFunc acts s₁ s₂ s₃ s₄ hprepare hsteps hacts hback => ?_⟩
  · obtain ⟨hcur₂, ht, hsaved⟩ : s₂.cur ≠ t ∧ t ∈ st.threads ∧
        Saved st s₂.cpu.mem t (callerContext s₁.cpu) := by
      cases hleave with
      | switch hc _ hne hat =>
        subst hcur
        exact ⟨hne, hc, hat.saved hc⟩
    obtain ⟨-, hmem⟩ := hsteps.keeps ht hcur₂ hacts
    exact (hback.restores (hsaved.congr ht hmem)).1
  · obtain ⟨hcur₂, ht, hsaved, htop⟩ : s₂.cur ≠ t ∧ t ∈ st.threads ∧
        Saved st s₂.cpu.mem t (startContext st t startFunc) ∧
        load s₂.cpu.mem (ptr (st.stackAddr t) - 4#32) = ptr t := by
      cases hprepare with
      | prepare ht hne hnew => exact ⟨hne.symm, ht, runStack_saved ht hnew startFunc⟩
    obtain ⟨-, hmem⟩ := hsteps.keeps ht hcur₂ hacts
    obtain ⟨hcontext, hmem'⟩ := hback.restores (hsaved.congr ht hmem)
    have hroom := st.room t ht
    have htoNat := Stacks.top_toNat ht (n := 4) (by decide)
    refine ⟨hcontext, ?_⟩
    rw [load_stack hmem' (by omega) (by omega), load_stack hmem (by omega) (by omega), htop]

def pairStacks : Stacks where
  threads := {0x1000, 0x2000}
  lo t := 0x10 * t
  hi t := 0x10 * t + 0x1000
  stackAddr t := 0x10 * t + 0xfff
  bound := by rintro t (rfl | rfl) <;> decide
  room := by rintro t (rfl | rfl) <;> decide
  stacks_apart := by rintro t (rfl | rfl) u (rfl | rfl) <;> decide
  records_apart := by rintro t (rfl | rfl) u (rfl | rfl) <;> decide
  record_apart := by rintro t (rfl | rfl) u (rfl | rfl) <;> decide

def firstCpu : Cpu where
  reg := fun _ => 7#32
  esp := 0x10f00#32
  eip := 0
  interrupts := true
  mem := createStack (store (store (fun _ => 0) 0x10f04#32 0x100c#32) 0x10f08#32 0x200c#32) 0x2000 0x20fff

def preparedCpu : Cpu := { firstCpu with mem := runStack firstCpu.mem 0x2000 0x5000#32 }

def secondCpu : Cpu :=
  let c := exec switchRegCode preparedCpu
  { c with esp := 0x20f00#32, mem := store (store c.mem 0x20f04#32 0x200c#32) 0x20f08#32 0x100c#32 }

theorem prepare_second :
    Step pairStacks (.prepare 0x2000 0x5000#32) ⟨firstCpu, 0x1000⟩ ⟨preparedCpu, 0x1000⟩ :=
  .prepare (Or.inr rfl) (by decide) (createStack_created (Or.inr rfl) _)

theorem switch_second :
    Step pairStacks (.switch 0x2000) ⟨preparedCpu, 0x1000⟩ ⟨exec switchRegCode preparedCpu, 0x2000⟩ :=
  .switch (Or.inl rfl) (Or.inr rfl) (by decide) ⟨by decide, by decide, by decide, by decide⟩

theorem second_runs : Step pairStacks .code ⟨exec switchRegCode preparedCpu, 0x2000⟩ ⟨secondCpu, 0x2000⟩ := by
  refine .code (Or.inr rfl) fun t ht hne a ha => ?_
  have hkeeps (m : Memory) (p v : BitVec 32) (hlo : 0x20000 ≤ p.toNat) (hhi : p.toNat + 4 ≤ 0x21000) :
      store m p v a = m a :=
    pairStacks.store_keeps ht (Or.inr rfl) hne.symm (pairStacks.word_stack hlo hhi) ha.region
  exact (hkeeps _ _ _ (by decide) (by decide)).trans (hkeeps _ _ _ (by decide) (by decide))

theorem switch_back :
    Step pairStacks (.switch 0x1000) ⟨secondCpu, 0x2000⟩ ⟨exec switchRegCode secondCpu, 0x1000⟩ :=
  .switch (Or.inr rfl) (Or.inl rfl) (by decide) ⟨by decide, by decide, by decide, by decide⟩

theorem switch_transparent_pair :
    contextOf (exec switchRegCode preparedCpu) = ⟨0, 0, 0, 0, 0x20ffb#32, 0x5000#32⟩ ∧
      contextOf (exec switchRegCode secondCpu) = callerContext preparedCpu ∧
      callerContext preparedCpu = ⟨7#32, 7#32, 7#32, 7#32, 0x10f04#32, 0⟩ := by
  obtain ⟨hresume, hstart⟩ := switch_transparent pairStacks
  refine ⟨?_, ?_, by decide⟩
  · exact (hstart 0x2000 0x5000#32 [] _ _ _ _ prepare_second (.nil _) nofun switch_second).1.trans (by decide)
  · refine hresume 0x1000 0x2000 [.code] _ _ _ _ rfl switch_second (.cons second_runs (.nil _)) ?_ switch_back
    simp [Act.Concerns]

end XyOS.Scheduling
