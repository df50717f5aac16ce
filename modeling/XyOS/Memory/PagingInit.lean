import XyOS.Memory.PagingDefs

/-! The directory and the page tables that `PagingInit` leaves in memory. -/

namespace XyOS.Paging
open DirectMapping PageAllocator

/-! ## Entries as words -/

theorem Pde.toWord_lt (e : Pde) : e.toWord < 2 ^ 32 := by
  have h1 := e.access.isLt
  have h2 := e.ignored.isLt
  have h3 := e.ptAddr.isLt
  unfold Pde.toWord
  omega

theorem Pte.toWord_lt (e : Pte) : e.toWord < 2 ^ 32 := by
  have h1 := e.access.isLt
  have h2 := e.ignored.isLt
  have h3 := e.pageAddr.isLt
  unfold Pte.toWord
  omega

@[simp] theorem Pde.ofWord_toWord (e : Pde) : Pde.ofWord e.toWord = e := by
  obtain ⟨a, i, p⟩ := e
  have h1 := a.isLt
  have h2 := i.isLt
  have h3 := p.isLt
  simp only [Pde.ofWord, Pde.toWord, Pde.mk.injEq]
  refine ⟨?_, ?_, ?_⟩ <;> apply BitVec.eq_of_toNat_eq <;> rw [BitVec.toNat_ofNat] <;> omega

@[simp] theorem Pte.ofWord_toWord (e : Pte) : Pte.ofWord e.toWord = e := by
  obtain ⟨a, i, p⟩ := e
  have h1 := a.isLt
  have h2 := i.isLt
  have h3 := p.isLt
  simp only [Pte.ofWord, Pte.toWord, Pte.mk.injEq]
  refine ⟨?_, ?_, ?_⟩ <;> apply BitVec.eq_of_toNat_eq <;> rw [BitVec.toNat_ofNat] <;> omega

theorem toWord_makePde (access : BitVec 8) {address : ℕ} (h : address < 2 ^ 32) :
    (makePde access address).toWord = access.toNat + 2 ^ 12 * (address / 2 ^ 12) := by
  simp only [Pde.toWord, makePde, getPtAddrInPde, BitVec.toNat_ofNat, Nat.shiftRight_eq_div_pow]
  rw [Nat.mod_eq_of_lt (show address / 2 ^ 12 < 2 ^ 20 by omega)]
  rfl

theorem toWord_makePte (access : BitVec 8) {address : ℕ} (h : address < 2 ^ 32) :
    (makePte access address).toWord = access.toNat + 2 ^ 12 * (address / 2 ^ 12) := by
  have ha := access.isLt
  simp only [Pte.toWord, makePte, getPageAddrInPte, BitVec.toNat_ofNat, BitVec.toNat_setWidth,
    Nat.shiftRight_eq_div_pow]
  rw [Nat.mod_eq_of_lt (show address / 2 ^ 12 < 2 ^ 20 by omega),
    Nat.mod_eq_of_lt (show access.toNat < 2 ^ 9 by omega)]
  rfl

/-! ## The loops -/

theorem fillIdentity_eq (pt n : ℕ) (m : Memory) :
    fillIdentity pt n m =
      fillWords pt (fun j => (makePte kKPteWritePresentAccess (j * pageSize)).toWord) n m := by
  induction n with
  | zero => rfl
  | succ n ih => rw [fillIdentity, fillWords, setPte, ih]

theorem fillAbsent_eq (pd i n : ℕ) (access : BitVec 8) (m : Memory) :
    fillAbsent pd i access n m =
      fillWords (pd + 4 * i) (fun _ => (makePde access kPdeAbsentAddr).toWord) n m := by
  induction n with
  | zero => rfl
  | succ n ih =>
    rw [fillAbsent, fillWords, setPde, ih]
    congr 1
    omega

theorem fillPt_eq (pt n : ℕ) (m : Memory) {page : ℕ} (h : page + 0x1000 * n < 2 ^ 32) :
    fillPt pt n (m, page) =
      (fillWords pt (fun j => (makePte kKPteWritePresentAccess (page + 0x1000 * j)).toWord) n m,
        page + 0x1000 * n) := by
  induction n with
  | zero => rfl
  | succ n ih =>
    rw [Nat.mul_add_one, ← Nat.add_assoc] at h
    have hnext : u32 (page + 0x1000 * n + pageSize) = page + 0x1000 * (n + 1) := by
      rw [pageSize, u32_of_lt h, Nat.mul_add_one, Nat.add_assoc]
    rw [fillPt, ih (by omega)]
    simp only [hnext, setPte, fillWords]

def DirectTables (m : Memory) : Prop :=
  ∀ i < 16, ∀ j < 1024, readWord m (0xd000 + 0x1000 * i + 4 * j) = 3 + 0x1000 * (1024 * i + j)

structure KernelTables (m : Memory) : Prop where
  identity : ∀ j < 1024, readWord m (0xc000 + 4 * j) = 3 + 0x1000 * j
  direct : DirectTables m

def initialPde (i : ℕ) : Pde :=
  if i = 0 then makePde kKPdeWritePresentAccess 0xc000
  else if i < 768 then makePde kUPdeWriteAbsentAccess 0
  else if i < 784 then makePde kKPdeWritePresentAccess (0xd000 + 0x1000 * (i - 768))
  else makePde kKPdeWriteAbsentAccess 0

structure Filled (m : Memory) (n : ℕ) (m' : Memory) : Prop where
  pde : ∀ i < n, readWord m' (0x1000 + 4 * (768 + i)) =
    (makePde kKPdeWritePresentAccess (0xd000 + 0x1000 * i)).toWord
  pte : ∀ i < n, ∀ j < 1024, readWord m' (0xd000 + 0x1000 * i + 4 * j) =
    (makePte kKPteWritePresentAccess (0x400000 * i + 0x1000 * j)).toWord
  other : ∀ x, x < 0x1c00 ∨ 0x1c00 + 4 * n ≤ x → x < 0xd000 ∨ 0xd000 + 0x1000 * n ≤ x → m' x = m x

theorem fillDirect_succ {pd n pt page : ℕ} {m m₁ : Memory} (h : fillDirect pd n m = (m₁, pt, page)) :
    fillDirect pd (n + 1) m =
      ((fillPt pt kPteMaxNum (setPde m₁ (pd + 4 * (kUPdeNum + n)) kKPdeWritePresentAccess pt, page)).1,
        u32 (pt + kPtMaxSize),
        (fillPt pt kPteMaxNum (setPde m₁ (pd + 4 * (kUPdeNum + n)) kKPdeWritePresentAccess pt, page)).2) := by
  rw [fillDirect, h]

theorem fillDirect_spec (m : Memory) (n : ℕ) (hn : n ≤ 16) :
    ∃ m', fillDirect 0x1000 n m = (m', 0xd000 + 0x1000 * n, 0x400000 * n) ∧ Filled m n m' := by
  induction n with
  | zero =>
    have hpt : directMappingPhysAddr kKPtAddr = 0xd000 := by decide
    refine ⟨m, ?_, ⟨fun i hi => ?_, fun i hi => ?_, fun _ _ _ => rfl⟩⟩
    · change (m, directMappingPhysAddr kKPtAddr, 0) = _
      rw [hpt]
    · omega
    · omega
  | succ n ih =>
    obtain ⟨m₁, hrun, h₁⟩ := ih (by omega)
    set m₂ := setPde m₁ (0x1000 + 4 * (768 + n)) kKPdeWritePresentAccess (0xd000 + 0x1000 * n) with hm₂
    set m₃ := fillWords (0xd000 + 0x1000 * n)
      (fun j => (makePte kKPteWritePresentAccess (0x400000 * n + 0x1000 * j)).toWord) 1024 m₂ with hm₃
    have hm₂' : ∀ x, x < 0x1000 + 4 * (768 + n) ∨ 0x1000 + 4 * (768 + n) + 4 ≤ x → m₂ x = m₁ x :=
      fun x hx => writeWord_of_lt_or_gt hx
    have hm₃' : ∀ x, x < 0xd000 + 0x1000 * n ∨ 0xd000 + 0x1000 * n + 4 * 1024 ≤ x → m₃ x = m₂ x :=
      fun x hx => fillWords_of_outside hx
    refine ⟨m₃, ?_, ⟨?_, ?_, ?_⟩⟩
    · have hpt : u32 (0xd000 + 0x1000 * n + kPtMaxSize) = 0xd000 + 0x1000 * (n + 1) := by
        rw [kPtMaxSize, u32_of_lt (by omega), Nat.mul_add_one, Nat.add_assoc]
      have hround := fillDirect_succ hrun
      rw [kUPdeNum, kPteMaxNum, ← hm₂, fillPt_eq _ _ _ (by omega), ← hm₃, hpt] at hround
      rw [hround]
      simp only [Prod.mk.injEq, true_and]
      omega
    · intro i hi
      rw [readWord_congr fun x _ _ => hm₃' x (by omega)]
      by_cases hin : i = n
      · rw [hin, hm₂, setPde, readWord_writeWord (Pde.toWord_lt _)]
      · rw [readWord_congr fun x _ _ => hm₂' x (by omega)]
        exact h₁.pde i (by omega)
    · intro i hi j hj
      by_cases hin : i = n
      · rw [hin, hm₃, readWord_fillWords hj (Pte.toWord_lt _)]
      · rw [readWord_congr fun x _ _ => hm₃' x (by omega), readWord_congr fun x _ _ => hm₂' x (by omega)]
        exact h₁.pte i (by omega) j hj
    · intro x h1 h2
      rw [hm₃' x (by omega), hm₂' x (by omega)]
      exact h₁.other x (by omega) (by omega)

theorem kernelTables_spec (m : Memory) :
    KernelTables (kernelTables m) ∧
      (∀ i < 1024, readWord (kernelTables m) (0x1000 + 4 * i) = (initialPde i).toWord) ∧
      ∀ x, x < 0x1000 ∨ 0x2000 ≤ x → x < 0xc000 ∨ 0x1d000 ≤ x → kernelTables m x = m x := by
  set m₁ := setPde m 0x1000 kKPdeWritePresentAccess 0xc000 with hm₁
  set m₂ := fillWords 0xc000 (fun j => (makePte kKPteWritePresentAccess (j * pageSize)).toWord) 1024 m₁
    with hm₂
  set m₃ := fillWords 0x1004 (fun _ => (makePde kUPdeWriteAbsentAccess 0).toWord) 767 m₂ with hm₃
  obtain ⟨m₄, hrun, h₄⟩ := fillDirect_spec m₃ 16 le_rfl
  set m₅ := fillWords 0x1c40 (fun _ => (makePde kKPdeWriteAbsentAccess 0).toWord) 240 m₄ with hm₅
  have heq : kernelTables m = m₅ := by
    have hpd : directMappingPhysAddr kKPdAddr = 0x1000 := by decide
    have hpt : directMappingPhysAddr (sub32 kKPtAddr kPtMaxSize) = 0xc000 := by decide
    simp only [kernelTables, hpd, hpt, ← hm₁, kPteMaxNum, fillIdentity_eq, ← hm₂, fillAbsent_eq, kUPdeNum,
      kKPdeDirectMappingNum, kPdeNum, kPdeAbsentAddr]
    rw [show (0x1000 + 4 * 1 : ℕ) = 0x1004 from rfl, show (768 - 1 : ℕ) = 767 from rfl, ← hm₃, hrun]
  have k₁ : ∀ x, x < 0x1000 ∨ 0x1004 ≤ x → m₁ x = m x := fun x hx => writeWord_of_lt_or_gt hx
  have k₂ : ∀ x, x < 0xc000 ∨ 0xd000 ≤ x → m₂ x = m₁ x := fun x hx => fillWords_of_outside hx
  have k₃ : ∀ x, x < 0x1004 ∨ 0x1c00 ≤ x → m₃ x = m₂ x := fun x hx => fillWords_of_outside hx
  have k₄ : ∀ x, x < 0x1c00 ∨ 0x1c40 ≤ x → x < 0xd000 ∨ 0x1d000 ≤ x → m₄ x = m₃ x := h₄.other
  have k₅ : ∀ x, x < 0x1c40 ∨ 0x2000 ≤ x → m₅ x = m₄ x := fun x hx => fillWords_of_outside hx
  rw [heq]
  refine ⟨⟨fun j hj => ?_, fun i hi j hj => ?_⟩, fun i hi => ?_, fun x h1 h2 => ?_⟩
  · rw [readWord_congr fun x _ _ => k₅ x (by omega), readWord_congr fun x _ _ => k₄ x (by omega) (by omega),
      readWord_congr fun x _ _ => k₃ x (by omega), hm₂, readWord_fillWords hj (Pte.toWord_lt _),
      toWord_makePte _ (by simp only [pageSize]; omega), Nat.mul_comm j, pageSize,
      show (2 ^ 12 : ℕ) = 0x1000 from rfl, Nat.mul_div_cancel_left _ (by decide)]
    rfl
  · have hpage : (0x400000 * i + 0x1000 * j) / 2 ^ 12 = 0x400 * i + j := by omega
    rw [readWord_congr fun x _ _ => k₅ x (by omega), h₄.pte i hi j hj, toWord_makePte _ (by omega), hpage]
    rfl
  · have hlow : i < 784 → readWord m₅ (0x1000 + 4 * i) = readWord m₄ (0x1000 + 4 * i) := fun _ =>
      readWord_congr fun x _ _ => k₅ x (by omega)
    have huser : i < 768 → readWord m₄ (0x1000 + 4 * i) = readWord m₃ (0x1000 + 4 * i) := fun _ =>
      readWord_congr fun x _ _ => k₄ x (by omega) (by omega)
    unfold initialPde
    by_cases h0 : i = 0
    · subst h0
      rw [if_pos rfl, hlow (by omega), huser (by omega), readWord_congr fun x _ _ => k₃ x (by omega),
        readWord_congr fun x _ _ => k₂ x (by omega), hm₁, setPde]
      exact readWord_writeWord (Pde.toWord_lt _)
    rw [if_neg h0]
    by_cases hu : i < 768
    · rw [if_pos hu, hlow (by omega), huser hu, hm₃, show 0x1000 + 4 * i = 0x1004 + 4 * (i - 1) by omega,
        readWord_fillWords_const (by omega) (Pde.toWord_lt _)]
    rw [if_neg hu]
    by_cases hd : i < 784
    · have hpde := h₄.pde (i - 768) (by omega)
      rw [show 768 + (i - 768) = i by omega] at hpde
      rw [if_pos hd, hlow hd, hpde]
    · rw [if_neg hd, hm₅, show 0x1000 + 4 * i = 0x1c40 + 4 * (i - 784) by omega,
        readWord_fillWords_const (by omega) (Pde.toWord_lt _)]
  · rw [k₅ x (by omega), k₄ x (by omega) (by omega), k₃ x (by omega), k₂ x (by omega), k₁ x (by omega)]

/-! ## The walk -/

theorem walk_eq (m : Memory) (pd v : ℕ) :
    walk m pd v =
      if readWord m (pd + 4 * (v / 2 ^ 22)) % 2 = 1 then
        let pte := readWord m (readWord m (pd + 4 * (v / 2 ^ 22)) / 2 ^ 12 * 2 ^ 12 + 4 * (v / 2 ^ 12 % 1024))
        if pte % 2 = 1 then some (pte / 2 ^ 12 * 2 ^ 12 + v % 0x1000) else none
      else none := by
  simp only [walk, Nat.shiftRight_eq_div_pow, Nat.shiftLeft_eq]

theorem word_present (n : ℕ) : (3 + 0x1000 * n) % 2 = 1 := by omega

theorem word_frame (n : ℕ) : (3 + 0x1000 * n) / 2 ^ 12 * 2 ^ 12 = 0x1000 * n := by omega

theorem DirectTables.walk {m : Memory} (h : DirectTables m) {pd v : ℕ} (hlow : 0xc0000000 ≤ v)
    (hhigh : v < 0xc4000000)
    (hpde : readWord m (pd + 4 * (v / 2 ^ 22)) = 3 + 0x1000 * (0xd + (v / 2 ^ 22 - 768))) :
    walk m pd v = some (v - 0xc0000000) := by
  have hframe : (3 + 0x1000 * (0xd + (v / 2 ^ 22 - 768))) / 2 ^ 12 * 2 ^ 12 =
      0xd000 + 0x1000 * (v / 2 ^ 22 - 768) := by omega
  have hpte := h (v / 2 ^ 22 - 768) (by omega) (v / 2 ^ 12 % 1024) (by omega)
  have hparts : v - 0xc0000000 =
      0x1000 * (1024 * (v / 2 ^ 22 - 768) + v / 2 ^ 12 % 1024) + v % 0x1000 := by omega
  rw [walk_eq, hpde, if_pos (word_present _), hframe, hpte]
  simp only
  rw [if_pos (word_present _), word_frame, hparts]

theorem KernelTables.walk_identity {m : Memory} (h : KernelTables m) {pd v : ℕ} (hv : v < 0x400000)
    (hpde : readWord m pd = 0xc003) : walk m pd v = some v := by
  have hi : v / 2 ^ 22 = 0 := by omega
  have hpte := h.identity (v / 2 ^ 12 % 1024) (by omega)
  rw [walk_eq, hi, Nat.mul_zero, Nat.add_zero, hpde, if_pos (by decide),
    show 0xc003 / 2 ^ 12 * 2 ^ 12 = 0xc000 from rfl, hpte]
  simp only
  rw [if_pos (by omega), Option.some.injEq]
  omega

theorem walk_absent {m : Memory} {pd v : ℕ} (h : readWord m (pd + 4 * (v / 2 ^ 22)) % 2 = 0) :
    walk m pd v = none := by
  rw [walk_eq, if_neg (by omega)]

theorem initialPde_direct {i : ℕ} (h1 : 768 ≤ i) (h2 : i < 784) :
    (initialPde i).toWord = 3 + 0x1000 * (0xd + (i - 768)) := by
  rw [initialPde, if_neg (by omega), if_neg (by omega), if_pos h2, toWord_makePde _ (by omega)]
  change 3 + 2 ^ 12 * ((0xd000 + 0x1000 * (i - 768)) / 2 ^ 12) = _
  omega

theorem initialPde_absent {i : ℕ} (h1 : 0 < i) (h2 : i < 768 ∨ 784 ≤ i) :
    (initialPde i).toWord % 2 = 0 := by
  rw [initialPde, if_neg (by omega)]
  by_cases hu : i < 768
  · rw [if_pos hu]
    decide
  · rw [if_neg hu, if_neg (by omega)]
    decide

/-- `PagingInit` returns whenever `PageAllocatorInit` does. Its tables map the
first 4 MB to themselves, the direct mapping area to physical memory and nothing
else; every entry keeps what was written to it, and no other byte changes. -/
theorem pagingInit_walk (m : Memory) :
    ∃ m', (∀ avlMem pageState, pagingInit avlMem m pageState =
        (pageAllocatorInit avlMem pageState).map fun b => (m', b, 0x1000)) ∧
      (∀ v < 2 ^ 32, walk m' 0x1000 v =
        if v < 0x400000 then some v
        else if 0xc0000000 ≤ v ∧ v < 0xc4000000 then some (directMappingPhysAddr v)
        else none) ∧
      (∀ i < 1024, getPde m' (0x1000 + 4 * i) = initialPde i) ∧ KernelTables m' ∧
      ∀ x, x < 0x1000 ∨ 0x2000 ≤ x → x < 0xc000 ∨ 0x1d000 ≤ x → m' x = m x := by
  obtain ⟨htables, hpd, hother⟩ := kernelTables_spec m
  refine ⟨kernelTables m, fun avlMem b => ?_, fun v hv => ?_, fun i hi => ?_, htables, hother⟩
  · rw [pagingInit]
    cases pageAllocatorInit avlMem b with
    | error e => rfl
    | ok b => rfl
  · have hword := hpd (v / 2 ^ 22) (by omega)
    by_cases hid : v < 0x400000
    · rw [if_pos hid]
      refine htables.walk_identity hid ?_
      have h0 := hpd 0 (by omega)
      rw [Nat.mul_zero, Nat.add_zero] at h0
      rw [h0]
      decide
    rw [if_neg hid]
    by_cases hdir : 0xc0000000 ≤ v ∧ v < 0xc4000000
    · have hphys : directMappingPhysAddr v = v - 0xc0000000 := sub32_of_le hdir.1 hv
      rw [if_pos hdir, hphys]
      refine htables.direct.walk hdir.1 hdir.2 ?_
      rw [hword, initialPde_direct (by omega) (by omega)]
    · rw [if_neg hdir]
      refine walk_absent ?_
      rw [hword]
      exact initialPde_absent (by omega) (by omega)
  · rw [getPde, hpd i hi, Pde.ofWord_toWord]

end XyOS.Paging
