import Mathlib.Data.List.Pairwise
import Mathlib.Data.List.TakeWhile
import XyOS.Foundation.Runs
import XyOS.Process.KernelDefs

/-! The lists that link `Pcb`s, the free ones and the sons of every process, and
what `CreateProc` does to them. -/

namespace XyOS.Process
open Linked Runs DirectMapping Paging

inductive ProcList
  | free
  | sons (p : ℕ)
deriving DecidableEq

def procHead (freeProcList : ℕ) : ProcList → ℕ
  | .free => freeProcList
  | .sons p => Pcb.left p

def procStop (freeProcList : ℕ) : ProcList → ℕ
  | .free => freeProcList
  | .sons _ => 0

def procNodes (free : List ℕ) (sons : ℕ → List ℕ) : ProcList → List ℕ
  | .free => free.map Pcb.node
  | .sons p => (sons p).map Pcb.right

def procSlots (procs : List ℕ) : Set ProcList := {i | i = .free ∨ ∃ p ∈ procs, i = .sons p}

def Apart (x y : ℕ) : Prop := x + pcbBytes ≤ y ∨ y + pcbBytes ≤ x

instance : Std.Symm Apart := ⟨fun _ _ => Or.symm⟩

structure ProcLists (heap : ℕ → ℕ) (freeProcList : ℕ) (procs free : List ℕ) (sons : ℕ → List ℕ) : Prop where
  lists : Family heap (procSlots procs) (procHead freeProcList) (procStop freeProcList) (procNodes free sons)
  apart : (procs ++ free).Pairwise Apart
  bound : ∀ x ∈ procs ++ free, 0 < x ∧ x + pcbBytes ≤ 2 ^ 32
  head : ∀ x ∈ procs ++ free, freeProcList < x ∨ x + pcbBytes ≤ freeProcList
  sons_mem : ∀ p ∈ procs, ∀ x ∈ sons p, x ∈ procs
  unlinked : ∀ x ∈ free, heap (Pcb.left x) = 0 ∧ heap (Pcb.right x) = 0

variable {heap : ℕ → ℕ} {freeProcList father x : ℕ} {procs free rest : List ℕ} {sons : ℕ → List ℕ}

theorem procNodes_cons : procNodes (x :: rest) sons .free = [] ++ Pcb.node x :: rest.map Pcb.node := rfl

theorem ProcLists.apart_of_ne (h : ProcLists heap freeProcList procs free sons) {y : ℕ}
    (hx : x ∈ procs ++ free) (hy : y ∈ procs ++ free) (hne : x ≠ y) : x + 48 ≤ y ∨ y + 48 ≤ x :=
  h.apart.forall hx hy hne

theorem mem_procNodes {z : ℕ} (hsons : ∀ p ∈ procs, ∀ x ∈ sons p, x ∈ procs)
    (hz : ¬ Loose (procSlots procs) (procHead freeProcList) (procNodes free sons) z) :
    z = freeProcList ∨ (∃ y ∈ free, z = y + 40) ∨ ∃ y ∈ procs, z = y + 32 ∨ z = y + 36 := by
  simp only [Loose, not_forall, not_not] at hz
  obtain ⟨i, rfl | ⟨p, hp, rfl⟩, hz⟩ := hz
  · rcases List.mem_cons.mp hz with he | hz
    · exact Or.inl he
    · obtain ⟨y, hy, he⟩ := List.mem_map.mp hz
      exact Or.inr (Or.inl ⟨y, hy, he.symm⟩)
  · rcases List.mem_cons.mp hz with he | hz
    · exact Or.inr (Or.inr ⟨p, hp, Or.inl he⟩)
    · obtain ⟨y, hy, he⟩ := List.mem_map.mp hz
      exact Or.inr (Or.inr ⟨y, hsons p hp y hy, Or.inr he.symm⟩)

theorem ProcLists.congr {heap' : ℕ → ℕ} (h : ProcLists heap freeProcList procs free sons)
    (hhead : heap' freeProcList = heap freeProcList)
    (he : ∀ y ∈ procs ++ free, ∀ o, o = 32 ∨ o = 36 ∨ o = 40 → heap' (y + o) = heap (y + o)) :
    ProcLists heap' freeProcList procs free sons := by
  refine ⟨h.lists.congr fun z hz => ?_, h.apart, h.bound, h.head, h.sons_mem, fun x hx => ?_⟩
  · rcases mem_procNodes h.sons_mem hz with rfl | ⟨y, hy, rfl⟩ | ⟨y, hy, rfl | rfl⟩
    · exact hhead
    · exact he y (List.mem_append_right procs hy) 40 (by omega)
    · exact he y (List.mem_append_left free hy) 32 (by omega)
    · exact he y (List.mem_append_left free hy) 36 (by omega)
  · have hx' : x ∈ procs ++ free := List.mem_append_right procs hx
    rw [Pcb.left, Pcb.right, he x hx' 32 (by omega), he x hx' 36 (by omega)]
    exact h.unlinked x hx

def lastSon (sons : ℕ → List ℕ) (father : ℕ) : ℕ := lastFrom (Pcb.left father) ((sons father).map Pcb.right)

theorem lastSon_mem (h : ProcLists heap freeProcList procs free sons) (hf : father ∈ procs) :
    ∃ y ∈ procs, lastSon sons father = y + 32 ∨ lastSon sons father = y + 36 := by
  rcases List.mem_cons.mp (lastFrom_mem (Pcb.left father) ((sons father).map Pcb.right)) with he | hm
  · exact ⟨father, hf, Or.inl he⟩
  · obtain ⟨y, hy, he⟩ := List.mem_map.mp hm
    exact ⟨y, h.sons_mem father hf y hy, Or.inr he.symm⟩

/-! ## The links of a new process -/

def openedHeap (heap : ℕ → ℕ) (x a father : ℕ) : ℕ → ℕ :=
  Function.update (openPcb heap x a) (Pcb.father x) father

theorem openPcb_of_ne {a z : ℕ} (h : z ≠ x + 4) (h8 : z ≠ x + 8) (h44 : z ≠ x + 44) :
    openPcb heap x a z = heap z := by
  simp only [openPcb, Pcb.pageDir, Pcb.threadList, Pcb.state]
  rw [Function.update_of_ne h, Function.update_of_ne h44, Function.update_of_ne h8]

theorem openedHeap_of_ne {a z : ℕ} (h : z ≠ x + 4) (h8 : z ≠ x + 8) (h28 : z ≠ x + 28) (h44 : z ≠ x + 44) :
    openedHeap heap x a father z = heap z := by
  rw [openedHeap, Pcb.father, Function.update_of_ne h28, openPcb_of_ne h h8 h44]

theorem sharePcb_of_ne {z : ℕ} (h12 : z ≠ x + 12) (h16 : z ≠ x + 16) (h20 : z ≠ x + 20) (h24 : z ≠ x + 24)
    (h40 : z ≠ x + 40) : sharePcb heap x father z = heap z := by
  simp only [sharePcb, Pcb.dataSize, Pcb.dataAddr, Pcb.codeSize, Pcb.codeAddr, Pcb.node]
  rw [Function.update_of_ne h24, Function.update_of_ne h20, Function.update_of_ne h16,
    Function.update_of_ne h12, Function.update_of_ne h40]

def createdHeap (heap : ℕ → ℕ) (freeProcList x a father last : ℕ) : ℕ → ℕ :=
  sharePcb (Function.update (openedHeap (removeAfter 0 heap freeProcList) x a father) last (Pcb.right x))
    x father

section Create
variable {a : ℕ} (h : ProcLists heap freeProcList procs (x :: rest) sons)
include h

theorem ProcLists.new_notMem : x ∉ procs := fun hx => by
  have hpair := h.apart
  rw [List.pairwise_append] at hpair
  have : x + 48 ≤ x ∨ x + 48 ≤ x := hpair.2.2 x hx x List.mem_cons_self
  omega

theorem ProcLists.new_notMem_rest : x ∉ rest := fun hx => by
  have hpair := h.apart
  rw [List.pairwise_append, List.pairwise_cons] at hpair
  have : x + 48 ≤ x ∨ x + 48 ≤ x := hpair.2.1.1 x hx
  omega

theorem ProcLists.new_apart {y : ℕ} (hy : y ∈ procs ++ rest) : x + 48 ≤ y ∨ y + 48 ≤ x := by
  refine h.apart_of_ne (by simp) ?_ ?_
  · rcases List.mem_append.mp hy with hy | hy <;> simp [hy]
  · rintro rfl
    rcases List.mem_append.mp hy with hy | hy
    · exact h.new_notMem hy
    · exact h.new_notMem_rest hy

theorem ProcLists.next_head : heap freeProcList = Pcb.node x :=
  h.lists.next_last (Or.inl rfl) procNodes_cons

theorem ProcLists.not_empty : isListEmpty heap freeProcList = false := by
  have hhead : freeProcList < x ∨ x + 48 ≤ freeProcList := h.head x (by simp)
  rw [isListEmpty, h.next_head, Pcb.node, beq_eq_false_iff_ne]
  omega

theorem ProcLists.link_outside {z : ℕ}
    (hz : ¬ Loose (procSlots procs) (procHead freeProcList) (procNodes rest (Function.update sons x [])) z) :
    z < x ∨ x + 48 ≤ z := by
  have hsons : ∀ p ∈ procs, ∀ y ∈ Function.update sons x [] p, y ∈ procs := by
    intro p hp y hy
    rw [Function.update_of_ne fun he : p = x => h.new_notMem (he ▸ hp)] at hy
    exact h.sons_mem p hp y hy
  rcases mem_procNodes hsons hz with hz | ⟨y, hy, hz⟩ | ⟨y, hy, hz⟩
  · have : freeProcList < x ∨ x + 48 ≤ freeProcList := h.head x (by simp)
    omega
  · have := h.new_apart (List.mem_append_right procs hy)
    omega
  · have := h.new_apart (List.mem_append_left rest hy)
    omega

theorem ProcLists.opened_link {o : ℕ} (ho : o = 32 ∨ o = 36) :
    openedHeap (removeAfter 0 heap freeProcList) x a father (x + o) = 0 := by
  have hhead : freeProcList < x ∨ x + 48 ≤ freeProcList := h.head x (by simp)
  have hunlinked := h.unlinked x List.mem_cons_self
  rw [openedHeap_of_ne (by omega) (by omega) (by omega) (by omega), removeAfter_of_ne (by omega)]
  · rcases ho with rfl | rfl
    · exact hunlinked.1
    · exact hunlinked.2
  · rw [h.next_head, Pcb.node]
    omega

theorem ProcLists.opened (a father : ℕ) : Family (openedHeap (removeAfter 0 heap freeProcList) x a father)
    (procSlots (x :: procs)) (procHead freeProcList) (procStop freeProcList)
    (procNodes rest (Function.update sons x [])) := by
  obtain ⟨herase, -⟩ := h.lists.erase 0 (Or.inl rfl) procNodes_cons
  have hsons : Family (removeAfter 0 heap freeProcList) (procSlots procs) (procHead freeProcList)
      (procStop freeProcList) (procNodes rest (Function.update sons x [])) := by
    refine herase.congr_on (fun _ _ => rfl) (fun _ _ => rfl) ?_
    rintro i (rfl | ⟨p, hp, rfl⟩)
    · rfl
    · have hne : p ≠ x := fun he => h.new_notMem (he ▸ hp)
      simp only [procNodes, Function.update_of_ne hne, ne_eq, reduceCtorEq, not_false_eq_true,
        Function.update_of_ne]
  have hopen : Family (openedHeap (removeAfter 0 heap freeProcList) x a father) (procSlots procs)
      (procHead freeProcList) (procStop freeProcList) (procNodes rest (Function.update sons x [])) := by
    refine hsons.congr fun z hz => ?_
    have := h.link_outside hz
    exact openedHeap_of_ne (by omega) (by omega) (by omega) (by omega)
  have hgrow := hopen.grow (i := .sons x) ?_ ?_ ?_
  · have hself : Function.update (openedHeap (removeAfter 0 heap freeProcList) x a father)
        (procHead freeProcList (.sons x)) (procStop freeProcList (.sons x)) =
        openedHeap (removeAfter 0 heap freeProcList) x a father :=
      Function.update_eq_self_iff.mpr (h.opened_link (Or.inl rfl)).symm
    rw [hself] at hgrow
    refine hgrow.mono ?_
    rintro i (rfl | ⟨p, hp, rfl⟩)
    · exact Or.inr (Or.inl rfl)
    · rcases List.mem_cons.mp hp with rfl | hp
      · exact Or.inl rfl
      · exact Or.inr (Or.inr ⟨p, hp, rfl⟩)
  · rintro (he | ⟨p, hp, he⟩)
    · exact ProcList.noConfusion he
    · exact h.new_notMem (ProcList.sons.inj he ▸ hp)
  · by_contra hz
    have := h.link_outside hz
    simp only [procHead, Pcb.left] at this
    omega
  · simp [procNodes]

theorem ProcLists.opened_outside {z : ℕ} (hz : ¬ Loose (procSlots (x :: procs)) (procHead freeProcList)
    (procNodes rest (Function.update sons x [])) z) : z = x + 32 ∨ z < x ∨ x + 48 ≤ z := by
  simp only [Loose, not_forall, not_not] at hz
  obtain ⟨i, hi, hz⟩ := hz
  by_cases hix : i = .sons x
  · rw [hix] at hz
    simp only [procHead, procNodes, Function.update_self, List.map_nil, List.mem_singleton] at hz
    exact Or.inl hz
  · refine Or.inr (h.link_outside fun hl => hl i ?_ hz)
    rcases hi with rfl | ⟨p, hp, rfl⟩
    · exact Or.inl rfl
    · rcases List.mem_cons.mp hp with rfl | hp
      · exact absurd rfl hix
      · exact Or.inr ⟨p, hp, rfl⟩

theorem ProcLists.linked (hf : father ∈ procs) :
    Family (createdHeap heap freeProcList x a father (lastSon sons father)) (procSlots (x :: procs))
      (procHead freeProcList) (procStop freeProcList)
      (procNodes rest (Function.update (Function.update sons x []) father (sons father ++ [x]))) := by
  have hne : father ≠ x := fun he => h.new_notMem (he ▸ hf)
  have hlist : procNodes rest (Function.update sons x []) (.sons father) =
      (sons father).map Pcb.right ++ [] := by
    simp [procNodes, hne]
  have hloose : Loose (procSlots (x :: procs)) (procHead freeProcList)
      (procNodes rest (Function.update sons x [])) (Pcb.right x) := by
    by_contra hz
    have := h.opened_outside hz
    simp only [Pcb.right] at this
    omega
  have hins := (h.opened a father).insert
    (Or.inr ⟨father, List.mem_cons_of_mem x hf, rfl⟩) hlist hloose
  have hend : openedHeap (removeAfter 0 heap freeProcList) x a father (lastSon sons father) = 0 := by
    have hseg := (h.opened a father).seg (.sons father)
      (Or.inr ⟨father, List.mem_cons_of_mem x hf, rfl⟩)
    rw [hlist, List.append_nil] at hseg
    exact hseg.next_end
  obtain ⟨y, hy, hlast⟩ := lastSon_mem h hf
  have hapart := h.new_apart (List.mem_append_left rest hy)
  -- the new link already is `NULL`, so `AddSon` writes one link only
  have hadd : insertAfter (openedHeap (removeAfter 0 heap freeProcList) x a father) (lastSon sons father)
      (Pcb.right x) = Function.update (openedHeap (removeAfter 0 heap freeProcList) x a father)
        (lastSon sons father) (Pcb.right x) := by
    rw [insertAfter, hend]
    refine Function.update_eq_self_iff.mpr ?_
    rw [Function.update_of_ne (by simp only [Pcb.right]; omega)]
    exact (h.opened_link (Or.inr rfl)).symm
  have hlast' : lastFrom (procHead freeProcList (.sons father)) ((sons father).map Pcb.right) =
      lastSon sons father := rfl
  rw [hlast', hadd] at hins
  refine (hins.congr fun z hz => ?_).congr_on (fun _ _ => rfl) (fun _ _ => rfl) ?_
  · have hz' : z = x + 36 ∨ z = x + 32 ∨ z < x ∨ x + 48 ≤ z := by
      by_cases hzx : z = x + 36
      · exact Or.inl hzx
      · refine Or.inr (h.opened_outside fun hl => hz ?_)
        exact hl.add hlist hzx
    exact sharePcb_of_ne (by omega) (by omega) (by omega) (by omega) (by omega)
  · rintro i (rfl | ⟨p, hp, rfl⟩)
    · rfl
    · by_cases hpf : p = father
      · rw [hpf]
        simp [procNodes]
      · have hne' : ProcList.sons p ≠ .sons father := fun he => hpf (ProcList.sons.inj he)
        rw [Function.update_of_ne hne']
        simp only [procNodes, Function.update_of_ne hpf]

theorem ProcLists.created_of_outside {z : ℕ} (hz : z < x ∨ x + 48 ≤ z)
    (hhead : z ≠ freeProcList) (hlast : z ≠ lastSon sons father) :
    createdHeap heap freeProcList x a father (lastSon sons father) z = heap z := by
  rw [createdHeap, sharePcb_of_ne (by omega) (by omega) (by omega) (by omega) (by omega),
    Function.update_of_ne hlast, openedHeap_of_ne (by omega) (by omega) (by omega) (by omega),
    removeAfter_of_ne hhead]
  rw [h.next_head, Pcb.node]
  omega

theorem ProcLists.created_other (hf : father ∈ procs) {z : ℕ} (hz : z ≠ freeProcList)
    (hrecords : ∀ y ∈ x :: procs, z < y ∨ y + 48 ≤ z) :
    createdHeap heap freeProcList x a father (lastSon sons father) z = heap z := by
  refine h.created_of_outside (hrecords x List.mem_cons_self) hz ?_
  obtain ⟨y, hy, hlast⟩ := lastSon_mem h hf
  have := hrecords y (List.mem_cons_of_mem x hy)
  omega

theorem ProcLists.created_pageDir (hf : father ∈ procs) :
    createdHeap heap freeProcList x a father (lastSon sons father) (Pcb.pageDir x) = a := by
  obtain ⟨y, hy, hlast⟩ := lastSon_mem h hf
  have hapart := h.new_apart (List.mem_append_left rest hy)
  rw [createdHeap, Pcb.pageDir, sharePcb_of_ne (by omega) (by omega) (by omega) (by omega) (by omega),
    Function.update_of_ne (by omega), openedHeap, Pcb.father, Function.update_of_ne (by omega), openPcb,
    Pcb.pageDir, Function.update_self]

theorem ProcLists.created_field (hf : father ∈ procs) {y o : ℕ} (hy : y ∈ procs ++ rest) (ho : o < 48)
    (hlink : y ∈ procs → o ≠ 32 ∧ o ≠ 36) :
    createdHeap heap freeProcList x a father (lastSon sons father) (y + o) = heap (y + o) := by
  have hapart := h.new_apart hy
  have hmem : y ∈ procs ++ x :: rest := by
    rcases List.mem_append.mp hy with hy | hy <;> simp [hy]
  have hhead : freeProcList < y ∨ y + 48 ≤ freeProcList := h.head y hmem
  refine h.created_of_outside (by omega) (by omega) ?_
  obtain ⟨y', hy', hlast⟩ := lastSon_mem h hf
  by_cases hyy : y = y'
  · have := hlink (hyy ▸ hy')
    omega
  · have := h.apart_of_ne hmem (List.mem_append_left _ hy') hyy
    omega

theorem ProcLists.created (hf : father ∈ procs) :
    ProcLists (createdHeap heap freeProcList x a father (lastSon sons father)) freeProcList (x :: procs) rest
      (Function.update (Function.update sons x []) father (sons father ++ [x])) := by
  have hperm : (procs ++ x :: rest).Perm (x :: procs ++ rest) := List.perm_middle
  refine ⟨h.linked hf, h.apart.perm hperm Or.symm, fun y hy => h.bound y (hperm.mem_iff.mpr hy),
    fun y hy => h.head y (hperm.mem_iff.mpr hy), fun p hp y hy => ?_, fun y hy => ?_⟩
  · by_cases hpf : p = father
    · rw [hpf, Function.update_self, List.mem_append, List.mem_singleton] at hy
      rcases hy with hy | rfl
      · exact List.mem_cons_of_mem x (h.sons_mem father hf y hy)
      · exact List.mem_cons_self
    · rw [Function.update_of_ne hpf] at hy
      by_cases hpx : p = x
      · simp [hpx] at hy
      · rw [Function.update_of_ne hpx] at hy
        rcases List.mem_cons.mp hp with hp | hp
        · exact absurd hp hpx
        · exact List.mem_cons_of_mem x (h.sons_mem p hp y hy)
  · have hy' : y ∈ procs ++ rest := List.mem_append_right procs hy
    have hyp : y ∉ procs := fun hp => by
      have hpair := h.apart
      rw [List.pairwise_append] at hpair
      have : y + 48 ≤ y ∨ y + 48 ≤ y := hpair.2.2 y hp y (List.mem_cons_of_mem x hy)
      omega
    rw [Pcb.left, Pcb.right, h.created_field hf hy' (by omega) fun hp => absurd hp hyp,
      h.created_field hf hy' (by omega) fun hp => absurd hp hyp]
    exact h.unlinked y (List.mem_cons_of_mem x hy)

theorem ProcLists.length_sons_lt (hf : father ∈ procs) :
    ((sons father).map Pcb.right).length < loopFuel := by
  refine length_lt_of_nodup (h.lists.nodup (.sons father) (Or.inr ⟨father, hf, rfl⟩)) fun z hz => ?_
  have hbound : ∀ y ∈ procs, y + 48 ≤ 2 ^ 32 := fun y hy => (h.bound y (List.mem_append_left _ hy)).2
  rw [loopFuel]
  rcases List.mem_cons.mp hz with rfl | hz
  · have := hbound father hf
    simp only [procHead, Pcb.left]
    omega
  · obtain ⟨y, hy, rfl⟩ := List.mem_map.mp hz
    have := hbound y (h.sons_mem father hf y hy)
    simp only [Pcb.right]
    omega

end Create

variable {k : Kernel} {a : ℕ} {alloc : Allocator}

theorem ProcLists.empty (h : ProcLists heap freeProcList procs [] sons) :
    isListEmpty heap freeProcList = true :=
  beq_iff_eq.mpr (h.lists.seg .free (Or.inl rfl))

theorem ProcLists.createProc_full (h : ProcLists k.heap k.freeProcList procs [] sons) :
    createProc k father = .ok (0, k) := by
  rw [createProc, h.empty, if_pos rfl]

theorem createProc_fst {k' : Kernel} {pcb : ℕ} (hempty : isListEmpty k.heap k.freeProcList = false)
    (h : createProc k father = .ok (pcb, k')) :
    pcb = sub32 (k.heap k.freeProcList) (Pcb.node 0) := by
  rw [createProc, hempty, if_neg Bool.false_ne_true] at h
  obtain ⟨r, -, h⟩ := of_bind_ok h
  obtain ⟨k₁, -, h⟩ := of_bind_ok h
  exact (Prod.mk.inj (Except.ok.inj h)).1.symm

theorem createProc_eq {chain : List ℕ} (hhead : k.heap k.freeProcList = Pcb.node x) (hx : x + pcbBytes ≤ 2 ^ 32)
    (hne : Pcb.node x ≠ k.freeProcList) (hreq : reqBytes k.alloc kPdSize = .ok (a, alloc))
    (hchain : Seg (openedHeap (removeAfter 0 k.heap k.freeProcList) x a father) (Pcb.left father) chain 0)
    (hlen : chain.length < loopFuel) (hzero : ∀ n ∈ chain, n ≠ 0) :
    createProc k father = .ok (x, { k with
      heap := createdHeap k.heap k.freeProcList x a father (lastFrom (Pcb.left father) chain)
      alloc := alloc
      mem := uPdClone k.mem (physical a)
        (physical (openPcb (removeAfter 0 k.heap k.freeProcList) x a (Pcb.pageDir father))) }) := by
  simp only [pcbBytes] at hx
  have hnew : sub32 (Pcb.node x) (Pcb.node 0) = x := by
    rw [Pcb.node, Pcb.node, sub32_of_le (by omega) (by omega)]
    omega
  have hempty : isListEmpty k.heap k.freeProcList = false := by
    rw [isListEmpty, hhead, beq_eq_false_iff_ne]
    exact hne
  have hwalk : Linked.walk (openedHeap (removeAfter 0 k.heap k.freeProcList) x a father)
      (fun n => !(n == 0)) loopFuel (Pcb.left father) = some (lastFrom (Pcb.left father) chain) := by
    rw [walk_seg _ hchain (by decide) hlen, List.takeWhile_eq_self_iff.mpr]
    intro z hz
    simpa using hzero z hz
  have hadd (k' : Kernel) (hk' : k'.heap = openedHeap (removeAfter 0 k.heap k.freeProcList) x a father) :
      addSon k' (Pcb.right x) (Pcb.left father) =
        .ok (k'.store (lastFrom (Pcb.left father) chain) (Pcb.right x)) := by
    have hfollow : k'.follow (fun n => n == 0) (Pcb.left father) =
        .ok (lastFrom (Pcb.left father) chain) := by
      rw [Kernel.follow, hk', hwalk]
    rw [addSon, hfollow]
    rfl
  rw [createProc, hempty, if_neg Bool.false_ne_true]
  refine (bind_ok hreq _).trans ?_
  simp only [listRemove, hhead, hnew]
  refine (bind_ok (hadd _ rfl) _).trans ?_
  rfl

theorem ProcLists.createProc (h : ProcLists k.heap k.freeProcList procs (x :: rest) sons)
    (hf : father ∈ procs) (hreq : reqBytes k.alloc kPdSize = .ok (a, alloc)) :
    createProc k father = .ok (x, { k with
      heap := createdHeap k.heap k.freeProcList x a father (lastSon sons father)
      alloc := alloc
      mem := uPdClone k.mem (physical a) (physical (k.heap (Pcb.pageDir father))) }) := by
  have hhead := h.head x (by simp)
  simp only [pcbBytes] at hhead
  have hdir : openPcb (removeAfter 0 k.heap k.freeProcList) x a (Pcb.pageDir father) =
      k.heap (Pcb.pageDir father) := by
    have hapart := h.new_apart (List.mem_append_left rest hf)
    have hhead : k.freeProcList < father ∨ father + 48 ≤ k.freeProcList :=
      h.head father (List.mem_append_left _ hf)
    rw [Pcb.pageDir, openPcb_of_ne (by omega) (by omega) (by omega), removeAfter_of_ne (by omega)]
    rw [h.next_head, Pcb.node]
    omega
  have hne : father ≠ x := fun he => h.new_notMem (he ▸ hf)
  have hseg := (h.opened a father).seg (.sons father) (Or.inr ⟨father, List.mem_cons_of_mem x hf, rfl⟩)
  simp only [procHead, procStop, procNodes, Function.update_of_ne hne] at hseg
  rw [createProc_eq h.next_head (h.bound x (by simp)).2 (by simp only [Pcb.node]; omega) hreq hseg
    (h.length_sons_lt hf) ?_, hdir]
  · rfl
  · intro z hz
    obtain ⟨y, -, rfl⟩ := List.mem_map.mp hz
    simp [Pcb.right]

end XyOS.Process
