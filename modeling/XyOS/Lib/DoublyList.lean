import XyOS.Foundation.Linked
import XyOS.Foundation.Runs

/-! The doubly linked lists of `list.h` refine families of lists. -/

namespace XyOS
open Linked Runs

structure DoublyLinks where
  prev : ℕ → ℕ
  next : ℕ → ℕ

def doublyList (s : DoublyLinks) (head : ℕ) : DoublyLinks where
  prev := Function.update s.prev head head
  next := Function.update s.next head head

def doublyListAdd (s : DoublyLinks) (prev newNode : ℕ) : DoublyLinks :=
  let next := s.next prev
  { prev := Function.update (Function.update s.prev newNode prev) next newNode
    next := Function.update (Function.update s.next prev newNode) newNode next }

def doublyListRemove (s : DoublyLinks) (node : ℕ) : DoublyLinks :=
  let next := Function.update s.next (s.prev node) (s.next node)
  let prev := Function.update s.prev (next node) (s.prev node)
  { prev := Function.update prev node 0
    next := Function.update next node 0 }

def isDoublyListEmpty (s : DoublyLinks) (head : ℕ) : Bool := s.next head == head

inductive DoublyOp
  | list (head : ℕ)
  | add (prev newNode : ℕ)
  | remove (node : ℕ)
  | isEmpty (head : ℕ)
  | destruct (head : ℕ)

def doublyStep (s : DoublyLinks) : DoublyOp → Option Bool × DoublyLinks
  | .list head => (none, doublyList s head)
  | .add prev newNode => (none, doublyListAdd s prev newNode)
  | .remove node => (none, doublyListRemove s node)
  | .isEmpty head => (some (isDoublyListEmpty s head), s)
  | .destruct _ => (none, s)

/-! ## Families of lists -/

structure Rings where
  heads : List ℕ
  elems : ℕ → List ℕ
  out : List ℕ

def addBehind (prev newNode : ℕ) : List ℕ → List ℕ
  | [] => []
  | x :: l => if x = prev then x :: newNode :: l else x :: addBehind prev newNode l

def Rings.Outside (r : Rings) (x : ℕ) : Prop := ∀ h ∈ r.heads, x ∉ h :: r.elems h

def ringsStep (r : Rings) : DoublyOp → Option Bool × Rings
  | .list head =>
    (none, ⟨head :: r.heads, Function.update r.elems head [], r.out.filter (· ≠ head)⟩)
  | .add prev newNode =>
    (none, ⟨r.heads, fun h => (addBehind prev newNode (h :: r.elems h)).tail, r.out.filter (· ≠ newNode)⟩)
  | .remove node => (none, ⟨r.heads, fun h => (r.elems h).erase node, node :: r.out⟩)
  | .isEmpty head => (some (r.elems head).isEmpty, r)
  | .destruct head => (none, { r with heads := r.heads.filter (· ≠ head) })

/-- How the comments of `list.h` want the lists to be used: nodes are added that are in no list,
behind a node that is in one, and a head is never removed. -/
def Usable (r : Rings) : DoublyOp → Prop
  | .list head => r.Outside head
  | .add prev newNode => r.Outside newNode ∧ ∃ h ∈ r.heads, prev ∈ h :: r.elems h
  | .remove node => ∃ h ∈ r.heads, node ∈ r.elems h
  | .isEmpty head => head ∈ r.heads
  | .destruct head => head ∈ r.heads ∧ r.elems head = []

/-- Forwards the links spell the lists, backwards the reversed lists, and the links of removed nodes
are `NULL`. -/
structure HoldsRings (s : DoublyLinks) (r : Rings) : Prop where
  next : Family s.next {h | h ∈ r.heads} id id r.elems
  prev : Family s.prev {h | h ∈ r.heads} id id fun h => (r.elems h).reverse
  out : ∀ x ∈ r.out, s.prev x = 0 ∧ s.next x = 0 ∧ r.Outside x

variable {s : DoublyLinks} {r : Rings} {h x d p n head node prev newNode : ℕ} {l xs ys : List ℕ}

/-! ## Lists -/

theorem addBehind_of_notMem (hx : p ∉ l) : addBehind p n l = l := by
  induction l with
  | nil => rfl
  | cons x l ih =>
    rw [List.mem_cons, not_or] at hx
    rw [addBehind, if_neg (Ne.symm hx.1), ih hx.2]

theorem exists_addBehind (hp : p ∈ h :: l) : ∃ xs ys, l = xs ++ ys ∧ lastFrom h xs = p ∧
    (addBehind p n (h :: l)).tail = xs ++ n :: ys := by
  induction l generalizing h with
  | nil =>
    obtain rfl := List.mem_singleton.mp hp
    exact ⟨[], [], rfl, rfl, by rw [addBehind, if_pos rfl]; rfl⟩
  | cons x l ih =>
    by_cases hph : h = p
    · exact ⟨[], x :: l, rfl, hph, by rw [addBehind, if_pos hph]; rfl⟩
    · obtain ⟨xs, ys, hl, hlast, htail⟩ := ih ((List.mem_cons.mp hp).resolve_left (Ne.symm hph))
      refine ⟨x :: xs, ys, by rw [hl]; rfl, hlast, ?_⟩
      rw [addBehind, if_neg hph, List.tail_cons, List.cons_append, ← htail, addBehind]
      split <;> rfl

/-! ## One list of the family -/

theorem HoldsRings.next_eq (hr : HoldsRings s r) (hh : h ∈ r.heads) (hl : r.elems h = xs ++ ys) :
    s.next (lastFrom h xs) = ys.headD h := by
  have hseg := hr.next.seg h hh
  rw [hl] at hseg
  exact hseg.next_lastFrom

theorem HoldsRings.prev_eq (hr : HoldsRings s r) (hh : h ∈ r.heads) (hl : r.elems h = xs ++ ys) :
    s.prev (ys.headD h) = lastFrom h xs := by
  have hseg := hr.prev.seg h hh
  simp only [id, hl, List.reverse_append] at hseg
  rw [← lastFrom_reverse, hseg.next_lastFrom, ← lastFrom_reverse, List.reverse_reverse]

theorem Rings.Outside.reverse (hx : r.Outside x) :
    Loose {h | h ∈ r.heads} id (fun h => (r.elems h).reverse) x := by
  intro h hh hmem
  rw [List.mem_cons, List.mem_reverse, ← List.mem_cons] at hmem
  exact hx h hh hmem

theorem HoldsRings.unique (hr : HoldsRings s r) {g : ℕ} (hh : h ∈ r.heads) (hg : g ∈ r.heads)
    (hx : x ∈ h :: r.elems h) (hx' : x ∈ g :: r.elems g) : h = g := hr.next.apart h hh g hg x hx hx'

theorem Rings.Outside.ne (hx : r.Outside x) (hh : h ∈ r.heads) (hp : p ∈ h :: r.elems h) : x ≠ p := by
  rintro rfl
  exact hx h hh hp

theorem headD_mem (hl : r.elems h = xs ++ ys) : ys.headD h ∈ h :: r.elems h := by
  have hmem := lastFrom_mem h ys.reverse
  rw [lastFrom_reverse, List.mem_cons, List.mem_reverse] at hmem
  rw [hl, List.mem_cons, List.mem_append]
  tauto

/-! ## Adding -/

theorem doublyListAdd_of_ne (hn : x ≠ n) (hp : x ≠ p) (hnext : x ≠ s.next p) :
    (doublyListAdd s p n).prev x = s.prev x ∧ (doublyListAdd s p n).next x = s.next x := by
  simp only [doublyListAdd]
  rw [Function.update_of_ne hnext, Function.update_of_ne hn, Function.update_of_ne hn, Function.update_of_ne hp]
  exact ⟨rfl, rfl⟩

theorem elems_add (hr : HoldsRings s r) (hh : h ∈ r.heads) (hp : p ∈ h :: r.elems h)
    (htail : (addBehind p n (h :: r.elems h)).tail = xs) {g : ℕ} (hg : g ∈ r.heads) :
    (addBehind p n (g :: r.elems g)).tail = Function.update r.elems h xs g := by
  by_cases hgh : g = h
  · rw [hgh, htail, Function.update_self]
  · rw [Function.update_of_ne hgh, addBehind_of_notMem fun hmem => hgh (hr.unique hg hh hmem hp), List.tail_cons]

theorem HoldsRings.next_add (hr : HoldsRings s r) (hn : r.Outside n) (hh : h ∈ r.heads) (hl : r.elems h = xs ++ ys) :
    Family (doublyListAdd s (lastFrom h xs) n).next {h | h ∈ r.heads} id id
      (Function.update r.elems h (xs ++ n :: ys)) := hr.next.insert hh hl hn

theorem HoldsRings.prev_add (hr : HoldsRings s r) (hn : r.Outside n) (hh : h ∈ r.heads) (hl : r.elems h = xs ++ ys) :
    Family (doublyListAdd s (lastFrom h xs) n).prev {h | h ∈ r.heads} id id
      (fun g => (Function.update r.elems h (xs ++ n :: ys) g).reverse) := by
  have hrev : (r.elems h).reverse = ys.reverse ++ xs.reverse := by rw [hl, List.reverse_append]
  have hfamily := hr.prev.insert (i := h) hh hrev hn.reverse
  have hlinks : insertAfter s.prev (lastFrom h ys.reverse) n = (doublyListAdd s (lastFrom h xs) n).prev := by
    have hne : ys.headD h ≠ n := (hn.ne hh (headD_mem hl)).symm
    rw [lastFrom_reverse, insertAfter, hr.prev_eq hh hl, doublyListAdd, hr.next_eq hh hl,
      Function.update_comm hne]
  rw [← hlinks]
  refine hfamily.congr_on (fun _ _ => rfl) (fun _ _ => rfl) fun g _ => ?_
  by_cases hgh : g = h
  · rw [hgh, Function.update_self, Function.update_self, List.reverse_append, List.reverse_cons,
      List.append_assoc, List.singleton_append]
  · rw [Function.update_of_ne hgh, Function.update_of_ne hgh]

theorem HoldsRings.add (hr : HoldsRings s r) (hn : r.Outside n) (hh : h ∈ r.heads) (hp : p ∈ h :: r.elems h) :
    HoldsRings (doublyListAdd s p n) (ringsStep r (.add p n)).2 := by
  obtain ⟨xs, ys, hl, rfl, htail⟩ := exists_addBehind (n := n) hp
  have helems : ∀ g ∈ r.heads, (addBehind (lastFrom h xs) n (g :: r.elems g)).tail =
      Function.update r.elems h (xs ++ n :: ys) g := fun g hg => elems_add hr hh hp htail hg
  refine ⟨?_, ?_, fun x hx => ?_⟩
  · exact (hr.next_add hn hh hl).congr_on (fun _ _ => rfl) (fun _ _ => rfl) helems
  · exact (hr.prev_add hn hh hl).congr_on (fun _ _ => rfl) (fun _ _ => rfl) fun g hg =>
      congrArg List.reverse (helems g hg)
  · obtain ⟨hx, hxn⟩ := List.mem_filter.mp hx
    have hxn : x ≠ n := of_decide_eq_true hxn
    obtain ⟨hprev, hnext, houtside⟩ := hr.out x hx
    have hxq : x ≠ s.next (lastFrom h xs) := by
      rw [hr.next_eq hh hl]
      exact houtside.ne hh (headD_mem hl)
    have hsame := doublyListAdd_of_ne hxn (houtside.ne hh hp) hxq
    refine ⟨hsame.1.trans hprev, hsame.2.trans hnext, fun g hg hmem => ?_⟩
    change x ∈ g :: (addBehind (lastFrom h xs) n (g :: r.elems g)).tail at hmem
    rw [helems g hg] at hmem
    exact (Loose.add houtside hl hxn) g hg hmem

/-! ## Removing -/

theorem doublyListRemove_of_ne (hd : x ≠ d) (hprev : x ≠ s.prev d) (hnext : x ≠ s.next d) (hne : d ≠ s.prev d) :
    (doublyListRemove s d).prev x = s.prev x ∧ (doublyListRemove s d).next x = s.next x := by
  simp only [doublyListRemove]
  rw [Function.update_of_ne hne, Function.update_of_ne hd, Function.update_of_ne hnext, Function.update_of_ne hd,
    Function.update_of_ne hprev]
  exact ⟨rfl, rfl⟩

theorem HoldsRings.neighbours (hr : HoldsRings s r) (hh : h ∈ r.heads) (hl : r.elems h = xs ++ d :: ys) :
    s.prev d = lastFrom h xs ∧ s.next d = ys.headD h ∧ s.prev (ys.headD h) = d ∧ d ≠ lastFrom h xs := by
  have hl' : r.elems h = (xs ++ [d]) ++ ys := by rw [hl, List.append_assoc, List.singleton_append]
  have hnext := hr.next_eq hh hl'
  have hprev := hr.prev_eq hh hl'
  rw [lastFrom_append_singleton] at hnext hprev
  refine ⟨hr.prev_eq hh hl, hnext, hprev, fun he => ?_⟩
  have hnodup := hr.next.nodup h hh
  rw [hl, id, ← List.cons_append] at hnodup
  exact (List.nodup_append.mp hnodup).2.2 _ (lastFrom_mem h xs) d List.mem_cons_self he.symm

theorem HoldsRings.next_remove (hr : HoldsRings s r) (hh : h ∈ r.heads) (hl : r.elems h = xs ++ d :: ys) :
    removeAfter 0 s.next (lastFrom h xs) = (doublyListRemove s d).next := by
  have hd : s.next (lastFrom h xs) = d := hr.next_eq hh hl
  rw [removeAfter, hd, doublyListRemove, ← hr.prev_eq hh hl, List.headD_cons]

theorem HoldsRings.prev_remove (hr : HoldsRings s r) (hh : h ∈ r.heads) (hl : r.elems h = xs ++ d :: ys) :
    removeAfter 0 s.prev (lastFrom h ys.reverse) = (doublyListRemove s d).prev := by
  obtain ⟨hprev, hnext, hback, hne⟩ := hr.neighbours hh hl
  rw [← hprev] at hne
  rw [lastFrom_reverse, removeAfter, hback, doublyListRemove, Function.update_of_ne hne, hnext]

theorem elems_remove (hr : HoldsRings s r) (hh : h ∈ r.heads) (hl : r.elems h = xs ++ d :: ys) {g : ℕ}
    (hg : g ∈ r.heads) : (r.elems g).erase d = Function.update r.elems h (xs ++ ys) g := by
  have hd : d ∈ h :: r.elems h := by simp [hl]
  by_cases hgh : g = h
  · have hnodup := (List.nodup_cons.mp (hr.next.nodup h hh)).2
    rw [hl] at hnodup
    have hxs : d ∉ xs := fun hmem => (List.nodup_append.mp hnodup).2.2 d hmem d List.mem_cons_self rfl
    rw [hgh, hl, Function.update_self, List.erase_append_right _ hxs, List.erase_cons_head]
  · rw [Function.update_of_ne hgh]
    exact List.erase_of_not_mem fun hmem => hgh (hr.unique hg hh (List.mem_cons_of_mem g hmem) hd)

theorem HoldsRings.remove (hr : HoldsRings s r) (hh : h ∈ r.heads) (hd : d ∈ r.elems h) :
    HoldsRings (doublyListRemove s d) (ringsStep r (.remove d)).2 := by
  obtain ⟨xs, ys, hl⟩ := List.append_of_mem hd
  have helems : ∀ g ∈ r.heads, (r.elems g).erase d = Function.update r.elems h (xs ++ ys) g :=
    fun g hg => elems_remove hr hh hl hg
  have hrev : (r.elems h).reverse = ys.reverse ++ d :: xs.reverse := by
    rw [hl, List.reverse_append, List.reverse_cons, List.append_assoc, List.singleton_append]
  obtain ⟨hnext, hloose⟩ := hr.next.erase 0 hh hl
  obtain ⟨hprev, -⟩ := hr.prev.erase 0 (i := h) hh hrev
  rw [show lastFrom (id h) xs = lastFrom h xs from rfl, hr.next_remove hh hl] at hnext
  rw [show lastFrom (id h) ys.reverse = lastFrom h ys.reverse from rfl, hr.prev_remove hh hl] at hprev
  refine ⟨?_, ?_, fun x hx => ?_⟩
  · exact hnext.congr_on (fun _ _ => rfl) (fun _ _ => rfl) helems
  · refine hprev.congr_on (fun _ _ => rfl) (fun _ _ => rfl) fun g hg => ?_
    change ((r.elems g).erase d).reverse = _
    rw [helems g hg]
    by_cases hgh : g = h
    · rw [hgh, Function.update_self, Function.update_self, List.reverse_append]
    · rw [Function.update_of_ne hgh, Function.update_of_ne hgh]
  · have houtside : ∀ y, Loose {h | h ∈ r.heads} id (Function.update r.elems h (xs ++ ys)) y →
        (ringsStep r (.remove d)).2.Outside y := by
      intro y hy g hg hmem
      change y ∈ g :: (r.elems g).erase d at hmem
      rw [helems g hg] at hmem
      exact hy g hg hmem
    rcases List.mem_cons.mp hx with rfl | hx
    · exact ⟨Function.update_self .., Function.update_self .., houtside x hloose⟩
    · obtain ⟨hprev₀, hnext₀, hout⟩ := hr.out x hx
      obtain ⟨hd₁, hd₂, -, hne⟩ := hr.neighbours hh hl
      have hsame : (doublyListRemove s d).prev x = s.prev x ∧ (doublyListRemove s d).next x = s.next x := by
        refine doublyListRemove_of_ne (hout.ne hh (List.mem_cons_of_mem h hd)) ?_ ?_ (hd₁ ▸ hne)
        · rw [hd₁]
          refine hout.ne hh ?_
          rw [hl]
          exact lastFrom_mem_append h xs _
        · rw [hd₂]
          have hl' : r.elems h = (xs ++ [d]) ++ ys := by rw [hl, List.append_assoc, List.singleton_append]
          exact hout.ne hh (headD_mem hl')
      exact ⟨hsame.1.trans hprev₀, hsame.2.trans hnext₀, houtside x (Loose.drop hout hl)⟩

/-! ## Runs -/

theorem HoldsRings.list (hr : HoldsRings s r) (hh : r.Outside h) :
    HoldsRings (doublyList s h) (ringsStep r (.list h)).2 := by
  have hnew : h ∉ r.heads := fun hmem => hh h hmem List.mem_cons_self
  have helems : ∀ g ∈ r.heads, Function.update r.elems h [] g = r.elems g := fun g hg =>
    Function.update_of_ne (by rintro rfl; exact hnew hg) ..
  have hheads : {g | g ∈ h :: r.heads} = {h} ∪ {g | g ∈ r.heads} := by
    ext g
    simp
  have hloose : Loose {g | g ∈ r.heads} id (Function.update r.elems h []) h := by
    intro g hg hmem
    rw [helems g hg] at hmem
    exact hh g hg hmem
  have hnext := hr.next.congr_on (fun _ _ => rfl) (fun _ _ => rfl) helems
  have hprev := hr.prev.congr_on (fun _ _ => rfl) (fun _ _ => rfl) fun g hg => congrArg List.reverse (helems g hg)
  refine ⟨?_, ?_, fun x hx => ?_⟩
  · change Family _ {g | g ∈ h :: r.heads} id id (Function.update r.elems h [])
    rw [hheads]
    exact hnext.grow hnew hloose (Function.update_self ..)
  · change Family _ {g | g ∈ h :: r.heads} id id fun g => (Function.update r.elems h [] g).reverse
    rw [hheads]
    refine hprev.grow hnew (fun g hg hmem => hloose g hg ?_) ?_
    · rwa [List.mem_cons, List.mem_reverse, ← List.mem_cons] at hmem
    · rw [Function.update_self]
      rfl
  · obtain ⟨hx, hxh⟩ := List.mem_filter.mp hx
    have hxh : x ≠ h := of_decide_eq_true hxh
    obtain ⟨hprev₀, hnext₀, hout⟩ := hr.out x hx
    refine ⟨(Function.update_of_ne hxh ..).trans hprev₀, (Function.update_of_ne hxh ..).trans hnext₀, ?_⟩
    intro g hg hmem
    change x ∈ g :: Function.update r.elems h [] g at hmem
    rcases List.mem_cons.mp hg with rfl | hg
    · rw [Function.update_self] at hmem
      exact hxh (List.mem_singleton.mp hmem)
    · rw [helems g hg] at hmem
      exact hout g hg hmem

theorem HoldsRings.destruct (hr : HoldsRings s r) : HoldsRings s (ringsStep r (.destruct h)).2 := by
  have hsub : ∀ g ∈ r.heads.filter (· ≠ h), g ∈ r.heads := fun g hg => (List.mem_filter.mp hg).1
  refine ⟨hr.next.mono hsub, hr.prev.mono hsub, fun x hx => ?_⟩
  obtain ⟨hprev, hnext, hout⟩ := hr.out x hx
  exact ⟨hprev, hnext, fun g hg => hout g (hsub g hg)⟩

theorem HoldsRings.isEmpty (hr : HoldsRings s r) (hh : h ∈ r.heads) :
    isDoublyListEmpty s h = (r.elems h).isEmpty := by
  have hnodup := hr.next.nodup h hh
  cases hl : r.elems h with
  | nil =>
    have hsplit : r.elems h = [] ++ [] := hl
    have hnext : s.next h = h := hr.next_eq hh hsplit
    rw [isDoublyListEmpty, hnext, beq_self_eq_true]
    rfl
  | cons y ys =>
    have hsplit : r.elems h = [] ++ y :: ys := hl
    have hnext : s.next h = y := hr.next_eq hh hsplit
    rw [hl] at hnodup
    have hne : y ≠ h := fun he => (List.nodup_cons.mp hnodup).1 (he ▸ List.mem_cons_self)
    rw [isDoublyListEmpty, hnext]
    exact beq_eq_false_iff_ne.mpr hne

theorem HoldsRings.mirror (hr : HoldsRings s r) (hh : h ∈ r.heads) (hx : x ∈ h :: r.elems h) :
    s.prev (s.next x) = x ∧ s.next (s.prev x) = x := by
  constructor
  · obtain ⟨xs, ys, hl, rfl, -⟩ := exists_addBehind (n := x) hx
    rw [hr.next_eq hh hl, hr.prev_eq hh hl]
  · rcases List.mem_cons.mp hx with rfl | hx
    · have hl : r.elems x = r.elems x ++ [] := (List.append_nil _).symm
      have hprev := hr.prev_eq hh hl
      rw [List.headD_nil] at hprev
      rw [hprev, hr.next_eq hh hl, List.headD_nil]
    · obtain ⟨xs, ys, hl⟩ := List.append_of_mem hx
      have hprev := hr.prev_eq hh hl
      rw [List.headD_cons] at hprev
      rw [hprev, hr.next_eq hh hl, List.headD_cons]

theorem doublyStep_refines (hr : HoldsRings s r) {op : DoublyOp} (hop : Usable r op) :
    (doublyStep s op).1 = (ringsStep r op).1 ∧ HoldsRings (doublyStep s op).2 (ringsStep r op).2 := by
  cases op with
  | list head => exact ⟨rfl, hr.list hop⟩
  | add prev newNode =>
    obtain ⟨hnew, h, hh, hp⟩ := hop
    exact ⟨rfl, hr.add hnew hh hp⟩
  | remove node =>
    obtain ⟨h, hh, hd⟩ := hop
    exact ⟨rfl, hr.remove hh hd⟩
  | isEmpty head => exact ⟨congrArg some (hr.isEmpty hop), hr⟩
  | destruct head => exact ⟨rfl, hr.destruct⟩

def Rings.empty : Rings := ⟨[], fun _ => [], []⟩

theorem holdsRings_empty (s : DoublyLinks) : HoldsRings s .empty := by
  refine ⟨⟨?_, ?_, ?_⟩, ⟨?_, ?_, ?_⟩, fun x hx => absurd hx List.not_mem_nil⟩ <;>
    exact fun i hi => absurd hi List.not_mem_nil

/-- Whatever the memory held before, every run of usable calls answers as the lists do and leaves
links that spell them in both directions, each the inverse of the other. -/
theorem doublyLists_refine_lists (s : DoublyLinks) {ops : List DoublyOp}
    (hops : Along (advance ringsStep) Usable .empty ops) :
    (answers doublyStep s ops).1 = (answers ringsStep .empty ops).1 ∧
      HoldsRings (answers doublyStep s ops).2 (answers ringsStep .empty ops).2 ∧
      ∀ h ∈ (answers ringsStep .empty ops).2.heads, ∀ x ∈ h :: (answers ringsStep .empty ops).2.elems h,
        (answers doublyStep s ops).2.prev ((answers doublyStep s ops).2.next x) = x ∧
          (answers doublyStep s ops).2.next ((answers doublyStep s ops).2.prev x) = x := by
  have hrun : (answers doublyStep s ops).1 = (answers ringsStep .empty ops).1 ∧
      HoldsRings (answers doublyStep s ops).2 (answers ringsStep .empty ops).2 := by
    refine answers_refine (R := HoldsRings) ?_ (holdsRings_empty s) hops
    intro s r op hr hop
    exact doublyStep_refines hr hop
  obtain ⟨hans, hrings⟩ := hrun
  exact ⟨hans, hrings, fun h hh x hx => hrings.mirror hh hx⟩

theorem doublyLists_refine_lists_two : HoldsRings
    (answers doublyStep ⟨fun _ => 0, fun _ => 0⟩ [.list 8, .add 8 16, .add 16 24, .remove 16]).2
    (answers ringsStep .empty [.list 8, .add 8 16, .add 16 24, .remove 16]).2 := by
  refine (doublyLists_refine_lists _ ?_).2.1
  refine (along_cons rfl).mpr ⟨fun h hh => absurd hh List.not_mem_nil, ?_⟩
  refine (along_cons rfl).mpr ⟨⟨fun h hh => ?_, 8, by decide, by decide⟩, ?_⟩
  · obtain rfl := List.mem_singleton.mp hh
    decide
  refine (along_cons rfl).mpr ⟨⟨fun h hh => ?_, 8, by decide, by decide⟩, ?_⟩
  · obtain rfl := List.mem_singleton.mp hh
    decide
  exact (along_cons rfl).mpr ⟨⟨8, by decide, by decide⟩, trivial⟩

end XyOS
