import Mathlib.Algebra.BigOperators.Group.Finset.Piecewise
import Mathlib.Data.List.Nodup
import Mathlib.Data.Set.Insert
import Mathlib.Logic.Function.Basic

/-! Singly linked lists threaded through a link function, and families of such
lists that share no node. A ring is a list whose end marker is its own head. -/

namespace XyOS.Linked
variable {α ι : Type*}

/-- Following `next` from `p` visits `ns` in order and then arrives at `q`. -/
def Seg (next : α → α) : α → List α → α → Prop
  | p, [], q => next p = q
  | p, n :: ns, q => next p = n ∧ Seg next n ns q

def lastFrom : α → List α → α
  | p, [] => p
  | _, x :: xs => lastFrom x xs

@[simp] theorem lastFrom_nil (p : α) : lastFrom p [] = p := rfl

@[simp] theorem lastFrom_cons (p x : α) (xs : List α) : lastFrom p (x :: xs) = lastFrom x xs := rfl

theorem lastFrom_mem (p : α) (xs : List α) : lastFrom p xs ∈ p :: xs := by
  induction xs generalizing p with
  | nil => simp
  | cons x xs ih => exact List.mem_cons_of_mem _ (ih x)

theorem lastFrom_append_singleton (p x : α) (xs : List α) : lastFrom p (xs ++ [x]) = x := by
  induction xs generalizing p with
  | nil => rfl
  | cons y xs ih => exact ih y

theorem lastFrom_reverse (p : α) (xs : List α) : lastFrom p xs.reverse = xs.headD p := by
  cases xs with
  | nil => rfl
  | cons x xs => rw [List.reverse_cons, lastFrom_append_singleton, List.headD_cons]

theorem lastFrom_mem_append (p : α) (xs ys : List α) : lastFrom p xs ∈ p :: (xs ++ ys) := by
  rcases List.mem_cons.mp (lastFrom_mem p xs) with e | e
  · simp [e]
  · simp [e]

@[simp] theorem seg_nil {next : α → α} {p q : α} : Seg next p [] q ↔ next p = q := Iff.rfl

@[simp] theorem seg_cons {next : α → α} {p n q : α} {ns : List α} :
    Seg next p (n :: ns) q ↔ next p = n ∧ Seg next n ns q := Iff.rfl

theorem Seg.congr {next next' : α → α} {p q : α} {ns : List α}
    (h : Seg next p ns q) (he : ∀ x ∈ p :: ns, next' x = next x) : Seg next' p ns q := by
  induction ns generalizing p with
  | nil => exact (he p (List.mem_cons_self ..)).trans h
  | cons n ns ih =>
    refine ⟨(he p (List.mem_cons_self ..)).trans h.1, ih h.2 fun x hx => ?_⟩
    exact he x (List.mem_cons_of_mem _ hx)

theorem Seg.next_last {next : α → α} {p n q : α} {xs ys : List α}
    (h : Seg next p (xs ++ n :: ys) q) : next (lastFrom p xs) = n := by
  induction xs generalizing p with
  | nil => exact h.1
  | cons x xs ih =>
    exact ih h.2

theorem Seg.next_end {next : α → α} {p q : α} {xs : List α}
    (h : Seg next p xs q) : next (lastFrom p xs) = q := by
  induction xs generalizing p with
  | nil => exact h
  | cons x xs ih =>
    exact ih h.2

theorem Seg.next_headD {next : α → α} {p b q : α} {xs ys : List α} (h : Seg next p (xs ++ b :: ys) q) :
    next b = ys.headD q := by
  induction xs generalizing p with
  | nil =>
    cases ys with
    | nil => exact h.2
    | cons y ys => exact h.2.1
  | cons x xs ih => exact ih h.2

theorem Seg.next_lastFrom {next : α → α} {p q : α} {xs ys : List α} (h : Seg next p (xs ++ ys) q) :
    next (lastFrom p xs) = ys.headD q := by
  cases ys with
  | nil =>
    rw [List.append_nil] at h
    exact h.next_end
  | cons y ys => exact h.next_last

theorem Seg.before {next : α → α} {p n q : α} {xs ys : List α} (h : Seg next p (xs ++ n :: ys) q) :
    Seg next p xs n := by
  induction xs generalizing p with
  | nil => exact h.1
  | cons x xs ih => exact ⟨h.1, ih h.2⟩

theorem Seg.snoc {next : α → α} {p q r : α} {ns : List α} (h : Seg next p ns q) (hq : next q = r) :
    Seg next p (ns ++ [q]) r := by
  induction ns generalizing p with
  | nil => exact ⟨h, hq⟩
  | cons n ns ih => exact ⟨h.1, ih h.2⟩

theorem Seg.next_mem {next : α → α} {p q x : α} {ns : List α} (h : Seg next p ns q)
    (hx : x ∈ p :: ns) : next x ∈ ns ∨ next x = q := by
  induction ns generalizing p with
  | nil =>
    rw [List.mem_singleton.mp hx]
    exact Or.inr h
  | cons n ns ih =>
    rcases List.mem_cons.mp hx with rfl | hx
    · exact Or.inl (by simp [h.1])
    · rcases ih h.2 hx with hm | he
      · exact Or.inl (List.mem_cons_of_mem _ hm)
      · exact Or.inr he

theorem Seg.iterate_ring {next : α → α} {p : α} {ns : List α} (h : Seg next p ns p) (n : ℕ) :
    next^[n] p ∈ p :: ns := by
  induction n with
  | zero => exact List.mem_cons_self ..
  | succ n ih =>
    rw [Function.iterate_succ_apply']
    rcases h.next_mem ih with hm | he
    · exact List.mem_cons_of_mem _ hm
    · simp [he]

theorem Seg.exists_iterate {next : α → α} {p q x : α} {ns : List α} (h : Seg next p ns q)
    (hx : x ∈ p :: ns) : ∃ n, next^[n] p = x := by
  induction ns generalizing p with
  | nil => exact ⟨0, (List.mem_singleton.mp hx).symm⟩
  | cons n ns ih =>
    rcases List.mem_cons.mp hx with rfl | hx
    · exact ⟨0, rfl⟩
    · obtain ⟨m, hm⟩ := ih h.2 hx
      refine ⟨m + 1, ?_⟩
      rw [Function.iterate_succ_apply, h.1, hm]

theorem Seg.exists_iterate_last {next next' : α → α} {p q : α} {ns : List α} (h : Seg next p ns q)
    (hnd : (p :: ns).Nodup) (he : ∀ x ∈ p :: ns, x ≠ lastFrom p ns → next' x = next x) :
    ∃ n, next'^[n] p = lastFrom p ns := by
  induction ns generalizing p with
  | nil => exact ⟨0, rfl⟩
  | cons n ns ih =>
    obtain ⟨hp, hnd'⟩ := List.nodup_cons.mp hnd
    obtain ⟨m, hm⟩ := ih h.2 hnd' fun x hx => he x (List.mem_cons_of_mem _ hx)
    have hne : p ≠ lastFrom n ns := fun e => hp (e ▸ lastFrom_mem n ns)
    refine ⟨m + 1, ?_⟩
    rw [Function.iterate_succ_apply, he p (List.mem_cons_self ..) hne, h.1, hm]
    rfl

theorem length_lt_of_nodup {p n : ℕ} {ns : List ℕ} (h : (p :: ns).Nodup) (hlt : ∀ x ∈ p :: ns, x < n) :
    ns.length < n := by
  have hsub : (p :: ns).toFinset ⊆ Finset.range n := fun x hx =>
    Finset.mem_range.mpr (hlt x (List.mem_toFinset.mp hx))
  have hcard := Finset.card_le_card hsub
  rw [List.toFinset_card_of_nodup h, Finset.card_range, List.length_cons] at hcard
  exact hcard

section Families
/-- The lists `ls i`, `i ∈ D`, each from its own head to its own end marker,
with no repeated node and no node in two of them. -/
structure Family (next : α → α) (D : Set ι) (head stop : ι → α) (ls : ι → List α) : Prop where
  seg : ∀ i ∈ D, Seg next (head i) (ls i) (stop i)
  nodup : ∀ i ∈ D, (head i :: ls i).Nodup
  apart : ∀ i ∈ D, ∀ j ∈ D, ∀ p, p ∈ head i :: ls i → p ∈ head j :: ls j → i = j

variable {next : α → α} {D : Set ι} {head stop : ι → α} {ls : ι → List α}

def Loose (D : Set ι) (head : ι → α) (ls : ι → List α) (p : α) : Prop :=
  ∀ i ∈ D, p ∉ head i :: ls i

theorem Family.mono {E : Set ι} (h : Family next D head stop ls) (hE : E ⊆ D) :
    Family next E head stop ls :=
  ⟨fun i hi => h.seg i (hE hi), fun i hi => h.nodup i (hE hi),
    fun i hi j hj => h.apart i (hE hi) j (hE hj)⟩

theorem Family.congr {next' : α → α} (h : Family next D head stop ls)
    (he : ∀ x, ¬ Loose D head ls x → next' x = next x) : Family next' D head stop ls := by
  refine ⟨fun i hi => (h.seg i hi).congr fun x hx => he x ?_, h.nodup, h.apart⟩
  exact fun hl => hl i hi hx

theorem Family.next_last {i : ι} {xs ys : List α} {d : α} (h : Family next D head stop ls)
    (hi : i ∈ D) (hls : ls i = xs ++ d :: ys) : next (lastFrom (head i) xs) = d := by
  have hseg := h.seg i hi
  rw [hls] at hseg
  exact hseg.next_last

theorem Family.next_head {i : ι} {ys : List α} {d : α} (h : Family next D head stop ls) (hi : i ∈ D)
    (hls : ls i = d :: ys) : next (head i) = d := h.next_last hi (hls.trans (List.nil_append _).symm)

theorem Family.congr_on {head' stop' : ι → α} {ls' : ι → List α}
    (h : Family next D head stop ls) (hh : ∀ i ∈ D, head' i = head i)
    (hs : ∀ i ∈ D, stop' i = stop i) (hl : ∀ i ∈ D, ls' i = ls i) :
    Family next D head' stop' ls' := by
  refine ⟨fun i hi => ?_, fun i hi => ?_, fun i hi j hj p hpi hpj => ?_⟩
  · rw [hh i hi, hs i hi, hl i hi]
    exact h.seg i hi
  · rw [hh i hi, hl i hi]
    exact h.nodup i hi
  · rw [hh i hi, hl i hi] at hpi
    rw [hh j hj, hl j hj] at hpj
    exact h.apart i hi j hj p hpi hpj

end Families

/-! ## Traversals -/

/-- `while (go(tmp->next)) tmp = tmp->next`, cut off after `fuel` rounds. -/
def walk (next : α → α) (go : α → Bool) : ℕ → α → Option α
  | 0, _ => none
  | fuel + 1, tmp => if go (next tmp) then walk next go fuel (next tmp) else some tmp

theorem walk_seg {next : α → α} (go : α → Bool) {p q : α} {ns : List α} {fuel : ℕ}
    (h : Seg next p ns q) (hq : go q = false) (hf : ns.length < fuel) :
    walk next go fuel p = some (lastFrom p (ns.takeWhile go)) := by
  induction ns generalizing p fuel with
  | nil =>
    obtain ⟨fuel, rfl⟩ : ∃ f, fuel = f + 1 := ⟨fuel - 1, by simp at hf; omega⟩
    simp [walk, show next p = q from h, hq]
  | cons n ns ih =>
    obtain ⟨fuel, rfl⟩ : ∃ f, fuel = f + 1 := ⟨fuel - 1, by simp at hf; omega⟩
    rw [walk, h.1, List.takeWhile_cons]
    cases hg : go n with
    | false => simp
    | true => simpa using ih h.2 (by simpa using hf)

theorem walk_closed {next : α → α} {go : α → Bool} {C : Set α}
    (hC : ∀ p ∈ C, next p ∈ C ∧ go (next p) = true) {p : α} (hp : p ∈ C) (fuel : ℕ) :
    walk next go fuel p = none := by
  induction fuel generalizing p with
  | zero => rfl
  | succ fuel ih => rw [walk, if_pos (hC p hp).2, ih (hC p hp).1]

theorem walk_stop {next : α → α} {go : α → Bool} {p tmp : α} {fuel : ℕ} (h : walk next go fuel p = some tmp) :
    go (next tmp) = false := by
  induction fuel generalizing p with
  | zero => cases h
  | succ fuel ih =>
    rw [walk] at h
    split at h
    · exact ih h
    · rename_i hgo
      obtain rfl := Option.some.inj h
      exact Bool.not_eq_true _ ▸ hgo

/-- The nodes met on the way from `p` to `stop`, at most `fuel` of them. -/
def collect [DecidableEq α] (next : α → α) (stop : α) : ℕ → α → List α
  | 0, _ => []
  | fuel + 1, p => if next p = stop then [] else next p :: collect next stop fuel (next p)

theorem collect_seg [DecidableEq α] {next : α → α} {p q : α} {ns : List α} {fuel : ℕ}
    (h : Seg next p ns q) (hq : q ∉ ns) (hf : ns.length ≤ fuel) :
    collect next q fuel p = ns := by
  induction ns generalizing p fuel with
  | nil =>
    cases fuel with
    | zero => rfl
    | succ fuel => simp [collect, show next p = q from h]
  | cons n ns ih =>
    obtain ⟨fuel, rfl⟩ : ∃ f, fuel = f + 1 := ⟨fuel - 1, by simp at hf; omega⟩
    have hn : n ≠ q := fun e => hq (by simp [e])
    rw [collect, h.1, if_neg hn, ih h.2 (fun e => hq (List.mem_cons_of_mem _ e)) (by simpa using hf)]

theorem seg_of_collect [DecidableEq α] {next : α → α} {p q : α} {ns : List α} {fuel : ℕ}
    (h : collect next q fuel p = ns) (hf : ns.length < fuel) : Seg next p ns q := by
  induction fuel generalizing p ns with
  | zero => exact absurd hf (Nat.not_lt_zero _)
  | succ fuel ih =>
    rw [collect] at h
    split at h
    · rename_i hp
      subst h
      exact hp
    · subst h
      exact ⟨rfl, ih rfl (by simpa using hf)⟩

section Edit
variable [DecidableEq α]

/-- `next = prev->next; prev->next = new; new->next = next`. -/
def insertAfter (next : α → α) (prev new : α) : α → α :=
  Function.update (Function.update next prev new) new (next prev)

/-- `del = prev->next; prev->next = del->next; del->next = nil`. -/
def removeAfter (nil : α) (next : α → α) (prev : α) : α → α :=
  Function.update (Function.update next prev (next (next prev))) (next prev) nil

theorem insertAfter_prev {next : α → α} {prev new : α} (h : prev ≠ new) :
    insertAfter next prev new prev = new := by
  rw [insertAfter, Function.update_of_ne h, Function.update_self]

theorem insertAfter_new (next : α → α) (prev new : α) :
    insertAfter next prev new new = next prev := Function.update_self ..

theorem insertAfter_of_ne {next : α → α} {prev new x : α} (hp : x ≠ prev) (hn : x ≠ new) :
    insertAfter next prev new x = next x := by
  rw [insertAfter, Function.update_of_ne hn, Function.update_of_ne hp]

theorem insertAfter_self (next : α → α) (p : α) : insertAfter next p p = next := by
  funext x
  by_cases hx : x = p
  · rw [hx, insertAfter_new]
  · exact insertAfter_of_ne hx hx

theorem removeAfter_of_ne {nil : α} {next : α → α} {prev x : α} (hp : x ≠ prev)
    (hd : x ≠ next prev) : removeAfter nil next prev x = next x := by
  rw [removeAfter, Function.update_of_ne hd, Function.update_of_ne hp]

theorem removeAfter_prev {nil : α} {next : α → α} {prev : α} (h : prev ≠ next prev) :
    removeAfter nil next prev prev = next (next prev) := by
  rw [removeAfter, Function.update_of_ne h, Function.update_self]

theorem Seg.insert {next : α → α} {p q new : α} {xs ys : List α}
    (h : Seg next p (xs ++ ys) q) (hn : (p :: (xs ++ ys)).Nodup)
    (hnew : new ∉ p :: (xs ++ ys)) :
    Seg (insertAfter next (lastFrom p xs) new) p (xs ++ new :: ys) q := by
  induction xs generalizing p with
  | nil =>
    have hpn : p ≠ new := fun e => hnew (by simp [e])
    refine ⟨insertAfter_prev hpn, ?_⟩
    cases ys with
    | nil => exact (insertAfter_new ..).trans h
    | cons y ys =>
      refine ⟨(insertAfter_new ..).trans h.1, h.2.congr fun x hx => ?_⟩
      have hxp : x ≠ p := by
        rintro rfl
        exact (List.nodup_cons.mp hn).1 hx
      exact insertAfter_of_ne hxp fun e => hnew (List.mem_cons_of_mem _ (e ▸ hx))
  | cons x xs ih =>
    have hn' := List.nodup_cons.mp hn
    have hrec := ih h.2 hn'.2 fun e => hnew (List.mem_cons_of_mem _ e)
    rw [lastFrom_cons]
    refine ⟨?_, hrec⟩
    rw [insertAfter_of_ne _ fun e => hnew (by simp [e])]
    · exact h.1
    · rintro rfl
      exact hn'.1 (lastFrom_mem_append x xs _)

theorem Seg.erase {nil : α} {next : α → α} {p d q : α} {xs ys : List α}
    (h : Seg next p (xs ++ d :: ys) q) (hn : (p :: (xs ++ d :: ys)).Nodup) :
    Seg (removeAfter nil next (lastFrom p xs)) p (xs ++ ys) q := by
  induction xs generalizing p with
  | nil =>
    have hd : next p = d := h.1
    have hpd : p ≠ next p := by
      rw [hd]
      rintro rfl
      exact (List.nodup_cons.mp hn).1 (by simp)
    have hdys : d ∉ ys := (List.nodup_cons.mp (List.nodup_cons.mp hn).2).1
    have hpys : p ∉ ys := fun e => (List.nodup_cons.mp hn).1 (by simp [e])
    cases ys with
    | nil => exact (removeAfter_prev hpd).trans (by rw [hd]; exact h.2)
    | cons y ys =>
      refine ⟨(removeAfter_prev hpd).trans (by rw [hd]; exact h.2.1), h.2.2.congr fun x hx => ?_⟩
      refine removeAfter_of_ne (fun (e : x = p) => hpys (e ▸ hx)) fun (e : x = next p) => hdys ?_
      rw [hd] at e
      exact e ▸ hx
  | cons x xs ih =>
    have hn' := List.nodup_cons.mp hn
    rw [lastFrom_cons]
    refine ⟨?_, ih h.2 hn'.2⟩
    have hnext : next (lastFrom x xs) = d := h.2.next_last
    rw [removeAfter_of_ne _ _]
    · exact h.1
    · rintro rfl
      exact hn'.1 (lastFrom_mem_append x xs _)
    · rw [hnext]
      rintro rfl
      exact hn'.1 (by simp)

variable {D : Set ι} {head stop : ι → α} {ls : ι → List α} {next : α → α}

theorem Family.grow {i : ι} (h : Family next D head stop ls) (hi : i ∉ D)
    (hp : Loose D head ls (head i)) (hls : ls i = []) :
    Family (Function.update next (head i) (stop i)) ({i} ∪ D) head stop ls := by
  have hkeep : ∀ x, ¬ Loose D head ls x → Function.update next (head i) (stop i) x = next x :=
    fun x hx => Function.update_of_ne (fun e : x = head i => hx (e ▸ hp)) ..
  have hold := h.congr hkeep
  have hsep : ∀ j ∈ D, ∀ p, p ∈ head i :: ls i → p ∉ head j :: ls j := by
    intro j hj p hpi hpj
    rw [hls, List.mem_singleton] at hpi
    exact hp j hj (hpi ▸ hpj)
  refine ⟨?_, ?_, ?_⟩
  · rintro j (rfl | hj)
    · rw [hls]
      exact Function.update_self ..
    · exact hold.seg j hj
  · rintro j (rfl | hj)
    · simp [hls]
    · exact hold.nodup j hj
  · rintro j (rfl | hj) k (rfl | hk) p hpj hpk
    · rfl
    · exact absurd hpk (hsep k hk p hpj)
    · exact absurd hpj (hsep j hj p hpk)
    · exact hold.apart j hj k hk p hpj hpk

variable [DecidableEq ι]

omit [DecidableEq α] in
theorem mem_update_insert {i j : ι} {xs ys : List α} {new p : α} (hls : ls i = xs ++ ys)
    (hp : p ∈ head j :: Function.update ls i (xs ++ new :: ys) j) :
    p ∈ head j :: ls j ∨ (j = i ∧ p = new) := by
  by_cases hj : j = i
  · subst hj
    simp only [Function.update_self, List.mem_cons, List.mem_append] at hp
    simp only [hls, List.mem_cons, List.mem_append]
    tauto
  · rw [Function.update_of_ne hj] at hp
    exact Or.inl hp

omit [DecidableEq α] in
theorem mem_of_mem_update_erase {i j : ι} {xs ys : List α} {d p : α} (hls : ls i = xs ++ d :: ys)
    (hp : p ∈ head j :: Function.update ls i (xs ++ ys) j) : p ∈ head j :: ls j := by
  by_cases hj : j = i
  · subst hj
    simp only [Function.update_self, List.mem_cons, List.mem_append] at hp
    simp only [hls, List.mem_cons, List.mem_append]
    tauto
  · rwa [Function.update_of_ne hj] at hp

theorem Family.insert {i : ι} {xs ys : List α} {new : α} (h : Family next D head stop ls)
    (hi : i ∈ D) (hls : ls i = xs ++ ys) (hnew : Loose D head ls new) :
    Family (insertAfter next (lastFrom (head i) xs) new) D head stop
      (Function.update ls i (xs ++ new :: ys)) := by
  have hprev : lastFrom (head i) xs ∈ head i :: ls i := by
    rw [hls]
    exact lastFrom_mem_append ..
  refine ⟨fun j hj => ?_, fun j hj => ?_, fun j hj k hk p hpj hpk => ?_⟩
  · by_cases hji : j = i
    · subst hji
      rw [Function.update_self]
      have hseg := h.seg j hj
      have hnd := h.nodup j hj
      have hnm := hnew j hj
      rw [hls] at hseg hnd hnm
      exact hseg.insert hnd hnm
    · rw [Function.update_of_ne hji]
      refine (h.seg j hj).congr fun x hx => insertAfter_of_ne ?_ ?_
      · rintro rfl
        exact hji (h.apart j hj i hi _ hx hprev)
      · rintro rfl
        exact hnew j hj hx
  · by_cases hji : j = i
    · subst hji
      have hnd := h.nodup j hj
      have hnm := hnew j hj
      rw [hls] at hnd hnm
      rw [Function.update_self]
      simp only [List.nodup_cons, List.mem_append, List.nodup_append, List.mem_cons, not_or] at hnd hnm ⊢
      grind
    · rw [Function.update_of_ne hji]
      exact h.nodup j hj
  · rcases mem_update_insert hls hpj with hj' | ⟨hji, rfl⟩
    · rcases mem_update_insert hls hpk with hk' | ⟨_, rfl⟩
      · exact h.apart j hj k hk p hj' hk'
      · exact absurd hj' (hnew j hj)
    · rcases mem_update_insert hls hpk with hk' | ⟨hki, _⟩
      · exact absurd hk' (hnew k hk)
      · exact hji.trans hki.symm

theorem Family.erase (nil : α) {i : ι} {xs ys : List α} {d : α}
    (h : Family next D head stop ls) (hi : i ∈ D) (hls : ls i = xs ++ d :: ys) :
    Family (removeAfter nil next (lastFrom (head i) xs)) D head stop
        (Function.update ls i (xs ++ ys)) ∧
      Loose D head (Function.update ls i (xs ++ ys)) d := by
  have hd : next (lastFrom (head i) xs) = d := h.next_last hi hls
  have hdi : d ∈ head i :: ls i := by simp [hls]
  have hprev : lastFrom (head i) xs ∈ head i :: ls i := by
    rw [hls]
    exact lastFrom_mem_append ..
  have hnd := h.nodup i hi
  rw [hls] at hnd
  refine ⟨⟨fun j hj => ?_, fun j hj => ?_, fun j hj k hk p hpj hpk => ?_⟩, fun j hj hp => ?_⟩
  · by_cases hji : j = i
    · subst hji
      rw [Function.update_self]
      have hseg := h.seg j hj
      rw [hls] at hseg
      exact hseg.erase hnd
    · rw [Function.update_of_ne hji]
      refine (h.seg j hj).congr fun x hx => removeAfter_of_ne ?_ ?_
      · rintro rfl
        exact hji (h.apart j hj i hi _ hx hprev)
      · rw [hd]
        rintro rfl
        exact hji (h.apart j hj i hi _ hx hdi)
  · by_cases hji : j = i
    · subst hji
      rw [Function.update_self]
      simp only [List.nodup_cons, List.mem_append, List.nodup_append, List.mem_cons, not_or] at hnd ⊢
      grind
    · rw [Function.update_of_ne hji]
      exact h.nodup j hj
  · exact h.apart j hj k hk p (mem_of_mem_update_erase hls hpj) (mem_of_mem_update_erase hls hpk)
  · have hij : j = i := h.apart j hj i hi d (mem_of_mem_update_erase hls hp) hdi
    subst hij
    rw [Function.update_self] at hp
    simp only [List.nodup_cons, List.mem_append, List.nodup_append, List.mem_cons, not_or] at hnd hp
    grind

omit [DecidableEq α] in
theorem Loose.add {i : ι} {xs ys : List α} {p q : α} (h : Loose D head ls p)
    (hls : ls i = xs ++ ys) (hpq : p ≠ q) : Loose D head (Function.update ls i (xs ++ q :: ys)) p := by
  intro j hj hp
  rcases mem_update_insert hls hp with hp' | ⟨-, hp'⟩
  · exact h j hj hp'
  · exact hpq hp'

omit [DecidableEq α] in
theorem Loose.drop {i : ι} {xs ys : List α} {p q : α} (h : Loose D head ls p)
    (hls : ls i = xs ++ q :: ys) : Loose D head (Function.update ls i (xs ++ ys)) p := by
  intro j hj hp
  exact h j hj (mem_of_mem_update_erase hls hp)

end Edit

/-! ## Conservation of nodes -/

section Nodes
variable [DecidableEq ι] {A : Finset ι} {ls : ι → List α}

def nodes (A : Finset ι) (ls : ι → List α) : Multiset α := ∑ i ∈ A, (ls i : Multiset α)

theorem nodes_update (ls : ι → List α) {i : ι} (hi : i ∈ A) (l : List α) :
    nodes A (Function.update ls i l) + (ls i : Multiset α) = (l : Multiset α) + nodes A ls := by
  have he : (fun j => (Function.update ls i l j : Multiset α)) =
      Function.update (fun j => (ls j : Multiset α)) i (l : Multiset α) := by
    funext j
    by_cases hj : j = i
    · subst hj
      simp
    · simp [hj]
  unfold nodes
  rw [he, Finset.sum_update_of_mem hi, ← Finset.sum_sdiff (Finset.singleton_subset_iff.mpr hi),
    Finset.sum_singleton, add_assoc]

theorem nodes_push {ls : ι → List α} {i : ι} (hi : i ∈ A) {xs ys : List α} (p : α) (hls : ls i = xs ++ ys) :
    nodes A (Function.update ls i (xs ++ p :: ys)) = p ::ₘ nodes A ls := by
  have h := nodes_update ls hi (xs ++ p :: ys)
  have hperm : (↑(xs ++ p :: ys) : Multiset α) = p ::ₘ ↑(ls i) := by
    rw [hls, Multiset.cons_coe, Multiset.coe_eq_coe]
    exact List.perm_middle
  rw [hperm, Multiset.cons_add, add_comm (ls i : Multiset α), ← Multiset.cons_add] at h
  exact add_right_cancel h

theorem nodes_pop {i : ι} (hi : i ∈ A) {xs ys : List α} {p : α} (hls : ls i = xs ++ p :: ys) :
    p ::ₘ nodes A (Function.update ls i (xs ++ ys)) = nodes A ls := by
  have h := nodes_push hi p (Function.update_self i (xs ++ ys) ls)
  rw [Function.update_idem, ← hls, Function.update_eq_self] at h
  exact h.symm

theorem nodes_push_head (ls : ι → List α) {i : ι} (hi : i ∈ A) (p : α) :
    nodes A (Function.update ls i (p :: ls i)) = p ::ₘ nodes A ls :=
  nodes_push hi p (List.nil_append _).symm

theorem nodes_pop_head {i : ι} (hi : i ∈ A) {ys : List α} {p : α} (hls : ls i = p :: ys) :
    p ::ₘ nodes A (Function.update ls i ys) = nodes A ls :=
  nodes_pop hi (hls.trans (List.nil_append _).symm)

omit [DecidableEq ι] in
theorem card_nodes (A : Finset ι) (ls : ι → List α) :
    (nodes A ls).card = ∑ i ∈ A, (ls i).length := by
  unfold nodes
  rw [Multiset.card_sum]
  simp

omit [DecidableEq ι] in
theorem mem_nodes {p : α} : p ∈ nodes A ls ↔ ∃ i ∈ A, p ∈ ls i := by
  unfold nodes
  rw [Multiset.mem_sum]
  simp

end Nodes
end XyOS.Linked
