import Mathlib.Data.List.Basic
import Mathlib.Tactic.SplitIfs

/-! Programs that read, poll and write ports and call others, and what they keep whatever the
devices answer. -/

namespace XyOS.Ports

inductive Access (κ : Type)
  | inb (port : ℕ) (b : BitVec 8)
  | outb (port : ℕ) (b : BitVec 8)
  | call (c : κ)

/-- A poll reads the port as long as the condition holds, and goes on with the last byte. -/
inductive Program (κ α : Type)
  | done (a : α)
  | inb (port : ℕ) (next : BitVec 8 → Program κ α)
  | poll (port : ℕ) (again : BitVec 8 → Bool) (next : BitVec 8 → Program κ α)
  | outb (port : ℕ) (b : BitVec 8) (next : Program κ α)
  | call (c : κ) (next : Program κ α)

variable {κ α β : Type}

def Program.bind : Program κ α → (α → Program κ β) → Program κ β
  | .done a, f => f a
  | .inb port next, f => .inb port fun b => (next b).bind f
  | .poll port again next, f => .poll port again fun b => (next b).bind f
  | .outb port b next, f => .outb port b (next.bind f)
  | .call c next, f => .call c (next.bind f)

instance : Monad (Program κ) where
  pure := .done
  bind := .bind

def inb (port : ℕ) : Program κ (BitVec 8) := .inb port .done

def poll (port : ℕ) (again : BitVec 8 → Bool) : Program κ (BitVec 8) := .poll port again .done

def outb (port : ℕ) (b : BitVec 8) : Program κ Unit := .outb port b (.done ())

def call (c : κ) : Program κ Unit := .call c (.done ())

/-! ## Runs -/

/-- The accesses of a run, which is over if it has a result. What is read is up to the devices. -/
inductive Runs : Program κ α → List (Access κ) → Option α → Prop
  | here (p : Program κ α) : Runs p [] none
  | done (a : α) : Runs (.done a) [] (some a)
  | inb {port : ℕ} {next : BitVec 8 → Program κ α} {t : List (Access κ)} {r : Option α} (b : BitVec 8) :
    Runs (next b) t r → Runs (.inb port next) (.inb port b :: t) r
  | again {port : ℕ} {again : BitVec 8 → Bool} {next : BitVec 8 → Program κ α} {t : List (Access κ)}
    {r : Option α} (b : BitVec 8) : again b = true → Runs (.poll port again next) t r →
      Runs (.poll port again next) (.inb port b :: t) r
  | ready {port : ℕ} {again : BitVec 8 → Bool} {next : BitVec 8 → Program κ α} {t : List (Access κ)}
    {r : Option α} (b : BitVec 8) : again b = false → Runs (next b) t r →
      Runs (.poll port again next) (.inb port b :: t) r
  | outb {port : ℕ} {b : BitVec 8} {next : Program κ α} {t : List (Access κ)} {r : Option α} :
    Runs next t r → Runs (.outb port b next) (.outb port b :: t) r
  | call {c : κ} {next : Program κ α} {t : List (Access κ)} {r : Option α} :
    Runs next t r → Runs (.call c next) (.call c :: t) r

theorem runs_bind {p : Program κ α} {f : α → Program κ β} {t : List (Access κ)} {r : Option β}
    (h : Runs (p.bind f) t r) :
    (∃ t₁ t₂ a, t = t₁ ++ t₂ ∧ Runs p t₁ (some a) ∧ Runs (f a) t₂ r) ∨ (r = none ∧ Runs p t none) := by
  induction p generalizing t with
  | done a => exact Or.inl ⟨[], t, a, rfl, .done a, h⟩
  | inb port next ih =>
    cases h with
    | here => exact Or.inr ⟨rfl, .here _⟩
    | inb b h =>
      rcases ih b h with ⟨t₁, t₂, a, rfl, h₁, h₂⟩ | ⟨rfl, h₁⟩
      · exact Or.inl ⟨_, t₂, a, rfl, .inb b h₁, h₂⟩
      · exact Or.inr ⟨rfl, .inb b h₁⟩
  | poll port again next ih =>
    induction t with
    | nil =>
      cases h
      exact Or.inr ⟨rfl, .here _⟩
    | cons x t iht =>
      cases h with
      | again b hb h =>
        rcases iht h with ⟨t₁, t₂, a, rfl, h₁, h₂⟩ | ⟨rfl, h₁⟩
        · exact Or.inl ⟨_, t₂, a, rfl, .again b hb h₁, h₂⟩
        · exact Or.inr ⟨rfl, .again b hb h₁⟩
      | ready b hb h =>
        rcases ih b h with ⟨t₁, t₂, a, rfl, h₁, h₂⟩ | ⟨rfl, h₁⟩
        · exact Or.inl ⟨_, t₂, a, rfl, .ready b hb h₁, h₂⟩
        · exact Or.inr ⟨rfl, .ready b hb h₁⟩
  | outb port b next ih =>
    cases h with
    | here => exact Or.inr ⟨rfl, .here _⟩
    | outb h =>
      rcases ih h with ⟨t₁, t₂, a, rfl, h₁, h₂⟩ | ⟨rfl, h₁⟩
      · exact Or.inl ⟨_, t₂, a, rfl, .outb h₁, h₂⟩
      · exact Or.inr ⟨rfl, .outb h₁⟩
  | call c next ih =>
    cases h with
    | here => exact Or.inr ⟨rfl, .here _⟩
    | call h =>
      rcases ih h with ⟨t₁, t₂, a, rfl, h₁, h₂⟩ | ⟨rfl, h₁⟩
      · exact Or.inl ⟨_, t₂, a, rfl, .call h₁, h₂⟩
      · exact Or.inr ⟨rfl, .call h₁⟩

def reads (port : ℕ) : List (Access κ) → List (BitVec 8)
  | [] => []
  | .inb p b :: t => if p = port then b :: reads port t else reads port t
  | .outb _ _ :: t => reads port t
  | .call _ :: t => reads port t

theorem reads_append (port : ℕ) (t₁ t₂ : List (Access κ)) :
    reads port (t₁ ++ t₂) = reads port t₁ ++ reads port t₂ := by
  induction t₁ with
  | nil => rfl
  | cons x t₁ ih =>
    cases x with
    | inb p b =>
      simp only [List.cons_append, reads, ih]
      split_ifs <;> rfl
    | outb p b => exact ih
    | call c => exact ih

/-! ## Devices that answer from a list -/

/-- The bytes that a poll reads before its last, and what is left. -/
def pollBytes (again : BitVec 8 → Bool) : List (BitVec 8) → Option (List (BitVec 8) × BitVec 8 × List (BitVec 8))
  | [] => none
  | b :: bytes =>
    if again b = true then (pollBytes again bytes).map fun r => (b :: r.1, r.2) else some ([], b, bytes)

def exec : Program κ α → List (BitVec 8) → Option (List (Access κ) × α)
  | .done a, _ => some ([], a)
  | .inb _ _, [] => none
  | .inb port next, b :: bytes => (exec (next b) bytes).map fun r => (.inb port b :: r.1, r.2)
  | .poll port again next, bytes =>
    (pollBytes again bytes).bind fun (busy, b, bytes) =>
      (exec (next b) bytes).map fun r => (busy.map (.inb port) ++ .inb port b :: r.1, r.2)
  | .outb port b next, bytes => (exec next bytes).map fun r => (.outb port b :: r.1, r.2)
  | .call c next, bytes => (exec next bytes).map fun r => (.call c :: r.1, r.2)

theorem runs_poll {port : ℕ} {again : BitVec 8 → Bool} {next : BitVec 8 → Program κ α} {t : List (Access κ)}
    {r : Option α} {busy bytes rest : List (BitVec 8)} {b : BitVec 8}
    (h : pollBytes again bytes = some (busy, b, rest)) (hrun : Runs (next b) t r) :
    Runs (.poll port again next) (busy.map (.inb port) ++ .inb port b :: t) r := by
  induction bytes generalizing busy with
  | nil => cases h
  | cons c bytes ih =>
    rw [pollBytes] at h
    split_ifs at h with hc
    · obtain ⟨⟨busy', b', rest'⟩, h', heq⟩ := Option.map_eq_some_iff.mp h
      cases heq
      exact .again c hc (ih h')
    · cases h
      exact .ready _ (Bool.not_eq_true _ ▸ hc) hrun

theorem runs_of_exec {p : Program κ α} {bytes : List (BitVec 8)} {t : List (Access κ)} {a : α}
    (h : exec p bytes = some (t, a)) : Runs p t (some a) := by
  induction p generalizing bytes t with
  | done b =>
    cases h
    exact .done _
  | inb port next ih =>
    cases bytes with
    | nil => cases h
    | cons b bytes =>
      obtain ⟨⟨t', a'⟩, h', heq⟩ := Option.map_eq_some_iff.mp h
      cases heq
      exact .inb b (ih b h')
  | poll port again next ih =>
    obtain ⟨⟨busy, b, rest⟩, hpoll, h⟩ := Option.bind_eq_some_iff.mp h
    obtain ⟨⟨t', a'⟩, h', heq⟩ := Option.map_eq_some_iff.mp h
    cases heq
    exact runs_poll hpoll (ih b h')
  | outb port b next ih =>
    obtain ⟨⟨t', a'⟩, h', heq⟩ := Option.map_eq_some_iff.mp h
    cases heq
    exact .outb (ih h')
  | call c next ih =>
    obtain ⟨⟨t', a'⟩, h', heq⟩ := Option.map_eq_some_iff.mp h
    cases heq
    exact .call (ih h')

/-! ## Preconditions and postconditions -/

/-- The accesses `t`, which follow the accesses `h`, keep `ok`, which is told what came before, and the
result is as `Q` has it. -/
structure Meets (ok : List (Access κ) → Access κ → Prop) (Q : α → List (Access κ) → Prop) (h t : List (Access κ))
    (r : Option α) : Prop where
  keeps : ∀ t₁ x t₂, t = t₁ ++ x :: t₂ → ok (h ++ t₁) x
  ends : ∀ a, r = some a → Q a (h ++ t)

/-- What every run of `p` does that follows the accesses `h`. -/
def After (ok : List (Access κ) → Access κ → Prop) (h : List (Access κ)) (p : Program κ α)
    (Q : α → List (Access κ) → Prop) : Prop :=
  ∀ t r, Runs p t r → Meets ok Q h t r

variable {ok : List (Access κ) → Access κ → Prop} {h t : List (Access κ)} {x : Access κ} {r : Option α}
  {P : List (Access κ) → Prop} {Q : α → List (Access κ) → Prop} {R : β → List (Access κ) → Prop}

theorem meets_here : Meets ok Q h [] none :=
  ⟨fun t₁ x t₂ heq => by simp at heq, fun a ha => by cases ha⟩

theorem meets_done {a : α} (hQ : Q a h) : Meets ok Q h [] (some a) := by
  refine ⟨fun t₁ x t₂ heq => by simp at heq, fun b hb => ?_⟩
  obtain rfl := Option.some.inj hb
  rwa [List.append_nil]

theorem Meets.cons (hx : ok h x) (ht : Meets ok Q (h ++ [x]) t r) : Meets ok Q h (x :: t) r := by
  refine ⟨fun t₁ y t₂ heq => ?_, fun a ha => ?_⟩
  · cases t₁ with
    | nil =>
      rw [List.nil_append, List.cons_eq_cons] at heq
      rwa [List.append_nil, ← heq.1]
    | cons z t₁ =>
      rw [List.cons_append, List.cons_eq_cons] at heq
      have hy := ht.keeps t₁ y t₂ heq.2
      rwa [List.append_assoc, List.singleton_append, heq.1] at hy
  · have hQ := ht.ends a ha
    rwa [List.append_assoc, List.singleton_append] at hQ

theorem after_pure {a : α} (hQ : Q a h) : After ok h (pure a) Q := by
  intro t r hrun
  cases hrun with
  | here => exact meets_here
  | done => exact meets_done hQ

theorem after_inb {port : ℕ} {R : BitVec 8 → List (Access κ) → Prop} (hok : ∀ b, ok h (.inb port b))
    (hR : ∀ b, R b (h ++ [.inb port b])) : After ok h (inb port) R := by
  intro t r hrun
  cases hrun with
  | here => exact meets_here
  | inb b hrun => exact (after_pure (hR b) _ _ hrun).cons (hok b)

theorem after_outb {port : ℕ} {b : BitVec 8} {R : Unit → List (Access κ) → Prop} (hok : ok h (.outb port b))
    (hR : R () (h ++ [.outb port b])) : After ok h (outb port b) R := by
  intro t r hrun
  cases hrun with
  | here => exact meets_here
  | outb hrun => exact (after_pure hR _ _ hrun).cons hok

theorem after_call {c : κ} {R : Unit → List (Access κ) → Prop} (hok : ok h (.call c))
    (hR : R () (h ++ [.call c])) : After ok h (call c) R := by
  intro t r hrun
  cases hrun with
  | here => exact meets_here
  | call hrun => exact (after_pure hR _ _ hrun).cons hok

theorem after_poll {port : ℕ} {again : BitVec 8 → Bool} {R : BitVec 8 → List (Access κ) → Prop}
    (hok : ∀ h b, P h → ok h (.inb port b)) (hagain : ∀ h b, P h → again b = true → P (h ++ [.inb port b]))
    (hR : ∀ h b, P h → again b = false → R b (h ++ [.inb port b])) (hP : P h) :
    After ok h (poll port again) R := by
  intro t r hrun
  induction t generalizing h with
  | nil =>
    cases hrun
    exact meets_here
  | cons x t ih =>
    cases hrun with
    | again b hb hrun => exact (ih (hagain h b hP hb) hrun).cons (hok h b hP)
    | ready b hb hrun => exact (after_pure (hR h b hP hb) _ _ hrun).cons (hok h b hP)

theorem Meets.append {t₁ t₂ : List (Access κ)} {b : β} (h₁ : Meets ok R h t₁ (some b))
    (h₂ : Meets ok Q (h ++ t₁) t₂ r) : Meets ok Q h (t₁ ++ t₂) r := by
  refine ⟨fun u₁ x u₂ heq => ?_, fun a ha => ?_⟩
  · rcases List.append_eq_append_iff.mp heq with ⟨v, rfl, hv⟩ | ⟨v, rfl, hv⟩
    · rw [← List.append_assoc]
      exact h₂.keeps v x u₂ hv
    · cases v with
      | nil =>
        rw [List.append_nil] at h₂
        have hx := h₂.keeps [] x u₂ hv.symm
        rwa [List.append_nil] at hx
      | cons y v =>
        obtain ⟨rfl, -⟩ := List.cons_eq_cons.mp hv
        exact h₁.keeps u₁ x v rfl
  · rw [← List.append_assoc]
    exact h₂.ends a ha

theorem after_bind {p : Program κ β} {f : β → Program κ α} (hp : After ok h p R)
    (hf : ∀ b h', R b h' → After ok h' (f b) Q) : After ok h (p >>= f) Q := by
  intro t r hrun
  rcases runs_bind hrun with ⟨t₁, t₂, b, rfl, h₁, h₂⟩ | ⟨rfl, h₁⟩
  · exact (hp t₁ _ h₁).append (hf b _ ((hp t₁ _ h₁).ends b rfl) t₂ r h₂)
  · exact ⟨(hp t none h₁).keeps, fun a ha => by cases ha⟩

end XyOS.Ports
