import Mathlib.Logic.Basic

/-! Runs of a step function that can fail. -/

namespace XyOS.Runs
universe u
variable {σ ι ε : Type*}

def run (exec : σ → ι → Except ε σ) : σ → List ι → Except ε σ
  | s, [] => .ok s
  | s, i :: is => do run exec (← exec s i) is

/-- `P` holds of every input at the state in which the run takes it. -/
def Along (exec : σ → ι → Except ε σ) (P : σ → ι → Prop) : σ → List ι → Prop
  | _, [] => True
  | s, i :: is => P s i ∧ ∀ s', exec s i = .ok s' → Along exec P s' is

theorem bind_ok {α β : Type u} {x : Except ε α} {a : α} (h : x = .ok a) (f : α → Except ε β) :
    (x >>= f) = f a := by
  rw [h]
  rfl

theorem of_bind_ok {α β : Type u} {x : Except ε α} {f : α → Except ε β} {b : β} (h : (x >>= f) = .ok b) :
    ∃ a, x = .ok a ∧ f a = .ok b := by
  cases x with
  | error e => cases h
  | ok a => exact ⟨a, rfl, h⟩

variable {exec : σ → ι → Except ε σ} {P : σ → ι → Prop} {s s' : σ}

theorem run_cons {i : ι} {is : List ι} (h : exec s i = .ok s') :
    run exec s (i :: is) = run exec s' is := by
  rw [run, h]
  rfl

theorem run_append {is : List ι} (h : run exec s is = .ok s') (js : List ι) :
    run exec s (is ++ js) = run exec s' js := by
  induction is generalizing s with
  | nil =>
    obtain rfl := Except.ok.inj h
    rfl
  | cons i is ih =>
    obtain ⟨s₁, hexec, hrest⟩ := of_bind_ok h
    rw [List.cons_append, run_cons hexec, ih hrest]

theorem run_returns {I : σ → Prop} (hstep : ∀ s i, I s → P s i → ∃ s', exec s i = .ok s' ∧ I s')
    {is : List ι} (hs : I s) (his : Along exec P s is) : ∃ s', run exec s is = .ok s' ∧ I s' := by
  induction is generalizing s with
  | nil => exact ⟨s, rfl, hs⟩
  | cons i is ih =>
    obtain ⟨s₁, hexec, hs₁⟩ := hstep s i hs his.1
    obtain ⟨s', hrun, hs'⟩ := ih hs₁ (his.2 s₁ hexec)
    exact ⟨s', (run_cons hexec).trans hrun, hs'⟩

theorem run_preserves {I : σ → Prop} (hstep : ∀ s i s', I s → P s i → exec s i = .ok s' → I s')
    {is : List ι} (hs : I s) (his : Along exec P s is) (hrun : run exec s is = .ok s') : I s' := by
  induction is generalizing s with
  | nil =>
    obtain rfl := Except.ok.inj hrun
    exact hs
  | cons i is ih =>
    obtain ⟨s₁, hexec, hrest⟩ := of_bind_ok hrun
    exact ih (hstep s i s₁ hs his.1 hexec) (his.2 s₁ hexec) hrest

theorem along_cons {i : ι} {is : List ι} (h : exec s i = .ok s') :
    Along exec P s (i :: is) ↔ P s i ∧ Along exec P s' is := by
  constructor
  · rintro ⟨hp, hrest⟩
    exact ⟨hp, hrest s' h⟩
  · rintro ⟨hp, hrest⟩
    exact ⟨hp, fun s₁ hexec => Except.ok.inj (h.symm.trans hexec) ▸ hrest⟩

theorem along_append {is js : List ι} : Along exec P s (is ++ js) ↔
    Along exec P s is ∧ ∀ s', run exec s is = .ok s' → Along exec P s' js := by
  constructor
  · intro h
    induction is generalizing s with
    | nil => exact ⟨trivial, fun s' hrun => Except.ok.inj hrun ▸ h⟩
    | cons i is ih =>
      refine ⟨⟨h.1, fun s₁ hexec => (ih (h.2 s₁ hexec)).1⟩, fun s' hrun => ?_⟩
      obtain ⟨s₁, hexec, hrest⟩ := of_bind_ok hrun
      exact (ih (h.2 s₁ hexec)).2 s' hrest
  · rintro ⟨his, hjs⟩
    induction is generalizing s with
    | nil => exact hjs s rfl
    | cons i is ih =>
      exact ⟨his.1, fun s₁ hexec => ih (his.2 s₁ hexec) fun s' hrun => hjs s' ((run_cons hexec).trans hrun)⟩

theorem Along.append {is js : List ι} (h : Along exec P s is) (hrun : run exec s is = .ok s')
    (hjs : Along exec P s' js) : Along exec P s (is ++ js) :=
  along_append.mpr ⟨h, fun _ hrun' => Except.ok.inj (hrun.symm.trans hrun') ▸ hjs⟩

theorem along_and {Q : σ → ι → Prop} {is : List ι} :
    Along exec (fun s i => P s i ∧ Q s i) s is ↔ Along exec P s is ∧ Along exec Q s is := by
  induction is generalizing s with
  | nil => exact ⟨fun _ => ⟨trivial, trivial⟩, fun _ => trivial⟩
  | cons i is ih =>
    constructor
    · rintro ⟨⟨hp, hq⟩, hrest⟩
      exact ⟨⟨hp, fun s' he => (ih.mp (hrest s' he)).1⟩, hq, fun s' he => (ih.mp (hrest s' he)).2⟩
    · rintro ⟨⟨hp, hps⟩, hq, hqs⟩
      exact ⟨⟨hp, hq⟩, fun s' he => ih.mpr ⟨hps s' he, hqs s' he⟩⟩

theorem Along.imp {I : σ → Prop} {Q : σ → ι → Prop} {is : List ι} (his : Along exec P s is)
    (hstep : ∀ s i s', I s → P s i → exec s i = .ok s' → I s') (himp : ∀ s i, I s → P s i → Q s i)
    (hs : I s) : Along exec Q s is := by
  induction is generalizing s with
  | nil => trivial
  | cons i is ih =>
    exact ⟨himp s i hs his.1, fun s' he => ih (his.2 s' he) (hstep s i s' hs his.1 he)⟩

theorem along_iff {I : σ → Prop} {Q : σ → ι → Prop}
    (hstep : ∀ s i s', I s → P s i → exec s i = .ok s' → I s') (hiff : ∀ s i, I s → (P s i ↔ Q s i))
    {is : List ι} (hs : I s) : Along exec P s is ↔ Along exec Q s is := by
  constructor
  · exact fun h => h.imp hstep (fun s i hi => (hiff s i hi).mp) hs
  · refine fun h => h.imp (fun s i s' hi hq he => ?_) (fun s i hi => (hiff s i hi).mpr) hs
    exact hstep s i s' hi ((hiff s i hi).mpr hq) he

/-! ## Machines that answer -/

section Answers
variable {τ ο : Type*}

def answers (step : σ → ι → ο × σ) : σ → List ι → List ο × σ
  | s, [] => ([], s)
  | s, i :: is => ((step s i).1 :: (answers step (step s i).2 is).1, (answers step (step s i).2 is).2)

def advance (step : σ → ι → ο × σ) (s : σ) (i : ι) : Except Empty σ := .ok (step s i).2

theorem answers_refine {step : σ → ι → ο × σ} {abs : τ → ι → ο × τ} {R : σ → τ → Prop} {P : τ → ι → Prop}
    (hstep : ∀ s t i, R s t → P t i → (step s i).1 = (abs t i).1 ∧ R (step s i).2 (abs t i).2)
    {t : τ} {is : List ι} (hrel : R s t) (his : Along (advance abs) P t is) :
    (answers step s is).1 = (answers abs t is).1 ∧ R (answers step s is).2 (answers abs t is).2 := by
  induction is generalizing s t with
  | nil => exact ⟨rfl, hrel⟩
  | cons i is ih =>
    obtain ⟨hans, hrel'⟩ := hstep s t i hrel his.1
    obtain ⟨hrest, hend⟩ := ih hrel' (his.2 _ rfl)
    exact ⟨congrArg₂ List.cons hans hrest, hend⟩

end Answers
end XyOS.Runs
