import Mathlib.Data.List.Induction

/-! # Runs of a labelled transition system

A system is a partial step function `step : σ → α → Option σ`: `none` says that the action is not
enabled. A *schedule* is a list of actions, and every interleaving of the parties of a system is a
schedule.

* **`runSteps`** — the state a schedule leads to.
* **`runSteps_invariant`** — an invariant kept by every step holds after every run.
* **`StepsSatisfy`** — every step of a run meets a condition on the state it is taken in;
  **`runSteps_invariant_of_steps`** — the invariant rule for such runs;
  **`stepsSatisfy_of_invariant`** — what an invariant says about the steps themselves.
* **`StatesSatisfy`** — every state a run passes through has a property. -/

namespace HandlingRobot

variable {σ α : Type*} {step : σ → α → Option σ}

/-- The state a schedule leads to; `none` when an action is not enabled. -/
def runSteps (step : σ → α → Option σ) : σ → List α → Option σ
  | s, [] => some s
  | s, a :: as => (step s a).bind fun s' => runSteps step s' as

@[simp] theorem runSteps_nil (s : σ) : runSteps step s [] = some s := rfl

@[simp] theorem runSteps_cons (s : σ) (a : α) (as : List α) :
    runSteps step s (a :: as) = (step s a).bind fun s' => runSteps step s' as := rfl

/-- Running two schedules one after the other. -/
theorem runSteps_append (s : σ) (as bs : List α) :
    runSteps step s (as ++ bs) = (runSteps step s as).bind fun s' => runSteps step s' bs := by
  induction as generalizing s with
  | nil => rfl
  | cons a as ih =>
      rw [List.cons_append, runSteps_cons, runSteps_cons]
      cases step s a with
      | none => rfl
      | some s' => exact ih s'

/-- A run with one more action. -/
theorem runSteps_concat {s t : σ} {as : List α} {a : α}
    (h : runSteps step s (as ++ [a]) = some t) :
    ∃ m, runSteps step s as = some m ∧ step m a = some t := by
  rw [runSteps_append, Option.bind_eq_some_iff] at h
  obtain ⟨m, hm, hstep⟩ := h
  rw [runSteps_cons, Option.bind_eq_some_iff] at hstep
  obtain ⟨t', ht', heq⟩ := hstep
  rw [runSteps_nil, Option.some.injEq] at heq
  exact ⟨m, hm, heq ▸ ht'⟩

/-- Every step of the run from `s` meets `P`, a condition on the state the action is taken in. -/
def StepsSatisfy (step : σ → α → Option σ) (P : σ → α → Prop) : σ → List α → Prop
  | _, [] => True
  | s, a :: as => P s a ∧ ∀ s', step s a = some s' → StepsSatisfy step P s' as

instance StepsSatisfy.decidable {P : σ → α → Prop} [∀ s a, Decidable (P s a)] :
    ∀ s as, Decidable (StepsSatisfy step P s as)
  | _, [] => isTrue trivial
  | s, a :: as =>
      have : ∀ s', Decidable (StepsSatisfy step P s' as) := fun s' => StepsSatisfy.decidable s' as
      inferInstanceAs (Decidable (P s a ∧ ∀ s' ∈ step s a, StepsSatisfy step P s' as))

/-- Steps that meet two conditions. -/
theorem StepsSatisfy.and {P Q : σ → α → Prop} {s : σ} {as : List α}
    (hP : StepsSatisfy step P s as) (hQ : StepsSatisfy step Q s as) :
    StepsSatisfy step (fun s a => P s a ∧ Q s a) s as := by
  induction as generalizing s with
  | nil => trivial
  | cons a as ih => exact ⟨⟨hP.1, hQ.1⟩, fun s' hs' => ih (hP.2 s' hs') (hQ.2 s' hs')⟩

/-- **The invariant rule.** `I as s` relates a state to the schedule that led to it; if it holds at
the start and every step keeps it, it holds after every run. -/
theorem runSteps_invariant {I : List α → σ → Prop} {s₀ : σ} (h₀ : I [] s₀)
    (hstep : ∀ as s a s', I as s → step s a = some s' → I (as ++ [a]) s') :
    ∀ as s, runSteps step s₀ as = some s → I as s := by
  intro as
  induction as using List.reverseRecOn with
  | nil =>
      intro s h
      rw [runSteps_nil, Option.some.injEq] at h
      exact h ▸ h₀
  | append_singleton as a ih =>
      intro s h
      obtain ⟨m, hm, hs⟩ := runSteps_concat h
      exact hstep as m a s (ih m hm) hs

/-- The condition on the steps of a run, read off its last step. -/
theorem StepsSatisfy.concat {P : σ → α → Prop} {s m : σ} {as : List α} {a : α}
    (h : StepsSatisfy step P s (as ++ [a])) (hm : runSteps step s as = some m) :
    StepsSatisfy step P s as ∧ P m a := by
  induction as generalizing s with
  | nil =>
      rw [runSteps_nil, Option.some.injEq] at hm
      subst hm
      exact ⟨trivial, h.1⟩
  | cons b as ih =>
      rw [runSteps_cons, Option.bind_eq_some_iff] at hm
      obtain ⟨s', hs', hm'⟩ := hm
      have hrec := ih (h.2 s' hs') hm'
      refine ⟨⟨h.1, fun t ht => ?_⟩, hrec.2⟩
      rw [hs', Option.some.injEq] at ht
      exact ht ▸ hrec.1

/-- A schedule whose steps meet a condition begins with steps that do. -/
theorem StepsSatisfy.of_append {P : σ → α → Prop} {s : σ} {as bs : List α}
    (h : StepsSatisfy step P s (as ++ bs)) : StepsSatisfy step P s as := by
  induction as generalizing s with
  | nil => trivial
  | cons a as ih => exact ⟨h.1, fun s' hs' => ih (h.2 s' hs')⟩

/-- Steps that meet a condition, one schedule after the other. -/
theorem StepsSatisfy.append {P : σ → α → Prop} {s m : σ} {as bs : List α}
    (has : StepsSatisfy step P s as) (hm : runSteps step s as = some m)
    (hbs : StepsSatisfy step P m bs) : StepsSatisfy step P s (as ++ bs) := by
  induction as generalizing s with
  | nil =>
      rw [runSteps_nil, Option.some.injEq] at hm
      exact hm ▸ hbs
  | cons a as ih =>
      rw [runSteps_cons, Option.bind_eq_some_iff] at hm
      obtain ⟨s', hs', hm'⟩ := hm
      refine ⟨has.1, fun t ht => ?_⟩
      obtain rfl : s' = t := Option.some.inj (hs'.symm.trans ht)
      exact ih (has.2 s' hs') hm'

/-- **The invariant rule for runs whose steps all meet a condition.** -/
theorem runSteps_invariant_of_steps {I : List α → σ → Prop} {P : σ → α → Prop} {s₀ : σ}
    (h₀ : I [] s₀)
    (hstep : ∀ as s a s', I as s → P s a → step s a = some s' → I (as ++ [a]) s') :
    ∀ as s, StepsSatisfy step P s₀ as → runSteps step s₀ as = some s → I as s := by
  intro as
  induction as using List.reverseRecOn with
  | nil =>
      intro s _ h
      rw [runSteps_nil, Option.some.injEq] at h
      exact h ▸ h₀
  | append_singleton as a ih =>
      intro s hP h
      obtain ⟨m, hm, hs⟩ := runSteps_concat h
      obtain ⟨hP', ha⟩ := hP.concat hm
      exact hstep as m a s (ih m hP' hm) ha hs

/-- When every step that meets `P` keeps `I`, and every step taken under `I` meets `Q`, a run of
steps that meet `P` is a run of steps that meet `Q`. -/
theorem stepsSatisfy_of_invariant {I : σ → Prop} {P Q : σ → α → Prop}
    (hstep : ∀ s a s', I s → P s a → step s a = some s' → I s')
    (hQ : ∀ s a s', I s → step s a = some s' → Q s a) :
    ∀ as s t, I s → StepsSatisfy step P s as → runSteps step s as = some t →
      StepsSatisfy step Q s as := by
  intro as
  induction as with
  | nil => exact fun _ _ _ _ _ => trivial
  | cons a as ih =>
      intro s t hs hP hrun
      rw [runSteps_cons, Option.bind_eq_some_iff] at hrun
      obtain ⟨s', hs', hrun'⟩ := hrun
      refine ⟨hQ s a s' hs hs', fun u hu => ?_⟩
      obtain rfl : s' = u := Option.some.inj (hs'.symm.trans hu)
      exact ih s' t (hstep s a s' hs hP.1 hs') (hP.2 s' hs') hrun'

/-- Every state the run from `s` passes through, `s` included, has the property `Q`. -/
def StatesSatisfy (step : σ → α → Option σ) (Q : σ → Prop) : σ → List α → Prop
  | s, [] => Q s
  | s, a :: as => Q s ∧ ∀ s', step s a = some s' → StatesSatisfy step Q s' as

/-- The first state of a run is one of its states. -/
theorem StatesSatisfy.head {Q : σ → Prop} {s : σ} {as : List α} (h : StatesSatisfy step Q s as) :
    Q s := by
  cases as with
  | nil => exact h
  | cons a as => exact h.1

/-- The last state of a run is one of its states. -/
theorem StatesSatisfy.of_run {Q : σ → Prop} {s t : σ} {as : List α}
    (h : StatesSatisfy step Q s as) (hrun : runSteps step s as = some t) : Q t := by
  induction as generalizing s with
  | nil =>
      rw [runSteps_nil, Option.some.injEq] at hrun
      exact hrun ▸ h
  | cons a as ih =>
      rw [runSteps_cons, Option.bind_eq_some_iff] at hrun
      obtain ⟨s', hs', hrun'⟩ := hrun
      exact ih (h.2 s' hs') hrun'

/-- An invariant kept by the steps that meet `P` holds in every state of a run of such steps. -/
theorem statesSatisfy_of_steps {I Q : σ → Prop} {P : σ → α → Prop} (hIQ : ∀ s, I s → Q s)
    (hstep : ∀ s a s', I s → P s a → step s a = some s' → I s') :
    ∀ as s, I s → StepsSatisfy step P s as → StatesSatisfy step Q s as := by
  intro as
  induction as with
  | nil => exact fun s hs _ => hIQ s hs
  | cons a as ih =>
      intro s hs hP
      exact ⟨hIQ s hs, fun s' h => ih s' (hstep s a s' hs hP.1 h) (hP.2 s' h)⟩

/-- When a step that breaks `P` leads to a state without `Q`, a run through states with `Q` has
taken only steps with `P`. -/
theorem stepsSatisfy_of_states {Q : σ → Prop} {P : σ → α → Prop}
    (h : ∀ s a, ∃ s', step s a = some s' ∧ (Q s' → P s a)) :
    ∀ as s, StatesSatisfy step Q s as → StepsSatisfy step P s as := by
  intro as
  induction as with
  | nil => exact fun s _ => trivial
  | cons a as ih =>
      intro s hs
      obtain ⟨s', hs', hP⟩ := h s a
      exact ⟨hP (hs.2 s' hs').head, fun t ht => ih t (hs.2 t ht)⟩

end HandlingRobot
