import Mathlib.Data.Nat.Notation

/-! # Counting loops that can fail

* **`Yields`** — a computation that may fail succeeds, with a result that satisfies a predicate: the
  total-correctness reading of a postcondition.
* **`forLoop`** — the loop `for (i = lo; i < hi; ++i)` over a state, with a body that may fail.
* **`forLoop_yields`** — its invariant rule, **`forLoop_invariant`**, the rule for loops that are
  known to succeed, and **`foldlM_ends`**, **`foldlM_hom`** and **`foldlM_filter`**, for a loop over
  a list.
* **`setCell`** — the assignment `a[i][j] = v` to a table. -/

namespace HandlingRobot

variable {σ τ : Type*}

/-! ## Postconditions -/

/-- The computation succeeds, and its result satisfies `Q`. -/
def Yields (o : Option σ) (Q : σ → Prop) : Prop := ∃ s, o = some s ∧ Q s

theorem yields_some {Q : σ → Prop} {s : σ} (h : Q s) : Yields (some s) Q := ⟨s, rfl, h⟩

/-- Sequencing: the continuation is run on results that satisfy the middle predicate. -/
theorem Yields.bind {o : Option σ} {Q : σ → Prop} {f : σ → Option τ} {R : τ → Prop}
    (h : Yields o Q) (hf : ∀ s, Q s → Yields (f s) R) : Yields (o.bind f) R := by
  obtain ⟨s, rfl, hs⟩ := h
  exact hf s hs

/-- Consequence. -/
theorem Yields.imp {o : Option σ} {Q R : σ → Prop} (h : Yields o Q) (hQR : ∀ s, Q s → R s) :
    Yields o R := by
  obtain ⟨s, hs, hq⟩ := h
  exact ⟨s, hs, hQR s hq⟩

/-- What is known of the result of a computation that succeeds. -/
theorem Yields.of_eq_some {o : Option σ} {Q : σ → Prop} {s : σ} (h : Yields o Q)
    (hs : o = some s) : Q s := by
  obtain ⟨s', hs', hq⟩ := h
  rw [hs, Option.some.injEq] at hs'
  exact hs' ▸ hq

/-! ## Loops -/

/-- `k` turns of a loop body, the first one with the counter at `i`. -/
def loopFrom (f : ℕ → σ → Option σ) : ℕ → ℕ → σ → Option σ
  | 0, _, s => some s
  | k + 1, i, s => (f i s).bind (loopFrom f k (i + 1))

/-- The loop `for (i = lo; i < hi; ++i)`. -/
def forLoop (lo hi : ℕ) (f : ℕ → σ → Option σ) (s : σ) : Option σ := loopFrom f (hi - lo) lo s

theorem loopFrom_yields {f : ℕ → σ → Option σ} {I : ℕ → σ → Prop} (k : ℕ) :
    ∀ i s, I i s → (∀ j s, i ≤ j → j < i + k → I j s → Yields (f j s) (I (j + 1))) →
      Yields (loopFrom f k i s) (I (i + k)) := by
  induction k with
  | zero => exact fun i s hs _ => yields_some hs
  | succ k ih =>
      intro i s hs hstep
      refine Yields.bind (hstep i s (Nat.le_refl i) (by omega) hs) fun s' hs' => ?_
      have hrest := ih (i + 1) s' hs' fun j t hj hjk => hstep j t (by omega) (by omega)
      rwa [Nat.add_right_comm] at hrest

/-- **The invariant rule for counting loops**: the body succeeds wherever the invariant holds and
carries it to the next value of the counter. -/
theorem forLoop_yields {f : ℕ → σ → Option σ} {I : ℕ → σ → Prop} {lo hi : ℕ} {s : σ}
    (hle : lo ≤ hi) (h₀ : I lo s)
    (hstep : ∀ i s, lo ≤ i → i < hi → I i s → Yields (f i s) (I (i + 1))) :
    Yields (forLoop lo hi f s) (I hi) := by
  have h := loopFrom_yields (hi - lo) lo s h₀ fun j t hj hjk => hstep j t hj (by omega)
  rwa [Nat.add_sub_cancel' hle] at h

theorem loopFrom_succ (f : ℕ → σ → Option σ) (k : ℕ) :
    ∀ i s, loopFrom f (k + 1) i s = (loopFrom f k i s).bind (f (i + k)) := by
  induction k with
  | zero =>
      intro i s
      exact Option.bind_fun_some (f i s)
  | succ k ih =>
      intro i s
      have hrec : loopFrom f (k + 1) (i + 1) =
          fun t => (loopFrom f k (i + 1) t).bind (f (i + (k + 1))) := by
        funext t
        rw [ih, Nat.add_right_comm, Nat.add_assoc]
      rw [loopFrom, hrec, loopFrom, Option.bind_assoc]

/-- The last turn of a loop. -/
theorem forLoop_succ {f : ℕ → σ → Option σ} {lo hi : ℕ} (hle : lo ≤ hi) (s : σ) :
    forLoop lo (hi + 1) f s = (forLoop lo hi f s).bind (f hi) := by
  rw [forLoop, forLoop, Nat.succ_sub hle, loopFrom_succ, Nat.add_sub_cancel' hle]

/-- A loop whose counter starts behind its bound. -/
theorem forLoop_of_le {f : ℕ → σ → Option σ} {lo hi : ℕ} (h : hi ≤ lo) (s : σ) :
    forLoop lo hi f s = some s := by
  rw [forLoop, Nat.sub_eq_zero_of_le h]
  rfl

/-- A loop whose counter starts at its bound. -/
@[simp] theorem forLoop_self (f : ℕ → σ → Option σ) (lo : ℕ) (s : σ) :
    forLoop lo lo f s = some s := forLoop_of_le (Nat.le_refl lo) s

/-- **The invariant rule for loops that are known to succeed**: what every successful turn keeps. -/
theorem forLoop_invariant {f : ℕ → σ → Option σ} {I : ℕ → σ → Prop} {lo hi : ℕ} {s t : σ}
    (hle : lo ≤ hi) (h₀ : I lo s)
    (hstep : ∀ i u v, lo ≤ i → i < hi → I i u → f i u = some v → I (i + 1) v)
    (h : forLoop lo hi f s = some t) : I hi t := by
  induction hle generalizing t with
  | refl =>
      rw [forLoop_self, Option.some.injEq] at h
      exact h ▸ h₀
  | @step hi hle ih =>
      rw [forLoop_succ hle, Option.bind_eq_some_iff] at h
      obtain ⟨u, hu, ht⟩ := h
      have hI := ih (fun i u v hi hilt => hstep i u v hi (Nat.lt_succ_of_lt hilt)) hu
      exact hstep hi u t hle (Nat.lt_succ_self hi) hI ht

/-! ## Loops over a list -/

/-- **A map that commutes with the body commutes with the loop.** -/
theorem foldlM_hom {α : Type*} {step : σ → α → Option σ} (g : σ → σ)
    (hstep : ∀ s x, step (g s) x = (step s x).map g) (l : List α) :
    ∀ s, l.foldlM step (g s) = (l.foldlM step s).map g := by
  induction l with
  | nil => exact fun _ => rfl
  | cons x l ih =>
      intro s
      rw [List.foldlM_cons, List.foldlM_cons, hstep]
      cases step s x with
      | none => rfl
      | some t => exact ih t

/-- What a turn needs to end well, the loop needs as well. -/
theorem foldlM_back {α : Type*} {step : σ → α → Option σ} {P : σ → Prop}
    (hback : ∀ s x s', step s x = some s' → P s' → P s) (l : List α) :
    ∀ {s s'}, l.foldlM step s = some s' → P s' → P s := by
  induction l with
  | nil =>
      intro s s' h hP
      exact Option.some.inj h ▸ hP
  | cons x l ih =>
      intro s s' h hP
      rw [List.foldlM_cons, Option.bind_eq_bind, Option.bind_eq_some_iff] at h
      obtain ⟨t, ht, hrest⟩ := h
      exact hback s x t ht (ih hrest hP)

/-- **Checks in every turn are one check at the end**, when what fails a check fails all later
ones. -/
theorem foldlM_filter {α : Type*} {step stepIn : σ → α → Option σ} {P : σ → Bool}
    (hstep : ∀ s x, P s = true → stepIn s x = (step s x).filter P)
    (hback : ∀ s x s', step s x = some s' → P s' = true → P s = true) (l : List α) :
    ∀ {s}, P s = true → l.foldlM stepIn s = (l.foldlM step s).filter P := by
  -- element after element; one that fails the test is passed over
  induction l with
  | nil =>
      intro s hs
      exact (Option.filter_some_pos hs).symm
  | cons x l ih =>
      intro s hs
      rw [List.foldlM_cons, List.foldlM_cons, hstep s x hs]
      cases hx : step s x with
      | none => rfl
      | some t =>
          by_cases ht : P t = true
          · rw [Option.filter_some_pos ht]
            exact ih ht
          · -- the check fails here, and would fail at the end
            rw [Option.filter_some_neg (Bool.of_not_eq_true ht)]
            show none = (l.foldlM step t).filter P
            cases hrest : l.foldlM step t with
            | none => rfl
            | some u =>
                have hu : P u = false :=
                  Bool.of_not_eq_true fun hu => ht (foldlM_back hback l hrest hu)
                rw [Option.filter_some_neg hu]

/-- **The invariant rule for loops over a list** whose body needs fuel: if every turn ends, with the
entry added to those that the invariant speaks of, so does the loop. -/
theorem foldlM_ends {α : Type*} (step : ℕ → σ → α → Option σ) (I : List α → σ → Prop)
    (P : α → Prop)
    (hstep : ∀ done s x, I done s → P x →
      ∃ N s', I (done ++ [x]) s' ∧ ∀ fuel, N ≤ fuel → step fuel s x = some s') (l : List α) :
    ∀ done s, I done s → (∀ x ∈ l, P x) →
      ∃ N s', I (done ++ l) s' ∧ ∀ fuel, N ≤ fuel → l.foldlM (step fuel) s = some s' := by
  induction l with
  | nil =>
      intro done s h _
      exact ⟨0, s, by rwa [List.append_nil], fun _ _ => rfl⟩
  | cons x l ih =>
      intro done s h hP
      obtain ⟨N, s', h', hrun⟩ := hstep done s x h (hP x List.mem_cons_self)
      obtain ⟨M, s'', h'', hrest⟩ := ih (done ++ [x]) s' h' fun y hy =>
        hP y (List.mem_cons_of_mem x hy)
      refine ⟨max N M, s'', ?_, fun fuel hfuel => ?_⟩
      · rwa [List.append_assoc] at h''
      · have hN : N ≤ fuel := Nat.le_trans (Nat.le_max_left N M) hfuel
        have hM : M ≤ fuel := Nat.le_trans (Nat.le_max_right N M) hfuel
        rw [List.foldlM_cons, hrun fuel hN, Option.bind_eq_bind, Option.bind_some]
        exact hrest fuel hM

/-! ## Tables -/

/-- The assignment `a[i][j] = v`. -/
def setCell (a : ℕ → ℕ → τ) (i j : ℕ) (v : τ) : ℕ → ℕ → τ :=
  fun i' j' => if i' = i ∧ j' = j then v else a i' j'

@[simp] theorem setCell_self (a : ℕ → ℕ → τ) (i j : ℕ) (v : τ) : setCell a i j v i j = v :=
  if_pos ⟨rfl, rfl⟩

theorem setCell_of_ne {i j i' j' : ℕ} (a : ℕ → ℕ → τ) (v : τ) (h : ¬ (i' = i ∧ j' = j)) :
    setCell a i j v i' j' = a i' j' := if_neg h

/-- A cell keeps its property when a value that has it is assigned somewhere. -/
theorem setCell_keeps (P : τ → Prop) {a : ℕ → ℕ → τ} {i j i' j' : ℕ} {v : τ} (ha : P (a i' j'))
    (hv : P v) : P (setCell a i j v i' j') := by
  by_cases h : i' = i ∧ j' = j
  · rwa [setCell, if_pos h]
  · rwa [setCell_of_ne a v h]

end HandlingRobot
