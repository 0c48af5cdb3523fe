import Mathlib.Data.Finset.Card
import Mathlib.Data.List.Nodup
import Mathlib.Logic.Relation

/-! # Breadth-first exploration

A queue of vertices that were found but not looked at yet, and the list of those that were. Looking
at a vertex puts its new successors at the end of the queue.

* **`Exploration`**, **`visit`**, **`turn`** — the state and its steps.
* **`Exploration.Inv`** — the invariant, kept by every turn (`Exploration.Inv.turn`).
* **`Exploration.Inv.mem_iff`** — with an empty queue exactly the reachable vertices are found.
* **`explore_ends`** — a simulation of the turns ends, if the vertices are finite in number. -/

namespace HandlingRobot

variable {V : Type*} [DecidableEq V]

/-- **The state of an exploration.** -/
structure Exploration (V : Type*) where
  /-- The vertices that were looked at, in this order. -/
  done : List V
  /-- The vertices that wait. -/
  queue : List V

/-- All vertices found so far, in the order in which they were found. -/
def Exploration.found (e : Exploration V) : List V := e.done ++ e.queue

/-- A vertex that is new joins the queue. -/
def Exploration.visit (e : Exploration V) (q : V) : Exploration V :=
  if q ∈ e.found then e else { e with queue := e.queue ++ [q] }

/-- The exploration at its start. -/
def Exploration.init (s : V) : Exploration V := ⟨[], [s]⟩

/-- The first vertex of the queue is looked at. -/
def Exploration.turn (next : V → List V) (e : Exploration V) : Exploration V :=
  match e.queue with
  | [] => e
  | p :: rest => (next p).foldl Exploration.visit ⟨e.done ++ [p], rest⟩

variable {next : V → List V} {s : V} {e : Exploration V}

/-- `q` is reached from `p`. -/
def Reach (next : V → List V) : V → V → Prop := Relation.ReflTransGen fun p q => q ∈ next p

/-! ## One visit -/

@[simp] theorem Exploration.visit_done (e : Exploration V) (q : V) : (e.visit q).done = e.done := by
  unfold Exploration.visit
  split_ifs <;> rfl

theorem Exploration.visit_found (e : Exploration V) (q : V) :
    (e.visit q).found = if q ∈ e.found then e.found else e.found ++ [q] := by
  unfold Exploration.visit
  split_ifs with h
  · rfl
  · exact (List.append_assoc e.done e.queue [q]).symm

theorem Exploration.mem_visit_found {q r : V} : r ∈ (e.visit q).found ↔ r ∈ e.found ∨ r = q := by
  rw [Exploration.visit_found]
  split_ifs with h
  · constructor
    · exact Or.inl
    · rintro (hr | rfl)
      · exact hr
      · exact h
  · rw [List.mem_append, List.mem_singleton]

theorem Exploration.visit_nodup (h : e.found.Nodup) (q : V) : (e.visit q).found.Nodup := by
  rw [Exploration.visit_found]
  split_ifs with hq
  · exact h
  · rw [← List.concat_eq_append]
    exact h.concat hq

/-! ## Several visits -/

theorem Exploration.foldl_visit_done (l : List V) :
    ∀ e : Exploration V, (l.foldl Exploration.visit e).done = e.done := by
  induction l with
  | nil => exact fun _ => rfl
  | cons q l ih => exact fun e => (ih (e.visit q)).trans (e.visit_done q)

theorem Exploration.mem_foldl_visit {r : V} (l : List V) :
    ∀ {e : Exploration V}, r ∈ (l.foldl Exploration.visit e).found ↔ r ∈ e.found ∨ r ∈ l := by
  induction l with
  | nil => simp
  | cons q l ih =>
      intro e
      rw [List.foldl_cons, ih, Exploration.mem_visit_found, List.mem_cons, or_assoc]

theorem Exploration.foldl_visit_nodup (l : List V) :
    ∀ {e : Exploration V}, e.found.Nodup → (l.foldl Exploration.visit e).found.Nodup := by
  induction l with
  | nil => exact fun h => h
  | cons q l ih => exact fun h => ih (Exploration.visit_nodup h q)

/-! ## The invariant -/

/-- **The invariant of an exploration from `s`.** -/
structure Exploration.Inv (next : V → List V) (s : V) (e : Exploration V) : Prop where
  nodup : e.found.Nodup
  start : s ∈ e.found
  reach : ∀ q ∈ e.found, Reach next s q
  closed : ∀ p ∈ e.done, ∀ q ∈ next p, q ∈ e.found

omit [DecidableEq V] in
theorem Exploration.inv_init (next : V → List V) (s : V) : (Exploration.init s).Inv next s where
  nodup := List.nodup_singleton s
  start := List.mem_singleton_self s
  reach := fun _ hq => List.mem_singleton.mp hq ▸ .refl
  closed := fun _ hp => absurd hp List.not_mem_nil

/-- **A turn keeps the invariant.** -/
theorem Exploration.Inv.turn (h : e.Inv next s) : (e.turn next).Inv next s := by
  unfold Exploration.turn
  rcases hqueue : e.queue with _ | ⟨p, rest⟩
  · exact h
  · have hfound : (Exploration.mk (e.done ++ [p]) rest).found = e.found := by
      rw [Exploration.found, Exploration.found, hqueue, List.append_assoc, List.singleton_append]
    have hp : p ∈ e.found := by
      rw [Exploration.found, hqueue]
      exact List.mem_append_right _ List.mem_cons_self
    refine ⟨?_, ?_, fun q hq => ?_, fun r hr q hq => ?_⟩
    · exact Exploration.foldl_visit_nodup _ (hfound ▸ h.nodup)
    · exact (Exploration.mem_foldl_visit _).mpr (Or.inl (hfound ▸ h.start))
    · rcases (Exploration.mem_foldl_visit _).mp hq with hq | hq
      · exact h.reach q (hfound ▸ hq)
      · exact (h.reach p hp).tail hq
    · rw [Exploration.foldl_visit_done] at hr
      rcases List.mem_append.mp hr with hr | hr
      · exact (Exploration.mem_foldl_visit _).mpr (Or.inl (hfound ▸ h.closed r hr q hq))
      · obtain rfl := List.mem_singleton.mp hr
        exact (Exploration.mem_foldl_visit _).mpr (Or.inr hq)

omit [DecidableEq V] in
/-- **An empty queue**: exactly the reachable vertices are found. -/
theorem Exploration.Inv.mem_iff (h : e.Inv next s) (hqueue : e.queue = []) {q : V} :
    q ∈ e.done ↔ Reach next s q := by
  have hfound : e.found = e.done := by rw [Exploration.found, hqueue, List.append_nil]
  constructor
  · exact fun hq => h.reach q (hfound ▸ hq)
  · intro hq
    induction hq with
    | refl => exact hfound ▸ h.start
    | tail _ hstep ih => exact hfound ▸ h.closed _ ih _ hstep

/-- No more vertices are looked at than there are. -/
theorem Exploration.Inv.done_length_le (h : e.Inv next s) {U : Finset V}
    (hU : ∀ q, Reach next s q → q ∈ U) : e.done.length ≤ U.card := by
  have hnodup : e.done.Nodup := h.nodup.of_append_left
  rw [← List.toFinset_card_of_nodup hnodup]
  refine Finset.card_le_card fun q hq => hU q (h.reach q ?_)
  exact List.mem_append_left _ (List.mem_toFinset.mp hq)

theorem Exploration.turn_done_length (hqueue : e.queue ≠ []) :
    (e.turn next).done.length = e.done.length + 1 := by
  unfold Exploration.turn
  rcases hq : e.queue with _ | ⟨p, rest⟩
  · exact absurd hq hqueue
  · rw [Exploration.foldl_visit_done, List.length_append, List.length_singleton]

/-- **A program that makes the turns of an exploration ends**: `loop` on states `σ`, where `R` says
which exploration a state stands for. -/
theorem explore_ends {σ : Type*} (loop : ℕ → σ → Option σ) {R : σ → Exploration V → Prop}
    (hstop : ∀ fuel t e, R t e → e.queue = [] → loop (fuel + 1) t = some t)
    (hturn : ∀ t e, R t e → e.Inv next s → e.queue ≠ [] →
      ∃ t', R t' (e.turn next) ∧ ∀ fuel, loop (fuel + 1) t = loop fuel t')
    {U : Finset V} (hU : ∀ q, Reach next s q → q ∈ U) (n : ℕ) :
    ∀ t e, R t e → e.Inv next s → U.card ≤ e.done.length + n →
      ∃ t' e', R t' e' ∧ e'.Inv next s ∧ e'.queue = [] ∧
        ∀ fuel, n < fuel → loop fuel t = some t' := by
  induction n with
  | zero =>
      intro t e hR hinv hle
      refine ⟨t, e, hR, hinv, ?_, fun fuel hfuel => ?_⟩
      all_goals
        -- a further turn would find more than all vertices
        have hempty : e.queue = [] := by
          by_contra hne
          have hlen := (hinv.turn).done_length_le hU
          rw [Exploration.turn_done_length hne] at hlen
          omega
      · exact hempty
      · obtain ⟨k, rfl⟩ := Nat.exists_eq_add_of_le' hfuel
        exact hstop k t e hR hempty
  | succ n ih =>
      intro t e hR hinv hle
      by_cases hempty : e.queue = []
      · refine ⟨t, e, hR, hinv, hempty, fun fuel hfuel => ?_⟩
        obtain ⟨k, rfl⟩ := Nat.exists_eq_add_of_le' (Nat.le_of_lt hfuel)
        exact hstop (k + n) t e hR hempty
      -- one turn, and then the others by induction
      · obtain ⟨t', hR', hstep⟩ := hturn t e hR hinv hempty
        obtain ⟨t'', e'', hR'', hinv'', hq'', hloop⟩ := ih t' (e.turn next) hR' hinv.turn (by
          rw [Exploration.turn_done_length hempty]
          omega)
        refine ⟨t'', e'', hR'', hinv'', hq'', fun fuel hfuel => ?_⟩
        obtain ⟨k, rfl⟩ := Nat.exists_eq_add_of_le' (Nat.succ_le_of_lt (Nat.zero_lt_of_lt hfuel))
        rw [hstep]
        exact hloop k (by omega)

end HandlingRobot
