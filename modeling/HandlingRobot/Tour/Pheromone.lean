import HandlingRobot.Tour.AntRoutes

/-! # The pheromone over the iterations

`delta_pher` is documented as what the ants leave in one iteration. It is cleared before the loop
over the iterations and not inside it, so what is added to the pheromone at the end of an iteration
is all that was laid since the run began.

* **`UsesEdge`** — a route leads along an edge, in either direction.
* **`Colony.deposit`** — the pheromone laid on an edge in one iteration.
* **`antIter_pher`** — what one iteration does to `pher` and `delta_pher`.
* **`pher_recurrence_iff`** — the documented recurrence holds in every iteration exactly when there
  is at most one, or nothing is ever laid. -/

namespace HandlingRobot

/-! ## Edges -/

/-- Step `j` of a route leads from `x` to `y` or from `y` to `x`. -/
def StepUses (route : ℕ → ℕ) (j x y : ℕ) : Prop :=
  (route j = x ∧ route (j + 1) = y) ∨ (route j = y ∧ route (j + 1) = x)

instance (route : ℕ → ℕ) (j x y : ℕ) : Decidable (StepUses route j x y) :=
  inferInstanceAs (Decidable (_ ∨ _))

/-- One of the first `k` steps of a route leads along the edge between `x` and `y`. -/
def UsesEdge (route : ℕ → ℕ) (k x y : ℕ) : Prop := ∃ j < k, StepUses route j x y

instance (route : ℕ → ℕ) (k x y : ℕ) : Decidable (UsesEdge route k x y) :=
  inferInstanceAs (Decidable (∃ j < k, StepUses route j x y))

theorem stepUses_comm {route : ℕ → ℕ} {j x y : ℕ} : StepUses route j x y ↔ StepUses route j y x :=
  or_comm

theorem usesEdge_comm {route : ℕ → ℕ} {k x y : ℕ} :
    UsesEdge route k x y ↔ UsesEdge route k y x := by
  unfold UsesEdge
  simp only [stepUses_comm]

theorem usesEdge_succ {route : ℕ → ℕ} {k x y : ℕ} :
    UsesEdge route (k + 1) x y ↔ UsesEdge route k x y ∨ StepUses route k x y := by
  constructor
  · rintro ⟨j, hj, huse⟩
    rcases (by omega : j < k ∨ j = k) with hlt | rfl
    · exact Or.inl ⟨j, hlt, huse⟩
    · exact Or.inr huse
  · rintro (⟨j, hj, huse⟩ | huse)
    · exact ⟨j, Nat.lt_succ_of_lt hj, huse⟩
    · exact ⟨k, Nat.lt_succ_self k, huse⟩

/-- **A tour uses no edge twice.** -/
theorem IsTour.not_usesEdge {n st k x y : ℕ} {route : ℕ → ℕ} (h : IsTour n st route)
    (hk : k + 1 < n) (huse : StepUses route k x y) : ¬ UsesEdge route k x y := by
  rintro ⟨j, hj, huse'⟩
  have hinj := h.partialTour.inj
  -- both ends of step `j` would be ends of step `k`
  have hcases : (route j = route k ∧ route (j + 1) = route (k + 1)) ∨
      (route j = route (k + 1) ∧ route (j + 1) = route k) := by
    rcases huse with ⟨rfl, rfl⟩ | ⟨rfl, rfl⟩
    · exact huse'
    · exact huse'.symm
  rcases hcases with ⟨hstart, -⟩ | ⟨hstart, -⟩
  · exact absurd (hinj j (by omega) k (by omega) hstart) (by omega)
  · exact absurd (hinj j (by omega) (k + 1) hk hstart) (by omega)

/-- Two different points are the ends of every step of a tour. -/
theorem IsTour.step_ne {n st j : ℕ} {route : ℕ → ℕ} (h : IsTour n st route) (hj : j + 1 < n) :
    route j ≠ route (j + 1) := fun heq =>
  absurd (h.partialTour.inj j (by omega) (j + 1) hj heq) (by omega)

/-! ## What the ants lay -/

/-- **The pheromone laid on the edge between `x` and `y` in an iteration** with the routes of `t`:
`Q / len` for every ant whose route uses the edge. -/
def Colony.deposit (m : ℕ) (t : Colony) (x y : ℕ) : ℚ :=
  ((List.range m).map fun i =>
    if UsesEdge (t.routes i) (t.n - 1) x y then pherQ / t.len i else 0).sum

theorem Colony.deposit_comm (m : ℕ) (t : Colony) (x y : ℕ) : t.deposit m x y = t.deposit m y x := by
  simp only [Colony.deposit, usesEdge_comm (x := x)]

/-- `t` differs from `s` in `delta_pher` only, and there by `amount`. -/
def Colony.Laid (s : Colony) (amount : ℕ → ℕ → ℚ) (t : Colony) : Prop :=
  ∃ deltaPher, t = { s with deltaPher := deltaPher } ∧
    ∀ x y, deltaPher x y = s.deltaPher x y + amount x y

/-- The increments so far are the same in both directions. -/
def Colony.DeltaSymm (s : Colony) : Prop := ∀ x y, s.deltaPher x y = s.deltaPher y x

/-- **One step of a route**: the increment of its edge grows, in both directions. -/
theorem layStep_laid {s t u : Colony} {amount : ℕ → ℕ → ℚ} {i j : ℕ} (hsym : s.DeltaSymm)
    (hamount : ∀ x y, amount x y = amount y x) (ht : s.Laid amount t)
    (hne : s.routes i j ≠ s.routes i (j + 1)) (h : layStep i j t = some u) :
    s.Laid (fun x y => amount x y +
      if StepUses (s.routes i) j x y then pherQ / s.len i else 0) u := by
  obtain ⟨delta, rfl, hdelta⟩ := ht
  rw [layStep, Option.bind_eq_bind, Option.bind_eq_some_iff] at h
  obtain ⟨q, hq, hu⟩ := h
  obtain rfl := Option.some.inj hu
  have hval : pherQ / s.len i = q := by
    unfold divide at hq
    split_ifs at hq
    exact Option.some.inj hq
  refine ⟨_, rfl, fun x y => ?_⟩
  dsimp only
  rw [hval]
  generalize ha : s.routes i j = a at hne
  generalize hb : s.routes i (j + 1) = b at hne
  simp only [StepUses, ha, hb]
  -- the entry, its mirror image, or neither
  by_cases hba : x = b ∧ y = a
  · obtain ⟨rfl, rfl⟩ := hba
    rw [setCell_self, if_pos (Or.inr ⟨rfl, rfl⟩), hdelta, hsym, hamount, add_assoc]
  · rw [setCell_of_ne _ _ hba]
    by_cases hab : x = a ∧ y = b
    · obtain ⟨rfl, rfl⟩ := hab
      rw [setCell_self, if_pos (Or.inl ⟨rfl, rfl⟩), hdelta, add_assoc]
    · rw [setCell_of_ne _ _ hab, hdelta, if_neg, add_zero]
      rintro (⟨rfl, rfl⟩ | ⟨rfl, rfl⟩)
      · exact hab ⟨rfl, rfl⟩
      · exact hba ⟨rfl, rfl⟩

/-- Only the amounts matter. -/
theorem Colony.Laid.congr {s t : Colony} {amount amount' : ℕ → ℕ → ℚ} (h : s.Laid amount t)
    (heq : ∀ x y, amount x y = amount' x y) : s.Laid amount' t := by
  obtain ⟨delta, rfl, hdelta⟩ := h
  exact ⟨delta, rfl, fun x y => by rw [hdelta, heq]⟩

/-- **One route**: every edge of it gets `Q / len` once. -/
theorem layRoute_laid {s t u : Colony} {amount : ℕ → ℕ → ℚ} {st i : ℕ} (hsym : s.DeltaSymm)
    (hamount : ∀ x y, amount x y = amount y x) (htour : IsTour s.n st (s.routes i))
    (ht : s.Laid amount t) (h : forLoop 0 (s.n - 1) (fun j => layStep i j) t = some u) :
    s.Laid (fun x y => amount x y +
      if UsesEdge (s.routes i) (s.n - 1) x y then pherQ / s.len i else 0) u := by
  refine forLoop_invariant (I := fun k => s.Laid fun x y => amount x y +
    if UsesEdge (s.routes i) k x y then pherQ / s.len i else 0) (Nat.zero_le _) ?_ ?_ h
  · refine ht.congr fun x y => ?_
    rw [if_neg fun ⟨j, hj, _⟩ => absurd hj (Nat.not_lt_zero j), add_zero]
  · intro k a b _ hk ha hb
    have hamount' : ∀ x y,
        (amount x y + if UsesEdge (s.routes i) k x y then pherQ / s.len i else 0) =
          amount y x + if UsesEdge (s.routes i) k y x then pherQ / s.len i else 0 := by
      intro x y
      simp only [hamount x y, usesEdge_comm (x := x)]
    have hlaid := layStep_laid hsym hamount' ha (htour.step_ne (by omega)) hb
    refine hlaid.congr fun x y => ?_
    rw [add_assoc]
    congr 1
    simp only [usesEdge_succ]
    -- a tour does not come back to an edge
    by_cases huse : StepUses (s.routes i) k x y
    · rw [if_neg (htour.not_usesEdge (by omega) huse), if_pos huse, if_pos (Or.inr huse), zero_add]
    · rw [if_neg huse, add_zero]
      exact if_congr (or_iff_left huse).symm rfl rfl

/-- **The pheromone of an iteration**: the increments grow by what is laid in this iteration, and
the new pheromone takes the increments as a whole. -/
theorem layPheromone_laid {s u : Colony} {m st : ℕ} (hsym : s.DeltaSymm)
    (hall : ∀ i < m, IsTour s.n st (s.routes i)) (h : layPheromone m s = some u) :
    (∀ x y, u.deltaPher x y = s.deltaPher x y + s.deposit m x y) ∧
      ∀ x y, u.pher x y =
        if x < s.n ∧ y < s.n then (1 - rho) * s.pher x y + u.deltaPher x y else s.pher x y := by
  rw [layPheromone, Option.bind_eq_bind, Option.bind_eq_some_iff] at h
  obtain ⟨v, hv, hu⟩ := h
  have hlaid : s.Laid (s.deposit m) v := by
    refine forLoop_invariant (I := fun k => s.Laid (s.deposit k)) (Nat.zero_le m) ?_ ?_ hv
    · exact ⟨s.deltaPher, rfl, fun x y => (add_zero _).symm⟩
    · intro k a b _ hk ha hb
      have hroute := layRoute_laid hsym (s.deposit_comm k) (hall k hk) ha hb
      refine hroute.congr fun x y => ?_
      simp only [Colony.deposit, List.range_succ, List.map_append, List.map_cons, List.map_nil,
        List.sum_append, List.sum_cons, List.sum_nil, add_zero]
  obtain ⟨delta, rfl, hdelta⟩ := hlaid
  obtain rfl := Option.some.inj hu
  exact ⟨hdelta, fun x y => rfl⟩

/-! ## Iterations -/

/-- The tables between two iterations, the increments symmetric. -/
structure Colony.Marked (s₀ s : Colony) : Prop extends s₀.Frame s where
  ready : s.Ready
  deltaSymm : s.DeltaSymm

/-- **One iteration**, on tables the ants can work with. -/
theorem antIter_pher {s₀ s : Colony} (rand : ℕ → ℕ) (m tim iter : ℕ) {st : ℕ} (hst : st < s₀.n)
    (hs : s₀.Marked s) :
    Yields (antIter rand m st tim iter s) fun u => s₀.Marked u ∧
      ∃ t, iterRoutes rand m st tim s = some t ∧ t.n = s₀.n ∧ t.Ready ∧
        (∀ i < m, IsTour s₀.n st (t.routes i)) ∧
        (∀ x y, u.deltaPher x y = s.deltaPher x y + t.deposit m x y) ∧
        ∀ x < s₀.n, ∀ y < s₀.n, u.pher x y = (1 - rho) * s.pher x y + u.deltaPher x y := by
  obtain ⟨t, ht, hsame, htours⟩ := iterRoutes_yields rand m tim hs.ready (hs.n ▸ hst)
  rw [hs.n] at htours
  have hn : t.n = s₀.n := hsame.n.trans hs.n
  -- rating the routes changes neither the pheromone nor the routes
  have hready : (rateRoutes m iter t).Ready := (hsame.ready hs.ready).congr rfl rfl rfl rfl rfl
  have hsymm : (rateRoutes m iter t).DeltaSymm := fun x y => by
    show t.deltaPher x y = t.deltaPher y x
    rw [hsame.deltaPher]
    exact hs.deltaSymm x y
  have htours' : ∀ i < m, IsTour (rateRoutes m iter t).n st ((rateRoutes m iter t).routes i) :=
    fun i hi => hn.symm ▸ htours i hi
  obtain ⟨v, hv, hframe, hvready, -⟩ := layPheromone_yields m hready htours'
  obtain ⟨hdelta, hpher⟩ := layPheromone_laid hsymm htours' hv
  have hstep : antIter rand m st tim iter s = some { v with routes := fun _ _ => 0 } := by
    rw [antIter, ht]
    show (layPheromone m (rateRoutes m iter t)).bind _ = _
    rw [hv]
    rfl
  -- what has been laid is the deposit of these routes
  have hdelta' : ∀ x y, v.deltaPher x y = s.deltaPher x y + t.deposit m x y := by
    intro x y
    rw [hdelta, ← hsame.deltaPher]
    rfl
  refine ⟨_, hstep, ⟨⟨hframe.n.trans hn, ?_, ?_, ?_, ?_⟩, hvready.congr rfl rfl rfl rfl rfl, ?_⟩,
    t, ht, hn, hsame.ready hs.ready, htours, hdelta', fun x hx y hy => ?_⟩
  · exact hframe.px.trans (hsame.px.trans hs.px)
  · exact hframe.py.trans (hsame.py.trans hs.py)
  · exact hframe.clas.trans (hsame.clas.trans hs.clas)
  · exact hframe.path.trans (hsame.path.trans hs.path)
  · intro x y
    show v.deltaPher x y = v.deltaPher y x
    rw [hdelta', hdelta', hs.deltaSymm x y, t.deposit_comm]
  · show v.pher x y = _
    rw [hpher, if_pos ⟨hn.symm ▸ hx, hn.symm ▸ hy⟩, ← hsame.pher]
    rfl

/-! ## Runs -/

/-- The pheromone is the same in both directions. -/
def Colony.PherSymm (s : Colony) : Prop := ∀ x < s.n, ∀ y < s.n, s.pher x y = s.pher y x

/-- **The documented recurrence for iteration `t`**: what is left of the old pheromone, and what the
ants of this iteration lay. -/
def PherRecurrence (rand : ℕ → ℕ) (m : ℕ) (stPoint : ℤ) (tim t : ℕ) (s : Colony) : Prop :=
  ∃ a r b, antIters rand m stPoint tim t s.clear = some a ∧
    iterRoutes rand m stPoint tim a = some r ∧
    antIters rand m stPoint tim (t + 1) s.clear = some b ∧
    ∀ x < s.n, ∀ y < s.n, b.pher x y = (1 - rho) * a.pher x y + r.deposit m x y

/-- A run starts with tables in order and no increments. -/
theorem Colony.marked_clear {s : Colony} (hs : ∀ i < s.n, ∀ j < s.n, s.EntryOk i j) :
    s.Marked s.clear :=
  ⟨⟨rfl, rfl, rfl, rfl, rfl⟩, (Colony.iterated_clear hs 0).ready, fun _ _ => rfl⟩

/-- The first `k` iterations keep the pheromone symmetric. -/
theorem antIters_pher {s : Colony} (rand : ℕ → ℕ) (m tim k : ℕ) {st : ℕ} (hst : st < s.n)
    (hs : ∀ i < s.n, ∀ j < s.n, s.EntryOk i j) (hsym : s.PherSymm) :
    Yields (antIters rand m st tim k s.clear) fun u => s.Marked u ∧ u.PherSymm := by
  refine forLoop_yields (I := fun _ u => s.Marked u ∧ u.PherSymm) (Nat.zero_le k)
    ⟨Colony.marked_clear hs, hsym⟩ ?_
  rintro i u - - ⟨hmarked, hpher⟩
  refine (antIter_pher rand m tim i hst hmarked).imp ?_
  rintro v ⟨hv, t, -, -, -, -, -, hnew⟩
  refine ⟨hv, fun x hx y hy => ?_⟩
  rw [hv.n] at hx hy
  rw [hnew x hx y hy, hnew y hy x hx, hv.deltaSymm x y,
    hpher x (hmarked.n ▸ hx) y (hmarked.n ▸ hy)]

/-- The iteration behind the first `k` ones. -/
theorem antIters_succ {rand : ℕ → ℕ} {m tim k : ℕ} {stPoint : ℤ} {s a : Colony}
    (ha : antIters rand m stPoint tim k s = some a) :
    antIters rand m stPoint tim (k + 1) s = antIter rand m stPoint tim k a := by
  have hloop : antIters rand m stPoint tim (k + 1) s =
      (antIters rand m stPoint tim k s).bind (antIter rand m stPoint tim k) :=
    forLoop_succ (Nat.zero_le k) s
  rw [hloop, ha, Option.bind_some]

/-- **The recurrence holds for an iteration** exactly when nothing had been laid before it. -/
theorem pherRecurrence_iff_clean {s a : Colony} {rand : ℕ → ℕ} {m tim t st : ℕ} (hst : st < s.n)
    (ha : antIters rand m st tim t s.clear = some a) (hmarked : s.Marked a) :
    PherRecurrence rand m st tim t s ↔ ∀ x < s.n, ∀ y < s.n, a.deltaPher x y = 0 := by
  obtain ⟨b, hb, -, r, hr, -, -, -, hdelta, hpher⟩ := antIter_pher rand m tim t hst hmarked
  rw [← antIters_succ ha] at hb
  -- the new pheromone takes the old increments as well
  have hnew : ∀ x < s.n, ∀ y < s.n, (b.pher x y = (1 - rho) * a.pher x y + r.deposit m x y ↔
      a.deltaPher x y = 0) := by
    intro x hx y hy
    rw [hpher x hx y hy, hdelta, add_right_inj, add_eq_right]
  constructor
  · rintro ⟨a', r', b', ha', hr', hb', hrec⟩ x hx y hy
    obtain rfl := Option.some.inj (ha.symm.trans ha')
    obtain rfl := Option.some.inj (hr.symm.trans hr')
    obtain rfl := Option.some.inj (hb.symm.trans hb')
    exact (hnew x hx y hy).mp (hrec x hx y hy)
  · intro hclean
    exact ⟨a, r, b, ha, hr, hb, fun x hx y hy => (hnew x hx y hy).mpr (hclean x hx y hy)⟩

/-- Without ants, or with one point only, nothing is laid. -/
theorem Colony.deposit_eq_zero {m : ℕ} {t : Colony} (h : m = 0 ∨ t.n = 1) (x y : ℕ) :
    t.deposit m x y = 0 := by
  apply List.sum_eq_zero
  intro q hq
  obtain ⟨i, hi, rfl⟩ := List.mem_map.mp hq
  rw [List.mem_range] at hi
  rcases h with rfl | hn
  · exact absurd hi (Nat.not_lt_zero i)
  · exact if_neg fun ⟨j, hj, _⟩ => by omega

/-- With ants and at least two points something is laid, on the first edge of the first route. -/
theorem Colony.exists_deposit_pos {m st : ℕ} {t : Colony} (ht : t.Ready) (hm : 1 ≤ m) (hn : 2 ≤ t.n)
    (hall : ∀ i < m, IsTour t.n st (t.routes i)) :
    ∃ x < t.n, ∃ y < t.n, 0 < t.deposit m x y := by
  have hpart := (hall 0 hm).partialTour
  refine ⟨t.routes 0 0, hpart.lt 0 (by omega), t.routes 0 1, hpart.lt 1 (by omega), ?_⟩
  have hpos : ∀ i < m, 0 < pherQ / t.len i := by
    intro i hi
    have hone := one_le_len ht hn (hall i hi)
    have hlen : (0 : ℚ) < t.len i := by exact_mod_cast hone
    exact div_pos (by decide) hlen
  have huse : UsesEdge (t.routes 0) (t.n - 1) (t.routes 0 0) (t.routes 0 1) :=
    ⟨0, by omega, Or.inl ⟨rfl, rfl⟩⟩
  -- the first ant's share is one of the terms, and no term is negative
  have hmem : pherQ / (t.len 0 : ℚ) ∈ (List.range m).map fun i =>
      if UsesEdge (t.routes i) (t.n - 1) (t.routes 0 0) (t.routes 0 1) then pherQ / t.len i
      else 0 := by
    refine List.mem_map.mpr ⟨0, List.mem_range.mpr hm, ?_⟩
    exact if_pos huse
  refine (hpos 0 hm).trans_le (List.single_le_sum (fun q hq => ?_) _ hmem)
  obtain ⟨i, hi, rfl⟩ := List.mem_map.mp hq
  split_ifs
  · exact (hpos i (List.mem_range.mp hi)).le
  · exact le_rfl

/-- When nothing is ever laid the increments stay 0. -/
theorem antIters_clean {s : Colony} (rand : ℕ → ℕ) (m tim : ℕ) {st : ℕ} (hst : st < s.n)
    (hs : ∀ i < s.n, ∀ j < s.n, s.EntryOk i j) (h : m = 0 ∨ s.n = 1) (k : ℕ) :
    Yields (antIters rand m st tim k s.clear) fun u => s.Marked u ∧ ∀ x y, u.deltaPher x y = 0 := by
  refine forLoop_yields (I := fun _ u => s.Marked u ∧ ∀ x y, u.deltaPher x y = 0) (Nat.zero_le k)
    ⟨Colony.marked_clear hs, fun _ _ => rfl⟩ ?_
  rintro i u - - ⟨hmarked, hclean⟩
  refine (antIter_pher rand m tim i hst hmarked).imp ?_
  rintro v ⟨hv, t, -, hn, -, -, hdelta, -⟩
  refine ⟨hv, fun x y => ?_⟩
  rw [hdelta, hclean, zero_add]
  exact Colony.deposit_eq_zero (h.imp_right hn.trans) x y

/-- **In iteration 1 the recurrence fails**: what iteration 0 laid is added once more. -/
theorem not_pherRecurrence_one {s : Colony} (rand : ℕ → ℕ) {m : ℕ} (tim : ℕ) {st : ℕ}
    (hst : st < s.n) (hs : ∀ i < s.n, ∀ j < s.n, s.EntryOk i j) (hm : 1 ≤ m) (hn : 2 ≤ s.n) :
    ¬ PherRecurrence rand m st tim 1 s := by
  have hstart : antIters rand m st tim 0 s.clear = some s.clear := forLoop_self _ _ _
  obtain ⟨a, ha, hmarked, r, -, hrn, hready, htours, hdelta, -⟩ :=
    antIter_pher rand m tim 0 hst (Colony.marked_clear hs)
  rw [← antIters_succ hstart] at ha
  rw [pherRecurrence_iff_clean hst ha hmarked]
  intro hclean
  obtain ⟨x, hx, y, hy, hpos⟩ := Colony.exists_deposit_pos hready hm (hrn.symm ▸ hn)
    (hrn.symm ▸ htours)
  have hzero := hclean x (hrn ▸ hx) y (hrn ▸ hy)
  have hcleared : s.clear.deltaPher x y = 0 := rfl
  rw [hdelta, hcleared, zero_add] at hzero
  exact absurd hzero hpos.ne'

/-- **When the pheromone obeys its recurrence**, in a run from a given point on tables the ants can
work with. The pheromone stays symmetric in any case; every iteration adds what its own ants lay,
and no more, exactly when there is at most one iteration, or no ant, or one point only. -/
theorem pher_recurrence_iff (rand : ℕ → ℕ) (m totIter st tim : ℕ) (s : Colony) (hst : st < s.n)
    (hs : ∀ i < s.n, ∀ j < s.n, s.EntryOk i j) (hsym : s.PherSymm) :
    (∀ t ≤ totIter, ∃ a, antIters rand m st tim t s.clear = some a ∧ a.PherSymm) ∧
      ((∀ t < totIter, PherRecurrence rand m st tim t s) ↔ totIter ≤ 1 ∨ m = 0 ∨ s.n = 1) := by
  refine ⟨fun t _ => ?_, fun hall => ?_, fun h t ht => ?_⟩
  · obtain ⟨a, ha, -, hpher⟩ := antIters_pher rand m tim t hst hs hsym
    exact ⟨a, ha, hpher⟩
  · by_contra hnot
    exact not_pherRecurrence_one rand tim hst hs (by omega) (by omega) (hall 1 (by omega))
  · rcases h with htot | h
    · obtain rfl : t = 0 := by omega
      refine (pherRecurrence_iff_clean hst (forLoop_self _ _ _) (Colony.marked_clear hs)).mpr ?_
      exact fun x _ y _ => rfl
    · obtain ⟨a, ha, hmarked, hclean⟩ := antIters_clean rand m tim hst hs h t
      exact (pherRecurrence_iff_clean hst ha hmarked).mpr fun x _ y _ => hclean x y

/-! ## Two points -/

/-- Two points with the tables of `init_tag(0)`. -/
def Colony.tablesOfPair : Colony :=
  { Colony.ofPair (310, 155) (0, 0) with
    dis := fun i j => if i = j then 0 else 346
    idis := fun i j => if i = j then inf ^ beta else (100 / 346) ^ beta
    pher := fun _ _ => 1 }

theorem Colony.tablesOfPair_ok :
    ∀ i < Colony.tablesOfPair.n, ∀ j < Colony.tablesOfPair.n, Colony.tablesOfPair.EntryOk i j := by
  intro i _ j _
  refine ⟨fun hij => ?_, ?_, one_pos⟩
  · show (1 : ℤ) ≤ if i = j then 0 else 346
    rw [if_neg hij]
    decide
  · show (0 : ℚ) < if i = j then (inf : ℚ) ^ beta else (100 / 346) ^ beta
    split_ifs
    · exact pow_pos (by norm_num [inf]) beta
    · exact pow_pos (by norm_num) beta

/-- One iteration of 50 ants obeys the recurrence. -/
theorem oneIteration_recurrence :
    PherRecurrence (fun k => k) 50 1 0 0 Colony.tablesOfPair :=
  (pher_recurrence_iff (fun k => k) 50 1 1 0 Colony.tablesOfPair (by decide)
    Colony.tablesOfPair_ok fun _ _ _ _ => rfl).2.mpr (Or.inl le_rfl) 0 Nat.zero_lt_one

/-- **The pheromone of iteration 0 is added twice** in a run of two iterations of one ant. -/
theorem twoIterations_recurrence_fails :
    ¬ ∀ (rand : ℕ → ℕ) (m totIter st tim : ℕ) (s : Colony), st < s.n →
      (∀ i < s.n, ∀ j < s.n, s.EntryOk i j) → s.PherSymm →
      ∀ t < totIter, PherRecurrence rand m st tim t s := by
  intro h
  have hst : 1 < Colony.tablesOfPair.n := by decide
  refine not_pherRecurrence_one (fun k => k) 0 (m := 1) hst Colony.tablesOfPair_ok le_rfl
    (by decide) ?_
  exact h (fun k => k) 1 2 1 0 _ hst Colony.tablesOfPair_ok (fun _ _ _ _ => rfl) 1 (by decide)

end HandlingRobot
