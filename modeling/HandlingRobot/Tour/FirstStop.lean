import HandlingRobot.Tour.AntRoutes

/-! # The first stop of a tour

The selection loop takes the first point at which the accumulated weight exceeds the drawn rate. If
`rand()` returns 0 the rate is 0, and the loop stops at once: every ant goes to point 0 first, in
all iterations, and so does the tour.

* **`roulette_zero`**, **`unvisited_one`** — the choice of a point for the rate 0.
* **`moveAnts_first`**, **`iterRoutes_first`**, **`antIters_first`** — the ants of an iteration, and
  of all iterations.
* **`ant_first`** — the tour. -/

namespace HandlingRobot

/-- `rand()` that returns 0 whenever it is called. -/
def randZero : ℕ → ℕ := fun _ => 0

/-! ## One move -/

/-- For the rate 0 the loop takes the first point. -/
theorem roulette_zero {k : ℕ} {p : ℚ} (hp : 0 < p) (rest : List (ℕ × ℚ)) :
    roulette 0 0 ((k, p) :: rest) = some k := by
  unfold roulette
  rw [zero_add, if_pos hp]

/-- After the starting point, point 0 comes first among the points to go to. -/
theorem unvisited_one {n st : ℕ} (hn : 0 < n) (hst : st ≠ 0) {route : ℕ → ℕ} (h : route 0 = st) :
    ∃ rest, unvisited n 1 route = 0 :: rest := by
  obtain ⟨k, rfl⟩ := Nat.exists_eq_succ_of_ne_zero (Nat.ne_of_gt hn)
  have hhead : 0 ∉ (List.range 1).map route := by simpa [h] using hst.symm
  have hrange : List.range (k + 1) = 0 :: (List.range k).map Nat.succ := List.range_succ_eq_map
  exact ⟨_, by rw [unvisited, hrange, List.filter_cons_of_pos (by simpa using hhead)]⟩

/-- A move writes one point of a route. -/
theorem moveAnt_sameTables (rand : ℕ → ℕ) (j i : ℕ) (s : Colony) :
    s.SameTables (moveAnt rand j i s) ∧
      ∀ a l, ¬ (a = i ∧ l = j) → (moveAnt rand j i s).routes a l = s.routes a l := by
  unfold moveAnt
  dsimp only
  split
  · exact ⟨⟨⟨rfl, rfl, rfl, rfl, rfl⟩, rfl, rfl, rfl, rfl, rfl⟩, fun a l hal =>
      setCell_of_ne _ _ hal⟩
  · exact ⟨⟨⟨rfl, rfl, rfl, rfl, rfl⟩, rfl, rfl, rfl, rfl, rfl⟩, fun _ _ _ => rfl⟩

/-- **The first move leads to point 0.** -/
theorem moveAnt_first {s : Colony} {st i : ℕ} (hs : s.Ready) (hst : st < s.n) (hst0 : st ≠ 0)
    (h : s.routes i 0 = st) : (moveAnt randZero 1 i s).routes i 1 = 0 := by
  obtain ⟨rest, hrest⟩ := unvisited_one (by omega : 0 < s.n) hst0 h
  have hok := hs.entry st hst 0 (by omega)
  have hrate : ∀ x, randn (randZero s.calls) 0 x = 0 := fun x => by simp [randn, randZero]
  have hpick : roulette 0 0 (s.weights st (unvisited s.n 1 (s.routes i))) = some 0 := by
    rw [hrest]
    exact roulette_zero (mul_pos hok.pher hok.idis) _
  unfold moveAnt
  dsimp only
  rw [Nat.sub_self, h, hrate, hpick]
  exact setCell_self _ _ _ _

/-! ## The ants -/

/-- The `j`-th move of all ants: after the first one they are at point 0, and later ones leave that
as it is. -/
theorem moveAnts_first {s : Colony} (m : ℕ) {st j : ℕ} (hs : s.Ready) (hst : st < s.n)
    (hst0 : st ≠ 0) (hj : 1 ≤ j) (h0 : ∀ a < m, s.routes a 0 = st)
    (h1 : 2 ≤ j → ∀ a < m, s.routes a 1 = 0) :
    Yields (forLoop 0 m (fun i s => some (moveAnt randZero j i s)) s) fun t =>
      s.SameTables t ∧ (∀ a < m, t.routes a 0 = st) ∧ ∀ a < m, t.routes a 1 = 0 := by
  -- in the first round the ants before `i` have moved
  have hloop := forLoop_yields (f := fun i s => some (moveAnt randZero j i s))
    (I := fun i t => s.SameTables t ∧ (∀ a < m, t.routes a 0 = st) ∧
      ∀ a < m, 2 ≤ j ∨ a < i → t.routes a 1 = 0) (s := s) (Nat.zero_le m) ?_ ?_
  · exact hloop.imp fun t ht => ⟨ht.1, ht.2.1, fun a ha => ht.2.2 a ha (Or.inr ha)⟩
  · exact ⟨.refl s, h0, fun a ha hdone => hdone.elim (fun hj => h1 hj a ha)
      fun h => absurd h (Nat.not_lt_zero a)⟩
  · rintro i t - hi ⟨hsame, hstart, hfirst⟩
    obtain ⟨hsame', hother⟩ := moveAnt_sameTables randZero j i t
    refine yields_some ⟨hsame.trans hsame', fun a ha => ?_, fun a ha hdone => ?_⟩
    · rw [hother a 0 (by omega)]
      exact hstart a ha
    · by_cases hwritten : a = i ∧ 1 = j
      · obtain ⟨rfl, rfl⟩ := hwritten
        exact moveAnt_first (hsame.ready hs) (hsame.n ▸ hst) hst0 (hstart a ha)
      · rw [hother a 1 hwritten]
        exact hfirst a ha (by omega)

/-- **All ants of an iteration go to point 0 first.** -/
theorem iterRoutes_first {s : Colony} (m : ℕ) {st : ℕ} (tim : ℕ) (hs : s.Ready) (hn : 2 ≤ s.n)
    (hst : st < s.n) (hst0 : st ≠ 0) :
    Yields (iterRoutes randZero m st tim s) fun t =>
      s.SameTables t ∧ ∀ i < m, t.routes i 1 = 0 := by
  show Yields ((startAnts randZero m st tim s).bind (buildRoutes randZero m)) _
  refine (startAnts_yields randZero tim).bind ?_
  rintro t ⟨hsame, hstart⟩
  -- move after move
  have hn' : 2 ≤ t.n := hsame.n.symm ▸ hn
  refine Yields.imp (Q := fun u => s.SameTables u ∧ (∀ a < m, u.routes a 0 = st) ∧
    (2 ≤ t.n → ∀ a < m, u.routes a 1 = 0)) ?_ fun u hu => ⟨hu.1, hu.2.2 hn'⟩
  refine forLoop_yields (I := fun j u => s.SameTables u ∧ (∀ a < m, u.routes a 0 = st) ∧
    (2 ≤ j → ∀ a < m, u.routes a 1 = 0)) (Nat.le_of_succ_le hn') ?_ ?_
  · exact ⟨hsame, hstart, fun h => absurd h (by decide)⟩
  · rintro j u hj - ⟨hsame', h0, h1⟩
    refine (moveAnts_first m (hsame'.ready hs) (hsame'.n ▸ hst) hst0 hj h0 h1).imp ?_
    rintro v ⟨hsame'', h0', h1'⟩
    exact ⟨hsame'.trans hsame'', h0', fun _ => h1'⟩

/-! ## The iterations -/

/-- Laying pheromone leaves the best routes alone. -/
theorem layPheromone_pathBest {m : ℕ} {s t : Colony} (h : layPheromone m s = some t) :
    t.pathBest = s.pathBest := by
  obtain ⟨u, hu, ht⟩ := Option.bind_eq_some_iff.mp h
  obtain rfl := Option.some.inj ht
  show u.pathBest = s.pathBest
  refine forLoop_invariant (I := fun _ (v : Colony) => v.pathBest = s.pathBest) (Nat.zero_le m) rfl
    (fun i v w _ _ hv hw => ?_) hu
  refine forLoop_invariant (I := fun _ (v : Colony) => v.pathBest = s.pathBest) (Nat.zero_le _) hv
    (fun j v w _ _ hv hw => ?_) hw
  obtain ⟨q, -, hw⟩ := Option.bind_eq_some_iff.mp hw
  obtain rfl := Option.some.inj hw
  exact hv

/-- The best route of an iteration is that of one of its ants. -/
theorem antIter_first {s₀ s u : Colony} {m st iter : ℕ} (tim : ℕ) (hm : 1 ≤ m) (hn : 2 ≤ s₀.n)
    (hst : st < s₀.n) (hst0 : st ≠ 0) (hs : s₀.Iterated st iter s)
    (hbest : ∀ t < iter, s.pathBest t 1 = 0)
    (hu : antIter randZero m st tim iter s = some u) : ∀ t < iter + 1, u.pathBest t 1 = 0 := by
  obtain ⟨t, ht, hlay⟩ := Option.bind_eq_some_iff.mp hu
  obtain ⟨v, hv, hu⟩ := Option.bind_eq_some_iff.mp hlay
  obtain rfl := Option.some.inj hu
  obtain ⟨hsame, hfirst⟩ :=
    (iterRoutes_first m tim hs.ready (hs.n ▸ hn) (hs.n ▸ hst) hst0).of_eq_some ht
  intro k hk
  show v.pathBest k 1 = 0
  rw [layPheromone_pathBest hv]
  show (if k = iter ∧ 1 < t.n then t.routes (minLen t.len (m - 1)).2 1 else t.pathBest k 1) = 0
  split_ifs with hnew
  · have hle := minLen_index_le t.len (m - 1)
    exact hfirst _ (by omega)
  · rw [hsame.pathBest]
    refine hbest k ?_
    have htn : t.n = s₀.n := hsame.n.trans hs.n
    omega

/-- **The best routes of all iterations lead to point 0 first.** -/
theorem antIters_first {s₀ s : Colony} {m st : ℕ} (tim iters : ℕ) (hm : 1 ≤ m) (hn : 2 ≤ s₀.n)
    (hst : st < s₀.n) (hst0 : st ≠ 0) (hs : s₀.Iterated st 0 s) :
    Yields (antIters randZero m st tim iters s) fun t =>
      s₀.Iterated st iters t ∧ ∀ k < iters, t.pathBest k 1 = 0 := by
  refine forLoop_yields (I := fun i t => s₀.Iterated st i t ∧ ∀ k < i, t.pathBest k 1 = 0)
    (Nat.zero_le iters) ⟨hs, fun k hk => absurd hk (Nat.not_lt_zero k)⟩ ?_
  rintro i t - - ⟨ht, hbest⟩
  obtain ⟨u, hu, hiter⟩ := antIter_yields randZero tim hm hst ht
  exact ⟨u, hu, hiter, antIter_first tim hm hn hst hst0 ht hbest hu⟩

/-- **The tour leads to point 0 first**, from every other starting point. -/
theorem ant_first {s : Colony} {m totIter st tag backSt tim : ℕ} {r : Colony × ℤ}
    (hs : ∀ i < s.n, ∀ j < s.n, s.EntryOk i j) (hm : 1 ≤ m) (htot : 1 ≤ totIter) (hn : 2 ≤ s.n)
    (hst : st < s.n) (hst0 : st ≠ 0) (hmode : (tag, backSt) ∈ antModes)
    (hsafe : ∀ u, s.Frame u → ∀ k < s.n, (k = st → s.n = 1) → u.ClosesSafely tag backSt k)
    (hr : ant randZero totIter m st backSt tim tag s = some r) : r.1.path tim 1 = 0 := by
  obtain ⟨u, hu, hselect⟩ := Option.bind_eq_some_iff.mp hr
  obtain ⟨hiter, hbest⟩ :=
    (antIters_first tim totIter hm hn hst hst0 (Colony.iterated_clear hs st)).of_eq_some hu
  have hun := hiter.n
  obtain ⟨-, -, -, -, ⟨i, hi, hpath⟩, -⟩ := (selectTour_yields tim (by omega) htot
    (hun ▸ hiter.pathBest) hmode (hun ▸ hsafe u hiter.toFrame)).of_eq_some hselect
  rw [hpath 1 (by omega), hbest i hi]

end HandlingRobot
