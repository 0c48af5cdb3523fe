import HandlingRobot.Library.FirstMin
import HandlingRobot.Tour.AntRoutes

/-! # Which tour a run of the ants ends with

Every iteration keeps the length and the points of its shortest route, and at the end one iteration
is selected: the one for which this length and the distance from the last point to the end of the
run add up to the least. There is one loop for each mode. The one of mode `(2, 0)` starts at
iteration 1, so what iteration 0 found is lost.

* **`iteration`** — an iteration of a run, with its routes.
* **`Colony.BestOf`** — what the tables keep of an iteration.
* **`Colony.ClosesTo`** — the distance a mode adds to a route.
* **`ant_best_iff`** — the tour of the run is the best one over all iterations except, in mode
  `(2, 0)`, when every later route is longer than one of iteration 0. -/

namespace HandlingRobot

/-! ## What the steps of an iteration leave alone -/

/-- The starting points are a matter of the routes and of `rand()`. -/
theorem startAnts_frame {rand : ℕ → ℕ} {m tim : ℕ} {stPoint : ℤ} {s t : Colony}
    (h : startAnts rand m stPoint tim s = some t) :
    ∃ calls routes, t = { s with calls := calls, routes := routes } := by
  unfold startAnts at h
  dsimp only at h
  generalize (if m % s.n = 0 then m / s.n else m / s.n + 1) = rds at h
  split_ifs at h with hst hroom
  · exact ⟨_, _, (Option.some.inj h).symm⟩
  · rw [Option.bind_eq_bind, Option.bind_eq_some_iff] at h
    obtain ⟨⟨tmp, calls⟩, -, ht⟩ := h
    exact ⟨_, _, (Option.some.inj ht).symm⟩

/-- So are the moves. -/
theorem buildRoutes_frame {rand : ℕ → ℕ} {m : ℕ} {s t : Colony}
    (h : buildRoutes rand m s = some t) :
    ∃ calls routes, t = { s with calls := calls, routes := routes } := by
  -- with less than two points there are no moves
  rcases Nat.lt_or_ge s.n 1 with hn | hn
  · rw [buildRoutes, forLoop_of_le hn.le] at h
    exact ⟨s.calls, s.routes, (Option.some.inj h).symm⟩
  have hmove : ∀ (j i : ℕ) (u v : Colony),
      (∃ calls routes, u = { s with calls := calls, routes := routes }) →
      some (moveAnt rand j i u) = some v →
      ∃ calls routes, v = { s with calls := calls, routes := routes } := by
    rintro j i _ v ⟨calls, routes, rfl⟩ hv
    obtain rfl := Option.some.inj hv
    unfold moveAnt
    dsimp only
    split
    · exact ⟨_, _, rfl⟩
    · exact ⟨_, _, rfl⟩
  refine forLoop_invariant
    (I := fun _ u => ∃ calls routes, u = { s with calls := calls, routes := routes }) hn
    ⟨_, _, rfl⟩ (fun j u v _ _ hu hv => ?_) h
  exact forLoop_invariant
    (I := fun _ u => ∃ calls routes, u = { s with calls := calls, routes := routes })
    (Nat.zero_le m) hu (fun i a b _ _ ha hb => hmove j i a b ha hb) hv

/-- And so are the routes of an iteration as a whole. -/
theorem iterRoutes_frame {rand : ℕ → ℕ} {m tim : ℕ} {stPoint : ℤ} {s t : Colony}
    (h : iterRoutes rand m stPoint tim s = some t) :
    ∃ calls routes, t = { s with calls := calls, routes := routes } := by
  rw [iterRoutes, Option.bind_eq_bind, Option.bind_eq_some_iff] at h
  obtain ⟨u, hu, ht⟩ := h
  obtain ⟨calls, routes, rfl⟩ := startAnts_frame hu
  obtain ⟨calls', routes', rfl⟩ := buildRoutes_frame ht
  exact ⟨calls', routes', rfl⟩

/-- The pheromone is a matter of its two tables. -/
theorem layPheromone_frame {m : ℕ} {s t : Colony} (h : layPheromone m s = some t) :
    ∃ pher deltaPher, t = { s with pher := pher, deltaPher := deltaPher } := by
  rw [layPheromone, Option.bind_eq_bind, Option.bind_eq_some_iff] at h
  obtain ⟨u, hu, ht⟩ := h
  have hlaid : ∃ deltaPher, u = { s with deltaPher := deltaPher } := by
    refine forLoop_invariant (I := fun _ v => ∃ deltaPher, v = { s with deltaPher := deltaPher })
      (Nat.zero_le m) ⟨_, rfl⟩ (fun i a b _ _ ha hb => ?_) hu
    refine forLoop_invariant (I := fun _ v => ∃ deltaPher, v = { s with deltaPher := deltaPher })
      (Nat.zero_le _) ha (fun j c d _ _ hc hd => ?_) hb
    obtain ⟨deltaPher, rfl⟩ := hc
    rw [layStep, Option.bind_eq_bind, Option.bind_eq_some_iff] at hd
    obtain ⟨q, -, hq⟩ := hd
    exact ⟨_, (Option.some.inj hq).symm⟩
  obtain ⟨deltaPher, rfl⟩ := hlaid
  exact ⟨_, _, (Option.some.inj ht).symm⟩

/-! ## What the tables keep of an iteration -/

/-- Iteration `i` of a run from `s`, as far as its routes. -/
def iteration (rand : ℕ → ℕ) (m : ℕ) (stPoint : ℤ) (tim i : ℕ) (s : Colony) : Option Colony := do
  let s ← antIters rand m stPoint tim i s.clear
  iterRoutes rand m stPoint tim s

/-- The scan for the shortest route. -/
theorem minLen_scanned (len : ℕ → ℤ) (i : ℕ) :
    Scanned len (len 0, 0) (List.range' 1 i) (minLen len i) := by
  induction i with
  | zero => exact .nil len (len 0, 0)
  | succ i ih =>
      have hturn : minLen len (i + 1) =
          if len (1 + i) < (minLen len i).1 then (len (1 + i), 1 + i) else minLen len i := by
        rw [minLen, Nat.add_comm 1 i]
        by_cases h : len (i + 1) < (minLen len i).1
        · simp [chkmin, h]
        · simp [chkmin, h]
      rw [hturn, List.range'_1_concat]
      exact ih.snoc (1 + i)

/-- **The shortest route of `m` ants** is that of the ant found by the scan. -/
theorem minLen_least (len : ℕ → ℤ) {m : ℕ} (hm : 1 ≤ m) :
    (minLen len (m - 1)).2 < m ∧ len (minLen len (m - 1)).2 = (minLen len (m - 1)).1 ∧
      ∀ a < m, (minLen len (m - 1)).1 ≤ len a := by
  have hscan := minLen_scanned len (m - 1)
  have hindex := minLen_index_le len (m - 1)
  refine ⟨by omega, ?_, fun a ha => ?_⟩
  · rcases hscan.kept with heq | ⟨pre, post, -, hval, -⟩
    · rw [heq]
    · exact hval
  · rcases Nat.eq_zero_or_pos a with rfl | hpos
    · exact hscan.start
    · apply hscan.least
      rw [List.mem_range'_1]
      omega

/-- **What the tables keep of the iteration whose routes are those of `t`**: length and points of a
route that no other ant's is shorter than. -/
structure Colony.BestOf (s : Colony) (m i : ℕ) (t : Colony) (a : ℕ) : Prop where
  ant : a < m
  least : ∀ b < m, t.len a ≤ t.len b
  lenBest : s.lenBest i = t.len a
  pathBest : ∀ k < s.n, s.pathBest i k = t.routes a k

/-- **One iteration** keeps its best route and leaves those of the others alone. -/
theorem antIter_best {rand : ℕ → ℕ} {m tim i : ℕ} {stPoint : ℤ} {s u : Colony} (hm : 1 ≤ m)
    (h : antIter rand m stPoint tim i s = some u) :
    s.Frame u ∧ (∃ t a, iterRoutes rand m stPoint tim s = some t ∧ u.BestOf m i t a) ∧
      ∀ j, j ≠ i → u.lenBest j = s.lenBest j ∧ u.pathBest j = s.pathBest j := by
  rw [antIter, Option.bind_eq_bind, Option.bind_eq_some_iff] at h
  obtain ⟨t, ht, h⟩ := h
  rw [Option.bind_eq_some_iff] at h
  obtain ⟨v, hv, hu⟩ := h
  obtain ⟨calls, routes, rfl⟩ := iterRoutes_frame ht
  obtain ⟨pher, deltaPher, rfl⟩ := layPheromone_frame hv
  obtain rfl := Option.some.inj hu
  obtain ⟨hindex, hval, hleast⟩ := minLen_least
    (Colony.len { s with calls := calls, routes := routes }) hm
  refine ⟨⟨rfl, rfl, rfl, rfl, rfl⟩, ⟨_, _, ht, hindex, fun b hb => ?_, ?_, fun k hk => ?_⟩,
    fun j hj => ⟨?_, ?_⟩⟩
  · rw [hval]
    exact hleast b hb
  · rw [hval]
    exact if_pos rfl
  · exact if_pos ⟨rfl, hk⟩
  · exact if_neg hj
  · funext k
    exact if_neg fun h => hj h.1

/-- **All iterations**: the tables keep the best route of each. -/
theorem antIters_best {rand : ℕ → ℕ} {m tim : ℕ} {stPoint : ℤ} {s u : Colony} (hm : 1 ≤ m) {k : ℕ}
    (h : antIters rand m stPoint tim k s.clear = some u) :
    s.Frame u ∧ ∀ i < k, ∃ t a, iteration rand m stPoint tim i s = some t ∧ u.BestOf m i t a := by
  -- iteration after iteration; an iteration writes its own row only
  induction k generalizing u with
  | zero =>
      rw [antIters, forLoop_self, Option.some.injEq] at h
      subst h
      exact ⟨⟨rfl, rfl, rfl, rfl, rfl⟩, fun i hi => absurd hi (Nat.not_lt_zero i)⟩
  | succ k ih =>
      rw [antIters, forLoop_succ (Nat.zero_le k), Option.bind_eq_some_iff] at h
      obtain ⟨v, hv, hu⟩ := h
      obtain ⟨hvn, hbest⟩ := ih hv
      obtain ⟨hun, ⟨t, a, ht, hnew⟩, hold⟩ := antIter_best hm hu
      refine ⟨hvn.trans hun, fun i hi => ?_⟩
      rcases (by omega : i < k ∨ i = k) with hik | rfl
      · obtain ⟨t, a, ht, hi⟩ := hbest i hik
        obtain ⟨hlen, hpath⟩ := hold i (by omega)
        refine ⟨t, a, ht, hi.ant, hi.least, hlen.trans hi.lenBest, fun l hl => ?_⟩
        rw [hpath]
        exact hi.pathBest l (hun.n ▸ hl)
      · refine ⟨t, a, ?_, hnew⟩
        have hv' : antIters rand m stPoint tim i s.clear = some v := hv
        rw [iteration, hv']
        exact ht

/-! ## The selection -/

/-- The distance a mode adds to a route that ends at a point `(x, y)` of class `c`, with `tmpx` and
`tmpy` before and after it. -/
def closingDist (tag backSt : ℕ) (x y c : ℤ) (tmp : ℤ × ℤ) : Option ((ℤ × ℤ) × ℤ) :=
  if tag = 0 ∧ backSt = 1 then some (tmp, calcDis x y (width + exDisR) (height + exDisT))
  else if tag = 1 ∧ backSt = 1 then do
    let (tmp, d₀) ← calcTag tmp x y 0 0 0
    let (tmp, d₁) ← calcTag tmp x y 0 0 1
    let (tmp, d₂) ← calcTag tmp x y 0 0 2
    some (tmp, (d₀ + d₁ + d₂).tdiv 3)
  else if tag = 2 ∧ backSt = 1 then calcTag tmp x y 0 0 c
  else some (tmp, 0)

/-- The closing distance depends on the point and on `tmpx`, `tmpy` only. -/
theorem closing_eq (tag backSt : ℕ) (s : Colony) (lst : ℕ) :
    closing tag backSt s lst =
      (closingDist tag backSt (s.px lst) (s.py lst) (s.clas lst) s.tmp).map fun r =>
        ({ s with tmp := r.1 }, r.2) := by
  have hcalc : ∀ (u : Colony) (x1 y1 x2 y2 t : ℤ), u.calcTag x1 y1 x2 y2 t =
      (HandlingRobot.calcTag u.tmp x1 y1 x2 y2 t).map fun r => ({ u with tmp := r.1 }, r.2) :=
    fun u x1 y1 x2 y2 t => Option.map_eq_bind.symm
  unfold closing closingDist
  by_cases h01 : tag = 0 ∧ backSt = 1
  · rw [if_pos h01, if_pos h01]
    rfl
  rw [if_neg h01, if_neg h01]
  by_cases h11 : tag = 1 ∧ backSt = 1
  · rw [if_pos h11, if_pos h11, hcalc]
    -- the three detours, one after the other
    cases h0 : calcTag s.tmp (s.px lst) (s.py lst) 0 0 0 with
    | none => rfl
    | some r₀ =>
        simp only [Option.map_some, Option.bind_eq_bind, Option.bind_some, hcalc]
        cases h1 : calcTag r₀.1 (s.px lst) (s.py lst) 0 0 1 with
        | none => rfl
        | some r₁ =>
            simp only [Option.map_some, Option.bind_some]
            cases h2 : calcTag r₁.1 (s.px lst) (s.py lst) 0 0 2 with
            | none => rfl
            | some r₂ => rfl
  rw [if_neg h11, if_neg h11]
  by_cases h21 : tag = 2 ∧ backSt = 1
  · rw [if_pos h21, if_pos h21, hcalc]
  · rw [if_neg h21, if_neg h21]
    rfl

/-- **The mode closes a route that ends at point `lst` with the distance `d`**, from some `tmpx`,
`tmpy`; these matter only where the class is none of 0, 1 and 2. -/
def Colony.ClosesTo (s : Colony) (tag backSt lst : ℕ) (d : ℤ) : Prop :=
  ∃ tmp tmp', closingDist tag backSt (s.px lst) (s.py lst) (s.clas lst) tmp = some (tmp', d)

/-- One turn of the selection, as a turn of a scan. -/
theorem selectIter_eq_some {tag backSt i : ℕ} {s : Colony} {a : ℤ × ℕ} {b : Colony × ℤ × ℕ}
    (h : selectIter tag backSt i (s, a) = some b) :
    ∃ d, s.ClosesTo tag backSt (s.pathBest i (s.n - 1)) d ∧ s.SameButTmp b.1 ∧
      b.2 = if s.lenBest i + d < a.1 then (s.lenBest i + d, i) else a := by
  obtain ⟨ansLen, index⟩ := a
  unfold selectIter at h
  dsimp only at h
  rw [closing_eq] at h
  simp only [Option.bind_eq_bind, Option.bind_eq_some_iff, Option.map_eq_some_iff] at h
  obtain ⟨⟨t, d⟩, ⟨⟨tmp, d'⟩, hdist, heq⟩, h⟩ := h
  obtain ⟨rfl, rfl⟩ := Prod.mk.inj heq
  refine ⟨d', ⟨_, _, hdist⟩, ?_⟩
  by_cases hlt : s.lenBest i + d' < ansLen
  · simp only [chkmin, gt_iff_lt, hlt, if_true, Option.some.injEq] at h
    subst h
    exact ⟨⟨tmp, rfl⟩, (if_pos hlt).symm⟩
  · simp only [chkmin, gt_iff_lt, hlt, if_false, Option.some.injEq] at h
    subst h
    exact ⟨⟨tmp, rfl⟩, (if_neg hlt).symm⟩

/-- **The selection is a scan** for the least sum of length and closing distance. -/
theorem selectTour_scanned {totIter backSt tim tag lo : ℕ} {s t : Colony} {r : ℤ}
    (hmode : modeStart tag backSt = some lo) (hlo : lo ≤ totIter)
    (h : selectTour totIter backSt tim tag s = some (t, r)) :
    ∃ (d : ℕ → ℤ) (index : ℕ), (∀ i, lo ≤ i → i < totIter →
        s.ClosesTo tag backSt (s.pathBest i (s.n - 1)) (d i)) ∧
      Scanned (fun i => s.lenBest i + d i) (inf, 0) (List.range' lo (totIter - lo)) (r, index) ∧
      ∃ tmp, t = { s with
        tmp := tmp
        path := fun k l => if k = tim ∧ l < s.n then s.pathBest index l else s.path k l } := by
  unfold selectTour at h
  rw [hmode] at h
  simp only [Option.bind_eq_bind, Option.bind_eq_some_iff] at h
  obtain ⟨⟨u, ansLen, index⟩, hloop, h⟩ := h
  obtain ⟨rfl, rfl⟩ := Prod.mk.inj (Option.some.inj h)
  have hscan : s.SameButTmp u ∧ ∃ d : ℕ → ℤ,
      (∀ i, lo ≤ i → i < totIter → s.ClosesTo tag backSt (s.pathBest i (s.n - 1)) (d i)) ∧
      Scanned (fun i => s.lenBest i + d i) (inf, 0) (List.range' lo (totIter - lo))
        (ansLen, index) := by
    refine forLoop_invariant (I := fun k (a : Colony × ℤ × ℕ) => s.SameButTmp a.1 ∧ ∃ d : ℕ → ℤ,
      (∀ i, lo ≤ i → i < k → s.ClosesTo tag backSt (s.pathBest i (s.n - 1)) (d i)) ∧
      Scanned (fun i => s.lenBest i + d i) (inf, 0) (List.range' lo (k - lo)) a.2) hlo ?_ ?_ hloop
    · refine ⟨⟨s.tmp, rfl⟩, fun _ => 0, fun i hi hilo => by omega, ?_⟩
      rw [Nat.sub_self]
      exact .nil _ _
    · rintro k ⟨v, a⟩ b hk - ⟨⟨tmp, rfl⟩, d, hclose, hscan⟩ hturn
      obtain ⟨e, he, ⟨tmp', htmp'⟩, hb⟩ := selectIter_eq_some hturn
      -- the distance of this turn joins those of the turns before
      refine ⟨⟨tmp', htmp'⟩, Function.update d k e, fun i hi hik => ?_, ?_⟩
      · rcases (by omega : i < k ∨ i = k) with hlt | rfl
        · rw [Function.update_of_ne (by omega)]
          exact hclose i hi hlt
        · rw [Function.update_self]
          exact he
      · have hold := (hscan.congr (g := fun i => s.lenBest i + Function.update d k e i)
          fun x hx => ?_).snoc k
        · rw [Function.update_self] at hold
          rw [hb, Nat.succ_sub hk, List.range'_1_concat, Nat.add_sub_cancel' hk]
          exact hold
        · rw [List.mem_range'_1] at hx
          rw [Function.update_of_ne (by omega)]
  obtain ⟨⟨tmp, rfl⟩, d, hclose, hscan⟩ := hscan
  exact ⟨d, index, hclose, hscan, tmp, rfl⟩

/-! ## The tour of a run -/

/-- **The run has ended with the best tour**, where `d i` closes the best route of iteration `i`: no
iteration has a smaller sum than `r`, and the tour is the route of an iteration with this sum. -/
structure Colony.IsBestTour (s : Colony) (totIter tim : ℕ) (d : ℕ → ℤ) (r : ℤ) : Prop where
  least : ∀ i < totIter, r ≤ s.lenBest i + d i
  attained : ∃ i < totIter, s.lenBest i + d i = r ∧ ∀ k < s.n, s.path tim k = s.pathBest i k

/-- The selection loops with their first iteration. -/
theorem modeStart_cases {tag backSt : ℕ} (h : (tag, backSt) ∈ antModes) :
    (modeStart tag backSt = some 0 ∧ (tag, backSt) ≠ (2, 0)) ∨
      (modeStart tag backSt = some 1 ∧ (tag, backSt) = (2, 0)) := by
  simp only [antModes, List.mem_cons, Prod.mk.injEq, List.not_mem_nil, or_false] at h
  obtain ⟨rfl, rfl⟩ | ⟨rfl, rfl⟩ | ⟨rfl, rfl⟩ | ⟨rfl, rfl⟩ := h <;> decide

/-- Some iteration behind iteration 0 has a route that is no longer than any route of iteration
0. -/
def LaterAsGood (rand : ℕ → ℕ) (m : ℕ) (stPoint : ℤ) (tim totIter : ℕ) (s : Colony) : Prop :=
  ∃ i, 1 ≤ i ∧ i < totIter ∧ ∃ t₀ t, iteration rand m stPoint tim 0 s = some t₀ ∧
    iteration rand m stPoint tim i s = some t ∧ ∃ a < m, ∀ b < m, t.len a ≤ t₀.len b

/-- In terms of the tables. -/
theorem laterAsGood_iff {rand : ℕ → ℕ} {m tim totIter : ℕ} {stPoint : ℤ} {s u : Colony}
    (htot : 1 ≤ totIter)
    (hbest : ∀ i < totIter, ∃ t a, iteration rand m stPoint tim i s = some t ∧ u.BestOf m i t a) :
    LaterAsGood rand m stPoint tim totIter s ↔
      ∃ i, 1 ≤ i ∧ i < totIter ∧ u.lenBest i ≤ u.lenBest 0 := by
  obtain ⟨t₀, a₀, ht₀, hbest₀⟩ := hbest 0 htot
  constructor
  · rintro ⟨i, hi, hilt, t₀', t', ht₀', ht', a, ha, hle⟩
    obtain ⟨t, b, ht, hbesti⟩ := hbest i hilt
    obtain rfl := Option.some.inj (ht₀.symm.trans ht₀')
    obtain rfl := Option.some.inj (ht.symm.trans ht')
    refine ⟨i, hi, hilt, ?_⟩
    rw [hbesti.lenBest, hbest₀.lenBest]
    exact (hbesti.least a ha).trans (hle a₀ hbest₀.ant)
  · rintro ⟨i, hi, hilt, hle⟩
    obtain ⟨t, a, ht, hbesti⟩ := hbest i hilt
    rw [hbesti.lenBest, hbest₀.lenBest] at hle
    exact ⟨i, hi, hilt, t₀, t, ht₀, ht, a, hbesti.ant, fun b hb => hle.trans (hbest₀.least b hb)⟩

/-- **A scan of all iterations** ends with the best tour. -/
theorem isBestTour_of_scanned {s t : Colony} {totIter tim index : ℕ} {d : ℕ → ℤ} {r : ℤ}
    (htot : 1 ≤ totIter) (hlen : ∀ i < totIter, s.lenBest i + d i < inf)
    (hscan : Scanned (fun i => s.lenBest i + d i) (inf, 0) (List.range' 0 (totIter - 0)) (r, index))
    (hn : t.n = s.n) (hlenBest : t.lenBest = s.lenBest) (hpathBest : t.pathBest = s.pathBest)
    (hpath : ∀ k < s.n, t.path tim k = s.pathBest index k) : t.IsBestTour totIter tim d r := by
  have hmem : ∀ i, i ∈ List.range' 0 (totIter - 0) ↔ i < totIter := by
    intro i
    rw [List.mem_range'_1]
    omega
  refine ⟨fun i hi => ?_, ?_⟩
  · rw [hlenBest]
    exact hscan.least i ((hmem i).mpr hi)
  · obtain ⟨hindex, hval⟩ := hscan.attained ((hmem 0).mpr htot) (hlen 0 htot)
    refine ⟨index, (hmem index).mp hindex, ?_, fun k hk => ?_⟩
    · rw [hlenBest]
      exact hval
    · rw [hpathBest]
      exact hpath k (hn ▸ hk)

/-- **A scan that leaves iteration 0 out** ends with the best tour exactly when a later iteration is
as good as that one. -/
theorem isBestTour_iff_of_scanned {s t : Colony} {totIter tim index : ℕ} {r : ℤ}
    (htot : 1 ≤ totIter) (hlen : ∀ i < totIter, s.lenBest i < inf)
    (hscan : Scanned s.lenBest (inf, 0) (List.range' 1 (totIter - 1)) (r, index))
    (hn : t.n = s.n) (hlenBest : t.lenBest = s.lenBest) (hpathBest : t.pathBest = s.pathBest)
    (hpath : ∀ k < s.n, t.path tim k = s.pathBest index k) :
    t.IsBestTour totIter tim (fun _ => 0) r ↔
      ∃ i, 1 ≤ i ∧ i < totIter ∧ s.lenBest i ≤ s.lenBest 0 := by
  have hmem : ∀ i, i ∈ List.range' 1 (totIter - 1) ↔ 1 ≤ i ∧ i < totIter := by
    intro i
    rw [List.mem_range'_1]
    omega
  constructor
  · intro h
    have hr := h.least 0 htot
    rw [hlenBest, add_zero] at hr
    rcases hscan.kept with heq | ⟨pre, post, hl, hval, hlt, -⟩
    · -- nothing was selected, so the sentinel would have to be the best length
      rw [(Prod.mk.inj heq).1] at hr
      exact absurd (hlen 0 htot) (not_lt.mpr hr)
    · have hindex : index ∈ List.range' 1 (totIter - 1) := by
        rw [hl]
        exact List.mem_append_right pre List.mem_cons_self
      obtain ⟨hi, hilt⟩ := (hmem index).mp hindex
      exact ⟨index, hi, hilt, hval.trans_le hr⟩
  -- a later iteration is as good as iteration 0, so the scan ends with the best of all
  · rintro ⟨i, hi, hilt, hle⟩
    have hri := hscan.least i ((hmem i).mpr ⟨hi, hilt⟩)
    obtain ⟨hindex, hval⟩ := hscan.attained ((hmem i).mpr ⟨hi, hilt⟩) (hlen i hilt)
    refine ⟨fun j hj => ?_, index, ((hmem index).mp hindex).2, ?_, fun k hk => ?_⟩
    · rw [hlenBest, add_zero]
      rcases Nat.eq_zero_or_pos j with rfl | hpos
      · exact hri.trans hle
      · exact hscan.least j ((hmem j).mpr ⟨hpos, hj⟩)
    · rw [hlenBest, add_zero]
      exact hval
    · rw [hpathBest]
      exact hpath k (hn ▸ hk)

/-- **What a run ends with**, in every mode, whenever it divides by nothing that is zero. -/
theorem ant_isBestTour_iff {rand : ℕ → ℕ} {m totIter tim tag backSt : ℕ} {stPoint : ℤ}
    {s s₂ : Colony} {r : ℤ} (hm : 1 ≤ m) (htot : 1 ≤ totIter) (hmode : (tag, backSt) ∈ antModes)
    (hant : ant rand totIter m stPoint backSt tim tag s = some (s₂, r))
    (hlen : ∀ i < totIter, ∀ d, s.ClosesTo tag backSt (s₂.pathBest i (s.n - 1)) d →
      s₂.lenBest i + d < inf) :
    (∀ i < totIter, ∃ t a, iteration rand m stPoint tim i s = some t ∧ s₂.BestOf m i t a) ∧
      ∃ d : ℕ → ℤ,
        (∀ i < totIter, s.ClosesTo tag backSt (s₂.pathBest i (s.n - 1)) (d i)) ∧
        (s₂.IsBestTour totIter tim d r ↔
          (tag, backSt) ≠ (2, 0) ∨ LaterAsGood rand m stPoint tim totIter s) := by
  rw [ant, Option.bind_eq_bind, Option.bind_eq_some_iff] at hant
  obtain ⟨u, hu, hsel⟩ := hant
  obtain ⟨hframe, hbest⟩ := antIters_best hm hu
  have hclosesTo : ∀ lst d, u.ClosesTo tag backSt lst d ↔ s.ClosesTo tag backSt lst d := by
    intro lst d
    unfold Colony.ClosesTo
    rw [hframe.px, hframe.py, hframe.clas]
  -- mode (2, 0) starts its scan at iteration 1
  rcases modeStart_cases hmode with ⟨hstart, hne⟩ | ⟨hstart, heq⟩
  · -- every iteration is scanned
    obtain ⟨d, index, hclose, hscan, tmp, rfl⟩ := selectTour_scanned hstart (Nat.zero_le _) hsel
    have hclose' : ∀ i < totIter, s.ClosesTo tag backSt (u.pathBest i (s.n - 1)) (d i) := by
      intro i hi
      rw [← hclosesTo, ← hframe.n]
      exact hclose i (Nat.zero_le i) hi
    refine ⟨fun i hi => ?_, d, hclose', iff_of_true ?_ (Or.inl hne)⟩
    · obtain ⟨t, a, ht, hi⟩ := hbest i hi
      exact ⟨t, a, ht, hi.ant, hi.least, hi.lenBest, hi.pathBest⟩
    · exact isBestTour_of_scanned htot (fun i hi => hlen i hi _ (hclose' i hi)) hscan rfl rfl rfl
        fun k hk => if_pos ⟨rfl, hk⟩
  · -- iteration 0 is left out, and nothing is added to the lengths
    obtain ⟨rfl, rfl⟩ := Prod.mk.inj heq
    obtain ⟨d, index, hclose, hscan, tmp, rfl⟩ := selectTour_scanned hstart htot hsel
    have hzero : ∀ lst, s.ClosesTo 2 0 lst 0 := fun lst => ⟨(0, 0), (0, 0), rfl⟩
    have hd : ∀ i, 1 ≤ i → i < totIter → d i = 0 := by
      intro i hi hilt
      obtain ⟨tmp', tmp'', hdist⟩ := hclose i hi hilt
      exact ((Prod.mk.inj (Option.some.inj hdist)).2).symm
    refine ⟨fun i hi => ?_, fun _ => 0, fun i _ => hzero _, ?_⟩
    · obtain ⟨t, a, ht, hi⟩ := hbest i hi
      exact ⟨t, a, ht, hi.ant, hi.least, hi.lenBest, hi.pathBest⟩
    · have hscan' : Scanned u.lenBest (inf, 0) (List.range' 1 (totIter - 1)) (r, index) := by
        refine hscan.congr fun i hi => ?_
        rw [List.mem_range'_1] at hi
        rw [hd i (by omega) (by omega), add_zero]
      have hlen' : ∀ i < totIter, u.lenBest i < inf := fun i hi => by
        have hlt := hlen i hi 0 (hzero _)
        rwa [add_zero] at hlt
      have hiff := isBestTour_iff_of_scanned (t := { u with
        tmp := tmp
        path := fun k l => if k = tim ∧ l < u.n then u.pathBest index l else u.path k l })
        htot hlen' hscan' rfl rfl rfl fun k hk => if_pos ⟨rfl, hk⟩
      refine hiff.trans ?_
      rw [← laterAsGood_iff htot hbest]
      exact (or_iff_right (not_not.mpr rfl)).symm

/-- **Which tour a run of the ants ends with.** On tables the ants can work with a run from a given
point succeeds. Whenever a run succeeds and the sums of lengths and closing distances stay below the
sentinel, the tables keep the shortest route of every iteration, and the result and the tour are the
best ones over all iterations exactly when the mode is not `(2, 0)` or some later iteration is as
good as iteration 0. -/
theorem ant_best_iff (rand : ℕ → ℕ) (m totIter tim tag backSt : ℕ) (stPoint : ℤ) (s : Colony)
    (hm : 1 ≤ m) (htot : 1 ≤ totIter) (hmode : (tag, backSt) ∈ antModes) :
    (∀ st : ℕ, stPoint = st → st < s.n → 2 ≤ s.n → (∀ i < s.n, ∀ j < s.n, s.EntryOk i j) →
      (∀ k < s.n, k ≠ st → s.ClosesSafely tag backSt k) →
      ∃ s₂ r, ant rand totIter m stPoint backSt tim tag s = some (s₂, r)) ∧
    ∀ s₂ r, ant rand totIter m stPoint backSt tim tag s = some (s₂, r) →
      (∀ i < totIter, ∀ d, s.ClosesTo tag backSt (s₂.pathBest i (s.n - 1)) d →
        s₂.lenBest i + d < inf) →
      (∀ i < totIter, ∃ t a, iteration rand m stPoint tim i s = some t ∧ s₂.BestOf m i t a) ∧
      ∃ d : ℕ → ℤ,
        (∀ i < totIter, s.ClosesTo tag backSt (s₂.pathBest i (s.n - 1)) (d i)) ∧
        (s₂.IsBestTour totIter tim d r ↔
          (tag, backSt) ≠ (2, 0) ∨ LaterAsGood rand m stPoint tim totIter s) := by
  refine ⟨?_, fun s₂ r hant hlen => ant_isBestTour_iff hm htot hmode hant hlen⟩
  rintro st rfl hst hn hs hsafe
  obtain ⟨⟨s₂, r⟩, hant, -⟩ :=
    ant_yields rand m totIter st tag backSt tim hs hm htot hst hmode fun k hk hkst =>
      hsafe k hk fun h => absurd (hkst h) (by omega)
  exact ⟨s₂, r, hant⟩

/-! ## Two iterations over three points -/

/-- Two pictures and the start of the car, as points. -/
def Colony.ofTriple : Colony where
  n := 3
  px := fun i => if i = 0 then 300 else if i = 1 then 320 else 0
  py := fun i => if i = 2 then 0 else 205
  clas := fun _ => 0
  dis := fun _ _ => 0
  idis := fun _ _ => 0
  pher := fun _ _ => 0
  deltaPher := fun _ _ => 0
  routes := fun _ _ => 0
  lenBest := fun _ => 0
  pathBest := fun _ _ => 0
  path := fun _ _ => 0
  tmp := (0, 0)
  calls := 0

/-- The ant of iteration 0 goes to the near picture first, that of iteration 1 to the far one. -/
def nearThenFar (k : ℕ) : ℕ := if k < 2 then 0 else 999

/-- A run of one ant over two iterations in mode `(tag, back_st)`: the result, the lengths the two
iterations found and the points they end at. -/
def twoIterations (tag backSt : ℕ) : Option (ℤ × (ℤ × ℤ) × ℕ × ℕ) := do
  let s ← initTag 0 Colony.ofTriple
  let (t, r) ← ant nearThenFar 2 1 2 backSt 0 tag s
  some (r, (t.lenBest 0, t.lenBest 1), t.pathBest 0 2, t.pathBest 1 2)

/-- In mode `(0, 1)` this run ends with the best tour. -/
theorem twoIterations_best :
    ∃ s t r, initTag 0 Colony.ofTriple = some s ∧ ant nearThenFar 2 1 2 1 0 0 s = some (t, r) ∧
      ∃ d, t.IsBestTour 2 0 d r := by
  have hrun : twoIterations 0 1 = some (864, (383, 400), 1, 0) := by decide +kernel
  simp only [twoIterations, Option.bind_eq_bind, Option.bind_eq_some_iff] at hrun
  obtain ⟨s, hs, ⟨t, r⟩, hant, hval⟩ := hrun
  simp only [Option.some.injEq, Prod.mk.injEq] at hval
  obtain ⟨-, ⟨hlen₀, hlen₁⟩, hend₀, hend₁⟩ := hval
  have hdistinct : Colony.ofTriple.Distinct := by unfold Colony.Distinct; decide
  obtain ⟨hframe, -⟩ := (initTag_yields hdistinct.measured).of_eq_some hs
  have hn : s.n - 1 = 2 := by rw [hframe.n]; rfl
  obtain ⟨-, d, -, hiff⟩ := (ant_best_iff nearThenFar 1 2 0 0 1 2 s le_rfl (by decide)
    (by decide)).2 t r hant fun i hi d hd => by
      -- the two routes end at the points 1 and 0
      obtain ⟨tmp, tmp', hdist⟩ := hd
      have hval := (Prod.mk.inj (Option.some.inj hdist)).2
      rw [hn, hframe.px, hframe.py] at hval
      rw [← hval]
      rcases (by omega : i = 0 ∨ i = 1) with rfl | rfl
      · rw [hlen₀, hend₀]
        decide +kernel
      · rw [hlen₁, hend₁]
        decide +kernel
  exact ⟨s, t, r, hs, hant, d, hiff.mpr (Or.inl (by decide))⟩

/-- **The best route is lost** in mode `(2, 0)`: it is that of iteration 0. -/
theorem twoIterations_lost :
    ¬ ∀ (rand : ℕ → ℕ) (m totIter tim tag backSt : ℕ) (stPoint : ℤ) (s : Colony), 1 ≤ m →
      1 ≤ totIter → totIter ≤ 103 → (tag, backSt) ∈ antModes →
      ∀ s₂ r, ant rand totIter m stPoint backSt tim tag s = some (s₂, r) →
        (∀ i < totIter, ∀ d, s.ClosesTo tag backSt (s₂.pathBest i (s.n - 1)) d →
          s₂.lenBest i + d < inf) →
        ∃ d : ℕ → ℤ,
          (∀ i < totIter, s.ClosesTo tag backSt (s₂.pathBest i (s.n - 1)) (d i)) ∧
          s₂.IsBestTour totIter tim d r := by
  intro h
  have hrun : twoIterations 2 0 = some (400, (383, 400), 1, 0) := by decide +kernel
  simp only [twoIterations, Option.bind_eq_bind, Option.bind_eq_some_iff] at hrun
  obtain ⟨s, hs, ⟨t, r⟩, hant, hval⟩ := hrun
  simp only [Option.some.injEq, Prod.mk.injEq] at hval
  obtain ⟨rfl, ⟨hlen₀, hlen₁⟩, -⟩ := hval
  -- nothing is added to the lengths in this mode
  have hzero : ∀ lst d, s.ClosesTo 2 0 lst d → d = 0 := by
    rintro lst d ⟨tmp, tmp', hdist⟩
    exact ((Prod.mk.inj (Option.some.inj hdist)).2).symm
  obtain ⟨d, hd, hbest⟩ := h nearThenFar 1 2 0 2 0 2 s le_rfl (by decide) (by decide) (by decide) t
    400 hant fun i hi d hd => by
      rw [hzero _ d hd]
      rcases (by omega : i = 0 ∨ i = 1) with rfl | rfl
      · rw [hlen₀]
        decide
      · rw [hlen₁]
        decide
  have hle := hbest.least 0 (by decide)
  rw [hzero _ _ (hd 0 (by decide)), hlen₀] at hle
  exact absurd hle (by decide)

end HandlingRobot
