import HandlingRobot.Search.AstarCorrect
import HandlingRobot.Tour.Legs

/-! # The tour between the pictures

`no_trans_task` computes a tour through the pictures and calls `astar` for every two points that
follow each other in it. `astar` lays its route cell by cell on one path and ends it at the point
itself. Whether the search has found the goal is recorded in a local flag only: without a route the
arrays `roux` and `rouy` are still cleared, and the path starts at the centre of cell `(0, 0)`.

* **`astarInit`** — the obstacles, one block for every picture.
* **`astarTo`** — a call of `astar` with the path it lays; **`noTransTask`** — all of them.
* **`Planner.On`** — the points between which a path leads, and how `make_path` moves them on.
* **`Planner.LaysRoute`** — what a call of `astar` is to lay.
* **`noTransTask_call_iff`** — it lays that exactly when there is a route, and `roux` can hold it.
  -/

namespace HandlingRobot

/-! ## The obstacles -/

/-- `NN` and `MM`, the sizes of the tables of the search. -/
def nn : ℤ := 80
@[inherit_doc nn] def mm : ℤ := 60

/-- The picture in cell `pos` covers the cell `(x, y)` of the search. -/
def covers (pos : ℤ × ℤ) (x y : ℤ) : Bool :=
  let px := pos.1 * 2 - 1 + 3
  let py := pos.2 * 2 - 1 + 3
  (px - 1 ≤ x ∧ x < px + 3) ∧ py - 1 ≤ y ∧ y < py + 3

/-- **`astar_init`**: every picture is an obstacle, except at the start of the car. What is read
beyond the table is left open. -/
def astarInit (beyond : ObstacleMap) (pos : ℕ → ℤ × ℤ) (picNum : ℕ) : ObstacleMap := fun x y =>
  if (0 ≤ x ∧ x < nn) ∧ 0 ≤ y ∧ y < mm then
    if (x = 4 ∨ x = 5) ∧ (y = 4 ∨ y = 5) then false
    else (List.range picNum).any fun i => covers (pos i) x y
  else beyond x y

/-! ## The path of a route -/

/-- The centre of a cell in the field. -/
def centre (v : Cell) : ℤ × ℤ := (v.1 * 10 - 45, v.2 * 10 - 45)

/-- The loop `for (int i = num_ - 1; i > 0; -- i)` from `i` on: the way from cell to cell. -/
def layCells (rou : ℕ → Cell) (num : ℕ) : ℕ → Planner → Planner
  | 0, s => s
  | i + 1, s =>
      layCells rou num i (makePath (centre (rou (i + 1))).1 (centre (rou (i + 1))).2
        (centre (rou i)).1 (centre (rou i)).2 num pieceStep s)

/-- What `astar` does after its search: the cells `rou` and the rest of `roux` and `rouy`, which is
cleared, are laid on path `num_path`, and then the way to the point `path[0][ipath]`. -/
def Planner.layRoute (rou : List Cell) (ipath : ℕ) (s : Planner) : Planner :=
  let roux := fun i => rou.getD i (0, 0)
  let goal := s.path 0 ipath
  let s := layCells roux s.numPath (rou.length - 1) s
  s.leg (centre (roux 0)).1 (centre (roux 0)).2 (s.px goal) (s.py goal)

/-- **`astar(stx, sty, edx, edy, ipath)`** with its path; `none` when the fuel does not last or the
walk back leaves `roux` and `rouy`. -/
def astarTo (heap : ℕ → Nodee) (obs : ObstacleMap) (st ed : Cell) (ipath fuel : ℕ) (s : Planner) :
    Option Planner :=
  match astar heap obs st ed fuel with
  | some (.found rou) => some (s.layRoute rou ipath)
  | some .notFound => some (s.layRoute [] ipath)
  | some .pastEnd => none
  | none => none

/-! ## The calls -/

/-- The pictures as grid cells become points of the field; the start of the car is one more. -/
def Planner.loadPoints (s : Planner) : Planner :=
  let px := fun i => if i < s.picNum then (s.px i - 1) * 20 + 10 - erx else s.px i
  let py := fun i => if i < s.picNum then (s.py i - 1) * 20 + 10 - ery else s.py i
  { s with
    px := Function.update px s.picNum 0
    py := Function.update py s.picNum 0
    n := s.picNum + 1 }

/-- `no_trans_task` up to the tour `ant(20, 50, n - 1, 1, 0, 0)`. -/
def noTransLoad (rand : ℕ → ℕ) (s : Planner) : Option Planner := do
  let s := s.loadPoints
  let colony ← initTag 0 s.toColony
  let (colony, _) ← ant rand 20 50 (colony.n - 1 : ℕ) 1 0 0 colony
  some { s with toColony := colony }

/-- The cell of a point of the field. -/
def pointCell (x y : ℤ) : Cell := (((x + 39).tdiv 10 + 1).toNat, ((y + 39).tdiv 10 + 1).toNat)

/-- The cell of entry `i` of the tour. -/
def Planner.tourCell (s : Planner) (i : ℕ) : Cell :=
  pointCell (s.px (s.path 0 i)) (s.py (s.path 0 i))

/-- The call of `astar` for entry `i` of the tour and the next one. -/
def noTransCall (heap : ℕ → Nodee) (obs : ObstacleMap) (fuel i : ℕ) (s : Planner) :
    Option Planner :=
  astarTo heap obs (s.tourCell i) (s.tourCell (i + 1)) (i + 1) fuel s

/-- The first `k` calls of `astar`; `heaps i` is what the array `heap` holds before call `i`. -/
def noTransCalls (heaps : ℕ → ℕ → Nodee) (obs : ObstacleMap) (fuel k : ℕ) (s : Planner) :
    Option Planner :=
  forLoop 0 k (fun i => noTransCall (heaps i) obs fuel i) s

/-- **`no_trans_task`.** -/
def noTransTask (rand : ℕ → ℕ) (heaps : ℕ → ℕ → Nodee) (beyond : ObstacleMap) (pos : ℕ → ℤ × ℤ)
    (fuel : ℕ) (s : Planner) : Option Planner := do
  let s ← noTransLoad rand s
  let s ← noTransCalls heaps (astarInit beyond pos s.picNum) fuel (s.n - 1) s
  let last := s.path 0 (s.n - 1)
  some (s.leg (s.px last) (s.py last) 0 0)

/-! ## What a route leaves alone -/

/-- The waypoints are all that changes in the loop over the cells. -/
theorem layCells_frame (rou : ℕ → Cell) (num i : ℕ) :
    ∀ s : Planner, ∃ pathX pathY pathPredis pathTot, layCells rou num i s =
      { s with pathX := pathX, pathY := pathY, pathPredis := pathPredis, pathTot := pathTot } := by
  induction i with
  | zero => exact fun s => ⟨_, _, _, _, rfl⟩
  | succ i ih =>
      intro s
      obtain ⟨_, _, _, _, h⟩ := makePath_frame (centre (rou (i + 1))).1 (centre (rou (i + 1))).2
        (centre (rou i)).1 (centre (rou i)).2 num pieceStep s
      rw [layCells, h]
      obtain ⟨_, _, _, _, h'⟩ := ih _
      exact ⟨_, _, _, _, h'⟩

/-- The loop over the cells leaves the other paths alone. -/
theorem layCells_other (rou : ℕ → Cell) {num j : ℕ} (hj : j ≠ num) (i : ℕ) :
    ∀ s : Planner, (layCells rou num i s).pathTot j = s.pathTot j := by
  induction i with
  | zero => exact fun s => rfl
  | succ i ih =>
      intro s
      obtain ⟨-, -, htot⟩ := makePath_other s hj (centre (rou (i + 1))).1
        (centre (rou (i + 1))).2 (centre (rou i)).1 (centre (rou i)).2 pieceStep
      exact (ih _).trans htot

/-- The waypoints and the number of paths are all that changes in a route. -/
theorem Planner.layRoute_frame (s : Planner) (rou : List Cell) (ipath : ℕ) :
    ∃ pathX pathY pathPredis pathTot, s.layRoute rou ipath =
      { s with pathX := pathX, pathY := pathY, pathPredis := pathPredis, pathTot := pathTot,
               numPath := s.numPath + 1 } := by
  obtain ⟨_, _, _, _, h⟩ := layCells_frame (fun i => rou.getD i (0, 0)) s.numPath (rou.length - 1) s
  unfold Planner.layRoute
  dsimp only
  rw [h]
  apply Planner.leg_frame

/-- A route leaves no waypoints on the paths to come. -/
theorem Planner.Fresh.layRoute {s : Planner} (h : s.Fresh) (rou : List Cell) (ipath : ℕ) :
    (s.layRoute rou ipath).Fresh := by
  obtain ⟨_, _, _, _, hlaid⟩ :=
    layCells_frame (fun i => rou.getD i (0, 0)) s.numPath (rou.length - 1) s
  have hnum : (layCells (fun i => rou.getD i (0, 0)) s.numPath (rou.length - 1) s).numPath =
      s.numPath := by rw [hlaid]
  intro j hj
  have hj' : s.numPath + 1 ≤ j := by
    obtain ⟨_, _, _, _, hframe⟩ := s.layRoute_frame rou ipath
    rwa [hframe] at hj
  unfold Planner.layRoute
  dsimp only
  rw [(Planner.leg_other (by rw [hnum]; omega) _ _ _ _).2.2, layCells_other _ (by omega)]
  exact h j (by omega)

/-! ## The points a path leads between -/

/-- The centre of a cell as a waypoint. -/
def centrePos (v : Cell) : ℚ × ℚ := ((centre v).1, (centre v).2)

/-- Path `num` leads from `p` to `q`, or it has no waypoint yet and is to start there. -/
def Planner.Reaches (num : ℕ) (p q : ℚ × ℚ) (s : Planner) : Prop :=
  s.On num p q ∨ s.pathTot num = 0 ∧ p = q

/-- `make_path` from there leads to its second point. -/
theorem Planner.Reaches.makePath {s : Planner} {num : ℕ} {p : ℚ × ℚ} {x0 y0 : ℤ}
    (h : s.Reaches num p (↑x0, ↑y0)) (x1 y1 : ℤ) (disStep : ℚ) :
    (makePath x0 y0 x1 y1 num disStep s).On num p (↑x1, ↑y1) := by
  rcases h with hon | ⟨hfresh, rfl⟩
  · exact hon.makePath x1 y1 disStep
  · exact makePath_fresh hfresh x0 y0 x1 y1 disStep

/-- The loop leads a path along the cells to the first one of the array. -/
theorem layCells_reaches (rou : ℕ → Cell) (num : ℕ) {p : ℚ × ℚ} (i : ℕ) :
    ∀ {s : Planner}, s.Reaches num p (centrePos (rou i)) →
      (layCells rou num i s).Reaches num p (centrePos (rou 0)) := by
  induction i with
  | zero => exact fun h => h
  | succ i ih =>
      intro s h
      apply ih
      exact Or.inl (h.makePath _ _ _)

/-- **The path of a route** leads from its last cell in the array, the start, to the point of the
goal. -/
theorem Planner.layRoute_on {s : Planner} (hfresh : s.pathTot s.numPath = 0) {rou : List Cell}
    {st : Cell} (hlast : rou.getLast? = some st) (ipath : ℕ) :
    (s.layRoute rou ipath).On s.numPath (centrePos st) (s.pos (s.path 0 ipath)) := by
  obtain ⟨_, _, _, _, hlaid⟩ :=
    layCells_frame (fun i => rou.getD i (0, 0)) s.numPath (rou.length - 1) s
  have hst : rou.getD (rou.length - 1) (0, 0) = st := by
    rw [List.getD_eq_getElem?_getD, ← List.getLast?_eq_getElem?, hlast]
    rfl
  have hcells := layCells_reaches (fun i => rou.getD i (0, 0)) s.numPath (rou.length - 1)
    (Or.inr ⟨hfresh, congrArg centrePos hst.symm⟩)
  have hon := hcells.makePath (s.px (s.path 0 ipath)) (s.py (s.path 0 ipath)) pieceStep
  rw [hlaid] at hon
  unfold Planner.layRoute
  dsimp only
  rw [hlaid]
  exact ⟨hon.pos, hon.start, hon.finish⟩

/-- **Without a route** the path starts at the centre of cell `(0, 0)`. -/
theorem Planner.layRoute_nil_start {s : Planner} (hfresh : s.pathTot s.numPath = 0) (ipath : ℕ) :
    (s.layRoute [] ipath).start s.numPath = (-45, -45) := by
  have hon := makePath_fresh hfresh (centre (0, 0)).1 (centre (0, 0)).2
    (s.px (s.path 0 ipath)) (s.py (s.path 0 ipath)) pieceStep
  refine hon.start.trans ?_
  norm_num [centre]

/-! ## One call -/

/-- A loop that has ended ends the same way with more fuel. -/
theorem astarLoop_mono {obs : ObstacleMap} {ed : Cell} {r : Bool × Astar} {fuel : ℕ} :
    ∀ {fuel' : ℕ} {s : Astar}, fuel ≤ fuel' → astarLoop obs ed fuel s = some r →
      astarLoop obs ed fuel' s = some r := by
  induction fuel with
  | zero =>
      intro fuel' s _ h
      exact absurd h (by simp [astarLoop])
  | succ fuel ih =>
      intro fuel' s hle h
      obtain ⟨k, rfl⟩ := Nat.exists_eq_add_of_le' (Nat.le_trans (Nat.le_add_left 1 fuel) hle)
      unfold astarLoop at h ⊢
      split_ifs at h ⊢ with hsz
      · exact h
      · dsimp only at h ⊢
        split_ifs at h ⊢ with hgoal
        · exact h
        · exact ih (by omega) h

@[inherit_doc astarLoop_mono]
theorem astar_mono {heap : ℕ → Nodee} {obs : ObstacleMap} {st ed : Cell} {r : AstarResult}
    {fuel fuel' : ℕ} (hle : fuel ≤ fuel') (h : astar heap obs st ed fuel = some r) :
    astar heap obs st ed fuel' = some r := by
  unfold astar at h ⊢
  rcases hloop : astarLoop obs ed fuel (Astar.init heap st ed) with _ | a
  · rw [hloop] at h
    exact absurd h (by simp)
  · rw [astarLoop_mono hle hloop]
    rwa [hloop] at h

/-- The loop ends in one way only, whatever the fuel. -/
theorem astarLoop_agree {obs : ObstacleMap} {ed : Cell} {s : Astar} {r r' : Bool × Astar}
    {fuel fuel' : ℕ} (h : astarLoop obs ed fuel s = some r)
    (h' : astarLoop obs ed fuel' s = some r') : r = r' := by
  have hmax := astarLoop_mono (Nat.le_max_left fuel fuel') h
  rw [astarLoop_mono (Nat.le_max_right fuel fuel') h'] at hmax
  exact (Option.some.inj hmax).symm

@[inherit_doc astarLoop_agree]
theorem astar_agree {heap : ℕ → Nodee} {obs : ObstacleMap} {st ed : Cell} {r r' : AstarResult}
    {fuel fuel' : ℕ} (h : astar heap obs st ed fuel = some r)
    (h' : astar heap obs st ed fuel' = some r') : r = r' := by
  have hmax := astar_mono (Nat.le_max_left fuel fuel') h
  rw [astar_mono (Nat.le_max_right fuel fuel') h'] at hmax
  exact (Option.some.inj hmax).symm

/-- **All calls that end lay the same path**, whatever their fuel. -/
theorem astarTo_agree {heap : ℕ → Nodee} {obs : ObstacleMap} {st ed : Cell} {ipath fuel fuel' : ℕ}
    {s t u : Planner} (h : astarTo heap obs st ed ipath fuel s = some t)
    (h' : astarTo heap obs st ed ipath fuel' s = some u) : t = u := by
  unfold astarTo at h h'
  rcases hr : astar heap obs st ed fuel with _ | r
  · rw [hr] at h
    exact absurd h (by simp)
  rcases hr' : astar heap obs st ed fuel' with _ | r'
  · rw [hr'] at h'
    exact absurd h' (by simp)
  obtain rfl := astar_agree hr hr'
  rw [hr] at h
  rw [hr'] at h'
  exact Option.some.inj (h.symm.trans h')

/-- **The route fits** into `roux` and `rouy`: the walk back along the tables with which the goal is
taken does not run past their end. -/
def RouteFits (heap : ℕ → Nodee) (obs : ObstacleMap) (st ed : Cell) : Prop :=
  ∀ fuel a room rou, astarLoop obs ed fuel (Astar.init heap st ed) = some (true, a) →
    walkBack (fun v => (a.fax v.1 v.2, a.fay v.1 v.2)) st room ed = some rou → rou.length ≤ pieces

/-- It does so for all fuel if it does for some. -/
theorem TakesGoal.routeFits_iff {heap : ℕ → Nodee} {obs : ObstacleMap} {st ed : Cell} {N : ℕ}
    {a : Astar} {rou : List Cell} (h : TakesGoal heap obs st ed N a rou) :
    RouteFits heap obs st ed ↔ rou.length ≤ pieces := by
  constructor
  · exact fun hfits => hfits N a rou.length rou (h.loop N le_rfl) h.back
  · intro hlen fuel a' room rou' hloop hback
    obtain rfl : a = a' := congrArg Prod.snd (astarLoop_agree (h.loop N le_rfl) hloop)
    rwa [← walkBack_agree _ _ h.back hback]

/-- A goal that is not found is not taken. -/
theorem routeFits_of_notFound {heap : ℕ → Nodee} {obs : ObstacleMap} {st ed : Cell} {N : ℕ}
    (hrun : astar heap obs st ed N = some .notFound) : RouteFits heap obs st ed := by
  intro fuel a room rou hloop hback
  have hfound := astar_of_found hloop hback
  have hsame := astar_agree hrun hfound
  split_ifs at hsame with hlen

/-- **What a call of `astar` is to lay**, from the state `s` to the state `t`: a path from the
centre of the start cell to the point `goal`; and no waypoint off the way between them when there is
no route. -/
structure Planner.LaysRoute (obs : ObstacleMap) (st ed : Cell) (goal : ℕ) (s t : Planner) :
    Prop where
  starts : t.start s.numPath = centrePos st
  ends : t.finish s.numPath = s.pos goal
  stays : (¬ ∃ c, Walk (legalMoves obs) st ed c) → ∀ i ≤ t.pathTot s.numPath,
    ∃ u : ℚ, 0 ≤ u ∧ u ≤ 1 ∧ (t.pathX s.numPath i, t.pathY s.numPath i) =
      centrePos st + u • (s.pos goal - centrePos st)

/-- **One call** lays its route exactly when there is one and `roux` and `rouy` can hold it. -/
theorem astarTo_iff {heap : ℕ → Nodee} {obs : ObstacleMap} {st ed : Cell} (ipath : ℕ) {s : Planner}
    (hst : InGrid st) (hfresh : s.pathTot s.numPath = 0) :
    (∃ N t, (∀ fuel, N ≤ fuel → astarTo heap obs st ed ipath fuel s = some t) ∧
        s.LaysRoute obs st ed (s.path 0 ipath) t) ↔
      (∃ c, Walk (legalMoves obs) st ed c) ∧ RouteFits heap obs st ed := by
  obtain ⟨N, ⟨a, rou, htakes, hcheap⟩ | ⟨hnone, hrun⟩⟩ := astar_ends heap obs hst ed
  · have hwalk := hcheap.walk
    have hrun : ∀ fuel, N ≤ fuel → astar heap obs st ed fuel =
        some (if rou.length ≤ pieces then .found rou else .pastEnd) := fun _ => htakes.astar_eq
    obtain ⟨-, hlast, -⟩ := hcheap
    -- the route is laid when `roux` and `rouy` can hold it
    by_cases hlen : rou.length ≤ pieces
    · rw [if_pos hlen] at hrun
      constructor
      · intro _
        exact ⟨hwalk, htakes.routeFits_iff.mpr hlen⟩
      · intro _
        have hon := Planner.layRoute_on hfresh hlast ipath
        refine ⟨N, s.layRoute rou ipath, fun fuel hfuel => ?_, hon.start, hon.finish, fun hno => ?_⟩
        · rw [astarTo, hrun fuel hfuel]
        · exact absurd hwalk hno
    · rw [if_neg hlen] at hrun
      constructor
      · rintro ⟨N', t, ht, -⟩
        have hsome := ht (max N N') (Nat.le_max_right N N')
        rw [astarTo, hrun _ (Nat.le_max_left N N')] at hsome
        exact absurd hsome (by simp)
      · rintro ⟨-, hfits⟩
        exact absurd (htakes.routeFits_iff.mp hfits) hlen
  · constructor
    · -- the search fails, and the path starts at the centre of cell `(0, 0)`
      rintro ⟨N', t, ht, hlays⟩
      have hsome := ht (max N N') (Nat.le_max_right N N')
      rw [astarTo, hrun _ (Nat.le_max_left N N')] at hsome
      obtain rfl := Option.some.inj hsome
      have hstart := hlays.starts
      rw [Planner.layRoute_nil_start hfresh] at hstart
      have hx : (-45 : ℚ) = (((st.1 : ℤ) * 10 - 45 : ℤ) : ℚ) := congrArg Prod.fst hstart
      have hx' : (-45 : ℤ) = (st.1 : ℤ) * 10 - 45 := by exact_mod_cast hx
      have hpos := hst.1
      omega
    · rintro ⟨⟨c, hwalk⟩, -⟩
      exact absurd hwalk (hnone c)

/-- An obstacle is reached from nowhere else. -/
theorem not_walk_of_obstacle {obs : ObstacleMap} {st ed : Cell} (hne : st ≠ ed)
    (hed : obs ed.1 ed.2 = true) (c : ℕ) : ¬ Walk (legalMoves obs) st ed c := by
  intro h
  induction h with
  | refl v => exact hne rfl
  | @step v w u c d hmove hrest ih =>
      by_cases hwu : w = u
      · subst hwu
        have hfree := free_of_mem_legalMoves hmove
        rw [hed] at hfree
        exact absurd hfree (by simp)
      · exact ih hwu hed

/-- A cheap route fits into `roux` and `rouy`. -/
theorem routeFits_of_walk (heap : ℕ → Nodee) {obs : ObstacleMap} {st ed : Cell} {c : ℕ}
    (hst : InGrid st) (hwalk : Walk (legalMoves obs) st ed c) (hc : c < pieces) :
    RouteFits heap obs st ed := by
  obtain ⟨N, ⟨a, rou, htakes, -, -, d, hroute, hmin⟩ | ⟨hnone, -⟩⟩ := astar_ends heap obs hst ed
  · have hlen := hroute.length_le (legalMoves_pos obs)
    have hle := hmin c hwalk
    rw [List.length_reverse] at hlen
    exact htakes.routeFits_iff.mpr (by omega)
  · exact absurd hwalk (hnone c)

/-- What a call of `astar` leaves alone. -/
theorem astarTo_frame {heap : ℕ → Nodee} {obs : ObstacleMap} {st ed : Cell} {ipath fuel : ℕ}
    {s t : Planner} (h : astarTo heap obs st ed ipath fuel s = some t) :
    t.px = s.px ∧ t.py = s.py ∧ t.path = s.path ∧ (s.Fresh → t.Fresh) := by
  obtain ⟨rou, rfl⟩ : ∃ rou, t = s.layRoute rou ipath := by
    unfold astarTo at h
    split at h
    · exact ⟨_, (Option.some.inj h).symm⟩
    · exact ⟨_, (Option.some.inj h).symm⟩
    · exact absurd h (by simp)
    · exact absurd h (by simp)
  refine ⟨?_, ?_, ?_, fun hs => hs.layRoute rou ipath⟩
  all_goals
    obtain ⟨_, _, _, _, hframe⟩ := s.layRoute_frame rou ipath
    rw [hframe]

/-! ## All calls -/

/-- What the first calls leave alone. -/
theorem noTransCalls_frame {heaps : ℕ → ℕ → Nodee} {obs : ObstacleMap} {fuel k : ℕ} {s t : Planner}
    (h : noTransCalls heaps obs fuel k s = some t) :
    t.px = s.px ∧ t.py = s.py ∧ t.path = s.path ∧ (s.Fresh → t.Fresh) := by
  refine forLoop_invariant (I := fun _ t => t.px = s.px ∧ t.py = s.py ∧ t.path = s.path ∧
    (s.Fresh → t.Fresh)) (Nat.zero_le k) ⟨rfl, rfl, rfl, fun hs => hs⟩ ?_ h
  intro i u v _ _ hu hv
  obtain ⟨hpx, hpy, hpath, hfresh⟩ := hu
  obtain ⟨hpx', hpy', hpath', hfresh'⟩ := astarTo_frame hv
  exact ⟨hpx'.trans hpx, hpy'.trans hpy, hpath'.trans hpath, fun hs => hfresh' (hfresh hs)⟩

/-- **The pictures before `no_trans_task`**, at most 25 in distinct cells of the grid. -/
structure Planner.Placed (pos : ℕ → ℤ × ℤ) (s : Planner) : Prop where
  picNum_le : s.picNum ≤ 25
  at_pos : ∀ i < s.picNum, s.px i = (pos i).1 ∧ s.py i = (pos i).2
  cell : ∀ i < s.picNum, (1 ≤ (pos i).1 ∧ (pos i).1 ≤ 35) ∧ 1 ≤ (pos i).2 ∧ (pos i).2 ≤ 25
  distinct : ∀ i < s.picNum, ∀ j < s.picNum, i ≠ j → pos i ≠ pos j

theorem Planner.loadPoints_pic {s : Planner} {i : ℕ} (hi : i < s.picNum) :
    s.loadPoints.px i = (s.px i - 1) * 20 ∧ s.loadPoints.py i = (s.py i - 1) * 20 - 35 := by
  have hne : i ≠ s.picNum := by omega
  simp only [Planner.loadPoints, Function.update_of_ne hne, if_pos hi, erx, ery]
  constructor <;> ring

theorem Planner.loadPoints_start (s : Planner) :
    s.loadPoints.px s.picNum = 0 ∧ s.loadPoints.py s.picNum = 0 := by
  simp [Planner.loadPoints]

/-- **The cells of the points**: that of a picture lies two rows below its obstacle. -/
theorem Planner.Placed.pointCell {pos : ℕ → ℤ × ℤ} {s : Planner} (h : s.Placed pos) {i : ℕ}
    (hi : i < s.picNum) :
    pointCell (s.loadPoints.px i) (s.loadPoints.py i) =
      ((2 * (pos i).1 + 2).toNat, (2 * (pos i).2 - 1).toNat) := by
  obtain ⟨hx, hy⟩ := Planner.loadPoints_pic hi
  obtain ⟨hpx, hpy⟩ := h.at_pos i hi
  obtain ⟨⟨hx1, -⟩, hy1, -⟩ := h.cell i hi
  unfold HandlingRobot.pointCell
  rw [hx, hy, hpx, hpy, Int.tdiv_eq_ediv_of_nonneg (by omega),
    Int.tdiv_eq_ediv_of_nonneg (by omega)]
  congr 2 <;> omega

theorem Planner.Placed.inGrid {pos : ℕ → ℤ × ℤ} {s : Planner} (h : s.Placed pos) {i : ℕ}
    (hi : i ≤ s.picNum) :
    InGrid (HandlingRobot.pointCell (s.loadPoints.px i) (s.loadPoints.py i)) := by
  rcases Nat.lt_or_eq_of_le hi with hlt | rfl
  · rw [h.pointCell hlt]
    obtain ⟨⟨hx1, hx2⟩, hy1, hy2⟩ := h.cell i hlt
    simp only [InGrid, ww, hh]
    omega
  · rw [s.loadPoints_start.1, s.loadPoints_start.2]
    unfold InGrid
    decide

theorem Planner.Placed.loadPoints_distinct {pos : ℕ → ℤ × ℤ} {s : Planner} (h : s.Placed pos) :
    s.loadPoints.toColony.Distinct := by
  refine points_distinct (fun i => (pos i).1) (fun i => (pos i).2)
    (fun i hi j hj hij => h.distinct i hi j hj hij) (fun i hi => ?_) s.loadPoints_start
  rw [← (h.at_pos i hi).1, ← (h.at_pos i hi).2]
  exact Planner.loadPoints_pic hi

/-- **The tour of `no_trans_task`** leads from the start of the car, point `pic_num`, through all
pictures. -/
theorem Planner.Placed.noTransLoad_yields {pos : ℕ → ℤ × ℤ} {s : Planner} (h : s.Placed pos)
    (hpos : 1 ≤ s.picNum) (rand : ℕ → ℕ) :
    Yields (noTransLoad rand s) fun t =>
      t.px = s.loadPoints.px ∧ t.py = s.loadPoints.py ∧ t.n = s.picNum + 1 ∧
        t.pathTot = s.pathTot ∧ t.numPath = s.numPath ∧
        IsTour (s.picNum + 1) s.picNum (t.path 0) := by
  refine (initTag_yields h.loadPoints_distinct.measured).bind ?_
  rintro c ⟨hframe, hok⟩
  have hn : c.n = s.picNum + 1 := hframe.n
  have hst : c.n - 1 < c.n := by omega
  have hant := ant_yields rand 50 20 (c.n - 1) 0 1 0 hok
    (by decide) (by decide) hst (by decide) fun k _ _ =>
      Or.inr ⟨fun h => absurd h.1 (by decide), fun h => absurd h.1 (by decide)⟩
  refine hant.bind ?_
  rintro ⟨d, len⟩ ⟨hpx, hpy, hdn, -, htour, -⟩
  refine yields_some ⟨hpx.trans hframe.px, hpy.trans hframe.py, hdn.trans hn, rfl, rfl, ?_⟩
  rw [hn, Nat.add_sub_cancel] at htour
  exact htour

/-- **The state before call `k`** of `astar`: the points are loaded, and the tour is there. -/
theorem Planner.Placed.at_call {pos : ℕ → ℤ × ℤ} {s t : Planner} (h : s.Placed pos)
    {rand : ℕ → ℕ} {heaps : ℕ → ℕ → Nodee} {obs : ObstacleMap} {fuel k : ℕ} (hk : k < s.picNum)
    (ht : (noTransLoad rand s).bind (noTransCalls heaps obs fuel k) = some t) :
    t.px = s.loadPoints.px ∧ t.py = s.loadPoints.py ∧
      IsTour (s.picNum + 1) s.picNum (t.path 0) := by
  obtain ⟨s₁, hload, hpx₁, hpy₁, -, -, -, htour⟩ := h.noTransLoad_yields (by omega) rand
  rw [hload, Option.bind_some] at ht
  obtain ⟨hpx, hpy, hpath, -⟩ := noTransCalls_frame ht
  exact ⟨hpx.trans hpx₁, hpy.trans hpy₁, hpath ▸ htour⟩

/-- The cell that call `k` starts from lies in the grid. -/
theorem Planner.Placed.before_call {pos : ℕ → ℤ × ℤ} {s t : Planner} (h : s.Placed pos)
    {rand : ℕ → ℕ} {heaps : ℕ → ℕ → Nodee} {obs : ObstacleMap} {fuel k : ℕ} (hk : k < s.picNum)
    (ht : (noTransLoad rand s).bind (noTransCalls heaps obs fuel k) = some t) :
    InGrid (t.tourCell k) := by
  obtain ⟨hpx, hpy, htour⟩ := h.at_call hk ht
  have hlt := htour.partialTour.lt k (by omega)
  unfold Planner.tourCell
  rw [hpx, hpy]
  exact h.inGrid (by omega)

/-- **Call `k` lays its route**, from the state `t` before it. -/
def Planner.CallLays (heap : ℕ → Nodee) (obs : ObstacleMap) (k : ℕ) (t : Planner) : Prop :=
  ∃ N u, (∀ fuel, N ≤ fuel → noTransCall heap obs fuel k t = some u) ∧
    t.LaysRoute obs (t.tourCell k) (t.tourCell (k + 1)) (t.path 0 (k + 1)) u

/-- **When the calls of `no_trans_task` lay their routes**: call `k`, with a fresh path number, does
exactly when there is a route between its two cells and `roux` and `rouy` can hold it. -/
theorem noTransTask_call_iff (rand : ℕ → ℕ) (heaps : ℕ → ℕ → Nodee) (beyond : ObstacleMap)
    (pos : ℕ → ℤ × ℤ) (fuel k : ℕ) (s t : Planner) (hs : s.Placed pos) (hk : k < s.picNum)
    (ht : (noTransLoad rand s).bind
      (noTransCalls heaps (astarInit beyond pos s.picNum) fuel k) = some t)
    (hfresh : t.pathTot t.numPath = 0) :
    t.CallLays (heaps k) (astarInit beyond pos s.picNum) k ↔
    (∃ c, Walk (legalMoves (astarInit beyond pos s.picNum)) (t.tourCell k)
        (t.tourCell (k + 1)) c) ∧
      RouteFits (heaps k) (astarInit beyond pos s.picNum) (t.tourCell k) (t.tourCell (k + 1)) :=
  astarTo_iff (k + 1) (hs.before_call hk ht) hfresh

/-- The obstacle of one picture near the start of the car. -/
def nearObs : ObstacleMap := astarInit (fun _ _ => false) (fun _ => (2, 3)) 1

theorem walk_nearObs : Walk (legalMoves nearObs) (4, 4) (6, 5) (14 + (10 + 0)) :=
  .step (w := (5, 5)) (by decide) (.step (w := (6, 5)) (by decide) (.refl _))

theorem placed_onePicture {p : ℤ × ℤ} (hp : (1 ≤ p.1 ∧ p.1 ≤ 35) ∧ 1 ≤ p.2 ∧ p.2 ≤ 25) :
    (Planner.boot [p]).Placed fun _ => p := by
  have hzero : ∀ i < (Planner.boot [p]).picNum, i = 0 := fun i hi => Nat.lt_one_iff.mp hi
  refine ⟨show 1 ≤ 25 by decide, fun i hi => ?_, fun _ _ => hp, fun i hi j hj hij => ?_⟩
  · obtain rfl := hzero i hi
    exact ⟨rfl, rfl⟩
  · exact absurd ((hzero i hi).trans (hzero j hj).symm) hij

/-- **The tour of one picture** leads from the start of the car at `(4, 4)` to its cell. -/
theorem onePicture_tour (rand : ℕ → ℕ) {p : ℤ × ℤ}
    (hp : (1 ≤ p.1 ∧ p.1 ≤ 35) ∧ 1 ≤ p.2 ∧ p.2 ≤ 25) :
    ∃ t, noTransLoad rand (.boot [p]) = some t ∧ (∀ j, t.pathTot j = 0) ∧
      t.tourCell 0 = (4, 4) ∧ t.tourCell 1 = ((2 * p.1 + 2).toNat, (2 * p.2 - 1).toNat) := by
  have hplaced := placed_onePicture hp
  obtain ⟨t, hload, hpx, hpy, -, htot, -, htour⟩ := hplaced.noTransLoad_yields le_rfl rand
  have hone : (Planner.boot [p]).picNum = 1 := rfl
  rw [hone] at htour
  have hstart : t.path 0 0 = 1 := htour.1
  have hnext : t.path 0 1 = 0 := by
    have hlt : t.path 0 1 < 2 := htour.partialTour.lt 1 (by decide)
    have hne := htour.partialTour.inj 0 (by decide) 1 (by decide)
    omega
  refine ⟨t, hload, fun j => by rw [htot]; rfl, ?_, ?_⟩
  · have hcar := (Planner.boot [p]).loadPoints_start
    rw [hone] at hcar
    rw [Planner.tourCell, hpx, hpy, hstart, hcar.1, hcar.2]
    decide
  · rw [Planner.tourCell, hpx, hpy, hnext]
    exact hplaced.pointCell Nat.zero_lt_one

/-- The route to one picture near the start of the car is laid. -/
theorem nearPicture_laid :
    ∃ t, noTransLoad (fun k => k) (.boot [(2, 3)]) = some t ∧
      t.CallLays (fun _ => ⟨0, 0, 0, 0, 0⟩) nearObs 0 := by
  have hgrid : InGrid (4, 4) := by unfold InGrid; decide
  obtain ⟨t, hload, htot, h0, h1⟩ := onePicture_tour (fun k => k) (p := (2, 3)) (by decide)
  have hiff := noTransTask_call_iff (fun k => k) (fun _ _ => ⟨0, 0, 0, 0, 0⟩) (fun _ _ => false)
    (fun _ => (2, 3)) 0 0 _ t (placed_onePicture (by decide)) (by decide) (by rw [hload]; rfl)
    (htot _)
  refine ⟨t, hload, hiff.mpr ?_⟩
  rw [h0, h1]
  exact ⟨⟨_, walk_nearObs⟩, routeFits_of_walk _ hgrid walk_nearObs (by decide)⟩

/-! ## Two pictures, one of them in the way of the other one -/

/-- Two pictures: the obstacle of the first one covers the cell below the second one. -/
def blockedPictures : List (ℤ × ℤ) := [(2, 3), (2, 5)]

@[inherit_doc blockedPictures]
def blockedPos (i : ℕ) : ℤ × ℤ := blockedPictures.getD i (0, 0)

/-- Their obstacles. -/
def blockedObs : ObstacleMap := astarInit (fun _ _ => false) blockedPos 2

theorem placed_blockedPictures : (Planner.boot blockedPictures).Placed blockedPos :=
  ⟨by decide, fun _ _ => ⟨rfl, rfl⟩, by decide, by decide⟩

/-- The first picture is near the start of the car. -/
theorem walk_blockedObs : Walk (legalMoves blockedObs) (4, 4) (6, 5) (14 + (10 + 0)) :=
  .step (w := (5, 5)) (by decide) (.step (w := (6, 5)) (by decide) (.refl _))

/-- **The tour of the two pictures**: the car starts at `(4, 4)`, and the two pictures have their
cells at `(6, 5)` and `(6, 9)`, the second of them an obstacle. -/
theorem blockedPictures_tour (rand : ℕ → ℕ) :
    ∃ t, noTransLoad rand (.boot blockedPictures) = some t ∧ t.Fresh ∧ t.tourCell 0 = (4, 4) ∧
      (t.tourCell 1 = (6, 9) ∨ t.tourCell 1 = (6, 5) ∧ t.tourCell 2 = (6, 9)) := by
  obtain ⟨t, hload, hpx, hpy, -, htot, hnum, htour⟩ :=
    placed_blockedPictures.noTransLoad_yields (by decide) rand
  have hcell : ∀ k, t.tourCell k =
      pointCell ((Planner.boot blockedPictures).loadPoints.px (t.path 0 k))
        ((Planner.boot blockedPictures).loadPoints.py (t.path 0 k)) := fun k => by
    rw [Planner.tourCell, hpx, hpy]
  have hfresh : t.Fresh := by
    intro j hj
    rw [htot]
    rfl
  have hpartial := htour.partialTour
  have hstart : t.path 0 0 = 2 := htour.1
  -- the start and the two pictures are the three points of the tour
  have h1 := hpartial.lt 1 (by decide)
  have h2 := hpartial.lt 2 (by decide)
  have h01 := hpartial.inj 0 (by decide) 1 (by decide)
  have h02 := hpartial.inj 0 (by decide) 2 (by decide)
  have h12 := hpartial.inj 1 (by decide) 2 (by decide)
  have hlen : (Planner.boot blockedPictures).picNum = 2 := rfl
  rw [hlen] at h1 h2
  refine ⟨t, hload, hfresh, ?_, ?_⟩
  · rw [hcell, hstart]
    decide
  · -- the tour goes to one of the two pictures first
    rcases (by omega : t.path 0 1 = 1 ∨ t.path 0 1 = 0 ∧ t.path 0 2 = 1) with hfirst | hsecond
    · left
      rw [hcell, hfirst]
      decide
    · right
      rw [hcell, hcell, hsecond.1, hsecond.2]
      decide

/-- The route to a cell that is an obstacle is not laid. -/
theorem not_laysRoute_blocked {heap : ℕ → Nodee} {ipath : ℕ} {s : Planner} {st : Cell}
    (hst : InGrid st) (hne : st ≠ (6, 9)) (hfresh : s.pathTot s.numPath = 0) :
    ¬ ∃ N t, (∀ fuel, N ≤ fuel → astarTo heap blockedObs st (6, 9) ipath fuel s = some t) ∧
      s.LaysRoute blockedObs st (6, 9) (s.path 0 ipath) t := by
  rw [astarTo_iff ipath hst hfresh]
  rintro ⟨⟨c, hwalk⟩, -⟩
  exact not_walk_of_obstacle hne (by decide) c hwalk

/-- **A path from the centre of cell `(0, 0)`** is laid to the second picture. -/
theorem blockedPictures_astray :
    ¬ ∀ (rand : ℕ → ℕ) (heaps : ℕ → ℕ → Nodee) (beyond : ObstacleMap) (pos : ℕ → ℤ × ℤ)
      (fuel k : ℕ) (s t : Planner), s.Placed pos → k < s.picNum →
      (noTransLoad rand s).bind (noTransCalls heaps (astarInit beyond pos s.picNum) fuel k) =
        some t → t.pathTot t.numPath = 0 →
      t.CallLays (heaps k) (astarInit beyond pos s.picNum) k := by
  intro h
  have hgrid : InGrid (4, 4) := by unfold InGrid; decide
  have hgrid' : InGrid (6, 5) := by unfold InGrid; decide
  obtain ⟨t, hload, hfresh, hstart, hfirst | ⟨hfirst, hsecond⟩⟩ :=
    blockedPictures_tour fun k => k
  · -- the first call fails
    have hlays := h (fun k => k) (fun _ _ => ⟨0, 0, 0, 0, 0⟩) (fun _ _ => false) blockedPos 0 0 _ t
      placed_blockedPictures (by decide) (by rw [hload]; rfl) (hfresh _ le_rfl)
    unfold Planner.CallLays noTransCall at hlays
    rw [hstart, hfirst] at hlays
    exact not_laysRoute_blocked hgrid (by decide) (hfresh _ le_rfl) hlays
  · -- the first call lays its route, and the second one fails
    have hfits : RouteFits (fun _ => ⟨0, 0, 0, 0, 0⟩) blockedObs (4, 4) (6, 5) :=
      routeFits_of_walk _ hgrid walk_blockedObs (by decide)
    obtain ⟨N, u, hu, -⟩ := (astarTo_iff 1 hgrid (hfresh t.numPath le_rfl)).mpr
      ⟨⟨_, walk_blockedObs⟩, hfits⟩
    have hcall := hu N le_rfl
    obtain ⟨hpx, hpy, hpath, hfresh'⟩ := astarTo_frame hcall
    have hcell : ∀ k, u.tourCell k = t.tourCell k := fun k => by
      simp only [Planner.tourCell, hpx, hpy, hpath]
    rw [← hstart, ← hfirst] at hcall
    have hrun : (noTransLoad (fun k => k) (.boot blockedPictures)).bind
        (noTransCalls (fun _ _ => ⟨0, 0, 0, 0, 0⟩) blockedObs N 1) = some u := by
      rw [hload, Option.bind_some, noTransCalls, forLoop_succ (Nat.zero_le 0), forLoop_self]
      exact hcall
    have hlays := h (fun k => k) (fun _ _ => ⟨0, 0, 0, 0, 0⟩) (fun _ _ => false) blockedPos N 1 _ u
      placed_blockedPictures (by decide) hrun (hfresh' hfresh _ le_rfl)
    unfold Planner.CallLays noTransCall at hlays
    rw [hcell, hcell, hfirst, hsecond] at hlays
    exact not_laysRoute_blocked hgrid' (by decide) (hfresh' hfresh _ le_rfl) hlays

end HandlingRobot
