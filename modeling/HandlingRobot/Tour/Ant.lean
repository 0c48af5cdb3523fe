import HandlingRobot.Tour.Geometry
import HandlingRobot.Tour.Shuffle
import Mathlib.Algebra.Order.Floor.Defs
import Mathlib.Algebra.BigOperators.Group.List.Basic

/-! # The ant colony

The tour planner lets `m` ants build routes through `n` points, iteration after iteration. An ant
moves on to an unvisited point drawn with a probability proportional to pheromone times visibility;
each iteration ends by laying pheromone on the routes. The tour is the best route over all
iterations, where the mode adds the distance from the last point to the end of the run.

* **`Colony`** — the tables of the planner; **`initTag`** — the distances for a mode.
* **`roulette`**, **`moveAnt`** — the choice of the next point.
* **`iterRoutes`**, **`rateRoutes`**, **`layPheromone`**, **`antIter`** — one iteration.
* **`ant`** — all iterations and the choice among their best routes; `none` for a division by zero
  or for a shuffle that leaves its tables. -/

namespace HandlingRobot

/-- `beta`, `rho` and `Q`, the parameters of the colony. -/
def beta : ℕ := 5
@[inherit_doc beta] def rho : ℚ := 1 / 10
@[inherit_doc beta] def pherQ : ℚ := 1

/-- `ant_max`, the number of ants there is room for. -/
def antMax : ℕ := 52

/-- **The tables of the planner**, and the number of calls of `rand()` made so far. -/
structure Colony where
  n : ℕ
  px : ℕ → ℤ
  py : ℕ → ℤ
  clas : ℕ → ℤ
  dis : ℕ → ℕ → ℤ
  idis : ℕ → ℕ → ℚ
  pher : ℕ → ℕ → ℚ
  deltaPher : ℕ → ℕ → ℚ
  routes : ℕ → ℕ → ℕ
  lenBest : ℕ → ℤ
  pathBest : ℕ → ℕ → ℕ
  path : ℕ → ℕ → ℕ
  /-- `tmpx` and `tmpy`. -/
  tmp : ℤ × ℤ
  /-- The number of calls of `rand()`. -/
  calls : ℕ

/-! ## Distances -/

/-- `calc_tag` on the points of the planner. -/
def Colony.calcTag (s : Colony) (x1 y1 x2 y2 tag : ℤ) : Option (Colony × ℤ) := do
  let (tmp, d) ← HandlingRobot.calcTag s.tmp x1 y1 x2 y2 tag
  some ({ s with tmp }, d)

/-- `dis[i][j]` for two different points: the distance itself, a third of the three detours (but
from the last point on the distance itself), or the detour over the side of the class. -/
def Colony.distance (s : Colony) (tag : ℕ) (i j : ℕ) : Option (Colony × ℤ) :=
  if tag = 0 then some (s, calcDis (s.px i) (s.py i) (s.px j) (s.py j))
  else if tag = 1 then
    if i = s.n - 1 then some (s, calcDis (s.px i) (s.py i) (s.px j) (s.py j))
    else do
      let (s₀, d₀) ← s.calcTag (s.px i) (s.py i) (s.px j) (s.py j) 0
      let (s₁, d₁) ← s₀.calcTag (s.px i) (s.py i) (s.px j) (s.py j) 1
      let (s₂, d₂) ← s₁.calcTag (s.px i) (s.py i) (s.px j) (s.py j) 2
      some (s₂, (d₀ + d₁ + d₂).tdiv 3)
  else s.calcTag (s.px i) (s.py i) (s.px j) (s.py j) (s.clas i)

/-- The entries of the tables for the points `i` and `j`. -/
def initEntry (tag i j : ℕ) (s : Colony) : Option Colony :=
  if i = j then
    some { s with dis := setCell s.dis i j 0, idis := setCell s.idis i j inf,
                  pher := setCell s.pher i j 1 }
  else do
    let (s, d) ← s.distance tag i j
    let v ← divide 100 d
    some { s with dis := setCell s.dis i j d, idis := setCell s.idis i j v,
                  pher := setCell s.pher i j 1 }

/-- `init_tag(tag)`. -/
def initTag (tag : ℕ) (s : Colony) : Option Colony := do
  let s ← forLoop 0 s.n (fun i => forLoop 0 s.n fun j => initEntry tag i j) s
  some { s with idis := fun i j => if i < s.n ∧ j < s.n then s.idis i j ^ beta else s.idis i j }

/-! ## One move -/

/-- `randn(x, y)` for the result `r` of `rand()`. -/
def randn (r : ℕ) (x y : ℚ) : ℚ :=
  let par : ℚ := ((r % 1000 : ℕ) : ℚ) / 1000
  par * (y - x) + x

/-- The points an ant has not been to in its first `j` moves, in order: `unvis`. -/
def unvisited (n j : ℕ) (route : ℕ → ℕ) : List ℕ :=
  (List.range n).filter fun k => k ∉ (List.range j).map route

/-- The selection loop: the first point at which the accumulated weight exceeds `rate`. -/
def roulette (rate : ℚ) : ℚ → List (ℕ × ℚ) → Option ℕ
  | _, [] => none
  | curRate, (k, p) :: rest =>
      if curRate + p > rate then some k else roulette rate (curRate + p) rest

/-- The unvisited points with their weights `P[k]`. -/
def Colony.weights (s : Colony) (last : ℕ) (unvis : List ℕ) : List (ℕ × ℚ) :=
  unvis.map fun k => (k, s.pher last k * s.idis last k)

/-- **The `j`-th move of ant `i`**: one call of `rand()`; the route stays as it is when the
selection loop finds nobody. -/
def moveAnt (rand : ℕ → ℕ) (j i : ℕ) (s : Colony) : Colony :=
  let P := s.weights (s.routes i (j - 1)) (unvisited s.n j (s.routes i))
  let rate := randn (rand s.calls) 0 (P.map Prod.snd).sum
  match roulette rate 0 P with
  | some k => { s with calls := s.calls + 1, routes := setCell s.routes i j k }
  | none => { s with calls := s.calls + 1 }

/-! ## One iteration -/

/-- The starting points: all at `stPoint`, or, when `stPoint` is -1, shuffled over the points from
`tim` on. -/
def startAnts (rand : ℕ → ℕ) (m : ℕ) (stPoint : ℤ) (tim : ℕ) (s : Colony) : Option Colony :=
  if stPoint ≠ -1 then
    some { s with routes := fun i k => if i < m ∧ k = 0 then stPoint.toNat else s.routes i k }
  else
    let rds := if m % s.n = 0 then m / s.n else m / s.n + 1
    let totAnt := rds * (s.n - tim)
    if totAnt ≤ antMax then do
      let (tmp, calls) ← shuffle rand s.calls totAnt fun k => tim + k % (s.n - tim)
      some { s with calls,
                    routes := fun i k => if i < m ∧ k = 0 then tmp i else s.routes i k }
    else none

/-- The moves of all ants: `for j` over the moves, `for i` over the ants. -/
def buildRoutes (rand : ℕ → ℕ) (m : ℕ) (s : Colony) : Option Colony :=
  forLoop 1 s.n (fun j => forLoop 0 m fun i s => some (moveAnt rand j i s)) s

/-- `len[i]`, the length of the route of ant `i`. -/
def Colony.len (s : Colony) (i : ℕ) : ℤ :=
  ((List.range (s.n - 1)).map fun j => s.dis (s.routes i j) (s.routes i (j + 1))).sum

/-- `min_len` and `min_index` after the ants `0` to `i`. -/
def minLen (len : ℕ → ℤ) : ℕ → ℤ × ℕ
  | 0 => (len 0, 0)
  | i + 1 =>
      let (best, index) := minLen len i
      match chkmin best (len (i + 1)) with
      | (best, true) => (best, i + 1)
      | (best, false) => (best, index)

/-- The best route of iteration `iter` is kept. -/
def rateRoutes (m iter : ℕ) (s : Colony) : Colony :=
  let (minLen, minIndex) := minLen s.len (m - 1)
  { s with
    lenBest := fun t => if t = iter then minLen else s.lenBest t,
    pathBest := fun t k => if t = iter ∧ k < s.n then s.routes minIndex k else s.pathBest t k }

/-- Pheromone for the step `j` of the route of ant `i`, in both directions. -/
def layStep (i j : ℕ) (s : Colony) : Option Colony := do
  let q ← divide pherQ (s.len i)
  let v := s.deltaPher (s.routes i j) (s.routes i (j + 1)) + q
  some { s with
    deltaPher := setCell (setCell s.deltaPher (s.routes i j) (s.routes i (j + 1)) v)
      (s.routes i (j + 1)) (s.routes i j) v }

/-- The pheromone of an iteration: laid by all ants, and the old one evaporates. -/
def layPheromone (m : ℕ) (s : Colony) : Option Colony := do
  let s ← forLoop 0 m (fun i => forLoop 0 (s.n - 1) fun j => layStep i j) s
  some { s with
    pher := fun i j =>
      if i < s.n ∧ j < s.n then (1 - rho) * s.pher i j + s.deltaPher i j else s.pher i j }

/-- The routes of an iteration. -/
def iterRoutes (rand : ℕ → ℕ) (m : ℕ) (stPoint : ℤ) (tim : ℕ) (s : Colony) : Option Colony := do
  let s ← startAnts rand m stPoint tim s
  buildRoutes rand m s

/-- **Iteration `iter`.** -/
def antIter (rand : ℕ → ℕ) (m : ℕ) (stPoint : ℤ) (tim iter : ℕ) (s : Colony) : Option Colony := do
  let s ← iterRoutes rand m stPoint tim s
  let s ← layPheromone m (rateRoutes m iter s)
  some { s with routes := fun _ _ => 0 }

/-! ## The tour -/

/-- The distance from the last point of a route to the end of the run, in the mode
`(tag, back_st)`. -/
def closing (tag backSt : ℕ) (s : Colony) (lst : ℕ) : Option (Colony × ℤ) :=
  if tag = 0 ∧ backSt = 1 then
    some (s, calcDis (s.px lst) (s.py lst) (width + exDisR) (height + exDisT))
  else if tag = 1 ∧ backSt = 1 then do
    let (s₀, d₀) ← s.calcTag (s.px lst) (s.py lst) 0 0 0
    let (s₁, d₁) ← s₀.calcTag (s.px lst) (s.py lst) 0 0 1
    let (s₂, d₂) ← s₁.calcTag (s.px lst) (s.py lst) 0 0 2
    some (s₂, (d₀ + d₁ + d₂).tdiv 3)
  else if tag = 2 ∧ backSt = 1 then s.calcTag (s.px lst) (s.py lst) 0 0 (s.clas lst)
  else some (s, 0)

/-- One turn of the selection over the iterations: `ans_len` and `ans_iter_index`. -/
def selectIter (tag backSt i : ℕ) (a : Colony × ℤ × ℕ) : Option (Colony × ℤ × ℕ) := do
  let (s, ansLen, ansIterIndex) := a
  let (s, d) ← closing tag backSt s (s.pathBest i (s.n - 1))
  match chkmin ansLen (s.lenBest i + d) with
  | (ansLen, true) => some (s, ansLen, i)
  | (ansLen, false) => some (s, ansLen, ansIterIndex)

/-- The modes of the planner; mode `(2, 0)` starts its selection at iteration 1. -/
def modeStart (tag backSt : ℕ) : Option ℕ :=
  if tag = 0 ∧ backSt = 1 then some 0
  else if tag = 1 ∧ backSt = 1 then some 0
  else if tag = 2 ∧ backSt = 0 then some 1
  else if tag = 2 ∧ backSt = 1 then some 0
  else none

/-- The selection among the best routes of the iterations, and the tour `path[tim]`. -/
def selectTour (totIter backSt tim tag : ℕ) (s : Colony) : Option (Colony × ℤ) :=
  match modeStart tag backSt with
  | none => some (s, inf)
  | some lo => do
      let (s, ansLen, ansIterIndex) ← forLoop lo totIter (selectIter tag backSt) (s, inf, 0)
      some ({ s with
        path := fun t k =>
          if t = tim ∧ k < s.n then s.pathBest ansIterIndex k else s.path t k }, ansLen)

/-- The tables are cleared at the start of a run. -/
def Colony.clear (s : Colony) : Colony :=
  { s with deltaPher := fun _ _ => 0, lenBest := fun _ => 0 }

/-- The first `iters` iterations. -/
def antIters (rand : ℕ → ℕ) (m : ℕ) (stPoint : ℤ) (tim iters : ℕ) (s : Colony) : Option Colony :=
  forLoop 0 iters (antIter rand m stPoint tim) s

/-- **`ant(tot_iter, m, st_point, back_st, tim, tag)`.** -/
def ant (rand : ℕ → ℕ) (totIter m : ℕ) (stPoint : ℤ) (backSt tim tag : ℕ) (s : Colony) :
    Option (Colony × ℤ) := do
  let s ← antIters rand m stPoint tim totIter s.clear
  selectTour totIter backSt tim tag s

end HandlingRobot
