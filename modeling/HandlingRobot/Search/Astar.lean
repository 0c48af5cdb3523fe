import HandlingRobot.Library.BestFirst
import HandlingRobot.Library.CountingLoop
import HandlingRobot.Search.OpenList
import HandlingRobot.Tour.Geometry

/-! # The path search

`astar` searches a way for the car between two cells of a grid of 76 by 56. Besides the moves to the
eight neighbours there are three kinds of knight's moves, which are made only when all eight cells
of their table around the current cell are free. The table `cst` uses 0 for a cell that has no
estimate yet.

* **`legalMoves`** — the moves from a cell with their costs, as a specification.
* **`Astar`**, **`Astar.tryMove`**, **`Astar.expand`**, **`astarLoop`** — the search.
* **`astar`** — the search and the walk back through `fax` and `fay` into `roux` and `rouy`. -/

namespace HandlingRobot

/-! ## Moves -/

/-- A cell of the grid. -/
abbrev Cell := ℕ × ℕ

/-- `ww` and `hh`, the largest coordinates. -/
def ww : ℕ := 76
@[inherit_doc ww] def hh : ℕ := 56

/-- `pieces`, the size of `roux` and `rouy`. -/
def pieces : ℕ := 103

/-- The tables of moves. -/
def dir0 : List (ℤ × ℤ) := [(-1, -1), (1, 1), (1, -1), (-1, 1), (1, 0), (0, 1), (-1, 0), (0, -1)]
@[inherit_doc dir0] def dir1 : List (ℤ × ℤ) :=
  [(1, 2), (-1, 2), (1, -2), (-1, -2), (2, 1), (2, -1), (-2, 1), (-2, -1)]
@[inherit_doc dir0] def dir2 : List (ℤ × ℤ) :=
  [(3, 2), (-3, 2), (3, -2), (-3, -2), (2, 3), (2, -3), (-2, 3), (-2, -3)]
@[inherit_doc dir0] def dir3 : List (ℤ × ℤ) :=
  [(1, 3), (-1, 3), (1, -3), (-1, -3), (3, 1), (3, -1), (-3, 1), (-3, -1)]

/-- The cost of a move of `dir0`. -/
def cost0 (d : ℤ × ℤ) : ℕ := if |d.1| + |d.2| = 1 then 10 else 14

/-- The costs of the moves of the other tables. -/
def cost1 (_ : ℤ × ℤ) : ℕ := 22
@[inherit_doc cost1] def cost2 (_ : ℤ × ℤ) : ℕ := 36
@[inherit_doc cost1] def cost3 (_ : ℤ × ℤ) : ℕ := 32

/-- The obstacles, `true` for 1, with a value for the cells outside the table as well. -/
abbrev ObstacleMap := ℤ → ℤ → Bool

/-- All cells of a table around `v` are free. -/
def clear (obs : ObstacleMap) (dirs : List (ℤ × ℤ)) (v : Cell) : Bool :=
  dirs.all fun d => !obs (v.1 + d.1) (v.2 + d.2)

/-- The cells of the grid. -/
def InGrid (v : Cell) : Prop := 1 ≤ v.1 ∧ v.1 ≤ ww ∧ 1 ≤ v.2 ∧ v.2 ≤ hh

/-- The move `d` from `v`, if it leads to a free cell of the grid. -/
def legalMove (obs : ObstacleMap) (cost : ℤ × ℤ → ℕ) (v : Cell) (d : ℤ × ℤ) : Option (Cell × ℕ) :=
  let x := v.1 + d.1
  let y := v.2 + d.2
  if (1 ≤ x ∧ x ≤ ww ∧ 1 ≤ y ∧ y ≤ hh) ∧ obs x y = false then
    some ((x.toNat, y.toNat), cost d)
  else none

/-- The moves of a table that is used from `v`. -/
def tableMoves (obs : ObstacleMap) (dirs : List (ℤ × ℤ)) (cost : ℤ × ℤ → ℕ) (v : Cell) :
    List (Cell × ℕ) :=
  dirs.filterMap (legalMove obs cost v)

/-- **The legal moves from a cell**, with their costs. -/
def legalMoves (obs : ObstacleMap) (v : Cell) : List (Cell × ℕ) :=
  tableMoves obs dir0 cost0 v ++
    ((if clear obs dir1 v then tableMoves obs dir1 cost1 v else []) ++
      ((if clear obs dir2 v then tableMoves obs dir2 cost2 v else []) ++
        (if clear obs dir3 v then tableMoves obs dir3 cost3 v else [])))

/-! ## The search -/

/-- The variables of the search. -/
structure Astar where
  openList : OpenList
  cst : ℕ → ℕ → ℕ
  fax : ℕ → ℕ → ℕ
  fay : ℕ → ℕ → ℕ

/-- `H`, the estimate of the rest of the way. -/
def estimate (ed : Cell) (x y : ℕ) : ℕ := (calcDis x y ed.1 ed.2).toNat

/-- The conversion to `uint8_t`. -/
def toUint8 (z : ℤ) : ℕ := (z % 256).toNat

/-- The move `d` from the node `cur`. -/
def Astar.tryMove (obs : ObstacleMap) (ed : Cell) (cur : Nodee) (cost : ℤ × ℤ → ℕ) (d : ℤ × ℤ)
    (s : Astar) : Astar :=
  let x := toUint8 (cur.x + d.1)
  let y := toUint8 (cur.y + d.2)
  if obs x y = true then s
  else if x < 1 ∨ x > ww ∨ y < 1 ∨ y > hh then s
  else
    let G := cur.G + cost d
    let H := estimate ed x y
    let F := G + H
    if s.cst x y = 0 ∨ s.cst x y > F then
      { openList := s.openList.push ⟨x, y, F, G, H⟩
        cst := setCell s.cst x y F
        fax := setCell s.fax x y cur.x
        fay := setCell s.fay x y cur.y }
    else s

/-- All moves of a table. -/
def Astar.tryTable (obs : ObstacleMap) (ed : Cell) (cur : Nodee) (dirs : List (ℤ × ℤ))
    (cost : ℤ × ℤ → ℕ) (s : Astar) : Astar :=
  dirs.foldl (fun s d => s.tryMove obs ed cur cost d) s

/-- **The four tables**, the last three only from a cell whose surroundings are free. -/
def Astar.expand (obs : ObstacleMap) (ed : Cell) (cur : Nodee) (s : Astar) : Astar :=
  let s := s.tryTable obs ed cur dir0 cost0
  let s := if clear obs dir1 (cur.x, cur.y) then s.tryTable obs ed cur dir1 cost1 else s
  let s := if clear obs dir2 (cur.x, cur.y) then s.tryTable obs ed cur dir2 cost2 else s
  if clear obs dir3 (cur.x, cur.y) then s.tryTable obs ed cur dir3 cost3 else s

/-- **The loop `while (sz)`**, for at most `fuel` tests: whether it left by `break` with the goal
taken, and the variables after it. -/
def astarLoop (obs : ObstacleMap) (ed : Cell) : ℕ → Astar → Option (Bool × Astar)
  | 0, _ => none
  | fuel + 1, s =>
      if s.openList.sz = 0 then some (false, s)
      else
        let (cur, rest) := s.openList.pop
        let s := { s with openList := rest }
        if cur.x = ed.1 ∧ cur.y = ed.2 then some (true, s)
        else astarLoop obs ed fuel (s.expand obs ed cur)

/-- The variables before the loop, with the start pushed; what the array held before stays in it. -/
def Astar.init (heap : ℕ → Nodee) (st ed : Cell) : Astar where
  openList := OpenList.push ⟨st.1, st.2, estimate ed st.1 st.2, 0, estimate ed st.1 st.2⟩ ⟨heap, 0⟩
  cst := fun _ _ => 0
  fax := fun _ _ => 0
  fay := fun _ _ => 0

/-- What a call of `astar` ends with. -/
inductive AstarResult
  /-- `if_find = 1`, with the cells of `roux` and `rouy`. -/
  | found (rou : List Cell)
  /-- `if_find = 0`. -/
  | notFound
  /-- The walk back writes past the end of `roux` and `rouy`. -/
  | pastEnd
  deriving Repr, DecidableEq

/-- **`astar(stx, sty, edx, edy, …)`** up to the path; `none` when the fuel does not last. -/
def astar (heap : ℕ → Nodee) (obs : ObstacleMap) (st ed : Cell) (fuel : ℕ) : Option AstarResult :=
  match astarLoop obs ed fuel (Astar.init heap st ed) with
  | none => none
  | some (false, _) => some .notFound
  | some (true, s) =>
      match walkBack (fun v => (s.fax v.1 v.2, s.fay v.1 v.2)) st pieces ed with
      | some rou => some (.found rou)
      | none => some .pastEnd

end HandlingRobot
