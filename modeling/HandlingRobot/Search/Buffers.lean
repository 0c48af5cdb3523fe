import HandlingRobot.Search.Accesses
import HandlingRobot.Search.OpenRuns
import HandlingRobot.Tour.FirstStop
import HandlingRobot.Tour.PathStore
import Mathlib.Algebra.Order.Floor.Semifield

/-! # The buffers of the path search

`astar` keeps the open list in an array of 1000 nodes, the route in arrays of 103 cells, and its
waypoints on a path with room for 103 of them. None of the three limits is checked.

A turn of the search takes one entry off the list and adds one for every legal move that improves
`cst`. A move of the route is laid in as many pieces as it goes cells in its longer direction, so
the path is as long as the route in this measure, and the route has no more cells than that.

* **`astarSizes`** — the sizes of the open list; **`Astar.HasRoom`** — a turn has room in it.
* **`astarSizes_le_iff`** — the list stays within its array exactly when all turns have room.
* **`moveLength`** — the length of a move; **`Planner.layRoute_pathTot`** — the waypoints of a
  route.
* **`Planner.CallWithin`**, **`Planner.CallRoom`** — a call stays within its buffers, and what it
  needs for that; **`noTransTask_within_iff`**. -/

namespace HandlingRobot

/-! ## The open list -/

/-- The sizes of the open list after the moves of a table. -/
def Astar.tableSizes (obs : ObstacleMap) (ed : Cell) (cur : Nodee) (cost : ℤ × ℤ → ℕ) :
    List (ℤ × ℤ) → Astar → List ℕ
  | [], _ => []
  | d :: dirs, s =>
      (s.tryMove obs ed cur cost d).openList.sz ::
        (s.tryMove obs ed cur cost d).tableSizes obs ed cur cost dirs

/-- The sizes of the open list after the moves of a turn. -/
def Astar.expandSizes (obs : ObstacleMap) (ed : Cell) (cur : Nodee) (s : Astar) : List ℕ :=
  let v : Cell := (cur.x, cur.y)
  let s₀ := s.tryTable obs ed cur dir0 cost0
  let s₁ := if clear obs dir1 v then s₀.tryTable obs ed cur dir1 cost1 else s₀
  let s₂ := if clear obs dir2 v then s₁.tryTable obs ed cur dir2 cost2 else s₁
  s.tableSizes obs ed cur cost0 dir0 ++
    (if clear obs dir1 v then s₀.tableSizes obs ed cur cost1 dir1 else []) ++
    (if clear obs dir2 v then s₁.tableSizes obs ed cur cost2 dir2 else []) ++
    (if clear obs dir3 v then s₂.tableSizes obs ed cur cost3 dir3 else [])

/-- **The sizes of the open list** in the first `fuel` turns: at every test of `sz`, and after every
move. -/
def astarSizes (obs : ObstacleMap) (ed : Cell) : ℕ → Astar → List ℕ
  | 0, _ => []
  | fuel + 1, s =>
      s.openList.sz ::
        if s.openList.sz = 0 then []
        else
          let (cur, rest) := s.openList.pop
          let s := { s with openList := rest }
          if cur.x = ed.1 ∧ cur.y = ed.2 then []
          else s.expandSizes obs ed cur ++ astarSizes obs ed fuel (s.expand obs ed cur)

/-- The legal moves from the node `cur` that improve `cst`. -/
def Astar.improving (obs : ObstacleMap) (ed : Cell) (cur : Nodee) (s : Astar) : List (Cell × ℕ) :=
  (legalMoves obs (cur.x, cur.y)).filter fun m =>
    s.cst m.1.1 m.1.2 = 0 ∨ cur.G + m.2 + estimate ed m.1.1 m.1.2 < s.cst m.1.1 m.1.2

/-- **The next turn has room** for its entries: those left after the pop, and one for every move
that improves `cst`. -/
def Astar.HasRoom (obs : ObstacleMap) (ed : Cell) (s : Astar) : Prop :=
  s.openList.sz - 1 + (s.improving obs ed s.openList.pop.1).length ≤ maxN

/-! ### One turn -/

/-- A move adds at most one entry. -/
theorem Astar.le_tryMove_sz (obs : ObstacleMap) (ed : Cell) (cur : Nodee) (cost : ℤ × ℤ → ℕ)
    (d : ℤ × ℤ) (s : Astar) : s.openList.sz ≤ (s.tryMove obs ed cur cost d).openList.sz := by
  unfold Astar.tryMove
  dsimp only
  split_ifs
  · exact le_rfl
  · exact le_rfl
  · exact Nat.le_succ _
  · exact le_rfl

/-- A table of moves only adds entries, so its last size is the largest one. -/
theorem Astar.tableSizes_le_iff (obs : ObstacleMap) (ed : Cell) (cur : Nodee) (cost : ℤ × ℤ → ℕ)
    (dirs : List (ℤ × ℤ)) :
    ∀ s : Astar, s.openList.sz ≤ (s.tryTable obs ed cur dirs cost).openList.sz ∧
      ∀ n, s.openList.sz ≤ n → ((∀ k ∈ s.tableSizes obs ed cur cost dirs, k ≤ n) ↔
        (s.tryTable obs ed cur dirs cost).openList.sz ≤ n) := by
  induction dirs with
  | nil =>
      intro s
      exact ⟨le_rfl, fun n hn => ⟨fun _ => hn, fun _ k hk => absurd hk List.not_mem_nil⟩⟩
  | cons d dirs ih =>
      intro s
      have hmove := s.le_tryMove_sz obs ed cur cost d
      obtain ⟨hle, hiff⟩ := ih (s.tryMove obs ed cur cost d)
      refine ⟨hmove.trans hle, fun n hn => ?_⟩
      unfold Astar.tableSizes
      rw [List.forall_mem_cons]
      constructor
      · rintro ⟨hfirst, hrest⟩
        exact (hiff n hfirst).mp hrest
      · intro hlast
        have hfirst := hle.trans hlast
        exact ⟨hfirst, (hiff n hfirst).mpr hlast⟩

/-- A table of moves that is used only from some cells. -/
theorem Astar.tableSizes_ite_le_iff (obs : ObstacleMap) (ed : Cell) (cur : Nodee)
    (cost : ℤ × ℤ → ℕ) (dirs : List (ℤ × ℤ)) (b : Bool) (s : Astar) :
    let t := if b then s.tryTable obs ed cur dirs cost else s
    s.openList.sz ≤ t.openList.sz ∧
      ∀ n, s.openList.sz ≤ n →
        ((∀ k ∈ if b then s.tableSizes obs ed cur cost dirs else [], k ≤ n) ↔
          t.openList.sz ≤ n) := by
  cases b with
  | false => exact ⟨le_rfl, fun n hn => ⟨fun _ => hn, fun _ k hk => absurd hk List.not_mem_nil⟩⟩
  | true => exact Astar.tableSizes_le_iff obs ed cur cost dirs s

/-- **A turn stays within a bound** exactly when its last size does. -/
theorem Astar.expandSizes_le_iff (obs : ObstacleMap) (ed : Cell) (cur : Nodee) (s : Astar) {n : ℕ}
    (hn : s.openList.sz ≤ n) :
    (∀ k ∈ s.expandSizes obs ed cur, k ≤ n) ↔ (s.expand obs ed cur).openList.sz ≤ n := by
  unfold Astar.expandSizes Astar.expand
  dsimp only
  obtain ⟨-, hiff₀⟩ := Astar.tableSizes_le_iff obs ed cur cost0 dir0 s
  generalize s.tryTable obs ed cur dir0 cost0 = s₀ at *
  obtain ⟨hle₁, hiff₁⟩ := Astar.tableSizes_ite_le_iff obs ed cur cost1 dir1
    (clear obs dir1 (cur.x, cur.y)) s₀
  generalize (if clear obs dir1 (cur.x, cur.y) then s₀.tryTable obs ed cur dir1 cost1 else s₀) =
    s₁ at *
  obtain ⟨hle₂, hiff₂⟩ := Astar.tableSizes_ite_le_iff obs ed cur cost2 dir2
    (clear obs dir2 (cur.x, cur.y)) s₁
  generalize (if clear obs dir2 (cur.x, cur.y) then s₁.tryTable obs ed cur dir2 cost2 else s₁) =
    s₂ at *
  obtain ⟨hle₃, hiff₃⟩ := Astar.tableSizes_ite_le_iff obs ed cur cost3 dir3
    (clear obs dir3 (cur.x, cur.y)) s₂
  rw [List.forall_mem_append, List.forall_mem_append, List.forall_mem_append]
  constructor
  · rintro ⟨⟨⟨h₀, h₁⟩, h₂⟩, h₃⟩
    have h₀' := (hiff₀ n hn).mp h₀
    have h₁' := (hiff₁ n h₀').mp h₁
    have h₂' := (hiff₂ n h₁').mp h₂
    exact (hiff₃ n h₂').mp h₃
  · intro h₃
    have h₂ := hle₃.trans h₃
    have h₁ := hle₂.trans h₂
    have h₀ := hle₁.trans h₁
    exact ⟨⟨⟨(hiff₀ n hn).mpr h₀, (hiff₁ n h₀).mpr h₁⟩, (hiff₂ n h₁).mpr h₂⟩,
      (hiff₃ n h₂).mpr h₃⟩

/-- The offset of a move from `v`, and its cost. -/
def priced (v : Cell) (m : Cell × ℕ) : (ℤ × ℤ) × ℕ := (((m.1.1 : ℤ) - v.1, (m.1.2 : ℤ) - v.2), m.2)

/-- The entries of the four tables with their costs. -/
def pricedDirs : List ((ℤ × ℤ) × ℕ) :=
  dir0.map (fun d => (d, cost0 d)) ++ (dir1.map (fun d => (d, cost1 d)) ++
    (dir2.map (fun d => (d, cost2 d)) ++ dir3.map fun d => (d, cost3 d)))

/-- The moves of a table are some of its entries. -/
theorem tableMoves_sublist (obs : ObstacleMap) (dirs : List (ℤ × ℤ)) (cost : ℤ × ℤ → ℕ) (v : Cell) :
    ((tableMoves obs dirs cost v).map (priced v)).Sublist (dirs.map fun d => (d, cost d)) := by
  induction dirs with
  | nil => exact List.Sublist.refl _
  | cons d dirs ih =>
      unfold tableMoves at ih ⊢
      rw [List.filterMap_cons]
      rcases hlegal : legalMove obs cost v d with _ | m
      · exact ih.cons _
      · obtain ⟨-, -, hx, hy, hc⟩ := legalMove_eq_some.mp hlegal
        have hd : priced v m = (d, cost d) := by
          unfold priced
          rw [hx, hy, hc, add_sub_cancel_left, add_sub_cancel_left]
        dsimp only
        rw [List.map_cons, List.map_cons, hd]
        exact ih.cons_cons _

/-- **The legal moves from a cell are some of the entries of the tables.** -/
theorem legalMoves_sublist (obs : ObstacleMap) (v : Cell) :
    ((legalMoves obs v).map (priced v)).Sublist pricedDirs := by
  have hite : ∀ (dirs : List (ℤ × ℤ)) (cost : ℤ × ℤ → ℕ) (b : Bool),
      ((if b then tableMoves obs dirs cost v else []).map (priced v)).Sublist
        (dirs.map fun d => (d, cost d)) := by
    intro dirs cost b
    cases b with
    | false => exact List.nil_sublist _
    | true => exact tableMoves_sublist obs dirs cost v
  unfold legalMoves pricedDirs
  rw [List.map_append, List.map_append, List.map_append]
  exact (tableMoves_sublist obs dir0 cost0 v).append
    ((hite dir1 cost1 _).append ((hite dir2 cost2 _).append (hite dir3 cost3 _)))

/-- The legal moves from a cell lead to different cells. -/
theorem legalMoves_nodup (obs : ObstacleMap) (v : Cell) :
    ((legalMoves obs v).map Prod.fst).Nodup := by
  have hoffset : (((legalMoves obs v).map (priced v)).map Prod.fst).Nodup :=
    ((legalMoves_sublist obs v).map Prod.fst).nodup (by decide)
  have hcomp : ((legalMoves obs v).map (priced v)).map Prod.fst =
      ((legalMoves obs v).map Prod.fst).map fun w => ((w.1 : ℤ) - v.1, (w.2 : ℤ) - v.2) := by
    rw [List.map_map, List.map_map]
    rfl
  rw [hcomp] at hoffset
  exact hoffset.of_map _

/-- A turn adds 32 entries at most. -/
theorem Astar.hasRoom_of_le {obs : ObstacleMap} {ed : Cell} {s : Astar}
    (h : s.openList.sz + 31 ≤ maxN) : s.HasRoom obs ed := by
  have hfilter : (s.improving obs ed s.openList.pop.1).length ≤ (legalMoves obs _).length :=
    List.length_filter_le _ _
  have hmoves := (legalMoves_sublist obs (s.openList.pop.1.x, s.openList.pop.1.y)).length_le
  have htable : pricedDirs.length = 32 := by decide
  rw [List.length_map, htable] at hmoves
  unfold Astar.HasRoom
  simp only [maxN] at h ⊢
  omega

/-- **The size of the list after a turn.** -/
theorem Astar.Ok.turn_sz {obs : ObstacleMap} {ed : Cell} {s : Astar} (h : s.Ok ed)
    (hsz : 0 < s.openList.sz) :
    (({ s with openList := s.openList.pop.2 } : Astar).expand obs ed s.openList.pop.1).openList.sz =
      s.openList.sz - 1 + (s.improving obs ed s.openList.pop.1).length := by
  obtain ⟨hok, hgrid, -, -, -⟩ := h.pop hsz
  obtain ⟨-, hexpand⟩ := hok.expand obs hgrid
  have hcard : ∀ t : Astar, (t.search ed).frontier.card = t.openList.sz := fun t => by
    rw [Astar.search_frontier, Multiset.card_map, OpenList.card_nodes]
  rw [← hcard, hexpand, Search.card_expand _ _ _ _ (legalMoves_nodup obs _), hcard]
  congr 2
  refine List.filter_congr fun m _ => ?_
  rw [decide_eq_decide, Astar.forall_best_iff]

/-! ### All turns -/

/-- **The open list stays within its array** exactly when every turn has room in it. -/
theorem astarSizes_le_iff {obs : ObstacleMap} {st ed : Cell} (fuel : ℕ) :
    ∀ {s : Astar}, s.Ok ed → (s.search ed).Between (legalMoves obs) st ed →
      s.openList.sz ≤ maxN →
      ((∀ n ∈ astarSizes obs ed fuel s, n ≤ maxN) ↔
        ∀ t ∈ astarTurns obs ed fuel s, t.HasRoom obs ed) := by
  -- turn after turn; what a turn leaves is what the next one starts with
  induction fuel with
  | zero => exact fun _ _ _ => ⟨fun _ t ht => absurd ht List.not_mem_nil,
      fun _ n hn => absurd hn List.not_mem_nil⟩
  | succ fuel ih =>
      intro s hok hbetween hle
      unfold astarSizes astarTurns
      rw [List.forall_mem_cons]
      by_cases hsz : s.openList.sz = 0
      · rw [if_pos hsz, if_pos hsz]
        simp [hle]
      rw [if_neg hsz, if_neg hsz]
      dsimp only
      by_cases hgoal : s.openList.pop.1.x = ed.1 ∧ s.openList.pop.1.y = ed.2
      · rw [if_pos hgoal, if_pos hgoal]
        simp [hle]
      rw [if_neg hgoal, if_neg hgoal, List.forall_mem_append, List.forall_mem_cons]
      have hpos := Nat.pos_of_ne_zero hsz
      obtain ⟨hok', hbetween', -, -⟩ := hok.turn hbetween hpos hgoal
      have hpopped : ({ s with openList := s.openList.pop.2 } : Astar).openList.sz ≤ maxN :=
        (Nat.sub_le _ 1).trans hle
      rw [Astar.expandSizes_le_iff obs ed _ _ hpopped, hok.turn_sz hpos]
      constructor
      · rintro ⟨-, hroom, hrest⟩
        exact ⟨hroom, (ih hok' hbetween' (by rw [hok.turn_sz hpos]; exact hroom)).mp hrest⟩
      · rintro ⟨hroom, hrest⟩
        exact ⟨hle, hroom, (ih hok' hbetween' (by rw [hok.turn_sz hpos]; exact hroom)).mpr hrest⟩

/-! ## The length of a route -/

/-- How many cells a move goes in its longer direction. -/
def moveLength (v w : Cell) : ℕ := max ((w.1 : ℤ) - v.1).natAbs ((w.2 : ℤ) - v.2).natAbs

theorem moveLength_comm (v w : Cell) : moveLength v w = moveLength w v := by
  unfold moveLength
  omega

/-- The pieces in which `make_path` lays a move. -/
def movePieces (v w : Cell) : ℕ :=
  pieceCount ((centre w).1 - (centre v).1) ((centre w).2 - (centre v).2) pieceStep

/-- The pieces for an offset of `a` and `b` cells. -/
theorem pieceCount_cells (a b : ℤ) :
    pieceCount (10 * a) (10 * b) pieceStep = Nat.sqrt ((4 * (a * a + b * b)).toNat / 9) + 1 := by
  have hnn : 0 ≤ 4 * (a * a + b * b) := by nlinarith [mul_self_nonneg a, mul_self_nonneg b]
  have hcast : (((4 * (a * a + b * b)).toNat : ℕ) : ℚ) = 4 * (a * a + b * b) := by
    exact_mod_cast Int.toNat_of_nonneg hnn
  have hfrac : (10 * (a : ℚ) * (10 * a) + 10 * b * (10 * b)) / (pieceStep * pieceStep) =
      ((4 * (a * a + b * b)).toNat : ℕ) / (9 : ℕ) := by
    rw [hcast, pieceStep]
    push_cast
    ring
  unfold pieceCount
  rw [hfrac, Nat.floor_div_eq_div]

theorem priced_mem {obs : ObstacleMap} {v : Cell} {m : Cell × ℕ} (hm : m ∈ legalMoves obs v) :
    priced v m ∈ pricedDirs := (legalMoves_sublist obs v).subset (List.mem_map_of_mem hm)

/-- A legal move goes at most three cells, and costs 10 for each of them at least. -/
theorem moveLength_bounds {obs : ObstacleMap} {v : Cell} {m : Cell × ℕ}
    (hm : m ∈ legalMoves obs v) :
    (0 < moveLength v m.1 ∧ moveLength v m.1 ≤ 3) ∧ 10 * moveLength v m.1 ≤ m.2 := by
  have htable : ∀ e ∈ pricedDirs, (0 < max e.1.1.natAbs e.1.2.natAbs ∧
      max e.1.1.natAbs e.1.2.natAbs ≤ 3) ∧ 10 * max e.1.1.natAbs e.1.2.natAbs ≤ e.2 := by decide
  exact htable (priced v m) (priced_mem hm)

/-- **A legal move is laid in as many pieces as it goes cells.** -/
theorem movePieces_eq {obs : ObstacleMap} {v : Cell} {m : Cell × ℕ} (hm : m ∈ legalMoves obs v) :
    movePieces v m.1 = moveLength v m.1 := by
  have htable : ∀ e ∈ pricedDirs, Nat.sqrt ((4 * (e.1.1 * e.1.1 + e.1.2 * e.1.2)).toNat / 9) + 1 =
      max e.1.1.natAbs e.1.2.natAbs := by decide +kernel
  have hx : ((centre m.1).1 : ℚ) - (centre v).1 = 10 * (((m.1.1 : ℤ) - v.1 : ℤ) : ℚ) := by
    simp only [centre]
    push_cast
    ring
  have hy : ((centre m.1).2 : ℚ) - (centre v).2 = 10 * (((m.1.2 : ℤ) - v.2 : ℤ) : ℚ) := by
    simp only [centre]
    push_cast
    ring
  unfold movePieces
  rw [hx, hy, pieceCount_cells]
  exact htable (priced v m) (priced_mem hm)

/-- The way from cell `i` of the array down to the first one is laid move by move. -/
theorem layCells_pathTot (rou : ℕ → Cell) (num i : ℕ) :
    ∀ s : Planner, (layCells rou num i s).pathTot num =
      s.pathTot num + wayTotal movePieces ((List.range (i + 1)).map rou).reverse := by
  induction i with
  | zero => exact fun s => rfl
  | succ i ih =>
      intro s
      have hlist : ((List.range (i + 1 + 1)).map rou).reverse =
          rou (i + 1) :: ((List.range (i + 1)).map rou).reverse := by
        rw [List.range_succ, List.map_append, List.reverse_append]
        rfl
      have htail : ((List.range (i + 1)).map rou).reverse =
          rou i :: ((List.range i).map rou).reverse := by
        rw [List.range_succ, List.map_append, List.reverse_append]
        rfl
      rw [layCells, ih, makePath_pathTot, hlist, htail, wayTotal_cons_cons, Nat.add_assoc]
      rfl

/-- **The waypoints of a route**: those of its moves, and those of the way to the point. -/
theorem Planner.layRoute_pathTot (s : Planner) (rou : List Cell) (ipath : ℕ) :
    (s.layRoute rou ipath).pathTot s.numPath =
      s.pathTot s.numPath + wayTotal movePieces rou.reverse +
        pieceCount (s.px (s.path 0 ipath) - (centre (rou.getD 0 (0, 0))).1)
          (s.py (s.path 0 ipath) - (centre (rou.getD 0 (0, 0))).2) pieceStep := by
  have hcells := layCells_pathTot (fun i => rou.getD i (0, 0)) s.numPath (rou.length - 1) s
  have hway : wayTotal movePieces
      ((List.range (rou.length - 1 + 1)).map fun i => rou.getD i (0, 0)).reverse =
        wayTotal movePieces rou.reverse := by
    cases rou with
    | nil => rfl
    | cons v l =>
        congr 2
        refine List.ext_getElem (by simp) fun i _ hi => ?_
        rw [List.getElem_map, List.getElem_range, List.getD_eq_getElem?_getD,
          List.getElem?_eq_getElem hi, Option.getD_some]
  obtain ⟨_, _, _, _, hlaid⟩ :=
    layCells_frame (fun i => rou.getD i (0, 0)) s.numPath (rou.length - 1) s
  unfold Planner.layRoute
  dsimp only
  rw [← hway, ← hcells, hlaid]
  exact Planner.leg_pathTot _ _ _ _ _

/-! ## One call -/

/-- **A call of `astar` stays within its buffers**: the open list within its 1000 entries, the walk
back within `roux` and `rouy`, and the waypoints within their path. -/
structure Planner.AstarWithin (heap : ℕ → Nodee) (obs : ObstacleMap) (st ed : Cell) (ipath : ℕ)
    (s : Planner) : Prop where
  openList : ∀ fuel, ∀ n ∈ astarSizes obs ed fuel (Astar.init heap st ed), n ≤ maxN
  route : RouteFits heap obs st ed
  path : ∀ fuel t, astarTo heap obs st ed ipath fuel s = some t →
    t.pathTot s.numPath < pointRoom

/-- **There is room for a call of `astar`**: every turn has room in the open list, and the path has
room for the route that is found, or for the straight way from `(-45, -45)` if there is none. -/
structure Planner.AstarRoom (heap : ℕ → Nodee) (obs : ObstacleMap) (st ed : Cell) (ipath : ℕ)
    (s : Planner) : Prop where
  turns : ∀ fuel, ∀ a ∈ astarTurns obs ed fuel (Astar.init heap st ed), a.HasRoom obs ed
  found : ∀ fuel a room rou, astarLoop obs ed fuel (Astar.init heap st ed) = some (true, a) →
    walkBack (fun v => (a.fax v.1 v.2, a.fay v.1 v.2)) st room ed = some rou →
    s.pathTot s.numPath + wayTotal moveLength rou + 1 < pointRoom
  notFound : (∀ c, ¬ Walk (legalMoves obs) st ed c) →
    s.pathTot s.numPath + pieceCount (s.px (s.path 0 ipath) + 45) (s.py (s.path 0 ipath) + 45)
      pieceStep < pointRoom

/-- The goal is so close to its point that the way there is one piece. -/
def Planner.EndsNear (ed : Cell) (ipath : ℕ) (s : Planner) : Prop :=
  pieceCount (s.px (s.path 0 ipath) - (centre ed).1) (s.py (s.path 0 ipath) - (centre ed).2)
    pieceStep = 1

/-- **The waypoints of a found route.** -/
theorem CheapestBack.pathTot {obs : ObstacleMap} {st ed : Cell} {rou : List Cell}
    (h : CheapestBack obs st ed rou) {ipath : ℕ} {s : Planner} (hnear : s.EndsNear ed ipath) :
    (s.layRoute rou ipath).pathTot s.numPath =
      s.pathTot s.numPath + wayTotal moveLength rou + 1 ∧
        rou.length ≤ wayTotal moveLength rou + 1 := by
  obtain ⟨hhead, -, c, hroute, -⟩ := h
  have hgoal : rou.getD 0 (0, 0) = ed := by
    rw [List.getD_eq_getElem?_getD, ← List.head?_eq_getElem?, hhead]
    rfl
  have hlength := hroute.length_le_wayTotal fun v m hm => (moveLength_bounds hm).1.1
  have hpieces := hroute.wayTotal_congr fun v m hm => movePieces_eq hm
  rw [List.length_reverse, wayTotal_reverse moveLength_comm] at hlength
  rw [wayTotal_reverse moveLength_comm] at hpieces
  refine ⟨?_, hlength⟩
  rw [Planner.layRoute_pathTot, hgoal, hpieces, hnear]

/-- Without a route the path starts at the centre of cell `(0, 0)`. -/
theorem astarTo_pathTot_notFound {heap : ℕ → Nodee} {obs : ObstacleMap} {st ed : Cell} {N : ℕ}
    (hrun : astar heap obs st ed N = some .notFound) (ipath : ℕ) (s : Planner) :
    (RouteFits heap obs st ed ∧ ∀ fuel t, astarTo heap obs st ed ipath fuel s = some t →
        t.pathTot s.numPath < pointRoom) ↔
      s.pathTot s.numPath + pieceCount (s.px (s.path 0 ipath) + 45) (s.py (s.path 0 ipath) + 45)
        pieceStep < pointRoom := by
  have htot := s.layRoute_pathTot [] ipath
  have hstart : (s.px (s.path 0 ipath) : ℚ) - (centre (0, 0)).1 = s.px (s.path 0 ipath) + 45 ∧
      (s.py (s.path 0 ipath) : ℚ) - (centre (0, 0)).2 = s.py (s.path 0 ipath) + 45 := by
    norm_num [centre]
  rw [List.getD_nil, hstart.1, hstart.2] at htot
  have hend : astarTo heap obs st ed ipath N s = some (s.layRoute [] ipath) := by
    rw [astarTo, hrun]
  constructor
  · rintro ⟨-, hpath⟩
    have hlt := hpath N (s.layRoute [] ipath) hend
    rw [htot] at hlt
    exact hlt
  · intro hlt
    refine ⟨routeFits_of_notFound hrun, fun fuel t ht => ?_⟩
    obtain rfl := astarTo_agree ht hend
    rw [htot]
    exact hlt

/-- A route that is found is laid if `roux` and `rouy` can hold it. -/
theorem astarTo_pathTot_found {heap : ℕ → Nodee} {obs : ObstacleMap} {st ed : Cell} {N : ℕ}
    {a : Astar} {rou : List Cell} (hcheap : CheapestBack obs st ed rou)
    (htakes : TakesGoal heap obs st ed N a rou) {ipath : ℕ} {s : Planner}
    (hnear : s.EndsNear ed ipath) :
    (RouteFits heap obs st ed ∧ ∀ fuel t, astarTo heap obs st ed ipath fuel s = some t →
        t.pathTot s.numPath < pointRoom) ↔
      s.pathTot s.numPath + wayTotal moveLength rou + 1 < pointRoom := by
  obtain ⟨htot, hlength⟩ := hcheap.pathTot hnear
  have hrun := htakes.astar_eq le_rfl
  have hend : rou.length ≤ pieces →
      astarTo heap obs st ed ipath N s = some (s.layRoute rou ipath) := by
    intro hlen
    rw [if_pos hlen] at hrun
    rw [astarTo, hrun]
  constructor
  · rintro ⟨hroute, hpath⟩
    have hlt := hpath N (s.layRoute rou ipath) (hend (htakes.routeFits_iff.mp hroute))
    rw [htot] at hlt
    exact hlt
  · intro hlt
    -- a route with too many cells would be too long for the path as well
    have hlen : rou.length ≤ pieces := by
      simp only [pointRoom] at hlt
      simp only [pieces]
      omega
    refine ⟨htakes.routeFits_iff.mpr hlen, fun fuel t ht => ?_⟩
    obtain rfl := astarTo_agree ht (hend hlen)
    rw [htot]
    exact hlt

/-- **One call stays within its buffers** exactly when there is room for it. -/
theorem Planner.astarWithin_iff (heap : ℕ → Nodee) (obs : ObstacleMap) {st ed : Cell} {ipath : ℕ}
    {s : Planner} (hst : InGrid st) (hnear : s.EndsNear ed ipath) :
    s.AstarWithin heap obs st ed ipath ↔ s.AstarRoom heap obs st ed ipath := by
  have hok := (Astar.ok_init heap hst ed).1
  have hbetween := Astar.between_init heap obs hst ed
  have hturns : ∀ fuel, (∀ n ∈ astarSizes obs ed fuel (Astar.init heap st ed), n ≤ maxN) ↔
      ∀ a ∈ astarTurns obs ed fuel (Astar.init heap st ed), a.HasRoom obs ed := fun fuel =>
    astarSizes_le_iff fuel hok hbetween (show 1 ≤ maxN by decide)
  obtain ⟨U, hU⟩ := exists_grid
  obtain ⟨N, found, a, hend, hloop⟩ := astarLoop_ends hU _ _ hok hbetween rfl
  cases found with
  | false =>
      have hpath := astarTo_pathTot_notFound (N := N) (by rw [astar, hloop N le_rfl]) ipath s
      constructor
      · intro h
        refine ⟨fun fuel => (hturns fuel).mp (h.openList fuel), fun fuel b room rou hb _ => ?_,
          fun _ => hpath.mp ⟨h.route, h.path⟩⟩
        exact absurd (congrArg Prod.fst (astarLoop_agree (hloop N le_rfl) hb)) (by simp)
      · intro h
        obtain ⟨hroute, hpath⟩ := hpath.mpr (h.notFound hend)
        exact ⟨fun fuel => (hturns fuel).mpr (h.turns fuel), hroute, hpath⟩
  | true =>
      obtain ⟨room, rou, hback, hcheap⟩ := hend
      have hpath := astarTo_pathTot_found hcheap
        (⟨hloop, (walkBack_length _ _ hback).2⟩ : TakesGoal heap obs st ed N a rou) hnear
      constructor
      · intro h
        refine ⟨fun fuel => (hturns fuel).mp (h.openList fuel),
          fun fuel b room' rou' hb hback' => ?_, fun hno => ?_⟩
        · obtain rfl : a = b := congrArg Prod.snd (astarLoop_agree (hloop N le_rfl) hb)
          obtain rfl := walkBack_agree _ _ hback hback'
          exact hpath.mp ⟨h.route, h.path⟩
        · obtain ⟨c, hwalk⟩ := hcheap.walk
          exact absurd hwalk (hno c)
      · intro h
        obtain ⟨hroute, hpath⟩ := hpath.mpr (h.found N a room rou (hloop N le_rfl) hback)
        exact ⟨fun fuel => (hturns fuel).mpr (h.turns fuel), hroute, hpath⟩

/-- **A cheap way makes a short route.** -/
theorem wayTotal_le_of_walk {heap : ℕ → Nodee} {obs : ObstacleMap} {st ed : Cell}
    {c fuel room : ℕ} {a : Astar} {rou : List Cell} (hst : InGrid st)
    (hwalk : Walk (legalMoves obs) st ed c)
    (hloop : astarLoop obs ed fuel (Astar.init heap st ed) = some (true, a))
    (hback : walkBack (fun v => (a.fax v.1 v.2, a.fay v.1 v.2)) st room ed = some rou) :
    10 * wayTotal moveLength rou ≤ c := by
  obtain ⟨U, hU⟩ := exists_grid
  obtain ⟨N, found, b, hend, hloop'⟩ := astarLoop_ends hU _ _ (Astar.ok_init heap hst ed).1
    (Astar.between_init heap obs hst ed) rfl
  obtain ⟨rfl, rfl⟩ := Prod.mk.inj (astarLoop_agree (hloop' N le_rfl) hloop)
  obtain ⟨room', rou', hback', -, -, c', hroute, hmin⟩ := hend
  obtain rfl := walkBack_agree _ _ hback hback'
  have hle := hroute.wayTotal_le fun v m hm => (moveLength_bounds hm).2
  rw [wayTotal_reverse moveLength_comm] at hle
  exact hle.trans (hmin c hwalk)

/-! ## The calls of the tour -/

/-- **The goal of a call is the cell of a picture**, 5 away from its point. -/
theorem Planner.Placed.endsNear {pos : ℕ → ℤ × ℤ} {s t : Planner} (h : s.Placed pos)
    {rand : ℕ → ℕ} {heaps : ℕ → ℕ → Nodee} {obs : ObstacleMap} {fuel k : ℕ} (hk : k < s.picNum)
    (ht : (noTransLoad rand s).bind (noTransCalls heaps obs fuel k) = some t) :
    t.EndsNear (t.tourCell (k + 1)) (k + 1) := by
  obtain ⟨hpx, hpy, htour⟩ := h.at_call hk ht
  have hstops := htour.partialTour
  -- the tour comes back to its start nowhere
  have hlt := hstops.lt (k + 1) (by omega)
  have hne : t.path 0 (k + 1) ≠ s.picNum := fun heq =>
    absurd (hstops.inj (k + 1) (by omega) 0 (by omega) (heq.trans htour.1.symm)) (by omega)
  have hi : t.path 0 (k + 1) < s.picNum := by omega
  unfold Planner.EndsNear Planner.tourCell
  rw [hpx, hpy, h.pointCell hi]
  generalize t.path 0 (k + 1) = i at *
  obtain ⟨hx, hy⟩ := Planner.loadPoints_pic hi
  obtain ⟨hposx, hposy⟩ := h.at_pos i hi
  obtain ⟨⟨hx1, -⟩, hy1, -⟩ := h.cell i hi
  have hdx : s.loadPoints.px i - (centre ((2 * (pos i).1 + 2).toNat, (2 * (pos i).2 - 1).toNat)).1 =
      5 := by
    rw [hx, hposx]
    simp only [centre]
    omega
  have hdy : s.loadPoints.py i - (centre ((2 * (pos i).1 + 2).toNat, (2 * (pos i).2 - 1).toNat)).2 =
      0 := by
    rw [hy, hposy]
    simp only [centre]
    omega
  rw [← Int.cast_sub, ← Int.cast_sub, hdx, hdy]
  norm_num [pieceCount, pieceStep]

/-- **When the calls of `no_trans_task` stay within their buffers**: call `k` does exactly when
there is room for it. -/
theorem noTransTask_within_iff (rand : ℕ → ℕ) (heaps : ℕ → ℕ → Nodee) (beyond : ObstacleMap)
    (pos : ℕ → ℤ × ℤ) (fuel k : ℕ) (s t : Planner) (hs : s.Placed pos) (hk : k < s.picNum)
    (ht : (noTransLoad rand s).bind
      (noTransCalls heaps (astarInit beyond pos s.picNum) fuel k) = some t) :
    t.AstarWithin (heaps k) (astarInit beyond pos s.picNum) (t.tourCell k) (t.tourCell (k + 1))
        (k + 1) ↔
      t.AstarRoom (heaps k) (astarInit beyond pos s.picNum) (t.tourCell k) (t.tourCell (k + 1))
        (k + 1) :=
  Planner.astarWithin_iff _ _ (hs.before_call hk ht) (hs.endsNear hk ht)

/-- The obstacle of one picture right beside the start of the car. -/
def besideObs : ObstacleMap := astarInit (fun _ _ => false) (fun _ => (1, 2)) 1

/-- The call for this picture stays within its buffers. -/
theorem besidePicture_within :
    ∃ t, noTransLoad (fun k => k) (.boot [(1, 2)]) = some t ∧
      t.AstarWithin (fun _ => ⟨0, 0, 0, 0, 0⟩) besideObs (t.tourCell 0) (t.tourCell 1) 1 := by
  have hgrid : InGrid (4, 4) := by unfold InGrid; decide
  have hwalk : Walk (legalMoves besideObs) (4, 4) (4, 3) (10 + 0) :=
    .step (w := (4, 3)) (by decide) (.refl _)
  obtain ⟨t, hload, htot, h0, h1⟩ := onePicture_tour (fun k => k) (p := (1, 2)) (by decide)
  have hcell : t.tourCell 1 = (4, 3) := h1
  refine ⟨t, hload, (noTransTask_within_iff (fun k => k) (fun _ _ => ⟨0, 0, 0, 0, 0⟩)
    (fun _ _ => false) (fun _ => (1, 2)) 0 0 _ t (placed_onePicture (by decide)) (by decide)
    (by rw [hload]; rfl)).mpr ?_⟩
  show t.AstarRoom _ besideObs _ _ 1
  rw [h0, hcell]
  -- the goal is taken in the second turn
  have hends : (astarLoop besideObs (4, 3) 2
      (Astar.init (fun _ => ⟨0, 0, 0, 0, 0⟩) (4, 4) (4, 3))).isSome := by decide +kernel
  have hsizes : (astarTurns besideObs (4, 3) 2 (Astar.init (fun _ => ⟨0, 0, 0, 0, 0⟩) (4, 4)
      (4, 3))).map (fun a => a.openList.sz) = [1] := by decide +kernel
  refine ⟨fun fuel a ha => ?_, fun fuel a room rou hloop hback => ?_,
    fun hno => absurd hwalk (hno _)⟩
  · have hmem := List.mem_map_of_mem (f := fun a : Astar => a.openList.sz)
      (astarTurns_subset hends fuel ha)
    rw [hsizes] at hmem
    exact Astar.hasRoom_of_le (by rw [List.mem_singleton.mp hmem]; decide)
  · have hle := wayTotal_le_of_walk hgrid hwalk hloop hback
    rw [htot]
    simp only [pointRoom]
    omega

/-! ## A route that is longer than its path -/

/-- Pictures around a pocket of two rows that is open to the right only, the picture at its closed
end first. -/
def pocketPictures : List (ℤ × ℤ) :=
  [(21, 4), (19, 1), (19, 3), (19, 4), (21, 1), (23, 1), (25, 1), (27, 1), (29, 1), (31, 1),
    (33, 1), (35, 1), (23, 4), (25, 4), (27, 4), (29, 4), (31, 4), (33, 4), (35, 4)]

@[inherit_doc pocketPictures]
def pocketPos (i : ℕ) : ℤ × ℤ := pocketPictures.getD i (0, 0)

/-- Their obstacles. -/
def pocketObs : ObstacleMap := astarInit (fun _ _ => false) pocketPos 19

theorem placed_pocketPictures : (Planner.boot pocketPictures).Placed pocketPos :=
  ⟨by decide, fun _ _ => ⟨rfl, rfl⟩, by decide, by decide⟩

/-- The only free cells between the pictures are those of the pocket. -/
theorem pocketObs_free {v : Cell} (hv : pocketObs v.1 v.2 = false)
    (hx : 39 ≤ v.1 ∧ v.1 ≤ 74) (hy : 3 ≤ v.2 ∧ v.2 ≤ 12) : 43 ≤ v.1 ∧ (v.2 = 7 ∨ v.2 = 8) := by
  have hall : ∀ i < 36, ∀ j < 10, pocketObs ((39 + i : ℕ) : ℤ) ((3 + j : ℕ) : ℤ) = false →
      4 ≤ i ∧ (j = 4 ∨ j = 5) := by decide +kernel
  obtain ⟨x, y⟩ := v
  obtain ⟨i, rfl⟩ := Nat.exists_eq_add_of_le hx.1
  obtain ⟨j, rfl⟩ := Nat.exists_eq_add_of_le hy.1
  dsimp only at hv hx hy ⊢
  have hij := hall i (by omega) j (by omega) hv
  omega

/-- How far a cell lies along the way around the pictures and into the pocket. -/
def pocketDepth (v : Cell) : ℤ :=
  if 43 ≤ v.1 ∧ v.1 ≤ 74 ∧ (v.2 = 7 ∨ v.2 = 8) then 150 - v.1 else v.1

/-- **A move gets no further than its length.** -/
theorem pocketDepth_le {v : Cell} (hv : pocketObs v.1 v.2 = false) {m : Cell × ℕ}
    (hm : m ∈ legalMoves pocketObs v) :
    pocketObs m.1.1 m.1.2 = false ∧ pocketDepth m.1 ≤ pocketDepth v + moveLength v m.1 := by
  have hfree := free_of_mem_legalMoves hm
  have hgrid := (isMove_of_mem_legalMoves hm).inGrid
  have hlength := (moveLength_bounds hm).1
  have hwall := pocketObs_free hv
  have hwidth := hgrid.2.1
  simp only [ww] at hwidth
  refine ⟨hfree, ?_⟩
  unfold pocketDepth
  unfold moveLength at hlength ⊢
  -- a move into the pocket comes from column 75 or 76, the rest is behind walls of four cells
  split_ifs <;> omega

/-- There is a way around the pictures. -/
theorem pocket_walk : ∃ c, Walk (legalMoves pocketObs) (4, 4) (44, 7) c := by
  obtain ⟨c₀, h₀⟩ : ∃ c, Walk (legalMoves pocketObs) (4, 4) (6, 2) c :=
    walk_line (d := (1, -1)) (by decide) (fun i => (4 + i, 4 - i)) (k := 2)
      (by decide) (by unfold InGrid; decide +kernel)
  obtain ⟨c₁, h₁⟩ : ∃ c, Walk (legalMoves pocketObs) (6, 2) (75, 2) c :=
    walk_line (d := (1, 0)) (by decide) (fun i => (6 + i, 2)) (k := 69)
      (by decide +kernel) (by unfold InGrid; decide +kernel)
  obtain ⟨c₂, h₂⟩ : ∃ c, Walk (legalMoves pocketObs) (75, 2) (75, 7) c :=
    walk_line (d := (0, 1)) (by decide) (fun i => (75, 2 + i)) (k := 5)
      (by decide) (by unfold InGrid; decide +kernel)
  obtain ⟨c₃, h₃⟩ : ∃ c, Walk (legalMoves pocketObs) (75, 7) (44, 7) c :=
    walk_line (d := (-1, 0)) (by decide) (fun i => (75 - i, 7)) (k := 31)
      (by decide +kernel) (by unfold InGrid; decide +kernel)
  exact ⟨_, h₀.trans (h₁.trans (h₂.trans h₃))⟩

/-- With `rand()` returning 0 the tour leads to the first picture first. -/
theorem Planner.Placed.noTransLoad_first {pos : ℕ → ℤ × ℤ} {s t : Planner} (h : s.Placed pos)
    (hpos : 1 ≤ s.picNum) (ht : noTransLoad randZero s = some t) : t.path 0 1 = 0 := by
  obtain ⟨c, hc, ht⟩ := Option.bind_eq_some_iff.mp ht
  obtain ⟨⟨d, len⟩, hd, ht⟩ := Option.bind_eq_some_iff.mp ht
  obtain rfl := Option.some.inj ht
  obtain ⟨hframe, hok⟩ := (initTag_yields h.loadPoints_distinct.measured).of_eq_some hc
  have hn : c.n = s.picNum + 1 := hframe.n
  exact ant_first hok (by decide) (by decide) (by omega) (by omega) (by omega) (by decide)
    (fun u _ k _ _ => Or.inr ⟨fun h => absurd h.1 (by decide), fun h => absurd h.1 (by decide)⟩) hd

/-- **The way into the pocket has too many waypoints** for its path. -/
theorem pocketPictures_overrun :
    ¬ ∀ (rand : ℕ → ℕ) (heaps : ℕ → ℕ → Nodee) (beyond : ObstacleMap) (pos : ℕ → ℤ × ℤ)
      (fuel k : ℕ) (s t : Planner), s.Placed pos → k < s.picNum →
      (noTransLoad rand s).bind (noTransCalls heaps (astarInit beyond pos s.picNum) fuel k) =
        some t →
      t.AstarWithin (heaps k) (astarInit beyond pos s.picNum) (t.tourCell k) (t.tourCell (k + 1))
        (k + 1) := by
  intro h
  obtain ⟨t, hload, hpx, hpy, -, -, -, htour⟩ :=
    placed_pocketPictures.noTransLoad_yields (by decide) randZero
  have hstart : t.path 0 0 = 19 := htour.1
  have hfirst := placed_pocketPictures.noTransLoad_first (by decide) hload
  have h0 : t.tourCell 0 = (4, 4) := by
    rw [Planner.tourCell, hpx, hpy, hstart]
    decide
  have h1 : t.tourCell 1 = (44, 7) := by
    rw [Planner.tourCell, hpx, hpy, hfirst]
    decide
  have hrun : (noTransLoad randZero (.boot pocketPictures)).bind
      (noTransCalls (fun _ _ => ⟨0, 0, 0, 0, 0⟩) pocketObs 0 0) = some t := by
    rw [hload]
    rfl
  have hwithin : t.AstarWithin (fun _ => ⟨0, 0, 0, 0, 0⟩) pocketObs (t.tourCell 0)
      (t.tourCell 1) 1 :=
    h randZero (fun _ _ => ⟨0, 0, 0, 0, 0⟩) (fun _ _ => false) pocketPos 0 0 _ t
      placed_pocketPictures (by decide) hrun
  have hnear := placed_pocketPictures.endsNear (k := 0) (by decide) hrun
  have hgrid : InGrid (4, 4) := by unfold InGrid; decide
  rw [h0, h1] at hwithin
  rw [h1] at hnear
  obtain ⟨N, ⟨a, rou, htakes, hcheap⟩ | ⟨hnone, -⟩⟩ :=
    astar_ends (fun _ => ⟨0, 0, 0, 0, 0⟩) pocketObs hgrid (44, 7)
  · have hlt := (astarTo_pathTot_found hcheap htakes hnear).mp
      ⟨hwithin.route, hwithin.path⟩
    -- the cell at the closed end lies 102 cells along the way
    obtain ⟨hhead, hlast, c, hroute, -⟩ := hcheap
    have hlong : pocketDepth (44, 7) ≤ pocketDepth (4, 4) + (wayTotal moveLength rou.reverse : ℕ) :=
      hroute.potential_le (fun v hv m hm => pocketDepth_le hv hm)
        (by rw [List.head?_reverse, hlast]) (by rw [List.getLast?_reverse, hhead])
        (by decide +kernel)
    have hdepth : pocketDepth (44, 7) = 106 ∧ pocketDepth (4, 4) = 4 := by decide
    rw [wayTotal_reverse moveLength_comm] at hlong
    simp only [pointRoom] at hlt
    omega
  · obtain ⟨c, hwalk⟩ := pocket_walk
    exact hnone c hwalk

end HandlingRobot
