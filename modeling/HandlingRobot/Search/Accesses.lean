import HandlingRobot.Search.NoTrans

/-! # The accesses of the path search

What the loop of `astar` reads and writes of its tables, in order. The tables have 80 rows of 60
cells, three more than the grid at its upper ends; the grid starts at 1, and the moves of `dir2` and
`dir3` reach three cells down, to `-2`. The test whether a neighbour lies in the grid comes after
the test whether it is an obstacle.

* **`Access`**, **`Access.InRange`** — an access, and the indices that the tables have.
* **`Astar.expandAccesses`**, **`astarAccesses`** — the accesses of a turn and of the loop.
* **`astarTurns`**, **`astarExpanded`** — the turns, and the cells they expand.
* **`expandAccesses_inRange_iff`** — a turn stays in range exactly when its cell keeps a margin of
  3.
* **`astar_accesses_iff`** — so does the loop; **`astar_accesses_of_fence`** — with obstacles along
  the lower ends it always does. -/

namespace HandlingRobot

/-! ## The log -/

/-- The tables of the search. -/
inductive SearchTable
  | obs
  | cst
  | fax
  | fay
  deriving DecidableEq

/-- An access with its indices. -/
structure Access where
  table : SearchTable
  x : ℤ
  y : ℤ
  deriving DecidableEq

/-- The indices are those of a cell of the table. -/
def Access.InRange (a : Access) : Prop := (0 ≤ a.x ∧ a.x < nn) ∧ 0 ≤ a.y ∧ a.y < mm

/-- The clearance test of a table of moves: all factors of the product are read. -/
def clearAccesses (dirs : List (ℤ × ℤ)) (v : Cell) : List Access :=
  dirs.map fun d => ⟨.obs, v.1 + d.1, v.2 + d.2⟩

/-- The accesses of `Astar.tryMove`. -/
def Astar.moveAccesses (obs : ObstacleMap) (ed : Cell) (cur : Nodee) (cost : ℤ × ℤ → ℕ)
    (d : ℤ × ℤ) (s : Astar) : List Access :=
  let x := toUint8 (cur.x + d.1)
  let y := toUint8 (cur.y + d.2)
  let tables : List SearchTable :=
    if obs x y = true then [.obs]
    else if x < 1 ∨ x > ww ∨ y < 1 ∨ y > hh then [.obs]
    else
      let F := cur.G + cost d + estimate ed x y
      -- the second operand of `||` is read only when the first one fails
      (if s.cst x y = 0 then [.obs, .cst] else [.obs, .cst, .cst]) ++
        if s.cst x y = 0 ∨ s.cst x y > F then [.cst, .fax, .fay] else []
  tables.map fun t => ⟨t, x, y⟩

/-- The accesses of `Astar.tryTable`. -/
def Astar.tableAccesses (obs : ObstacleMap) (ed : Cell) (cur : Nodee) (cost : ℤ × ℤ → ℕ) :
    List (ℤ × ℤ) → Astar → List Access
  | [], _ => []
  | d :: dirs, s =>
      s.moveAccesses obs ed cur cost d ++
        (s.tryMove obs ed cur cost d).tableAccesses obs ed cur cost dirs

/-- **The accesses of a turn.** The loop before the moves of `dir0` reads the first four cells of
`dir1`, for nothing; every clearance test is made. -/
def Astar.expandAccesses (obs : ObstacleMap) (ed : Cell) (cur : Nodee) (s : Astar) : List Access :=
  let v : Cell := (cur.x, cur.y)
  let s₀ := s.tryTable obs ed cur dir0 cost0
  let s₁ := if clear obs dir1 v then s₀.tryTable obs ed cur dir1 cost1 else s₀
  let s₂ := if clear obs dir2 v then s₁.tryTable obs ed cur dir2 cost2 else s₁
  clearAccesses (dir1.take 4) v ++ s.tableAccesses obs ed cur cost0 dir0 ++
    (clearAccesses dir1 v ++
      if clear obs dir1 v then s₀.tableAccesses obs ed cur cost1 dir1 else []) ++
    (clearAccesses dir2 v ++
      if clear obs dir2 v then s₁.tableAccesses obs ed cur cost2 dir2 else []) ++
    (clearAccesses dir3 v ++
      if clear obs dir3 v then s₂.tableAccesses obs ed cur cost3 dir3 else [])

/-- The accesses of the first `steps` steps of the walk back. -/
def walkAccesses (parent : Cell → Cell) (st : Cell) : ℕ → Cell → List Access
  | 0, _ => []
  | steps + 1, v =>
      if v = st then []
      else ⟨.fax, v.1, v.2⟩ :: ⟨.fay, v.1, v.2⟩ :: walkAccesses parent st steps (parent v)

/-- **The accesses of the loop** in its first `fuel` tests of `sz`, and in as many steps of the walk
back. -/
def astarAccesses (obs : ObstacleMap) (st ed : Cell) : ℕ → Astar → List Access
  | 0, _ => []
  | fuel + 1, s =>
      if s.openList.sz = 0 then []
      else
        let (cur, rest) := s.openList.pop
        let s := { s with openList := rest }
        if cur.x = ed.1 ∧ cur.y = ed.2 then
          walkAccesses (fun v => (s.fax v.1 v.2, s.fay v.1 v.2)) st fuel ed
        else s.expandAccesses obs ed cur ++ astarAccesses obs st ed fuel (s.expand obs ed cur)

/-- **The cells that are expanded** in the first `fuel` turns. -/
def astarExpanded (obs : ObstacleMap) (ed : Cell) : ℕ → Astar → List Cell
  | 0, _ => []
  | fuel + 1, s =>
      if s.openList.sz = 0 then []
      else
        let (cur, rest) := s.openList.pop
        let s := { s with openList := rest }
        if cur.x = ed.1 ∧ cur.y = ed.2 then []
        else (cur.x, cur.y) :: astarExpanded obs ed fuel (s.expand obs ed cur)

/-- The states in front of those of the first `fuel` turns that expand a node. -/
def astarTurns (obs : ObstacleMap) (ed : Cell) : ℕ → Astar → List Astar
  | 0, _ => []
  | fuel + 1, s =>
      if s.openList.sz = 0 then []
      else
        let (cur, rest) := s.openList.pop
        if cur.x = ed.1 ∧ cur.y = ed.2 then []
        else s :: astarTurns obs ed fuel ({ s with openList := rest }.expand obs ed cur)

/-- The cells that are expanded are those on top of the open list. -/
theorem astarExpanded_eq_map (obs : ObstacleMap) (ed : Cell) (fuel : ℕ) :
    ∀ s : Astar, astarExpanded obs ed fuel s =
      (astarTurns obs ed fuel s).map fun t => (t.openList.pop.1.x, t.openList.pop.1.y) := by
  induction fuel with
  | zero => exact fun s => rfl
  | succ fuel ih =>
      intro s
      unfold astarExpanded astarTurns
      by_cases hsz : s.openList.sz = 0
      · rw [if_pos hsz, if_pos hsz]
        rfl
      rw [if_neg hsz, if_neg hsz]
      dsimp only
      by_cases hgoal : s.openList.pop.1.x = ed.1 ∧ s.openList.pop.1.y = ed.2
      · rw [if_pos hgoal, if_pos hgoal]
        rfl
      · rw [if_neg hgoal, if_neg hgoal, List.map_cons, ih]

/-! ## One turn -/

/-- All accesses of a move are to the cell it leads to. -/
theorem mem_moveAccesses {obs : ObstacleMap} {ed : Cell} {cur : Nodee} {cost : ℤ × ℤ → ℕ}
    {d : ℤ × ℤ} {s : Astar} {a : Access} (h : a ∈ s.moveAccesses obs ed cur cost d) :
    a.x = toUint8 (cur.x + d.1) ∧ a.y = toUint8 (cur.y + d.2) := by
  obtain ⟨t, -, rfl⟩ := List.mem_map.mp h
  exact ⟨rfl, rfl⟩

/-- The accesses of a table of moves are to the cells its moves lead to. -/
theorem mem_tableAccesses {obs : ObstacleMap} {ed : Cell} {cur : Nodee} {cost : ℤ × ℤ → ℕ}
    {dirs : List (ℤ × ℤ)} {a : Access} :
    ∀ {s : Astar}, a ∈ s.tableAccesses obs ed cur cost dirs →
      ∃ d ∈ dirs, a.x = toUint8 (cur.x + d.1) ∧ a.y = toUint8 (cur.y + d.2) := by
  induction dirs with
  | nil => exact fun h => absurd h List.not_mem_nil
  | cons d dirs ih =>
      intro s h
      rcases List.mem_append.mp h with h | h
      · exact ⟨d, List.mem_cons_self, mem_moveAccesses h⟩
      · obtain ⟨d', hd', hindex⟩ := ih h
        exact ⟨d', List.mem_cons_of_mem d hd', hindex⟩

/-- **The cell keeps a margin** of three cells to the lower ends of the tables. -/
def HasMargin (v : Cell) : Prop := 3 ≤ v.1 ∧ 3 ≤ v.2

/-- From a cell with a margin every move stays in the tables. -/
theorem InGrid.reach {v : Cell} (hgrid : InGrid v) (hmargin : HasMargin v) {d : ℤ × ℤ}
    (hd : -3 ≤ d.1 ∧ d.1 ≤ 3 ∧ -3 ≤ d.2 ∧ d.2 ≤ 3) :
    (0 ≤ (v.1 : ℤ) + d.1 ∧ (v.1 : ℤ) + d.1 < nn) ∧ 0 ≤ (v.2 : ℤ) + d.2 ∧ (v.2 : ℤ) + d.2 < mm := by
  obtain ⟨-, hx, -, hy⟩ := hgrid
  obtain ⟨hx', hy'⟩ := hmargin
  simp only [ww, hh] at hx hy
  simp only [nn, mm]
  omega

/-- The clearance tests of a table of moves. -/
theorem clearAccesses_inRange {v : Cell} (hgrid : InGrid v) (hmargin : HasMargin v)
    {dirs : List (ℤ × ℤ)} {cost : ℤ × ℤ → ℕ} (hfits : TableFits dirs cost) {a : Access}
    (h : a ∈ clearAccesses dirs v) : a.InRange := by
  obtain ⟨d, hd, rfl⟩ := List.mem_map.mp h
  exact hgrid.reach hmargin (hfits d hd).1

/-- The moves of a table. -/
theorem tableAccesses_inRange {obs : ObstacleMap} {ed : Cell} {cur : Nodee} {s : Astar}
    (hgrid : InGrid (cur.x, cur.y)) (hmargin : HasMargin (cur.x, cur.y)) {dirs : List (ℤ × ℤ)}
    {cost : ℤ × ℤ → ℕ} (hfits : TableFits dirs cost) {a : Access}
    (h : a ∈ s.tableAccesses obs ed cur cost dirs) : a.InRange := by
  obtain ⟨d, hd, hx, hy⟩ := mem_tableAccesses h
  obtain ⟨⟨hx0, hx1⟩, hy0, hy1⟩ := hgrid.reach hmargin (hfits d hd).1
  dsimp only at hx0 hx1 hy0 hy1
  simp only [nn, mm] at hx1 hy1
  -- an index that is not negative is not changed by the conversion
  rw [toUint8_of_nonneg hx0 (by omega), Int.toNat_of_nonneg hx0] at hx
  rw [toUint8_of_nonneg hy0 (by omega), Int.toNat_of_nonneg hy0] at hy
  unfold Access.InRange
  rw [hx, hy]
  simp only [nn, mm]
  omega

/-- **A turn stays in range** exactly when the cell it expands keeps its margin. -/
theorem expandAccesses_inRange_iff {obs : ObstacleMap} {ed : Cell} {cur : Nodee} {s : Astar}
    (hgrid : InGrid (cur.x, cur.y)) :
    (∀ a ∈ s.expandAccesses obs ed cur, a.InRange) ↔ HasMargin (cur.x, cur.y) := by
  unfold Astar.expandAccesses
  constructor
  · -- the clearance test of `dir2` reaches three cells down and three cells to the left
    intro hall
    have hleft := hall ⟨.obs, (cur.x : ℤ) + -3, (cur.y : ℤ) + 2⟩ (by simp [clearAccesses, dir2])
    have hdown := hall ⟨.obs, (cur.x : ℤ) + 2, (cur.y : ℤ) + -3⟩ (by simp [clearAccesses, dir2])
    have hx := hleft.1.1
    have hy := hdown.2.1
    dsimp only at hx hy
    unfold HasMargin
    dsimp only
    omega
  · intro hmargin a ha
    -- every test and every move leads at most three cells away
    have hfits4 : TableFits (dir1.take 4) cost1 := fun d hd =>
      tableFits_dir1 d (List.mem_of_mem_take hd)
    simp only [List.mem_append, List.mem_ite_nil_right] at ha
    rcases ha with (((ha | ha) | ha | ⟨-, ha⟩) | ha | ⟨-, ha⟩) | ha | ⟨-, ha⟩
    · exact clearAccesses_inRange hgrid hmargin hfits4 ha
    · exact tableAccesses_inRange hgrid hmargin tableFits_dir0 ha
    · exact clearAccesses_inRange hgrid hmargin tableFits_dir1 ha
    · exact tableAccesses_inRange hgrid hmargin tableFits_dir1 ha
    · exact clearAccesses_inRange hgrid hmargin tableFits_dir2 ha
    · exact tableAccesses_inRange hgrid hmargin tableFits_dir2 ha
    · exact clearAccesses_inRange hgrid hmargin tableFits_dir3 ha
    · exact tableAccesses_inRange hgrid hmargin tableFits_dir3 ha

/-! ## The loop -/

/-- A cell of the grid is a cell of the tables. -/
theorem InGrid.inRange {v : Cell} (h : InGrid v) (t : SearchTable) :
    (Access.mk t v.1 v.2).InRange := by
  obtain ⟨hx1, hx2, hy1, hy2⟩ := h
  simp only [ww, hh] at hx2 hy2
  simp only [Access.InRange, nn, mm]
  omega

/-- **The walk back stays in the grid**: it goes from a known cell to the cell it was reached
from. -/
theorem walkAccesses_inRange {obs : ObstacleMap} {st ed : Cell} {s : Astar}
    (hbetween : (s.search ed).Between (legalMoves obs) st ed) (steps : ℕ) :
    ∀ {v : Cell} {d : ℕ}, (s.search ed).cost st v = some d →
      ∀ a ∈ walkAccesses (s.search ed).parent st steps v, a.InRange := by
  induction steps with
  | zero => exact fun _ a ha => absurd ha List.not_mem_nil
  | succ steps ih =>
      intro v d hd a ha
      unfold walkAccesses at ha
      by_cases hv : v = st
      · rw [if_pos hv] at ha
        exact absurd ha List.not_mem_nil
      · rw [if_neg hv] at ha
        rw [Search.cost_of_ne hv] at hd
        obtain ⟨c, dp, hmove, hdp, -⟩ := (hbetween (v, d)).parent v d hv hd
        have hgrid : InGrid v := (isMove_of_mem_legalMoves hmove).inGrid
        rcases List.mem_cons.mp ha with rfl | ha
        · exact hgrid.inRange .fax
        rcases List.mem_cons.mp ha with rfl | ha
        · exact hgrid.inRange .fay
        · exact ih hdp a ha

/-- **The loop stays in range** exactly when every cell it expands keeps its margin, from every
state between two turns. -/
theorem loopAccesses_inRange_iff {obs : ObstacleMap} {st ed : Cell} (fuel : ℕ) :
    ∀ {s : Astar}, s.Ok ed → (s.search ed).Between (legalMoves obs) st ed →
      ((∀ a ∈ astarAccesses obs st ed fuel s, a.InRange) ↔
        ∀ v ∈ astarExpanded obs ed fuel s, HasMargin v) := by
  -- turn after turn; a turn stays in range when its cell keeps its margin
  induction fuel with
  | zero => exact fun _ _ => ⟨fun _ v hv => absurd hv List.not_mem_nil,
      fun _ a ha => absurd ha List.not_mem_nil⟩
  | succ fuel ih =>
      intro s hok hbetween
      unfold astarAccesses astarExpanded
      by_cases hsz : s.openList.sz = 0
      · rw [if_pos hsz, if_pos hsz]
        simp
      rw [if_neg hsz, if_neg hsz]
      dsimp only
      obtain ⟨-, hgrid, hmem, -, -⟩ := hok.pop (Nat.pos_of_ne_zero hsz)
      by_cases hgoal : s.openList.pop.1.x = ed.1 ∧ s.openList.pop.1.y = ed.2
      · -- the goal is taken: only the walk back is left
        rw [if_pos hgoal, if_pos hgoal]
        have hcur : (s.openList.pop.1.x, s.openList.pop.1.y) = ed := Prod.ext hgoal.1 hgoal.2
        rw [hcur] at hmem
        obtain ⟨d, hd, -⟩ := (hbetween (ed, 0)).le _ hmem
        exact ⟨fun _ v hv => absurd hv List.not_mem_nil,
          fun _ => walkAccesses_inRange hbetween fuel hd⟩
      · rw [if_neg hgoal, if_neg hgoal]
        obtain ⟨hok', hbetween', -, -⟩ := hok.turn hbetween (Nat.pos_of_ne_zero hsz) hgoal
        rw [List.forall_mem_append, List.forall_mem_cons, ih hok' hbetween',
          expandAccesses_inRange_iff hgrid]

/-- **When the search stays within its tables**: every access has its indices in `0..79` and `0..59`
exactly when every cell that is expanded has coordinates of at least 3. -/
theorem astar_accesses_iff (heap : ℕ → Nodee) (obs : ObstacleMap) (st ed : Cell) (hst : InGrid st) :
    (∀ fuel, ∀ a ∈ astarAccesses obs st ed fuel (Astar.init heap st ed), a.InRange) ↔
      ∀ fuel, ∀ v ∈ astarExpanded obs ed fuel (Astar.init heap st ed), HasMargin v := by
  have hok := (Astar.ok_init heap hst ed).1
  have hbetween := Astar.between_init heap obs hst ed
  apply forall_congr'
  intro fuel
  exact loopAccesses_inRange_iff fuel hok hbetween

/-- Every cell that is expanded is reached from the start. -/
theorem walk_of_mem_astarExpanded {obs : ObstacleMap} {st ed : Cell} (fuel : ℕ) :
    ∀ {s : Astar}, s.Ok ed → (s.search ed).Between (legalMoves obs) st ed →
      ∀ v ∈ astarExpanded obs ed fuel s, ∃ g, Walk (legalMoves obs) st v g := by
  induction fuel with
  | zero => exact fun _ _ v hv => absurd hv List.not_mem_nil
  | succ fuel ih =>
      intro s hok hbetween v hv
      unfold astarExpanded at hv
      by_cases hsz : s.openList.sz = 0
      · rw [if_pos hsz] at hv
        exact absurd hv List.not_mem_nil
      rw [if_neg hsz] at hv
      dsimp only at hv
      by_cases hgoal : s.openList.pop.1.x = ed.1 ∧ s.openList.pop.1.y = ed.2
      · rw [if_pos hgoal] at hv
        exact absurd hv List.not_mem_nil
      rw [if_neg hgoal] at hv
      obtain ⟨hok', hbetween', -, hmem⟩ := hok.turn hbetween (Nat.pos_of_ne_zero hsz) hgoal
      rcases List.mem_cons.mp hv with rfl | hv
      · exact ⟨_, (hbetween (ed, 0)).walk _ hmem⟩
      · exact ih hok' hbetween' v hv

/-- **A fence keeps the search in range**: if the start keeps its margin and every cell that does
not is an obstacle, then all accesses are in range. -/
theorem astar_accesses_of_fence (heap : ℕ → Nodee) {obs : ObstacleMap} {st : Cell} (ed : Cell)
    (hgrid : InGrid st) (hst : HasMargin st)
    (hfence : ∀ v : Cell, ¬ HasMargin v → obs v.1 v.2 = true) (fuel : ℕ) :
    ∀ a ∈ astarAccesses obs st ed fuel (Astar.init heap st ed), a.InRange := by
  have hok := (Astar.ok_init heap hgrid ed).1
  have hbetween := Astar.between_init heap obs hgrid ed
  refine (loopAccesses_inRange_iff fuel hok hbetween).mpr fun v hv => ?_
  obtain ⟨g, hwalk⟩ := walk_of_mem_astarExpanded fuel hok hbetween v hv
  -- no move leads over the fence
  clear hv hbetween hok hgrid
  induction hwalk with
  | refl v => exact hst
  | @step v w u c d hmove _ ih =>
      apply ih
      by_contra hw
      have hfree := free_of_mem_legalMoves hmove
      rw [hfence w hw] at hfree
      exact absurd hfree (by simp)

/-- When the loop ends there is no further turn. -/
theorem astarTurns_subset {obs : ObstacleMap} {ed : Cell} {n : ℕ} :
    ∀ {s : Astar}, (astarLoop obs ed n s).isSome → ∀ fuel,
      astarTurns obs ed fuel s ⊆ astarTurns obs ed n s := by
  -- turn after turn; the loop has ended when the list has
  induction n with
  | zero => exact fun h => absurd h (by simp [astarLoop])
  | succ n ih =>
      intro s h fuel
      cases fuel with
      | zero => exact List.nil_subset _
      | succ fuel =>
          unfold astarLoop at h
          unfold astarTurns
          by_cases hsz : s.openList.sz = 0
          · rw [if_pos hsz, if_pos hsz]
            exact List.Subset.refl _
          rw [if_neg hsz] at h
          rw [if_neg hsz, if_neg hsz]
          dsimp only at h ⊢
          by_cases hgoal : s.openList.pop.1.x = ed.1 ∧ s.openList.pop.1.y = ed.2
          · rw [if_pos hgoal, if_pos hgoal]
            exact List.Subset.refl _
          · rw [if_neg hgoal] at h
            rw [if_neg hgoal, if_neg hgoal]
            exact List.cons_subset_cons _ (ih h fuel)

theorem astarExpanded_subset {obs : ObstacleMap} {ed : Cell} {n : ℕ} {s : Astar}
    (h : (astarLoop obs ed n s).isSome) (fuel : ℕ) :
    astarExpanded obs ed fuel s ⊆ astarExpanded obs ed n s := by
  rw [astarExpanded_eq_map, astarExpanded_eq_map]
  exact List.map_subset _ (astarTurns_subset h fuel)

/-- A search for a neighbouring cell, away from the border, stays within its tables. -/
theorem neighbour_inRange :
    InGrid (30, 30) ∧ ∀ fuel, ∀ a ∈ astarAccesses (fun _ _ => false) (30, 30) (31, 30) fuel
      (Astar.init (fun _ => ⟨0, 0, 0, 0, 0⟩) (30, 30) (31, 30)), a.InRange := by
  have hgrid : InGrid (30, 30) := by unfold InGrid; decide
  have hends : (astarLoop (fun _ _ => false) (31, 30) 2
      (Astar.init (fun _ => ⟨0, 0, 0, 0, 0⟩) (30, 30) (31, 30))).isSome := by decide +kernel
  have honly : astarExpanded (fun _ _ => false) (31, 30) 2
      (Astar.init (fun _ => ⟨0, 0, 0, 0, 0⟩) (30, 30) (31, 30)) = [(30, 30)] := by decide +kernel
  refine ⟨hgrid, (astar_accesses_iff _ _ _ _ hgrid).mpr fun fuel v hv => ?_⟩
  have hmem := astarExpanded_subset hends fuel hv
  rw [honly] at hmem
  obtain rfl := List.mem_singleton.mp hmem
  unfold HasMargin
  decide

/-- The obstacles of two pictures near the start of the car. -/
def lowObs : ObstacleMap :=
  astarInit (fun _ _ => false) (fun i => if i = 0 then (1, 1) else (2, 3)) 2

/-- **From the cell of a picture in the lowest row** the first clearance test reads `obs[6][-2]`. -/
theorem lowPicture_outside :
    ¬ ∀ (heap : ℕ → Nodee) (obs : ObstacleMap) (st ed : Cell), InGrid st → InGrid ed →
      ∀ fuel, ∀ a ∈ astarAccesses obs st ed fuel (Astar.init heap st ed), a.InRange := by
  intro h
  have hread := h (fun _ => ⟨0, 0, 0, 0, 0⟩) lowObs (4, 1) (6, 5) (by unfold InGrid; decide)
    (by unfold InGrid; decide) 1 ⟨.obs, 6, -2⟩ (by decide +kernel)
  exact absurd hread.2.1 (by decide)

end HandlingRobot
