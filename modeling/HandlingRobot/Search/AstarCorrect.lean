import HandlingRobot.Search.Astar
import Mathlib.Data.Finset.Prod
import Mathlib.Order.Interval.Finset.Nat

/-! # The path search finds a cheapest route

The variables of the search are read as the state of a best-first search: an entry of the open list
is a cell with the cost `G` of a walk to it, and `cst` less the estimate is the best cost known.

* **`Astar.search`** — this reading, and **`Astar.Ok`**, what makes it faithful.
* **`Astar.Ok.tryMove`**, **`Astar.Ok.expand`** — a turn of the loop is a turn of the search.
* **`estimate_le`** — the estimate never exceeds the cost of the rest of the way.
* **`astarLoop_ends`** — the loop ends, with a cheapest route or with the proof that there is none.
* **`astar_optimal`** — what a call of `astar` returns.
* **`astar_terminates`** — the walk back visits no cell twice. -/

namespace HandlingRobot

/-! ## The moves of the tables -/

/-- **What the tables have in common**: a move goes at most three cells in both directions, and its
cost is positive and at least its length. -/
def TableFits (dirs : List (ℤ × ℤ)) (cost : ℤ × ℤ → ℕ) : Prop :=
  ∀ d ∈ dirs, (-3 ≤ d.1 ∧ d.1 ≤ 3 ∧ -3 ≤ d.2 ∧ d.2 ≤ 3) ∧ 0 < cost d ∧
    d.1 ^ 2 + d.2 ^ 2 ≤ (cost d : ℤ) ^ 2

theorem tableFits_dir0 : TableFits dir0 cost0 := by unfold TableFits; decide
theorem tableFits_dir1 : TableFits dir1 cost1 := by unfold TableFits; decide
theorem tableFits_dir2 : TableFits dir2 cost2 := by unfold TableFits; decide
theorem tableFits_dir3 : TableFits dir3 cost3 := by unfold TableFits; decide

/-- The move `d` leads to a free cell of the grid. -/
theorem legalMove_eq_some {obs : ObstacleMap} {cost : ℤ × ℤ → ℕ} {v : Cell} {d : ℤ × ℤ}
    {m : Cell × ℕ} :
    legalMove obs cost v d = some m ↔ InGrid m.1 ∧ obs m.1.1 m.1.2 = false ∧
      (m.1.1 : ℤ) = v.1 + d.1 ∧ (m.1.2 : ℤ) = v.2 + d.2 ∧ m.2 = cost d := by
  unfold legalMove InGrid
  constructor
  · intro h
    by_cases hin : (1 ≤ (v.1 : ℤ) + d.1 ∧ (v.1 : ℤ) + d.1 ≤ ww ∧ 1 ≤ (v.2 : ℤ) + d.2 ∧
        (v.2 : ℤ) + d.2 ≤ hh) ∧ obs (v.1 + d.1) (v.2 + d.2) = false
    · rw [if_pos hin] at h
      obtain rfl := Option.some.inj h
      obtain ⟨⟨h1, h2, h3, h4⟩, hfree⟩ := hin
      have hx : (((v.1 : ℤ) + d.1).toNat : ℤ) = v.1 + d.1 := Int.toNat_of_nonneg (by omega)
      have hy : (((v.2 : ℤ) + d.2).toNat : ℤ) = v.2 + d.2 := Int.toNat_of_nonneg (by omega)
      dsimp only
      rw [hx, hy]
      exact ⟨by omega, hfree, rfl, rfl, rfl⟩
    · rw [if_neg hin] at h
      exact absurd h (by simp)
  · obtain ⟨⟨x, y⟩, c⟩ := m
    rintro ⟨hgrid, hfree, hx, hy, hc⟩
    dsimp only at hgrid hfree hx hy hc
    rw [← hx, ← hy, hc, if_pos ⟨by omega, hfree⟩, Int.toNat_natCast, Int.toNat_natCast]

/-- A legal move leads to a cell of the grid, and its cost is positive and at least its length. -/
structure IsMove (v : Cell) (m : Cell × ℕ) : Prop where
  inGrid : InGrid m.1
  pos : 0 < m.2
  length : ((v.1 : ℤ) - m.1.1) ^ 2 + ((v.2 : ℤ) - m.1.2) ^ 2 ≤ (m.2 : ℤ) ^ 2

theorem isMove_of_mem_tableMoves {obs : ObstacleMap} {dirs : List (ℤ × ℤ)} {cost : ℤ × ℤ → ℕ}
    (hfits : TableFits dirs cost) {v : Cell} {m : Cell × ℕ} (hm : m ∈ tableMoves obs dirs cost v) :
    IsMove v m := by
  obtain ⟨d, hd, hlegal⟩ := List.mem_filterMap.mp hm
  obtain ⟨-, hpos, hlength⟩ := hfits d hd
  obtain ⟨hgrid, -, hx, hy, hc⟩ := legalMove_eq_some.mp hlegal
  refine ⟨hgrid, hc ▸ hpos, ?_⟩
  rw [hx, hy, hc, sub_add_cancel_left, sub_add_cancel_left, neg_sq, neg_sq]
  exact hlength

/-- **Every legal move** is one. -/
theorem isMove_of_mem_legalMoves {obs : ObstacleMap} {v : Cell} {m : Cell × ℕ}
    (hm : m ∈ legalMoves obs v) : IsMove v m := by
  unfold legalMoves at hm
  rcases List.mem_append.mp hm with hm | hm
  · exact isMove_of_mem_tableMoves tableFits_dir0 hm
  rcases List.mem_append.mp hm with hm | hm
  · exact isMove_of_mem_tableMoves tableFits_dir1 (List.mem_ite_nil_right.mp hm).2
  rcases List.mem_append.mp hm with hm | hm
  · exact isMove_of_mem_tableMoves tableFits_dir2 (List.mem_ite_nil_right.mp hm).2
  · exact isMove_of_mem_tableMoves tableFits_dir3 (List.mem_ite_nil_right.mp hm).2

/-- Every legal move leads to a free cell. -/
theorem free_of_mem_legalMoves {obs : ObstacleMap} {v : Cell} {m : Cell × ℕ}
    (hm : m ∈ legalMoves obs v) : obs m.1.1 m.1.2 = false := by
  have htable : ∀ {dirs : List (ℤ × ℤ)} {cost : ℤ × ℤ → ℕ}, m ∈ tableMoves obs dirs cost v →
      obs m.1.1 m.1.2 = false := by
    intro dirs cost hm
    obtain ⟨d, -, hlegal⟩ := List.mem_filterMap.mp hm
    exact (legalMove_eq_some.mp hlegal).2.1
  unfold legalMoves at hm
  rcases List.mem_append.mp hm with hm | hm
  · exact htable hm
  rcases List.mem_append.mp hm with hm | hm
  · exact htable (List.mem_ite_nil_right.mp hm).2
  rcases List.mem_append.mp hm with hm | hm
  · exact htable (List.mem_ite_nil_right.mp hm).2
  · exact htable (List.mem_ite_nil_right.mp hm).2

/-! ## The estimate -/

@[simp] theorem estimate_self (ed : Cell) : estimate ed ed.1 ed.2 = 0 := by
  simp [estimate, calcDis]

/-- A move shortens the estimate by no more than it costs. -/
theorem IsMove.estimate_le {v : Cell} {m : Cell × ℕ} (h : IsMove v m) (ed : Cell) :
    estimate ed v.1 v.2 ≤ m.2 + estimate ed m.1.1 m.1.2 := by
  have hle := calcDis_le_add (ed.1 : ℤ) (ed.2 : ℤ) (Int.natCast_nonneg m.2) h.length
  have hv := calcDis_nonneg v.1 v.2 ed.1 ed.2
  have hm := calcDis_nonneg m.1.1 m.1.2 ed.1 ed.2
  unfold estimate
  omega

/-- **The estimate is never above the cost of the rest.** -/
theorem estimate_le {obs : ObstacleMap} {ed v : Cell} {c : ℕ}
    (h : Walk (legalMoves obs) v ed c) : estimate ed v.1 v.2 ≤ c := by
  induction h with
  | refl v => rw [estimate_self]
  | step hmove _ ih =>
      exact ((isMove_of_mem_legalMoves hmove).estimate_le _).trans (Nat.add_le_add_left ih _)

/-! ## The state as a search -/

/-- The best cost known for a cell. -/
def Astar.best (ed : Cell) (s : Astar) (v : Cell) : Option ℕ :=
  if s.cst v.1 v.2 = 0 then none else some (s.cst v.1 v.2 - estimate ed v.1 v.2)

/-- **The variables as a best-first search.** -/
def Astar.search (ed : Cell) (s : Astar) : Search Cell where
  frontier := s.openList.nodes.map fun nd => ((nd.x, nd.y), nd.G)
  best := s.best ed
  parent v := (s.fax v.1 v.2, s.fay v.1 v.2)

theorem Astar.search_frontier (ed : Cell) (s : Astar) :
    (s.search ed).frontier = s.openList.nodes.map fun nd => ((nd.x, nd.y), nd.G) := rfl

/-- The open list is ordered, and its nodes are cells of the grid with their keys. -/
structure Astar.Ok (ed : Cell) (s : Astar) : Prop where
  ordered : s.openList.Ordered
  node : ∀ nd ∈ s.openList.nodes, InGrid (nd.x, nd.y) ∧ nd.F = nd.G + estimate ed nd.x nd.y

theorem toUint8_of_nonneg {z : ℤ} (h0 : 0 ≤ z) (h : z < 256) : toUint8 z = z.toNat := by
  unfold toUint8
  rw [Int.emod_eq_of_lt h0 h]

/-- A coordinate below zero wraps around to one outside the grid. -/
theorem toUint8_of_neg {z : ℤ} (h3 : -3 ≤ z) (h0 : z < 0) : 252 < toUint8 z := by
  unfold toUint8
  omega

/-- The search is asked the same question as the table `cst`. -/
theorem Astar.forall_best_iff {ed : Cell} {s : Astar} {w : Cell} {G : ℕ} :
    (∀ b ∈ (s.search ed).best w, G < b) ↔
      s.cst w.1 w.2 = 0 ∨ s.cst w.1 w.2 > G + estimate ed w.1 w.2 := by
  show (∀ b ∈ s.best ed w, G < b) ↔ _
  unfold Astar.best
  by_cases h0 : s.cst w.1 w.2 = 0
  · simp [h0]
  · rw [if_neg h0]
    constructor
    · intro h
      have hlt := h _ rfl
      omega
    · intro h b hb
      obtain rfl := Option.some.inj hb
      omega

/-- **A push to a better cell** is one relaxation of the search. -/
theorem Astar.Ok.push {ed : Cell} {s : Astar} (h : s.Ok ed) (u : Cell) {w : Cell} {G : ℕ}
    (hw : InGrid w) (hG : 0 < G)
    (hbetter : s.cst w.1 w.2 = 0 ∨ s.cst w.1 w.2 > G + estimate ed w.1 w.2) :
    let s' : Astar :=
      { openList := s.openList.push
          ⟨w.1, w.2, G + estimate ed w.1 w.2, G, estimate ed w.1 w.2⟩
        cst := setCell s.cst w.1 w.2 (G + estimate ed w.1 w.2)
        fax := setCell s.fax w.1 w.2 u.1
        fay := setCell s.fay w.1 w.2 u.2 }
    s'.Ok ed ∧ s'.search ed = (s.search ed).relax u w G := by
  intro s'
  obtain ⟨hordered, hnodes⟩ := OpenList.push_spec h.ordered
    ⟨w.1, w.2, G + estimate ed w.1 w.2, G, estimate ed w.1 w.2⟩
  refine ⟨⟨hordered, fun nd hnd => ?_⟩, ?_⟩
  · rw [hnodes] at hnd
    rcases Multiset.mem_cons.mp hnd with rfl | hnd
    · exact ⟨hw, rfl⟩
    · exact h.node nd hnd
  · rw [Search.relax, if_pos (Astar.forall_best_iff.mpr hbetter)]
    have hcell : ∀ v : Cell, v ≠ w → ¬ (v.1 = w.1 ∧ v.2 = w.2) := fun v hv hvw =>
      hv (Prod.ext hvw.1 hvw.2)
    -- `push` is the branch of `relax` that takes the entry up, field by field
    have hfrontier : (s'.search ed).frontier = (w, G) ::ₘ (s.search ed).frontier := by
      show Multiset.map _ s'.openList.nodes = _
      rw [hnodes, Multiset.map_cons]
      rfl
    have hbest : (s'.search ed).best = Function.update (s.search ed).best w (some G) := by
      funext v
      show s'.best ed v = _
      by_cases hv : v = w
      · subst hv
        rw [Function.update_self, Astar.best, if_neg]
        · simp [s']
        · simp only [s', setCell_self]
          omega
      · rw [Function.update_of_ne hv]
        show s'.best ed v = s.best ed v
        simp only [Astar.best, s', setCell_of_ne _ _ (hcell v hv)]
    have hparent : (s'.search ed).parent = Function.update (s.search ed).parent w u := by
      funext v
      show (s'.fax v.1 v.2, s'.fay v.1 v.2) = _
      by_cases hv : v = w
      · subst hv
        rw [Function.update_self]
        simp only [s', setCell_self]
      · rw [Function.update_of_ne hv]
        simp only [s', setCell_of_ne _ _ (hcell v hv)]
        rfl
    calc s'.search ed
        = ⟨(s'.search ed).frontier, (s'.search ed).best, (s'.search ed).parent⟩ := rfl
      _ = _ := by rw [hfrontier, hbest, hparent]

/-- A coordinate of a cell of the grid is not changed by the conversion. -/
theorem toUint8_of_eq {z : ℤ} {n : ℕ} (h : (n : ℤ) = z) (hn : n < 256) : toUint8 z = n := by
  rw [← h, toUint8_of_nonneg (by omega) (by omega), Int.toNat_natCast]

/-- A move that is not legal is skipped: coordinates below zero become large ones. -/
theorem Astar.tryMove_of_none {obs : ObstacleMap} {ed : Cell} {s : Astar} {cur : Nodee}
    (hcur : InGrid (cur.x, cur.y)) {cost : ℤ × ℤ → ℕ} {d : ℤ × ℤ}
    (hd : -3 ≤ d.1 ∧ d.1 ≤ 3 ∧ -3 ≤ d.2 ∧ d.2 ≤ 3)
    (hnone : legalMove obs cost (cur.x, cur.y) d = none) : s.tryMove obs ed cur cost d = s := by
  obtain ⟨hx1, hxw, hy1, hyh⟩ := hcur
  simp only [ww, hh] at hx1 hxw hy1 hyh
  unfold Astar.tryMove
  by_cases hobs : obs (toUint8 (cur.x + d.1)) (toUint8 (cur.y + d.2)) = true
  · exact if_pos hobs
  by_cases hout : toUint8 (cur.x + d.1) < 1 ∨ toUint8 (cur.x + d.1) > ww ∨
      toUint8 (cur.y + d.2) < 1 ∨ toUint8 (cur.y + d.2) > hh
  · exact (if_neg hobs).trans (if_pos hout)
  · exfalso
    -- a cell that passes both tests would be the target of a legal move
    have hin : InGrid (toUint8 (cur.x + d.1), toUint8 (cur.y + d.2)) := by
      unfold InGrid
      dsimp only
      omega
    -- below 0 the cut to a byte leads to 253 at least, which is outside
    have hxnn : 0 ≤ (cur.x : ℤ) + d.1 := by
      by_contra hneg
      have hbig := toUint8_of_neg (z := (cur.x : ℤ) + d.1) (by omega) (by omega)
      have hle := hin.2.1
      simp only [ww] at hle
      omega
    have hynn : 0 ≤ (cur.y : ℤ) + d.2 := by
      by_contra hneg
      have hbig := toUint8_of_neg (z := (cur.y : ℤ) + d.2) (by omega) (by omega)
      have hle := hin.2.2.2
      simp only [hh] at hle
      omega
    have hx : (toUint8 (cur.x + d.1) : ℤ) = cur.x + d.1 := by
      rw [toUint8_of_nonneg hxnn (by omega), Int.toNat_of_nonneg hxnn]
    have hy : (toUint8 (cur.y + d.2) : ℤ) = cur.y + d.2 := by
      rw [toUint8_of_nonneg hynn (by omega), Int.toNat_of_nonneg hynn]
    have hsome : legalMove obs cost (cur.x, cur.y) d =
        some ((toUint8 (cur.x + d.1), toUint8 (cur.y + d.2)), cost d) :=
      legalMove_eq_some.mpr ⟨hin, Bool.eq_false_of_not_eq_true hobs, hx, hy, rfl⟩
    rw [hnone] at hsome
    exact absurd hsome (by simp)

/-- **One move of the code** is the legal move of the search, if there is one. -/
theorem Astar.Ok.tryMove (obs : ObstacleMap) {ed : Cell} {s : Astar} (h : s.Ok ed) {cur : Nodee}
    (hcur : InGrid (cur.x, cur.y)) {cost : ℤ × ℤ → ℕ} {d : ℤ × ℤ}
    (hd : -3 ≤ d.1 ∧ d.1 ≤ 3 ∧ -3 ≤ d.2 ∧ d.2 ≤ 3) (hcost : 0 < cost d) :
    (s.tryMove obs ed cur cost d).Ok ed ∧
      (s.tryMove obs ed cur cost d).search ed =
        (s.search ed).expand (cur.x, cur.y) cur.G
          (legalMove obs cost (cur.x, cur.y) d).toList := by
  rcases hlegal : legalMove obs cost (cur.x, cur.y) d with _ | ⟨⟨x, y⟩, c⟩
  · rw [Astar.tryMove_of_none hcur hd hlegal]
    exact ⟨h, rfl⟩
  · obtain ⟨hgrid, hfree, hx, hy, hc⟩ := legalMove_eq_some.mp hlegal
    dsimp only at hgrid hfree hx hy hc
    -- a target inside the grid is not changed by the cut to a byte
    obtain ⟨h1, h2, h3, h4⟩ := hgrid
    simp only [ww, hh] at h1 h2 h3 h4
    show _ ∧ _ = (s.search ed).relax (cur.x, cur.y) (x, y) (cur.G + c)
    unfold Astar.tryMove
    rw [toUint8_of_eq hx (by omega), toUint8_of_eq hy (by omega), ← hc]
    dsimp only
    have hin : ¬ (x < 1 ∨ x > ww ∨ y < 1 ∨ y > hh) := by
      simp only [ww, hh]
      omega
    rw [hfree, if_neg Bool.false_ne_true, if_neg hin]
    -- `cst` decides as `relax` does
    by_cases hbetter : s.cst x y = 0 ∨ s.cst x y > cur.G + c + estimate ed x y
    · rw [if_pos hbetter]
      exact h.push (cur.x, cur.y) (w := (x, y)) ⟨h1, h2, h3, h4⟩ (by omega) hbetter
    · rw [if_neg hbetter, Search.relax,
        if_neg (fun hb => hbetter (Astar.forall_best_iff (w := (x, y)).mp hb))]
      exact ⟨h, rfl⟩

/-- A table of moves. -/
theorem Astar.Ok.tryTable (obs : ObstacleMap) {ed : Cell} {cur : Nodee}
    (hcur : InGrid (cur.x, cur.y)) {cost : ℤ × ℤ → ℕ} (dirs : List (ℤ × ℤ)) :
    ∀ {s : Astar}, s.Ok ed → TableFits dirs cost →
      (s.tryTable obs ed cur dirs cost).Ok ed ∧
        (s.tryTable obs ed cur dirs cost).search ed =
          (s.search ed).expand (cur.x, cur.y) cur.G (tableMoves obs dirs cost (cur.x, cur.y)) := by
  -- move after move of the table
  induction dirs with
  | nil => exact fun h _ => ⟨h, rfl⟩
  | cons d dirs ih =>
      intro s h hfits
      obtain ⟨hd, hpos, -⟩ := hfits d List.mem_cons_self
      obtain ⟨hok, hsearch⟩ := h.tryMove obs hcur hd hpos
      obtain ⟨hok', hsearch'⟩ := ih hok fun d' hd' => hfits d' (List.mem_cons_of_mem d hd')
      refine ⟨hok', ?_⟩
      have hmoves : tableMoves obs (d :: dirs) cost (cur.x, cur.y) =
          (legalMove obs cost (cur.x, cur.y) d).toList ++
            tableMoves obs dirs cost (cur.x, cur.y) := by
        unfold tableMoves
        rw [List.filterMap_cons]
        rcases legalMove obs cost (cur.x, cur.y) d with _ | m <;> rfl
      rw [hmoves, Search.expand_append, ← hsearch, ← hsearch']
      rfl

/-- A table of moves that is used only from some cells. -/
theorem Astar.Ok.tryTable_ite (obs : ObstacleMap) {ed : Cell} {cur : Nodee}
    (hcur : InGrid (cur.x, cur.y)) {cost : ℤ × ℤ → ℕ} {dirs : List (ℤ × ℤ)}
    (hfits : TableFits dirs cost) (b : Bool) {s : Astar} (h : s.Ok ed) :
    (if b then s.tryTable obs ed cur dirs cost else s).Ok ed ∧
      (if b then s.tryTable obs ed cur dirs cost else s).search ed =
        (s.search ed).expand (cur.x, cur.y) cur.G
          (if b then tableMoves obs dirs cost (cur.x, cur.y) else []) := by
  cases b with
  | false => exact ⟨h, rfl⟩
  | true => exact Astar.Ok.tryTable obs hcur dirs h hfits

/-- **The expansion of a node** is that of its entry by all legal moves. -/
theorem Astar.Ok.expand (obs : ObstacleMap) {ed : Cell} {cur : Nodee}
    (hcur : InGrid (cur.x, cur.y)) {s : Astar} (h : s.Ok ed) :
    (s.expand obs ed cur).Ok ed ∧
      (s.expand obs ed cur).search ed =
        (s.search ed).expand (cur.x, cur.y) cur.G (legalMoves obs (cur.x, cur.y)) := by
  obtain ⟨h0, hs0⟩ := Astar.Ok.tryTable obs hcur dir0 h tableFits_dir0
  obtain ⟨h1, hs1⟩ := h0.tryTable_ite obs hcur tableFits_dir1
    (clear obs dir1 (cur.x, cur.y))
  obtain ⟨h2, hs2⟩ := h1.tryTable_ite obs hcur tableFits_dir2
    (clear obs dir2 (cur.x, cur.y))
  obtain ⟨h3, hs3⟩ := h2.tryTable_ite obs hcur tableFits_dir3
    (clear obs dir3 (cur.x, cur.y))
  refine ⟨h3, ?_⟩
  unfold legalMoves
  rw [Search.expand_append, Search.expand_append, Search.expand_append, ← hs0, ← hs1, ← hs2, ← hs3]
  rfl

/-- **`pop` takes an entry with the least sum of cost and estimate.** -/
theorem Astar.Ok.pop {ed : Cell} {s : Astar} (h : s.Ok ed) (hsz : 0 < s.openList.sz) :
    let cur := s.openList.pop.1
    let s' : Astar := { s with openList := s.openList.pop.2 }
    s'.Ok ed ∧ InGrid (cur.x, cur.y) ∧ ((cur.x, cur.y), cur.G) ∈ (s.search ed).frontier ∧
      s'.search ed = (s.search ed).take ((cur.x, cur.y), cur.G) ∧
      ∀ e ∈ (s.search ed).frontier,
        cur.G + estimate ed cur.x cur.y ≤ e.2 + estimate ed e.1.1 e.1.2 := by
  intro cur s'
  obtain ⟨hordered, hnodes, hmin⟩ := OpenList.pop_spec h.ordered hsz
  -- the entry popped is one of the list, and the rest of the list stays
  have hcur : cur ∈ s.openList.nodes := by
    rw [hnodes]
    exact Multiset.mem_cons_self _ _
  have hfrontier : (s.search ed).frontier =
      ((cur.x, cur.y), cur.G) ::ₘ (s'.search ed).frontier := by
    rw [Astar.search_frontier, hnodes, Multiset.map_cons]
    rfl
  refine ⟨⟨hordered, fun nd hnd => h.node nd ?_⟩, (h.node cur hcur).1, ?_, ?_, fun e he => ?_⟩
  · rw [hnodes]
    exact Multiset.mem_cons_of_mem hnd
  · rw [hfrontier]
    exact Multiset.mem_cons_self _ _
  · rw [Search.take, hfrontier, Multiset.erase_cons_head]
    rfl
  · rw [Astar.search_frontier] at he
    obtain ⟨nd, hnd, rfl⟩ := Multiset.mem_map.mp he
    have hle := hmin nd hnd
    rw [(h.node nd hnd).2, (h.node cur hcur).2] at hle
    exact hle

/-! ## The loop -/

/-- The grid is finite. -/
theorem exists_grid : ∃ U : Finset Cell, ∀ v, InGrid v → v ∈ U := by
  refine ⟨Finset.Icc 1 ww ×ˢ Finset.Icc 1 hh, fun v h => ?_⟩
  simp only [Finset.mem_product, Finset.mem_Icc]
  exact ⟨⟨h.1, h.2.1⟩, h.2.2⟩

/-- `rou` holds a cheapest route from `st` to `ed`, the goal first. -/
def CheapestBack (obs : ObstacleMap) (st ed : Cell) (rou : List Cell) : Prop :=
  rou.head? = some ed ∧ rou.getLast? = some st ∧
    ∃ c, Route (legalMoves obs) rou.reverse c ∧ ∀ c', Walk (legalMoves obs) st ed c' → c ≤ c'

theorem CheapestBack.walk {obs : ObstacleMap} {st ed : Cell} {rou : List Cell}
    (h : CheapestBack obs st ed rou) : ∃ c, Walk (legalMoves obs) st ed c := by
  obtain ⟨hhead, hlast, c, hroute, -⟩ := h
  exact ⟨c, hroute.walk (by rw [List.head?_reverse, hlast])
    (by rw [List.getLast?_reverse, hhead])⟩

/-- **How the loop ends**: with the goal taken and a cheapest route along the predecessors, or
without a walk to the goal. -/
def LoopEnd (obs : ObstacleMap) (st ed : Cell) (found : Bool) (s : Astar) : Prop :=
  if found then ∃ room rou,
    walkBack (fun v => (s.fax v.1 v.2, s.fay v.1 v.2)) st room ed = some rou ∧
      CheapestBack obs st ed rou
  else ∀ c, ¬ Walk (legalMoves obs) st ed c

theorem legalMoves_pos (obs : ObstacleMap) (v : Cell) : ∀ m ∈ legalMoves obs v, 0 < m.2 :=
  fun _ hm => (isMove_of_mem_legalMoves hm).pos

/-- The goal is taken. -/
theorem loopEnd_found {obs : ObstacleMap} {st ed : Cell} {s : Astar} (h : s.Ok ed)
    (hbetween : (s.search ed).Between (legalMoves obs) st ed) (hsz : 0 < s.openList.sz)
    (hgoal : (s.openList.pop.1.x, s.openList.pop.1.y) = ed) :
    LoopEnd obs st ed true { s with openList := s.openList.pop.2 } := by
  obtain ⟨-, -, hmem, -, hmin⟩ := h.pop hsz
  rw [hgoal] at hmem
  obtain ⟨d, hd, hle⟩ := (hbetween (ed, 0)).le _ hmem
  obtain ⟨room, rou, c, hback, hhead, hlast, hroute, hc⟩ :=
    hbetween.walkBack (legalMoves_pos obs) d ed hd
  refine ⟨room, rou, hback, hhead, hlast, c, hroute, fun c' hwalk => ?_⟩
  have hopt : s.openList.pop.1.G ≤ c' := by
    refine hbetween.optimal (fun v => estimate ed v.1 v.2) (fun _ _ => estimate_le)
      (estimate_self ed) (fun e he => ?_) hwalk
    have hle' := hmin e he
    rw [← hgoal] at hle' ⊢
    exact hle'
  exact hc.trans (hle.trans hopt)

/-- **A turn of the loop** with a node other than the goal is a turn of the search. -/
theorem Astar.Ok.turn {obs : ObstacleMap} {st ed : Cell} {s : Astar} (h : s.Ok ed)
    (hbetween : (s.search ed).Between (legalMoves obs) st ed) (hsz : 0 < s.openList.sz)
    (hgoal : ¬ (s.openList.pop.1.x = ed.1 ∧ s.openList.pop.1.y = ed.2)) :
    let cur := s.openList.pop.1
    let s' : Astar := ({ s with openList := s.openList.pop.2 } : Astar).expand obs ed cur
    s'.Ok ed ∧ (s'.search ed).Between (legalMoves obs) st ed ∧
      s'.search ed = ((s.search ed).take ((cur.x, cur.y), cur.G)).expand (cur.x, cur.y) cur.G
        (legalMoves obs (cur.x, cur.y)) ∧
      ((cur.x, cur.y), cur.G) ∈ (s.search ed).frontier := by
  obtain ⟨hok', hgrid, hmem, htake, -⟩ := h.pop hsz
  obtain ⟨hok'', hexpand⟩ := hok'.expand obs hgrid
  rw [htake] at hexpand
  have hne : (s.openList.pop.1.x, s.openList.pop.1.y) ≠ ed := fun heq =>
    hgoal ⟨congrArg Prod.fst heq, congrArg Prod.snd heq⟩
  have hbetween' := hbetween.turn hmem hne
  rw [← hexpand] at hbetween'
  exact ⟨hok'', hbetween', hexpand, hmem⟩

/-- **The loop ends**, from every state between two turns. -/
theorem astarLoop_ends {obs : ObstacleMap} {st ed : Cell} {U : Finset Cell}
    (hU : ∀ v, InGrid v → v ∈ U) (x : (ℕ ×ₗ ℕ) ×ₗ ℕ) :
    ∀ s : Astar, s.Ok ed → (s.search ed).Between (legalMoves obs) st ed →
      x = toLex ((s.search ed).rank U, s.openList.sz) →
      ∃ N found s', LoopEnd obs st ed found s' ∧
        ∀ fuel, N ≤ fuel → astarLoop obs ed fuel s = some (found, s') := by
  -- by induction on the rank and the length of the list: a turn lowers the one or the other
  induction x using WellFoundedLT.induction with
  | ind x ih =>
      rintro s hok hbetween rfl
      by_cases hsz : s.openList.sz = 0
      · refine ⟨1, false, s, ?_, fun fuel hfuel => ?_⟩
        · have hempty : (s.search ed).frontier = 0 := by
            rw [Astar.search_frontier, OpenList.nodes_eq_zero hsz, Multiset.map_zero]
          exact hbetween.not_walk hempty
        · obtain ⟨k, rfl⟩ := Nat.exists_eq_add_of_le' hfuel
          rw [astarLoop, if_pos hsz]
      have hpos : 0 < s.openList.sz := Nat.pos_of_ne_zero hsz
      -- the goal is on top of the list
      by_cases hgoal : s.openList.pop.1.x = ed.1 ∧ s.openList.pop.1.y = ed.2
      · refine ⟨1, true, _, loopEnd_found hok hbetween hpos (Prod.ext hgoal.1 hgoal.2),
          fun fuel hfuel => ?_⟩
        obtain ⟨k, rfl⟩ := Nat.exists_eq_add_of_le' hfuel
        rw [astarLoop, if_neg hsz]
        exact if_pos hgoal
      -- a turn of the loop
      obtain ⟨hok'', hbetween', hexpand, hmem⟩ := hok.turn hbetween hpos hgoal
      have hmovesU : ∀ v, ∀ m ∈ legalMoves obs v, m.1 ∈ U := fun _ m hm =>
        hU m.1 (isMove_of_mem_legalMoves hm).inGrid
      have hrank := (s.search ed).turn_rank (hmovesU (s.openList.pop.1.x, s.openList.pop.1.y)) hmem
      rw [← hexpand] at hrank
      have hcard : ∀ t : Astar, (t.search ed).frontier.card = t.openList.sz := fun t => by
        rw [Astar.search_frontier, Multiset.card_map, OpenList.card_nodes]
      rw [hcard, hcard] at hrank
      obtain ⟨N, found, s', hend, hloop⟩ := ih _ (Prod.Lex.toLex_lt_toLex.mpr hrank) _ hok''
        hbetween' rfl
      refine ⟨N + 1, found, s', hend, fun fuel hfuel => ?_⟩
      obtain ⟨k, rfl⟩ := Nat.exists_eq_add_of_le' (Nat.le_trans (Nat.le_add_left 1 N) hfuel)
      rw [astarLoop, if_neg hsz]
      exact (if_neg hgoal).trans (hloop k (by omega))

/-- The variables before the loop. -/
theorem Astar.ok_init (heap : ℕ → Nodee) {st : Cell} (hst : InGrid st) (ed : Cell) :
    (Astar.init heap st ed).Ok ed ∧
      (Astar.init heap st ed).search ed = Search.init st fun _ => (0, 0) := by
  have hempty : (OpenList.mk heap 0).Ordered := fun i hi hin => absurd hin (by simp)
  obtain ⟨hordered, hnodes⟩ := OpenList.push_spec hempty
    ⟨st.1, st.2, estimate ed st.1 st.2, 0, estimate ed st.1 st.2⟩
  have hnone : (OpenList.mk heap 0).nodes = 0 := OpenList.nodes_eq_zero rfl
  rw [hnone] at hnodes
  refine ⟨⟨hordered, fun nd hnd => ?_⟩, ?_⟩
  · have hnd' : nd ∈ _ ::ₘ (0 : Multiset Nodee) := hnodes ▸ hnd
    rcases Multiset.mem_cons.mp hnd' with rfl | hnd'
    · exact ⟨hst, (Nat.zero_add _).symm⟩
    · exact absurd hnd' (Multiset.notMem_zero nd)
  · have hfrontier : ((Astar.init heap st ed).search ed).frontier = {(st, 0)} := by
      rw [Astar.search_frontier, Astar.init, hnodes]
      rfl
    calc (Astar.init heap st ed).search ed
        = ⟨((Astar.init heap st ed).search ed).frontier, fun _ => none, fun _ => (0, 0)⟩ := rfl
      _ = Search.init st fun _ => (0, 0) := by rw [hfrontier]; rfl

/-- **The invariant of the loop holds in front of it.** -/
theorem Astar.between_init (heap : ℕ → Nodee) (obs : ObstacleMap) {st : Cell} (hst : InGrid st)
    (ed : Cell) : ((Astar.init heap st ed).search ed).Between (legalMoves obs) st ed := by
  rw [(Astar.ok_init heap hst ed).2]
  apply Search.between_init

/-- What a call of `astar` ends with when the goal is taken. -/
theorem astar_of_found {heap : ℕ → Nodee} {obs : ObstacleMap} {st ed : Cell} {fuel room : ℕ}
    {a : Astar} {rou : List Cell}
    (hloop : astarLoop obs ed fuel (Astar.init heap st ed) = some (true, a))
    (hback : walkBack (fun v => (a.fax v.1 v.2, a.fay v.1 v.2)) st room ed = some rou) :
    astar heap obs st ed fuel = some (if rou.length ≤ pieces then .found rou else .pastEnd) := by
  rw [astar, hloop]
  dsimp only
  obtain ⟨-, hfit⟩ := walkBack_length _ _ hback
  by_cases hlen : rou.length ≤ pieces
  · rw [if_pos hlen, walkBack_mono _ _ hlen hfit]
  · rw [if_neg hlen]
    rcases hlong : walkBack (fun v => (a.fax v.1 v.2, a.fay v.1 v.2)) st pieces ed with _ | rou'
    · rfl
    · -- with this much room the walk would be the same
      obtain rfl := walkBack_agree _ _ hback hlong
      exact absurd (walkBack_length _ _ hlong).1 hlen

/-- **The goal is taken** with the tables of `a`, and `rou` is the walk back along `fax` and
`fay`. -/
structure TakesGoal (heap : ℕ → Nodee) (obs : ObstacleMap) (st ed : Cell) (N : ℕ) (a : Astar)
    (rou : List Cell) : Prop where
  loop : ∀ fuel, N ≤ fuel → astarLoop obs ed fuel (Astar.init heap st ed) = some (true, a)
  back : walkBack (fun v => (a.fax v.1 v.2, a.fay v.1 v.2)) st rou.length ed = some rou

/-- The call then ends with the route in `roux` and `rouy`, or past their end. -/
theorem TakesGoal.astar_eq {heap : ℕ → Nodee} {obs : ObstacleMap} {st ed : Cell} {N fuel : ℕ}
    {a : Astar} {rou : List Cell} (h : TakesGoal heap obs st ed N a rou) (hfuel : N ≤ fuel) :
    astar heap obs st ed fuel = some (if rou.length ≤ pieces then .found rou else .pastEnd) :=
  astar_of_found (h.loop fuel hfuel) h.back

/-- **A call of `astar` ends**: with the goal taken and a cheapest route along `fax` and `fay`, or
without a walk to the goal. -/
theorem astar_ends (heap : ℕ → Nodee) (obs : ObstacleMap) {st : Cell} (hst : InGrid st)
    (ed : Cell) :
    ∃ N, (∃ a rou, TakesGoal heap obs st ed N a rou ∧ CheapestBack obs st ed rou) ∨
      ((∀ c, ¬ Walk (legalMoves obs) st ed c) ∧
        ∀ fuel, N ≤ fuel → astar heap obs st ed fuel = some .notFound) := by
  have hok := (Astar.ok_init heap hst ed).1
  have hbetween := Astar.between_init heap obs hst ed
  obtain ⟨U, hU⟩ := exists_grid
  obtain ⟨N, found, s', hend, hloop⟩ := astarLoop_ends hU _ _ hok hbetween rfl
  refine ⟨N, ?_⟩
  cases found with
  | false =>
      right
      refine ⟨hend, fun fuel hfuel => ?_⟩
      rw [astar, hloop fuel hfuel]
  | true =>
      left
      obtain ⟨room, rou, hback, hcheap⟩ := hend
      exact ⟨s', rou, ⟨hloop, (walkBack_length _ _ hback).2⟩, hcheap⟩

/-- **The search is sound, complete and optimal**: a goal that can be reached is taken, with a
cheapest route along `fax` and `fay`, and the call returns it unless it is longer than `roux` and
`rouy`. -/
theorem astar_optimal (heap : ℕ → Nodee) (obs : ObstacleMap) {st : Cell} (ed : Cell)
    (hst : InGrid st) :
    ∃ N, ((∃ c, Walk (legalMoves obs) st ed c) → ∃ a rou,
        TakesGoal heap obs st ed N a rou ∧ CheapestBack obs st ed rou ∧
          ∀ fuel, N ≤ fuel → astar heap obs st ed fuel =
            some (if rou.length ≤ pieces then .found rou else .pastEnd)) ∧
      ((¬ ∃ c, Walk (legalMoves obs) st ed c) →
        ∀ fuel, N ≤ fuel → astar heap obs st ed fuel = some .notFound) := by
  obtain ⟨N, ⟨a, rou, htakes, hcheap⟩ | ⟨hnone, hrun⟩⟩ := astar_ends heap obs hst ed
  · refine ⟨N, fun _ => ⟨a, rou, htakes, hcheap, fun fuel hfuel => htakes.astar_eq hfuel⟩,
      fun hno => ?_⟩
    exact absurd hcheap.walk hno
  · refine ⟨N, fun hsome => ?_, fun _ => hrun⟩
    obtain ⟨c, hwalk⟩ := hsome
    exact absurd hwalk (hnone c)

/-- In an empty field the search from one corner to the other one returns. -/
theorem astar_optimal_emptyField :
    InGrid (1, 1) ∧ ∃ N a rou,
      TakesGoal (fun _ => ⟨0, 0, 0, 0, 0⟩) (fun _ _ => false) (1, 1) (2, 2) N a rou ∧
        CheapestBack (fun _ _ => false) (1, 1) (2, 2) rou ∧ ∀ fuel, N ≤ fuel →
          astar (fun _ => ⟨0, 0, 0, 0, 0⟩) (fun _ _ => false) (1, 1) (2, 2) fuel =
            some (if rou.length ≤ pieces then .found rou else .pastEnd) := by
  have hgrid : InGrid (1, 1) := by unfold InGrid; decide
  refine ⟨hgrid, ?_⟩
  obtain ⟨N, hfound, -⟩ :=
    astar_optimal (fun _ => ⟨0, 0, 0, 0, 0⟩) (fun _ _ => false) (2, 2) hgrid
  exact ⟨N, hfound ⟨14 + 0, .step (by decide) (.refl (2, 2))⟩⟩

/-! ## Termination -/

/-- **The search ends after finitely many pops**, whatever the obstacles are, and when it ends with
the goal taken the walk through `fax` and `fay` reaches the start and visits no cell twice. -/
theorem astar_terminates (heap : ℕ → Nodee) (obs : ObstacleMap) {st : Cell} (ed : Cell)
    (hst : InGrid st) :
    ∃ N found s',
      (∀ fuel, N ≤ fuel → astarLoop obs ed fuel (Astar.init heap st ed) = some (found, s')) ∧
        (found = true → ∃ rou,
          walkBack (fun v => (s'.fax v.1 v.2, s'.fay v.1 v.2)) st rou.length ed = some rou ∧
            rou.head? = some ed ∧ rou.getLast? = some st ∧ rou.Nodup) := by
  have hok := (Astar.ok_init heap hst ed).1
  have hbetween := Astar.between_init heap obs hst ed
  obtain ⟨U, hU⟩ := exists_grid
  obtain ⟨N, found, s', hend, hloop⟩ := astarLoop_ends hU _ _ hok hbetween rfl
  refine ⟨N, found, s', hloop, ?_⟩
  rintro rfl
  obtain ⟨room, rou, hback, hhead, hlast, -⟩ := hend
  exact ⟨rou, (walkBack_length _ _ hback).2, hhead, hlast, walkBack_nodup _ _ hback⟩

/-- In the corner of an empty field the search ends. -/
theorem astar_terminates_emptyField :
    InGrid (1, 1) ∧ ∃ N found s', ∀ fuel, N ≤ fuel →
      astarLoop (fun _ _ => false) (2, 2) fuel
        (Astar.init (fun _ => ⟨0, 0, 0, 0, 0⟩) (1, 1) (2, 2)) = some (found, s') := by
  have hgrid : InGrid (1, 1) := by unfold InGrid; decide
  obtain ⟨N, found, s', hloop, -⟩ :=
    astar_terminates (fun _ => ⟨0, 0, 0, 0, 0⟩) (fun _ _ => false) (2, 2) hgrid
  exact ⟨hgrid, N, found, s', hloop⟩

/-! ## A route longer than the arrays -/

/-- **A straight way**: the cells of `line` follow each other by one move of `dir0`. -/
theorem walk_line {obs : ObstacleMap} {d : ℤ × ℤ} (hd : d ∈ dir0) (line : ℕ → Cell) {k : ℕ}
    (hstep : ∀ i < k, ((line (i + 1)).1 : ℤ) = (line i).1 + d.1 ∧
      ((line (i + 1)).2 : ℤ) = (line i).2 + d.2)
    (hfree : ∀ i < k, InGrid (line (i + 1)) ∧ obs (line (i + 1)).1 (line (i + 1)).2 = false) :
    ∃ c, Walk (legalMoves obs) (line 0) (line k) c := by
  induction k with
  | zero => exact ⟨0, .refl _⟩
  | succ k ih =>
      obtain ⟨c, hwalk⟩ := ih (fun i hi => hstep i (by omega)) fun i hi => hfree i (by omega)
      obtain ⟨hx, hy⟩ := hstep k (Nat.lt_succ_self k)
      obtain ⟨hgrid, hobs⟩ := hfree k (Nat.lt_succ_self k)
      refine ⟨c + cost0 d, hwalk.concat ?_⟩
      refine List.mem_append_left _ (List.mem_filterMap.mpr ⟨d, hd, ?_⟩)
      exact legalMove_eq_some.mpr ⟨hgrid, hobs, hx, hy, rfl⟩

/-- Two rows of free cells that are joined at their right end only. -/
def corridor : ObstacleMap := fun x y =>
  !decide ((1 ≤ x ∧ x ≤ 76 ∧ (y = 2 ∨ y = 4)) ∨ (x = 76 ∧ y = 3))

theorem corridor_free {x y : ℤ} :
    corridor x y = false ↔ (1 ≤ x ∧ x ≤ 76 ∧ (y = 2 ∨ y = 4)) ∨ (x = 76 ∧ y = 3) := by
  unfold corridor
  rw [Bool.not_eq_false', decide_eq_true_eq]

/-- How far a cell lies along the corridor. -/
def along (v : Cell) : ℤ := if v.2 = 2 then v.1 else if v.2 = 3 then 76 else 152 - v.1

/-- A table is not used next to an obstacle among its cells. -/
theorem clear_eq_false {obs : ObstacleMap} {dirs : List (ℤ × ℤ)} {v : Cell} {d : ℤ × ℤ}
    (hd : d ∈ dirs) (hobs : obs (v.1 + d.1) (v.2 + d.2) = true) : clear obs dirs v = false := by
  rw [Bool.eq_false_iff]
  intro hclear
  have hfree := List.all_eq_true.mp hclear d hd
  rw [hobs] at hfree
  exact Bool.noConfusion hfree

/-- Only the moves of `dir0` are made in the corridor. -/
theorem legalMoves_corridor {v : Cell} (hv : corridor v.1 v.2 = false) :
    legalMoves corridor v = tableMoves corridor dir0 cost0 v := by
  have hy := corridor_free.mp hv
  have hout : ∀ {x y : ℤ}, y ≤ 1 ∨ 5 ≤ y → corridor x y = true := by
    intro x y h
    rw [← Bool.not_eq_false, corridor_free]
    omega
  have hclear : ∀ (dirs : List (ℤ × ℤ)) (d d' : ℤ × ℤ), d ∈ dirs → d' ∈ dirs → d.2 ≤ -2 →
      2 ≤ d'.2 → clear corridor dirs v = false := by
    intro dirs d d' hd hd' hlow hhigh
    -- the rows below and above the corridor are blocked
    by_cases h4 : v.2 = 4
    · exact clear_eq_false hd' (hout (by omega))
    · exact clear_eq_false hd (hout (by omega))
  unfold legalMoves
  rw [hclear dir1 (1, -2) (1, 2) (by decide) (by decide) (by decide)
      (by decide),
    hclear dir2 (3, -2) (3, 2) (by decide) (by decide) (by decide)
      (by decide),
    hclear dir3 (1, -3) (1, 3) (by decide) (by decide) (by decide)
      (by decide)]
  simp

/-- **A move gets one cell further at most.** -/
theorem along_le {v : Cell} (hv : corridor v.1 v.2 = false) {m : Cell × ℕ}
    (hm : m ∈ legalMoves corridor v) :
    corridor m.1.1 m.1.2 = false ∧ along m.1 ≤ along v + 1 := by
  rw [legalMoves_corridor hv] at hm
  obtain ⟨d, hd, hlegal⟩ := List.mem_filterMap.mp hm
  obtain ⟨-, hfree, hx, hy, -⟩ := legalMove_eq_some.mp hlegal
  refine ⟨hfree, ?_⟩
  have hshort : ∀ d ∈ dir0, -1 ≤ d.1 ∧ d.1 ≤ 1 ∧ -1 ≤ d.2 ∧ d.2 ≤ 1 := by decide
  have hd := hshort d hd
  have hv' := corridor_free.mp hv
  have hm' := corridor_free.mp hfree
  unfold along
  split_ifs <;> omega

/-- **In the corridor the goal is reachable, and the walk back runs past the end of `roux`.** -/
theorem corridor_pastEnd :
    (∃ c, Walk (legalMoves corridor) (1, 2) (1, 4) c) ∧
      ∀ heap, ∃ N, ∀ fuel, N ≤ fuel → astar heap corridor (1, 2) (1, 4) fuel = some .pastEnd := by
  have hreach : ∃ c, Walk (legalMoves corridor) (1, 2) (1, 4) c := by
    obtain ⟨c, hright⟩ : ∃ c, Walk (legalMoves corridor) (1, 2) (76, 2) c := by
      refine walk_line (d := (1, 0)) (by decide) (fun i => (1 + i, 2)) (k := 75) (fun i hi => ?_)
        fun i hi => ⟨?_, corridor_free.mpr ?_⟩
      · dsimp only
        omega
      · simp only [InGrid, ww, hh]
        omega
      · dsimp only
        omega
    obtain ⟨c', hleft⟩ : ∃ c, Walk (legalMoves corridor) (76, 4) (1, 4) c := by
      refine walk_line (d := (-1, 0)) (by decide) (fun i => (76 - i, 4)) (k := 75) (fun i hi => ?_)
        fun i hi => ⟨?_, corridor_free.mpr ?_⟩
      · dsimp only
        omega
      · simp only [InGrid, ww, hh]
        omega
      · dsimp only
        omega
    have hturn : ((76, 3), 10) ∈ legalMoves corridor (76, 2) := by decide
    have hturn' : ((76, 4), 10) ∈ legalMoves corridor (76, 3) := by decide
    exact ⟨c + (10 + (10 + c')), hright.trans (.step hturn (.step hturn' hleft))⟩
  refine ⟨hreach, fun heap => ?_⟩
  have hgrid : InGrid (1, 2) := by unfold InGrid; decide
  obtain ⟨N, ⟨a, rou, htakes, hhead, hlast, c, hroute, -⟩ | ⟨hnone, -⟩⟩ :=
    astar_ends heap corridor hgrid (1, 4)
  · refine ⟨N, fun fuel hfuel => ?_⟩
    have hstart : rou.reverse.head? = some (1, 2) := by rw [List.head?_reverse, hlast]
    have hend : rou.reverse.getLast? = some (1, 4) := by rw [List.getLast?_reverse, hhead]
    -- the route has one cell for every unit of the way at least
    have hlong : along (1, 4) ≤ along (1, 2) + (wayTotal (fun _ _ => 1) rou.reverse : ℕ) :=
      hroute.potential_le (fun v hv m hm => by exact_mod_cast along_le hv hm) hstart hend
        (by decide)
    have hcount := wayTotal_one (l := rou.reverse) fun h => by simp [h] at hstart
    have hgap : along (1, 4) = 151 ∧ along (1, 2) = 1 := by decide
    rw [List.length_reverse] at hcount
    rw [htakes.astar_eq hfuel, if_neg]
    simp only [pieces]
    omega
  · obtain ⟨c, hwalk⟩ := hreach
    exact absurd hwalk (hnone c)

end HandlingRobot
