import HandlingRobot.Tour.Targets

/-! # The legs of the planner form a trajectory

Every leg is a new path. The legs of `ACO_to_next` start at the current target; the legs to the bins
start at point `n - 1`, which is the picture of the highest index when `ACO_to_R` is called and the
last bin after that.

* **`Planner.start`**, **`Planner.finish`** — the first and the last waypoint of a path.
* **`Planner.Connected`** — every path starts where the one before it ends.
* **`acoToNext_connected`**, **`acoToBin_connected`** — what one call does to that.
* **`acoRun_connected_iff`** — a whole run is connected exactly when `ACO_to_R` finds the car at
  picture `n - 1`. -/

namespace HandlingRobot

/-! ## Waypoints -/

/-- The point `i` of the planner. -/
def Planner.pos (s : Planner) (i : ℕ) : ℚ × ℚ := (s.px i, s.py i)

/-- The first waypoint of path `j`. -/
def Planner.start (s : Planner) (j : ℕ) : ℚ × ℚ := (s.pathX j 0, s.pathY j 0)

/-- The last waypoint of path `j`. -/
def Planner.finish (s : Planner) (j : ℕ) : ℚ × ℚ :=
  (s.pathX j (s.pathTot j), s.pathY j (s.pathTot j))

/-- **Every path starts where the one before it ends.** -/
def Planner.Connected (s : Planner) : Prop :=
  ∀ j, 1 ≤ j → j < s.numPath → s.start j = s.finish (j - 1)

/-- The paths still to come have no waypoints. -/
def Planner.Fresh (s : Planner) : Prop := ∀ j, s.numPath ≤ j → s.pathTot j = 0

/-- The waypoints a path has before the loop stay. -/
theorem makePoints_behind (s : Planner) (num : ℕ) (stepX stepY : ℚ) (k : ℕ) {i : ℕ}
    (hi : i ≤ s.pathTot num) :
    (makePoints s num stepX stepY k).pathX num i = s.pathX num i ∧
      (makePoints s num stepX stepY k).pathY num i = s.pathY num i := by
  induction k with
  | zero => exact ⟨rfl, rfl⟩
  | succ k ih =>
      have hne : ¬ (num = num ∧ i = s.pathTot num + k + 1) := fun h => by omega
      simp only [makePoints, makePoints_pathTot]
      rw [setCell_of_ne _ _ hne, setCell_of_ne _ _ hne]
      exact ih

/-- The waypoints laid by the first `k` turns of the loop follow the last one of the path. -/
theorem makePoints_follow (s : Planner) (num : ℕ) (stepX stepY : ℚ) (k : ℕ) :
    ∀ i ≤ k, (makePoints s num stepX stepY k).pathX num (s.pathTot num + i) =
        s.pathX num (s.pathTot num) + i * stepX ∧
      (makePoints s num stepX stepY k).pathY num (s.pathTot num + i) =
        s.pathY num (s.pathTot num) + i * stepY := by
  -- waypoint after waypoint
  induction k with
  | zero =>
      intro i hi
      obtain rfl : i = 0 := by omega
      simp [makePoints]
  | succ k ih =>
      intro i hi
      simp only [makePoints, makePoints_pathTot]
      by_cases hik : i = k + 1
      · obtain ⟨hx, hy⟩ := ih k le_rfl
        subst hik
        rw [← Nat.add_assoc, setCell_self, setCell_self, Nat.add_sub_cancel, hx, hy]
        push_cast
        constructor <;> ring
      · have hne : ¬ (num = num ∧ s.pathTot num + i = s.pathTot num + k + 1) := fun h => by omega
        rw [setCell_of_ne _ _ hne, setCell_of_ne _ _ hne]
        exact ih i (by omega)

/-- Other paths keep their waypoints. -/
theorem makePoints_other (s : Planner) {num j : ℕ} (h : j ≠ num) (stepX stepY : ℚ) (k : ℕ) :
    (makePoints s num stepX stepY k).pathX j = s.pathX j ∧
      (makePoints s num stepX stepY k).pathY j = s.pathY j := by
  induction k with
  | zero => exact ⟨rfl, rfl⟩
  | succ k ih =>
      rw [← ih.1, ← ih.2]
      constructor
      · funext i
        exact setCell_of_ne _ _ fun hne => h hne.1
      · funext i
        exact setCell_of_ne _ _ fun hne => h hne.1

/-- **Path `num` leads from `p` to `q`.** -/
structure Planner.On (num : ℕ) (p q : ℚ × ℚ) (s : Planner) : Prop where
  pos : 0 < s.pathTot num
  start : s.start num = p
  finish : s.finish num = q

/-- **What the loop of `make_path` lays** leads on from the last waypoint by `(dx, dy)`. -/
theorem makePoints_on (s : Planner) (num : ℕ) (dx dy disStep : ℚ) :
    let k := pieceCount dx dy disStep
    let t := makePoints s num (dx / k) (dy / k) k
    ({ t with pathTot := Function.update t.pathTot num (t.pathTot num + k) } : Planner).On num
      (s.start num) ((s.finish num).1 + dx, (s.finish num).2 + dy) := by
  intro k t
  have hk : (k : ℚ) ≠ 0 := Nat.cast_ne_zero.mpr (Nat.succ_ne_zero _)
  obtain ⟨hx0, hy0⟩ := makePoints_behind s num (dx / k) (dy / k) k (Nat.zero_le _)
  obtain ⟨hx1, hy1⟩ := makePoints_follow s num (dx / k) (dy / k) k k le_rfl
  have htot : t.pathTot = s.pathTot := makePoints_pathTot s num _ _ k
  refine ⟨?_, Prod.ext hx0 hy0, ?_⟩
  · show 0 < Function.update t.pathTot num (t.pathTot num + k) num
    rw [Function.update_self]
    exact Nat.add_pos_right _ (Nat.succ_pos _)
  · show (t.pathX num (Function.update t.pathTot num (t.pathTot num + k) num),
      t.pathY num (Function.update t.pathTot num (t.pathTot num + k) num)) = _
    rw [Function.update_self, htot, hx1, hy1, mul_div_cancel₀ dx hk, mul_div_cancel₀ dy hk]
    rfl

/-- **`make_path` on a path without waypoints.** -/
theorem makePath_fresh {s : Planner} {num : ℕ} (h : s.pathTot num = 0) (x0 y0 x1 y1 : ℤ)
    (disStep : ℚ) : (makePath x0 y0 x1 y1 num disStep s).On num (↑x0, ↑y0) (↑x1, ↑y1) := by
  have hon := makePoints_on { s with
    pathX := setCell s.pathX num 0 x0, pathY := setCell s.pathY num 0 y0,
    pathPredis := setCell s.pathPredis num 0 0 } num (x1 - x0) (y1 - y0) disStep
  simp only [Planner.start, Planner.finish, h, setCell_self, add_sub_cancel] at hon
  unfold makePath
  rw [if_pos h]
  exact hon

/-- **`make_path` from the end of a path** moves its end on. -/
theorem Planner.On.makePath {s : Planner} {num : ℕ} {p : ℚ × ℚ} {x0 y0 : ℤ}
    (h : s.On num p (↑x0, ↑y0)) (x1 y1 : ℤ) (disStep : ℚ) :
    (makePath x0 y0 x1 y1 num disStep s).On num p (↑x1, ↑y1) := by
  have hon := makePoints_on s num (x1 - x0) (y1 - y0) disStep
  simp only [h.start, h.finish, add_sub_cancel] at hon
  unfold HandlingRobot.makePath
  rw [if_neg h.pos.ne']
  exact hon

/-- **A leg on a fresh path** leads from its first point to its second one. -/
theorem Planner.leg_ends {s : Planner} (h : s.Fresh) (x0 y0 x1 y1 : ℤ) :
    (s.leg x0 y0 x1 y1).start s.numPath = (↑x0, ↑y0) ∧
      (s.leg x0 y0 x1 y1).finish s.numPath = (↑x1, ↑y1) := by
  have hon := makePath_fresh (h s.numPath le_rfl) x0 y0 x1 y1 pieceStep
  exact ⟨hon.start, hon.finish⟩

/-- The number of waypoints of the path that `make_path` extends. -/
theorem makePath_pathTot (s : Planner) (num : ℕ) (x0 y0 x1 y1 : ℤ) (disStep : ℚ) :
    (makePath x0 y0 x1 y1 num disStep s).pathTot num =
      s.pathTot num + pieceCount (x1 - x0) (y1 - y0) disStep := by
  unfold makePath
  by_cases h : s.pathTot num = 0
  · simp [h]
  · simp [h]

/-- The number of waypoints of the path that a leg is laid on. -/
theorem Planner.leg_pathTot (s : Planner) (x0 y0 x1 y1 : ℤ) :
    (s.leg x0 y0 x1 y1).pathTot s.numPath =
      s.pathTot s.numPath + pieceCount (x1 - x0) (y1 - y0) pieceStep :=
  makePath_pathTot s s.numPath x0 y0 x1 y1 pieceStep

/-- `make_path` leaves the other paths alone. -/
theorem makePath_other (s : Planner) {num j : ℕ} (h : j ≠ num) (x0 y0 x1 y1 : ℤ) (disStep : ℚ) :
    (makePath x0 y0 x1 y1 num disStep s).pathX j = s.pathX j ∧
      (makePath x0 y0 x1 y1 num disStep s).pathY j = s.pathY j ∧
      (makePath x0 y0 x1 y1 num disStep s).pathTot j = s.pathTot j := by
  have hframe : ∀ t : Planner, t.pathTot = s.pathTot → t.pathX j = s.pathX j →
      t.pathY j = s.pathY j → ∀ stepX stepY k,
      (makePoints t num stepX stepY k).pathX j = s.pathX j ∧
        (makePoints t num stepX stepY k).pathY j = s.pathY j ∧
        (makePoints t num stepX stepY k).pathTot j = s.pathTot j := by
    intro t htot hx hy stepX stepY k
    obtain ⟨hx', hy'⟩ := makePoints_other t h stepX stepY k
    exact ⟨hx'.trans hx, hy'.trans hy, by rw [makePoints_pathTot, htot]⟩
  -- only the path under `num` is written
  unfold makePath
  dsimp only
  by_cases htot : s.pathTot num = 0
  · simp only [if_pos htot, Function.update_of_ne h]
    refine hframe { s with
      pathX := setCell s.pathX num 0 x0, pathY := setCell s.pathY num 0 y0,
      pathPredis := setCell s.pathPredis num 0 0 } rfl ?_ ?_ _ _ _
    · funext i
      exact setCell_of_ne _ _ fun hne => h hne.1
    · funext i
      exact setCell_of_ne _ _ fun hne => h hne.1
  · simp only [if_neg htot, Function.update_of_ne h]
    exact hframe s rfl rfl rfl _ _ _

/-- A leg leaves the other paths alone. -/
theorem Planner.leg_other {s : Planner} {j : ℕ} (h : j ≠ s.numPath) (x0 y0 x1 y1 : ℤ) :
    (s.leg x0 y0 x1 y1).start j = s.start j ∧ (s.leg x0 y0 x1 y1).finish j = s.finish j ∧
      (s.leg x0 y0 x1 y1).pathTot j = s.pathTot j := by
  obtain ⟨hx, hy, htot⟩ : (s.leg x0 y0 x1 y1).pathX j = s.pathX j ∧
      (s.leg x0 y0 x1 y1).pathY j = s.pathY j ∧ (s.leg x0 y0 x1 y1).pathTot j = s.pathTot j :=
    makePath_other s h x0 y0 x1 y1 pieceStep
  refine ⟨?_, ?_, htot⟩
  · rw [Planner.start, Planner.start, hx, hy]
  · rw [Planner.finish, Planner.finish, hx, hy, htot]

/-- **`t` has one path more than `s`**, from `p` to `q`. -/
structure Planner.Extends (s t : Planner) (p q : ℚ × ℚ) : Prop where
  numPath : t.numPath = s.numPath + 1
  start : t.start s.numPath = p
  finish : t.finish s.numPath = q
  other : ∀ j, j ≠ s.numPath →
    t.start j = s.start j ∧ t.finish j = s.finish j ∧ t.pathTot j = s.pathTot j

theorem Planner.leg_extends {s : Planner} (h : s.Fresh) (x0 y0 x1 y1 : ℤ) :
    s.Extends (s.leg x0 y0 x1 y1) (↑x0, ↑y0) (↑x1, ↑y1) :=
  ⟨rfl, (Planner.leg_ends h x0 y0 x1 y1).1, (Planner.leg_ends h x0 y0 x1 y1).2,
    fun _ hj => Planner.leg_other hj x0 y0 x1 y1⟩

theorem Planner.Extends.fresh {s t : Planner} {p q : ℚ × ℚ} (h : s.Extends t p q) (hs : s.Fresh) :
    t.Fresh := by
  intro j hj
  have hnum := h.numPath
  rw [(h.other j (by omega)).2.2]
  exact hs j (by omega)

/-- **A further path keeps the trajectory connected** exactly when it starts where the last one
ended. -/
theorem Planner.Extends.connected_iff {s t : Planner} {p q : ℚ × ℚ} (h : s.Extends t p q)
    (hpos : 1 ≤ s.numPath) : t.Connected ↔ s.Connected ∧ p = s.finish (s.numPath - 1) := by
  have hnum := h.numPath
  have hold : ∀ j, 1 ≤ j → j < s.numPath →
      (t.start j = t.finish (j - 1) ↔ s.start j = s.finish (j - 1)) := by
    intro j _ hjn
    rw [(h.other j (by omega)).1, (h.other (j - 1) (by omega)).2.1]
  have hnew : t.start s.numPath = t.finish (s.numPath - 1) ↔ p = s.finish (s.numPath - 1) := by
    rw [h.start, (h.other (s.numPath - 1) (by omega)).2.1]
  constructor
  · intro hall
    refine ⟨fun j hj hjn => (hold j hj hjn).mp (hall j hj (by omega)), ?_⟩
    exact hnew.mp (hall s.numPath hpos (by omega))
  · rintro ⟨hall, hlast⟩ j hj hjn
    rcases (by omega : j < s.numPath ∨ j = s.numPath) with hlt | rfl
    · exact (hold j hj hlt).mpr (hall j hj hlt)
    · exact hnew.mpr hlast

/-! ## One call -/

/-- **Between two calls**: no waypoints lie ahead, and the last path ends at the current target. -/
structure Planner.Tracked (s : Planner) : Prop where
  fresh : s.Fresh
  numPath : 1 ≤ s.numPath
  finish : s.finish (s.numPath - 1) = s.pos s.lsttt

/-- A path that ends at the new target. -/
theorem Planner.Extends.tracked {s t : Planner} {p q : ℚ × ℚ} (h : s.Extends t p q) (hs : s.Fresh)
    (hend : q = t.pos t.lsttt) : t.Tracked := by
  have hnum := h.numPath
  refine ⟨h.fresh hs, by omega, ?_⟩
  rw [hnum, Nat.add_sub_cancel, h.finish, hend]

/-- Legs of more than 60 lead away from their start. -/
theorem ne_of_checkYaw {atan : ℚ → ℚ} {x0 y0 x1 y1 : ℤ} (h : checkYaw atan x0 y0 x1 y1 ≠ 0) :
    (x0, y0) ≠ (x1, y1) := by
  intro heq
  obtain ⟨rfl, rfl⟩ := Prod.mk.inj heq
  refine h (if_neg ?_)
  norm_num

/-- **`ACO_to_next` lays one path or two**, from the current target to the next one. -/
theorem acoToNext_extends (atan : ℚ → ℚ) {s : Planner} (h : s.Fresh) :
    s.Extends (acoToNext atan s) (s.pos s.lsttt)
        ((acoToNext atan s).pos (acoToNext atan s).lsttt) ∨
      ∃ m q, s.Extends m (s.pos s.lsttt) q ∧
        m.Extends (acoToNext atan s) q ((acoToNext atan s).pos (acoToNext atan s).lsttt) := by
  unfold acoToNext
  dsimp only
  generalize s.path 0 (s.pathClk + 1) = nxt
  by_cases h0 : checkYaw atan (s.px s.lsttt) (s.py s.lsttt) (s.px nxt) (s.py nxt) = 0
  · rw [if_pos h0]
    have hleg := Planner.leg_extends (s := { s with nxttt := nxt, pathClk := s.pathClk + 1 }) h
      (s.px s.lsttt) (s.py s.lsttt) (s.px nxt) (s.py nxt)
    refine Or.inl ⟨hleg.numPath, hleg.start, hleg.finish.trans ?_, hleg.other⟩
    simp [Planner.pos]
  rw [if_neg h0]
  have hne : nxt ≠ s.lsttt := fun heq => ne_of_checkYaw h0 (by rw [heq])
  by_cases h1 : checkYaw atan (s.px s.lsttt) (s.py s.lsttt) (s.px nxt) (s.py nxt) = 1
  · rw [if_pos h1]
    -- the corrected picture is not the one the car stands at
    simp only [Function.update_of_ne hne.symm, Function.update_self]
    have hleg := Planner.leg_extends (s := { s with
      nxttt := nxt, pathClk := s.pathClk + 1,
      py := Function.update s.py nxt (s.py nxt - yawDis) }) h
      (s.px s.lsttt) (s.py s.lsttt) (s.px nxt) (s.py nxt - yawDis)
    refine Or.inl ⟨hleg.numPath, hleg.start, hleg.finish.trans ?_, hleg.other⟩
    simp [Planner.pos]
  · rw [if_neg h1]
    generalize (if s.px nxt ≤ s.px s.lsttt then (20 : ℤ) else -20) = horiDis
    generalize (if s.px nxt ≤ s.px s.lsttt then (-8 : ℤ) else 8) = tmp
    have hleg := Planner.leg_extends (s := { s with nxttt := nxt, pathClk := s.pathClk + 1 }) h
      (s.px s.lsttt) (s.py s.lsttt) (s.px nxt + horiDis) (s.py nxt)
    have hleg' := Planner.leg_extends (hleg.fresh h) (s.px nxt + horiDis) (s.py nxt)
      (s.px nxt + tmp) (s.py nxt)
    refine Or.inr ⟨_, _, ⟨hleg.numPath, hleg.start, hleg.finish, hleg.other⟩, ?_⟩
    refine ⟨hleg'.numPath, hleg'.start, hleg'.finish.trans ?_, hleg'.other⟩
    simp [Planner.pos]

/-- **`ACO_to_next` keeps the trajectory connected.** -/
theorem acoToNext_connected (atan : ℚ → ℚ) {s : Planner} (h : s.Tracked) :
    (acoToNext atan s).Tracked ∧ ((acoToNext atan s).Connected ↔ s.Connected) := by
  obtain hone | ⟨m, q, hfirst, hsecond⟩ := acoToNext_extends atan h.fresh
  · refine ⟨hone.tracked h.fresh rfl, ?_⟩
    rw [hone.connected_iff h.numPath, h.finish]
    exact and_iff_left rfl
  · have hm := hfirst.fresh h.fresh
    have hnum := hfirst.numPath
    refine ⟨hsecond.tracked hm rfl, ?_⟩
    rw [hsecond.connected_iff (by omega), hfirst.connected_iff h.numPath, h.finish, hnum,
      Nat.add_sub_cancel, hfirst.finish, and_iff_left rfl]
    exact and_iff_left rfl

/-- **A leg to a bin** starts at point `n - 1`. -/
theorem acoToBin_extends (atan : ℚ → ℚ) (x y : ℤ) {s : Planner} (h : s.Fresh) (hn : 1 ≤ s.n) :
    s.Extends (acoToBin atan x y s) (s.pos (s.n - 1))
        ((acoToBin atan x y s).pos (acoToBin atan x y s).lsttt) ∧
      (acoToBin atan x y s).lsttt = s.n ∧ (acoToBin atan x y s).n = s.n + 1 := by
  have hne : s.n - 1 ≠ s.n := by omega
  unfold acoToBin
  dsimp only
  simp only [Function.update_of_ne hne, Function.update_self]
  by_cases h1 : checkYaw atan (s.px (s.n - 1)) (s.py (s.n - 1)) x y = 1
  · simp only [if_pos h1, Function.update_of_ne hne, Function.update_self]
    have hleg := Planner.leg_extends (s := { s with
      px := Function.update s.px s.n x, pxStd := Function.update s.pxStd s.n x
      py := Function.update (Function.update s.py s.n y) s.n (y - yawDis)
      pyStd := Function.update s.pyStd s.n y }) h
      (s.px (s.n - 1)) (s.py (s.n - 1)) x (y - yawDis)
    refine ⟨⟨hleg.numPath, hleg.start, hleg.finish.trans ?_, hleg.other⟩, by simp, by simp⟩
    simp [Planner.pos]
  · simp only [if_neg h1, Function.update_of_ne hne, Function.update_self]
    have hleg := Planner.leg_extends (s := { s with
      px := Function.update s.px s.n x, pxStd := Function.update s.pxStd s.n x
      py := Function.update s.py s.n y, pyStd := Function.update s.pyStd s.n y }) h
      (s.px (s.n - 1)) (s.py (s.n - 1)) x y
    refine ⟨⟨hleg.numPath, hleg.start, hleg.finish.trans ?_, hleg.other⟩, by simp, by simp⟩
    simp [Planner.pos]

/-- The car stands at point `n - 1`. -/
def Planner.AtLastPoint (s : Planner) : Prop :=
  s.px s.lsttt = s.px (s.n - 1) ∧ s.py s.lsttt = s.py (s.n - 1)

theorem Planner.atLastPoint_iff {s : Planner} (h : s.Tracked) :
    s.AtLastPoint ↔ s.pos (s.n - 1) = s.finish (s.numPath - 1) := by
  rw [h.finish, Planner.pos, Planner.pos, Prod.mk.injEq, Int.cast_inj, Int.cast_inj]
  exact ⟨fun h => ⟨h.1.symm, h.2.symm⟩, fun h => ⟨h.1.symm, h.2.symm⟩⟩

/-- **A call for a bin keeps the trajectory connected** exactly when the car stands at point `n -
1`, as it does after the call. -/
theorem acoToBin_connected (atan : ℚ → ℚ) (x y : ℤ) {s : Planner} (h : s.Tracked) (hn : 1 ≤ s.n) :
    (acoToBin atan x y s).Tracked ∧ (acoToBin atan x y s).AtLastPoint ∧
      ((acoToBin atan x y s).Connected ↔ s.Connected ∧ s.AtLastPoint) := by
  obtain ⟨hext, hlst, hcount⟩ := acoToBin_extends atan x y h.fresh hn
  refine ⟨hext.tracked h.fresh rfl, ?_, ?_⟩
  · rw [Planner.AtLastPoint, hlst, hcount, Nat.add_sub_cancel]
    exact ⟨rfl, rfl⟩
  · rw [hext.connected_iff h.numPath, Planner.atLastPoint_iff h]

/-- The three bins, one after the other: `ACO_to_R`, `ACO_to_T`, `ACO_to_L`. -/
def acoToBins (atan : ℚ → ℚ) (s : Planner) : Planner := acoToL atan (acoToT atan (acoToR atan s))

/-- **The legs to the bins** are connected among each other; only the first can miss its start. -/
theorem acoToBins_connected (atan : ℚ → ℚ) {s : Planner} (h : s.Tracked) (hn : 1 ≤ s.n) :
    (acoToBins atan s).Connected ↔ s.Connected ∧ s.AtLastPoint := by
  obtain ⟨hR, hRlast, hRconn⟩ := acoToBin_connected atan 725 460 h hn
  have hRcount := (acoToBin_extends atan 725 460 h.fresh hn).2.2
  have hR' : (acoToR atan s).Tracked := ⟨hR.fresh, hR.numPath, hR.finish⟩
  have hRn : 1 ≤ (acoToR atan s).n := by
    show 1 ≤ (acoToBin atan 725 460 s).n
    omega
  obtain ⟨hT, hTlast, hTconn⟩ := acoToBin_connected atan 465 500 hR' hRn
  have hTcount := (acoToBin_extends atan 465 500 hR'.fresh hRn).2.2
  obtain ⟨-, -, hLconn⟩ := acoToBin_connected atan (-10) 400 hT (by omega)
  have hRsame : (acoToR atan s).Connected ↔ (acoToBin atan 725 460 s).Connected := Iff.rfl
  calc (acoToBins atan s).Connected
      ↔ (acoToT atan (acoToR atan s)).Connected ∧ (acoToT atan (acoToR atan s)).AtLastPoint :=
        hLconn
    _ ↔ (acoToT atan (acoToR atan s)).Connected := and_iff_left hTlast
    _ ↔ (acoToR atan s).Connected ∧ (acoToR atan s).AtLastPoint := hTconn
    _ ↔ (acoToR atan s).Connected := and_iff_left hRlast
    _ ↔ s.Connected ∧ s.AtLastPoint := hRsame.trans hRconn

/-! ## Runs -/

/-- `ACO_to_first` starts a trajectory. -/
theorem Planner.toFirst_tracked {t : Planner} (h : t.Fresh) (hnum : t.numPath = 0) (route : ℕ → ℕ)
    (calls : ℕ) : (t.toFirst route calls).Tracked ∧ (t.toFirst route calls).Connected := by
  have hone : (t.toFirst route calls).numPath = 1 := by
    simp [Planner.toFirst, hnum]
  refine ⟨?_, fun j hj hjn => by omega⟩
  have hleg := Planner.leg_extends (s := { t with
    calls, path := fun t' k => if t' = 0 then route k else t.path t' k
    lsttt := route t.pathClk, lstttt := 0
    vis := Function.update t.vis (route t.pathClk) true
    py := Function.update t.py (route t.pathClk) (t.py (route t.pathClk) + 10) }) h 0 0
    (t.px (route t.pathClk)) (Function.update t.py (route t.pathClk) (t.py (route t.pathClk) + 10)
      (route t.pathClk))
  exact hleg.tracked h (by simp [Planner.pos])

/-- After `ACO_to_first` and `k` calls of `ACO_to_next` the legs are connected. -/
theorem iterate_acoToNext_connected (atan : ℚ → ℚ) {s : Planner} (h : s.Tracked) (hc : s.Connected)
    (k : ℕ) : ((acoToNext atan)^[k] s).Tracked ∧ ((acoToNext atan)^[k] s).Connected := by
  induction k with
  | zero => exact ⟨h, hc⟩
  | succ k ih =>
      rw [Function.iterate_succ_apply']
      obtain ⟨htracked, hconn⟩ := acoToNext_connected atan ih.1
      exact ⟨htracked, hconn.mpr ih.2⟩

/-- The run of a mission up to the bins, from the state before the first call. -/
theorem Planner.Boot.run_connected_iff {s₀ : Planner} (h : s₀.Boot) (atan : ℚ → ℚ)
    (rand : ℕ → ℕ) :
    ∃ t s₁, loadTour rand s₀ = some t ∧
      s₁ = t.toFirst (fun k => t.path 0 (t.drawn rand k)) (t.calls + 13) ∧
      acoToFirst rand s₀ = some s₁ ∧
      ∀ k, (acoToBins atan ((acoToNext atan)^[k] s₁)).Connected ↔
        ((acoToNext atan)^[k] s₁).AtLastPoint := by
  obtain ⟨t, ht, -, -, hn, htot, hnum, -⟩ := h.loadTour_yields rand
  rw [h.numPath] at hnum
  have hfresh : t.Fresh := fun j _ => by rw [htot]; exact h.pathTot j
  obtain ⟨htracked, hconn⟩ := Planner.toFirst_tracked hfresh hnum
    (fun k => t.path 0 (t.drawn rand k)) (t.calls + 13)
  refine ⟨t, _, ht, rfl, acoToFirst_eq rand ht, fun k => ?_⟩
  obtain ⟨hk, hck⟩ := iterate_acoToNext_connected atan htracked hconn k
  have hcount : ((acoToNext atan)^[k]
      (t.toFirst (fun k => t.path 0 (t.drawn rand k)) (t.calls + 13))).n = s₀.picNum := by
    rw [(iterate_acoToNext_target atan (by simp [Planner.toFirst]) k).2.2.2]
    simpa [Planner.toFirst] using hn
  rw [acoToBins_connected atan hk (by rw [hcount]; exact h.picNum_pos)]
  exact and_iff_right hck

/-- **When the legs of a run form one trajectory.** From the state before the first call, after
`ACO_to_first`, any number of calls of `ACO_to_next` and the calls for the three bins: exactly when
`ACO_to_R` is called with the car at point `n - 1`. -/
theorem acoRun_connected_iff (atan : ℚ → ℚ) (rand : ℕ → ℕ) (s₀ : Planner) (h : s₀.Boot) :
    ∃ s₁, acoToFirst rand s₀ = some s₁ ∧
      ∀ k < s₀.picNum, (acoToBins atan ((acoToNext atan)^[k] s₁)).Connected ↔
        ((acoToNext atan)^[k] s₁).AtLastPoint := by
  obtain ⟨-, s₁, -, -, hs₁, hiff⟩ := h.run_connected_iff atan rand
  exact ⟨s₁, hs₁, fun k _ => hiff k⟩

/-- The first target when the shuffle draws an empty entry for it: picture 0. -/
theorem Planner.Boot.first_target_zero {s₀ t : Planner} (h : s₀.Boot) {rand : ℕ → ℕ}
    (ht : loadTour rand s₀ = some t) (hdraw : s₀.picNum < t.drawn rand 1) (calls : ℕ) :
    (t.toFirst (fun k => t.path 0 (t.drawn rand k)) calls).lsttt = 0 ∧
      (t.toFirst (fun k => t.path 0 (t.drawn rand k)) calls).n = s₀.picNum ∧
      (t.toFirst (fun k => t.path 0 (t.drawn rand k)) calls).px = s₀.load.px := by
  obtain ⟨hpx, -, hn, -, -, hclk, -, -, hempty⟩ := (h.loadTour_yields rand).of_eq_some ht
  rw [h.pathClk] at hclk
  refine ⟨?_, by simpa [Planner.toFirst] using hn, by simpa [Planner.toFirst] using hpx⟩
  simpa [Planner.toFirst, hclk] using hempty _ hdraw

/-- The second draw of a constant `c`, when it lands on a free place. -/
theorem Planner.drawn_one (t : Planner) {c : ℕ} (hc : c % 13 ≠ 0) :
    t.drawn (fun _ => c) 1 = (c % 13 + c % 13) % 13 := by
  have hsize : 13 ≤ tableSize := le_rfl
  have hfirst : place (fun _ => c) t.calls 13 0 = c % 13 :=
    place_zero (fun _ => c) (by decide) hsize t.calls
  have hland : landing (fun _ => c) t.calls 13 (place (fun _ => c) t.calls 13) 1 =
      (c % 13 + c % 13) % 13 := by
    rw [landing, if_neg Nat.one_ne_zero, Nat.sub_self, hfirst]
  rw [Planner.drawn, place_eq_landing (fun _ => c) (by decide) hsize t.calls (by decide), hland]
  intro j hj
  obtain rfl : j = 0 := by omega
  rw [hfirst, hland]
  omega

/-- With one picture and every result of `rand()` 1, the legs are connected. -/
theorem connected_onePicture :
    ∃ s₁, acoToFirst (fun _ => 1) (.boot [(16, 14)]) = some s₁ ∧
      (acoToBins (fun x => x) s₁).Connected := by
  have hboot : (Planner.boot [(16, 14)]).Boot :=
    ⟨by decide, by decide, by decide, fun _ _ => rfl, fun _ => rfl, rfl, rfl⟩
  obtain ⟨s₁, hs₁, hiff⟩ := acoRun_connected_iff (fun x => x) (fun _ => 1) _ hboot
  refine ⟨s₁, hs₁, (hiff 0 (by decide)).mpr ?_⟩
  obtain ⟨t, ht, -⟩ := hboot.loadTour_yields fun _ => 1
  obtain rfl := Option.some.inj ((acoToFirst_eq _ ht).symm.trans hs₁)
  have hdraw : (Planner.boot [(16, 14)]).picNum < t.drawn (fun _ => 1) 1 := by
    rw [t.drawn_one (by decide)]
    decide
  obtain ⟨hlst, hn, -⟩ := hboot.first_target_zero ht hdraw (t.calls + 13)
  show Planner.AtLastPoint (t.toFirst _ _)
  rw [Planner.AtLastPoint, hlst, hn]
  exact ⟨rfl, rfl⟩

/-- **The leg to the first bin starts at the wrong picture**: with two pictures and every result of
`rand()` 2, `ACO_to_R` is called with the car at picture 0 and plans from picture 1. -/
theorem twoPictures_disconnected :
    ¬ ∀ (atan : ℚ → ℚ) (rand : ℕ → ℕ) (s₀ : Planner), s₀.Boot →
      ∃ s₁, acoToFirst rand s₀ = some s₁ ∧
        ∀ k < s₀.picNum, (acoToBins atan ((acoToNext atan)^[k] s₁)).Connected := by
  intro h
  have hboot : (Planner.boot [(1, 1), (30, 20)]).Boot :=
    ⟨by decide, by decide, by decide, fun _ _ => rfl, fun _ => rfl, rfl, rfl⟩
  obtain ⟨s₁, hs₁, hconn⟩ := h (fun x => x) (fun _ => 2) _ hboot
  obtain ⟨t, s, ht, rfl, hs, hiff⟩ := hboot.run_connected_iff (fun x => x) (fun _ => 2)
  obtain rfl := Option.some.inj (hs.symm.trans hs₁)
  have hdraw : (Planner.boot [(1, 1), (30, 20)]).picNum < t.drawn (fun _ => 2) 1 := by
    rw [t.drawn_one (by decide)]
    decide
  obtain ⟨hlst, hn, hpx⟩ := hboot.first_target_zero ht hdraw (t.calls + 13)
  have hlast := ((hiff 0).mp (hconn 0 (by decide))).1
  simp only [Function.iterate_zero, id_eq] at hlast
  rw [hlst, hn, hpx] at hlast
  exact absurd hlast (by decide)

end HandlingRobot
