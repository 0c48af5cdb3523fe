import HandlingRobot.Library.Enclosure
import HandlingRobot.Vision.Flood
import Mathlib.Algebra.Order.Group.Int
import Mathlib.Tactic.Linarith
import Mathlib.Tactic.Ring

/-! # Drawing a line

`line_` draws a line with steps to one of the eight neighbours. A line that is steep has exactly one
pixel in each of its rows, and a flat line has one in each of its columns.

* **`Pen.move`**, **`line_`** — the drawing.
* **`rise`** — how far a steep line has come sideways after `k` rows, rounded half up.
* **`Pen.move_steep`** — the variables after `k` rows.
* **`line_steep`**, **`line_flat`** — the pixels that are drawn, as a `Fence`. -/

namespace HandlingRobot

/-! ## The drawing -/

/-- The variables of `line_` that change. They are `int`, and so is `2 * err`, which is in range for
extents below 2 to the 30th; the end points that the code passes are corners on the frame, or fewer
than 10 pixels off it. -/
structure Pen where
  i0 : ℤ
  j0 : ℤ
  err : ℤ

/-- The two steps at the end of the loop; both tests read the same `e2`. -/
def Pen.move (dx dy sx sy : ℤ) (p : Pen) : Pen :=
  let e2 := 2 * p.err
  let p := if e2 ≥ dy then { p with err := p.err + dy, i0 := p.i0 + sx } else p
  if e2 ≤ dx then { p with err := p.err + dx, j0 := p.j0 + sy } else p

/-- `img_origin[i][j] = 1`. -/
def plot (f : Frame) (i j : ℤ) : Frame := fun x y => if x = i ∧ y = j then 1 else f x y

/-- The loop of `line_`, for at most `fuel` pixels. -/
def lineLoop (i1 j1 dx dy sx sy : ℤ) : ℕ → Pen → Frame → Option Frame
  | 0, _, _ => none
  | fuel + 1, p, f =>
      let f := plot f p.i0 p.j0
      if p.i0 = i1 ∧ p.j0 = j1 then some f
      else lineLoop i1 j1 dx dy sx sy fuel (p.move dx dy sx sy) f

/-- The direction from `a` to `b`. -/
def sign (a b : ℤ) : ℤ := if a < b then 1 else -1

/-- **`line_(i0, j0, i1, j1)`**; `none` when the fuel does not last. -/
def line_ (fuel : ℕ) (i0 j0 i1 j1 : ℤ) (f : Frame) : Option Frame :=
  let dx := |i1 - i0|
  let dy := -|j1 - j0|
  lineLoop i1 j1 dx dy (sign i0 i1) (sign j0 j1) fuel ⟨i0, j0, dx + dy⟩ f

theorem sign_eq (a b : ℤ) : sign a b = 1 ∨ sign a b = -1 := by
  unfold sign
  split_ifs
  · exact Or.inl rfl
  · exact Or.inr rfl

theorem sign_mul_abs (a b : ℤ) : sign a b * |b - a| = b - a := by
  unfold sign
  split_ifs with h
  · rw [abs_of_pos (by omega), one_mul]
  · rw [abs_of_nonpos (by omega)]
    ring

/-! ## The way sideways -/

/-- **The way sideways** after `k` of `D` rows, when the whole line goes `d` sideways. -/
def rise (d D k : ℤ) : ℤ := (2 * k * d + D) / (2 * D)

theorem rise_eq_iff {d D k a : ℤ} (hD : 0 < D) :
    rise d D k = a ↔ 2 * (D * a) ≤ 2 * (k * d) + D ∧ 2 * (k * d) + D < 2 * (D * a) + 2 * D := by
  unfold rise
  rw [Int.ediv_eq_iff_of_pos (by omega)]
  constructor
  · rintro ⟨h1, h2⟩
    constructor <;> linarith
  · rintro ⟨h1, h2⟩
    constructor <;> linarith

/-- The bounds of the quotient. -/
theorem rise_spec (d k : ℤ) {D : ℤ} (hD : 0 < D) :
    2 * (D * rise d D k) ≤ 2 * (k * d) + D ∧ 2 * (k * d) + D < 2 * (D * rise d D k) + 2 * D :=
  (rise_eq_iff hD).mp rfl

theorem rise_zero (d : ℤ) {D : ℤ} (hD : 0 < D) : rise d D 0 = 0 := by
  rw [rise_eq_iff hD]
  constructor <;> linarith

theorem rise_self (d : ℤ) {D : ℤ} (hD : 0 < D) : rise d D D = d := by
  rw [rise_eq_iff hD]
  constructor <;> linarith

/-- **One more row** goes one step sideways, or none, as the error tells. -/
theorem rise_succ {d D k : ℤ} (hd : 0 ≤ d) (hdD : d ≤ D) (hD : 0 < D) :
    rise d D (k + 1) =
      if 2 * (d - D + k * d - rise d D k * D) ≥ -D then rise d D k + 1 else rise d D k := by
  obtain ⟨hlo, hhi⟩ := rise_spec d k hD
  rw [rise_eq_iff hD]
  split_ifs with h
  · constructor <;> nlinarith
  · constructor <;> nlinarith

theorem rise_succ_bounds {d D : ℤ} (k : ℤ) (hd : 0 ≤ d) (hdD : d ≤ D) (hD : 0 < D) :
    rise d D k ≤ rise d D (k + 1) ∧ rise d D (k + 1) ≤ rise d D k + 1 := by
  rw [rise_succ hd hdD hD]
  split_ifs <;> omega

theorem rise_bounds {d D k : ℤ} (hd : 0 ≤ d) (hD : 0 < D) (h0 : 0 ≤ k) (hk : k ≤ D) :
    0 ≤ rise d D k ∧ rise d D k ≤ d := by
  unfold rise
  have hkd : 0 ≤ k * d := mul_nonneg h0 hd
  have hkD : k * d ≤ D * d := mul_le_mul_of_nonneg_right hk hd
  constructor
  · exact Int.ediv_nonneg (by linarith) (by omega)
  · rw [← Int.lt_add_one_iff, Int.ediv_lt_iff_lt_mul (by omega)]
    linarith

/-! ## A steep line -/

/-- The variables after `k` rows of a steep line. -/
def steepPen (i0 j0 d D sx sy k : ℤ) : Pen :=
  ⟨i0 + sx * rise d D k, j0 + sy * k, d - D + k * d - rise d D k * D⟩

/-- **Every step of a steep line goes to the next row.** -/
theorem Pen.move_steep (i0 j0 sx sy k : ℤ) {d D : ℤ} (hd : 0 ≤ d) (hdD : d ≤ D) (hD : 0 < D) :
    (steepPen i0 j0 d D sx sy k).move d (-D) sx sy = steepPen i0 j0 d D sx sy (k + 1) := by
  have hhi := (rise_spec d k hD).2
  have hrow : 2 * (d - D + k * d - rise d D k * D) ≤ d := by linarith [mul_comm D (rise d D k)]
  unfold Pen.move steepPen
  rw [rise_succ hd hdD hD]
  dsimp only
  rw [if_pos hrow]
  by_cases hside : 2 * (d - D + k * d - rise d D k * D) ≥ -D
  · rw [if_pos hside, if_pos hside, Pen.mk.injEq]
    exact ⟨by ring, by ring, by ring⟩
  · rw [if_neg hside, if_neg hside, Pen.mk.injEq]
    exact ⟨rfl, by ring, by ring⟩

/-- The pixel `(x, y)` is one of the rows from `k` on. -/
def DrawnFrom (i0 j0 d D sx sy k x y : ℤ) : Prop :=
  k ≤ sy * (y - j0) ∧ sy * (y - j0) ≤ D ∧ x = i0 + sx * rise d D (sy * (y - j0))

instance (i0 j0 d D sx sy k x y : ℤ) : Decidable (DrawnFrom i0 j0 d D sx sy k x y) :=
  inferInstanceAs (Decidable (_ ∧ _ ∧ _))

/-- The first of the rows from `k` on. -/
theorem drawnFrom_iff (i0 j0 d sx x y : ℤ) {D sy k : ℤ} (hsy : sy = 1 ∨ sy = -1) (hk : k ≤ D) :
    DrawnFrom i0 j0 d D sx sy k x y ↔
      (x = i0 + sx * rise d D k ∧ y = j0 + sy * k) ∨ DrawnFrom i0 j0 d D sx sy (k + 1) x y := by
  unfold DrawnFrom
  have hrow : sy * (y - j0) = k ↔ y = j0 + sy * k := by
    rcases hsy with rfl | rfl <;> omega
  constructor
  · rintro ⟨hfrom, hto, hx⟩
    by_cases heq : sy * (y - j0) = k
    · exact Or.inl ⟨heq ▸ hx, hrow.mp heq⟩
    · exact Or.inr ⟨by omega, hto, hx⟩
  · rintro (⟨hx, hy⟩ | ⟨hfrom, hto, hx⟩)
    · rw [hrow.mpr hy]
      exact ⟨le_refl k, hk, hx⟩
    · exact ⟨by omega, hto, hx⟩

/-- **The loop draws the rows that are left.** -/
theorem lineLoop_steep (i0 j0 sx : ℤ) {d D sy : ℤ} (hd : 0 ≤ d) (hdD : d ≤ D) (hD : 0 < D)
    (hsy : sy = 1 ∨ sy = -1) (n : ℕ) :
    ∀ (k : ℤ) (f : Frame) (fuel : ℕ), k + n = D → n < fuel →
      lineLoop (i0 + sx * d) (j0 + sy * D) d (-D) sx sy fuel (steepPen i0 j0 d D sx sy k) f =
        some fun x y => if DrawnFrom i0 j0 d D sx sy k x y then 1 else f x y := by
  -- by induction on the rows that are left
  induction n with
  | zero =>
      intro k f fuel hk hfuel
      obtain ⟨m, rfl⟩ := Nat.exists_eq_add_of_le' hfuel
      obtain rfl : k = D := by omega
      rw [lineLoop]
      have hend : (steepPen i0 j0 d k sx sy k).i0 = i0 + sx * d ∧
          (steepPen i0 j0 d k sx sy k).j0 = j0 + sy * k := by
        unfold steepPen
        rw [rise_self d hD]
        exact ⟨rfl, rfl⟩
      rw [if_pos hend, hend.1, hend.2]
      refine congrArg some (funext fun x => funext fun y => if_congr ?_ rfl rfl)
      rw [drawnFrom_iff _ _ _ _ _ _ hsy (le_refl k), rise_self d hD]
      constructor
      · exact Or.inl
      · rintro (h | ⟨hfrom, hto, -⟩)
        · exact h
        · omega
  | succ n ih =>
      intro k f fuel hk hfuel
      obtain ⟨m, rfl⟩ := Nat.exists_eq_add_of_le' (Nat.zero_lt_of_lt hfuel)
      rw [lineLoop]
      have hgo : ¬ ((steepPen i0 j0 d D sx sy k).i0 = i0 + sx * d ∧
          (steepPen i0 j0 d D sx sy k).j0 = j0 + sy * D) := by
        rintro ⟨-, hrow⟩
        have hrow' : j0 + sy * k = j0 + sy * D := hrow
        rcases hsy with rfl | rfl <;> omega
      rw [if_neg hgo, Pen.move_steep i0 j0 sx sy k hd hdD hD, ih (k + 1) _ m (by omega) (by omega)]
      refine congrArg some (funext fun x => funext fun y => ?_)
      -- the row drawn now comes in front of the others
      have hfirst := drawnFrom_iff i0 j0 d sx x y hsy (show k ≤ D by omega)
      by_cases hrest : DrawnFrom i0 j0 d D sx sy (k + 1) x y
      · rw [if_pos hrest, if_pos (hfirst.mpr (Or.inr hrest))]
      · rw [if_neg hrest]
        exact if_congr (by rw [hfirst, or_iff_left hrest]; rfl) rfl rfl

/-! ## The line as a fence -/

/-- A row of the line, or its first or last one. -/
def clampRow (D k : ℤ) : ℤ := max 0 (min D k)

theorem rise_clampRow_succ {d D : ℤ} (k : ℤ) (hd : 0 ≤ d) (hdD : d ≤ D) (hD : 0 < D) :
    rise d D (clampRow D k) ≤ rise d D (clampRow D (k + 1)) ∧
      rise d D (clampRow D (k + 1)) ≤ rise d D (clampRow D k) + 1 := by
  have hcases : clampRow D (k + 1) = clampRow D k ∨ clampRow D (k + 1) = clampRow D k + 1 := by
    unfold clampRow
    omega
  rcases hcases with heq | heq
  · rw [heq]
    omega
  · rw [heq]
    exact rise_succ_bounds _ hd hdD hD

/-- A line is steep. -/
structure Steep (i0 j0 i1 j1 : ℤ) : Prop where
  le : |i1 - i0| ≤ |j1 - j0|
  pos : 0 < |j1 - j0|

/-- **The column of a steep line** in every row, constant beyond its ends. -/
def columnAt (i0 j0 i1 j1 t : ℤ) : ℤ :=
  i0 + sign i0 i1 * rise |i1 - i0| |j1 - j0| (clampRow |j1 - j0| (sign j0 j1 * (t - j0)))

theorem Steep.columnAt_succ {i0 j0 i1 j1 : ℤ} (h : Steep i0 j0 i1 j1) (t : ℤ) :
    columnAt i0 j0 i1 j1 (t + 1) ≤ columnAt i0 j0 i1 j1 t + 1 ∧
      columnAt i0 j0 i1 j1 t ≤ columnAt i0 j0 i1 j1 (t + 1) + 1 := by
  unfold columnAt
  obtain hsy | hsy := sign_eq j0 j1
  · have hrow : sign j0 j1 * (t + 1 - j0) = sign j0 j1 * (t - j0) + 1 := by rw [hsy]; ring
    have hbounds := rise_clampRow_succ (sign j0 j1 * (t - j0)) (abs_nonneg _) h.le h.pos
    rw [hrow]
    obtain hsx | hsx := sign_eq i0 i1 <;> rw [hsx] <;> omega
  · have hrow : sign j0 j1 * (t - j0) = sign j0 j1 * (t + 1 - j0) + 1 := by rw [hsy]; ring
    have hbounds := rise_clampRow_succ (sign j0 j1 * (t + 1 - j0)) (abs_nonneg _) h.le h.pos
    rw [← hrow] at hbounds
    obtain hsx | hsx := sign_eq i0 i1 <;> rw [hsx] <;> omega

/-- The rows of a line, counted from its start. -/
theorem sign_mul_sub_cases (j0 j1 : ℤ) :
    (sign j0 j1 = 1 ∧ |j1 - j0| = j1 - j0 ∧ j0 < j1) ∨
      (sign j0 j1 = -1 ∧ |j1 - j0| = j0 - j1 ∧ j1 ≤ j0) := by
  unfold sign
  split_ifs with h
  · exact Or.inl ⟨rfl, abs_of_pos (by omega), h⟩
  · refine Or.inr ⟨rfl, ?_, by omega⟩
    rw [abs_of_nonpos (by omega)]
    omega

theorem columnAt_start {i0 j0 i1 j1 : ℤ} (h : Steep i0 j0 i1 j1) :
    columnAt i0 j0 i1 j1 j0 = i0 := by
  have hpos := h.pos
  have hrow : clampRow |j1 - j0| (sign j0 j1 * (j0 - j0)) = 0 := by
    rw [sub_self, mul_zero]
    unfold clampRow
    omega
  rw [columnAt, hrow, rise_zero _ h.pos, mul_zero, add_zero]

theorem columnAt_end {i0 j0 i1 j1 : ℤ} (h : Steep i0 j0 i1 j1) :
    columnAt i0 j0 i1 j1 j1 = i1 := by
  have hrow : clampRow |j1 - j0| (sign j0 j1 * (j1 - j0)) = |j1 - j0| := by
    obtain ⟨hs, habs, hlt⟩ | ⟨hs, habs, hle⟩ := sign_mul_sub_cases j0 j1
    all_goals
      rw [hs, habs]
      unfold clampRow
      omega
  rw [columnAt, hrow, rise_self _ h.pos, sign_mul_abs]
  ring

/-- A line stays between the columns of its ends. -/
theorem Steep.columnAt_mem {i0 j0 i1 j1 : ℤ} (h : Steep i0 j0 i1 j1) (t : ℤ) :
    min i0 i1 ≤ columnAt i0 j0 i1 j1 t ∧ columnAt i0 j0 i1 j1 t ≤ max i0 i1 := by
  have hpos := h.pos
  obtain ⟨h0, hd⟩ := rise_bounds (d := |i1 - i0|) (D := |j1 - j0|)
    (k := clampRow |j1 - j0| (sign j0 j1 * (t - j0))) (abs_nonneg _) h.pos
    (by unfold clampRow; omega) (by unfold clampRow; omega)
  unfold columnAt
  obtain ⟨hs, habs, hlt⟩ | ⟨hs, habs, hle⟩ := sign_mul_sub_cases i0 i1
  · rw [hs]
    omega
  · rw [hs]
    omega

/-- **The pixels of a steep line.** -/
def Steep.fence {i0 j0 i1 j1 : ℤ} (h : Steep i0 j0 i1 j1) : Fence where
  lo := min j0 j1
  hi := max j0 j1
  pos := columnAt i0 j0 i1 j1
  pos_succ_le t := (h.columnAt_succ t).1
  pos_le_succ t := (h.columnAt_succ t).2
  pos_below t ht := by
    have hrow : clampRow |j1 - j0| (sign j0 j1 * (t - j0)) =
        clampRow |j1 - j0| (sign j0 j1 * (min j0 j1 - j0)) := by
      obtain ⟨hs, habs, hlt⟩ | ⟨hs, habs, hle⟩ := sign_mul_sub_cases j0 j1
      all_goals
        rw [hs, habs]
        unfold clampRow
        omega
    unfold columnAt
    rw [hrow]
  pos_above t ht := by
    have hrow : clampRow |j1 - j0| (sign j0 j1 * (t - j0)) =
        clampRow |j1 - j0| (sign j0 j1 * (max j0 j1 - j0)) := by
      obtain ⟨hs, habs, hlt⟩ | ⟨hs, habs, hle⟩ := sign_mul_sub_cases j0 j1
      all_goals
        rw [hs, habs]
        unfold clampRow
        omega
    unfold columnAt
    rw [hrow]

/-- **A steep line is drawn pixel by pixel as its fence.** -/
theorem line_steep {i0 j0 i1 j1 : ℤ} (h : Steep i0 j0 i1 j1) (f : Frame) {fuel : ℕ}
    (hfuel : |j1 - j0| < fuel) :
    line_ fuel i0 j0 i1 j1 f = some fun x y => if h.fence.Covers y x then 1 else f x y := by
  have hpen : (⟨i0, j0, |i1 - i0| + -|j1 - j0|⟩ : Pen) =
      steepPen i0 j0 |i1 - i0| |j1 - j0| (sign i0 i1) (sign j0 j1) 0 := by
    rw [steepPen, rise_zero _ h.pos, Pen.mk.injEq]
    exact ⟨by ring, by ring, by ring⟩
  have hi1 : i0 + sign i0 i1 * |i1 - i0| = i1 := by rw [sign_mul_abs]; ring
  have hj1 : j0 + sign j0 j1 * |j1 - j0| = j1 := by rw [sign_mul_abs]; ring
  have hloop := lineLoop_steep i0 j0 (sign i0 i1) (abs_nonneg (i1 - i0)) h.le h.pos (sign_eq j0 j1)
    |j1 - j0|.toNat 0 f fuel (by have hpos := h.pos; omega) (by have hpos := h.pos; omega)
  rw [hi1, hj1] at hloop
  unfold line_
  dsimp only
  rw [hpen, hloop]
  refine congrArg some (funext fun x => funext fun y => if_congr ?_ rfl rfl)
  -- the rows are those between the ends
  have hrows : (0 ≤ sign j0 j1 * (y - j0) ∧ sign j0 j1 * (y - j0) ≤ |j1 - j0|) ↔
      min j0 j1 ≤ y ∧ y ≤ max j0 j1 := by
    obtain ⟨hs, habs, hlt⟩ | ⟨hs, habs, hle⟩ := sign_mul_sub_cases j0 j1
    all_goals
      rw [hs, habs]
      omega
  have hclamp : 0 ≤ sign j0 j1 * (y - j0) ∧ sign j0 j1 * (y - j0) ≤ |j1 - j0| →
      clampRow |j1 - j0| (sign j0 j1 * (y - j0)) = sign j0 j1 * (y - j0) := by
    unfold clampRow
    omega
  constructor
  · rintro ⟨hfrom, hto, hx⟩
    refine ⟨(hrows.mp ⟨hfrom, hto⟩).1, (hrows.mp ⟨hfrom, hto⟩).2, ?_⟩
    show columnAt i0 j0 i1 j1 y = x
    rw [columnAt, hclamp ⟨hfrom, hto⟩, hx]
  · rintro ⟨hlo, hhi, hx⟩
    have hrow := hrows.mpr ⟨hlo, hhi⟩
    refine ⟨hrow.1, hrow.2, ?_⟩
    have hx' : columnAt i0 j0 i1 j1 y = x := hx
    rw [← hx', columnAt, hclamp hrow]

/-- A steep line joins its ends. -/
theorem Steep.joins {a b : Pixel} (h : Steep a.1 a.2 b.1 b.2) :
    (a.2 < b.2 → h.fence.Joins a b) ∧ (b.2 < a.2 → h.fence.Joins b a) := by
  constructor
  · intro hlt
    refine ⟨min_eq_left hlt.le, max_eq_right hlt.le, columnAt_start h, columnAt_end h, fun t => ?_⟩
    exact h.columnAt_mem t
  · intro hlt
    refine ⟨min_eq_right hlt.le, max_eq_left hlt.le, columnAt_end h, columnAt_start h, fun t => ?_⟩
    rw [min_comm, max_comm]
    exact h.columnAt_mem t

/-! ## A flat line -/

/-- The axes exchanged. -/
def Pen.transpose (p : Pen) : Pen := ⟨p.j0, p.i0, -p.err⟩

/-- The drawing treats both axes alike. -/
theorem Pen.move_transpose (dx dy sx sy : ℤ) (p : Pen) :
    p.transpose.move (-dy) (-dx) sy sx = (p.move dx dy sx sy).transpose := by
  unfold Pen.move Pen.transpose
  dsimp only
  by_cases hi : 2 * p.err ≥ dy
  · by_cases hj : 2 * p.err ≤ dx
    · rw [if_pos hi, if_pos (by omega : 2 * -p.err ≥ -dx), if_pos hj, if_pos (by omega),
        Pen.mk.injEq]
      exact ⟨rfl, rfl, by ring⟩
    · rw [if_pos hi, if_neg (by omega : ¬ 2 * -p.err ≥ -dx), if_neg hj, if_pos (by omega),
        Pen.mk.injEq]
      exact ⟨rfl, rfl, by ring⟩
  · by_cases hj : 2 * p.err ≤ dx
    · rw [if_neg hi, if_pos (by omega : 2 * -p.err ≥ -dx), if_pos hj, if_neg (by omega),
        Pen.mk.injEq]
      exact ⟨rfl, rfl, by ring⟩
    · rw [if_neg hi, if_neg (by omega : ¬ 2 * -p.err ≥ -dx), if_neg hj, if_neg (by omega)]

theorem lineLoop_transpose (i1 j1 dx dy sx sy : ℤ) (fuel : ℕ) :
    ∀ (p : Pen) (f : Frame), lineLoop i1 j1 dx dy sx sy fuel p f =
      (lineLoop j1 i1 (-dy) (-dx) sy sx fuel p.transpose (flip f)).map flip := by
  induction fuel with
  | zero => exact fun _ _ => rfl
  | succ fuel ih =>
      intro p f
      have hplot : plot (flip f) p.j0 p.i0 = flip (plot f p.i0 p.j0) := by
        funext x y
        exact if_congr and_comm rfl rfl
      rw [lineLoop, lineLoop]
      show _ = Option.map flip (if p.j0 = j1 ∧ p.i0 = i1 then some (plot (flip f) p.j0 p.i0) else
        lineLoop j1 i1 (-dy) (-dx) sy sx fuel (p.transpose.move (-dy) (-dx) sy sx)
          (plot (flip f) p.j0 p.i0))
      rw [hplot, Pen.move_transpose]
      by_cases hend : p.i0 = i1 ∧ p.j0 = j1
      · rw [if_pos hend, if_pos hend.symm]
        rfl
      · rw [if_neg hend, if_neg fun h => hend h.symm]
        exact ih _ _

/-- **A line with the axes exchanged.** -/
theorem line_transpose (fuel : ℕ) (i0 j0 i1 j1 : ℤ) (f : Frame) :
    line_ fuel i0 j0 i1 j1 f = (line_ fuel j0 i0 j1 i1 (flip f)).map flip := by
  unfold line_
  dsimp only
  rw [lineLoop_transpose, neg_neg]
  have hpen : (⟨i0, j0, |i1 - i0| + -|j1 - j0|⟩ : Pen).transpose =
      ⟨j0, i0, |j1 - j0| + -|i1 - i0|⟩ := by
    rw [Pen.transpose, Pen.mk.injEq]
    exact ⟨rfl, rfl, by ring⟩
  rw [hpen]

/-- **A flat line** is drawn as the fence of the line with the axes exchanged. -/
theorem line_flat {i0 j0 i1 j1 : ℤ} (h : Steep j0 i0 j1 i1) (f : Frame) {fuel : ℕ}
    (hfuel : |i1 - i0| < fuel) :
    line_ fuel i0 j0 i1 j1 f = some fun x y => if h.fence.Covers x y then 1 else f x y := by
  rw [line_transpose, line_steep h (flip f) hfuel]
  rfl

/-! ## The pixels of a line -/

/-- `line_` from `a` to `b` draws the pixel `q`. -/
def OnSegment (a b q : Pixel) : Prop :=
  ∃ N, ∀ fuel, N ≤ fuel → ∃ g, line_ fuel a.1 a.2 b.1 b.2 (fun _ _ => 0) = some g ∧ g q.1 q.2 = 1

/-- What is drawn does not depend on the fuel, once it lasts. -/
theorem onSegment_iff {a b q : Pixel} {P : Prop} [Decidable P] {N : ℕ} {g : Frame}
    (hrun : ∀ fuel, N ≤ fuel → line_ fuel a.1 a.2 b.1 b.2 (fun _ _ => 0) = some g)
    (hg : g q.1 q.2 = if P then 1 else 0) : OnSegment a b q ↔ P := by
  constructor
  · rintro ⟨M, hM⟩
    obtain ⟨g', hg', hq⟩ := hM (max M N) (le_max_left M N)
    rw [hrun _ (le_max_right M N)] at hg'
    obtain rfl := Option.some.inj hg'
    by_contra hno
    rw [hg, if_neg hno] at hq
    exact absurd hq (by decide)
  · intro hP
    exact ⟨N, fun fuel hfuel => ⟨g, hrun fuel hfuel, by rw [hg, if_pos hP]⟩⟩

theorem onSegment_steep {a b q : Pixel} (h : Steep a.1 a.2 b.1 b.2) :
    OnSegment a b q ↔ h.fence.Covers q.2 q.1 :=
  onSegment_iff (N := |b.2 - a.2|.toNat + 1) (fun fuel hfuel => line_steep h _ (by omega)) rfl

theorem onSegment_flat {a b q : Pixel} (h : Steep a.2 a.1 b.2 b.1) :
    OnSegment a b q ↔ h.fence.Covers q.1 q.2 :=
  onSegment_iff (N := |b.1 - a.1|.toNat + 1) (fun fuel hfuel => line_flat h _ (by omega)) rfl

end HandlingRobot
