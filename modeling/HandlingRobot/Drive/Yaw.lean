import HandlingRobot.Library.Bearing
import HandlingRobot.Tour.Planner

/-! # The two yaws

The planner and the motion control both compute the direction of a displacement in degrees, by
different formulas. Read over the reals, with the arc tangent itself and `π` for `3.14159`, both
give the bearing of the displacement.

* **`planYaw`** — `check_yaw` and `make_path`: 90 minus the arc tangent of `|dy / dx|`, folded out
  to the four quadrants.
* **`driveYaw`** — `go_point` and `to_pic`: the arc tangent of `dx / dy`, turned to the quadrants.
* **`planYaw_isBearing`**, **`driveYaw_isBearing`** — what both are; **`yaws_agree`**. -/

namespace HandlingRobot

/-! ## The formulas -/

section Formulas

variable {K : Type*} [Field K] [LinearOrder K] (atan : K → K) (pi : K)

/-- The `yaw` of `check_yaw` and `make_path` for `dx = x1 - x0` and `dy = y1 - y0`. -/
def planYaw (dx dy : K) : K :=
  let yaw := if dx = 0 then (if dy > 0 then 0 else 180) else 90 - atan |dy / dx| * 180 / pi
  let yaw := if dx > 0 ∧ dy < 0 then 180 - yaw else yaw
  let yaw := if dx < 0 ∧ dy < 0 then 180 + yaw else yaw
  if dx < 0 ∧ dy ≥ 0 then 360 - yaw else yaw

/-- The `yaw` of `go_point` and `to_pic` for the displacement `(dx, dy)` of the target. -/
def driveYaw (dx dy : K) : K :=
  let yaw := if dy = 0 then (if dx > 0 then 90 else 270) else atan (dx / dy) * 180 / pi
  let yaw := if dx < 0 ∧ dy > 0 then yaw + 360 else yaw
  let yaw := if dx > 0 ∧ dy < 0 then yaw + 180 else yaw
  if dx ≤ 0 ∧ dy < 0 then yaw + 180 else yaw

/-- The `yaw` of `go_point`: from the position of the car to `(x1, y1)`. -/
def goPointYaw (x1 y1 xPosition yPosition : K) : K :=
  driveYaw atan pi (x1 - xPosition) (y1 - yPosition)

/-- `px_` and `py_` of `to_pic`, the place of the picture that the camera sees at
`(pic_i, pic_j)`. -/
def toPicTarget (picI picJ : ℤ) : K × K :=
  ((picI - 94 : ℤ) * (2585 / 10000) + 1, (picJ - 60 : ℤ) * (254 / 1000) + 10)

/-- The `yaw` of `to_pic`: from the position `(x_pos1, y_pos1)` since the stop to the picture. -/
def toPicYaw (picI picJ : ℤ) (xPos1 yPos1 : K) : K :=
  driveYaw atan pi ((toPicTarget picI picJ).1 - xPos1) ((toPicTarget picI picJ).2 - yPos1)

end Formulas

/-- The bearing that `check_yaw` tests is the first formula, with `3.14159`. -/
theorem yaw_eq_planYaw (atan : ℚ → ℚ) : yaw atan = planYaw atan (314159 / 100000) := rfl

/-! ## Their values in the quadrants -/

section Values

variable {K : Type*} [Field K] [LinearOrder K] {atan : K → K} {pi dx dy : K}

theorem planYaw_up (hy : 0 < dy) : planYaw atan pi 0 dy = 0 := by
  simp [planYaw, hy]

theorem planYaw_down (hy : dy < 0) : planYaw atan pi 0 dy = 180 := by
  simp [planYaw, hy.not_gt]

theorem planYaw_right_up (hx : 0 < dx) (hy : 0 ≤ dy) :
    planYaw atan pi dx dy = 90 - atan |dy / dx| * 180 / pi := by
  simp [planYaw, hx.ne', hx.not_gt, hy.not_gt]

theorem planYaw_right_down (hx : 0 < dx) (hy : dy < 0) :
    planYaw atan pi dx dy = 180 - (90 - atan |dy / dx| * 180 / pi) := by
  simp [planYaw, hx, hx.ne', hx.not_gt, hy]

theorem planYaw_left_down (hx : dx < 0) (hy : dy < 0) :
    planYaw atan pi dx dy = 180 + (90 - atan |dy / dx| * 180 / pi) := by
  simp [planYaw, hx, hx.ne, hx.not_gt, hy, hy.not_ge]

theorem planYaw_left_up (hx : dx < 0) (hy : 0 ≤ dy) :
    planYaw atan pi dx dy = 360 - (90 - atan |dy / dx| * 180 / pi) := by
  simp [planYaw, hx, hx.ne, hy, hy.not_gt]

theorem driveYaw_right (hx : 0 < dx) : driveYaw atan pi dx 0 = 90 := by
  simp [driveYaw, hx]

theorem driveYaw_left (hx : dx < 0) : driveYaw atan pi dx 0 = 270 := by
  simp [driveYaw, hx.not_gt]

theorem driveYaw_right_up (hx : 0 ≤ dx) (hy : 0 < dy) :
    driveYaw atan pi dx dy = atan (dx / dy) * 180 / pi := by
  simp [driveYaw, hx.not_gt, hy.ne', hy.not_gt]

theorem driveYaw_left_up (hx : dx < 0) (hy : 0 < dy) :
    driveYaw atan pi dx dy = atan (dx / dy) * 180 / pi + 360 := by
  simp [driveYaw, hx, hy, hy.ne', hy.not_gt]

/-- Below, exactly one of the two corrections by half a turn is made. -/
theorem driveYaw_below (dx : K) (hy : dy < 0) :
    driveYaw atan pi dx dy = atan (dx / dy) * 180 / pi + 180 := by
  rcases lt_or_ge 0 dx with hx | hx
  · simp [driveYaw, hx, hx.not_ge, hy, hy.ne, hy.not_gt]
  · simp [driveYaw, hx, hx.not_gt, hy, hy.ne, hy.not_gt]

end Values

open Real

variable {dx dy : ℝ}

/-! ## The planner -/

/-- The angle of the first formula, for the displacement folded into the first quadrant. -/
theorem pointsAlong_folded (hdx : dx ≠ 0) (dy : ℝ) :
    PointsAlong (π / 2 - arctan |dy / dx|) |dx| |dy| := by
  rw [abs_div]
  exact (pointsAlong_arctan (abs_pos.mpr hdx)).pi_div_two_sub

theorem folded_mem (q : ℝ) : 0 < π / 2 - arctan |q| ∧ π / 2 - arctan |q| ≤ π / 2 :=
  ⟨sub_pos.mpr (arctan_lt_pi_div_two _), sub_le_self _ (arctan_nonneg.mpr (abs_nonneg q))⟩

/-- A displacement to the right: the corrections are the mirrorings of the `y` axis. -/
theorem planYaw_isBearing_right (hx : 0 < dx) (dy : ℝ) :
    IsBearing (planYaw arctan π dx dy) dx dy := by
  have hpi := pi_pos
  have hmem := folded_mem (dy / dx)
  have hfold := pointsAlong_folded hx.ne' dy
  rw [abs_of_pos hx] at hfold
  rcases lt_or_ge dy 0 with hy | hy
  · rw [abs_of_neg hy] at hfold
    have halong := hfold.pi_sub
    rw [neg_neg] at halong
    refine halong.isBearing ?_ (by linarith) (by linarith)
    rw [planYaw_right_down hx hy]
    field_simp
    ring
  · rw [abs_of_nonneg hy] at hfold
    refine hfold.isBearing ?_ (by linarith) (by linarith)
    rw [planYaw_right_up hx hy]
    field_simp
    ring

/-- A displacement to the left: half a turn or the mirroring of the `x` axis. -/
theorem planYaw_isBearing_left (hx : dx < 0) (dy : ℝ) :
    IsBearing (planYaw arctan π dx dy) dx dy := by
  have hpi := pi_pos
  have hmem := folded_mem (dy / dx)
  have hfold := pointsAlong_folded hx.ne dy
  rw [abs_of_neg hx] at hfold
  rcases lt_or_ge dy 0 with hy | hy
  · rw [abs_of_neg hy] at hfold
    have halong := hfold.add_pi
    rw [neg_neg, neg_neg] at halong
    refine halong.isBearing ?_ (by linarith) (by linarith)
    rw [planYaw_left_down hx hy]
    field_simp
    ring
  · rw [abs_of_nonneg hy] at hfold
    have halong := hfold.neg.add_two_pi
    rw [neg_neg] at halong
    refine halong.isBearing ?_ (by linarith) (by linarith)
    rw [planYaw_left_up hx hy]
    field_simp
    ring

/-- **The yaw of the planner is the bearing.** -/
theorem planYaw_isBearing (h : (dx, dy) ≠ (0, 0)) : IsBearing (planYaw arctan π dx dy) dx dy := by
  rcases lt_trichotomy dx 0 with hx | rfl | hx
  · exact planYaw_isBearing_left hx dy
  · have hy : dy ≠ 0 := fun hy => h (by rw [hy])
    rcases hy.lt_or_gt with hy | hy
    · have halong := (pointsAlong_zero (neg_pos.mpr hy)).add_pi
      rw [neg_zero, neg_neg, zero_add] at halong
      refine halong.isBearing ?_ pi_pos.le (by linarith [pi_pos])
      rw [planYaw_down hy, mul_div_cancel_left₀ _ pi_ne_zero]
    · refine (pointsAlong_zero hy).isBearing ?_ le_rfl two_pi_pos
      rw [planYaw_up hy, zero_mul, zero_div]
  · exact planYaw_isBearing_right hx dy

/-! ## The motion control -/

/-- **The yaw of the motion control is the bearing.** -/
theorem driveYaw_isBearing (h : (dx, dy) ≠ (0, 0)) : IsBearing (driveYaw arctan π dx dy) dx dy := by
  have hpi := pi_pos
  have hlo := neg_pi_div_two_lt_arctan (dx / dy)
  have hhi := arctan_lt_pi_div_two (dx / dy)
  rcases lt_trichotomy dy 0 with hy | rfl | hy
  · -- half a turn from the opposite displacement, which has the same quotient
    have halong := (pointsAlong_arctan (x := -dx) (neg_pos.mpr hy)).add_pi
    rw [neg_div_neg_eq, neg_neg, neg_neg] at halong
    refine halong.isBearing ?_ (by linarith) (by linarith)
    rw [driveYaw_below dx hy]
    field_simp
  · have hx : dx ≠ 0 := fun hx => h (by rw [hx])
    rcases hx.lt_or_gt with hx | hx
    · have halong := (pointsAlong_pi_div_two (neg_pos.mpr hx)).add_pi
      rw [neg_neg, neg_zero] at halong
      refine halong.isBearing ?_ (by linarith) (by linarith)
      rw [driveYaw_left hx]
      field_simp
      norm_num
    · refine (pointsAlong_pi_div_two hx).isBearing ?_ (by linarith) (by linarith)
      rw [driveYaw_right hx]
      field_simp
      norm_num
  · rcases lt_or_ge dx 0 with hx | hx
    · refine (pointsAlong_arctan hy).add_two_pi.isBearing ?_ (by linarith) ?_
      · rw [driveYaw_left_up hx hy]
        field_simp
        ring
      · have hneg := arctan_lt_zero.mpr (div_neg_of_neg_of_pos hx hy)
        linarith
    · have hnonneg := arctan_nonneg.mpr (div_nonneg hx hy.le)
      refine (pointsAlong_arctan hy).isBearing ?_ hnonneg (by linarith)
      rw [driveYaw_right_up hx hy]

/-- **`go_point` heads for its point**, unless the car stands on it. -/
theorem goPointYaw_isBearing {x1 y1 xPosition yPosition : ℝ}
    (h : (x1 - xPosition, y1 - yPosition) ≠ (0, 0)) :
    IsBearing (goPointYaw arctan π x1 y1 xPosition yPosition) (x1 - xPosition) (y1 - yPosition) :=
  driveYaw_isBearing h

/-- **`to_pic` heads for the picture**, unless the car stands on it. -/
theorem toPicYaw_isBearing {picI picJ : ℤ} {xPos1 yPos1 : ℝ}
    (h : ((toPicTarget picI picJ).1 - xPos1, (toPicTarget picI picJ).2 - yPos1) ≠ (0, 0)) :
    IsBearing (toPicYaw arctan π picI picJ xPos1 yPos1) ((toPicTarget picI picJ).1 - xPos1)
      ((toPicTarget picI picJ).2 - yPos1) :=
  driveYaw_isBearing h

/-! ## The agreement -/

/-- **The two yaws agree** on every displacement but none at all, and both lie in `[0, 360)`. -/
theorem yaws_agree (h : (dx, dy) ≠ (0, 0)) :
    planYaw arctan π dx dy = driveYaw arctan π dx dy ∧
      planYaw arctan π dx dy ∈ Set.Ico 0 360 ∧ driveYaw arctan π dx dy ∈ Set.Ico 0 360 := by
  have hplan := planYaw_isBearing h
  have hdrive := driveYaw_isBearing h
  exact ⟨hplan.unique hdrive, ⟨hplan.nonneg, hplan.lt⟩, hdrive.nonneg, hdrive.lt⟩

/-- Straight to the left, where the two use different branches. -/
theorem yaws_agree_left : planYaw arctan π (-1 : ℝ) 0 = driveYaw arctan π (-1 : ℝ) 0 ∧
    planYaw arctan π (-1 : ℝ) 0 ∈ Set.Ico 0 360 ∧ driveYaw arctan π (-1 : ℝ) 0 ∈ Set.Ico 0 360 :=
  yaws_agree (by simp)

end HandlingRobot
