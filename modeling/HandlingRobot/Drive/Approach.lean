import HandlingRobot.Drive.MainLoop
import HandlingRobot.Drive.Wheels
import HandlingRobot.Drive.Yaw
import HandlingRobot.Library.Approach
import Mathlib.Analysis.Real.Pi.Bounds

/-! # The approach to a card

In motion 5 the 10 ms callback runs `to_pic`: it moves the position by what the encoders have
counted, heads for the place where the camera has seen the card, and stops within 1 cm of it. The
loop is closed over the wheels, which turn as they were told in the callback before, more or less.

* **`odometry`**, **`speedX`**, **`speedY`** — the position from the encoders and the gyro.
* **`toPic`** — the function; **`approachStep`** — a callback in motion 5.
* **`Steady`** — the wheels follow within 2 counts, and the car has not turned by more than 30
  degrees.
* **`aimed_step`** — a callback with a steady car brings it closer by an eighth of a centimetre.
* **`approach_arrives`** — so it ends at the card, after a number of callbacks that the distance
  bounds. -/

namespace HandlingRobot

/-! ## The callback -/

section Callback

/-- `arm_sin_f32`, `arm_cos_f32`, `atan` and `arm_sqrt_f32`. -/
structure Trig (K : Type*) where
  sin : K → K
  cos : K → K
  atan : K → K
  sqrt : K → K

variable {K : Type*} [Field K] [LinearOrder K] (F : Trig K)

/-- `speed_x`, the speed ahead. -/
def speedX (speed : Fin 4 → ℤ) : ℚ := (speed 1 * (1 / 2) - speed 2 * (1 / 2)) * (163 / 100)

/-- `speed_y`, the speed to the side. -/
def speedY (speed : Fin 4 → ℤ) : ℚ := (speed 0 * (1 / 2) - speed 1 * (1 / 2)) * (155 / 100)

/-- **The odometry** of all motions: the way of one callback, in the plane. -/
def odometry (speed : Fin 4 → ℤ) (theta : K) : K × K :=
  let yaw_ := theta * (31416 / 10000 : ℚ) / (180 : ℚ)
  let right := yaw_ + (15708 / 10000 : ℚ)
  ((speedX speed * F.sin yaw_ + speedY speed * F.sin right) * (1 / 100 : ℚ),
    (speedX speed * F.cos yaw_ + speedY speed * F.cos right) * (1 / 100 : ℚ))

/-- `calc_dist`. -/
def calcDist (x0 x1 y0 y1 : K) : K := F.sqrt ((x0 - x1) * (x0 - x1) + (y0 - y1) * (y0 - y1))

/-- What `to_pic` reads and writes; `sent` are the bytes it has sent. -/
structure ToPic (K : Type*) where
  xPos1 : K
  yPos1 : K
  x : K
  y : K
  z : ℚ
  motion : ℕ
  sendFlag : Bool
  xPosition : K
  yPosition : K
  sent : List Char

/-- What a callback reads: the encoders and the gyro. -/
structure Sense where
  speed : Fin 4 → ℤ
  theta : ℚ

/-- **`to_pic`** for a card seen at `(pic_i, pic_j)`, at the stop with the standard place `stop`. -/
def toPic (picI picJ : ℤ) (stop : K × K) (s : ToPic K) (i : Sense) : ToPic K :=
  let xPos1 := s.xPos1 + (odometry F i.speed (i.theta : K)).1
  let yPos1 := s.yPos1 + (odometry F i.speed (i.theta : K)).2
  let yaw := toPicYaw F.atan (314159 / 100000 : ℚ) picI picJ xPos1 yPos1
  let dist := calcDist F (toPicTarget picI picJ).1 xPos1 (toPicTarget picI picJ).2 yPos1
  if dist > 1 then
    { s with
      xPos1, yPos1
      x := stdSpeed * F.cos (yaw / (180 : ℚ) * (314159 / 100000 : ℚ)) / (1688 / 1000 : ℚ)
      y := stdSpeed * F.sin (yaw / (180 : ℚ) * (314159 / 100000 : ℚ)) / (16 / 10 : ℚ)
      z := getTheta i.theta 0 i.theta }
  else
    { s with
      xPos1, yPos1
      xPosition := stop.1
      yPosition := stop.2
      x := 0
      y := 0
      z := 0
      sent := s.sent ++ ['3']
      sendFlag := true
      motion := 13 }

/-- **A callback.** What it does in the other motions is not part of the approach. -/
def approachStep (picI picJ : ℤ) (stop : K × K) (s : ToPic K) (i : Sense) : Option (ToPic K) :=
  some (if s.motion = 5 then toPic F picI picJ stop s i else s)

end Callback

/-! ## The wheels -/

section Wheels

open Real

/-- The functions over the reals. -/
noncomputable def realTrig : Trig ℝ := ⟨sin, cos, arctan, sqrt⟩

/-- The wheels turn as commanded, up to `e` counts in a callback. -/
def Follows (e x y : ℝ) (z : ℚ) (speed : Fin 4 → ℤ) : Prop :=
  ∀ n, |(speed n : ℝ) - mix x y (z : ℝ) n| ≤ e

/-- **The measured speeds** are the commands on the scale of the odometry: the rotation drops
out. -/
theorem Follows.speeds {e x y : ℝ} {z : ℚ} {speed : Fin 4 → ℤ} (h : Follows e x y z speed) :
    |speedX speed - 163 / 100 * x| ≤ 163 / 100 * e ∧
      |speedY speed - 155 / 100 * y| ≤ 155 / 100 * e := by
  have h0 := abs_le.mp (h 0)
  have h1 := abs_le.mp (h 1)
  have h2 := abs_le.mp (h 2)
  simp only [mix, Matrix.cons_val] at h0 h1 h2
  unfold speedX speedY
  push_cast
  constructor <;> rw [abs_le] <;> constructor <;> linarith

/-- The gyro reads at most 30 degrees to either side. -/
def Straight (theta : ℚ) : Prop := (0 ≤ theta ∧ theta ≤ 30) ∨ (330 ≤ theta ∧ theta ≤ 360)

/-- The cosine of such a heading. -/
theorem Straight.le_cos {theta : ℚ} (h : Straight theta) :
    (86 / 100 : ℝ) ≤ cos ((theta : ℝ) * (31416 / 10000) / 180) := by
  have hsmall : ∀ {t : ℝ}, |t| ≤ 0.5237 → 86 / 100 ≤ cos t := by
    intro t ht
    have hsq : t ^ 2 ≤ 0.5237 ^ 2 := sq_le_sq' (abs_le.mp ht).1 (abs_le.mp ht).2
    have hcos := one_sub_sq_div_two_le_cos (x := t)
    norm_num at hsq
    linarith
  have hcast : ∀ {a b : ℚ}, a ≤ b → (a : ℝ) ≤ b := fun hab => by exact_mod_cast hab
  have hlo := pi_gt_d4
  have hhi := pi_lt_d4
  norm_num at hlo hhi
  rcases h with ⟨h0, h1⟩ | ⟨h0, h1⟩
  · have h0' := hcast h0
    have h1' := hcast h1
    push_cast at h0' h1'
    exact hsmall (abs_le.mpr ⟨by linarith, by linarith⟩)
  · -- a full turn less
    have h0' := hcast h0
    have h1' := hcast h1
    push_cast at h0' h1'
    rw [← cos_sub_two_pi]
    exact hsmall (abs_le.mpr ⟨by linarith, by linarith⟩)

/-! ## The direction -/

/-- **The yaw with another `π`**, turned back into an angle with the same: off by up to two times
the difference. -/
theorem driveYaw_scaled {q : ℝ} (hq : q ≠ 0) (dx dy : ℝ) :
    |driveYaw arctan q dx dy / 180 * q - driveYaw arctan π dx dy * π / 180| ≤ 2 * |q - π| := by
  have hmul : ∀ {k t : ℝ}, |k| ≤ 2 → t = k * (q - π) → |t| ≤ 2 * |q - π| := by
    rintro k t hk rfl
    rw [abs_mul]
    exact mul_le_mul_of_nonneg_right hk (abs_nonneg _)
  have hpi := pi_ne_zero
  rcases lt_trichotomy dy 0 with hy | rfl | hy
  · rw [driveYaw_below dx hy, driveYaw_below dx hy]
    refine hmul (k := 1) (by norm_num) ?_
    field_simp
    ring
  · by_cases hx : 0 < dx
    · rw [driveYaw_right hx, driveYaw_right hx]
      exact hmul (k := 1 / 2) (by norm_num [abs_of_pos]) (by ring)
    · have hvalue : ∀ r : ℝ, driveYaw arctan r dx 0 = 270 := by simp [driveYaw, hx]
      rw [hvalue, hvalue]
      exact hmul (k := 3 / 2) (by norm_num [abs_of_pos]) (by ring)
  · rcases lt_or_ge dx 0 with hx | hx
    · rw [driveYaw_left_up hx hy, driveYaw_left_up hx hy]
      refine hmul (k := 2) (by norm_num) ?_
      field_simp
      ring
    · rw [driveYaw_right_up hx hy, driveYaw_right_up hx hy]
      refine hmul (k := 0) (by norm_num) ?_
      field_simp
      ring

/-- **The direction steered** is that of the displacement, up to the six digits of `3.14159`. -/
theorem steered_direction {dx dy : ℝ} (h : 0 < hypot dx dy) :
    |sin (driveYaw arctan (314159 / 100000) dx dy / 180 * (314159 / 100000)) -
        dx / hypot dx dy| ≤ 1 / 100000 ∧
      |cos (driveYaw arctan (314159 / 100000) dx dy / 180 * (314159 / 100000)) -
        dy / hypot dx dy| ≤ 1 / 100000 := by
  have hne : (dx, dy) ≠ (0, 0) := by
    rintro hzero
    obtain ⟨rfl, rfl⟩ := Prod.mk.inj hzero
    simp [hypot] at h
  have halong := (driveYaw_isBearing hne).along
  have hangle := driveYaw_scaled (q := 314159 / 100000) (by norm_num) dx dy
  generalize driveYaw arctan π dx dy * π / 180 = β at halong hangle
  obtain ⟨r, hr, hx, hy⟩ := halong
  have hlen : hypot dx dy = r := by
    have hsq : hypot dx dy ^ 2 = r ^ 2 := by
      rw [hypot_sq, hx, hy, mul_pow, mul_pow, ← mul_add, sin_sq_add_cos_sq, mul_one]
    exact (pow_left_inj₀ h.le hr.le two_ne_zero).mp hsq
  have hunit : dx / hypot dx dy = sin β ∧ dy / hypot dx dy = cos β := by
    rw [hlen, div_eq_iff hr.ne', div_eq_iff hr.ne', mul_comm (sin β), mul_comm (cos β)]
    exact ⟨hx, hy⟩
  have hdigits : |(314159 / 100000 : ℝ) - π| ≤ 5 / 1000000 := by
    have hlo := pi_gt_d6
    have hhi := pi_lt_d6
    norm_num at hlo hhi
    rw [abs_le]
    constructor <;> linarith
  rw [hunit.1, hunit.2]
  exact ⟨(abs_sin_sub_sin_le _ _).trans (by linarith), (abs_cos_sub_cos_le _ _).trans (by linarith)⟩

/-! ## One callback -/

/-- The second direction of the odometry is off a right angle by less than the constant shows. -/
theorem odometry_turned (speed : Fin 4 → ℤ) (theta : ℝ) :
    let t := theta * (31416 / 10000) / 180
    |100 * (odometry realTrig speed theta).1 - (speedX speed * sin t + speedY speed * cos t)| ≤
        |(speedY speed : ℝ)| / 100000 ∧
      |100 * (odometry realTrig speed theta).2 - (speedX speed * cos t - speedY speed * sin t)| ≤
        |(speedY speed : ℝ)| / 100000 := by
  intro t
  have hlo := pi_gt_d6
  have hhi := pi_lt_d6
  norm_num at hlo hhi
  have hright : |t + 15708 / 10000 - (t + π / 2)| ≤ 1 / 100000 :=
    abs_le.mpr ⟨by linarith, by linarith⟩
  have hsin := (abs_sin_sub_sin_le _ _).trans hright
  have hcos := (abs_cos_sub_cos_le _ _).trans hright
  rw [sin_add_pi_div_two] at hsin
  rw [cos_add_pi_div_two] at hcos
  have hmul : ∀ {d : ℝ}, |d| ≤ 1 / 100000 →
      |speedY speed * d| ≤ |(speedY speed : ℝ)| / 100000 := by
    intro d hd
    rw [abs_mul, div_eq_mul_one_div]
    exact mul_le_mul_of_nonneg_left hd (abs_nonneg _)
  constructor
  · refine (congrArg abs ?_).trans_le (hmul hsin)
    simp only [odometry, realTrig]
    push_cast
    ring
  · refine (congrArg abs ?_).trans_le (hmul hcos)
    simp only [odometry, realTrig]
    push_cast
    ring

/-- A speed of the car that steers along one component of a unit vector, as the odometry measures
it: 29, up to the wheels and the constants. -/
theorem abs_speed_sub_le {v cmd t u a k : ℝ} (hu : |u| ≤ 1) (ht : |t - u| ≤ 1 / 100000)
    (hcmd : cmd = 30 * t / k) (hk : 0 < k) (hv : |v - a * cmd| ≤ a * 2)
    (ha : a * 2 + |a * 30 / k - 29| ≤ 3295 / 1000) : |v - 29 * u| ≤ 33 / 10 := by
  have hscale : a * cmd = a * 30 / k * t := by
    rw [hcmd]
    field_simp
  have hpos := (abs_nonneg _).trans hv
  rw [hscale] at hv
  generalize a * 30 / k = b at hv ha
  have hb := abs_le.mp (show |b - 29| ≤ 3295 / 1000 by linarith)
  have hbt : |b * (t - u)| ≤ 33 * (1 / 100000) := by
    rw [abs_mul]
    exact mul_le_mul (abs_le.mpr ⟨by linarith, by linarith⟩) ht (abs_nonneg _) (by norm_num)
  have hbu : |(b - 29) * u| ≤ |b - 29| := abs_mul_le_of_unit hu le_rfl
  have hsplit : v - 29 * u = (v - b * t) + b * (t - u) + (b - 29) * u := by ring
  rw [hsplit]
  linarith [abs_add_le (v - b * t + b * (t - u)) ((b - 29) * u),
    abs_add_le (v - b * t) (b * (t - u))]

/-- A step that is off by a little: how far it goes, and its length. -/
theorem perturbed_step {ux uy ax ay wx wy e : ℝ} (hu : ux ^ 2 + uy ^ 2 = 1)
    (hax : |wx - ax| ≤ e) (hay : |wy - ay| ≤ e) {m M : ℝ} (halong : m ≤ ux * ax + uy * ay)
    (hsq : ax ^ 2 + ay ^ 2 ≤ M ^ 2) (hM : 0 ≤ M) :
    m - 2 * e ≤ ux * wx + uy * wy ∧ wx ^ 2 + wy ^ 2 ≤ M ^ 2 + 4 * M * e + 2 * e ^ 2 := by
  have hux : |ux| ≤ 1 := (sq_le_one_iff_abs_le_one _).mp (by linarith [sq_nonneg uy])
  have huy : |uy| ≤ 1 := (sq_le_one_iff_abs_le_one _).mp (by linarith [sq_nonneg ux])
  have hbound : ∀ {a b w : ℝ}, a ^ 2 + b ^ 2 ≤ M ^ 2 → |w - a| ≤ e →
      w ^ 2 ≤ a ^ 2 + 2 * M * e + e ^ 2 := by
    intro a b w hab hw
    have ha : |a| ≤ M := abs_le_of_sq_le_sq (by linarith [sq_nonneg b]) hM
    have hcross : |a * (w - a)| ≤ M * e := by
      rw [abs_mul]
      exact mul_le_mul ha hw (abs_nonneg _) hM
    have hsplit : w ^ 2 = a ^ 2 + 2 * (a * (w - a)) + (w - a) ^ 2 := by ring
    rw [hsplit]
    linarith [le_abs_self (a * (w - a)), sq_le_sq' (abs_le.mp hw).1 (abs_le.mp hw).2]
  constructor
  · have hx := neg_abs_le ((wx - ax) * ux)
    have hy := neg_abs_le ((wy - ay) * uy)
    have hx' := abs_mul_le_of_unit hux hax
    have hy' := abs_mul_le_of_unit huy hay
    have hsplit : ux * wx + uy * wy =
        ux * ax + uy * ay + (wx - ax) * ux + (wy - ay) * uy := by ring
    rw [hsplit]
    linarith
  · have hx := hbound hsq hax
    have hy := hbound (by rw [add_comm]; exact hsq) hay
    linarith

/-- **The way of a car that steers for a displacement** `(dx, dy)`: most of it goes in the
direction wanted. -/
theorem steered_way {dx dy : ℝ} (h : 0 < hypot dx dy) {x y : ℝ} {z : ℚ} {speed : Fin 4 → ℤ}
    {theta : ℚ} (hx : x = (stdSpeed : ℝ) * cos (driveYaw arctan (314159 / 100000) dx dy / 180 *
      (314159 / 100000)) / (1688 / 1000))
    (hy : y = (stdSpeed : ℝ) * sin (driveYaw arctan (314159 / 100000) dx dy / 180 *
      (314159 / 100000)) / (16 / 10))
    (hfollows : Follows 2 x y z speed) (hstraight : Straight theta) :
    18 / 100 * hypot dx dy ≤ dx * (odometry realTrig speed (theta : ℝ)).1 +
        dy * (odometry realTrig speed (theta : ℝ)).2 ∧
      (odometry realTrig speed (theta : ℝ)).1 ^ 2 + (odometry realTrig speed (theta : ℝ)).2 ^ 2 ≤
        1248 / 10000 := by
  obtain ⟨hsin, hcos⟩ := steered_direction h
  obtain ⟨hvx, hvy⟩ := hfollows.speeds
  obtain ⟨hox, hoy⟩ := odometry_turned speed theta
  have hc := hstraight.le_cos
  have hstd : (stdSpeed : ℝ) = 30 := by norm_num [stdSpeed]
  rw [hstd] at hx hy
  have hdx : dx = hypot dx dy * (dx / hypot dx dy) := (mul_div_cancel₀ dx h.ne').symm
  have hdy : dy = hypot dx dy * (dy / hypot dx dy) := (mul_div_cancel₀ dy h.ne').symm
  have hu : (dx / hypot dx dy) ^ 2 + (dy / hypot dx dy) ^ 2 = 1 := by
    rw [div_pow, div_pow, ← add_div, ← hypot_sq, div_self (pow_ne_zero 2 h.ne')]
  generalize dx / hypot dx dy = ux at hsin hdx hu
  generalize dy / hypot dx dy = uy at hcos hdy hu
  generalize odometry realTrig speed (theta : ℝ) = way at hox hoy ⊢
  have hsc := sin_sq_add_cos_sq ((theta : ℝ) * (31416 / 10000) / 180)
  generalize sin ((theta : ℝ) * (31416 / 10000) / 180) = s at hox hoy hsc
  generalize cos ((theta : ℝ) * (31416 / 10000) / 180) = c at hox hoy hsc hc
  generalize (speedX speed : ℝ) = vx at hvx hox hoy
  generalize (speedY speed : ℝ) = vy at hvy hox hoy
  have hux : |ux| ≤ 1 := (sq_le_one_iff_abs_le_one _).mp (by linarith [sq_nonneg uy])
  have huy : |uy| ≤ 1 := (sq_le_one_iff_abs_le_one _).mp (by linarith [sq_nonneg ux])
  have hf : |vy - 29 * ux| ≤ 33 / 10 := abs_speed_sub_le hux hsin hy (by norm_num) hvy
    (by norm_num [abs_of_pos])
  have hg : |vx - 29 * uy| ≤ 33 / 10 := abs_speed_sub_le huy hcos hx (by norm_num) hvx
    (by norm_num [abs_of_neg])
  have halong := along_turned (a := 29) hu hsc hf hg
  have hsq := turned_sq_le (a := 29) hu hsc hf hg (by norm_num)
  rw [add_sub_cancel, add_sub_cancel] at halong hsq
  -- the direction of the odometry is off by little
  have hvy33 : |vy| / 100000 ≤ 33 / 100000 := by
    have htriangle := abs_sub_abs_le_abs_sub vy (29 * ux)
    rw [abs_mul, abs_of_pos (by norm_num : (0 : ℝ) < 29)] at htriangle
    linarith
  obtain ⟨hway, hlen⟩ := perturbed_step (m := 183 / 10) (M := 353 / 10) hu (hox.trans hvy33)
    (hoy.trans hvy33) (by linarith) (hsq.trans (by norm_num)) (by norm_num)
  constructor
  · have hmul := mul_le_mul_of_nonneg_left hway h.le
    have hsplit : dx * way.1 + dy * way.2 =
        hypot dx dy * (ux * (100 * way.1) + uy * (100 * way.2)) / 100 := by
      calc dx * way.1 + dy * way.2 = hypot dx dy * ux * way.1 + hypot dx dy * uy * way.2 := by
            rw [← hdx, ← hdy]
        _ = hypot dx dy * (ux * (100 * way.1) + uy * (100 * way.2)) / 100 := by ring
    rw [hsplit]
    linarith
  · have hsplit : (100 * way.1) ^ 2 + (100 * way.2) ^ 2 =
        10000 * (way.1 ^ 2 + way.2 ^ 2) := by ring
    rw [hsplit] at hlen
    norm_num at hlen
    linarith

/-- **The way of a car at rest.** -/
theorem resting_way {z : ℚ} {speed : Fin 4 → ℤ} (theta : ℚ) (hfollows : Follows 2 0 0 z speed) :
    (odometry realTrig speed (theta : ℝ)).1 ^ 2 + (odometry realTrig speed (theta : ℝ)).2 ^ 2 ≤
      (1 / 10) ^ 2 := by
  obtain ⟨hvx, hvy⟩ := hfollows.speeds
  rw [mul_zero, sub_zero] at hvx hvy
  obtain ⟨hox, hoy⟩ := odometry_turned speed theta
  have hunit : (1 : ℝ) ^ 2 + 0 ^ 2 = 1 := by norm_num
  have hsq := turned_sq_le (a := 0) (e := 33 / 10) hunit
    (sin_sq_add_cos_sq ((theta : ℝ) * (31416 / 10000) / 180)) (hvy.trans (by norm_num))
    (hvx.trans (by norm_num)) le_rfl
  simp only [zero_mul, zero_add] at hsq
  have hsmall : |(speedY speed : ℝ)| / 100000 ≤ 1 / 10000 := by linarith
  have hlen := (perturbed_step (M := 5) hunit (hox.trans hsmall) (hoy.trans hsmall) le_rfl
    (hsq.trans (by norm_num)) (by norm_num)).2
  generalize odometry realTrig speed (theta : ℝ) = way at hlen ⊢
  have hsplit : (100 * way.1) ^ 2 + (100 * way.2) ^ 2 = 10000 * (way.1 ^ 2 + way.2 ^ 2) := by ring
  rw [hsplit] at hlen
  norm_num at hlen ⊢
  linarith

/-! ## The approach -/

variable {picI picJ : ℤ} {stop : ℝ × ℝ}

/-- The distance from the card. -/
noncomputable def ToPic.dist (picI picJ : ℤ) (s : ToPic ℝ) : ℝ :=
  hypot ((toPicTarget picI picJ).1 - s.xPos1) ((toPicTarget picI picJ).2 - s.yPos1)

/-- The commands head for the card. -/
structure ToPic.Aimed (picI picJ : ℤ) (s : ToPic ℝ) : Prop where
  x : s.x = (stdSpeed : ℝ) * cos (toPicYaw arctan (314159 / 100000) picI picJ s.xPos1 s.yPos1 /
    180 * (314159 / 100000)) / (1688 / 1000)
  y : s.y = (stdSpeed : ℝ) * sin (toPicYaw arctan (314159 / 100000) picI picJ s.xPos1 s.yPos1 /
    180 * (314159 / 100000)) / (16 / 10)

/-- **The car stands at the card**, with the position of the stop, and waits for the arm. -/
structure ToPic.Arrived (picI picJ : ℤ) (stop : ℝ × ℝ) (s : ToPic ℝ) : Prop where
  motion : s.motion = 13
  near : s.dist picI picJ ≤ 1
  halted : s.x = 0 ∧ s.y = 0 ∧ s.z = 0
  position : s.xPosition = stop.1 ∧ s.yPosition = stop.2
  sendFlag : s.sendFlag = true

variable (picI picJ stop) in
/-- **What a call of `to_pic` does**: it moves the position, and either aims or stops. -/
theorem toPic_cases (s : ToPic ℝ) (i : Sense) (hmotion : s.motion = 5) :
    ∃ t, approachStep realTrig picI picJ stop s i = some t ∧
      t.dist picI picJ = hypot
        ((toPicTarget picI picJ).1 - s.xPos1 - (odometry realTrig i.speed (i.theta : ℝ)).1)
        ((toPicTarget picI picJ).2 - s.yPos1 - (odometry realTrig i.speed (i.theta : ℝ)).2) ∧
      ((t.motion = 5 ∧ t.sent = s.sent ∧ 1 < t.dist picI picJ ∧ t.Aimed picI picJ) ∨
        (t.Arrived picI picJ stop ∧ t.sent = s.sent ++ ['3'])) := by
  have hdist : ∀ x y : ℝ, calcDist realTrig (toPicTarget picI picJ).1 x (toPicTarget picI picJ).2 y
      = hypot ((toPicTarget picI picJ).1 - x) ((toPicTarget picI picJ).2 - y) := by
    intro x y
    unfold calcDist hypot
    rw [sq, sq]
    rfl
  refine ⟨toPic realTrig picI picJ stop s i, congrArg some (if_pos hmotion), ?_⟩
  have hpi : ((314159 / 100000 : ℚ) : ℝ) = 314159 / 100000 := by norm_num
  have hturn : ((180 : ℚ) : ℝ) = 180 := Rat.cast_ofNat 180
  have hscale : ((1688 / 1000 : ℚ) : ℝ) = 1688 / 1000 ∧ ((16 / 10 : ℚ) : ℝ) = 16 / 10 := by
    constructor <;> norm_num
  unfold toPic
  rw [hpi, hturn, hscale.1, hscale.2]
  dsimp only
  rw [hdist]
  split_ifs with hfar
  · exact ⟨by simp only [ToPic.dist, sub_sub], Or.inl ⟨hmotion, rfl, hfar, rfl, rfl⟩⟩
  · exact ⟨by simp only [ToPic.dist, sub_sub],
      Or.inr ⟨⟨rfl, not_lt.mp hfar, ⟨rfl, rfl, rfl⟩, ⟨rfl, rfl⟩, rfl⟩, rfl⟩⟩

/-- **A steady car**: the wheels turn as commanded, up to 2 counts, and the heading is kept. -/
structure Steady (s : ToPic ℝ) (i : Sense) : Prop where
  follows : Follows 2 s.x s.y s.z i.speed
  straight : Straight i.theta

/-- **A callback of a steady car** that aims brings it closer. -/
theorem aimed_step {s t : ToPic ℝ} {i : Sense} (hmotion : s.motion = 5)
    (haimed : s.Aimed picI picJ) (hfar : 1 < s.dist picI picJ) (hsteady : Steady s i)
    (hstep : approachStep realTrig picI picJ stop s i = some t) :
    t.dist picI picJ ≤ s.dist picI picJ - 1 / 8 := by
  obtain ⟨t', ht', hdist, -⟩ := toPic_cases picI picJ stop s i hmotion
  obtain rfl : t' = t := Option.some.inj (ht'.symm.trans hstep)
  have hpos : 0 < hypot ((toPicTarget picI picJ).1 - s.xPos1)
      ((toPicTarget picI picJ).2 - s.yPos1) := zero_lt_one.trans hfar
  obtain ⟨halong, hlen⟩ :=
    steered_way hpos haimed.x haimed.y hsteady.follows hsteady.straight
  rw [hdist]
  exact hypot_sub_le (w := 1) (by norm_num) (by norm_num) halong hlen (by norm_num) hfar.le

/-- **A callback of a steady car at rest.** -/
theorem resting_step {s t : ToPic ℝ} {i : Sense} (hmotion : s.motion = 5)
    (hrest : s.x = 0 ∧ s.y = 0) (hsteady : Steady s i)
    (hstep : approachStep realTrig picI picJ stop s i = some t) :
    t.dist picI picJ ≤ s.dist picI picJ + 1 / 10 := by
  obtain ⟨t', ht', hdist, -⟩ := toPic_cases picI picJ stop s i hmotion
  obtain rfl : t' = t := Option.some.inj (ht'.symm.trans hstep)
  have hfollows := hsteady.follows
  rw [hrest.1, hrest.2] at hfollows
  rw [hdist]
  exact hypot_sub_le_add (by norm_num) (resting_way i.theta hfollows)

/-- What holds after `n` callbacks of an approach from `s₀`: the car is there, or it is still at
rest, or it aims and has come closer. -/
inductive Approaching (picI picJ : ℤ) (stop : ℝ × ℝ) (s₀ : ToPic ℝ) (n : ℕ) (s : ToPic ℝ) : Prop
  | rest : n = 0 → s = s₀ → Approaching picI picJ stop s₀ n s
  | aimed : s.motion = 5 → s.sent = s₀.sent → s.Aimed picI picJ → 1 < s.dist picI picJ →
      s.dist picI picJ + n / 8 ≤ s₀.dist picI picJ + 1 / 4 → Approaching picI picJ stop s₀ n s
  | arrived : s.Arrived picI picJ stop → s.sent = s₀.sent ++ ['3'] →
      Approaching picI picJ stop s₀ n s

/-- **The approach, one callback on.** -/
theorem Approaching.step {s₀ s t : ToPic ℝ} {n : ℕ} {i : Sense} (hmotion : s₀.motion = 5)
    (hrest : s₀.x = 0 ∧ s₀.y = 0) (h : Approaching picI picJ stop s₀ n s)
    (hsteady : s.motion = 5 → Steady s i)
    (hstep : approachStep realTrig picI picJ stop s i = some t) :
    Approaching picI picJ stop s₀ (n + 1) t := by
  cases h with
  | rest hn heq =>
      subst hn heq
      obtain ⟨t', ht', -, hcases⟩ := toPic_cases picI picJ stop s i hmotion
      obtain rfl : t' = t := Option.some.inj (ht'.symm.trans hstep)
      have hclose := resting_step hmotion hrest (hsteady hmotion) hstep
      rcases hcases with ⟨hmotion', hsent, hfar, haimed⟩ | ⟨harrived, hsent⟩
      · refine .aimed hmotion' hsent haimed hfar ?_
        push_cast
        linarith
      · exact .arrived harrived hsent
  | aimed hmotion' hsent haimed hfar hdist =>
      obtain ⟨t', ht', -, hcases⟩ := toPic_cases picI picJ stop s i hmotion'
      obtain rfl : t' = t := Option.some.inj (ht'.symm.trans hstep)
      have hclose := aimed_step hmotion' haimed hfar (hsteady hmotion') hstep
      rcases hcases with ⟨hmotion'', hsent', hfar', haimed'⟩ | ⟨harrived, hsent'⟩
      · refine .aimed hmotion'' (hsent'.trans hsent) haimed' hfar' ?_
        push_cast
        linarith
      · exact .arrived harrived (hsent'.trans (by rw [hsent]))
  | arrived harrived hsent =>
      have hidle : s = t := by
        rw [approachStep, if_neg (by rw [harrived.motion]; decide)] at hstep
        exact Option.some.inj hstep
      exact hidle ▸ .arrived harrived hsent

/-- **A run** of callbacks of a steady car, by induction on them. -/
theorem approaching_run {s : ToPic ℝ} {is : List Sense} (hmotion : s.motion = 5)
    (hrest : s.x = 0 ∧ s.y = 0) (hsteady : StepsSatisfy (approachStep realTrig picI picJ stop)
      (fun s i => s.motion = 5 → Steady s i) s is) :
    ∃ t, runSteps (approachStep realTrig picI picJ stop) s is = some t ∧
      Approaching picI picJ stop s is.length t := by
  have htotal : ∀ is s, ∃ t, runSteps (approachStep realTrig picI picJ stop) s is = some t := by
    intro is
    induction is with
    | nil => exact fun s => ⟨s, rfl⟩
    | cons i is ih => exact fun s => ih _
  obtain ⟨t, ht⟩ := htotal is s
  exact ⟨t, ht, runSteps_invariant_of_steps
    (I := fun is t => Approaching picI picJ stop s is.length t) (.rest rfl rfl)
    (fun as s' a t' h hP hstep => by
      rw [List.length_append, List.length_singleton]
      exact h.step hmotion hrest hP hstep) is t hsteady ht⟩

/-- After enough callbacks the car is there. -/
theorem Approaching.arrived_of_le {s₀ s : ToPic ℝ} {n : ℕ} (h : Approaching picI picJ stop s₀ n s)
    (hlen : 8 * s₀.dist picI picJ + 1 ≤ n) :
    s.Arrived picI picJ stop ∧ s.sent = s₀.sent ++ ['3'] := by
  have hnn : 0 ≤ s₀.dist picI picJ := hypot_nonneg _ _
  cases h with
  | rest hn _ =>
      rw [hn, Nat.cast_zero] at hlen
      linarith
  | aimed _ _ _ hfar hdist => linarith
  | arrived harrived hsent => exact ⟨harrived, hsent⟩

/-- **A steady car arrives.** From a stop in motion 5, whatever its distance from the card and
however the wheels and the heading vary within their bounds, it stands within 1 cm of the card after
at most 8 callbacks for each centimetre and one more, and has sent its message once. -/
theorem approach_arrives (picI picJ : ℤ) (stop : ℝ × ℝ) (s : ToPic ℝ) (is : List Sense)
    (hmotion : s.motion = 5) (hrest : s.x = 0 ∧ s.y = 0)
    (hsteady : StepsSatisfy (approachStep realTrig picI picJ stop)
      (fun s i => s.motion = 5 → Steady s i) s is)
    (hlen : 8 * s.dist picI picJ + 1 ≤ is.length) :
    ∃ t, runSteps (approachStep realTrig picI picJ stop) s is = some t ∧
      t.Arrived picI picJ stop ∧ t.sent = s.sent ++ ['3'] := by
  obtain ⟨t, ht, happroaching⟩ := approaching_run hmotion hrest hsteady
  exact ⟨t, ht, happroaching.arrived_of_le hlen⟩

/-- A car 1.25 cm behind the card. -/
noncomputable def behindCard : ToPic ℝ := ⟨1, 35 / 4, 0, 0, 0, 5, false, 0, 0, []⟩

theorem dist_behindCard : behindCard.dist 94 60 = 5 / 4 := by
  have hvalue : hypot 0 (5 / 4) = 5 / 4 := by
    unfold hypot
    rw [zero_pow two_ne_zero, zero_add, sqrt_sq (by norm_num)]
  rw [← hvalue, ToPic.dist]
  congr 1 <;> norm_num [toPicTarget, behindCard]

/-- The same car, once it heads for the card. -/
noncomputable def headingCard : ToPic ℝ := { behindCard with x := (30 / (1688 / 1000) : ℚ) }

theorem behindCard_step :
    approachStep realTrig 94 60 (0, 0) behindCard ⟨fun _ => 0, 0⟩ = some headingCard := by
  have hyaw : toPicYaw arctan (314159 / 100000) 94 60 1 (35 / 4) = 0 := by
    norm_num [toPicYaw, toPicTarget, driveYaw]
  have hstd : (stdSpeed : ℝ) = 30 := by norm_num [stdSpeed]
  have hodometry : odometry realTrig (fun _ => 0) 0 = 0 := by
    simp [odometry, speedX, speedY, realTrig]
  have hfar : calcDist realTrig (toPicTarget 94 60).1 1 (toPicTarget 94 60).2 (35 / 4) > 1 := by
    refine lt_sqrt_of_sq_lt ?_
    norm_num [toPicTarget]
  simp only [approachStep, toPic, behindCard, headingCard, Rat.cast_zero, hodometry, Prod.fst_zero,
    Prod.snd_zero, add_zero, if_true, if_pos hfar]
  simp [realTrig, hyaw, hstd, getTheta, restrictTheta]

/-- The callbacks behind the stop have nothing to satisfy. -/
theorem stepsSatisfy_stopped {s : ToPic ℝ} (h : s.motion ≠ 5) (is : List Sense) :
    StepsSatisfy (approachStep realTrig picI picJ stop) (fun s i => s.motion = 5 → Steady s i) s
      is := by
  induction is with
  | nil => exact trivial
  | cons i is ih =>
      refine ⟨fun hmotion => absurd hmotion h, fun t ht => ?_⟩
      rw [approachStep, if_neg h, Option.some.injEq] at ht
      exact ht ▸ ih

/-- The wheels turn by 18 counts in every callback but the first one. -/
theorem approach_arrives_ahead :
    ∃ t, runSteps (approachStep realTrig 94 60 (0, 0)) behindCard
        (⟨fun _ => 0, 0⟩ :: List.replicate 10 ⟨![18, 18, -18, -18], 0⟩) = some t ∧
      t.Arrived 94 60 (0, 0) ∧ t.sent = behindCard.sent ++ ['3'] := by
  have hstraight : Straight 0 := Or.inl ⟨le_rfl, by norm_num⟩
  refine approach_arrives 94 60 (0, 0) behindCard _ rfl ⟨rfl, rfl⟩ ⟨fun _ => ⟨fun n => ?_,
    hstraight⟩, fun s₁ h₁ => ?_⟩ ?_
  · fin_cases n <;> norm_num [mix, behindCard]
  · obtain rfl : headingCard = s₁ := Option.some.inj (behindCard_step.symm.trans h₁)
    refine ⟨fun _ => ⟨fun n => ?_, hstraight⟩, fun s₂ h₂ => ?_⟩
    · fin_cases n <;> norm_num [mix, headingCard, behindCard, abs_le]
    · obtain ⟨t, ht, hdist, hcases⟩ := toPic_cases 94 60 (0, 0) headingCard
        ⟨![18, 18, -18, -18], 0⟩ rfl
      obtain rfl : t = s₂ := Option.some.inj (ht.symm.trans h₂)
      rcases hcases with ⟨-, -, hfar, -⟩ | ⟨harrived, -⟩
      · rw [hdist] at hfar
        refine absurd hfar (not_lt.mpr (sqrt_le_one.mpr ?_))
        have hleft : (![18, 18, -18, -18] : Fin 4 → ℤ) 2 = -18 := rfl
        norm_num [toPicTarget, headingCard, behindCard, odometry, speedX, speedY, realTrig, hleft,
          abs_le]
      · exact stepsSatisfy_stopped (by rw [harrived.motion]; decide) _
  · rw [dist_behindCard]
    norm_num

end Wheels

end HandlingRobot
