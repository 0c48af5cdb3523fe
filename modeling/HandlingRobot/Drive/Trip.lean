import HandlingRobot.Drive.Approach
import HandlingRobot.Library.Pursuit

/-! # The trip to a point

In motion 1 the 10 ms callback runs `motionControl`, which moves the position by what the encoders
have counted and calls `go_point` for `(200, 0)`. The bearing of the point goes through the
controller `pid_yaw`, which adds what it has changed by since the last callback, and the speeds go
through a low-pass filter. The car stops when it comes within 4 cm.

* **`goPoint`**, **`motionControl`** — the functions; **`tripStep`** — a callback.
* **`Trip.Heading`** — what holds between two callbacks on the way.
* **`Trip.Heading.step`** — the distance and a multiple of the lag together fall by an eighth of a
  centimetre: the rule `pursuit_step`.
* **`motionControl_arrives`** — the car reaches its point, from wherever it stands, and stops. -/

namespace HandlingRobot

/-! ## The callback -/

section Callback

variable {K : Type*} [Field K] [LinearOrder K] (F : Trig K)

/-- What `motionControl` and `go_point` read and write. -/
structure Trip (K : Type*) where
  xPosition : K
  yPosition : K
  /-- `pid_yaw`. -/
  pidYaw : Pid K
  /-- The static `last_x` of `go_point`. -/
  lastX : K
  /-- The static `last_y` of `go_point`. -/
  lastY : K
  x : K
  y : K
  z : ℚ
  motion : ℕ

/-- `target_v`. -/
def targetV : ℚ := 60

/-- **`go_point`** for `(x1, y1)`: the state after it, and whether the car is there. -/
def goPoint (x1 y1 : K) (theta : ℚ) (s : Trip K) : Trip K × Bool :=
  let temp := calcDist F s.xPosition x1 s.yPosition y1
  let yaw := goPointYaw F.atan (314159 / 100000 : ℚ) x1 y1 s.xPosition s.yPosition
  let pidYaw := pidCal yaw 0 s.pidYaw
  let xTemp := targetV * F.cos (pidYaw.out / (180 : ℚ) * (314159 / 100000 : ℚ))
  let yTemp := targetV * F.sin (pidYaw.out / (180 : ℚ) * (314159 / 100000 : ℚ))
  let lastX := s.lastX * (6 / 10 : ℚ) + xTemp * (4 / 10 : ℚ)
  let lastY := s.lastY * (6 / 10 : ℚ) + yTemp * (4 / 10 : ℚ)
  ({ s with
      pidYaw, lastX, lastY
      x := lastX / (1688 / 1000 : ℚ)
      y := lastY / (16 / 10 : ℚ)
      z := getTheta theta 0 theta }, temp < (4 : ℚ))

/-- **`motionControl`**. -/
def motionControl (s : Trip K) (i : Sense) : Trip K :=
  let s := { s with
    xPosition := s.xPosition + (odometry F i.speed (i.theta : K)).1
    yPosition := s.yPosition + (odometry F i.speed (i.theta : K)).2 }
  let (t, there) := goPoint F ((200 : ℚ) : K) 0 i.theta s
  if there then { t with motion := 4 } else t

/-- **A callback** in the motions of a trip. -/
def tripStep (s : Trip K) (i : Sense) : Option (Trip K) :=
  some (match s.motion with
    | 1 | 2 => motionControl F s i
    | 4 => { s with x := 0, y := 0, z := 0 }
    | _ => s)

end Callback

open Real ComplexConjugate

/-! ## Bearings and vectors -/

/-- The bearing lies on the dial, up to the six digits of `3.14159`. -/
theorem driveYaw_mem (dx dy : ℝ) :
    0 ≤ driveYaw arctan (314159 / 100000) dx dy ∧
      driveYaw arctan (314159 / 100000) dx dy ≤ 361 := by
  have hlo := neg_pi_div_two_lt_arctan (dx / dy)
  have hhi := arctan_lt_pi_div_two (dx / dy)
  have hpi := pi_lt_d4
  norm_num at hpi
  rcases lt_trichotomy dy 0 with hy | rfl | hy
  · rw [driveYaw_below dx hy]
    constructor <;> linarith
  · by_cases hx : 0 < dx
    · rw [driveYaw_right hx]
      norm_num
    · have hvalue : driveYaw arctan (314159 / 100000) dx 0 = 270 := by simp [driveYaw, hx]
      rw [hvalue]
      norm_num
  · rcases lt_or_ge dx 0 with hx | hx
    · rw [driveYaw_left_up hx hy]
      have hneg := arctan_lt_zero.mpr (div_neg_of_neg_of_pos hx hy)
      constructor <;> linarith
    · rw [driveYaw_right_up hx hy]
      have hnonneg := arctan_nonneg.mpr (div_nonneg hx hy.le)
      constructor <;> linarith

/-- A displacement of the plane, the `y` axis as the real one, so that bearings are arguments. -/
def planar (dx dy : ℝ) : ℂ := ⟨dy, dx⟩

theorem norm_planar (dx dy : ℝ) : ‖planar dx dy‖ = hypot dx dy := by
  rw [Complex.norm_eq_sqrt_sq_add_sq, add_comm]
  rfl

theorem norm_planar_le {dx dy a b : ℝ} (hx : |dx| ≤ a) (hy : |dy| ≤ b) :
    ‖planar dx dy‖ ≤ a + b := by
  refine (Complex.norm_le_abs_re_add_abs_im _).trans ?_
  rw [add_comm]
  exact add_le_add hx hy

/-- The low-pass filter on both speeds, as one on vectors. -/
theorem planar_filter (lastX lastY a : ℝ) :
    planar (lastY * (6 / 10) + 60 * sin a * (4 / 10)) (lastX * (6 / 10) + 60 * cos a * (4 / 10)) =
      6 / 10 * planar lastY lastX + (1 - 6 / 10) * (60 * direction a) := by
  have hsplit : (6 / 10 * planar lastY lastX + (1 - 6 / 10) * (60 * direction a) : ℂ) =
      (6 / 10 : ℝ) • planar lastY lastX + (24 : ℝ) • direction a := by
    rw [Complex.real_smul, Complex.real_smul]
    push_cast
    ring
  rw [hsplit]
  refine Complex.ext ?_ ?_
  · rw [Complex.add_re, Complex.smul_re, Complex.smul_re, direction_re, smul_eq_mul, smul_eq_mul]
    show lastX * (6 / 10) + 60 * cos a * (4 / 10) = 6 / 10 * lastX + 24 * cos a
    ring
  · rw [Complex.add_im, Complex.smul_im, Complex.smul_im, direction_im, smul_eq_mul, smul_eq_mul]
    show lastY * (6 / 10) + 60 * sin a * (4 / 10) = 6 / 10 * lastY + 24 * sin a
    ring

/-- **The direction steered**, as a vector. -/
theorem norm_direction_sub_le {dx dy : ℝ} (h : 0 < ‖planar dx dy‖) :
    ‖direction (driveYaw arctan (314159 / 100000) dx dy / 180 * (314159 / 100000)) -
      planar dx dy / ‖planar dx dy‖‖ ≤ 2 / 100000 := by
  rw [norm_planar] at h ⊢
  obtain ⟨hsin, hcos⟩ := steered_direction h
  generalize driveYaw arctan (314159 / 100000) dx dy / 180 * (314159 / 100000) = b at hsin hcos ⊢
  have hsplit : direction b - planar dx dy / hypot dx dy =
      planar (sin b - dx / hypot dx dy) (cos b - dy / hypot dx dy) := by
    refine Complex.ext ?_ ?_
    · rw [Complex.sub_re, direction_re, Complex.div_ofReal_re]
      rfl
    · rw [Complex.sub_im, direction_im, Complex.div_ofReal_im]
      rfl
  rw [hsplit]
  exact (norm_planar_le hsin hcos).trans_eq (by norm_num)

/-! ## One callback -/

/-- The way of a callback, as the odometry has it. -/
noncomputable def Sense.way (i : Sense) : ℂ :=
  planar (odometry realTrig i.speed (i.theta : ℝ)).1 (odometry realTrig i.speed (i.theta : ℝ)).2

namespace Trip

/-- What is left of the way. -/
def gap (s : Trip ℝ) : ℂ := planar (200 - s.xPosition) (0 - s.yPosition)

/-- The filtered speeds, as a vector of the plane. -/
def velocity (s : Trip ℝ) : ℂ := planar s.lastY s.lastX

/-- The angle of the bearing at the last callback. -/
noncomputable def angle (s : Trip ℝ) : ℝ := s.pidYaw.lastE / (180 : ℚ) * (314159 / 100000 : ℚ)

theorem angle_eq (s : Trip ℝ) : s.angle = s.pidYaw.lastE / 180 * (314159 / 100000) := by
  rw [angle]
  push_cast
  rfl

/-- What the speed is off full speed along that bearing. -/
noncomputable def lag (s : Trip ℝ) : ℂ := s.velocity - (60 : ℝ) * direction s.angle

/-- `pid_init` gives `pid_yaw` these gains, and it has seen a bearing, or nothing yet. -/
structure Tuned (m : Pid ℝ) : Prop where
  gains : m.p = 1 ∧ m.i = 0 ∧ m.d = 1
  bearing : 0 ≤ m.lastE ∧ m.lastE ≤ 361

/-- **What a callback of the trip does.** -/
structure Moved (s : Trip ℝ) (i : Sense) (t : Trip ℝ) : Prop where
  gap : t.gap = s.gap - i.way
  tuned : Tuned t.pidYaw
  bearing : t.pidYaw.lastE =
    driveYaw arctan (314159 / 100000) (200 - t.xPosition) (0 - t.yPosition)
  velocity : t.velocity = (6 / 10 : ℝ) * s.velocity + (1 - 6 / 10 : ℝ) *
    ((60 : ℝ) * direction (t.angle + (t.angle - s.angle)))
  command : t.x = t.lastX / (1688 / 1000) ∧ t.y = t.lastY / (16 / 10)
  ends : t.motion = 4 ∧ ‖t.gap‖ < 4 ∨ t.motion = 1 ∧ 4 ≤ ‖t.gap‖

end Trip

theorem limitOut_of_abs_le {out : ℝ} (h : |out| ≤ 10000) : limitOut out = out := by
  obtain ⟨hlo, hhi⟩ := abs_le.mp h
  unfold limitOut
  push_cast
  rw [if_neg hhi.not_gt, if_neg hlo.not_gt]

/-- **The controller leads** the bearing by what it has changed by. -/
theorem pidCal_tuned {m : Pid ℝ} (h : Trip.Tuned m) {yaw : ℝ} (hyaw : 0 ≤ yaw ∧ yaw ≤ 361) :
    (pidCal yaw 0 m).out = yaw + (yaw - m.lastE) ∧ (pidCal yaw 0 m).lastE = yaw ∧
      Trip.Tuned (pidCal yaw 0 m) := by
  have hlast : (pidCal yaw 0 m).lastE = yaw := sub_zero yaw
  have hout : (pidCal yaw 0 m).out = limitOut (m.p * (yaw - 0) + m.i * (pidCal yaw 0 m).sumI +
      m.d * (yaw - 0 - m.lastE)) := rfl
  refine ⟨?_, hlast, h.gains, by rw [hlast]; exact hyaw⟩
  rw [hout, h.gains.1, h.gains.2.1, h.gains.2.2, one_mul, zero_mul, one_mul, add_zero, sub_zero]
  refine limitOut_of_abs_le (abs_le.mpr ⟨?_, ?_⟩) <;> linarith [h.bearing.1, h.bearing.2]

/-- **`go_point`**, in these terms. -/
theorem goPoint_moved {s : Trip ℝ} (theta : ℚ) (htuned : Trip.Tuned s.pidYaw) :
    ∃ t, goPoint realTrig ((200 : ℚ) : ℝ) 0 theta s = (t, decide (‖s.gap‖ < 4)) ∧
      t.gap = s.gap ∧ t.motion = s.motion ∧ Trip.Tuned t.pidYaw ∧
      t.pidYaw.lastE =
        driveYaw arctan (314159 / 100000) (200 - t.xPosition) (0 - t.yPosition) ∧
      t.velocity = (6 / 10 : ℝ) * s.velocity + (1 - 6 / 10 : ℝ) *
        ((60 : ℝ) * direction (t.angle + (t.angle - s.angle))) ∧
      t.x = t.lastX / (1688 / 1000) ∧ t.y = t.lastY / (16 / 10) := by
  have hnear : calcDist realTrig s.xPosition 200 s.yPosition 0 < 4 ↔ ‖s.gap‖ < 4 := by
    rw [Trip.gap, norm_planar]
    unfold calcDist hypot
    rw [show (200 - s.xPosition) ^ 2 + (0 - s.yPosition) ^ 2 =
      (s.xPosition - 200) * (s.xPosition - 200) + (s.yPosition - 0) * (s.yPosition - 0) by ring]
    rfl
  obtain ⟨hout, hlast, htuned'⟩ := pidCal_tuned htuned
    (driveYaw_mem (200 - s.xPosition) (0 - s.yPosition))
  refine ⟨(goPoint realTrig ((200 : ℚ) : ℝ) 0 theta s).1, ?_, rfl, rfl, ?_⟩
  · refine Prod.ext rfl (decide_eq_decide.mpr ?_)
    rw [← hnear]
    push_cast
    rfl
  · unfold goPoint goPointYaw
    push_cast
    refine ⟨htuned', hlast, ?_, rfl, rfl⟩
    simp only [Trip.velocity, Trip.angle_eq, realTrig]
    rw [hout, hlast]
    generalize driveYaw arctan (314159 / 100000) (200 - s.xPosition) (0 - s.yPosition) = yaw
    have hlead : (yaw + (yaw - s.pidYaw.lastE)) / 180 * (314159 / 100000) =
        yaw / 180 * (314159 / 100000) + (yaw / 180 * (314159 / 100000) -
          s.pidYaw.lastE / 180 * (314159 / 100000)) := by ring
    have hspeed : (targetV : ℝ) = 60 := by norm_num [targetV]
    rw [hlead, hspeed]
    exact planar_filter s.lastX s.lastY _

/-- **`motionControl`**, in these terms. -/
theorem motionControl_moved {s : Trip ℝ} (i : Sense) (hmotion : s.motion = 1)
    (htuned : Trip.Tuned s.pidYaw) : s.Moved i (motionControl realTrig s i) := by
  have hgap : Trip.gap { s with
      xPosition := s.xPosition + (odometry realTrig i.speed (i.theta : ℝ)).1
      yPosition := s.yPosition + (odometry realTrig i.speed (i.theta : ℝ)).2 } =
      s.gap - i.way := by
    refine Complex.ext ?_ ?_
    · exact (sub_sub _ _ _).symm
    · exact (sub_sub _ _ _).symm
  obtain ⟨t, ht, hgap', hmotion', htuned', hbearing, hvelocity, hcommand⟩ := goPoint_moved
    (s := { s with
      xPosition := s.xPosition + (odometry realTrig i.speed (i.theta : ℝ)).1
      yPosition := s.yPosition + (odometry realTrig i.speed (i.theta : ℝ)).2 }) i.theta htuned
  rw [hgap] at ht hgap'
  unfold motionControl
  dsimp only
  rw [ht]
  dsimp only
  by_cases hnear : ‖s.gap - i.way‖ < 4
  · rw [if_pos (decide_eq_true hnear)]
    exact ⟨hgap', htuned', hbearing, hvelocity, hcommand, Or.inl ⟨rfl, hgap' ▸ hnear⟩⟩
  · rw [if_neg (by rw [decide_eq_true_eq]; exact hnear)]
    exact ⟨hgap', htuned', hbearing, hvelocity, hcommand,
      Or.inr ⟨hmotion'.trans hmotion, hgap' ▸ not_lt.mp hnear⟩⟩

/-! ## The way of a callback -/

/-- The rotation of the odometry is a product. -/
theorem planar_mul_direction (vx vy t : ℝ) :
    planar vy vx * direction t =
      planar (vx * sin t + vy * cos t) (vx * cos t - vy * sin t) := by
  refine Complex.ext ?_ ?_
  · rw [Complex.mul_re, direction_re, direction_im]
    rfl
  · rw [Complex.mul_im, direction_re, direction_im]
    rfl

/-- A speed against the filtered one: the wheels, and the constants of the odometry. -/
theorem abs_speed_sub_last_le {v cmd last a k b : ℝ} (hlast : |last| ≤ 60) (hcmd : cmd = last / k)
    (hv : |v - a * cmd| ≤ b) : |v / 100 - 967 / 100000 * last| ≤
      (b + 60 * |a / k - 967 / 1000|) / 100 := by
  have hsplit : v / 100 - 967 / 100000 * last =
      ((v - a * cmd) + last * (a / k - 967 / 1000)) / 100 := by
    rw [hcmd]
    ring
  have hconst : |last * (a / k - 967 / 1000)| ≤ 60 * |a / k - 967 / 1000| := by
    rw [abs_mul]
    exact mul_le_mul_of_nonneg_right hlast (abs_nonneg _)
  rw [hsplit, abs_div, abs_of_pos (by norm_num : (0 : ℝ) < 100)]
  gcongr
  exact (abs_add_le _ _).trans (add_le_add hv hconst)

/-- The sensors of a car whose wheels turn as commanded, up to 2 counts, and that keeps its
heading. -/
structure Trip.Steady (s : Trip ℝ) (i : Sense) : Prop where
  follows : Follows 2 s.x s.y s.z i.speed
  straight : Straight i.theta

/-- **The way of a callback** follows the filtered speeds in a turned frame. -/
theorem Trip.Steady.way {s : Trip ℝ} {i : Sense} (h : s.Steady i)
    (hcommand : s.x = s.lastX / (1688 / 1000) ∧ s.y = s.lastY / (16 / 10))
    (hspeed : ‖s.velocity‖ ≤ 60) :
    ∃ e r : ℂ, i.way = ((967 / 100000 : ℝ) * s.velocity + e) * r ∧ ‖r‖ = 1 ∧
      86 / 100 ≤ r.re ∧ ‖e‖ ≤ 657 / 10000 := by
  have hlastX : |s.lastX| ≤ 60 := (Complex.abs_re_le_norm s.velocity).trans hspeed
  have hlastY : |s.lastY| ≤ 60 := (Complex.abs_im_le_norm s.velocity).trans hspeed
  obtain ⟨hvx, hvy⟩ := h.follows.speeds
  obtain ⟨hox, hoy⟩ := odometry_turned i.speed (i.theta : ℝ)
  have hc := h.straight.le_cos
  have hex := abs_speed_sub_last_le hlastX hcommand.1 hvx
  have hey := abs_speed_sub_last_le hlastY hcommand.2 hvy
  norm_num at hex hey
  have hvy' : |(speedY i.speed : ℝ)| / 100000 ≤ 62 / 100000 := by
    have htriangle := abs_sub_abs_le_abs_sub ((speedY i.speed : ℝ) / 100)
      (967 / 100000 * s.lastY)
    rw [abs_div, abs_of_pos (by norm_num : (0 : ℝ) < 100), abs_mul,
      abs_of_pos (by norm_num : (0 : ℝ) < 967 / 100000)] at htriangle
    linarith
  set t := (i.theta : ℝ) * (31416 / 10000) / 180
  have hunit : conj (direction t) * direction t = 1 := by
    rw [Complex.conj_mul', norm_direction]
    simp
  -- what the odometry adds to the rotated speeds
  have hturned : ‖i.way - planar (speedY i.speed / 100) (speedX i.speed / 100) * direction t‖ ≤
      2 / 100000 := by
    have hsplit : i.way - planar (speedY i.speed / 100) (speedX i.speed / 100) * direction t =
        planar ((100 * (odometry realTrig i.speed (i.theta : ℝ)).1 -
            (speedX i.speed * sin t + speedY i.speed * cos t)) / 100)
          ((100 * (odometry realTrig i.speed (i.theta : ℝ)).2 -
            (speedX i.speed * cos t - speedY i.speed * sin t)) / 100) := by
      rw [planar_mul_direction, Sense.way]
      refine Complex.ext ?_ ?_
      · simp only [planar, Complex.sub_re]
        ring
      · simp only [planar, Complex.sub_im]
        ring
    rw [hsplit]
    refine (norm_planar_le (a := 62 / 10000000) (b := 62 / 10000000) ?_ ?_).trans (by norm_num)
    · rw [abs_div, abs_of_pos (by norm_num : (0 : ℝ) < 100)]
      linarith
    · rw [abs_div, abs_of_pos (by norm_num : (0 : ℝ) < 100)]
      linarith
  have hwheels : ‖planar (speedY i.speed / 100) (speedX i.speed / 100) -
      (967 / 100000 : ℝ) * s.velocity‖ ≤ 656 / 10000 := by
    have hsplit : planar (speedY i.speed / 100) (speedX i.speed / 100) -
        (967 / 100000 : ℝ) * s.velocity =
        planar (speedY i.speed / 100 - 967 / 100000 * s.lastY)
          (speedX i.speed / 100 - 967 / 100000 * s.lastX) := by
      rw [← Complex.real_smul, Trip.velocity]
      refine Complex.ext ?_ ?_
      · rw [Complex.sub_re, Complex.smul_re]
        rfl
      · rw [Complex.sub_im, Complex.smul_im]
        rfl
    rw [hsplit]
    exact (norm_planar_le hey hex).trans (by norm_num)
  refine ⟨i.way * conj (direction t) - (967 / 100000 : ℝ) * s.velocity, direction t, ?_,
    norm_direction t, (direction_re t).symm ▸ hc, ?_⟩
  · rw [add_sub_cancel, mul_assoc, hunit, mul_one]
  · have hsplit : i.way * conj (direction t) - (967 / 100000 : ℝ) * s.velocity =
        (i.way - planar (speedY i.speed / 100) (speedX i.speed / 100) * direction t) *
          conj (direction t) + (planar (speedY i.speed / 100) (speedX i.speed / 100) -
          (967 / 100000 : ℝ) * s.velocity) := by
      rw [sub_mul, mul_assoc (planar _ _), mul_comm (direction t), hunit]
      ring
    have hback : ‖(i.way - planar (speedY i.speed / 100) (speedX i.speed / 100) * direction t) *
        conj (direction t)‖ ≤ 2 / 100000 := by
      rw [norm_mul, Complex.norm_conj, norm_direction, mul_one]
      exact hturned
    rw [hsplit]
    linarith [norm_add_le ((i.way - planar (speedY i.speed / 100) (speedX i.speed / 100) *
      direction t) * conj (direction t)) (planar (speedY i.speed / 100) (speedX i.speed / 100) -
      (967 / 100000 : ℝ) * s.velocity)]

/-! ## The trip -/

namespace Trip

/-- The distance from the point, and a multiple of the lag. -/
noncomputable def potential (s : Trip ℝ) : ℝ := ‖s.gap‖ + (242 / 10000 : ℚ) * ‖s.lag‖

/-- **A car on its way**, after a callback. -/
structure Heading (s : Trip ℝ) : Prop where
  motion : s.motion = 1
  tuned : Tuned s.pidYaw
  bearing : s.pidYaw.lastE =
    driveYaw arctan (314159 / 100000) (200 - s.xPosition) (0 - s.yPosition)
  command : s.x = s.lastX / (1688 / 1000) ∧ s.y = s.lastY / (16 / 10)
  speed : ‖s.velocity‖ ≤ 60
  far : 4 ≤ ‖s.gap‖

/-- The filter never gets faster than the speed it is given. -/
theorem Moved.speed {s t : Trip ℝ} {i : Sense} (h : s.Moved i t) (hspeed : ‖s.velocity‖ ≤ 60) :
    ‖t.velocity‖ ≤ 60 := by
  have hold : ‖((6 / 10 : ℝ) : ℂ) * s.velocity‖ ≤ 36 := by
    rw [norm_mul, Complex.norm_real, Real.norm_of_nonneg (by norm_num)]
    linarith
  have hnew : ‖((1 - 6 / 10 : ℝ) : ℂ) * (((60 : ℝ) : ℂ) *
      direction (t.angle + (t.angle - s.angle)))‖ = 24 := by
    rw [norm_mul, norm_mul, norm_direction, Complex.norm_real, Complex.norm_real,
      Real.norm_of_nonneg (by norm_num), Real.norm_of_nonneg (by norm_num)]
    norm_num
  rw [h.velocity]
  linarith [norm_add_le (((6 / 10 : ℝ) : ℂ) * s.velocity)
    (((1 - 6 / 10 : ℝ) : ℂ) * (((60 : ℝ) : ℂ) * direction (t.angle + (t.angle - s.angle))))]

/-- A callback that does not end the trip leaves the car on its way. -/
theorem Moved.heading {s t : Trip ℝ} {i : Sense} (h : s.Moved i t) (hspeed : ‖s.velocity‖ ≤ 60)
    (hmotion : t.motion = 1) (hfar : 4 ≤ ‖t.gap‖) : Heading t :=
  ⟨hmotion, h.tuned, h.bearing, h.command, h.speed hspeed, hfar⟩

/-- The steering of a car on its way points at its point. -/
theorem Heading.steers {s : Trip ℝ} (h : Heading s) :
    ‖direction s.angle - s.gap / ‖s.gap‖‖ ≤ 2 / 100000 := by
  rw [angle_eq, h.bearing]
  exact norm_direction_sub_le (zero_lt_four.trans_le h.far)

/-- **A callback on the way** lowers the potential. -/
theorem Heading.step {s t : Trip ℝ} {i : Sense} (h : Heading s) (hsteady : s.Steady i)
    (hmoved : s.Moved i t) (ht : Heading t) : t.potential ≤ s.potential - 1 / 8 := by
  obtain ⟨e, r, hway, hr, hc, he⟩ := hsteady.way h.command h.speed
  have hlen : ‖i.way‖ ≤ 65 / 100 := by
    have hfiltered : ‖((967 / 100000 : ℝ) : ℂ) * s.velocity‖ ≤ 967 / 100000 * 60 := by
      rw [norm_mul, Complex.norm_real, Real.norm_of_nonneg (by norm_num)]
      exact mul_le_mul_of_nonneg_left h.speed (by norm_num)
    rw [hway, norm_mul, hr, mul_one]
    linarith [norm_add_le (((967 / 100000 : ℝ) : ℂ) * s.velocity) e]
  have hfar := ht.far
  have hsteers := ht.steers
  rw [hmoved.gap] at hfar hsteers
  have hfall := pursuit_step (k := 242 / 10000) (v := 60) (by norm_num) (by norm_num) zero_lt_four
    (by norm_num) (by norm_num) (by norm_num) (by norm_num) h.far hfar (norm_direction s.angle)
    h.steers hsteers hr hc he hway hlen hmoved.velocity (norm_direction_ahead s.angle t.angle)
  rw [potential, potential, lag, lag, hmoved.gap]
  norm_num at hfall ⊢
  linarith

/-- **The start of a trip**: the car stands, and the filter may still hold an old speed. -/
structure AtRest (s : Trip ℝ) : Prop where
  motion : s.motion = 1
  command : s.x = 0 ∧ s.y = 0
  tuned : Tuned s.pidYaw
  speed : ‖s.velocity‖ ≤ 60

/-- **The first callback** may steer anywhere. -/
theorem AtRest.step {s t : Trip ℝ} {i : Sense} (h : AtRest s) (hsteady : s.Steady i)
    (hmoved : s.Moved i t) : t.potential ≤ ‖s.gap‖ + 305 / 100 := by
  have hway : ‖i.way‖ ≤ 1 / 10 := by
    have hfollows := hsteady.follows
    rw [h.command.1, h.command.2] at hfollows
    rw [Sense.way, norm_planar]
    exact sqrt_le_iff.mpr ⟨by norm_num, resting_way i.theta hfollows⟩
  have hlag : ‖t.lag‖ ≤ 120 := by
    have hfull : ‖((60 : ℝ) : ℂ) * direction t.angle‖ = 60 := by
      rw [norm_mul, norm_direction, Complex.norm_real, Real.norm_of_nonneg (by norm_num), mul_one]
    rw [lag]
    linarith [norm_sub_le t.velocity (((60 : ℝ) : ℂ) * direction t.angle), hmoved.speed h.speed]
  have hgap := norm_sub_le s.gap i.way
  rw [potential, hmoved.gap]
  linarith

/-- What holds after `n` callbacks of a trip from `s₀`: the car is still at rest, or it is on its
way and has come closer, or it has stopped, and its commands are zero one callback later. -/
inductive Travelling (s₀ : Trip ℝ) (n : ℕ) (s : Trip ℝ) : Prop
  | rest : n = 0 → s = s₀ → Travelling s₀ n s
  | heading : Heading s → s.potential + n / 8 ≤ ‖s₀.gap‖ + 16 / 5 → Travelling s₀ n s
  | stopped : s.motion = 4 → ‖s.gap‖ < 4 →
      (s.x = 0 ∧ s.y = 0 ∧ s.z = 0) ∨ (n : ℝ) ≤ 8 * ‖s₀.gap‖ + 1 → Travelling s₀ n s

theorem tripStep_motionControl {s : Trip ℝ} (hmotion : s.motion = 1) (i : Sense) :
    tripStep realTrig s i = some (motionControl realTrig s i) := by
  unfold tripStep
  rw [hmotion]
  rfl

/-- **The trip, one callback on.** -/
theorem Travelling.step {s₀ s t : Trip ℝ} {n : ℕ} {i : Sense} (h₀ : AtRest s₀)
    (h : Travelling s₀ n s) (hsteady : s.motion = 1 → s.Steady i)
    (hstep : tripStep realTrig s i = some t) : Travelling s₀ (n + 1) t := by
  cases h with
  | rest hn heq =>
      subst hn heq
      rw [tripStep_motionControl h₀.motion] at hstep
      obtain rfl := Option.some.inj hstep
      have hmoved := motionControl_moved i h₀.motion h₀.tuned
      have hfirst := h₀.step (hsteady h₀.motion) hmoved
      rcases hmoved.ends with ⟨h4, hnear⟩ | ⟨h1, hfar⟩
      · refine .stopped h4 hnear (Or.inr ?_)
        push_cast
        linarith [norm_nonneg s.gap]
      · refine .heading (hmoved.heading h₀.speed h1 hfar) ?_
        push_cast
        linarith
  | heading hs hdist =>
      rw [tripStep_motionControl hs.motion] at hstep
      obtain rfl := Option.some.inj hstep
      have hmoved := motionControl_moved i hs.motion hs.tuned
      rcases hmoved.ends with ⟨h4, hnear⟩ | ⟨h1, hfar⟩
      · refine .stopped h4 hnear (Or.inr ?_)
        have hpos : ‖s.gap‖ ≤ s.potential := le_add_of_nonneg_right (by positivity)
        push_cast
        linarith [hs.far]
      · have ht := hmoved.heading hs.speed h1 hfar
        refine .heading ht ?_
        have hfall := hs.step (hsteady hs.motion) hmoved ht
        push_cast
        linarith
  | stopped h4 hnear _ =>
      have hparked : tripStep realTrig s i = some { s with x := 0, y := 0, z := 0 } := by
        unfold tripStep
        rw [h4]
        rfl
      obtain rfl := Option.some.inj (hparked.symm.trans hstep)
      exact .stopped h4 hnear (Or.inl ⟨rfl, rfl, rfl⟩)

end Trip

/-- A callback always ends. -/
theorem tripStep_total (is : List Sense) :
    ∀ s : Trip ℝ, ∃ t, runSteps (tripStep realTrig) s is = some t := by
  induction is with
  | nil => exact fun s => ⟨s, rfl⟩
  | cons i is ih => exact fun s => ih _

/-- **The car reaches its point.** From rest in motion 1, wherever it stands, whatever bearing the
controller has seen and whatever speed the filter holds, and however the wheels and the heading vary
within their bounds: after 8 callbacks for each centimetre of the distance, and two more, the car is
in motion 4 within 4 cm of the point, and its commands are zero. -/
theorem motionControl_arrives (s : Trip ℝ) (is : List Sense) (hrest : s.AtRest)
    (hsteady : StepsSatisfy (tripStep realTrig) (fun s i => s.motion = 1 → s.Steady i) s is)
    (hlen : 8 * ‖s.gap‖ + 2 ≤ is.length) :
    ∃ t, runSteps (tripStep realTrig) s is = some t ∧ t.motion = 4 ∧ ‖t.gap‖ < 4 ∧
      t.x = 0 ∧ t.y = 0 ∧ t.z = 0 := by
  obtain ⟨t, ht⟩ := tripStep_total is s
  have hinv := runSteps_invariant_of_steps
    (I := fun is t => Trip.Travelling s is.length t) (.rest rfl rfl)
    (fun as s' a t' h hP hstep => by
      rw [List.length_append, List.length_singleton]
      exact h.step hrest hP hstep) is t hsteady ht
  refine ⟨t, ht, ?_⟩
  cases hinv with
  | rest hn _ =>
      rw [hn, Nat.cast_zero] at hlen
      linarith [norm_nonneg s.gap]
  | heading hs hdist =>
      have hpos : ‖t.gap‖ ≤ t.potential := le_add_of_nonneg_right (by positivity)
      linarith [hs.far]
  | stopped h4 hnear hzero => exact ⟨h4, hnear, hzero.resolve_right (by linarith)⟩

/-! ## The trip of the car -/

/-- Wheels that turn as commanded, to the next count, make a steady car. -/
theorem Trip.exists_steady (s : Trip ℝ) : ∃ i, s.Steady i := by
  refine ⟨⟨fun n => round (mix s.x s.y (s.z : ℝ) n), 0⟩, fun n => ?_, Or.inl ⟨le_rfl, by norm_num⟩⟩
  rw [abs_sub_comm]
  exact (abs_sub_round _).trans (by norm_num)

theorem Trip.exists_steady_run (n : ℕ) : ∀ s : Trip ℝ, ∃ is : List Sense, is.length = n ∧
    StepsSatisfy (tripStep realTrig) (fun s i => s.motion = 1 → s.Steady i) s is := by
  induction n with
  | zero => exact fun s => ⟨[], rfl, trivial⟩
  | succ n ih =>
      intro s
      obtain ⟨i, hi⟩ := s.exists_steady
      obtain ⟨t, ht⟩ : ∃ t, tripStep realTrig s i = some t := ⟨_, rfl⟩
      obtain ⟨is, hlen, his⟩ := ih t
      refine ⟨i :: is, congrArg (· + 1) hlen, fun _ => hi, fun t' ht' => ?_⟩
      rw [ht, Option.some.injEq] at ht'
      exact ht' ▸ his

/-- The car at its start, in the motion that the menu sets. -/
noncomputable def Trip.boot : Trip ℝ := ⟨0, 0, Pid.start 1 0 1, 0, 0, 0, 0, 0, 1⟩

/-- The car drives the 2 m to its point. -/
theorem motionControl_arrives_boot : ∃ is t, runSteps (tripStep realTrig) Trip.boot is = some t ∧
    t.motion = 4 ∧ ‖t.gap‖ < 4 ∧ t.x = 0 ∧ t.y = 0 ∧ t.z = 0 := by
  obtain ⟨is, hlen, hsteady⟩ := Trip.exists_steady_run 1602 Trip.boot
  have hzero : ‖Trip.boot.velocity‖ = 0 := norm_eq_zero.mpr rfl
  have hgap : ‖Trip.boot.gap‖ = 200 := by
    rw [Trip.gap, norm_planar, hypot, show (200 - Trip.boot.xPosition) ^ 2 +
      (0 - Trip.boot.yPosition) ^ 2 = (200 : ℝ) ^ 2 by norm_num [Trip.boot]]
    exact sqrt_sq (by norm_num)
  refine ⟨is, motionControl_arrives Trip.boot is
    ⟨rfl, ⟨rfl, rfl⟩, ⟨⟨rfl, rfl, rfl⟩, le_rfl, ?_⟩, ?_⟩ hsteady ?_⟩
  · norm_num [Trip.boot, Pid.start]
  · rw [hzero]
    norm_num
  · rw [hgap, hlen]
    norm_num

end HandlingRobot
