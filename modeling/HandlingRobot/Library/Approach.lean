import Mathlib.Analysis.SpecialFunctions.Trigonometric.Bounds

/-! # Approaching a point

A vehicle in the plane heads for a point and corrects its direction once in a step. Its step is not
the one it wants: its frame is turned against the plane by an unknown angle, and the speeds along
its axes are off by some amount.

* **`along_turned`** — how far such a step goes in the direction wanted.
* **`hypot_sub_le`** — a step that goes far enough in the right direction, and not too far in all,
  ends closer to the point. -/

namespace HandlingRobot

open Real

/-- The product of two unit vectors. -/
theorem abs_dot_unit_le {a b c d : ℝ} (h : a ^ 2 + b ^ 2 = 1) (h' : c ^ 2 + d ^ 2 = 1) :
    |a * c + b * d| ≤ 1 := by
  rw [← sq_le_one_iff_abs_le_one]
  have hcross : (a * c + b * d) ^ 2 + (a * d - b * c) ^ 2 = 1 := by
    calc (a * c + b * d) ^ 2 + (a * d - b * c) ^ 2 = (a ^ 2 + b ^ 2) * (c ^ 2 + d ^ 2) := by ring
      _ = 1 := by rw [h, h', one_mul]
  linarith [sq_nonneg (a * d - b * c)]

/-- A product with a factor of at most 1 and one of at most `e`. -/
theorem abs_mul_le_of_unit {t f e : ℝ} (ht : |t| ≤ 1) (hf : |f| ≤ e) : |f * t| ≤ e := by
  rw [abs_mul]
  exact (mul_le_of_le_one_right (abs_nonneg f) ht).trans hf

/-- **A step along `(ux, uy)`** in a frame turned by the angle of `(s, c)`: the speeds along the
axes are those wanted up to `e`. -/
theorem along_turned {ux uy s c a f g e : ℝ} (hu : ux ^ 2 + uy ^ 2 = 1) (hsc : s ^ 2 + c ^ 2 = 1)
    (hf : |f| ≤ e) (hg : |g| ≤ e) :
    a * c - 2 * e ≤ ux * ((a * uy + g) * s + (a * ux + f) * c) +
      uy * ((a * uy + g) * c - (a * ux + f) * s) := by
  have hf' := abs_mul_le_of_unit
    (abs_dot_unit_le (c := c) (d := -s) hu (by rw [neg_sq, add_comm, hsc])) hf
  have hg' := abs_mul_le_of_unit (abs_dot_unit_le (c := s) (d := c) hu hsc) hg
  have hsplit : ux * ((a * uy + g) * s + (a * ux + f) * c) +
      uy * ((a * uy + g) * c - (a * ux + f) * s) =
      a * c * (ux ^ 2 + uy ^ 2) + f * (ux * c + uy * -s) + g * (ux * s + uy * c) := by ring
  rw [hsplit, hu, mul_one]
  linarith [neg_abs_le (f * (ux * c + uy * -s)), neg_abs_le (g * (ux * s + uy * c))]

/-- The length of such a step. -/
theorem turned_sq_le {ux uy s c a f g e : ℝ} (hu : ux ^ 2 + uy ^ 2 = 1) (hsc : s ^ 2 + c ^ 2 = 1)
    (hf : |f| ≤ e) (hg : |g| ≤ e) (ha : 0 ≤ a) :
    ((a * uy + g) * s + (a * ux + f) * c) ^ 2 + ((a * uy + g) * c - (a * ux + f) * s) ^ 2 ≤
      a ^ 2 + 4 * a * e + 2 * e ^ 2 := by
  have hux : |ux| ≤ 1 := (sq_le_one_iff_abs_le_one _).mp (by linarith [sq_nonneg uy])
  have huy : |uy| ≤ 1 := (sq_le_one_iff_abs_le_one _).mp (by linarith [sq_nonneg ux])
  have hfx := mul_le_mul_of_nonneg_left ((le_abs_self _).trans (abs_mul_le_of_unit hux hf)) ha
  have hgy := mul_le_mul_of_nonneg_left ((le_abs_self _).trans (abs_mul_le_of_unit huy hg)) ha
  have hsplit : ((a * uy + g) * s + (a * ux + f) * c) ^ 2 +
      ((a * uy + g) * c - (a * ux + f) * s) ^ 2 = (a ^ 2 * (ux ^ 2 + uy ^ 2) +
      2 * (a * (g * uy)) + 2 * (a * (f * ux)) + f ^ 2 + g ^ 2) * (s ^ 2 + c ^ 2) := by ring
  rw [hsplit, hu, hsc, mul_one, mul_one]
  linarith [sq_le_sq' (abs_le.mp hf).1 (abs_le.mp hf).2,
    sq_le_sq' (abs_le.mp hg).1 (abs_le.mp hg).2]

/-- The length of a vector. -/
noncomputable def hypot (x y : ℝ) : ℝ := √(x ^ 2 + y ^ 2)

theorem hypot_nonneg (x y : ℝ) : 0 ≤ hypot x y := sqrt_nonneg _

theorem hypot_sq (x y : ℝ) : hypot x y ^ 2 = x ^ 2 + y ^ 2 := sq_sqrt (by positivity)

/-- **The step ends closer to the point** at `(x, y)`, by `d`: it goes `m` in its direction and its
length squared is at most `M`, while the point is at least `w` away. -/
theorem hypot_sub_le {x y ax ay m M d w : ℝ} (hdm : d ≤ m) (hd : d ≤ w)
    (halong : m * hypot x y ≤ x * ax + y * ay) (hstep : ax ^ 2 + ay ^ 2 ≤ M)
    (hM : M - d ^ 2 ≤ 2 * (m - d) * w) (hw : w ≤ hypot x y) :
    hypot (x - ax) (y - ay) ≤ hypot x y - d := by
  have hsq := hypot_sq x y
  refine sqrt_le_iff.mpr ⟨by linarith, ?_⟩
  have hmul : 2 * (m - d) * w ≤ 2 * (m - d) * hypot x y :=
    mul_le_mul_of_nonneg_left hw (by linarith)
  calc (x - ax) ^ 2 + (y - ay) ^ 2 = hypot x y ^ 2 - 2 * (x * ax + y * ay) +
        (ax ^ 2 + ay ^ 2) := by rw [hsq]; ring
    _ ≤ hypot x y ^ 2 - 2 * (m * hypot x y) + M := by linarith
    _ ≤ (hypot x y - d) ^ 2 := by linarith [sub_sq (hypot x y) d]

/-- **A step of bounded length** leads away by at most its length. -/
theorem hypot_sub_le_add {x y ax ay r : ℝ} (hr : 0 ≤ r) (hstep : ax ^ 2 + ay ^ 2 ≤ r ^ 2) :
    hypot (x - ax) (y - ay) ≤ hypot x y + r := by
  have hnn := hypot_nonneg x y
  have hsq := hypot_sq x y
  have hdot : -(x * ax + y * ay) ≤ hypot x y * r := by
    refine (neg_le_abs _).trans (abs_le_of_sq_le_sq ?_ (by positivity))
    rw [mul_pow, hsq]
    calc (x * ax + y * ay) ^ 2 ≤ (x ^ 2 + y ^ 2) * (ax ^ 2 + ay ^ 2) := by
          linarith [sq_nonneg (x * ay - y * ax)]
      _ ≤ (x ^ 2 + y ^ 2) * r ^ 2 := mul_le_mul_of_nonneg_left hstep (by positivity)
  refine sqrt_le_iff.mpr ⟨by linarith, ?_⟩
  calc (x - ax) ^ 2 + (y - ay) ^ 2 = hypot x y ^ 2 + 2 * -(x * ax + y * ay) +
        (ax ^ 2 + ay ^ 2) := by rw [hsq]; ring
    _ ≤ hypot x y ^ 2 + 2 * (hypot x y * r) + r ^ 2 := by linarith
    _ = (hypot x y + r) ^ 2 := by ring

end HandlingRobot
