import Mathlib.Analysis.SpecialFunctions.Trigonometric.Angle
import Mathlib.Analysis.SpecialFunctions.Trigonometric.Arctan

/-! # Bearings

The direction of a displacement in the plane, measured clockwise from the positive `y` axis.

* **`PointsAlong`** — a displacement points along an angle, with its symmetries: a mirroring of
  either axis, the exchange of the axes, half a turn and a full turn.
* **`pointsAlong_arctan`** — the arc tangent gives the angle of the upper half plane; the symmetries
  carry it to the rest.
* **`IsBearing`** — the bearing in degrees, of which there is one only: **`IsBearing.unique`**. -/

namespace HandlingRobot

open Real

/-! ## Directions -/

/-- The displacement `(x, y)` points along the angle `φ`. -/
def PointsAlong (φ x y : ℝ) : Prop := ∃ r > 0, x = r * sin φ ∧ y = r * cos φ

namespace PointsAlong

variable {φ ψ x y : ℝ}

/-- The mirroring of the `x` axis. -/
theorem neg (h : PointsAlong φ x y) : PointsAlong (-φ) (-x) y := by
  obtain ⟨r, hr, rfl, rfl⟩ := h
  exact ⟨r, hr, by rw [sin_neg, mul_neg], by rw [cos_neg]⟩

/-- The mirroring of the `y` axis. -/
theorem pi_sub (h : PointsAlong φ x y) : PointsAlong (π - φ) x (-y) := by
  obtain ⟨r, hr, rfl, rfl⟩ := h
  exact ⟨r, hr, by rw [sin_pi_sub], by rw [cos_pi_sub, mul_neg]⟩

/-- The exchange of the axes. -/
theorem pi_div_two_sub (h : PointsAlong φ x y) : PointsAlong (π / 2 - φ) y x := by
  obtain ⟨r, hr, rfl, rfl⟩ := h
  exact ⟨r, hr, by rw [sin_pi_div_two_sub], by rw [cos_pi_div_two_sub]⟩

/-- Half a turn. -/
theorem add_pi (h : PointsAlong φ x y) : PointsAlong (φ + π) (-x) (-y) := by
  obtain ⟨r, hr, rfl, rfl⟩ := h
  exact ⟨r, hr, by rw [sin_add_pi, mul_neg], by rw [cos_add_pi, mul_neg]⟩

/-- A full turn. -/
theorem add_two_pi (h : PointsAlong φ x y) : PointsAlong (φ + 2 * π) x y := by
  obtain ⟨r, hr, rfl, rfl⟩ := h
  exact ⟨r, hr, by rw [sin_add_two_pi], by rw [cos_add_two_pi]⟩

/-- **A direction is one angle**, up to full turns. -/
theorem angle_eq (hφ : PointsAlong φ x y) (hψ : PointsAlong ψ x y) : (φ : Real.Angle) = ψ := by
  obtain ⟨r, hr, hx, hy⟩ := hφ
  obtain ⟨s, hs, rfl, rfl⟩ := hψ
  -- both radii are the length of the displacement
  have hsq : r ^ 2 = s ^ 2 := by
    calc r ^ 2 = (r * sin φ) ^ 2 + (r * cos φ) ^ 2 := by
          rw [mul_pow, mul_pow, ← mul_add, sin_sq_add_cos_sq, mul_one]
      _ = (s * sin ψ) ^ 2 + (s * cos ψ) ^ 2 := by rw [← hx, ← hy]
      _ = s ^ 2 := by rw [mul_pow, mul_pow, ← mul_add, sin_sq_add_cos_sq, mul_one]
  obtain rfl : r = s := (pow_left_inj₀ hr.le hs.le two_ne_zero).mp hsq
  exact Real.Angle.cos_sin_inj (mul_left_cancel₀ hr.ne' hy).symm (mul_left_cancel₀ hr.ne' hx).symm

end PointsAlong

/-- **The arc tangent in the upper half plane.** -/
theorem pointsAlong_arctan {x y : ℝ} (hy : 0 < y) : PointsAlong (arctan (x / y)) x y := by
  have hcos := cos_arctan_pos (x / y)
  refine ⟨y / cos (arctan (x / y)), div_pos hy hcos, ?_, ?_⟩
  · rw [div_mul_eq_mul_div, mul_div_assoc, ← tan_eq_sin_div_cos, tan_arctan,
      mul_div_cancel₀ x hy.ne']
  · rw [div_mul_cancel₀ _ hcos.ne']

/-- The positive `y` axis. -/
theorem pointsAlong_zero {y : ℝ} (hy : 0 < y) : PointsAlong 0 0 y :=
  ⟨y, hy, by rw [sin_zero, mul_zero], by rw [cos_zero, mul_one]⟩

/-- The positive `x` axis. -/
theorem pointsAlong_pi_div_two {x : ℝ} (hx : 0 < x) : PointsAlong (π / 2) x 0 := by
  have h := (pointsAlong_zero hx).pi_div_two_sub
  rwa [sub_zero] at h

/-! ## Bearings in degrees -/

/-- `a` is the bearing of `(x, y)` in degrees. -/
structure IsBearing (a x y : ℝ) : Prop where
  nonneg : 0 ≤ a
  lt : a < 360
  along : PointsAlong (a * π / 180) x y

/-- **A displacement has one bearing.** -/
theorem IsBearing.unique {a b x y : ℝ} (ha : IsBearing a x y) (hb : IsBearing b x y) : a = b := by
  obtain ⟨k, hk⟩ := Real.Angle.angle_eq_iff_two_pi_dvd_sub.mp (ha.along.angle_eq hb.along)
  have hdiff : a - b = 360 * k := by
    have hpi := pi_ne_zero
    field_simp at hk
    linarith
  -- the difference is less than a full turn
  have hlo : (-1 : ℝ) < k := by linarith [ha.nonneg, hb.lt]
  have hhi : (k : ℝ) < 1 := by linarith [hb.nonneg, ha.lt]
  have hlo' : -1 < k := by exact_mod_cast hlo
  have hhi' : k < 1 := by exact_mod_cast hhi
  obtain rfl : k = 0 := by omega
  rwa [Int.cast_zero, mul_zero, sub_eq_zero] at hdiff

/-- The bearing of an angle within one turn. -/
theorem PointsAlong.isBearing {a φ x y : ℝ} (h : PointsAlong φ x y) (ha : a = φ * 180 / π)
    (h0 : 0 ≤ φ) (h1 : φ < 2 * π) : IsBearing a x y := by
  subst ha
  refine ⟨by positivity, ?_, ?_⟩
  · rw [div_lt_iff₀ pi_pos]
    linarith
  · rwa [div_mul_cancel₀ _ pi_ne_zero, mul_div_cancel_right₀ _ (by norm_num)]

end HandlingRobot
