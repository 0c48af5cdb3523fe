import Mathlib.Analysis.InnerProductSpace.Basic
import Mathlib.Analysis.SpecialFunctions.Complex.Arg

/-! # Pursuit with a lag

A vehicle heads for a point, but its velocity follows the direction it steers through a low-pass
filter, and the direction it steers leads the direction of the point by what that has changed in the
last step. The plane is `ℂ`, so that a turned frame is a product with a unit.

* **`direction`** — the unit vector of an angle.
* **`norm_unit_sub_le`** — the direction of a far point changes little in a step.
* **`lag_le`** — the velocity is off the one wanted by a lag that shrinks, up to this change.
* **`gap_le`** — a step comes closer to the point, up to the lag.
* **`pursuit_step`** — the distance and a multiple of the lag together fall in every step. -/

namespace HandlingRobot

open Complex ComplexConjugate

/-! ## Directions -/

/-- The unit vector of an angle. -/
noncomputable def direction (a : ℝ) : ℂ := exp (a * I)

@[simp] theorem norm_direction (a : ℝ) : ‖direction a‖ = 1 := norm_exp_ofReal_mul_I a

theorem direction_add (a b : ℝ) : direction (a + b) = direction a * direction b := by
  rw [direction, ofReal_add, add_mul, exp_add]
  rfl

theorem direction_re (a : ℝ) : (direction a).re = Real.cos a := exp_ofReal_mul_I_re a

theorem direction_im (a : ℝ) : (direction a).im = Real.sin a := exp_ofReal_mul_I_im a

/-- **Leading by the last change** is off by that change. -/
theorem norm_direction_ahead (a b : ℝ) :
    ‖direction (b + (b - a)) - direction b‖ = ‖direction b - direction a‖ := by
  have hback : direction b * direction (b - a) - direction b =
      direction (b - a) * (direction b - direction a) := by
    have hsplit : direction (b - a) * direction a = direction b := by
      rw [← direction_add, sub_add_cancel]
    rw [mul_sub, hsplit, mul_comm]
  rw [direction_add, hback, norm_mul, norm_direction, one_mul]

section Inner

variable {V : Type*} [NormedAddCommGroup V] [InnerProductSpace ℝ V]

open scoped RealInnerProductSpace

/-- **The direction of a far point changes little.** -/
theorem norm_unit_sub_le {x y : V} {w : ℝ} (hw : 0 < w) (hx : w ≤ ‖x‖) (hy : w ≤ ‖y‖) :
    ‖‖x‖⁻¹ • x - ‖y‖⁻¹ • y‖ ≤ ‖x - y‖ / w := by
  have hx0 := hw.trans_le hx
  have hy0 := hw.trans_le hy
  have hcross : ‖‖x‖⁻¹ • x - ‖y‖⁻¹ • y‖ ^ 2 * (‖x‖ * ‖y‖) = 2 * (‖x‖ * ‖y‖ - ⟪x, y⟫) := by
    rw [norm_sub_sq_real, norm_smul, norm_smul, real_inner_smul_left, real_inner_smul_right,
      norm_inv, norm_inv, norm_norm, norm_norm]
    field_simp
    ring
  have hdist := norm_sub_sq_real x y
  rw [le_div_iff₀ hw]
  refine abs_le_of_sq_le_sq' ?_ (norm_nonneg _) |>.2
  calc (‖‖x‖⁻¹ • x - ‖y‖⁻¹ • y‖ * w) ^ 2 =
        ‖‖x‖⁻¹ • x - ‖y‖⁻¹ • y‖ ^ 2 * (w * w) := by ring
    _ ≤ ‖‖x‖⁻¹ • x - ‖y‖⁻¹ • y‖ ^ 2 * (‖x‖ * ‖y‖) := by gcongr
    _ = ‖x - y‖ ^ 2 - (‖x‖ - ‖y‖) ^ 2 := by rw [hcross, hdist]; ring
    _ ≤ ‖x - y‖ ^ 2 := sub_le_self _ (sq_nonneg _)

/-- **A step towards a point**: only what it goes across is lost, and of that only the square. -/
theorem norm_sub_le_of_inner {x s : V} {w : ℝ} (hw : 0 < w) (hx : w ≤ ‖x‖) :
    ‖x - s‖ ≤ ‖x‖ - ⟪‖x‖⁻¹ • x, s⟫ + ‖s‖ ^ 2 / (2 * w) := by
  have hx0 := hw.trans_le hx
  have hinner : ⟪x, s⟫ = ‖x‖ * ⟪‖x‖⁻¹ • x, s⟫ := by
    rw [real_inner_smul_left, mul_inv_cancel_left₀ hx0.ne']
  have hunit : ⟪‖x‖⁻¹ • x, s⟫ ≤ ‖s‖ := by
    refine (real_inner_le_norm _ _).trans_eq ?_
    rw [norm_smul, norm_inv, norm_norm, inv_mul_cancel₀ hx0.ne', one_mul]
  generalize ⟪‖x‖⁻¹ • x, s⟫ = m at hinner hunit ⊢
  have hlost : ‖s‖ ^ 2 / (2 * ‖x‖) ≤ ‖s‖ ^ 2 / (2 * w) := by gcongr
  have hsq : 2 * ‖x‖ * (‖s‖ ^ 2 / (2 * ‖x‖)) = ‖s‖ ^ 2 := by field_simp
  have hnonneg : 0 ≤ ‖x‖ - m + ‖s‖ ^ 2 / (2 * ‖x‖) := by
    have hmul : 0 ≤ 2 * ‖x‖ * (‖x‖ - m + ‖s‖ ^ 2 / (2 * ‖x‖)) := by
      linarith [sq_nonneg (‖x‖ - ‖s‖), mul_le_mul_of_nonneg_left hunit hx0.le, sq_nonneg ‖x‖]
    exact nonneg_of_mul_nonneg_right hmul (by positivity)
  refine (abs_le_of_sq_le_sq' ?_ hnonneg).2.trans (by linarith)
  rw [norm_sub_sq_real, hinner]
  linarith [sq_nonneg (‖s‖ ^ 2 / (2 * ‖x‖) - m)]

end Inner

/-! ## The pursuit -/

section Pursuit

open scoped RealInnerProductSpace

variable {x s l l' e r u u' a : ℂ} {v κ γ η c w ε S : ℝ}

/-- **The lag**: the filter forgets it, and the changes of the direction add to it. -/
theorem lag_le (hv : 0 ≤ v) (hκ : 0 ≤ κ) (hκ' : κ ≤ 1) (hl : l' = κ * l + (1 - κ : ℝ) * (v * a))
    (ha : ‖a - u'‖ = ‖u' - u‖) : ‖l' - v * u'‖ ≤ κ * ‖l - v * u‖ + v * ‖u' - u‖ := by
  have hsplit : l' - v * u' =
      κ * (l - v * u) + (-(κ * v : ℝ) * (u' - u) + ((1 - κ) * v : ℝ) * (a - u')) := by
    rw [hl]
    push_cast
    ring
  have hturn : ‖-((κ * v : ℝ) : ℂ) * (u' - u)‖ = κ * v * ‖u' - u‖ := by
    rw [norm_mul, norm_neg, norm_real, Real.norm_of_nonneg (by positivity)]
  have hlead : ‖(((1 - κ) * v : ℝ) : ℂ) * (a - u')‖ = (1 - κ) * v * ‖u' - u‖ := by
    rw [norm_mul, norm_real, ha, Real.norm_of_nonneg (mul_nonneg (sub_nonneg.mpr hκ') hv)]
  have hold : ‖(κ : ℂ) * (l - v * u)‖ = κ * ‖l - v * u‖ := by
    rw [norm_mul, norm_real, Real.norm_of_nonneg hκ]
  rw [hsplit]
  linarith [norm_add_le ((κ : ℂ) * (l - v * u))
    (-((κ * v : ℝ) : ℂ) * (u' - u) + (((1 - κ) * v : ℝ) : ℂ) * (a - u')),
    norm_add_le (-((κ * v : ℝ) : ℂ) * (u' - u)) ((((1 - κ) * v : ℝ) : ℂ) * (a - u'))]

/-- **How far a step goes in the direction steered**: its frame is turned by `r`, and its velocity
is off the filtered one by `e`. -/
theorem le_inner_step (hv : 0 ≤ v) (hγ : 0 ≤ γ) (hu : ‖u‖ = 1) (hr : ‖r‖ = 1) (hc : c ≤ r.re)
    (he : ‖e‖ ≤ η) (hs : s = (γ * l + e) * r) : γ * (v * c - ‖l - v * u‖) - η ≤ ⟪u, s⟫ := by
  have hsplit : s = (γ * v : ℝ) • (u * r) + (γ * (l - v * u) + e) * r := by
    rw [hs, real_smul]
    push_cast
    ring
  have halong : ⟪u, u * r⟫ = r.re := by
    rw [Complex.inner, mul_right_comm, mul_conj, normSq_eq_norm_sq, hu]
    simp
  have hoff : ‖(γ * (l - v * u) + e) * r‖ ≤ γ * ‖l - v * u‖ + η := by
    rw [norm_mul, hr, mul_one]
    refine (norm_add_le _ _).trans (add_le_add ?_ he)
    rw [norm_mul, norm_real, Real.norm_of_nonneg hγ]
  have hinner := neg_abs_le ⟪u, (γ * (l - v * u) + e) * r⟫
  have habs := abs_real_inner_le_norm u ((γ * (l - v * u) + e) * r)
  rw [hu, one_mul] at habs
  rw [hsplit, inner_add_right, real_inner_smul_right, halong]
  linarith [mul_le_mul_of_nonneg_left hc (mul_nonneg hγ hv)]

/-- **The distance** after a step. -/
theorem gap_le (hv : 0 ≤ v) (hγ : 0 ≤ γ) (hw : 0 < w) (hx : w ≤ ‖x‖) (hu : ‖u‖ = 1)
    (hux : ‖u - x / ‖x‖‖ ≤ ε) (hr : ‖r‖ = 1) (hc : c ≤ r.re) (he : ‖e‖ ≤ η)
    (hs : s = (γ * l + e) * r) (hS : ‖s‖ ≤ S) :
    ‖x - s‖ ≤ ‖x‖ - (γ * (v * c - ‖l - v * u‖) - η) + ε * S + S ^ 2 / (2 * w) := by
  have hunit : x / ‖x‖ = ‖x‖⁻¹ • x := by rw [real_smul, ofReal_inv, inv_mul_eq_div]
  rw [hunit] at hux
  have hS0 := (norm_nonneg s).trans hS
  have hlost : ‖s‖ ^ 2 / (2 * w) ≤ S ^ 2 / (2 * w) := by gcongr
  have hsteer : ⟪u, s⟫ - ε * S ≤ ⟪‖x‖⁻¹ • x, s⟫ := by
    have hoff := (real_inner_le_norm (u - ‖x‖⁻¹ • x) s).trans
      (mul_le_mul hux hS (norm_nonneg s) ((norm_nonneg _).trans hux))
    rw [inner_sub_left] at hoff
    linarith
  linarith [norm_sub_le_of_inner (s := s) hw hx, le_inner_step hv hγ hu hr hc he hs]

/-- **A step of the pursuit.** As long as the point is at least `w` away, the distance and `k` times
the lag together fall by what a step gains, less what the lag grows by. -/
theorem pursuit_step {k : ℝ} (hv : 0 ≤ v) (hγ : 0 ≤ γ) (hw : 0 < w) (hκ : 0 ≤ κ) (hκ' : κ ≤ 1)
    (hk : γ ≤ k * (1 - κ)) (hk0 : 0 ≤ k) (hx : w ≤ ‖x‖) (hx' : w ≤ ‖x - s‖)
    (hu : ‖u‖ = 1) (hux : ‖u - x / ‖x‖‖ ≤ ε) (hux' : ‖u' - (x - s) / ‖x - s‖‖ ≤ ε)
    (hr : ‖r‖ = 1) (hc : c ≤ r.re) (he : ‖e‖ ≤ η) (hs : s = (γ * l + e) * r) (hS : ‖s‖ ≤ S)
    (hl : l' = κ * l + (1 - κ : ℝ) * (v * a)) (ha : ‖a - u'‖ = ‖u' - u‖) :
    ‖x - s‖ + k * ‖l' - v * u'‖ ≤ ‖x‖ + k * ‖l - v * u‖ -
      (γ * v * c - η - ε * S - S ^ 2 / (2 * w) - k * v * (S / w + 2 * ε)) := by
  have hturn : ‖u' - u‖ ≤ S / w + 2 * ε := by
    have hfar : ‖(x - s) / ‖x - s‖ - x / ‖x‖‖ ≤ S / w := by
      have hunit := norm_unit_sub_le hw hx' hx
      rw [real_smul, real_smul, ofReal_inv, ofReal_inv, inv_mul_eq_div, inv_mul_eq_div,
        sub_sub_cancel_left, norm_neg] at hunit
      exact hunit.trans (by gcongr)
    have hsplit : u' - u = (u' - (x - s) / ‖x - s‖) +
        ((x - s) / ‖x - s‖ - x / ‖x‖) - (u - x / ‖x‖) := by ring
    rw [hsplit]
    linarith [norm_sub_le ((u' - (x - s) / ‖x - s‖) + ((x - s) / ‖x - s‖ - x / ‖x‖))
      (u - x / ‖x‖), norm_add_le (u' - (x - s) / ‖x - s‖) ((x - s) / ‖x - s‖ - x / ‖x‖)]
  have hlag := mul_le_mul_of_nonneg_left (lag_le hv hκ hκ' hl ha) hk0
  have hgap := gap_le hv hγ hw hx hu hux hr hc he hs hS
  have hvturn := mul_le_mul_of_nonneg_left hturn (mul_nonneg hk0 hv)
  linarith [mul_le_mul_of_nonneg_right hk (norm_nonneg (l - v * u))]

end Pursuit

end HandlingRobot
