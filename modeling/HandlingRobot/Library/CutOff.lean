import Mathlib.Algebra.Order.Field.Basic
import Mathlib.Algebra.Order.Ring.Abs
import Mathlib.Data.Int.Cast.Lemmas
import Mathlib.Tactic.Linarith

/-! # Quotients that are cut off

The integer division of the language rounds towards zero.

* **`abs_mul_tdiv_sub_lt`**, **`abs_tdiv_sub_div_lt`** — how much is cut off, as an integer and in
  an ordered field.
* **`tdiv_add_mul`** — a multiple of the divisor moves the quotient.
* **`share_between`** — a share of a number lies between 0 and the number. -/

namespace HandlingRobot

/-- **Less than the divisor is cut off.** -/
theorem abs_mul_tdiv_sub_lt (n : ℤ) {k : ℤ} (hk : 0 < k) : |k * n.tdiv k - n| < k := by
  have hdiv := Int.mul_tdiv_add_tmod n k
  have hlt := Int.tmod_lt_of_pos n hk
  have hgt := Int.lt_tmod_of_pos n hk
  rw [abs_lt]
  omega

/-- **Less than 1 is cut off** the quotient. -/
theorem abs_tdiv_sub_div_lt {K : Type*} [Field K] [LinearOrder K] [IsStrictOrderedRing K] (n : ℤ)
    {k : ℤ} (hk : 0 < k) : |(n.tdiv k : K) - n / k| < 1 := by
  have hk' : (0 : K) < k := Int.cast_pos.mpr hk
  have hcut : |(k : K) * n.tdiv k - n| < k := by exact_mod_cast abs_mul_tdiv_sub_lt n hk
  have hdiv : (n.tdiv k : K) - n / k = (k * n.tdiv k - n) / k := by
    rw [sub_div, mul_div_cancel_left₀ _ hk'.ne']
  rwa [hdiv, abs_div, abs_of_pos hk', div_lt_one hk']

/-- A multiple of the divisor moves the quotient, as long as the numbers are not negative. -/
theorem tdiv_add_mul {n d k : ℤ} (hk : 0 < k) (hn : 0 ≤ n) (hn' : 0 ≤ n + d * k) :
    (n + d * k).tdiv k = n.tdiv k + d := by
  rw [Int.tdiv_eq_ediv_of_nonneg hn', Int.tdiv_eq_ediv_of_nonneg hn,
    Int.add_mul_ediv_right _ _ hk.ne']

/-- **A share of `b`** lies between 0 and `b`. -/
theorem share_between {a c : ℤ} (b : ℤ) (ha : 0 ≤ a) (hac : a ≤ c) (hc : 0 < c) :
    min 0 b ≤ (a * b).tdiv c ∧ (a * b).tdiv c ≤ max 0 b := by
  have hpos : ∀ {b : ℤ}, 0 ≤ b → 0 ≤ (a * b).tdiv c ∧ (a * b).tdiv c ≤ b := by
    intro b hb
    refine ⟨Int.tdiv_nonneg (mul_nonneg ha hb) hc.le, ?_⟩
    rw [Int.tdiv_eq_ediv_of_nonneg (mul_nonneg ha hb)]
    exact Int.ediv_le_of_le_mul hc (by nlinarith)
  rcases le_total 0 b with hb | hb
  · obtain ⟨h0, h1⟩ := hpos hb
    omega
  · -- the quotient of the negated number
    obtain ⟨h0, h1⟩ := hpos (b := -b) (by omega)
    rw [mul_neg, Int.neg_tdiv] at h0 h1
    omega

end HandlingRobot
