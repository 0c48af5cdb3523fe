import Mathlib.Algebra.Group.ModEq
import Mathlib.Algebra.Order.BigOperators.Group.Finset
import Mathlib.Algebra.Order.Field.Basic
import Mathlib.Tactic.Linarith
import Mathlib.Tactic.NormNum

/-! # Wrapped sums of filtered samples

A quantity that is added up on a circle, with one conditional correction for each addition, is a
true sum modulo the circle as long as no single increment exceeds a full turn. Where the increments
come out of a low-pass filter, that is a question about the samples alone.

* **`lowPass`** — one turn of a first-order low-pass filter; **`abs_lowPass_le`**, its bound.
* **`abs_sum_div_le`** — the bound of an average.
* **`wrapOnce`** — the single correction; **`Wraps`**, what it keeps, and **`Wraps.add`**, the step
  of a run. -/

namespace HandlingRobot

variable {K : Type*} [Field K] [LinearOrder K] [IsStrictOrderedRing K]

/-! ## Averages and filters -/

/-- A first-order low-pass filter: `k` parts of the new sample, the rest of the last output. -/
def lowPass (k last x : K) : K := last * (1 - k) + k * x

/-- **A low-pass filter stays within the bound of its samples.** -/
theorem abs_lowPass_le {k last x b : K} (h0 : 0 ≤ k) (h1 : k ≤ 1) (hlast : |last| ≤ b)
    (hx : |x| ≤ b) : |lowPass k last x| ≤ b := by
  have h1' : 0 ≤ 1 - k := sub_nonneg.mpr h1
  calc |last * (1 - k) + k * x|
      ≤ |last * (1 - k)| + |k * x| := abs_add_le _ _
    _ = |last| * (1 - k) + k * |x| := by rw [abs_mul, abs_mul, abs_of_nonneg h0, abs_of_nonneg h1']
    _ ≤ b * (1 - k) + k * b :=
        add_le_add (mul_le_mul_of_nonneg_right hlast h1') (mul_le_mul_of_nonneg_left hx h0)
    _ = b := by rw [mul_comm k b, ← mul_add, sub_add_cancel, mul_one]

/-- **An average stays within the bound of its samples.** -/
theorem abs_sum_div_le {n : ℕ} (hn : 0 < n) {x : ℕ → K} {b : K} (h : ∀ i < n, |x i| ≤ b) :
    |(∑ i ∈ Finset.range n, x i) / n| ≤ b := by
  have hn' : (0 : K) < n := Nat.cast_pos.mpr hn
  rw [abs_div, abs_of_pos hn', div_le_iff₀ hn']
  calc |∑ i ∈ Finset.range n, x i|
      ≤ ∑ i ∈ Finset.range n, |x i| := Finset.abs_sum_le_sum_abs _ _
    _ ≤ ∑ _i ∈ Finset.range n, b := Finset.sum_le_sum fun i hi => h i (Finset.mem_range.mp hi)
    _ = b * n := by rw [Finset.sum_const, Finset.card_range, nsmul_eq_mul, mul_comm]

/-! ## The single correction -/

/-- One correction by a full turn at most. -/
def wrapOnce (full a : K) : K := if a < 0 then a + full else if a > full then a - full else a

omit [IsStrictOrderedRing K] in
/-- The correction changes nothing modulo a full turn. -/
theorem wrapOnce_modEq (full a : K) : wrapOnce full a ≡ a [PMOD full] := by
  rw [wrapOnce]
  split_ifs
  · exact AddCommGroup.add_modEq_left.mpr AddCommGroup.self_modEq_zero
  · exact AddCommGroup.modEq_iff_zsmul.mpr ⟨1, by rw [one_zsmul, sub_sub_cancel]⟩
  · exact AddCommGroup.modEq_rfl

/-- **One correction is enough** for what is at most a full turn out of range. -/
theorem wrapOnce_mem {full a : K} (hlo : -full ≤ a) (hhi : a ≤ full + full) :
    0 ≤ wrapOnce full a ∧ wrapOnce full a ≤ full := by
  rw [wrapOnce]
  split_ifs with hneg hbig
  · exact ⟨by linarith, by linarith⟩
  · exact ⟨by linarith, by linarith⟩
  · exact ⟨not_lt.mp hneg, not_lt.mp hbig⟩

/-- **A wrapped total**: within one turn, and the true total up to full turns. -/
structure Wraps (full a total : K) : Prop where
  nonneg : 0 ≤ a
  le : a ≤ full
  modEq : a ≡ total [PMOD full]

/-- **The step of a wrapped sum**: an increment of at most a full turn, then one correction. -/
theorem Wraps.add {full a total inc : K} (h : Wraps full a total) (hinc : |inc| ≤ full) :
    Wraps full (wrapOnce full (a + inc)) (total + inc) := by
  obtain ⟨hlo, hhi⟩ := abs_le.mp hinc
  have hmem : 0 ≤ wrapOnce full (a + inc) ∧ wrapOnce full (a + inc) ≤ full :=
    wrapOnce_mem (by linarith [h.nonneg]) (add_le_add h.le hhi)
  exact ⟨hmem.1, hmem.2, (wrapOnce_modEq full (a + inc)).trans (h.modEq.add_right inc)⟩

end HandlingRobot
