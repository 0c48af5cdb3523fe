import Mathlib.Analysis.Complex.Norm

/-! # Ways over a straight line

Two points on one side of a line, at the distances `h` and `k` from it, with their feet at `a` and
`b`. The shortest way from one to the other over a point of the line is as long as the straight way
to the mirror image of the other.

* **`detour`** — the length of the way over the point `x` of the line; **`direct`** — that of the
  way to the mirror image.
* **`isLeast_detour`** — the shortest way, which leads over `mirrorFoot`.
* **`detour_le_add`** — how much is lost over another point. -/

namespace HandlingRobot

/-- The length of the way from the point over `a` at distance `h` to the point over `b` at distance
`k`, over the point `x` of the line. -/
noncomputable def detour (a h b k x : ℝ) : ℝ := √((a - x) ^ 2 + h ^ 2) + √((b - x) ^ 2 + k ^ 2)

/-- The length of the straight way from the first point to the mirror image of the second one. -/
noncomputable def direct (a h b k : ℝ) : ℝ := √((a - b) ^ 2 + (h + k) ^ 2)

/-- Where the straight way crosses the line. -/
noncomputable def mirrorFoot (a h b k : ℝ) : ℝ := a + h * (b - a) / (h + k)

/-- The triangle inequality, in coordinates. -/
theorem sqrt_add_sq_le (u h v k : ℝ) :
    √((u + v) ^ 2 + (h + k) ^ 2) ≤ √(u ^ 2 + h ^ 2) + √(v ^ 2 + k ^ 2) := by
  have hsum : ((u + v : ℝ) + (h + k : ℝ) * Complex.I : ℂ) =
      (u + h * Complex.I) + (v + k * Complex.I) := by
    push_cast
    ring
  rw [← Complex.norm_add_mul_I, ← Complex.norm_add_mul_I, ← Complex.norm_add_mul_I, hsum]
  exact norm_add_le _ _

/-- A point moved along the line by `d` is no more than `d` nearer or farther. -/
theorem sqrt_sub_sq_le (u v h : ℝ) : √(u ^ 2 + h ^ 2) ≤ √(v ^ 2 + h ^ 2) + |u - v| := by
  have h0 := sqrt_add_sq_le v h (u - v) 0
  rwa [add_sub_cancel, add_zero, zero_pow two_ne_zero, add_zero, Real.sqrt_sq_eq_abs] at h0

/-- **No way over the line is shorter** than the one to the mirror image. -/
theorem direct_le_detour (a h b k x : ℝ) : direct a h b k ≤ detour a h b k x := by
  have h0 := sqrt_add_sq_le (a - x) h (x - b) k
  rw [sub_add_sub_cancel, ← neg_sub b x, neg_sq] at h0
  exact h0

/-- **The way over the foot is as long**: it is cut in the proportion of the distances. -/
theorem detour_mirrorFoot (a b : ℝ) {h k : ℝ} (hh : 0 < h) (hk : 0 < k) :
    detour a h b k (mirrorFoot a h b k) = direct a h b k := by
  have hsum : 0 < h + k := add_pos hh hk
  have hpart : ∀ c : ℝ, 0 < c → √((c / (h + k) * (a - b)) ^ 2 + c ^ 2) =
      c / (h + k) * direct a h b k := by
    intro c hc
    have hsq : (c / (h + k) * (a - b)) ^ 2 + c ^ 2 =
        (c / (h + k)) ^ 2 * ((a - b) ^ 2 + (h + k) ^ 2) := by
      field_simp
    rw [hsq, Real.sqrt_mul (sq_nonneg _), Real.sqrt_sq (div_nonneg hc.le hsum.le)]
    rfl
  have hfirst : a - mirrorFoot a h b k = h / (h + k) * (a - b) := by
    unfold mirrorFoot
    ring
  have hsecond : (b - mirrorFoot a h b k) ^ 2 = (k / (h + k) * (a - b)) ^ 2 := by
    unfold mirrorFoot
    field_simp
    ring
  unfold detour
  rw [hfirst, hsecond, hpart h hh, hpart k hk, ← add_mul, ← add_div, div_self hsum.ne', one_mul]

/-- **The shortest way over the line.** -/
theorem isLeast_detour (a b : ℝ) {h k : ℝ} (hh : 0 < h) (hk : 0 < k) :
    IsLeast (Set.range (detour a h b k)) (direct a h b k) := by
  refine ⟨⟨mirrorFoot a h b k, detour_mirrorFoot a b hh hk⟩, ?_⟩
  rintro _ ⟨x, rfl⟩
  exact direct_le_detour a h b k x

/-- **Another point of the line** costs at most twice its distance. -/
theorem detour_le_add (a h b k x y : ℝ) : detour a h b k x ≤ detour a h b k y + 2 * |x - y| := by
  have hfirst := sqrt_sub_sq_le (a - x) (a - y) h
  have hsecond := sqrt_sub_sq_le (b - x) (b - y) k
  rw [sub_sub_sub_cancel_left, abs_sub_comm] at hfirst hsecond
  unfold detour
  linarith

end HandlingRobot
