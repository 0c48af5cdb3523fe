import HandlingRobot.Library.FirstMin
import Mathlib.Algebra.BigOperators.Field
import Mathlib.Algebra.BigOperators.Intervals
import Mathlib.Algebra.Order.BigOperators.Group.Finset
import Mathlib.Algebra.Order.Field.Rat
import Mathlib.Data.List.Induction
import Mathlib.Data.Nat.Cast.Order.Field
import Mathlib.Tactic.Positivity
import Mathlib.Tactic.Ring

/-! # Splitting a histogram in two

A histogram `h` counts how often every level below `m` occurs. A level `t` splits it into the levels
up to `t` and those above; the best split has the greatest variance between the two classes.

* **`lower`**, **`upper`** — sums over the two classes.
* **`betweenVariance`** — the variance between them.
* **`IsBest`** — the least level that splits best; there is at most one (`IsBest.unique`), and it
  occurs in the histogram (`IsBest.pos`).
* **`isBest_of_scanned`** — a scan for the greatest variance finds it. -/

namespace HandlingRobot

open Finset

/-! ## The variance -/

/-- The sum over the levels up to `t`. -/
def lower (h : ℕ → ℕ) (t : ℕ) : ℕ := ∑ v ∈ range (t + 1), h v

/-- The sum over the levels above `t`. -/
def upper (m : ℕ) (h : ℕ → ℕ) (t : ℕ) : ℕ := ∑ v ∈ Ico (t + 1) m, h v

/-- Every level as often as it occurs. -/
def weigh (h : ℕ → ℕ) (v : ℕ) : ℕ := h v * v

/-- **The variance between the classes**: the product of their shares and of the squared distance
of their mean levels. -/
def betweenVariance (m : ℕ) (h : ℕ → ℕ) (t : ℕ) : ℚ :=
  let n0 : ℚ := lower h t
  let n1 : ℚ := upper m h t
  let mu0 : ℚ := lower (weigh h) t / n0
  let mu1 : ℚ := upper m (weigh h) t / n1
  n0 / (n0 + n1) * (n1 / (n0 + n1)) * (mu0 - mu1) ^ 2

theorem betweenVariance_nonneg (m : ℕ) (h : ℕ → ℕ) (t : ℕ) : 0 ≤ betweenVariance m h t := by
  unfold betweenVariance
  positivity

/-- The two classes make up the whole. -/
theorem lower_add_upper {m t : ℕ} (h : ℕ → ℕ) (ht : t < m) :
    lower h t + upper m h t = ∑ v ∈ range m, h v :=
  sum_range_add_sum_Ico h ht

/-- A class with a level that occurs. -/
theorem lower_ne_zero {t v : ℕ} {h : ℕ → ℕ} (hv : v ≤ t) (hpos : h v ≠ 0) : lower h t ≠ 0 := by
  have hle : h v ≤ lower h t :=
    single_le_sum (fun u _ => Nat.zero_le (h u)) (mem_range.mpr (Nat.lt_succ_of_le hv))
  omega

theorem upper_ne_zero {m t v : ℕ} {h : ℕ → ℕ} (hv : t < v) (hm : v < m) (hpos : h v ≠ 0) :
    upper m h t ≠ 0 := by
  have hle : h v ≤ upper m h t :=
    single_le_sum (fun u _ => Nat.zero_le (h u)) (mem_Ico.mpr ⟨hv, hm⟩)
  omega

/-- A level that does not occur makes no difference to the lower class. -/
theorem lower_succ {t : ℕ} {h : ℕ → ℕ} (hzero : h (t + 1) = 0) : lower h (t + 1) = lower h t := by
  unfold lower
  rw [sum_range_succ h (t + 1), hzero, Nat.add_zero]

/-- Nor to the upper class. -/
theorem upper_succ {m t : ℕ} {h : ℕ → ℕ} (hzero : h (t + 1) = 0) :
    upper m h (t + 1) = upper m h t := by
  unfold upper
  by_cases hlt : t + 1 < m
  · rw [sum_eq_sum_Ico_succ_bot hlt, hzero, Nat.zero_add]
  · rw [Ico_eq_empty (by omega), Ico_eq_empty (by omega)]

/-- **A level that does not occur splits like the one before.** -/
theorem betweenVariance_succ {m t : ℕ} {h : ℕ → ℕ} (hzero : h (t + 1) = 0) :
    betweenVariance m h (t + 1) = betweenVariance m h t := by
  have hzero' : weigh h (t + 1) = 0 := by rw [weigh, hzero, Nat.zero_mul]
  unfold betweenVariance
  rw [lower_succ hzero, upper_succ hzero, lower_succ hzero', upper_succ hzero']

/-! ## The best split -/

/-- **The least level from `lo` on and below `hi` that splits best.** -/
structure IsBest (m : ℕ) (h : ℕ → ℕ) (lo hi t : ℕ) : Prop where
  lo_le : lo ≤ t
  lt_hi : t < hi
  greatest : ∀ j, lo ≤ j → j < hi → betweenVariance m h j ≤ betweenVariance m h t
  first : ∀ j, lo ≤ j → j < t → betweenVariance m h j < betweenVariance m h t

theorem IsBest.unique {m : ℕ} {h : ℕ → ℕ} {lo hi t u : ℕ} (ht : IsBest m h lo hi t)
    (hu : IsBest m h lo hi u) : t = u := by
  rcases Nat.lt_trichotomy t u with hlt | heq | hlt
  · exact absurd (ht.greatest u hu.lo_le hu.lt_hi) (not_le.mpr (hu.first t ht.lo_le hlt))
  · exact heq
  · exact absurd (hu.greatest t ht.lo_le ht.lt_hi) (not_le.mpr (ht.first u hu.lo_le hlt))

/-- **The level that splits best occurs**, when the first level does. -/
theorem IsBest.pos {m : ℕ} {h : ℕ → ℕ} {lo hi t : ℕ} (ht : IsBest m h lo hi t) (hlo : h lo ≠ 0) :
    h t ≠ 0 := by
  intro hzero
  obtain ⟨k, rfl⟩ := Nat.exists_eq_add_of_le ht.lo_le
  cases k with
  | zero => exact hlo hzero
  | succ k =>
      -- the level before would do as well
      have hlt := ht.first (lo + k) (Nat.le_add_right lo k) (by omega)
      have heq : betweenVariance m h (lo + (k + 1)) = betweenVariance m h (lo + k) :=
        betweenVariance_succ hzero
      exact absurd heq hlt.ne'

/-- A list of levels in order comes apart at a level. -/
theorem mem_pre_of_range' {lo n t j : ℕ} {pre post : List ℕ}
    (hsplit : List.range' lo n = pre ++ t :: post) (hj : j ∈ List.range' lo n) (hlt : j < t) :
    j ∈ pre := by
  have hsorted : (pre ++ t :: post).Pairwise (· < ·) := hsplit ▸ List.pairwise_lt_range'
  rw [hsplit, List.mem_append, List.mem_cons] at hj
  rcases hj with hj | rfl | hj
  · exact hj
  · exact absurd hlt (Nat.lt_irrefl _)
  · have hgt := (List.pairwise_cons.mp (List.pairwise_append.mp hsorted).2.1).1 j hj
    omega

/-- **A scan for the greatest variance** that starts below 0 finds the best split. -/
theorem isBest_of_scanned {m : ℕ} {h : ℕ → ℕ} {lo hi : ℕ} (hlt : lo < hi) {a r : ℚᵒᵈ × ℕ}
    (ha : a.1 = OrderDual.toDual (-1))
    (hscan : Scanned (fun j => OrderDual.toDual (betweenVariance m h j)) a
      (List.range' lo (hi - lo)) r) : IsBest m h lo hi r.2 := by
  have hmem : ∀ {j : ℕ}, j ∈ List.range' lo (hi - lo) ↔ lo ≤ j ∧ j < hi := by
    intro j
    rw [List.mem_range'_1]
    omega
  have hbelow : OrderDual.toDual (betweenVariance m h lo) < a.1 := by
    rw [ha, OrderDual.toDual_lt_toDual]
    exact lt_of_lt_of_le (by norm_num) (betweenVariance_nonneg m h lo)
  obtain ⟨hr, hval⟩ := hscan.attained (hmem.mpr ⟨le_rfl, hlt⟩) hbelow
  refine ⟨(hmem.mp hr).1, (hmem.mp hr).2, fun j hlo hhi => ?_, fun j hlo hjt => ?_⟩
  · have hleast := hscan.least j (hmem.mpr ⟨hlo, hhi⟩)
    rw [← hval] at hleast
    exact hleast
  -- the values in front of the one selected are strictly smaller
  · rcases hscan.kept with rfl | ⟨pre, post, hsplit, -, -, hpre⟩
    · exact absurd (hscan.least lo (hmem.mpr ⟨le_rfl, hlt⟩)) (not_le.mpr hbelow)
    · have hstrict := hpre j (mem_pre_of_range' hsplit
        (hmem.mpr ⟨hlo, hjt.trans (hmem.mp hr).2⟩) hjt)
      rw [← hval] at hstrict
      exact hstrict

end HandlingRobot
