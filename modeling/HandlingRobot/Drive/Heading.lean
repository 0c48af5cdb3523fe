import Mathlib.Algebra.Order.Field.Rat
import Mathlib.Algebra.Order.Group.Unbundled.Abs
import Mathlib.Data.Rat.Defs
import Mathlib.Tactic.Linarith
import Mathlib.Tactic.Ring

/-! # Heading correction

`restrict_theta` and `get_Theta` of the motion planner, in exact arithmetic: the rotation the car
still has to make from the heading `cur` to the heading `tar`, in degrees.

* **`getTheta`** — the shorter of the two rotations, with the sign that the gyro confirms.
* **`ShortestTurn`** — what the rotation is for.
* **`getTheta_shortest_iff`** — it is found, unless the gyro reads 0 and the way over 0 is the
  shorter one: the sum is 360 then, which `restrict_theta` leaves as it is. -/

namespace HandlingRobot

/-- `restrict_theta`: one full turn off an angle above 360. -/
def restrictTheta (a : ℚ) : ℚ := if a > 360 then a - 360 else a

/-- **`get_Theta`**: the shorter of the two rotations between `tar` and `cur`, positive when turning
`tar` by it gives the gyro heading `theta` up to `1e-4`. -/
def getTheta (theta tar cur : ℚ) : ℚ :=
  let theta1 := |tar - cur|
  let theta2 := 360 - |tar - cur|
  let ans := if theta1 < theta2 then theta1 else theta2
  if |restrictTheta (tar + ans) - theta| < 1 / 10000 then ans else -1 * ans

/-! ## The two rotations -/

/-- The shorter of the two ways between two headings. -/
def shorterWay (tar cur : ℚ) : ℚ :=
  if |tar - cur| < 360 - |tar - cur| then |tar - cur| else 360 - |tar - cur|

theorem getTheta_eq (theta tar cur : ℚ) : getTheta theta tar cur =
    if |restrictTheta (tar + shorterWay tar cur) - theta| < 1 / 10000 then shorterWay tar cur
    else -shorterWay tar cur := by
  rw [← neg_one_mul]
  rfl

theorem shorterWay_of_le {tar cur : ℚ} (h : |tar - cur| ≤ 180) :
    shorterWay tar cur = |tar - cur| := by
  unfold shorterWay
  split_ifs with hlt
  · rfl
  · linarith

theorem shorterWay_of_lt {tar cur : ℚ} (h : 180 < |tar - cur|) :
    shorterWay tar cur = 360 - |tar - cur| :=
  if_neg (by linarith)

/-- Both ways have a length of at most half a turn. -/
theorem abs_shorterWay_le {tar cur : ℚ} (h : |tar - cur| ≤ 360) : |shorterWay tar cur| ≤ 180 := by
  have hnn := abs_nonneg (tar - cur)
  rw [abs_le]
  rcases le_or_gt |tar - cur| 180 with hle | hlt
  · rw [shorterWay_of_le hle]
    constructor <;> linarith
  · rw [shorterWay_of_lt hlt]
    constructor <;> linarith

/-- An angle and its restriction differ by full turns. -/
theorem restrictTheta_eq (a : ℚ) : ∃ k : ℤ, restrictTheta a = a - 360 * k := by
  unfold restrictTheta
  split_ifs
  · exact ⟨1, by norm_num⟩
  · exact ⟨0, by norm_num⟩

/-! ## The sign -/

/-- **A shortest turn** from the heading `tar` to the heading `cur`: at most half a turn, and right
up to full turns and the tolerance of the comparison. -/
structure ShortestTurn (tar cur r : ℚ) : Prop where
  short : |r| ≤ 180
  meets : ∃ k : ℤ, |r - (cur - tar) - 360 * k| < 1 / 10000

/-- **A rotation that passes the test** leads to `cur`. -/
theorem meets_of_test {tar cur r : ℚ} (h : |restrictTheta (tar + r) - cur| < 1 / 10000) :
    ∃ k : ℤ, |r - (cur - tar) - 360 * k| < 1 / 10000 := by
  obtain ⟨k, hk⟩ := restrictTheta_eq (tar + r)
  refine ⟨k, ?_⟩
  rwa [hk, show tar + r - 360 * k - cur = r - (cur - tar) - 360 * k by ring] at h

/-- A rotation that leads to `cur` exactly. -/
theorem meets_of_eq {tar cur r : ℚ} (k : ℤ) (h : r = cur - tar + 360 * k) :
    ∃ k : ℤ, |r - (cur - tar) - 360 * k| < 1 / 10000 :=
  ⟨k, by rw [h, show cur - tar + 360 * k - (cur - tar) - 360 * k = (0 : ℚ) by ring]; norm_num⟩

/-- The sum of the start and the way, where the rotation is positive. -/
theorem restrictTheta_self {tar cur r : ℚ} (h : restrictTheta (tar + r) = cur) :
    |restrictTheta (tar + r) - cur| < 1 / 10000 := by
  rw [h, sub_self, abs_zero]
  norm_num

/-- **A rotation that fails the test goes the other way**, but for the heading 0 that is reached by
a positive rotation. -/
theorem meets_of_not_test {tar cur : ℚ} (hcur : 0 ≤ cur ∧ cur ≤ 360)
    (h : ¬ |restrictTheta (tar + shorterWay tar cur) - cur| < 1 / 10000)
    (hzero : ¬ (cur = 0 ∧ 180 < tar)) :
    ∃ k : ℤ, |-shorterWay tar cur - (cur - tar) - 360 * k| < 1 / 10000 := by
  rcases le_total tar cur with hle | hle
  · have habs : |tar - cur| = cur - tar := by rw [abs_sub_comm, abs_of_nonneg (by linarith)]
    rcases le_or_gt (cur - tar) 180 with hhalf | hhalf
    · -- the rotation is positive, so it would have passed
      refine absurd (restrictTheta_self ?_) h
      rw [shorterWay_of_le (habs.symm ▸ hhalf), habs, add_sub_cancel]
      exact if_neg (not_lt.mpr hcur.2)
    · refine meets_of_eq (-1) ?_
      rw [shorterWay_of_lt (habs.symm ▸ hhalf), habs]
      push_cast
      ring
  · have habs : |tar - cur| = tar - cur := abs_of_nonneg (by linarith)
    rcases le_or_gt (tar - cur) 180 with hhalf | hhalf
    · refine meets_of_eq 0 ?_
      rw [shorterWay_of_le (habs.symm ▸ hhalf), habs]
      push_cast
      ring
    · -- the rotation is positive and leads over 0
      have hpos : 0 < cur := lt_of_le_of_ne hcur.1 fun h0 => hzero ⟨h0.symm, by linarith⟩
      refine absurd (restrictTheta_self ?_) h
      rw [shorterWay_of_lt (habs.symm ▸ hhalf), habs,
        show tar + (360 - (tar - cur)) = 360 + cur by ring]
      exact (if_pos (by linarith)).trans (by ring)

/-! ## The gyro at 0 -/

/-- With the gyro at 0 the way over 0 is taken backwards. -/
theorem getTheta_zero {tar : ℚ} (h : 180 < tar) : getTheta 0 tar 0 = tar - 360 := by
  have habs : |tar - 0| = tar := by rw [sub_zero, abs_of_pos (by linarith)]
  rw [getTheta_eq, shorterWay_of_lt (habs.symm ▸ h), habs, add_sub_cancel]
  norm_num [restrictTheta]

/-- That is a shortest turn at both ends of the range only. -/
theorem meets_zero_iff {tar : ℚ} (hhalf : 180 < tar) (hfull : tar < 360) :
    (∃ k : ℤ, |tar - 360 - (0 - tar) - 360 * k| < 1 / 10000) ↔
      tar < 180 + 1 / 20000 ∨ 360 - 1 / 20000 < tar := by
  constructor
  · rintro ⟨k, hk⟩
    rw [abs_lt] at hk
    -- twice the heading lies between one turn and two
    have hk0 : (-1 : ℚ) < k := by linarith
    have hk2 : (k : ℚ) < 2 := by linarith
    have hk0' : (-1 : ℤ) < k := by exact_mod_cast hk0
    have hk2' : k < 2 := by exact_mod_cast hk2
    rcases (by omega : k = 0 ∨ k = 1) with rfl | rfl
    · refine Or.inl ?_
      push_cast at hk
      linarith
    · refine Or.inr ?_
      push_cast at hk
      linarith
  · rintro (h | h)
    · refine ⟨0, ?_⟩
      push_cast
      rw [abs_lt]
      constructor <;> linarith
    · refine ⟨1, ?_⟩
      push_cast
      rw [abs_lt]
      constructor <;> linarith

/-- **When `get_Theta` finds the shortest turn**, for every target and every heading of the gyro:
unless the gyro reads 0 and the target is more than half a turn, up to the tolerance. -/
theorem getTheta_shortest_iff (tar theta : ℚ) (htar : 0 ≤ tar ∧ tar < 360)
    (htheta : 0 ≤ theta ∧ theta ≤ 360) :
    ShortestTurn tar theta (getTheta theta tar theta) ↔
      ¬ (theta = 0 ∧ 180 + 1 / 20000 ≤ tar ∧ tar ≤ 360 - 1 / 20000) := by
  have habs : |tar - theta| ≤ 360 := by
    rw [abs_le]
    constructor <;> linarith [htar.1, htheta.1]
  have hshort : |getTheta theta tar theta| ≤ 180 := by
    rw [getTheta_eq]
    split_ifs
    · exact abs_shorterWay_le habs
    · rw [abs_neg]
      exact abs_shorterWay_le habs
  by_cases hzero : theta = 0 ∧ 180 < tar
  · obtain ⟨rfl, hhalf⟩ := hzero
    have hends := meets_zero_iff hhalf htar.2
    rw [getTheta_zero hhalf] at hshort ⊢
    constructor
    · rintro ⟨-, hmeets⟩ ⟨-, hlo, hhi⟩
      rcases hends.mp hmeets with hlt | hlt <;> linarith
    · intro h
      refine ⟨hshort, hends.mpr ?_⟩
      by_contra hno
      rw [not_or, not_lt, not_lt] at hno
      exact h ⟨rfl, hno⟩
  · have hfar : ¬ (theta = 0 ∧ 180 + 1 / 20000 ≤ tar ∧ tar ≤ 360 - 1 / 20000) := by
      rintro ⟨h0, hlo, -⟩
      exact hzero ⟨h0, by linarith⟩
    refine iff_of_true ⟨hshort, ?_⟩ hfar
    rw [getTheta_eq]
    split_ifs with htest
    · exact meets_of_test htest
    · exact meets_of_not_test htheta htest hzero

/-- From 350 to 10 the car turns by 20. -/
theorem getTheta_shortest_forwards : ShortestTurn 350 10 (getTheta 10 350 10) :=
  (getTheta_shortest_iff 350 10 (by norm_num) (by norm_num)).mpr (by norm_num)

/-- The car heads for 270 and the gyro reads 0. -/
theorem getTheta_backwards :
    ¬ ∀ tar theta : ℚ, 0 ≤ tar ∧ tar < 360 → 0 ≤ theta ∧ theta ≤ 360 →
      ShortestTurn tar theta (getTheta theta tar theta) := by
  intro h
  have hturn := h 270 0 (by norm_num) (by norm_num)
  rw [getTheta_zero (by norm_num)] at hturn
  have hends := (meets_zero_iff (by norm_num) (by norm_num)).mp hturn.meets
  norm_num at hends

end HandlingRobot
