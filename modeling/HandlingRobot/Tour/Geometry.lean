import Mathlib.Algebra.Order.Field.Rat
import Mathlib.Algebra.Order.Ring.Abs
import Mathlib.Data.Int.Sqrt
import Mathlib.Data.Rat.Floor
import Mathlib.Tactic.Linarith
import Mathlib.Tactic.Ring

/-! # Distances on the field

* **`calcDis`** — the distance of two points, cut off to an integer.
* **`calcTag`** — the length of a detour over one side of the field; it leaves the point on that
  side in `tmpx`, `tmpy`, and it divides by a number that can be zero.
* **`calcDis32`**, **`calcTag32`** — the same with the `int` of the code, which wraps around;
  **`toInt_calcDis32`** — the distances agree as long as the sum of the squares is an `int`. -/

namespace HandlingRobot

/-- `width` and `height` of the field. -/
def width : ℤ := 700
@[inherit_doc width] def height : ℤ := 500

/-- `ex_dis_L`, `ex_dis_R` and `ex_dis_T`: how far outside the field the sides are approached. -/
def exDisL : ℤ := 30
@[inherit_doc exDisL] def exDisR : ℤ := 15
@[inherit_doc exDisL] def exDisT : ℤ := -20

/-- `inf`, the largest distance. -/
def inf : ℤ := 0x3f3f3f3f

/-- The truncation `(int)x`. -/
def truncate (x : ℚ) : ℤ := x.num.tdiv x.den

theorem truncate_of_nonneg {x : ℚ} (h : 0 ≤ x) : truncate x = ⌊x⌋₊ := by
  rw [Int.natCast_floor_eq_floor h, truncate, Rat.floor_def',
    Int.tdiv_eq_ediv_of_nonneg (Rat.num_nonneg.mpr h)]

theorem truncate_neg (x : ℚ) : truncate (-x) = -truncate x := by
  rw [truncate, truncate, Rat.neg_num, Rat.neg_den, Int.neg_tdiv]

/-- A truncation moves a number by less than 1. -/
theorem abs_truncate_sub_lt (x : ℚ) : |truncate x - x| < 1 := by
  have hnonneg : ∀ y : ℚ, 0 ≤ y → |truncate y - y| < 1 := by
    intro y hy
    rw [truncate_of_nonneg hy, Int.cast_natCast, abs_sub_comm,
      abs_of_nonneg (sub_nonneg.mpr (Nat.floor_le hy))]
    linarith [Nat.lt_floor_add_one y]
  rcases le_total 0 x with h | h
  · exact hnonneg x h
  · have hneg := hnonneg (-x) (neg_nonneg.mpr h)
    rwa [truncate_neg, Int.cast_neg, neg_sub_neg, abs_sub_comm] at hneg

/-- `chkmin(&x, y)`: the new value of `x`, and whether it changed. -/
def chkmin (x y : ℤ) : ℤ × Bool := if x > y then (y, true) else (x, false)

/-- The distance of `(x1, y1)` and `(x2, y2)`, as `sqrt` gives it and the type cuts it off. The
squares are exact here, see `toInt_calcDis32`. -/
def calcDis (x1 y1 x2 y2 : ℤ) : ℤ :=
  let dx := x1 - x2
  let dy := y1 - y2
  Int.sqrt (dx * dx + dy * dy)

/-- Distinct points are at least one unit apart. -/
theorem one_le_calcDis {x1 y1 x2 y2 : ℤ} (h : (x1, y1) ≠ (x2, y2)) : 1 ≤ calcDis x1 y1 x2 y2 := by
  have hsq : 1 ≤ (x1 - x2) * (x1 - x2) + (y1 - y2) * (y1 - y2) := by
    by_cases hx : x1 = x2
    · have hy : y1 - y2 ≠ 0 := fun hy => h (by rw [hx, sub_eq_zero.mp hy])
      have hpos : 0 < (y1 - y2) * (y1 - y2) := mul_self_pos.mpr hy
      have hnn : 0 ≤ (x1 - x2) * (x1 - x2) := mul_self_nonneg _
      omega
    · have hpos : 0 < (x1 - x2) * (x1 - x2) := mul_self_pos.mpr (sub_ne_zero.mpr hx)
      have hnn : 0 ≤ (y1 - y2) * (y1 - y2) := mul_self_nonneg _
      omega
  unfold calcDis Int.sqrt
  have hroot : 1 ≤ Nat.sqrt ((x1 - x2) * (x1 - x2) + (y1 - y2) * (y1 - y2)).toNat := by
    rw [Nat.le_sqrt]
    omega
  exact Int.ofNat_le.mpr hroot

theorem calcDis_nonneg (x1 y1 x2 y2 : ℤ) : 0 ≤ calcDis x1 y1 x2 y2 := Int.sqrt_nonneg _

/-- A distance lies below every number whose square lies above that of the distance. -/
theorem calcDis_lt {x1 y1 x2 y2 c : ℤ} (hc : 0 ≤ c)
    (h : (x1 - x2) * (x1 - x2) + (y1 - y2) * (y1 - y2) < c * c) : calcDis x1 y1 x2 y2 < c := by
  obtain ⟨k, rfl⟩ := Int.eq_ofNat_of_zero_le hc
  have hnn : 0 ≤ (x1 - x2) * (x1 - x2) + (y1 - y2) * (y1 - y2) :=
    add_nonneg (mul_self_nonneg _) (mul_self_nonneg _)
  obtain ⟨m, hm⟩ := Int.eq_ofNat_of_zero_le hnn
  rw [hm] at h
  have hlt : m < k * k := by exact_mod_cast h
  unfold calcDis Int.sqrt
  simp only [hm, Int.toNat_natCast]
  exact_mod_cast Nat.sqrt_lt.mpr hlt

/-- The square of the distance lies below the square of the next integer. -/
theorem lt_calcDis_succ_sq (x1 y1 x2 y2 : ℤ) :
    (x1 - x2) * (x1 - x2) + (y1 - y2) * (y1 - y2) < (calcDis x1 y1 x2 y2 + 1) ^ 2 := by
  have hnn : 0 ≤ (x1 - x2) * (x1 - x2) + (y1 - y2) * (y1 - y2) :=
    add_nonneg (mul_self_nonneg _) (mul_self_nonneg _)
  obtain ⟨m, hm⟩ := Int.eq_ofNat_of_zero_le hnn
  have hroot : m < (Nat.sqrt m + 1) ^ 2 := Nat.lt_succ_sqrt' m
  unfold calcDis Int.sqrt
  simp only [hm, Int.toNat_natCast]
  exact_mod_cast hroot

/-- **A step of length at most `c`** shortens the distance by at most `c`. -/
theorem calcDis_le_add {x1 y1 x2 y2 c : ℤ} (ex ey : ℤ) (hc : 0 ≤ c)
    (h : (x1 - x2) ^ 2 + (y1 - y2) ^ 2 ≤ c ^ 2) :
    calcDis x1 y1 ex ey ≤ c + calcDis x2 y2 ex ey := by
  generalize hr : calcDis x2 y2 ex ey + 1 = r
  have hrpos : 0 < r := by
    have hnn := calcDis_nonneg x2 y2 ex ey
    omega
  have hp : (x2 - ex) ^ 2 + (y2 - ey) ^ 2 < r ^ 2 := by
    have hlt := lt_calcDis_succ_sq x2 y2 ex ey
    rw [hr] at hlt
    linarith [sq (x2 - ex), sq (y2 - ey)]
  -- the inner product of the step and the rest of the way
  have hinner : (x2 - ex) * (x1 - x2) + (y2 - ey) * (y1 - y2) ≤ r * c := by
    have hsq : ((x2 - ex) * (x1 - x2) + (y2 - ey) * (y1 - y2)) ^ 2 ≤ (r * c) ^ 2 := by
      have hcs : ((x2 - ex) * (x1 - x2) + (y2 - ey) * (y1 - y2)) ^ 2 ≤
          ((x2 - ex) ^ 2 + (y2 - ey) ^ 2) * ((x1 - x2) ^ 2 + (y1 - y2) ^ 2) := by
        linarith [sq_nonneg ((x2 - ex) * (y1 - y2) - (y2 - ey) * (x1 - x2))]
      calc ((x2 - ex) * (x1 - x2) + (y2 - ey) * (y1 - y2)) ^ 2
          ≤ ((x2 - ex) ^ 2 + (y2 - ey) ^ 2) * ((x1 - x2) ^ 2 + (y1 - y2) ^ 2) := hcs
        _ ≤ r ^ 2 * c ^ 2 :=
            mul_le_mul hp.le h (add_nonneg (sq_nonneg _) (sq_nonneg _)) (sq_nonneg r)
        _ = (r * c) ^ 2 := (mul_pow r c 2).symm
    exact (abs_le.mp (abs_le_of_sq_le_sq hsq (mul_nonneg hrpos.le hc))).2
  have hsum : (x1 - ex) * (x1 - ex) + (y1 - ey) * (y1 - ey) < (c + r) ^ 2 := by
    have hexpand : (x1 - ex) * (x1 - ex) + (y1 - ey) * (y1 - ey) =
        ((x2 - ex) ^ 2 + (y2 - ey) ^ 2) + 2 * ((x2 - ex) * (x1 - x2) + (y2 - ey) * (y1 - y2)) +
          ((x1 - x2) ^ 2 + (y1 - y2) ^ 2) := by ring
    have hsquare : (c + r) ^ 2 = r ^ 2 + 2 * (r * c) + c ^ 2 := by ring
    omega
  have hle : calcDis x1 y1 ex ey < c + r := by
    have hcr : (0 : ℤ) ≤ c + r := by omega
    obtain ⟨k, hk⟩ := Int.eq_ofNat_of_zero_le hcr
    rw [hk] at hsum ⊢
    have hnn : 0 ≤ (x1 - ex) * (x1 - ex) + (y1 - ey) * (y1 - ey) :=
      add_nonneg (mul_self_nonneg _) (mul_self_nonneg _)
    obtain ⟨m, hm⟩ := Int.eq_ofNat_of_zero_le hnn
    unfold calcDis Int.sqrt
    simp only [hm, Int.toNat_natCast] at hsum ⊢
    have hsum' : m < k ^ 2 := by exact_mod_cast hsum
    exact_mod_cast Nat.sqrt_lt'.mpr hsum'
  omega

/-- `(int)(1.0 * a * b / c)`, a quotient rounded towards zero; `none` for a division by zero. -/
def mulDiv (a b c : ℤ) : Option ℤ := if c = 0 then none else some ((a * b).tdiv c)

/-- A division of exact numbers; `none` for a division by zero. -/
def divide (a b : ℚ) : Option ℚ := if b = 0 then none else some (a / b)

theorem divide_of_ne_zero {b : ℚ} (a : ℚ) (h : b ≠ 0) : divide a b = some (a / b) := if_neg h

/-- **The detour from `(x1, y1)` to `(x2, y2)` over the side `tag`**: 0 the left side, 1 the upper
one, 2 the right one. The result is the new value of `tmpx`, `tmpy` and the length. -/
def calcTag (tmp : ℤ × ℤ) (x1 y1 x2 y2 tag : ℤ) : Option ((ℤ × ℤ) × ℤ) :=
  if x1 = 0 ∧ y1 = 0 then
    some ((0, 0), calcDis 0 0 x2 y2)
  else do
    -- the midpoints of points on the side itself are overwritten at once
    let tmp ←
      if tag = 0 then do
        let q ← mulDiv (x1 + exDisL) (y2 - y1) (x1 + x2 + 2 * exDisL)
        some (-exDisL, (y1 + q + 30).tdiv 60 * 60)
      else if tag = 1 then do
        let q ← mulDiv (height + exDisT - y1) (x2 - x1) (2 * (height + exDisT) - y1 - y2)
        some (x1 + q, height + exDisT)
      else if tag = 2 then do
        let q ← mulDiv (width + exDisR - x1) (y1 - y2) (2 * (width + exDisR) - x1 - x2)
        some (width + exDisR, (y1 - q + 30).tdiv 60 * 60)
      else some tmp
    some (tmp, calcDis x1 y1 tmp.1 tmp.2 + calcDis x2 y2 tmp.1 tmp.2)

/-- The denominator of the detour over the side `tag`. -/
def tagDenominator (x1 y1 x2 y2 tag : ℤ) : ℤ :=
  if tag = 0 then x1 + x2 + 2 * exDisL
  else if tag = 1 then 2 * (height + exDisT) - y1 - y2
  else if tag = 2 then 2 * (width + exDisR) - x1 - x2
  else 1

/-- **A detour fails only by its denominator**, and never from the corner `(0, 0)`. -/
theorem calcTag_eq_none_iff (tmp : ℤ × ℤ) (x1 y1 x2 y2 tag : ℤ) :
    calcTag tmp x1 y1 x2 y2 tag = none ↔
      ¬ (x1 = 0 ∧ y1 = 0) ∧ tagDenominator x1 y1 x2 y2 tag = 0 := by
  unfold calcTag tagDenominator mulDiv
  by_cases h0 : x1 = 0 ∧ y1 = 0
  · simp [h0]
  · rw [if_neg h0]
    by_cases ht0 : tag = 0
    · by_cases hd : x1 + x2 + 2 * exDisL = 0 <;> simp [ht0, hd, h0]
    · by_cases ht1 : tag = 1
      · by_cases hd : 2 * (height + exDisT) - y1 - y2 = 0 <;> simp [ht1, hd, h0]
      · by_cases ht2 : tag = 2
        · by_cases hd : 2 * (width + exDisR) - x1 - x2 = 0 <;> simp [ht2, hd, h0]
        · simp [ht0, ht1, ht2]

/-! ## The same on 32-bit integers -/

/-- **`calc_dis`** with the `int` of the code, whose differences, products and sums wrap around. The
root of a negative number is cut off to 0. -/
def calcDis32 (x1 y1 x2 y2 : Int32) : Int32 :=
  let dx := x1 - x2
  let dy := y1 - y2
  Int32.ofInt (Int.sqrt (dx * dx + dy * dy).toInt)

/-- `(int)(1.0 * a * b / c)` for an `int` each; the quotient of the `double`s is exact here. -/
def mulDiv32 (a b c : Int32) : Option Int32 :=
  if c = 0 then none else some (Int32.ofInt ((a.toInt * b.toInt).tdiv c.toInt))

/-- **`calc_tag`** with the `int` of the code. -/
def calcTag32 (tmp : Int32 × Int32) (x1 y1 x2 y2 tag : Int32) :
    Option ((Int32 × Int32) × Int32) :=
  let w := Int32.ofInt width
  let h := Int32.ofInt height
  let l := Int32.ofInt exDisL
  let r := Int32.ofInt exDisR
  let t := Int32.ofInt exDisT
  if x1 = 0 ∧ y1 = 0 then
    some ((0, 0), calcDis32 0 0 x2 y2)
  else do
    let tmp ←
      if tag = 0 then do
        let q ← mulDiv32 (x1 + l) (y2 - y1) (x1 + x2 + 2 * l)
        some (-l, (y1 + q + 30) / 60 * 60)
      else if tag = 1 then do
        let q ← mulDiv32 (h + t - y1) (x2 - x1) (2 * (h + t) - y1 - y2)
        some (x1 + q, h + t)
      else if tag = 2 then do
        let q ← mulDiv32 (w + r - x1) (y1 - y2) (2 * (w + r) - x1 - x2)
        some (w + r, (y1 - q + 30) / 60 * 60)
      else some tmp
    some (tmp, calcDis32 x1 y1 tmp.1 tmp.2 + calcDis32 x2 y2 tmp.1 tmp.2)

/-- An integer between the bounds of an `int` does not wrap around. -/
theorem bmod_of_range {n : ℤ} (hlo : -2 ^ 31 ≤ n) (hhi : n < 2 ^ 31) : n.bmod (2 ^ 32) = n :=
  Int.bmod_eq_of_le (by omega) (by omega)

/-- What has a square below `2 ^ 31` is below 46341. -/
theorem abs_lt_of_sq_int {d : ℤ} (h : d ^ 2 < 2 ^ 31) : -46341 < d ∧ d < 46341 :=
  abs_lt.mp (abs_lt_of_sq_lt_sq (h.trans (by decide)) (by decide))

/-- The distance is below 46341 as long as the sum of the squares is an `int`. -/
theorem calcDis_lt_int {x1 y1 x2 y2 : ℤ} (h : (x1 - x2) ^ 2 + (y1 - y2) ^ 2 < 2 ^ 31) :
    calcDis x1 y1 x2 y2 < 46341 := by
  refine calcDis_lt (by decide) ?_
  rw [← sq, ← sq]
  omega

/-- **The distance is exact** as long as the sum of the squares is an `int`. -/
theorem toInt_calcDis32 {x1 y1 x2 y2 : Int32}
    (h : (x1.toInt - x2.toInt) ^ 2 + (y1.toInt - y2.toInt) ^ 2 < 2 ^ 31) :
    (calcDis32 x1 y1 x2 y2).toInt = calcDis x1.toInt y1.toInt x2.toInt y2.toInt := by
  have hx := sq_nonneg (x1.toInt - x2.toInt)
  have hy := sq_nonneg (y1.toInt - y2.toInt)
  obtain ⟨hxlo, hxhi⟩ := abs_lt_of_sq_int (d := x1.toInt - x2.toInt) (by omega)
  obtain ⟨hylo, hyhi⟩ := abs_lt_of_sq_int (d := y1.toInt - y2.toInt) (by omega)
  have hdx : (x1 - x2).toInt = x1.toInt - x2.toInt :=
    (Int32.toInt_sub _ _).trans (bmod_of_range (by omega) (by omega))
  have hdy : (y1 - y2).toInt = y1.toInt - y2.toInt :=
    (Int32.toInt_sub _ _).trans (bmod_of_range (by omega) (by omega))
  have hlt := calcDis_lt_int h
  rw [sq] at h hx hy
  rw [sq] at h
  have hdx2 : ((x1 - x2) * (x1 - x2)).toInt =
      (x1.toInt - x2.toInt) * (x1.toInt - x2.toInt) := by
    rw [Int32.toInt_mul, hdx, bmod_of_range (by omega) (by omega)]
  have hdy2 : ((y1 - y2) * (y1 - y2)).toInt =
      (y1.toInt - y2.toInt) * (y1.toInt - y2.toInt) := by
    rw [Int32.toInt_mul, hdy, bmod_of_range (by omega) (by omega)]
  have hsum : ((x1 - x2) * (x1 - x2) + (y1 - y2) * (y1 - y2)).toInt =
      (x1.toInt - x2.toInt) * (x1.toInt - x2.toInt) +
        (y1.toInt - y2.toInt) * (y1.toInt - y2.toInt) := by
    rw [Int32.toInt_add, hdx2, hdy2, bmod_of_range (by omega) (by omega)]
  have hnn := calcDis_nonneg x1.toInt y1.toInt x2.toInt y2.toInt
  have hdis : calcDis x1.toInt y1.toInt x2.toInt y2.toInt =
      Int.sqrt ((x1.toInt - x2.toInt) * (x1.toInt - x2.toInt) +
        (y1.toInt - y2.toInt) * (y1.toInt - y2.toInt)) := rfl
  unfold calcDis32
  dsimp only
  rw [hsum, ← hdis]
  exact Int32.toInt_ofInt_of_le (by omega) (by omega)

/-- The bin of a class: 0 animals, 1 traffic and 2 fruits, for the classes 1 to 15. -/
def clasOf (c : ℤ) : ℤ :=
  let k := (c - 1).tdiv 5 + 1
  let k := if k = 1 then 0 else k
  if k = 3 then 1 else k

end HandlingRobot
