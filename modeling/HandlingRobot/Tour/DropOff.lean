import HandlingRobot.Library.CutOff
import HandlingRobot.Library.Reflection
import HandlingRobot.Tour.Geometry

/-! # The point of the upper side

A traffic picture is dropped at the upper side of the field. `calc_tag` chooses the point of this
side by reflection: it lies in the proportion of the distances, cut off to an integer, and so do the
lengths of the two parts of the way.

* **`calcDis_bounds`** — what is cut off the distance.
* **`calcTag_shortest`** — the length differs from that of the shortest way by less than 2, for all
  integers.
* **`LegsFit`** — the squares of the two parts are an `int` each; **`calcTag32_eq_calcTag`** — then
  the code computes with integers.
* **`calcTag32_upper`** — so the same holds of the code for such points. -/

namespace HandlingRobot

/-! ## What is cut off -/

/-- **The distance** is cut off by less than 1. -/
theorem calcDis_bounds (x1 y1 x2 y2 : ℤ) :
    (calcDis x1 y1 x2 y2 : ℝ) ≤ √(((x1 : ℝ) - x2) ^ 2 + ((y1 : ℝ) - y2) ^ 2) ∧
      √(((x1 : ℝ) - x2) ^ 2 + ((y1 : ℝ) - y2) ^ 2) < calcDis x1 y1 x2 y2 + 1 := by
  have hnn : 0 ≤ (x1 - x2) * (x1 - x2) + (y1 - y2) * (y1 - y2) :=
    add_nonneg (mul_self_nonneg _) (mul_self_nonneg _)
  obtain ⟨m, hm⟩ := Int.eq_ofNat_of_zero_le hnn
  have hreal : ((x1 : ℝ) - x2) ^ 2 + ((y1 : ℝ) - y2) ^ 2 = m := by
    rw [sq, sq]
    exact_mod_cast hm
  have hdis : calcDis x1 y1 x2 y2 = (Nat.sqrt m : ℤ) := by
    unfold calcDis Int.sqrt
    simp only [hm, Int.toNat_natCast]
  rw [hreal, hdis, Int.cast_natCast]
  exact ⟨Real.nat_sqrt_le_real_sqrt, Real.real_sqrt_lt_nat_sqrt_succ⟩

/-! ## The point of the upper side -/

/-- Where the way from `(x1, y1)` to `(x2, y2)` meets the upper side. -/
def upperX (x1 y1 x2 y2 : ℤ) : ℤ := x1 + ((480 - y1) * (x2 - x1)).tdiv (960 - y1 - y2)

/-- It lies between the two points. -/
theorem upperX_between (x1 x2 : ℤ) {y1 y2 : ℤ} (hy1 : y1 < 480) (hy2 : y2 < 480) :
    min x1 x2 ≤ upperX x1 y1 x2 y2 ∧ upperX x1 y1 x2 y2 ≤ max x1 x2 := by
  have hmem := share_between (a := 480 - y1) (c := 960 - y1 - y2) (x2 - x1) (by omega) (by omega)
    (by omega)
  unfold upperX
  omega

/-- **`calc_tag` with the tag 1.** -/
theorem calcTag_one (tmp : ℤ × ℤ) {x1 y1 x2 y2 : ℤ} (h0 : ¬ (x1 = 0 ∧ y1 = 0)) (hy1 : y1 < 480)
    (hy2 : y2 < 480) :
    calcTag tmp x1 y1 x2 y2 1 = some ((upperX x1 y1 x2 y2, 480),
      calcDis x1 y1 (upperX x1 y1 x2 y2) 480 + calcDis x2 y2 (upperX x1 y1 x2 y2) 480) := by
  have hne : (960 : ℤ) - y1 - y2 ≠ 0 := by omega
  have hmul : mulDiv (height + exDisT - y1) (x2 - x1) (2 * (height + exDisT) - y1 - y2) =
      some (((480 - y1) * (x2 - x1)).tdiv (960 - y1 - y2)) := if_neg hne
  unfold calcTag
  rw [if_neg h0]
  simp only [hmul]
  rfl

/-- **The way over the upper side**, for all points below it: its length, with both parts cut off,
differs from that of the shortest one by less than 2. -/
theorem calcTag_shortest (x1 x2 : ℤ) {y1 y2 : ℤ} (hy1 : y1 < 480) (hy2 : y2 < 480) :
    |((calcDis x1 y1 (upperX x1 y1 x2 y2) 480 + calcDis x2 y2 (upperX x1 y1 x2 y2) 480 : ℤ) : ℝ) -
        √(((x1 : ℝ) - x2) ^ 2 + (960 - y1 - y2) ^ 2)| < 2 ∧
      IsLeast
        (Set.range fun (x : ℝ) =>
          √((x1 - x) ^ 2 + (y1 - 480) ^ 2) + √((x2 - x) ^ 2 + ((y2 : ℝ) - 480) ^ 2))
        √(((x1 : ℝ) - x2) ^ 2 + (960 - y1 - y2) ^ 2) := by
  have hcut := abs_tdiv_sub_div_lt (K := ℝ) ((480 - y1) * (x2 - x1)) (k := 960 - y1 - y2)
    (by omega)
  have hh : (0 : ℝ) < 480 - y1 := sub_pos.mpr (by exact_mod_cast hy1)
  have hk : (0 : ℝ) < 480 - y2 := sub_pos.mpr (by exact_mod_cast hy2)
  -- the model's lengths are those of the reflection
  have hdirect : √(((x1 : ℝ) - x2) ^ 2 + (960 - y1 - y2) ^ 2) =
      direct x1 (480 - y1) x2 (480 - y2) := by
    unfold direct
    rw [show (480 : ℝ) - y1 + (480 - y2) = 960 - y1 - y2 by ring]
  have hdetour : ∀ x : ℝ, √((x1 - x) ^ 2 + (y1 - 480) ^ 2) +
      √((x2 - x) ^ 2 + ((y2 : ℝ) - 480) ^ 2) = detour x1 (480 - y1) x2 (480 - y2) x := by
    intro x
    unfold detour
    rw [← neg_sub (480 : ℝ) y1, ← neg_sub (480 : ℝ) y2, neg_sq, neg_sq]
  unfold upperX
  generalize ((480 - y1) * (x2 - x1)).tdiv (960 - y1 - y2) = q at hcut
  refine ⟨?_, ?_⟩
  · obtain ⟨hle1, hlt1⟩ := calcDis_bounds x1 y1 (x1 + q) 480
    obtain ⟨hle2, hlt2⟩ := calcDis_bounds x2 y2 (x1 + q) 480
    have hsum := hdetour ((x1 + q : ℤ) : ℝ)
    have hleast := direct_le_detour x1 (480 - y1) x2 (480 - y2) ((x1 + q : ℤ) : ℝ)
    have hadd := detour_le_add x1 (480 - y1) x2 (480 - y2) ((x1 + q : ℤ) : ℝ)
      (mirrorFoot x1 (480 - y1) x2 (480 - y2))
    have hfoot : |((x1 + q : ℤ) : ℝ) - mirrorFoot x1 (480 - y1) x2 (480 - y2)| < 1 := by
      have hdiff : ((x1 + q : ℤ) : ℝ) - mirrorFoot x1 (480 - y1) x2 (480 - y2) =
          q - (((480 - y1) * (x2 - x1) : ℤ) : ℝ) / ((960 - y1 - y2 : ℤ) : ℝ) := by
        unfold mirrorFoot
        push_cast
        rw [show (480 : ℝ) - y1 + (480 - y2) = 960 - y1 - y2 by ring]
        ring
      rwa [hdiff]
    rw [detour_mirrorFoot _ _ hh hk] at hadd
    rw [hdirect, abs_lt]
    push_cast at *
    constructor <;> linarith
  · rw [hdirect]
    simp only [hdetour]
    exact isLeast_detour _ _ hh hk

/-! ## The code's integers -/

/-- **The squares of both parts of the way over the upper side are an `int`.** -/
def LegsFit (x1 y1 x2 y2 : ℤ) : Prop :=
  (x1 - upperX x1 y1 x2 y2) ^ 2 + (y1 - 480) ^ 2 < 2 ^ 31 ∧
    (x2 - upperX x1 y1 x2 y2) ^ 2 + (y2 - 480) ^ 2 < 2 ^ 31

/-- **`calc_tag` with the tag 1 on such points** computes with integers. -/
theorem calcTag32_eq (tmp : Int32 × Int32) {x1 y1 x2 y2 : Int32} (h0 : (x1, y1) ≠ (0, 0))
    (hy1 : y1.toInt < 480) (hy2 : y2.toInt < 480)
    (hfit : LegsFit x1.toInt y1.toInt x2.toInt y2.toInt) :
    ∃ x len : Int32, calcTag32 tmp x1 y1 x2 y2 1 = some ((x, 480), len) ∧
      x.toInt = upperX x1.toInt y1.toInt x2.toInt y2.toInt ∧
      len.toInt = calcDis x1.toInt y1.toInt (upperX x1.toInt y1.toInt x2.toInt y2.toInt) 480 +
        calcDis x2.toInt y2.toInt (upperX x1.toInt y1.toInt x2.toInt y2.toInt) 480 := by
  have h0' : ¬ (x1 = 0 ∧ y1 = 0) := fun h => h0 (Prod.ext h.1 h.2)
  obtain ⟨hlo, hhi⟩ := upperX_between x1.toInt x2.toInt hy1 hy2
  obtain ⟨hleg1, hleg2⟩ := hfit
  have hxlo := x1.le_toInt
  have hxhi := x1.toInt_lt
  have hxlo' := x2.le_toInt
  have hxhi' := x2.toInt_lt
  have hup : (Int32.ofInt height + Int32.ofInt exDisT).toInt = 480 := by decide
  -- each coordinate of a part is below 46341
  obtain ⟨ha, ha'⟩ := abs_lt_of_sq_int (lt_of_le_of_lt (le_add_of_nonneg_right (sq_nonneg _)) hleg1)
  obtain ⟨hb, hb'⟩ := abs_lt_of_sq_int (lt_of_le_of_lt (le_add_of_nonneg_left (sq_nonneg _)) hleg1)
  obtain ⟨hc, hc'⟩ := abs_lt_of_sq_int (lt_of_le_of_lt (le_add_of_nonneg_right (sq_nonneg _)) hleg2)
  obtain ⟨hd, hd'⟩ := abs_lt_of_sq_int (lt_of_le_of_lt (le_add_of_nonneg_left (sq_nonneg _)) hleg2)
  have hrise : (Int32.ofInt height + Int32.ofInt exDisT - y1).toInt = 480 - y1.toInt := by
    rw [Int32.toInt_sub, hup, bmod_of_range (by omega) (by omega)]
  have hrun : (x2 - x1).toInt = x2.toInt - x1.toInt := by
    rw [Int32.toInt_sub, bmod_of_range (by omega) (by omega)]
  have htwice : (2 * (Int32.ofInt height + Int32.ofInt exDisT)).toInt = 960 := by decide
  have hden : (2 * (Int32.ofInt height + Int32.ofInt exDisT) - y1 - y2).toInt =
      960 - y1.toInt - y2.toInt := by
    have hfirst : (2 * (Int32.ofInt height + Int32.ofInt exDisT) - y1).toInt = 960 - y1.toInt := by
      rw [Int32.toInt_sub, htwice, bmod_of_range (by omega) (by omega)]
    rw [Int32.toInt_sub, hfirst, bmod_of_range (by omega) (by omega)]
  have hne : 2 * (Int32.ofInt height + Int32.ofInt exDisT) - y1 - y2 ≠ 0 := by
    intro hzero
    rw [hzero, Int32.toInt_zero] at hden
    omega
  -- the drop-off point, and the lengths of both parts
  obtain ⟨x, hdrop, hx⟩ : ∃ x, x = x1 + Int32.ofInt (((480 - y1.toInt) * (x2.toInt - x1.toInt)).tdiv
      (960 - y1.toInt - y2.toInt)) ∧ x.toInt = upperX x1.toInt y1.toInt x2.toInt y2.toInt := by
    refine ⟨_, rfl, ?_⟩
    unfold upperX at *
    rw [Int32.toInt_add, Int32.toInt_ofInt_of_le (by omega) (by omega),
      bmod_of_range (by omega) (by omega)]
  have h480 : (480 : Int32).toInt = 480 := by decide
  rw [← hx, ← h480] at hleg1 hleg2
  have hlt1 := calcDis_lt_int hleg1
  have hlt2 := calcDis_lt_int hleg2
  have hnn1 := calcDis_nonneg x1.toInt y1.toInt x.toInt (480 : Int32).toInt
  have hnn2 := calcDis_nonneg x2.toInt y2.toInt x.toInt (480 : Int32).toInt
  refine ⟨x, calcDis32 x1 y1 x 480 + calcDis32 x2 y2 x 480, ?_, hx, ?_⟩
  · unfold calcTag32 mulDiv32
    rw [if_neg h0', hdrop]
    simp only [if_neg hne, hrise, hrun, hden]
    rfl
  · rw [Int32.toInt_add, toInt_calcDis32 hleg1, toInt_calcDis32 hleg2,
      bmod_of_range (by omega) (by omega), hx, h480]

/-- **On such points both arithmetics agree.** -/
theorem calcTag32_eq_calcTag (tmp : Int32 × Int32) (tmp' : ℤ × ℤ) {x1 y1 x2 y2 : Int32}
    (h0 : (x1, y1) ≠ (0, 0)) (hy1 : y1.toInt < 480) (hy2 : y2.toInt < 480)
    (hfit : LegsFit x1.toInt y1.toInt x2.toInt y2.toInt) :
    ∃ x len : Int32, calcTag32 tmp x1 y1 x2 y2 1 = some ((x, 480), len) ∧
      calcTag tmp' x1.toInt y1.toInt x2.toInt y2.toInt 1 = some ((x.toInt, 480), len.toInt) := by
  obtain ⟨x, len, hrun, hx, hlen⟩ := calcTag32_eq tmp h0 hy1 hy2 hfit
  have hstart : ¬ (x1.toInt = 0 ∧ y1.toInt = 0) := fun h =>
    h0 (Prod.ext (Int32.toInt_inj.mp h.1) (Int32.toInt_inj.mp h.2))
  refine ⟨x, len, hrun, ?_⟩
  rw [calcTag_one tmp' hstart hy1 hy2, hx, hlen]

/-- **The drop-off at the upper side**, for all points below it but the start `(0, 0)` with both
parts of the way in the range of an `int`: the point is on the side, between the two points, and the
length differs from that of the shortest way over the side by less than 2. -/
theorem calcTag32_upper (tmp : Int32 × Int32) (x1 y1 x2 y2 : Int32) (h0 : (x1, y1) ≠ (0, 0))
    (hy1 : y1.toInt < 480) (hy2 : y2.toInt < 480)
    (hfit : LegsFit x1.toInt y1.toInt x2.toInt y2.toInt) :
    ∃ x len : Int32, calcTag32 tmp x1 y1 x2 y2 1 = some ((x, 480), len) ∧
      (min x1.toInt x2.toInt ≤ x.toInt ∧ x.toInt ≤ max x1.toInt x2.toInt) ∧
      |(len.toInt : ℝ) -
        √(((x1.toInt : ℝ) - x2.toInt) ^ 2 + (960 - y1.toInt - y2.toInt) ^ 2)| < 2 ∧
      IsLeast
        (Set.range fun (x : ℝ) => √((x1.toInt - x) ^ 2 + (y1.toInt - 480) ^ 2) +
          √((x2.toInt - x) ^ 2 + ((y2.toInt : ℝ) - 480) ^ 2))
        √(((x1.toInt : ℝ) - x2.toInt) ^ 2 + (960 - y1.toInt - y2.toInt) ^ 2) := by
  obtain ⟨x, len, hrun, hx, hlen⟩ := calcTag32_eq tmp h0 hy1 hy2 hfit
  obtain ⟨hnear, hleast⟩ := calcTag_shortest x1.toInt x2.toInt hy1 hy2
  exact ⟨x, len, hrun, hx ▸ upperX_between _ _ hy1 hy2, hlen ▸ hnear, hleast⟩

/-- From `(100, 0)` to `(400, 100)`. -/
theorem calcTag32_upper_sample :
    ∃ x len : Int32, calcTag32 (0, 0) 100 0 400 100 1 = some ((x, 480), len) ∧
      100 ≤ x.toInt ∧ x.toInt ≤ 400 := by
  obtain ⟨x, len, h, hmem, -⟩ := calcTag32_upper (0, 0) 100 0 400 100 (by decide) (by decide)
    (by decide) ⟨by decide +kernel, by decide +kernel⟩
  exact ⟨x, len, h, hmem⟩

/-- **Far apart the squares wrap around**: from `(1, 0)` to `(131073, 0)` both parts of the way are
65536 wide, whose square counts as nothing. -/
theorem calcTag32_wraps :
    ¬ ∀ (tmp : Int32 × Int32) (x1 y1 x2 y2 : Int32), (x1, y1) ≠ (0, 0) → y1.toInt < 480 →
      y2.toInt < 480 → ∃ x len : Int32, calcTag32 tmp x1 y1 x2 y2 1 = some ((x, 480), len) ∧
        (min x1.toInt x2.toInt ≤ x.toInt ∧ x.toInt ≤ max x1.toInt x2.toInt) ∧
        |(len.toInt : ℝ) -
          √(((x1.toInt : ℝ) - x2.toInt) ^ 2 + (960 - y1.toInt - y2.toInt) ^ 2)| < 2 := by
  intro h
  obtain ⟨x, len, hrun, -, hlen⟩ := h (0, 0) 1 0 131073 0 (by decide) (by decide) (by decide)
  have hvalue : calcTag32 (0, 0) 1 0 131073 0 1 = some ((65537, 480), 960) := by decide +kernel
  obtain rfl : len = 960 := by
    rw [hvalue] at hrun
    exact (Prod.mk.inj (Option.some.inj hrun)).2.symm
  have h1 : (1 : Int32).toInt = 1 := by decide
  have h2 : (131073 : Int32).toInt = 131073 := by decide
  have h3 : (0 : Int32).toInt = 0 := by decide
  have h4 : (960 : Int32).toInt = 960 := by decide
  rw [h1, h2, h3, h4, abs_lt] at hlen
  have hwide : (131072 : ℝ) ≤
      √((((1 : ℤ) : ℝ) - (131073 : ℤ)) ^ 2 + (960 - (0 : ℤ) - (0 : ℤ)) ^ 2) := by
    apply Real.le_sqrt_of_sq_le
    norm_num
  have h960 : ((960 : ℤ) : ℝ) = 960 := by norm_num
  linarith [hlen.1]

end HandlingRobot
