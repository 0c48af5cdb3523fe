import HandlingRobot.Library.CutOff
import HandlingRobot.Tour.Planner

/-! # The detours of the planner

The legs of the greedy planner and of `run_twice2` lead over a drop-off point at the left, the upper
or the right side of the field, which `calc_tag` computes. For points of the field no denominator is
zero, the drop-off point is not far outside, and the detour is shorter than the 10000 that the
planner starts its scans with.

* **`InField`** — where the pictures stand, with the shifts that the planner gives them.
* **`calcTag_detour`** — what `calc_tag` computes for two such points. -/

namespace HandlingRobot

/-- **The field**: the pictures, with their shifts, and the start of the car. -/
def InField (x y : ℤ) : Prop := (-8 ≤ x ∧ x ≤ 688) ∧ -39 ≤ y ∧ y ≤ 455

/-- The sides of the field, the values of `clas`. -/
def IsSide (tag : ℤ) : Prop := tag = 0 ∨ tag = 1 ∨ tag = 2

/-! ## Lengths -/

/-- Points whose coordinates differ by at most 1000 are less than 1500 apart. -/
theorem calcDis_lt_of_near (x1 y1 x2 y2 : ℤ) (hx : -1000 ≤ x1 - x2 ∧ x1 - x2 ≤ 1000)
    (hy : -1000 ≤ y1 - y2 ∧ y1 - y2 ≤ 1000) : calcDis x1 y1 x2 y2 < 1500 := by
  refine calcDis_lt (by decide) ?_
  have hx' : (x1 - x2) * (x1 - x2) ≤ 1000 * 1000 := by nlinarith
  have hy' : (y1 - y2) * (y1 - y2) ≤ 1000 * 1000 := by nlinarith
  omega

/-! ## Drop-off points -/

/-- **The denominator is positive** for points of the field. -/
theorem tagDenominator_pos {x1 y1 x2 y2 tag : ℤ} (h1 : InField x1 y1) (h2 : InField x2 y2)
    (htag : IsSide tag) : 0 < tagDenominator x1 y1 x2 y2 tag := by
  obtain ⟨hx1, hy1⟩ := h1
  obtain ⟨hx2, hy2⟩ := h2
  unfold tagDenominator
  simp only [exDisL, exDisR, exDisT, width, height]
  rcases htag with rfl | rfl | rfl
  · rw [if_pos rfl]
    omega
  · rw [if_neg (by decide), if_pos rfl]
    omega
  · rw [if_neg (by decide), if_neg (by decide), if_pos rfl]
    omega

/-- **Where the drop-off points lie**: not far outside of the field. -/
def DropOff (p : ℤ × ℤ) : Prop := (-30 ≤ p.1 ∧ p.1 ≤ 715) ∧ -68 ≤ p.2 ∧ p.2 ≤ 544

theorem mulDiv_of_pos {c : ℤ} (a b : ℤ) (hc : 0 < c) : mulDiv a b c = some ((a * b).tdiv c) :=
  if_neg hc.ne'

/-- **The drop-off point** lies at a side of the field, off all points of it. -/
theorem calcTag_eq {x1 y1 x2 y2 tag : ℤ} (h1 : InField x1 y1) (h2 : InField x2 y2)
    (htag : IsSide tag) (hcorner : ¬ (x1 = 0 ∧ y1 = 0)) :
    ∃ p, DropOff p ∧ (p.1 = -30 ∨ p.1 = 715 ∨ p.2 = 480) ∧
      ∀ tmp, calcTag tmp x1 y1 x2 y2 tag =
        some (p, calcDis x1 y1 p.1 p.2 + calcDis x2 y2 p.1 p.2) := by
  have hden := tagDenominator_pos h1 h2 htag
  obtain ⟨hx1, hy1⟩ := h1
  obtain ⟨hx2, hy2⟩ := h2
  have hL : exDisL = 30 := rfl
  have hR : exDisR = 15 := rfl
  have hT : exDisT = -20 := rfl
  have hw : width = 700 := rfl
  have hh : height = 500 := rfl
  unfold tagDenominator at hden
  unfold DropOff
  -- the left, the upper and the right side
  rcases htag with rfl | rfl | rfl
  · rw [if_pos rfl] at hden
    have hq := mulDiv_of_pos (x1 + exDisL) (y2 - y1) hden
    obtain ⟨hup, hdown⟩ :=
      share_between (a := x1 + exDisL) (y2 - y1) (by omega) (by omega) hden
    generalize ((x1 + exDisL) * (y2 - y1)).tdiv (x1 + x2 + 2 * exDisL) = q at hq hup hdown
    have hround := abs_lt.mp (abs_mul_tdiv_sub_lt (y1 + q + 30) (k := 60) (by decide))
    refine ⟨(-exDisL, (y1 + q + 30).tdiv 60 * 60), ?_, Or.inl rfl, fun tmp => ?_⟩
    · dsimp only
      omega
    · rw [calcTag, if_neg hcorner, if_pos rfl, hq]
      rfl
  · rw [if_neg (by decide), if_pos rfl] at hden
    have hq := mulDiv_of_pos (height + exDisT - y1) (x2 - x1) hden
    obtain ⟨hup, hdown⟩ :=
      share_between (a := height + exDisT - y1) (x2 - x1) (by omega) (by omega) hden
    generalize ((height + exDisT - y1) * (x2 - x1)).tdiv (2 * (height + exDisT) - y1 - y2) = q
      at hq hup hdown
    refine ⟨(x1 + q, height + exDisT), ?_, Or.inr (Or.inr rfl), fun tmp => ?_⟩
    · dsimp only
      omega
    · rw [calcTag, if_neg hcorner, if_neg (by decide), if_pos rfl, hq]
      rfl
  · rw [if_neg (by decide), if_neg (by decide), if_pos rfl] at hden
    have hq := mulDiv_of_pos (width + exDisR - x1) (y1 - y2) hden
    obtain ⟨hup, hdown⟩ :=
      share_between (a := width + exDisR - x1) (y1 - y2) (by omega) (by omega) hden
    generalize ((width + exDisR - x1) * (y1 - y2)).tdiv (2 * (width + exDisR) - x1 - x2) = q
      at hq hup hdown
    have hround := abs_lt.mp (abs_mul_tdiv_sub_lt (y1 - q + 30) (k := 60) (by decide))
    refine ⟨(width + exDisR, (y1 - q + 30).tdiv 60 * 60), ?_, Or.inr (Or.inl rfl), fun tmp => ?_⟩
    · dsimp only
      omega
    · rw [calcTag, if_neg hcorner, if_neg (by decide), if_neg (by decide), if_pos rfl, hq]
      rfl

/-- **A detour between points of the field** divides by nothing that is zero, whatever `tmpx` and
`tmpy` are before it, and is shorter than 10000; it has a length, except from the start of the car.
-/
theorem calcTag_detour {x1 y1 x2 y2 tag : ℤ} (h1 : InField x1 y1) (h2 : InField x2 y2)
    (htag : IsSide tag) :
    ∃ p d, (∀ tmp, calcTag tmp x1 y1 x2 y2 tag = some (p, d)) ∧ DropOff p ∧ d < 10000 ∧
      (¬ (x1 = 0 ∧ y1 = 0) → 1 ≤ d) := by
  by_cases hcorner : x1 = 0 ∧ y1 = 0
  · refine ⟨(0, 0), calcDis 0 0 x2 y2, fun tmp => if_pos hcorner, ?_, ?_, absurd hcorner⟩
    · unfold DropOff
      decide
    · obtain ⟨hx2, hy2⟩ := h2
      have hlt := calcDis_lt_of_near 0 0 x2 y2 (by omega) (by omega)
      omega
  · obtain ⟨p, hp, hside, heq⟩ := calcTag_eq h1 h2 htag hcorner
    refine ⟨p, _, heq, hp, ?_, fun _ => ?_⟩
    · obtain ⟨hx1, hy1⟩ := h1
      obtain ⟨hx2, hy2⟩ := h2
      obtain ⟨hpx, hpy⟩ := hp
      -- both parts of the way are shorter than 1500
      have hlt1 := calcDis_lt_of_near x1 y1 p.1 p.2
        (by omega) (by omega)
      have hlt2 := calcDis_lt_of_near x2 y2 p.1 p.2
        (by omega) (by omega)
      omega
    -- a point of the field is not a drop-off point
    · have hne : (x1, y1) ≠ (p.1, p.2) := by
        obtain ⟨hx1, hy1⟩ := h1
        rw [ne_eq, Prod.mk.injEq]
        omega
      have hone := one_le_calcDis hne
      have hnn := calcDis_nonneg x2 y2 p.1 p.2
      omega

end HandlingRobot
