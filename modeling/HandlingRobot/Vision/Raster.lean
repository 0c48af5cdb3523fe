import HandlingRobot.Vision.Line
import Mathlib.Algebra.Order.Round
import Mathlib.Data.Rat.Floor

/-! # The raster of a line

Between any two pixels, `line_` draws the nearest pixel to the straight line in every row, or in
every column, whichever are more.

* **`penAt`** — the variables of `line_` after some turns; **`lineLoop_stops`** — the loop ends with
  the first turn that is at the end point.
* **`pixelAt_eq`** — both coordinates after `k` turns, by `rise`.
* **`idealPixel`** — the nearest pixel, in terms of the extents.
* **`line_rasterises`** — the drawing, for all end points. -/

namespace HandlingRobot

/-! ## The turns of the loop -/

/-- The pixel under the pen. -/
def Pen.pixel (p : Pen) : Pixel := (p.i0, p.j0)

/-- **The variables of `line_`** after `k` turns. -/
def penAt (i0 j0 i1 j1 : ℤ) (k : ℕ) : Pen :=
  (Pen.move |i1 - i0| (-|j1 - j0|) (sign i0 i1) (sign j0 j1))^[k]
    ⟨i0, j0, |i1 - i0| + -|j1 - j0|⟩

/-- `g` is the frame `f` with the first `N + 1` pixels of `q` drawn. -/
def Plotted (q : ℕ → Pixel) (N : ℕ) (f g : Frame) : Prop :=
  ∀ x y, ((∃ k ≤ N, q k = (x, y)) → g x y = 1) ∧ ((∀ k ≤ N, q k ≠ (x, y)) → g x y = f x y)

/-- **The loop ends with the first turn at the end point**, and needs fuel for all turns to it. -/
theorem lineLoop_stops (i1 j1 dx dy sx sy : ℤ) (N : ℕ) :
    ∀ (p : Pen) (f : Frame),
      (∀ k < N, ((Pen.move dx dy sx sy)^[k] p).pixel ≠ (i1, j1)) →
      ((Pen.move dx dy sx sy)^[N] p).pixel = (i1, j1) →
      (∀ fuel ≤ N, lineLoop i1 j1 dx dy sx sy fuel p f = none) ∧
        ∀ fuel, N < fuel → ∃ g, lineLoop i1 j1 dx dy sx sy fuel p f = some g ∧
          Plotted (fun k => ((Pen.move dx dy sx sy)^[k] p).pixel) N f g := by
  induction N with
  | zero =>
      intro p f _ hend
      obtain ⟨hi, hj⟩ := Prod.mk.inj hend
      refine ⟨fun fuel hfuel => ?_, fun fuel hfuel => ?_⟩
      · obtain rfl : fuel = 0 := Nat.le_zero.mp hfuel
        rfl
      · obtain ⟨fuel, rfl⟩ := Nat.exists_eq_succ_of_ne_zero hfuel.ne'
        refine ⟨plot f p.i0 p.j0, if_pos ⟨hi, hj⟩, fun x y => ⟨?_, fun hno => ?_⟩⟩
        · rintro ⟨k, hk, hq⟩
          obtain rfl : k = 0 := Nat.le_zero.mp hk
          obtain ⟨rfl, rfl⟩ := Prod.mk.inj hq
          exact if_pos ⟨rfl, rfl⟩
        · exact if_neg fun h => hno 0 le_rfl (Prod.ext h.1.symm h.2.symm)
  | succ N ih =>
      intro p f hbefore hend
      -- the first turn is not at the end point, and the others are those of the pen moved once
      have hfirst : ¬ (p.i0 = i1 ∧ p.j0 = j1) := fun h =>
        hbefore 0 (Nat.succ_pos N) (Prod.ext h.1 h.2)
      obtain ⟨hnone, hsome⟩ := ih (p.move dx dy sx sy) (plot f p.i0 p.j0)
        (fun k hk => hbefore (k + 1) (Nat.succ_lt_succ hk)) hend
      refine ⟨fun fuel hfuel => ?_, fun fuel hfuel => ?_⟩
      · cases fuel with
        | zero => rfl
        | succ fuel => exact (if_neg hfirst).trans (hnone fuel (Nat.le_of_succ_le_succ hfuel))
      · obtain ⟨fuel, rfl⟩ := Nat.exists_eq_succ_of_ne_zero (by omega : fuel ≠ 0)
        obtain ⟨g, hg, hplotted⟩ := hsome fuel (by omega)
        refine ⟨g, (if_neg hfirst).trans hg, fun x y => ⟨?_, fun hno => ?_⟩⟩
        · rintro ⟨k, hk, hq⟩
          by_cases hlater :
              ∃ k ≤ N, ((Pen.move dx dy sx sy)^[k] (p.move dx dy sx sy)).pixel = (x, y)
          · exact (hplotted x y).1 hlater
          · rw [(hplotted x y).2 fun k hk hq => hlater ⟨k, hk, hq⟩]
            cases k with
            | zero =>
                obtain ⟨rfl, rfl⟩ := Prod.mk.inj hq
                exact if_pos ⟨rfl, rfl⟩
            | succ k => exact absurd ⟨k, Nat.le_of_succ_le_succ hk, hq⟩ hlater
        · rw [(hplotted x y).2 fun k hk => hno (k + 1) (Nat.succ_le_succ hk)]
          exact if_neg fun h => hno 0 (Nat.zero_le _) (Prod.ext h.1.symm h.2.symm)

/-! ## The pixels -/

/-- **A steep line**, turn after turn. -/
theorem penAt_steep (i0 j0 i1 j1 : ℤ) (h : |i1 - i0| ≤ |j1 - j0|) (hpos : 0 < |j1 - j0|) (k : ℕ) :
    penAt i0 j0 i1 j1 k =
      steepPen i0 j0 |i1 - i0| |j1 - j0| (sign i0 i1) (sign j0 j1) k := by
  induction k with
  | zero =>
      show (⟨i0, j0, _⟩ : Pen) = ⟨_, _, _⟩
      rw [Nat.cast_zero, rise_zero _ hpos, Pen.mk.injEq]
      exact ⟨by ring, by ring, by ring⟩
  | succ k ih =>
      rw [penAt, Function.iterate_succ_apply', ← penAt, ih,
        Pen.move_steep _ _ _ _ _ (abs_nonneg _) h hpos, Nat.cast_succ]

/-- **A flat line** is a steep one with the axes exchanged. -/
theorem penAt_transpose (i0 j0 i1 j1 : ℤ) (k : ℕ) :
    (penAt i0 j0 i1 j1 k).transpose = penAt j0 i0 j1 i1 k := by
  induction k with
  | zero =>
      show (⟨j0, i0, -(|i1 - i0| + -|j1 - j0|)⟩ : Pen) = ⟨j0, i0, |j1 - j0| + -|i1 - i0|⟩
      rw [Pen.mk.injEq]
      exact ⟨rfl, rfl, by ring⟩
  | succ k ih =>
      rw [penAt, penAt, Function.iterate_succ_apply', Function.iterate_succ_apply', ← penAt,
        ← penAt, ← ih, ← Pen.move_transpose, neg_neg]

/-- The number of turns: the longer extent. -/
def turns (a b : Pixel) : ℕ := (max |b.1 - a.1| |b.2 - a.2|).toNat

theorem turns_cast (a b : Pixel) : (turns a b : ℤ) = max |b.1 - a.1| |b.2 - a.2| :=
  Int.toNat_of_nonneg (le_max_of_le_left (abs_nonneg _))

/-- The way along the longer axis. -/
theorem rise_full {D : ℤ} (k : ℤ) (hD : 0 < D) : rise D D k = k := by
  rw [rise_eq_iff hD]
  constructor <;> linarith

/-- **One coordinate** on the way from `a` to `b`, after `k` of `N` turns. -/
def axisAt (a b N k : ℤ) : ℤ := a + sign a b * rise |b - a| N k

/-- **Both coordinates after `k` turns.** -/
theorem pixelAt_eq (i0 j0 i1 j1 : ℤ) {k : ℕ} (hk : k ≤ turns (i0, j0) (i1, j1)) :
    (penAt i0 j0 i1 j1 k).pixel =
      (axisAt i0 i1 (turns (i0, j0) (i1, j1)) k, axisAt j0 j1 (turns (i0, j0) (i1, j1)) k) := by
  unfold axisAt
  have hN := turns_cast (i0, j0) (i1, j1)
  dsimp only at hN
  rcases (turns (i0, j0) (i1, j1)).eq_zero_or_pos with hzero | hpos
  · -- the end points are one pixel
    obtain rfl : k = 0 := by omega
    rw [hzero]
    show (i0, j0) = _
    simp [rise]
  · rcases le_total |i1 - i0| |j1 - j0| with h | h
    · rw [max_eq_right h] at hN
      have hD : 0 < |j1 - j0| := by omega
      rw [hN, penAt_steep _ _ _ _ h hD, rise_full _ hD]
      rfl
    · rw [max_eq_left h] at hN
      have hD : 0 < |i1 - i0| := by omega
      have hswap : (penAt i0 j0 i1 j1 k).transpose.pixel =
          (j0 + sign j0 j1 * rise |j1 - j0| |i1 - i0| k, i0 + sign i0 i1 * k) := by
        rw [penAt_transpose, penAt_steep _ _ _ _ h hD]
        rfl
      rw [hN, rise_full _ hD]
      exact Prod.ext (congrArg Prod.snd hswap) (congrArg Prod.fst hswap)

/-! ## One coordinate -/

section Axis

variable {a b : ℤ} {N : ℕ}

/-- The way is rounded to the nearest integer, halves away from the start. -/
theorem round_eq_rise (d : ℤ) (N k : ℕ) : round ((k : ℚ) * (d / N)) = rise d N k := by
  rcases N.eq_zero_or_pos with rfl | hpos
  · simp [rise]
  · have hN : (0 : ℚ) < N := Nat.cast_pos.mpr hpos
    obtain ⟨hlo, hhi⟩ := rise_spec d k (Nat.cast_pos.mpr hpos : (0 : ℤ) < N)
    have hlo' : 2 * ((N : ℚ) * rise d N k) ≤ 2 * (k * d) + N := by exact_mod_cast hlo
    have hhi' : 2 * ((k : ℚ) * d) + N < 2 * (N * rise d N k) + 2 * N := by exact_mod_cast hhi
    have hx : (N : ℚ) * (k * (d / N)) = k * d := by
      rw [mul_left_comm, mul_div_cancel₀ _ hN.ne']
    rw [round_eq, Int.floor_eq_iff]
    constructor
    · refine le_of_mul_le_mul_left ?_ hN
      rw [mul_add, hx]
      linarith
    · refine lt_of_mul_lt_mul_left ?_ hN.le
      rw [mul_add, hx, mul_add]
      linarith

theorem axisAt_end (hN : 0 < N) : axisAt a b N N = b := by
  rw [axisAt, rise_self _ (Nat.cast_pos.mpr hN), sign_mul_abs, add_sub_cancel]

/-- **The coordinate along the longer axis.** -/
theorem axisAt_full (h : |b - a| = N) {k : ℕ} (hk : k ≤ N) :
    axisAt a b N k = a + sign a b * k := by
  rcases N.eq_zero_or_pos with rfl | hN
  · obtain rfl : k = 0 := Nat.le_zero.mp hk
    simp [axisAt, rise]
  · rw [axisAt, h, rise_full _ (Nat.cast_pos.mpr hN)]

/-- One turn goes one step, or none. -/
theorem abs_axisAt_succ_le (h : |b - a| ≤ N) (hN : 0 < N) (k : ℕ) :
    |axisAt a b N (k + 1 : ℕ) - axisAt a b N k| ≤ 1 := by
  obtain ⟨hlo, hhi⟩ := rise_succ_bounds k (abs_nonneg (b - a)) h (Nat.cast_pos.mpr hN)
  rw [Nat.cast_succ]
  unfold axisAt
  rcases sign_eq a b with hs | hs
  · rw [hs, abs_le]
    omega
  · rw [hs, abs_le]
    omega

/-- The coordinate stays between those of the end points. -/
theorem axisAt_mem (hN : 0 < N) {k : ℕ} (hk : k ≤ N) :
    min a b ≤ axisAt a b N k ∧ axisAt a b N k ≤ max a b := by
  obtain ⟨hlo, hhi⟩ := rise_bounds (abs_nonneg (b - a)) (Nat.cast_pos.mpr hN : (0 : ℤ) < N)
    (Int.natCast_nonneg k) (Int.ofNat_le.mpr hk)
  have hsum := sign_mul_abs a b
  unfold axisAt
  rcases sign_eq a b with hs | hs
  · rw [hs] at hsum ⊢
    omega
  · rw [hs] at hsum ⊢
    omega

/-- **Half a pixel** at most lies between the coordinate and that of the segment. -/
theorem abs_axisAt_sub_le (a b : ℤ) (N k : ℕ) :
    |(axisAt a b N k : ℚ) - (a + k / N * (b - a))| ≤ 1 / 2 := by
  have hround := abs_sub_round ((k : ℚ) * ((|b - a| : ℤ) / N))
  have hsum : (sign a b : ℚ) * (|b - a| : ℤ) = b - a := by exact_mod_cast sign_mul_abs a b
  rw [round_eq_rise] at hround
  have hdiff : (axisAt a b N k : ℚ) - (a + k / N * (b - a)) =
      sign a b * (rise |b - a| N k - k * ((|b - a| : ℤ) / N)) := by
    rw [axisAt, ← hsum]
    push_cast
    ring
  have hsign : |(sign a b : ℚ)| = 1 := by
    rcases sign_eq a b with hs | hs <;> simp [hs]
  rwa [hdiff, abs_mul, hsign, one_mul, abs_sub_comm]

/-- Along the longer axis nothing is rounded. -/
theorem axisAt_full_eq (h : |b - a| = N) {k : ℕ} (hk : k ≤ N) :
    (axisAt a b N k : ℚ) = a + k / N * (b - a) := by
  rw [axisAt_full h hk]
  rcases N.eq_zero_or_pos with rfl | hN
  · obtain rfl : k = 0 := Nat.le_zero.mp hk
    simp
  · have hsum : (sign a b : ℚ) * N = b - a := by
      rw [← Int.cast_natCast, ← h]
      exact_mod_cast sign_mul_abs a b
    have hN' : (N : ℚ) ≠ 0 := Nat.cast_ne_zero.mpr hN.ne'
    have hpart : (k : ℚ) / N * N = k := div_mul_cancel₀ _ hN'
    rw [← hsum, mul_left_comm, hpart]
    push_cast
    rfl

end Axis

/-! ## The whole line -/

/-- **The ideal pixel** after `k` turns from `a` to `b`: both coordinates have come the part `k / N`
of their extents, rounded to the nearest integer. The ways are not negative, so that `round` leads
halves away from the start. -/
def idealPixel (a b : Pixel) (k : ℕ) : Pixel :=
  (a.1 + sign a.1 b.1 * round ((k : ℚ) * ((|b.1 - a.1| : ℤ) / (turns a b : ℕ))),
    a.2 + sign a.2 b.2 * round ((k : ℚ) * ((|b.2 - a.2| : ℤ) / (turns a b : ℕ))))

/-- One extent is the number of turns, and the other one is no longer. -/
theorem turns_cases (a b : Pixel) :
    |b.1 - a.1| = turns a b ∧ |b.2 - a.2| ≤ turns a b ∨
      |b.2 - a.2| = turns a b ∧ |b.1 - a.1| ≤ turns a b := by
  rw [turns_cast]
  rcases le_total |b.1 - a.1| |b.2 - a.2| with h | h
  · exact Or.inr ⟨(max_eq_right h).symm, le_max_left _ _⟩
  · exact Or.inl ⟨(max_eq_left h).symm, le_max_right _ _⟩

/-- Without a turn both end points are one pixel. -/
theorem eq_of_turns_eq_zero {a b : Pixel} (h : turns a b = 0) : a = b := by
  have hmax := turns_cast a b
  rw [h, Nat.cast_zero] at hmax
  have h1 := abs_nonpos_iff.mp ((le_max_left _ _).trans hmax.ge)
  have h2 := abs_nonpos_iff.mp ((le_max_right _ _).trans hmax.ge)
  exact Prod.ext (by omega) (by omega)

section Whole

variable (i0 j0 i1 j1 : ℤ)

/-- **The last turn is at the end point.** -/
theorem pixelAt_end : (penAt i0 j0 i1 j1 (turns (i0, j0) (i1, j1))).pixel = (i1, j1) := by
  rcases (turns (i0, j0) (i1, j1)).eq_zero_or_pos with hzero | hpos
  · rw [hzero]
    exact eq_of_turns_eq_zero hzero
  · rw [pixelAt_eq _ _ _ _ le_rfl, axisAt_end hpos, axisAt_end hpos]

/-- **No turn before it is.** -/
theorem pixelAt_ne_end {k : ℕ} (hk : k < turns (i0, j0) (i1, j1)) :
    (penAt i0 j0 i1 j1 k).pixel ≠ (i1, j1) := by
  intro heq
  rw [pixelAt_eq _ _ _ _ hk.le] at heq
  obtain ⟨hi, hj⟩ := Prod.mk.inj heq
  -- the coordinate along the longer axis tells
  obtain ⟨hfull, -⟩ | ⟨hfull, -⟩ := turns_cases (i0, j0) (i1, j1)
  · rw [axisAt_full hfull hk.le] at hi
    have hsum := sign_mul_abs i0 i1
    dsimp only at hfull
    rcases sign_eq i0 i1 with hs | hs <;> rw [hs] at hi hsum <;> omega
  · rw [axisAt_full hfull hk.le] at hj
    have hsum := sign_mul_abs j0 j1
    dsimp only at hfull
    rcases sign_eq j0 j1 with hs | hs <;> rw [hs] at hj hsum <;> omega

/-- The ideal pixels are drawn. -/
theorem pixelAt_ideal {k : ℕ} (hk : k ≤ turns (i0, j0) (i1, j1)) :
    (penAt i0 j0 i1 j1 k).pixel = idealPixel (i0, j0) (i1, j1) k := by
  rw [pixelAt_eq _ _ _ _ hk]
  unfold idealPixel axisAt
  rw [round_eq_rise, round_eq_rise]

/-- **Two pixels in a row are neighbours.** -/
theorem pixelAt_adjacent {k : ℕ} (hk : k < turns (i0, j0) (i1, j1)) :
    |(penAt i0 j0 i1 j1 (k + 1)).pixel.1 - (penAt i0 j0 i1 j1 k).pixel.1| ≤ 1 ∧
      |(penAt i0 j0 i1 j1 (k + 1)).pixel.2 - (penAt i0 j0 i1 j1 k).pixel.2| ≤ 1 ∧
      (penAt i0 j0 i1 j1 (k + 1)).pixel ≠ (penAt i0 j0 i1 j1 k).pixel := by
  have hpos : 0 < turns (i0, j0) (i1, j1) := by omega
  have hcases := turns_cases (i0, j0) (i1, j1)
  have hle : |i1 - i0| ≤ turns (i0, j0) (i1, j1) ∧ |j1 - j0| ≤ turns (i0, j0) (i1, j1) := by
    rcases hcases with ⟨h1, h2⟩ | ⟨h2, h1⟩
    · exact ⟨h1.le, h2⟩
    · exact ⟨h1, h2.le⟩
  rw [pixelAt_eq _ _ _ _ hk, pixelAt_eq _ _ _ _ hk.le]
  refine ⟨abs_axisAt_succ_le hle.1 hpos k, abs_axisAt_succ_le hle.2 hpos k, fun heq => ?_⟩
  obtain ⟨hi, hj⟩ := Prod.mk.inj heq
  obtain ⟨hfull, -⟩ | ⟨hfull, -⟩ := hcases
  · rw [axisAt_full hfull hk, axisAt_full hfull hk.le] at hi
    rcases sign_eq i0 i1 with hs | hs <;> rw [hs] at hi <;> omega
  · rw [axisAt_full hfull hk, axisAt_full hfull hk.le] at hj
    rcases sign_eq j0 j1 with hs | hs <;> rw [hs] at hj <;> omega

/-- **All pixels lie in the box of the end points.** -/
theorem pixelAt_mem_box {k : ℕ} (hk : k ≤ turns (i0, j0) (i1, j1)) :
    (min i0 i1 ≤ (penAt i0 j0 i1 j1 k).pixel.1 ∧ (penAt i0 j0 i1 j1 k).pixel.1 ≤ max i0 i1) ∧
      min j0 j1 ≤ (penAt i0 j0 i1 j1 k).pixel.2 ∧ (penAt i0 j0 i1 j1 k).pixel.2 ≤ max j0 j1 := by
  rcases (turns (i0, j0) (i1, j1)).eq_zero_or_pos with hzero | hpos
  · obtain rfl : k = 0 := by omega
    exact ⟨⟨min_le_left _ _, le_max_left _ _⟩, min_le_left _ _, le_max_left _ _⟩
  · rw [pixelAt_eq _ _ _ _ hk]
    exact ⟨axisAt_mem hpos hk, axisAt_mem hpos hk⟩

/-- **Every pixel lies within half a pixel of the segment**, straight or sideways of its point. -/
theorem pixelAt_near {k : ℕ} (hk : k ≤ turns (i0, j0) (i1, j1)) :
    ∃ t : ℚ, 0 ≤ t ∧ t ≤ 1 ∧
      ((penAt i0 j0 i1 j1 k).pixel.1 - (i0 + t * (i1 - i0))) ^ 2 +
        ((penAt i0 j0 i1 j1 k).pixel.2 - (j0 + t * (j1 - j0))) ^ 2 ≤ (1 / 2) ^ 2 := by
  refine ⟨k / turns (i0, j0) (i1, j1), by positivity, ?_, ?_⟩
  · exact div_le_one_of_le₀ (Nat.cast_le.mpr hk) (Nat.cast_nonneg _)
  rw [pixelAt_eq _ _ _ _ hk]
  dsimp only
  have hhalf : ∀ x : ℚ, |x| ≤ 1 / 2 → x ^ 2 ≤ (1 / 2) ^ 2 := fun x hx =>
    sq_le_sq' (abs_le.mp hx).1 (abs_le.mp hx).2
  obtain ⟨hfull, -⟩ | ⟨hfull, -⟩ := turns_cases (i0, j0) (i1, j1)
  · rw [axisAt_full_eq hfull hk, sub_self, zero_pow two_ne_zero, zero_add]
    exact hhalf _ (abs_axisAt_sub_le j0 j1 _ k)
  · rw [axisAt_full_eq hfull hk, sub_self, zero_pow two_ne_zero, add_zero]
    exact hhalf _ (abs_axisAt_sub_le i0 i1 _ k)

/-- **`line_` draws the ideal raster**, for all end points; those of the code lie so near the frame
that no `int` overflows. It stops after as many turns as the longer extent has pixels. After `k`
turns it has come `k` pixels along the longer axis, and the rounded part of the shorter extent along
the other one; so two pixels in a row are neighbours, all of them lie in the box of the end points
and within half a pixel of the segment, and the last one is the end point. -/
theorem line_rasterises (f : Frame) :
    let N := turns (i0, j0) (i1, j1)
    let q := fun (k : ℕ) => (penAt i0 j0 i1 j1 k).pixel
    ((∀ fuel ≤ N, line_ fuel i0 j0 i1 j1 f = none) ∧
        ∀ fuel, N < fuel → ∃ g, line_ fuel i0 j0 i1 j1 f = some g ∧ Plotted q N f g) ∧
      (N = max |i1 - i0| |j1 - j0| ∧ q 0 = (i0, j0) ∧ q N = (i1, j1)) ∧
      (∀ k ≤ N, q k = idealPixel (i0, j0) (i1, j1) k ∧
        (|i1 - i0| = N → (q k).1 = i0 + sign i0 i1 * k) ∧
        (|j1 - j0| = N → (q k).2 = j0 + sign j0 j1 * k)) ∧
      (∀ k < N, |(q (k + 1)).1 - (q k).1| ≤ 1 ∧ |(q (k + 1)).2 - (q k).2| ≤ 1 ∧
        q (k + 1) ≠ q k) ∧
      ∀ k ≤ N,
        ((min i0 i1 ≤ (q k).1 ∧ (q k).1 ≤ max i0 i1) ∧
          min j0 j1 ≤ (q k).2 ∧ (q k).2 ≤ max j0 j1) ∧
        ∃ t : ℚ, 0 ≤ t ∧ t ≤ 1 ∧
          ((q k).1 - (i0 + t * (i1 - i0))) ^ 2 + ((q k).2 - (j0 + t * (j1 - j0))) ^ 2 ≤
            (1 / 2) ^ 2 := by
  intro N q
  refine ⟨?_, ⟨turns_cast _ _, rfl, pixelAt_end i0 j0 i1 j1⟩, fun k hk => ?_, fun k hk => ?_,
    fun k hk => ?_⟩
  · exact lineLoop_stops i1 j1 _ _ _ _ N _ f (fun k hk => pixelAt_ne_end i0 j0 i1 j1 hk)
      (pixelAt_end i0 j0 i1 j1)
  · have hpixel : q k = (axisAt i0 i1 N k, axisAt j0 j1 N k) := pixelAt_eq i0 j0 i1 j1 hk
    refine ⟨pixelAt_ideal i0 j0 i1 j1 hk, fun hfull => ?_, fun hfull => ?_⟩
    · rw [hpixel]
      exact axisAt_full hfull hk
    · rw [hpixel]
      exact axisAt_full hfull hk
  · exact pixelAt_adjacent i0 j0 i1 j1 hk
  · exact ⟨pixelAt_mem_box i0 j0 i1 j1 hk, pixelAt_near i0 j0 i1 j1 hk⟩

end Whole

end HandlingRobot
