import HandlingRobot.Vision.Line
import Mathlib.Algebra.Order.Field.Rat

/-! # The outline of the field in the frame

`get_a4` draws the four sides between the corners it has found and accepts the frame when the
corners look like those of a rectangle.

* **`Corners`**, **`checkRct`**, **`Corners.accepted`** — the test.
* **`getA4`** — one round of the loop, from the corners on.
* **`Apart`** — what the test says of the corners, in either orientation.
* **`bfs_confined`** — a flood that starts inside the outline stays inside. -/

namespace HandlingRobot

/-! ## The test of the corners -/

/-- `cor[0]` to `cor[3]`: upper left, upper right, lower left and lower right. -/
structure Corners where
  ls : Pixel
  rs : Pixel
  lx : Pixel
  rx : Pixel

/-- **`check_rct`**, 0 for a rectangle. The quotient is exact here; the code stores it in a `float`
and rejects a ratio of exactly 1.3, which is slightly less there. For `wei_ = 0`, where the code
divides by zero, the test of the area gives 1 as well. -/
def checkRct (lsx lsy rsx rsy rxx rxy lxx lxy : ℤ) : ℤ :=
  let wid := (|rsx - lsx| + |rxx - lxx|) / 2
  let wei := (|lsy - lxy| + |rxy - rsy|) / 2
  let dd : ℚ := wid / wei
  if dd < 13 / 10 ∨ dd > 15 / 10 then 1
  else
    let ss := wid * wei
    if ss < 4000 ∨ ss > 10000 then 1 else 0

/-- The tests at the end of `get_a4`. -/
def Corners.accepted (c : Corners) : Bool :=
  (|c.ls.2 - c.rs.2| < 6 && |c.ls.1 - c.lx.1| < 6 && |c.lx.2 - c.rx.2| < 6 &&
    |c.rx.1 - c.rs.1| < 6) &&
  checkRct c.ls.1 c.ls.2 c.rs.1 c.rs.2 c.rx.1 c.rx.2 c.lx.1 c.lx.2 == 0

/-- **The part of `get_a4` behind `get_smlarA4`**, on a frame of 0 and 1: whether it leaves the
loop, and the frame. -/
def getA4 (fuel : ℕ) (c : Corners) (f : Frame) : Option (Bool × Frame) := do
  let f ← line_ fuel c.ls.1 c.ls.2 c.rs.1 c.rs.2 f
  let f ← line_ fuel c.ls.1 c.ls.2 c.lx.1 c.lx.2 f
  let f ← line_ fuel c.lx.1 c.lx.2 c.rx.1 c.rx.2 f
  let f ← line_ fuel c.rx.1 c.rx.2 c.rs.1 c.rs.2 f
  some (c.accepted, fun x y => f x y * 255 % 256)

/-! ## What the test says -/

/-- **Corners of a box**, up to mirroring: `m` apart at least along one side, and less than 6 along
the other. -/
structure Apart (m a b a' b' : ℤ) : Prop where
  near : |a - a'| < 6 ∧ |b - b'| < 6
  far : (a + m ≤ b ∧ a' + m ≤ b') ∨ (b + m ≤ a ∧ b' + m ≤ a')

/-- Two differences whose mean is large and which are nearly equal have one sign. -/
theorem apart_of_mean {m a b a' b' : ℤ} (hnear : |a - a'| < 6 ∧ |b - b'| < 6) (hm : 0 < m)
    (hmean : m + 6 ≤ (|b - a| + |b' - a'|) / 2) : Apart m a b a' b' := by
  refine ⟨hnear, ?_⟩
  obtain ⟨hnear, hnear'⟩ := hnear
  rw [abs_lt] at hnear hnear'
  obtain ⟨h1, h1'⟩ | ⟨h1, h1'⟩ := abs_cases (b - a) <;>
    obtain ⟨h2, h2'⟩ | ⟨h2, h2'⟩ := abs_cases (b' - a') <;> omega

/-- Two differences whose mean is small and which are nearly equal are both small. -/
theorem le_of_mean {m a b a' b' : ℤ} (hnear : |a - a'| < 6 ∧ |b - b'| < 6)
    (hmean : (|b - a| + |b' - a'|) / 2 ≤ m) : |b - a| ≤ m + 5 ∧ |b' - a'| ≤ m + 5 := by
  obtain ⟨hnear, hnear'⟩ := hnear
  rw [abs_lt] at hnear hnear'
  obtain ⟨h1, h1'⟩ | ⟨h1, h1'⟩ := abs_cases (b - a) <;>
    obtain ⟨h2, h2'⟩ | ⟨h2, h2'⟩ := abs_cases (b' - a') <;> omega

theorem Apart.symm {m a b a' b' : ℤ} (h : Apart m a b a' b') : Apart m a' b' a b where
  near := ⟨by rw [abs_sub_comm]; exact h.near.1, by rw [abs_sub_comm]; exact h.near.2⟩
  far := by have hfar := h.far; omega

theorem Apart.mono {m m' a b a' b' : ℤ} (h : Apart m a b a' b') (hm : m' ≤ m) :
    Apart m' a b a' b' :=
  ⟨h.near, by have hfar := h.far; omega⟩

/-- **The mean sides that pass the test.** -/
theorem checkRct_eq_zero {lsx lsy rsx rsy rxx rxy lxx lxy : ℤ}
    (h : checkRct lsx lsy rsx rsy rxx rxy lxx lxy = 0) :
    (73 ≤ (|rsx - lsx| + |rxx - lxx|) / 2 ∧ (|rsx - lsx| + |rxx - lxx|) / 2 ≤ 122) ∧
      (52 ≤ (|lsy - lxy| + |rxy - rsy|) / 2 ∧ (|lsy - lxy| + |rxy - rsy|) / 2 ≤ 87) := by
  have hwei0 : 0 ≤ (|lsy - lxy| + |rxy - rsy|) / 2 := by
    have hnn := add_nonneg (abs_nonneg (lsy - lxy)) (abs_nonneg (rxy - rsy))
    omega
  unfold checkRct at h
  dsimp only at h
  generalize (|rsx - lsx| + |rxx - lxx|) / 2 = wid at h ⊢
  generalize (|lsy - lxy| + |rxy - rsy|) / 2 = wei at h hwei0 ⊢
  split_ifs at h with hratio harea
  · exact absurd h one_ne_zero
  · exact absurd h one_ne_zero
  · simp only [not_or, not_lt, gt_iff_lt] at hratio harea
    have hpos : 0 < wei := by
      refine hwei0.lt_of_ne fun hzero => ?_
      rw [← hzero, mul_zero] at harea
      omega
    have hwei : (0 : ℚ) < wei := by exact_mod_cast hpos
    have hlow : 13 * wei ≤ 10 * wid := by
      have hdiv := (le_div_iff₀ hwei).mp hratio.1
      have hcast : (13 : ℚ) * wei ≤ 10 * wid := by linarith
      exact_mod_cast hcast
    have hhigh : 10 * wid ≤ 15 * wei := by
      have hdiv := (div_le_iff₀ hwei).mp hratio.2
      have hcast : (10 : ℚ) * wid ≤ 15 * wei := by linarith
      exact_mod_cast hcast
    -- the ratio turns the bounds of the area into bounds of the squares
    obtain ⟨hleast, hmost⟩ := harea
    refine ⟨⟨?_, ?_⟩, ?_, ?_⟩ <;> by_contra hnot <;> nlinarith

/-- **Accepted corners are those of a box** of this size, which may be mirrored. -/
theorem Corners.apart_wide {c : Corners} (h : c.accepted = true) :
    (Apart 67 c.ls.1 c.rs.1 c.lx.1 c.rx.1 ∧ Apart 46 c.lx.2 c.ls.2 c.rx.2 c.rs.2) ∧
      (|c.rs.1 - c.ls.1| ≤ 127 ∧ |c.rx.1 - c.lx.1| ≤ 127) ∧
      (|c.ls.2 - c.lx.2| ≤ 92 ∧ |c.rs.2 - c.rx.2| ≤ 92) := by
  simp only [Corners.accepted, Bool.and_eq_true, decide_eq_true_eq, beq_iff_eq] at h
  obtain ⟨⟨⟨⟨h0, h1⟩, h2⟩, h3⟩, hrct⟩ := h
  rw [abs_sub_comm] at h3
  obtain ⟨⟨hwid, hwid'⟩, hwei, hwei'⟩ := checkRct_eq_zero hrct
  rw [abs_sub_comm c.rx.2] at hwei hwei'
  exact ⟨⟨apart_of_mean ⟨h1, h3⟩ (by norm_num) hwid, apart_of_mean ⟨h2, h0⟩ (by norm_num) hwei⟩,
    le_of_mean ⟨h1, h3⟩ hwid', le_of_mean ⟨h2, h0⟩ hwei'⟩

theorem Corners.apart {c : Corners} (h : c.accepted = true) :
    Apart 16 c.ls.1 c.rs.1 c.lx.1 c.rx.1 ∧ Apart 16 c.lx.2 c.ls.2 c.rx.2 c.rs.2 :=
  ⟨(apart_wide h).1.1.mono (by norm_num), (apart_wide h).1.2.mono (by norm_num)⟩

/-! ## The drawn frame -/

/-- A pixel of the outline. -/
def Corners.OnOutline (c : Corners) (q : Pixel) : Prop :=
  (OnSegment c.ls c.lx q ∨ OnSegment c.rx c.rs q) ∨ (OnSegment c.lx c.rx q ∨ OnSegment c.ls c.rs q)

/-- **The four sides as fences**: two steep ones and two flat ones. -/
structure Corners.Sides (c : Corners) : Prop where
  left : Steep c.ls.1 c.ls.2 c.lx.1 c.lx.2
  right : Steep c.rx.1 c.rx.2 c.rs.1 c.rs.2
  bottom : Steep c.lx.2 c.lx.1 c.rx.2 c.rx.1
  top : Steep c.ls.2 c.ls.1 c.rs.2 c.rs.1

theorem steep_of_apart {x0 y0 x1 y1 : ℤ} (hx : |x0 - x1| < 6) (hy : y0 + 16 ≤ y1 ∨ y1 + 16 ≤ y0) :
    Steep x0 y0 x1 y1 := by
  rw [abs_lt] at hx
  have hfar : 16 ≤ |y1 - y0| := by
    rw [le_abs]
    omega
  refine ⟨?_, by omega⟩
  rw [abs_le]
  omega

theorem Corners.sides {c : Corners} (hcol : Apart 16 c.ls.1 c.rs.1 c.lx.1 c.rx.1)
    (hrow : Apart 16 c.lx.2 c.ls.2 c.rx.2 c.rs.2) : c.Sides where
  left := steep_of_apart hcol.near.1 (by have hfar := hrow.far; omega)
  right := steep_of_apart (by rw [abs_sub_comm]; exact hcol.near.2)
    (by have hfar := hrow.far; omega)
  bottom := steep_of_apart hrow.near.1 (by have hfar := hcol.far; omega)
  top := steep_of_apart hrow.near.2 (by have hfar := hcol.far; omega)

theorem Corners.Sides.onOutline_iff {c : Corners} (h : c.Sides) {q : Pixel} :
    c.OnOutline q ↔ (h.left.fence.Covers q.2 q.1 ∨ h.right.fence.Covers q.2 q.1) ∨
      (h.bottom.fence.Covers q.1 q.2 ∨ h.top.fence.Covers q.1 q.2) := by
  rw [Corners.OnOutline, onSegment_steep h.left, onSegment_steep h.right, onSegment_flat h.bottom,
    onSegment_flat h.top]

/-- A distance inside the frame. -/
theorem abs_sub_le_of_frame {a b w : ℤ} (ha : 0 ≤ a ∧ a < w) (hb : 0 ≤ b ∧ b < w) :
    |a - b| ≤ w - 1 := by
  rw [abs_le]
  omega

/-- **The frame after a round of `get_a4`** is 255 on the outline. -/
theorem getA4_outline {c : Corners} (h : c.Sides) (hls : OnFrame c.ls) (hrs : OnFrame c.rs)
    (hlx : OnFrame c.lx) (hrx : OnFrame c.rx) (f : Frame) :
    ∃ g : Frame, (∀ fuel, 188 ≤ fuel → getA4 fuel c f = some (c.accepted, g)) ∧
      ∀ q, c.OnOutline q → g q.1 q.2 = 255 := by
  have hwidth : ∀ {a b : Pixel}, OnFrame a → OnFrame b → ∀ {fuel : ℕ}, 188 ≤ fuel →
      |b.1 - a.1| < fuel ∧ |b.2 - a.2| < fuel := by
    intro a b ha hb fuel hfuel
    have h1 := abs_sub_le_of_frame ⟨hb.1, hb.2.1⟩ ⟨ha.1, ha.2.1⟩
    have h2 := abs_sub_le_of_frame ⟨hb.2.2.1, hb.2.2.2⟩ ⟨ha.2.2.1, ha.2.2.2⟩
    simp only [imgWidth, imgHeight] at h1 h2
    omega
  -- the four lines, each drawn over the ones before it
  refine ⟨fun x y => (if h.right.fence.Covers y x then 1 else
      if h.bottom.fence.Covers x y then 1 else if h.left.fence.Covers y x then 1 else
      if h.top.fence.Covers x y then 1 else f x y) * 255 % 256,
    fun fuel hfuel => ?_, fun q hq => ?_⟩
  · unfold getA4
    simp only [line_flat h.top _ (hwidth hls hrs hfuel).1,
      line_steep h.left _ (hwidth hls hlx hfuel).2, line_flat h.bottom _ (hwidth hlx hrx hfuel).1,
      line_steep h.right _ (hwidth hrx hrs hfuel).2, Option.bind_eq_bind, Option.bind_some]
  · rw [h.onOutline_iff] at hq
    dsimp only
    split_ifs with h1 h2 h3 h4
    · rfl
    · rfl
    · rfl
    · rfl
    · exact absurd hq (by simp [h1, h2, h3, h4])

/-- **A frame that shows the outline already** is scaled only. -/
theorem getA4_drawn {c : Corners} (h : c.Sides) {f : Frame}
    (hf : ∀ q, c.OnOutline q → f q.1 q.2 = 1) :
    ∃ N, ∀ fuel, N ≤ fuel →
      getA4 fuel c f = some (c.accepted, fun x y => f x y * 255 % 256) := by
  -- a line over pixels of 1 changes nothing
  have hsame : ∀ (P : ℤ → ℤ → Prop) [DecidableRel P], (∀ x y, P x y → c.OnOutline (x, y)) →
      (fun x y => if P x y then 1 else f x y) = f := by
    intro P _ hP
    funext x y
    split_ifs with hxy
    · exact (hf (x, y) (hP x y hxy)).symm
    · rfl
  refine ⟨|c.rs.1 - c.ls.1|.toNat + |c.lx.2 - c.ls.2|.toNat + |c.rx.1 - c.lx.1|.toNat +
    |c.rs.2 - c.rx.2|.toNat + 1, fun fuel hfuel => ?_⟩
  have htop : line_ fuel c.ls.1 c.ls.2 c.rs.1 c.rs.2 f = some f := by
    rw [line_flat h.top f (by omega)]
    exact congrArg some (hsame _ fun x y hxy => h.onOutline_iff.mpr (Or.inr (Or.inr hxy)))
  have hleft : line_ fuel c.ls.1 c.ls.2 c.lx.1 c.lx.2 f = some f := by
    rw [line_steep h.left f (by omega)]
    exact congrArg some (hsame _ fun x y hxy => h.onOutline_iff.mpr (Or.inl (Or.inl hxy)))
  have hbottom : line_ fuel c.lx.1 c.lx.2 c.rx.1 c.rx.2 f = some f := by
    rw [line_flat h.bottom f (by omega)]
    exact congrArg some (hsame _ fun x y hxy => h.onOutline_iff.mpr (Or.inr (Or.inl hxy)))
  have hright : line_ fuel c.rx.1 c.rx.2 c.rs.1 c.rs.2 f = some f := by
    rw [line_steep h.right f (by omega)]
    exact congrArg some (hsame _ fun x y hxy => h.onOutline_iff.mpr (Or.inl (Or.inr hxy)))
  unfold getA4
  simp only [htop, hleft, hbottom, hright, Option.bind_eq_bind, Option.bind_some]

/-! ## A flood inside the outline -/

/-- In its row and in its column the pixel lies strictly between the pixels of the sides. -/
def Corners.Encloses (c : Corners) (q : Pixel) : Prop :=
  (∃ xl xr, OnSegment c.ls c.lx (xl, q.2) ∧ OnSegment c.rx c.rs (xr, q.2) ∧
    ((xl < q.1 ∧ q.1 < xr) ∨ (xr < q.1 ∧ q.1 < xl))) ∧
  (∃ yb yt, OnSegment c.lx c.rx (q.1, yb) ∧ OnSegment c.ls c.rs (q.1, yt) ∧
    ((yb < q.2 ∧ q.2 < yt) ∨ (yt < q.2 ∧ q.2 < yb)))

/-- A pixel of the outermost columns and rows of the frame. -/
def OnBorder (q : Pixel) : Prop :=
  q.1 = 0 ∨ q.1 = imgWidth - 1 ∨ q.2 = 0 ∨ q.2 = imgHeight - 1

/-- The pixel lies in the bounding box of the corners. -/
def Corners.InBox (c : Corners) (q : Pixel) : Prop :=
  (min (min c.ls.1 c.rs.1) (min c.lx.1 c.rx.1) ≤ q.1 ∧
    q.1 ≤ max (max c.ls.1 c.rs.1) (max c.lx.1 c.rx.1)) ∧
  (min (min c.ls.2 c.rs.2) (min c.lx.2 c.rx.2) ≤ q.2 ∧
    q.2 ≤ max (max c.ls.2 c.rs.2) (max c.lx.2 c.rx.2))

/-- The first four directions lead to the four neighbours. -/
theorem mem_dir_iff_neighbour {p q : Pixel} :
    (∃ d ∈ dir.take 4, (p.1 + d.1, p.2 + d.2) = q) ↔ Neighbour p q := by
  have hdirs : dir.take 4 = [(-1, 0), (0, -1), (1, 0), (0, 1)] := rfl
  obtain ⟨x, y⟩ := p
  obtain ⟨x', y'⟩ := q
  simp only [hdirs, List.mem_cons, List.not_mem_nil, or_false, exists_eq_or_imp, exists_eq_left,
    Prod.mk.injEq, Neighbour, Near]
  omega

/-- A flood on four sides goes to neighbours of its own colour. -/
theorem neighbour_of_spread {g : Frame} {s : Labels} {p q : Pixel}
    (h : q ∈ spread g s (dir.take 4) p) : Neighbour p q ∧ isWhite g q = isWhite g p := by
  obtain ⟨hdir, -, -, hcolour⟩ := mem_spread.mp h
  exact ⟨mem_dir_iff_neighbour.mp hdir, hcolour⟩

/-- **A flood from between four curves stays between them.** -/
theorem Quad.confines {L R B T : Fence} {ll lh hl hh : Pixel} (h : Quad L R B T ll lh hl hh)
    {g : Frame} (hwhite : ∀ q : Pixel, h.enclosure.OnFence q.1 q.2 → g q.1 q.2 = 255)
    {seed : Pixel} (hseed : g seed.1 seed.2 = 0) (hrow : Between L R seed.2 seed.1)
    (hcolumn : Between B T seed.1 seed.2) {s : Labels} {q : Pixel}
    (hq : Reach (spread g s (dir.take 4)) seed q) :
    g q.1 q.2 ≠ 255 ∧ (min ll.1 lh.1 < q.1 ∧ q.1 < max hl.1 hh.1) ∧
      (min ll.2 hl.2 < q.2 ∧ q.2 < max lh.2 hh.2) := by
  -- the colour is that of the seed all along
  have hstep : ∀ {q : Pixel}, Reach (spread g s (dir.take 4)) seed q → isWhite g q = false := by
    intro q hq
    induction hq with
    | refl => simp [isWhite, hseed]
    | tail _ hstep ih => exact (neighbour_of_spread hstep).2.trans ih
  have hdark : ∀ {q : Pixel}, isWhite g q = false → g q.1 q.2 ≠ 255 := by
    intro q hq heq
    simp [isWhite, heq] at hq
  refine ⟨hdark (hstep hq), h.inside_box ?_⟩
  induction hq with
  | refl => exact h.inside hrow hcolumn
  | tail hwalk hmove ih =>
      exact Enclosure.step ih (neighbour_of_spread hmove).1
        fun hon => hdark (hstep (hwalk.tail hmove)) (hwhite _ hon)

/-- Nothing else can be labelled by a flood inside the outline. -/
def Corners.Confined (c : Corners) (q : Pixel) : Prop :=
  ¬ c.OnOutline q ∧ ¬ OnBorder q ∧ c.InBox q

theorem Between.symm {F G : Fence} {t v : ℤ} (h : Between F G t v) : Between G F t v := by
  obtain ⟨a, b, ha, hb, hv⟩ := h
  exact ⟨b, a, hb, ha, hv.symm⟩

/-- The box of four coordinates of the frame. -/
theorem four_within {a b a' b' w : ℤ} (ha : 0 ≤ a ∧ a < w) (hb : 0 ≤ b ∧ b < w)
    (ha' : 0 ≤ a' ∧ a' < w) (hb' : 0 ≤ b' ∧ b' < w) :
    0 ≤ min (min a b) (min a' b') ∧ max (max a b) (max a' b') < w :=
  ⟨le_min (le_min ha.1 hb.1) (le_min ha'.1 hb'.1), max_lt (max_lt ha.2 hb.2) (max_lt ha'.2 hb'.2)⟩

/-- **The pixels a flood reaches** lie strictly between the outermost corners, in whichever
orientation the corners are. -/
theorem Corners.Sides.reach_box {c : Corners} (h : c.Sides)
    (hcol : Apart 16 c.ls.1 c.rs.1 c.lx.1 c.rx.1) (hrow : Apart 16 c.lx.2 c.ls.2 c.rx.2 c.rs.2)
    {g : Frame} (hwhite : ∀ q, c.OnOutline q → g q.1 q.2 = 255) {seed : Pixel}
    (hseed : g seed.1 seed.2 = 0) (hin : c.Encloses seed) {s : Labels} {q : Pixel}
    (hq : Reach (spread g s (dir.take 4)) seed q) :
    g q.1 q.2 ≠ 255 ∧
      (min (min c.ls.1 c.rs.1) (min c.lx.1 c.rx.1) < q.1 ∧
        q.1 < max (max c.ls.1 c.rs.1) (max c.lx.1 c.rx.1)) ∧
      (min (min c.ls.2 c.rs.2) (min c.lx.2 c.rx.2) < q.2 ∧
        q.2 < max (max c.ls.2 c.rs.2) (max c.lx.2 c.rx.2)) := by
  obtain ⟨⟨xl, xr, hxl, hxr, hx⟩, ⟨yb, yt, hyb, hyt, hy⟩⟩ := hin
  rw [onSegment_steep h.left] at hxl
  rw [onSegment_steep h.right] at hxr
  rw [onSegment_flat h.bottom] at hyb
  rw [onSegment_flat h.top] at hyt
  have hbetween : Between h.left.fence h.right.fence seed.2 seed.1 := ⟨xl, xr, hxl, hxr, hx⟩
  have hbetween' : Between h.bottom.fence h.top.fence seed.1 seed.2 := ⟨yb, yt, hyb, hyt, hy⟩
  have hwhite' : ∀ {q : Pixel}, (h.left.fence.Covers q.2 q.1 ∨ h.right.fence.Covers q.2 q.1) ∨
      (h.bottom.fence.Covers q.1 q.2 ∨ h.top.fence.Covers q.1 q.2) → g q.1 q.2 = 255 :=
    fun hq => hwhite _ (h.onOutline_iff.mpr hq)
  have hnear := hcol.near
  have hnear' := hrow.near
  simp only [abs_lt] at hnear hnear'
  have hbottom := Steep.joins (a := c.lx.swap) (b := c.rx.swap) h.bottom
  have htop := Steep.joins (a := c.ls.swap) (b := c.rs.swap) h.top
  simp only [Prod.snd_swap] at hbottom htop
  rcases hcol.far with hright | hleft <;> rcases hrow.far with hup | hdown
  · have hquad : Quad h.left.fence h.right.fence h.bottom.fence h.top.fence c.lx c.ls c.rx c.rs :=
      ⟨h.left.joins.2 (by omega), h.right.joins.1 (by omega), hbottom.1 (by omega),
        htop.1 (by omega), by omega, by omega⟩
    have hconf := hquad.confines (fun _ => hwhite') hseed hbetween hbetween' hq
    omega
  · -- mirrored top to bottom
    have hquad : Quad h.left.fence h.right.fence h.top.fence h.bottom.fence c.ls c.lx c.rs c.rx :=
      ⟨h.left.joins.1 (by omega), h.right.joins.2 (by omega), htop.1 (by omega),
        hbottom.1 (by omega), by omega, by omega⟩
    have hconf := hquad.confines (fun _ hon => hwhite' (hon.imp_right Or.symm)) hseed hbetween
      hbetween'.symm hq
    omega
  · -- mirrored left to right
    have hquad : Quad h.right.fence h.left.fence h.bottom.fence h.top.fence c.rx c.rs c.lx c.ls :=
      ⟨h.right.joins.1 (by omega), h.left.joins.2 (by omega), hbottom.2 (by omega),
        htop.2 (by omega), by omega, by omega⟩
    have hconf := hquad.confines (fun _ hon => hwhite' (hon.imp_left Or.symm)) hseed hbetween.symm
      hbetween' hq
    omega
  · -- both
    have hquad : Quad h.right.fence h.left.fence h.top.fence h.bottom.fence c.rs c.rx c.ls c.lx :=
      ⟨h.right.joins.2 (by omega), h.left.joins.1 (by omega), htop.2 (by omega),
        hbottom.2 (by omega), by omega, by omega⟩
    have hconf := hquad.confines (fun _ hon => hwhite' (hon.imp Or.symm Or.symm)) hseed
      hbetween.symm hbetween'.symm hq
    omega

/-- Corners on the frame confine the flood to the frame and to their box. -/
theorem Corners.Sides.confined {c : Corners} (h : c.Sides)
    (hcol : Apart 16 c.ls.1 c.rs.1 c.lx.1 c.rx.1) (hrow : Apart 16 c.lx.2 c.ls.2 c.rx.2 c.rs.2)
    (hls : OnFrame c.ls) (hrs : OnFrame c.rs) (hlx : OnFrame c.lx) (hrx : OnFrame c.rx)
    {g : Frame} (hwhite : ∀ q, c.OnOutline q → g q.1 q.2 = 255) {seed : Pixel}
    (hseed : g seed.1 seed.2 = 0) (hin : c.Encloses seed) {s : Labels} {q : Pixel}
    (hq : Reach (spread g s (dir.take 4)) seed q) : c.Confined q := by
  obtain ⟨hdark, hcolumn, hrow'⟩ := h.reach_box hcol hrow hwhite hseed hin hq
  refine ⟨fun hon => hdark (hwhite q hon), fun hborder => ?_, ?_⟩
  · have hwidth := four_within ⟨hls.1, hls.2.1⟩ ⟨hrs.1, hrs.2.1⟩ ⟨hlx.1, hlx.2.1⟩ ⟨hrx.1, hrx.2.1⟩
    have hheight := four_within hls.2.2 hrs.2.2 hlx.2.2 hrx.2.2
    rcases hborder with hx | hx | hy | hy <;> linarith
  · exact ⟨⟨hcolumn.1.le, hcolumn.2.le⟩, hrow'.1.le, hrow'.2.le⟩

/-- **A flood that starts inside the drawn outline stays inside**, whatever the rest of the frame
holds. -/
theorem bfs_confined (c : Corners) (f : Frame) (haccepted : c.accepted = true)
    (hls : OnFrame c.ls) (hrs : OnFrame c.rs) (hlx : OnFrame c.lx) (hrx : OnFrame c.rx)
    (seed : Pixel) (hin : c.Encloses seed) (label : ℕ) (s : Labels) :
    ∃ N g, (∀ fuel, N ≤ fuel → getA4 fuel c f = some (true, g)) ∧
      (∀ q, c.OnOutline q → g q.1 q.2 = 255) ∧
      (g seed.1 seed.2 = 0 → ∃ s',
        (∃ M, ∀ fuel, M ≤ fuel → bfs g fuel seed label 4 true s = some s') ∧
        ∀ q, q = seed ∨ s'.img q ≠ s.img q → c.Confined q) := by
  obtain ⟨hcol, hrow⟩ := Corners.apart haccepted
  have hsides := Corners.sides hcol hrow
  obtain ⟨g, hrun, hwhite⟩ := getA4_outline hsides hls hrs hlx hrx f
  refine ⟨188, g, fun fuel hfuel => haccepted ▸ hrun fuel hfuel, hwhite, fun hseed => ?_⟩
  obtain ⟨M, l, -, hl, hbfs⟩ := bfs_ends g seed label 4 true s
  refine ⟨_, ⟨M, hbfs⟩, fun q hq => ?_⟩
  have hreach : Reach (spread g s (dir.take 4)) seed q := by
    rcases hq with rfl | hq
    · exact .refl
    · rw [← hl]
      by_contra hno
      exact hq (if_neg hno)
  exact hsides.confined hcol hrow hls hrs hlx hrx hwhite hseed hin hreach

/-- The corners of a field seen slightly askew. -/
def skewed : Corners := ⟨(44, 96), (144, 98), (46, 24), (146, 25)⟩

theorem skewed_sides : skewed.Sides := by
  refine ⟨⟨?_, ?_⟩, ⟨?_, ?_⟩, ⟨?_, ?_⟩, ⟨?_, ?_⟩⟩ <;> decide

theorem skewed_accepted : skewed.accepted = true := by
  rw [Corners.accepted, Bool.and_eq_true]
  refine ⟨by decide, ?_⟩
  norm_num [checkRct, skewed]

theorem skewed_encloses : skewed.Encloses (94, 60) := by
  refine ⟨⟨45, 145, (onSegment_steep skewed_sides.left).mpr ?_,
      (onSegment_steep skewed_sides.right).mpr ?_, ?_⟩,
    ⟨24, 97, (onSegment_flat skewed_sides.bottom).mpr ?_,
      (onSegment_flat skewed_sides.top).mpr ?_, ?_⟩⟩ <;> decide

/-- A flood from the centre of such a field, in a frame that is 0 everywhere else. -/
theorem bfs_confined_skewed :
    ∃ N g, (∀ fuel, N ≤ fuel → getA4 fuel skewed (fun _ _ => 0) = some (true, g)) ∧
      (∀ q, skewed.OnOutline q → g q.1 q.2 = 255) ∧
      (g 94 60 = 0 → ∃ s',
        (∃ M, ∀ fuel, M ≤ fuel →
          bfs g fuel (94, 60) 0 4 true ⟨fun _ => -1, fun _ => ⟨0, 0, 0⟩, []⟩ = some s') ∧
        ∀ q, q = (94, 60) ∨ s'.img q ≠ -1 → skewed.Confined q) :=
  bfs_confined skewed (fun _ _ => 0) skewed_accepted (by decide) (by decide) (by decide) (by decide)
    (94, 60) skewed_encloses 0 ⟨fun _ => -1, fun _ => ⟨0, 0, 0⟩, []⟩

end HandlingRobot
