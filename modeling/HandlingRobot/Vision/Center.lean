import HandlingRobot.Library.CutOff
import HandlingRobot.Vision.PicPick
import Mathlib.Data.Fintype.Basic

/-! # The centre of a picture

`get_center` looks at the sides between the corners it has found, drops corners whose sides are not
as long as those of a picture, and computes the centre from the corners it keeps.

* **`Place`**, **`Corners.fits`** — the four corners, and the test of a side or a diagonal.
* **`Tests`**, **`keep`** — the `switch`, as a table over what is found and which tests succeed.
* **`getCenter_shift`** — the centre moves with the corners.
* **`getCenter_sound_iff`** — the corners kept have the sides of a picture, unless all four are
  found and none of the four sides is one.
* **`getCenter_square_iff`** — the centre is that of the square when two opposite corners are found;
  otherwise it is computed from half a side of 30. -/

namespace HandlingRobot

/-! ## The corners and their tests -/

/-- The four corners of a picture. -/
inductive Place
  | ul | ur | dl | dr
  deriving DecidableEq

instance : Fintype Place := ⟨{.ul, .ur, .dl, .dr}, fun a => by cases a <;> decide⟩

/-- The corner at a place. -/
def Corners.at (c : Corners) : Place → Pixel
  | .ul => c.ls
  | .ur => c.rs
  | .dl => c.lx
  | .dr => c.rx

/-- Whether the corner at a place is among some. -/
def Found4.has (st : Found4) : Place → Bool
  | .ul => st.ul
  | .ur => st.ur
  | .dl => st.dl
  | .dr => st.dr

/-- The number of corners. -/
def Found4.count (st : Found4) : ℕ := st.ul.toNat + st.ur.toNat + st.dl.toNat + st.dr.toNat

/-- Two corners at the ends of a side. -/
def Place.beside : Place → Place → Bool
  | .ul, .ur | .ur, .ul | .ur, .dr | .dr, .ur | .dl, .dr | .dr, .dl | .ul, .dl | .dl, .ul => true
  | _, _ => false

/-- The measured distance of two corners. -/
def Corners.dis (c : Corners) (a b : Place) : ℤ :=
  calcDis (c.at a).1 (c.at a).2 (c.at b).1 (c.at b).2

/-- **The measured distance is in the accepted range**: that of a side, or that of a diagonal. -/
def Corners.fits (c : Corners) (a b : Place) : Bool :=
  if a.beside b then isSide (c.dis a b) else isDiagonal (c.dis a b)

theorem calcDis_comm (x1 y1 x2 y2 : ℤ) : calcDis x1 y1 x2 y2 = calcDis x2 y2 x1 y1 := by
  unfold calcDis
  dsimp only
  rw [← neg_sub x2 x1, ← neg_sub y2 y1, neg_mul_neg, neg_mul_neg]

theorem Place.beside_comm (a b : Place) : a.beside b = b.beside a := by
  cases a <;> cases b <;> rfl

theorem Corners.fits_comm (c : Corners) (a b : Place) : c.fits a b = c.fits b a := by
  have hdis : c.dis a b = c.dis b a := calcDis_comm _ _ _ _
  unfold fits
  rw [hdis, a.beside_comm b]

/-! ## The table -/

/-- The tests of the four sides `st_1` to `st_4` and of the two diagonals. -/
structure Tests where
  top : Bool
  right : Bool
  bottom : Bool
  left : Bool
  /-- From the upper right to the lower left. -/
  slash : Bool
  backslash : Bool
  deriving DecidableEq

/-- The tests between two corners. -/
def Tests.accepts (t : Tests) : Place → Place → Bool
  | .ul, .ur | .ur, .ul => t.top
  | .ur, .dr | .dr, .ur => t.right
  | .dl, .dr | .dr, .dl => t.bottom
  | .ul, .dl | .dl, .ul => t.left
  | .ur, .dl | .dl, .ur => t.slash
  | .ul, .dr | .dr, .ul => t.backslash
  | _, _ => false

/-- The tests of some corners. -/
def Corners.tests (c : Corners) : Tests :=
  ⟨c.fits .ul .ur, c.fits .ur .dr, c.fits .dl .dr, c.fits .ul .dl, c.fits .ur .dl, c.fits .ul .dr⟩

theorem Corners.accepts_tests (c : Corners) {a b : Place} (h : a ≠ b) :
    c.tests.accepts a b = c.fits a b := by
  -- each pair is tested in one order
  cases a <;> cases b
  case ul.ul | ur.ur | dl.dl | dr.dr => exact absurd rfl h
  case ur.ul | dr.ur | dr.dl | dl.ul | dl.ur | dr.ul =>
    rw [c.fits_comm]
    rfl
  all_goals rfl

/-- Some corners without the one at a place. -/
def Found4.drop (st : Found4) : Place → Found4
  | .ul => { st with ul := false }
  | .ur => { st with ur := false }
  | .dl => { st with dl := false }
  | .dr => { st with dr := false }

/-- A corner with two sides: it stays with both, and otherwise one of the ends goes. -/
def keepThree (st : Found4) (first second : Bool) (dropFirst dropSecond : Place) : Option Found4 :=
  if first && second then some st else if first then some (st.drop dropFirst)
  else if second then some (st.drop dropSecond) else none

/-- **The corners kept** of those found, by the tests. -/
def keep (t : Tests) (st : Found4) : Option Found4 :=
  match st with
  | ⟨false, false, true, true⟩ => if t.bottom then some st else none
  | ⟨false, true, false, true⟩ => if t.right then some st else none
  | ⟨false, true, true, false⟩ => if t.slash then some st else none
  | ⟨false, true, true, true⟩ => keepThree st t.right t.bottom .dl .ur
  | ⟨true, false, false, true⟩ => if t.backslash then some st else none
  | ⟨true, false, true, false⟩ => if t.left then some st else none
  | ⟨true, false, true, true⟩ => keepThree st t.left t.bottom .dr .ul
  | ⟨true, true, false, false⟩ => if t.top then some st else none
  | ⟨true, true, false, true⟩ => keepThree st t.top t.right .dr .ul
  | ⟨true, true, true, false⟩ => keepThree st t.left t.top .ur .dl
  | ⟨true, true, true, true⟩ =>
      match t.top, t.right, t.bottom, t.left with
      | false, true, true, true => some ((st.drop .ul).drop .ur)
      | true, false, true, true => some ((st.drop .dr).drop .ur)
      | true, true, false, true => some ((st.drop .dl).drop .dr)
      | true, true, true, false => some ((st.drop .ul).drop .dl)
      | false, false, true, true => some (st.drop .ur)
      | true, false, false, true => some (st.drop .dr)
      | true, true, false, false => some (st.drop .dl)
      | false, true, true, false => some (st.drop .ul)
      | false, false, false, true => some ((st.drop .ur).drop .dr)
      | true, false, false, false => some ((st.drop .dl).drop .dr)
      | false, true, false, false => some ((st.drop .dl).drop .ul)
      | false, false, true, false => some ((st.drop .ul).drop .ur)
      | _, _, _, _ => some st
  | _ => some st

/-- **The `switch` is the table**, read with the tests of the corners. -/
theorem checkCorners_eq (c : Corners) (st : Found4) : checkCorners c st = keep c.tests st := by
  obtain ⟨ul, ur, dl, dr⟩ := st
  cases ul <;> cases ur <;> cases dl <;> cases dr <;> rfl

/-- **The table reads the tests between corners that are found**, and no others. -/
theorem keep_congr {t t' : Tests} {st : Found4}
    (h : ∀ a b, a ≠ b → st.has a = true → st.has b = true → t.accepts a b = t'.accepts a b) :
    keep t st = keep t' st := by
  have htop := h .ul .ur (by decide)
  have hright := h .ur .dr (by decide)
  have hbottom := h .dl .dr (by decide)
  have hleft := h .ul .dl (by decide)
  have hslash := h .ur .dl (by decide)
  have hbackslash := h .ul .dr (by decide)
  simp only [Found4.has, Tests.accepts] at htop hright hbottom hleft hslash hbackslash
  obtain ⟨ul, ur, dl, dr⟩ := st
  cases ul <;> cases ur <;> cases dl <;> cases dr <;> simp_all [keep]

/-- **The corners kept are found.** -/
theorem has_of_keep {t : Tests} {st k : Found4} (h : k ∈ keep t st) {a : Place}
    (ha : k.has a = true) : st.has a = true := by
  have htable : ∀ top right bottom left slash backslash ul ur dl dr : Bool,
      ∀ k ∈ keep ⟨top, right, bottom, left, slash, backslash⟩ ⟨ul, ur, dl, dr⟩, ∀ a,
        k.has a = true → Found4.has ⟨ul, ur, dl, dr⟩ a = true := by decide +kernel
  exact htable _ _ _ _ _ _ _ _ _ _ k h a ha

/-- **What the corners kept are kept for**: two of them are as far apart as in a picture, and with
three or four corners found each one kept is at the end of such a side. -/
def Tests.Supports (t : Tests) (st k : Found4) : Prop :=
  (∃ a b, a ≠ b ∧ k.has a = true ∧ k.has b = true ∧ t.accepts a b = true) ∧
    (3 ≤ st.count → ∀ a, k.has a = true →
      ∃ b, k.has b = true ∧ a.beside b = true ∧ t.accepts a b = true)

instance (t : Tests) (st k : Found4) : Decidable (t.Supports st k) :=
  inferInstanceAs (Decidable (_ ∧ _))

/-- All four corners are found, and no side is that of a picture. -/
def Tests.Unsupported (t : Tests) (st : Found4) : Prop :=
  (∀ a, st.has a = true) ∧ ∀ a b, a.beside b = true → t.accepts a b = false

instance (t : Tests) (st : Found4) : Decidable (t.Unsupported st) :=
  inferInstanceAs (Decidable (_ ∧ _))

/-- **The table keeps supported corners**, but for its last line. -/
theorem keep_supports {t : Tests} {st k : Found4} (h : 2 ≤ st.count) (hnot : ¬ t.Unsupported st)
    (hk : k ∈ keep t st) : t.Supports st k := by
  have htable : ∀ top right bottom left slash backslash ul ur dl dr : Bool,
      2 ≤ Found4.count ⟨ul, ur, dl, dr⟩ →
      ¬ Tests.Unsupported ⟨top, right, bottom, left, slash, backslash⟩ ⟨ul, ur, dl, dr⟩ →
      ∀ k ∈ keep ⟨top, right, bottom, left, slash, backslash⟩ ⟨ul, ur, dl, dr⟩,
        Tests.Supports ⟨top, right, bottom, left, slash, backslash⟩ ⟨ul, ur, dl, dr⟩ k := by
    decide +kernel
  exact htable _ _ _ _ _ _ _ _ _ _ h hnot k hk

/-- **The last line** keeps all four corners, whose sides are none. -/
theorem keep_of_unsupported {t : Tests} {st : Found4} (h : t.Unsupported st) :
    keep t st = some st := by
  have htable : ∀ top right bottom left slash backslash ul ur dl dr : Bool,
      Tests.Unsupported ⟨top, right, bottom, left, slash, backslash⟩ ⟨ul, ur, dl, dr⟩ →
      keep ⟨top, right, bottom, left, slash, backslash⟩ ⟨ul, ur, dl, dr⟩ =
        some ⟨ul, ur, dl, dr⟩ := by
    decide +kernel
  exact htable _ _ _ _ _ _ _ _ _ _ h

/-! ## The formulas -/

/-- The direction of a corner from the centre. -/
def Place.direction : Place → Pixel
  | .ul => (-1, 1)
  | .ur => (1, 1)
  | .dl => (-1, -1)
  | .dr => (1, -1)

/-- **The two corners the centre is computed from**: opposite ones if there are any. -/
def Found4.ends : Found4 → Place × Place
  | ⟨true, _, _, true⟩ => (.ul, .dr)
  | ⟨_, true, true, _⟩ => (.ur, .dl)
  | ⟨true, true, false, false⟩ => (.ul, .ur)
  | ⟨true, false, true, false⟩ => (.ul, .dl)
  | ⟨false, false, true, true⟩ => (.dl, .dr)
  | ⟨false, true, false, true⟩ => (.ur, .dr)
  | ⟨true, false, false, false⟩ => (.ul, .ul)
  | ⟨false, true, false, false⟩ => (.ur, .ur)
  | ⟨false, false, true, false⟩ => (.dl, .dl)
  | _ => (.dr, .dr)

theorem Found4.has_ends {k : Found4} (h : ∃ a, k.has a = true) :
    k.has k.ends.1 = true ∧ k.has k.ends.2 = true := by
  obtain ⟨a, ha⟩ := h
  obtain ⟨ul, ur, dl, dr⟩ := k
  cases a <;> cases ul <;> cases ur <;> cases dl <;> cases dr <;> simp_all [has, ends]

theorem middle_self (p : Pixel) : middle p p = p := by
  unfold middle
  rw [← mul_two, ← mul_two, Int.mul_tdiv_cancel _ two_ne_zero, Int.mul_tdiv_cancel _ two_ne_zero]

theorem middle_comm (p q : Pixel) : middle p q = middle q p := by
  unfold middle
  rw [add_comm p.1, add_comm p.2]

/-- **The formula for one to three corners**: the mean of two corners, and from there half a side of
30 along each axis that the two do not span. -/
theorem centerOf_eq (c : Corners) {k : Found4} (hsome : ∃ a, k.has a = true)
    (hfew : ¬ ∀ a, k.has a = true) : centerOf c k = some
      ((middle (c.at k.ends.1) (c.at k.ends.2)).1 -
          15 * (k.ends.1.direction.1 + k.ends.2.direction.1),
        (middle (c.at k.ends.1) (c.at k.ends.2)).2 -
          15 * (k.ends.1.direction.2 + k.ends.2.direction.2)) := by
  obtain ⟨a, ha⟩ := hsome
  obtain ⟨ul, ur, dl, dr⟩ := k
  cases ul <;> cases ur <;> cases dl <;> cases dr
  case false.false.false.false => cases a <;> cases ha
  case true.true.true.true => exact absurd (by intro a; cases a <;> rfl) hfew
  all_goals
    simp [centerOf, Found4.ends, Place.direction, Corners.at, middle_self, middle_comm c.lx]

/-- The formula for four corners: the mean of all. -/
theorem centerOf_four (c : Corners) {k : Found4} (h : ∀ a, k.has a = true) : centerOf c k = some
    ((c.rs.1 + c.lx.1 + c.rx.1 + c.ls.1).tdiv 4, (c.ls.2 + c.rs.2 + c.lx.2 + c.rx.2).tdiv 4) := by
  have hul := h .ul
  have hur := h .ur
  have hdl := h .dl
  have hdr := h .dr
  obtain ⟨ul, ur, dl, dr⟩ := k
  simp only [Found4.has] at hul hur hdl hdr
  rw [hul, hur, hdl, hdr]
  rfl

/-- Without a corner there is no centre. -/
theorem centerOf_none (c : Corners) {k : Found4} (h : ¬ ∃ a, k.has a = true) :
    centerOf c k = none := by
  have hnot : ∀ a, k.has a = false := fun a => by
    by_contra ha
    exact h ⟨a, Bool.not_eq_false _ ▸ ha⟩
  have hul := hnot .ul
  have hur := hnot .ur
  have hdl := hnot .dl
  have hdr := hnot .dr
  obtain ⟨ul, ur, dl, dr⟩ := k
  simp only [Found4.has] at hul hur hdl hdr
  rw [hul, hur, hdl, hdr]
  rfl

/-! ## Moving the corners -/

/-- The corners found, all moved by `d`. -/
def Corners.shift (d : Pixel) (coor : Corners) : Corners :=
  let move := fun (p : Pixel) => if p = (0, 0) then p else p + d
  ⟨move coor.ls, move coor.rs, move coor.lx, move coor.rx⟩

/-- The corners that `st` tells of are moved by `d`, and none of their coordinates is negative. -/
structure Corners.Moved (d : Pixel) (st : Found4) (c c' : Corners) : Prop where
  at_eq : ∀ a, st.has a = true → c'.at a = c.at a + d
  nonneg : ∀ a, st.has a = true → 0 ≤ c.at a
  nonneg' : ∀ a, st.has a = true → 0 ≤ c.at a + d

theorem calcDis_add (p q d : Pixel) :
    calcDis (p + d).1 (p + d).2 (q + d).1 (q + d).2 = calcDis p.1 p.2 q.1 q.2 := by
  unfold calcDis
  simp only [Prod.fst_add, Prod.snd_add, add_sub_add_right_eq_sub]

/-- The tests between moved corners are the same. -/
theorem Corners.Moved.keep_eq {d : Pixel} {st : Found4} {c c' : Corners} (h : c.Moved d st c') :
    keep c'.tests st = keep c.tests st := by
  refine keep_congr fun a b hab ha hb => ?_
  rw [c'.accepts_tests hab, c.accepts_tests hab]
  unfold fits dis
  rw [h.at_eq a ha, h.at_eq b hb, calcDis_add]

/-- One coordinate of the mean of two moved points. -/
theorem mean_add {x y d : ℤ} (hx : 0 ≤ x) (hy : 0 ≤ y) (hx' : 0 ≤ x + d) (hy' : 0 ≤ y + d) :
    (x + d + (y + d)).tdiv 2 = (x + y).tdiv 2 + d := by
  rw [show x + d + (y + d) = x + y + d * 2 by ring]
  exact tdiv_add_mul two_pos (by omega) (by omega)

@[inherit_doc mean_add]
theorem mean_add_four {x y z w d : ℤ} (hsum : 0 ≤ x + y + z + w)
    (hsum' : 0 ≤ (x + d) + (y + d) + (z + d) + (w + d)) :
    ((x + d) + (y + d) + (z + d) + (w + d)).tdiv 4 = (x + y + z + w).tdiv 4 + d := by
  have hring : (x + d) + (y + d) + (z + d) + (w + d) = x + y + z + w + d * 4 := by ring
  rw [hring] at hsum' ⊢
  exact tdiv_add_mul four_pos hsum hsum'

/-- **The centre moves with the corners** it is computed from. -/
theorem Corners.Moved.centerOf {d : Pixel} {k : Found4} {c c' : Corners} (h : c.Moved d k c') :
    centerOf c' k = (centerOf c k).map (· + d) := by
  by_cases hall : ∀ a, k.has a = true
  · -- all four corners have moved
    have hls : c'.ls = c.ls + d := h.at_eq .ul (hall _)
    have hrs : c'.rs = c.rs + d := h.at_eq .ur (hall _)
    have hlx : c'.lx = c.lx + d := h.at_eq .dl (hall _)
    have hrx : c'.rx = c.rx + d := h.at_eq .dr (hall _)
    have hnn : ∀ a, 0 ≤ c.at a := fun a => h.nonneg a (hall a)
    have hnn' : ∀ a, 0 ≤ c.at a + d := fun a => h.nonneg' a (hall a)
    rw [centerOf_four c' hall, centerOf_four c hall, hls, hrs, hlx, hrx, Option.map_some,
      Option.some.injEq]
    refine Prod.ext (mean_add_four ?_ ?_) (mean_add_four ?_ ?_)
    · exact add_nonneg (add_nonneg (add_nonneg (hnn .ur).1 (hnn .dl).1) (hnn .dr).1) (hnn .ul).1
    · exact add_nonneg (add_nonneg (add_nonneg (hnn' .ur).1 (hnn' .dl).1) (hnn' .dr).1) (hnn' .ul).1
    · exact add_nonneg (add_nonneg (add_nonneg (hnn .ul).2 (hnn .ur).2) (hnn .dl).2) (hnn .dr).2
    · exact add_nonneg (add_nonneg (add_nonneg (hnn' .ul).2 (hnn' .ur).2) (hnn' .dl).2) (hnn' .dr).2
  · by_cases hsome : ∃ a, k.has a = true
    · obtain ⟨ha, hb⟩ := Found4.has_ends hsome
      rw [centerOf_eq c' hsome hall, centerOf_eq c hsome hall, h.at_eq _ ha, h.at_eq _ hb,
        Option.map_some, Option.some.injEq]
      have hx := mean_add (h.nonneg _ ha).1 (h.nonneg _ hb).1 (h.nonneg' _ ha).1 (h.nonneg' _ hb).1
      have hy := mean_add (h.nonneg _ ha).2 (h.nonneg _ hb).2 (h.nonneg' _ ha).2 (h.nonneg' _ hb).2
      refine Prod.ext ?_ ?_
      · exact (congrArg (· - 15 * _) hx).trans (add_sub_right_comm _ _ _)
      · exact (congrArg (· - 15 * _) hy).trans (add_sub_right_comm _ _ _)
    · rw [centerOf_none c' hsome, centerOf_none c hsome]
      rfl

/-- The way from the corner of a window to the corner of the picture. -/
def Place.inset : Place → Pixel
  | .ul | .dl => (5, 5)
  | .ur | .dr => (9, 5)

theorem moveCorners_at (coor : Corners) (a : Place) :
    (moveCorners coor).at a = coor.at a + a.inset := by
  cases a
  case ul | dl => rfl
  case ur | dr => exact Prod.ext (add_assoc _ _ _) rfl

theorem shift_at (d : Pixel) (coor : Corners) (a : Place) :
    (coor.shift d).at a = if coor.at a = (0, 0) then coor.at a else coor.at a + d := by
  cases a <;> rfl

/-- A corner is found when it is not the pixel `(0, 0)`. -/
theorem has_foundCorners (coor : Corners) (a : Place) :
    (foundCorners coor).has a = true ↔ coor.at a ≠ (0, 0) := by
  have hpixel : ∀ p : Pixel, (p.1 != 0 || p.2 != 0) = true ↔ p ≠ (0, 0) := by
    intro p
    rw [Bool.or_eq_true, bne_iff_ne, bne_iff_ne, ← not_and_or]
    exact not_congr ⟨fun h => Prod.ext h.1 h.2, fun h => Prod.ext_iff.mp h⟩
  cases a <;> exact hpixel _

theorem Found4.ext_has {k l : Found4} (h : ∀ a, k.has a = l.has a) : k = l := by
  have hul := h .ul
  have hur := h .ur
  have hdl := h .dl
  have hdr := h .dr
  cases k
  cases l
  simp only [has] at hul hur hdl hdr
  rw [hul, hur, hdl, hdr]

/-- **`get_center` is equivariant**: when the corners found are moved by `d`, with no coordinate
negative and no corner lost, the flag is the same and the centre is moved by `d`. -/
theorem getCenter_shift (coor : Corners) (d : Pixel)
    (h : ∀ a, coor.at a ≠ (0, 0) → 0 ≤ coor.at a ∧ 0 ≤ coor.at a + d ∧ coor.at a + d ≠ (0, 0)) :
    getCenter (coor.shift d) = (getCenter coor).map (· + d) := by
  have hfound : foundCorners (coor.shift d) = foundCorners coor := by
    refine Found4.ext_has fun a => ?_
    rw [Bool.eq_iff_iff, has_foundCorners, has_foundCorners, shift_at]
    split_ifs with hzero
    · rfl
    · exact iff_of_true (h a hzero).2.2 hzero
  have hmoved : (moveCorners coor).Moved d (foundCorners coor) (moveCorners (coor.shift d)) := by
    have hinset : ∀ a : Place, 0 ≤ a.inset := by
      intro a
      cases a <;> decide
    refine ⟨fun a ha => ?_, fun a ha => ?_, fun a ha => ?_⟩
    all_goals rw [has_foundCorners] at ha
    · rw [moveCorners_at, moveCorners_at, shift_at, if_neg ha, add_right_comm]
    · rw [moveCorners_at]
      exact ⟨add_nonneg (h a ha).1.1 (hinset a).1, add_nonneg (h a ha).1.2 (hinset a).2⟩
    · rw [moveCorners_at, add_right_comm]
      exact ⟨add_nonneg (h a ha).2.1.1 (hinset a).1, add_nonneg (h a ha).2.1.2 (hinset a).2⟩
  unfold getCenter
  dsimp only
  rw [hfound, checkCorners_eq, checkCorners_eq, hmoved.keep_eq]
  cases hkeep : keep (moveCorners coor).tests (foundCorners coor) with
  | none => rfl
  | some k =>
      -- the corners kept are among those found
      have hkept : (moveCorners coor).Moved d k (moveCorners (coor.shift d)) :=
        ⟨fun a ha => hmoved.at_eq a (has_of_keep hkeep ha),
          fun a ha => hmoved.nonneg a (has_of_keep hkeep ha),
          fun a ha => hmoved.nonneg' a (has_of_keep hkeep ha)⟩
      exact hkept.centerOf

/-- The corners of a picture near the lower left of the frame, one of them not found. -/
def threeCorners : Corners := ⟨(10, 60), (54, 60), (10, 12), (0, 0)⟩

/-- They are moved by 3 to the right and by 2 downwards. -/
theorem getCenter_shift_threeCorners :
    getCenter (threeCorners.shift (3, -2)) = (getCenter threeCorners).map (· + (3, -2)) :=
  getCenter_shift threeCorners (3, -2) (by decide)

/-! ## The corners kept -/

theorem getCenter_eq (coor : Corners) : getCenter coor =
    (keep (moveCorners coor).tests (foundCorners coor)).bind (centerOf (moveCorners coor)) := by
  rw [← checkCorners_eq]
  rfl

theorem Place.ne_of_beside {a b : Place} (h : a.beside b = true) : a ≠ b := by
  rintro rfl
  cases a <;> cases h

/-- All four corners are found, and the four sides are none of a picture. -/
def Corners.NoSide (coor : Corners) : Prop :=
  (∀ a, (foundCorners coor).has a = true) ∧
    ∀ a b, a.beside b = true → (moveCorners coor).fits a b = false

theorem Corners.noSide_iff (coor : Corners) :
    coor.NoSide ↔ (moveCorners coor).tests.Unsupported (foundCorners coor) := by
  refine and_congr_right fun _ => forall_congr' fun a => forall_congr' fun b => ?_
  refine forall_congr' fun hab => ?_
  rw [accepts_tests _ (Place.ne_of_beside hab)]

/-- **When the flag is backed by a side**, for all tables with two corners found at least: two of
the corners kept are as far apart as in a picture, and with three or four corners found each one
kept is at the end of such a side. That is so unless all four corners are found and none of the four
sides is that of a picture. -/
theorem getCenter_sound_iff (coor : Corners) (h : 2 ≤ (foundCorners coor).count) :
    (∀ p, getCenter coor = some p →
      ∃ k, checkCorners (moveCorners coor) (foundCorners coor) = some k ∧
        (∃ a b, a ≠ b ∧ k.has a = true ∧ k.has b = true ∧ (moveCorners coor).fits a b = true) ∧
        (3 ≤ (foundCorners coor).count → ∀ a, k.has a = true →
          ∃ b, k.has b = true ∧ a.beside b = true ∧ (moveCorners coor).fits a b = true)) ↔
      ¬ ((∀ a, (foundCorners coor).has a = true) ∧
        ∀ a b, a.beside b = true → (moveCorners coor).fits a b = false) := by
  constructor
  · rintro hsound hno
    have hkeep := keep_of_unsupported (coor.noSide_iff.mp hno)
    have hcenter := getCenter_eq coor
    rw [hkeep, Option.bind_some, centerOf_four _ hno.1] at hcenter
    obtain ⟨k, hk, -, heach⟩ := hsound _ hcenter
    rw [checkCorners_eq, hkeep, Option.some.injEq] at hk
    subst hk
    -- the upper left corner would be at the end of a side
    have hcount : 3 ≤ (foundCorners coor).count := by
      have hall : foundCorners coor = ⟨true, true, true, true⟩ :=
        Found4.ext_has fun a => (hno.1 a).trans (by cases a <;> rfl)
      rw [hall]
      decide
    obtain ⟨b, -, hbeside, hfits⟩ := heach hcount .ul (hno.1 .ul)
    rw [hno.2 _ _ hbeside] at hfits
    exact absurd hfits (by decide)
  · intro hno p hp
    rw [getCenter_eq, Option.bind_eq_some_iff] at hp
    obtain ⟨k, hk, -⟩ := hp
    obtain ⟨⟨a, b, hab, ha, hb, hfits⟩, heach⟩ :=
      keep_supports h (fun hun => hno (coor.noSide_iff.mpr hun)) hk
    refine ⟨k, checkCorners_eq _ _ ▸ hk, ⟨a, b, hab, ha, hb, ?_⟩, fun hcount a ha => ?_⟩
    · rwa [Corners.accepts_tests _ hab] at hfits
    · obtain ⟨b, hb, hbeside, hfits⟩ := heach hcount a ha
      rw [Corners.accepts_tests _ (Place.ne_of_beside hbeside)] at hfits
      exact ⟨b, hb, hbeside, hfits⟩

/-- With three of the corners of a picture. -/
theorem getCenter_sound_threeCorners :
    ∃ k, checkCorners (moveCorners threeCorners) (foundCorners threeCorners) = some k ∧
      (∃ a b, a ≠ b ∧ k.has a = true ∧ k.has b = true ∧
        (moveCorners threeCorners).fits a b = true) ∧
      (3 ≤ (foundCorners threeCorners).count → ∀ a, k.has a = true →
        ∃ b, k.has b = true ∧ a.beside b = true ∧ (moveCorners threeCorners).fits a b = true) :=
  (getCenter_sound_iff threeCorners (by decide)).mpr (fun h => absurd (h.1 .dr) (by decide))
    (39, 41) (by decide +kernel)

/-- Four corners that are not those of a picture: the sides are 94 and 80 long. -/
def scatteredCorners : Corners := ⟨(10, 90), (100, 90), (10, 10), (100, 10)⟩

/-- The flag is 1 for the scattered corners, and none of their sides is that of a picture. -/
theorem getCenter_scattered :
    ¬ ∀ coor : Corners, 2 ≤ (foundCorners coor).count → ∀ p, getCenter coor = some p →
      ∃ k, checkCorners (moveCorners coor) (foundCorners coor) = some k ∧
        (∃ a b, a ≠ b ∧ k.has a = true ∧ k.has b = true ∧ (moveCorners coor).fits a b = true) ∧
        (3 ≤ (foundCorners coor).count → ∀ a, k.has a = true →
          ∃ b, k.has b = true ∧ a.beside b = true ∧ (moveCorners coor).fits a b = true) := by
  intro h
  obtain ⟨k, hk, ⟨a, b, hab, -, -, hfits⟩, -⟩ := h scatteredCorners (by decide) (62, 55)
    (by decide +kernel)
  revert a b
  decide +kernel

/-! ## The corners of a square -/

/-- The corners of the square with the lower left corner `(x, y)` and the side `s`. -/
def squareAt (x y s : ℤ) : Place → Pixel
  | .ul => (x, y + s)
  | .ur => (x + s, y + s)
  | .dl => (x, y)
  | .dr => (x + s, y)

/-- A corner lies half a side from the centre, along both axes. -/
theorem two_mul_squareAt (x y s : ℤ) (a : Place) :
    2 * (squareAt x y s a).1 = 2 * x + s + s * a.direction.1 ∧
      2 * (squareAt x y s a).2 = 2 * y + s + s * a.direction.2 := by
  cases a
  all_goals
    simp only [squareAt, Place.direction]
    constructor <;> ring

/-- The distance of two points on a line along an axis. -/
theorem calcDis_of_sq {x1 y1 x2 y2 s : ℤ} (hs : 0 ≤ s)
    (h : (x1 - x2) * (x1 - x2) + (y1 - y2) * (y1 - y2) = s * s) : calcDis x1 y1 x2 y2 = s := by
  unfold calcDis
  dsimp only
  rw [h, Int.sqrt_eq, Int.natAbs_of_nonneg hs]

/-- The sides of a square of the accepted size are accepted. -/
theorem isSide_squareAt {x y s : ℤ} (hs : 44 ≤ s ∧ s ≤ 53) {a b : Place} (h : a.beside b = true) :
    isSide (calcDis (squareAt x y s a).1 (squareAt x y s a).2 (squareAt x y s b).1
      (squareAt x y s b).2) = true := by
  have hdis : calcDis (squareAt x y s a).1 (squareAt x y s a).2 (squareAt x y s b).1
      (squareAt x y s b).2 = s := by
    refine calcDis_of_sq (by omega) ?_
    cases a <;> cases b <;> first | exact absurd h (by decide) | (simp only [squareAt]; ring)
  rw [hdis, isSide, Bool.and_eq_true, decide_eq_true_eq, decide_eq_true_eq]
  exact hs.symm

/-- **The corners found are those of a square.** -/
def Corners.OfSquare (x y s : ℤ) (coor : Corners) : Prop :=
  ∀ a, (foundCorners coor).has a = true → (moveCorners coor).at a = squareAt x y s a

/-- Two opposite corners are among some. -/
def Found4.Opposite (k : Found4) : Prop :=
  (k.has .ul = true ∧ k.has .dr = true) ∨ (k.has .ur = true ∧ k.has .dl = true)

instance (k : Found4) : Decidable k.Opposite := inferInstanceAs (Decidable (_ ∨ _))

/-- The tests of the sides of a square succeed. -/
theorem Corners.OfSquare.keep_eq {x y s : ℤ} {coor : Corners} (h : coor.OfSquare x y s)
    (hs : 44 ≤ s ∧ s ≤ 53) : keep (moveCorners coor).tests (foundCorners coor) =
      keep ⟨true, true, true, true, (moveCorners coor).fits .ur .dl,
        (moveCorners coor).fits .ul .dr⟩ (foundCorners coor) := by
  refine keep_congr fun a b hab ha hb => ?_
  have hfits : a.beside b = true → (moveCorners coor).tests.accepts a b = true := by
    intro hbeside
    rw [accepts_tests _ hab, fits, if_pos hbeside, dis, h a ha, h b hb]
    exact isSide_squareAt hs hbeside
  -- the diagonals keep their tests
  cases a <;> cases b <;> first | exact hfits rfl | rfl

/-- **No corner of a square is dropped**; only two opposite ones can be rejected. -/
theorem keep_of_sides (slash backslash : Bool) (st : Found4) :
    (∀ k ∈ keep ⟨true, true, true, true, slash, backslash⟩ st, k = st) ∧
      (¬ st.Opposite → keep ⟨true, true, true, true, slash, backslash⟩ st = some st) := by
  have htable : ∀ slash backslash ul ur dl dr : Bool,
      (∀ k ∈ keep ⟨true, true, true, true, slash, backslash⟩ ⟨ul, ur, dl, dr⟩,
        k = ⟨ul, ur, dl, dr⟩) ∧
      (¬ Found4.Opposite ⟨ul, ur, dl, dr⟩ →
        keep ⟨true, true, true, true, slash, backslash⟩ ⟨ul, ur, dl, dr⟩ =
          some ⟨ul, ur, dl, dr⟩) := by decide +kernel
  exact htable _ _ _ _ _ _

/-- The directions of the two corners cancel out when they are opposite. -/
theorem Found4.ends_opposite_iff {k : Found4} (hsome : ∃ a, k.has a = true) :
    (k.ends.1.direction.1 + k.ends.2.direction.1 = 0 ∧
      k.ends.1.direction.2 + k.ends.2.direction.2 = 0) ↔ k.Opposite := by
  obtain ⟨a, ha⟩ := hsome
  obtain ⟨ul, ur, dl, dr⟩ := k
  cases ul <;> cases ur <;> cases dl <;> cases dr
  case false.false.false.false => cases a <;> cases ha
  all_goals simp [ends, Place.direction, Opposite, has]

/-- At most one pixel from the centre, in whole numbers. -/
theorem abs_sub_center_iff (p x s : ℤ) :
    |(p : ℚ) - (x + s / 2)| ≤ 1 ↔ |2 * p - (2 * x + s)| ≤ 2 := by
  have htwice : ((2 * p - (2 * x + s) : ℤ) : ℚ) = 2 * (p - (x + s / 2)) := by
    push_cast
    ring
  have hcast : ((|2 * p - (2 * x + s)| : ℤ) : ℚ) = 2 * |(p : ℚ) - (x + s / 2)| := by
    rw [Int.cast_abs, htwice, abs_mul, abs_two]
  constructor
  · intro h
    have hle : ((|2 * p - (2 * x + s)| : ℤ) : ℚ) ≤ (2 : ℤ) := by
      rw [hcast]
      push_cast
      linarith
    exact Int.cast_le.mp hle
  · intro h
    have hle : ((|2 * p - (2 * x + s)| : ℤ) : ℚ) ≤ (2 : ℤ) := Int.cast_le.mpr h
    rw [hcast] at hle
    push_cast at hle
    linarith

/-- One coordinate of the centre that is computed from two corners: half a side of 30 is added for a
direction in which they agree. -/
theorem near_center_iff {x s u v d e : ℤ} (hs : 44 ≤ s ∧ s ≤ 53) (hd : d = 1 ∨ d = -1)
    (he : e = 1 ∨ e = -1) (hu : 2 * u = 2 * x + s + s * d) (hv : 2 * v = 2 * x + s + s * e) :
    |2 * ((u + v).tdiv 2 - 15 * (d + e)) - (2 * x + s)| ≤ 2 ↔ d + e = 0 := by
  have hcut := abs_mul_tdiv_sub_lt (u + v) two_pos
  rw [abs_lt] at hcut
  rw [abs_le]
  rcases hd with rfl | rfl <;> rcases he with rfl | rfl <;> omega

theorem Place.direction_eq (a : Place) :
    (a.direction.1 = 1 ∨ a.direction.1 = -1) ∧ (a.direction.2 = 1 ∨ a.direction.2 = -1) := by
  cases a <;> decide

/-- The centre that is computed from one to three corners of a square. -/
theorem near_square_iff {c : Corners} {x y s : ℤ} (hs : 44 ≤ s ∧ s ≤ 53) {k : Found4} {p : Pixel}
    (hsquare : ∀ a, k.has a = true → c.at a = squareAt x y s a) (hsome : ∃ a, k.has a = true)
    (hfew : ¬ ∀ a, k.has a = true) (hp : centerOf c k = some p) :
    (|(p.1 : ℚ) - (x + s / 2)| ≤ 1 ∧ |(p.2 : ℚ) - (y + s / 2)| ≤ 1) ↔ k.Opposite := by
  obtain ⟨ha, hb⟩ := Found4.has_ends hsome
  obtain ⟨hax, hay⟩ := two_mul_squareAt x y s k.ends.1
  obtain ⟨hbx, hby⟩ := two_mul_squareAt x y s k.ends.2
  have hda := Place.direction_eq k.ends.1
  have hdb := Place.direction_eq k.ends.2
  rw [centerOf_eq c hsome hfew, Option.some.injEq] at hp
  subst hp
  rw [abs_sub_center_iff, abs_sub_center_iff, ← Found4.ends_opposite_iff hsome, hsquare _ ha,
    hsquare _ hb]
  exact and_congr (near_center_iff hs hda.1 hdb.1 hax hbx) (near_center_iff hs hda.2 hdb.2 hay hby)

/-- The centre that is computed from all four corners of a square. -/
theorem near_square_four {c : Corners} {x y s : ℤ} {k : Found4} {p : Pixel}
    (hsquare : ∀ a, k.has a = true → c.at a = squareAt x y s a) (hall : ∀ a, k.has a = true)
    (hp : centerOf c k = some p) :
    |(p.1 : ℚ) - (x + s / 2)| ≤ 1 ∧ |(p.2 : ℚ) - (y + s / 2)| ≤ 1 := by
  have hls : c.ls = (x, y + s) := hsquare .ul (hall _)
  have hrs : c.rs = (x + s, y + s) := hsquare .ur (hall _)
  have hlx : c.lx = (x, y) := hsquare .dl (hall _)
  have hrx : c.rx = (x + s, y) := hsquare .dr (hall _)
  rw [centerOf_four c hall, Option.some.injEq, hls, hrs, hlx, hrx] at hp
  subst hp
  have hx := abs_mul_tdiv_sub_lt (x + s + x + (x + s) + x) four_pos
  have hy := abs_mul_tdiv_sub_lt (y + s + (y + s) + y + y) four_pos
  rw [abs_lt] at hx hy
  rw [abs_sub_center_iff, abs_sub_center_iff, abs_le, abs_le]
  dsimp only
  omega

/-- **When the centre is that of the square**, for every square whose side is accepted and every
table with some of its corners: when two opposite corners are found. -/
theorem getCenter_square_iff (coor : Corners) (x y s : ℤ) (hs : 44 ≤ s ∧ s ≤ 53)
    (hsquare : ∀ a, (foundCorners coor).has a = true → (moveCorners coor).at a = squareAt x y s a)
    (hsome : ∃ a, (foundCorners coor).has a = true) :
    (∀ p, getCenter coor = some p →
      |(p.1 : ℚ) - (x + s / 2)| ≤ 1 ∧ |(p.2 : ℚ) - (y + s / 2)| ≤ 1) ↔
      ((foundCorners coor).has .ul = true ∧ (foundCorners coor).has .dr = true) ∨
        ((foundCorners coor).has .ur = true ∧ (foundCorners coor).has .dl = true) := by
  have hof : coor.OfSquare x y s := hsquare
  obtain ⟨hkept, hnone⟩ := keep_of_sides ((moveCorners coor).fits .ur .dl)
    ((moveCorners coor).fits .ul .dr) (foundCorners coor)
  rw [← hof.keep_eq hs] at hkept hnone
  constructor
  · intro hnear
    by_contra hopposite
    have hfew : ¬ ∀ a, (foundCorners coor).has a = true := fun hall =>
      hopposite (Or.inl ⟨hall _, hall _⟩)
    -- a corner, or two at the ends of a side
    have hcenter := centerOf_eq (moveCorners coor) hsome hfew
    have hget := getCenter_eq coor
    rw [hnone hopposite, Option.bind_some, hcenter] at hget
    exact hopposite ((near_square_iff hs hsquare hsome hfew hcenter).mp (hnear _ hget))
  · intro hopposite p hp
    rw [getCenter_eq, Option.bind_eq_some_iff] at hp
    obtain ⟨k, hk, hp⟩ := hp
    obtain rfl := hkept k hk
    by_cases hall : ∀ a, (foundCorners coor).has a = true
    · exact near_square_four hsquare hall hp
    · exact (near_square_iff hs hsquare hsome hall hp).mpr hopposite

/-- Two opposite corners of the square with the lower left corner `(15, 17)` and the side 48. -/
def oppositeCorners : Corners := ⟨(10, 60), (0, 0), (0, 0), (54, 12)⟩

/-- Their mean is the centre. -/
theorem getCenter_square_opposite :
    ∃ p, getCenter oppositeCorners = some p ∧
      |(p.1 : ℚ) - ((15 : ℤ) + (48 : ℤ) / 2)| ≤ 1 ∧
      |(p.2 : ℚ) - ((17 : ℤ) + (48 : ℤ) / 2)| ≤ 1 := by
  have hget : getCenter oppositeCorners = some (39, 41) := by decide +kernel
  exact ⟨(39, 41), hget,
    (getCenter_square_iff oppositeCorners 15 17 48 (by decide) (by decide) ⟨.ul, rfl⟩).mpr
      (Or.inl ⟨rfl, rfl⟩) (39, 41) hget⟩

/-- The upper left corner of that square. -/
def oneCorner : Corners := ⟨(10, 60), (0, 0), (0, 0), (0, 0)⟩

/-- From the upper left corner alone the centre is found 6 pixels too far to the right. -/
theorem getCenter_oneCorner :
    ¬ ∀ (coor : Corners) (x y s : ℤ), 44 ≤ s ∧ s ≤ 53 →
      (∀ a, (foundCorners coor).has a = true →
        (moveCorners coor).at a = squareAt x y s a) →
      (∃ a, (foundCorners coor).has a = true) →
      ∀ p, getCenter coor = some p →
        |(p.1 : ℚ) - (x + s / 2)| ≤ 1 ∧ |(p.2 : ℚ) - (y + s / 2)| ≤ 1 := by
  intro h
  have hnear := (h oneCorner 15 17 48 (by decide) (by decide) ⟨.ul, rfl⟩ (45, 35)
    (by decide +kernel)).1
  norm_num at hnear

end HandlingRobot
