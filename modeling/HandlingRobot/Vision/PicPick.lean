import HandlingRobot.Tour.Geometry
import HandlingRobot.Vision.FindPic
import HandlingRobot.Vision.Similarity

/-! # Looking for one picture in front of the robot

`get_pic` turns the frame into its edges, looks for the corners of a picture among them, and works
out where the picture is from those it has found. The edges go into `img`, which `find_pic` uses for
its labels; `sobel` writes the inside of it only.

* **`sobel`** — the edges.
* **`getCenter`** — the picture, from the corners.
* **`getPic`** — the function, with what it leaves in `img`.
* **`Contents`** — what `img` can hold between calls.
* **`getPic_same`** — what `get_pic` returns depends on the frame, and on the border of `img`. -/

namespace HandlingRobot

/-! ## The edges -/

/-- The loop of `get_pic` that turns the frame into 0 and 255; `THRE` is 145. -/
def twoLevels (f : Frame) : Frame := fun i j =>
  if OnFrame (i, j) then (if f i j < 145 then 0 else 255) else f i j

/-- `temp1` and `temp2`. -/
def sobelX (f : Frame) (i j : ℤ) : ℤ :=
  (f (i + 1) (j - 1) + 2 * f (i + 1) j + f (i + 1) (j + 1)) -
    (f (i - 1) (j - 1) + 2 * f (i - 1) j + f (i - 1) (j + 1))
@[inherit_doc sobelX] def sobelY (f : Frame) (i j : ℤ) : ℤ :=
  (f (i - 1) (j - 1) + 2 * f i (j - 1) + f (i + 1) (j - 1)) -
    (f (i - 1) (j + 1) + 2 * f i (j + 1) + f (i + 1) (j + 1))

/-- **`sobel`**: the new contents of `img`. The outermost columns and rows stay as they are. -/
def sobel (f : Frame) (img : Pixel → ℤ) : Pixel → ℤ := fun q =>
  if 1 ≤ q.1 ∧ q.1 < imgWidth - 1 ∧ 1 ≤ q.2 ∧ q.2 < imgHeight - 1 then
    (if |sobelX f q.1 q.2| + |sobelY f q.1 q.2| > 89 then 1 else 0)
  else img q

/-! ## The centre -/

/-- `st_UL`, `st_UR`, `st_DL` and `st_DR`. -/
structure Found4 where
  ul : Bool
  ur : Bool
  dl : Bool
  dr : Bool
  deriving DecidableEq

/-- A corner counts as found when one of its coordinates is not 0. -/
def foundCorners (coor : Corners) : Found4 :=
  ⟨coor.ls.1 != 0 || coor.ls.2 != 0, coor.rs.1 != 0 || coor.rs.2 != 0,
    coor.lx.1 != 0 || coor.lx.2 != 0, coor.rx.1 != 0 || coor.rx.2 != 0⟩

/-- The corners of the windows, moved to the corners of the picture. -/
def moveCorners (coor : Corners) : Corners :=
  ⟨(coor.ls.1 + 5, coor.ls.2 + 5), (coor.rs.1 + 5 + 4, coor.rs.2 + 5),
    (coor.lx.1 + 5, coor.lx.2 + 5), (coor.rx.1 + 5 + 4, coor.rx.2 + 5)⟩

/-- The distance is that of a side of a picture, or of its diagonal: `minn` is 44 and `maxx` 53, and
the factor of the diagonal is 1.414. -/
def isSide (dis : ℤ) : Bool := dis ≤ 53 && dis ≥ 44
@[inherit_doc isSide] def isDiagonal (dis : ℤ) : Bool :=
  1000 * dis ≤ 53 * 1414 && 1000 * dis ≥ 44 * 1414

/-- The `switch` over the corners found: those that are kept, `none` where it returns 0. -/
def checkCorners (c : Corners) (st : Found4) : Option Found4 :=
  let dis := fun (p q : Pixel) => calcDis p.1 p.2 q.1 q.2
  match st with
  | ⟨false, false, true, true⟩ => if isSide (dis c.lx c.rx) then some st else none
  | ⟨false, true, false, true⟩ => if isSide (dis c.rs c.rx) then some st else none
  | ⟨false, true, true, false⟩ => if isDiagonal (dis c.rs c.lx) then some st else none
  | ⟨false, true, true, true⟩ =>
      let st2 := isSide (dis c.rs c.rx)
      let st3 := isSide (dis c.lx c.rx)
      if st2 && st3 then some st else if st2 then some { st with dl := false }
      else if st3 then some { st with ur := false } else none
  | ⟨true, false, false, true⟩ => if isDiagonal (dis c.ls c.rx) then some st else none
  | ⟨true, false, true, false⟩ => if isSide (dis c.ls c.lx) then some st else none
  | ⟨true, false, true, true⟩ =>
      let st4 := isSide (dis c.ls c.lx)
      let st3 := isSide (dis c.lx c.rx)
      if st4 && st3 then some st else if st4 then some { st with dr := false }
      else if st3 then some { st with ul := false } else none
  | ⟨true, true, false, false⟩ => if isSide (dis c.ls c.rs) then some st else none
  | ⟨true, true, false, true⟩ =>
      let st1 := isSide (dis c.ls c.rs)
      let st2 := isSide (dis c.rs c.rx)
      if st1 && st2 then some st else if st1 then some { st with dr := false }
      else if st2 then some { st with ul := false } else none
  | ⟨true, true, true, false⟩ =>
      let st1 := isSide (dis c.ls c.rs)
      let st4 := isSide (dis c.ls c.lx)
      if st4 && st1 then some st else if st4 then some { st with ur := false }
      else if st1 then some { st with dl := false } else none
  | ⟨true, true, true, true⟩ =>
      -- the sides in the order `st_1`, `st_2`, `st_3`, `st_4`
      match isSide (dis c.ls c.rs), isSide (dis c.rs c.rx), isSide (dis c.lx c.rx),
        isSide (dis c.ls c.lx) with
      | false, true, true, true => some { st with ul := false, ur := false }
      | true, false, true, true => some { st with dr := false, ur := false }
      | true, true, false, true => some { st with dl := false, dr := false }
      | true, true, true, false => some { st with ul := false, dl := false }
      | false, false, true, true => some { st with ur := false }
      | true, false, false, true => some { st with dr := false }
      | true, true, false, false => some { st with dl := false }
      | false, true, true, false => some { st with ul := false }
      | false, false, false, true => some { st with ur := false, dr := false }
      | true, false, false, false => some { st with dl := false, dr := false }
      | false, true, false, false => some { st with dl := false, ul := false }
      | false, false, true, false => some { st with ul := false, ur := false }
      | _, _, _, _ => some st
  | _ => some st

/-- The mean of two points. -/
def middle (p q : Pixel) : Pixel := ((p.1 + q.1).tdiv 2, (p.2 + q.2).tdiv 2)

/-- `pic_i` and `pic_j` from the corners kept, `none` without a corner. -/
def centerOf (c : Corners) (st : Found4) : Option Pixel :=
  match st with
  | ⟨false, false, false, false⟩ => none
  | ⟨true, false, false, false⟩ => some (c.ls.1 + 30, c.ls.2 - 30)
  | ⟨false, true, false, false⟩ => some (c.rs.1 - 30, c.rs.2 - 30)
  | ⟨false, false, true, false⟩ => some (c.lx.1 + 30, c.lx.2 + 30)
  | ⟨false, false, false, true⟩ => some (c.rx.1 - 30, c.rx.2 + 30)
  | ⟨true, true, false, false⟩ => some ((middle c.ls c.rs).1, (middle c.ls c.rs).2 - 30)
  | ⟨true, false, true, false⟩ => some ((middle c.ls c.lx).1 + 30, (middle c.ls c.lx).2)
  | ⟨false, false, true, true⟩ => some ((middle c.lx c.rx).1, (middle c.lx c.rx).2 + 30)
  | ⟨false, true, false, true⟩ => some ((middle c.rs c.rx).1 - 30, (middle c.rs c.rx).2)
  | ⟨true, false, false, true⟩ => some (middle c.ls c.rx)
  | ⟨false, true, true, false⟩ => some (middle c.rs c.lx)
  | ⟨true, true, true, false⟩ => some (middle c.lx c.rs)
  | ⟨true, true, false, true⟩ => some (middle c.ls c.rx)
  | ⟨false, true, true, true⟩ => some (middle c.rs c.lx)
  | ⟨true, false, true, true⟩ => some (middle c.ls c.rx)
  | ⟨true, true, true, true⟩ =>
      some ((c.rs.1 + c.lx.1 + c.rx.1 + c.ls.1).tdiv 4, (c.ls.2 + c.rs.2 + c.lx.2 + c.rx.2).tdiv 4)

/-- **`get_center`**: `pic_i` and `pic_j` where it returns 1, `none` where it returns 0. -/
def getCenter (coor : Corners) : Option Pixel := do
  let c := moveCorners coor
  let st ← checkCorners c (foundCorners coor)
  centerOf c st

/-! ## The function -/

/-- What a read of `img[i][j]` finds for any `i` and `j`: off the frame, it depends on the whole
contents of the table. -/
def readImg (outside : (Pixel → ℤ) → Pixel → ℤ) (img : Pixel → ℤ) : Pixel → ℤ := fun q =>
  if OnFrame q then img q else outside (fun p => if OnFrame p then img p else 0) q

/-- The conversion to `int8_t`. -/
def toInt8 (z : ℤ) : ℤ := (z + 128) % 256 - 128

/-- **`get_pic`** on a frame of the camera: `pic_i` and `pic_j` where it returns 1, and what it
leaves in `img`. -/
def getPic (outside : (Pixel → ℤ) → Pixel → ℤ) (image : Camera) (img : Pixel → ℤ) :
    Option Pixel × (Pixel → ℤ) :=
  let img := sobel (twoLevels (fromCamera image)) img
  let coor := getSimilarity (readImg outside img) ⟨(0, 0), (0, 0), (0, 0), (0, 0)⟩
  (getCenter coor, fun q => toInt8 (img q * 255))

/-! ## The border -/

/-- The two contents of `img` agree on the outermost columns and rows. -/
def SameBorder (a b : Pixel → ℤ) : Prop := ∀ q, OnFrame q → OnBorder q → a q = b q

/-- **What `sobel` leaves**: its edges inside, and the border as it was. -/
theorem sobel_eq (f : Frame) (img : Pixel → ℤ) {q : Pixel} (hq : OnFrame q) :
    (OnBorder q → sobel f img q = img q) ∧
      (¬ OnBorder q → sobel f img q =
        if |sobelX f q.1 q.2| + |sobelY f q.1 q.2| > 89 then 1 else 0) := by
  have hinside : (1 ≤ q.1 ∧ q.1 < imgWidth - 1 ∧ 1 ≤ q.2 ∧ q.2 < imgHeight - 1) ↔
      ¬ OnBorder q := by
    simp only [OnFrame, OnBorder, imgWidth, imgHeight] at hq ⊢
    omega
  exact ⟨fun h => if_neg (fun hin => hinside.mp hin h), fun h => if_pos (hinside.mpr h)⟩

/-- Tables that agree on the frame read alike everywhere. -/
theorem readImg_congr (outside : (Pixel → ℤ) → Pixel → ℤ) {a b : Pixel → ℤ}
    (h : ∀ q, OnFrame q → a q = b q) : readImg outside a = readImg outside b := by
  have hrestrict : (fun p => if OnFrame p then a p else 0) =
      fun p => if OnFrame p then b p else 0 := by
    funext p
    split_ifs with hp
    · exact h p hp
    · rfl
  funext q
  unfold readImg
  rw [hrestrict]
  split_ifs with hq
  · exact h q hq
  · rfl

/-- Inside, the edges of the frame replace what has been there. -/
theorem SameBorder.sobel {a b : Pixel → ℤ} (h : SameBorder a b) (f : Frame) {q : Pixel}
    (hq : OnFrame q) : sobel f a q = sobel f b q := by
  by_cases hborder : OnBorder q
  · rw [(sobel_eq f a hq).1 hborder, (sobel_eq f b hq).1 hborder, h q hq hborder]
  · rw [(sobel_eq f a hq).2 hborder, (sobel_eq f b hq).2 hborder]

/-- **What `get_pic` returns depends on the frame and the border of `img`**, and so does what it
leaves in `img`. -/
theorem SameBorder.getPic {a b : Pixel → ℤ} (h : SameBorder a b)
    (outside : (Pixel → ℤ) → Pixel → ℤ) (image : Camera) :
    (getPic outside image a).1 = (getPic outside image b).1 ∧
      SameBorder (getPic outside image a).2 (getPic outside image b).2 := by
  refine ⟨?_, fun q hq _ => ?_⟩
  · unfold HandlingRobot.getPic
    dsimp only
    rw [readImg_congr outside fun q => h.sobel _]
  · exact congrArg (fun z => toInt8 (z * 255)) (h.sobel _ hq)

/-- A border of zeros stays one. -/
theorem getPic_border (outside : (Pixel → ℤ) → Pixel → ℤ) (image : Camera) {img : Pixel → ℤ}
    (h : ∀ q, OnFrame q → OnBorder q → img q = 0) {q : Pixel} (hq : OnFrame q) (hb : OnBorder q) :
    (getPic outside image img).2 q = 0 := by
  show toInt8 (sobel _ img q * 255) = 0
  rw [(sobel_eq _ img hq).1 hb, h q hq hb]
  rfl

/-! ## Runs -/

/-- **What `img` can hold**, after calls of `find_pic` and `get_pic` in any order; `found` tells
whether `find_pic` was among them. -/
inductive Contents (outside : (Pixel → ℤ) → Pixel → ℤ) : Bool → Vision → (Pixel → ℤ) → Prop
  | boot : Contents outside false Vision.boot fun _ => 0
  | findPic {found : Bool} {images rest : List Camera} {s s' : Vision} {img : Pixel → ℤ} :
      Contents outside found s img → Returns images s s' rest →
        Contents outside true s' fun q => toInt8 (s'.labels.img q)
  | getPic {found : Bool} {s : Vision} {img : Pixel → ℤ} (image : Camera) :
      Contents outside found s img → Contents outside found s (getPic outside image img).2

/-- **Until `find_pic` is called** the border of `img` is zero. -/
theorem Contents.border_zero {outside : (Pixel → ℤ) → Pixel → ℤ} {found : Bool} {s : Vision}
    {img : Pixel → ℤ} (h : Contents outside found s img) (hfound : found = false) :
    ∀ q, OnFrame q → OnBorder q → img q = 0 := by
  induction h with
  | boot => exact fun _ _ _ => rfl
  | findPic _ _ _ => exact absurd hfound (by decide)
  | getPic image _ ih => exact fun q hq hb => getPic_border outside image (ih hfound) hq hb

/-- **`get_pic` depends on the frame only**, among all contents of `img` with one border; so it does
in all runs that have not called `find_pic`. -/
theorem getPic_same (outside : (Pixel → ℤ) → Pixel → ℤ) {found found' : Bool} {s s' : Vision}
    {a b : Pixel → ℤ} (ha : Contents outside found s a) (hb : Contents outside found' s' b)
    (h : SameBorder a b ∨ found = false ∧ found' = false) (image : Camera) :
    (getPic outside image a).1 = (getPic outside image b).1 := by
  -- without a call of `find_pic` both borders are zero
  rcases h with h | ⟨hfound, hfound'⟩
  · exact (h.getPic outside image).1
  · have hzero : SameBorder a b := fun q hq hborder =>
      (ha.border_zero hfound q hq hborder).trans (hb.border_zero hfound' q hq hborder).symm
    exact (hzero.getPic outside image).1

/-- A photograph of a white card of 48 by 48 pixels on a dark ground. -/
def cardImage : Camera := fun r c =>
  if (70 ≤ c ∧ c < 118) ∧ 36 ≤ 119 - r ∧ 119 - r < 84 then 200 else 50

/-- The card is photographed twice, the second time with its own edges in `img`. -/
theorem getPic_same_card :
    (getPic (fun _ _ => 0) cardImage fun _ => 0).2 (70, 60) ≠ 0 ∧
      (getPic (fun _ _ => 0) cardImage fun _ => 0).1 =
        (getPic (fun _ _ => 0) cardImage (getPic (fun _ _ => 0) cardImage fun _ => 0).2).1 :=
  ⟨by decide, getPic_same (fun _ _ => 0) .boot (.getPic cardImage .boot) (Or.inr ⟨rfl, rfl⟩)
    cardImage⟩

end HandlingRobot
