import HandlingRobot.Vision.Flood
import Mathlib.Algebra.Order.Field.Rat

/-! # The threshold of a camera frame

`GetOSTU` chooses the grey level that separates the frame best into two classes, and `get_a4` turns
the frame into 0 and 1 with it.

* **`fromCamera`** — `img_origin`, filled from the camera.
* **`histogram`**, **`minValue`**, **`maxValue`** — the grey levels of the frame.
* **`getOSTU`** — the level. The arithmetic of `float` is exact here.
* **`binarise`** — the loop behind it. -/

namespace HandlingRobot

/-- `mt9v03x_csi_image`, row and column from the upper left corner. -/
abbrev Camera := ℤ → ℤ → ℕ

/-- `img_origin` as it is filled from the camera: the rows come from below. Off the frame it holds
whatever a read from there finds. -/
def fromCamera (image : Camera) : Frame := fun i j => image (imgHeight - 1 - j) i

/-- The pixels of the frame. -/
def framePixels : List Pixel :=
  (List.range 120).flatMap fun (i : ℕ) => (List.range 188).map fun (j : ℕ) => ((j : ℤ), (i : ℤ))

theorem length_framePixels : framePixels.length = 22560 := by
  simp [framePixels]

theorem mem_framePixels {q : Pixel} : q ∈ framePixels ↔ OnFrame q := by
  obtain ⟨x, y⟩ := q
  simp only [framePixels, List.mem_flatMap, List.mem_map, List.mem_range, Prod.mk.injEq, OnFrame,
    imgWidth, imgHeight]
  constructor
  · rintro ⟨i, hi, j, hj, rfl, rfl⟩
    omega
  · rintro ⟨hx, hx', hy, hy'⟩
    exact ⟨y.toNat, by omega, x.toNat, by omega, by omega, by omega⟩

theorem framePixels_nodup : framePixels.Nodup := by
  rw [framePixels, List.nodup_flatMap]
  refine ⟨fun i _ => List.nodup_range.map fun j j' hj => by simpa using hj,
    List.nodup_range.imp fun {i i'} hne q hq hq' => hne ?_⟩
  obtain ⟨j, -, rfl⟩ := List.mem_map.mp hq
  obtain ⟨j', -, heq⟩ := List.mem_map.mp hq'
  exact Int.ofNat_inj.mp (Prod.mk.inj heq).2.symm

/-- `HistoGram`, whose entries are `unsigned char`. -/
def histogram (f : Frame) (v : ℕ) : ℕ := framePixels.countP (fun q => f q.1 q.2 = v) % 256

theorem histogram_of_count {f : Frame} {v n : ℕ}
    (h : framePixels.countP (fun q => f q.1 q.2 = v) = n) : histogram f v = n % 256 :=
  congrArg (· % 256) h

/-- The first grey level of the histogram. -/
def minValue (H : ℕ → ℕ) : ℕ := ((List.range 256).find? fun v => H v ≠ 0).getD 256

/-- The loop for the last grey level, which looks at the entry of the first one all the time. -/
def maxValue (H : ℕ → ℕ) (minV : ℕ) : ℕ → ℕ
  | 0 => 0
  | v + 1 => if v + 1 > minV ∧ H minV = 0 then maxValue H minV v else v + 1

/-- The variables of the loop over the levels: `PixelBack`, `PixelshortegralBack`, `SigmaB` and
`Threshold`. -/
structure Otsu where
  pixelBack : ℕ
  integralBack : ℕ
  sigmaB : ℚ
  threshold : ℕ

/-- The variance between two classes of pixels with the given numbers and sums of levels. No number
is greater than the quotient of an empty class. -/
def sigma (back fore integralBack integralFore : ℕ) : Option ℚ :=
  if back = 0 ∨ fore = 0 then none
  else
    let amount : ℚ := (back : ℚ) + fore
    let micro : ℚ := (integralBack : ℚ) / back - integralFore / fore
    some (back / amount * (fore / amount) * micro * micro)

/-- One level. -/
def otsuStep (H : ℕ → ℕ) (amount integral : ℕ) (a : Otsu) (j : ℕ) : Otsu :=
  let pixelBack := a.pixelBack + H j
  let integralBack := a.integralBack + H j * j
  match sigma pixelBack (amount - pixelBack) integralBack (integral - integralBack) with
  | none => { a with pixelBack, integralBack }
  | some s =>
      if s > a.sigmaB then ⟨pixelBack, integralBack, s, j⟩ else { a with pixelBack, integralBack }

/-- `GetOSTU` on a histogram. -/
def otsu (H : ℕ → ℕ) : ℕ :=
  let minV := minValue H
  let maxV := maxValue H minV 255
  if maxV = minV then maxV
  else if minV + 1 = maxV then minV
  else
    let levels := List.range' minV (maxV + 1 - minV)
    let amount := (levels.map H).sum
    let integral := (levels.map fun j => H j * j).sum
    ((List.range' minV (maxV - minV)).foldl (otsuStep H amount integral) ⟨0, 0, -1, 0⟩).threshold

/-- **`GetOSTU`.** -/
def getOSTU (f : Frame) : ℕ := otsu (histogram f)

/-- The loop of `get_a4` that turns the frame into 0 and 1. -/
def binarise (thre : ℕ) (f : Frame) : Frame := fun i j =>
  if OnFrame (i, j) then (if f i j < thre then 1 else 0) else f i j

end HandlingRobot
