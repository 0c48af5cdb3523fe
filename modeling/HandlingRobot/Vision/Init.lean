import HandlingRobot.Vision.Corners

/-! # Finding the pictures in the frame

`init` floods the regions of 0 that begin in a window around the centre of the frame, and then the
regions of 255 it met next to them. Each flood fills one entry of `block`; those from entry 1 on
that are small enough are the pictures.

* **`startRegion`**, **`startPicture`** — a pixel of the window, and an entry of `edge`.
* **`isPicture`**, **`Blob.aver`** — the size of a picture, and its centroid.
* **`getCross`**, **`recGrid`** — the grid of the field in the frame.
* **`init`** — the function behind `get_a4`. The arithmetic of `float32_t` is exact here. -/

namespace HandlingRobot

/-! ## Points and lines -/

/-- `node`. -/
@[ext] structure Node where
  x : ℚ
  y : ℚ
  deriving DecidableEq

/-- `line`. -/
structure LineABC where
  A : ℚ
  B : ℚ
  C : ℚ

/-- **`get_prox`.** -/
def getProx (lambda : ℚ) (p1 p2 : Node) : Node :=
  ⟨(1 - lambda) * p1.x + lambda * p2.x, (1 - lambda) * p1.y + lambda * p2.y⟩

/-- **`get_line`.** -/
def getLine (p1 p2 : Node) : LineABC :=
  ⟨p2.y - p1.y, p1.x - p2.x, -(p1.x * p2.y - p2.x * p1.y)⟩

/-- **`get_cross`**, `(-1, -1)` for lines that are nearly parallel. -/
def getCross (p1 p2 p3 p4 : Node) : Node :=
  let L1 := getLine p1 p2
  let L2 := getLine p3 p4
  let c1 := -L1.C
  let c2 := -L2.C
  let deno := L1.A * L2.B - L2.A * L1.B
  if |deno| < 1 / 1000 then ⟨-1, -1⟩
  else ⟨(c1 * L2.B - c2 * L1.B) / deno, (L1.A * c2 - L2.A * c1) / deno⟩

/-- `X_num` and `Y_num`. -/
def xNum : ℕ := 35
@[inherit_doc xNum] def yNum : ℕ := 25

/-- A corner as a point. -/
def Node.ofPixel (q : Pixel) : Node := ⟨q.1, q.2⟩

/-- **The grid `rec`** between the corners; the rest of the table is zero. -/
def recGrid (c : Corners) (i j : ℕ) : Node :=
  let LS := Node.ofPixel c.ls
  let RS := Node.ofPixel c.rs
  let LX := Node.ofPixel c.lx
  let RX := Node.ofPixel c.rx
  if i ≤ xNum ∧ j ≤ yNum then
    let lamX : ℚ := i * (1 / xNum)
    let lamY : ℚ := j * (1 / yNum)
    getCross (getProx lamX LX RX) (getProx lamX LS RS) (getProx lamY LX LS) (getProx lamY RX RS)
  else ⟨0, 0⟩

/-! ## The floods -/

/-- The pixels of the window around the centre, in the order of the loops. -/
def window : List Pixel :=
  (List.range 20).flatMap fun (i : ℕ) => (List.range 20).map fun (j : ℕ) =>
    (imgWidth / 2 - 10 + (i : ℤ), imgHeight / 2 - 10 + (j : ℤ))

/-- A pixel of 0 with no 255 around it. -/
def isSeed (f : Frame) (q : Pixel) : Bool :=
  f q.1 q.2 == 0 &&
    [-1, 0, 1].all fun a => [-1, 0, 1].all fun b => !isWhite f (q.1 + a, q.2 + b)

/-- A flood from `q` with the next label, if `q` has no label and passes `test`. -/
def startFlood (f : Frame) (fuel four_or_8 : ℕ) (tag : Bool) (test : Pixel → Bool)
    (t : Labels × ℕ) (q : Pixel) : Option (Labels × ℕ) :=
  if t.1.img q = -1 ∧ test q = true then do
    let s ← bfs f fuel q t.2 four_or_8 tag t.1
    some (s, t.2 + 1)
  else some t

/-- The body of the loop over the window. -/
def startRegion (f : Frame) (fuel : ℕ) : Labels × ℕ → Pixel → Option (Labels × ℕ) :=
  startFlood f fuel 4 true (isSeed f)

/-- The body of the loop over `edge`. -/
def startPicture (f : Frame) (fuel : ℕ) : Labels × ℕ → Pixel → Option (Labels × ℕ) :=
  startFlood f fuel 8 false (isWhite f)

/-- All floods: those of the window, and those of the pixels they met. -/
def floods (f : Frame) (fuel : ℕ) (t : Labels × ℕ) : Option (Labels × ℕ) := do
  let t ← window.foldlM (startRegion f fuel) t
  -- the floods from here on leave `edge` as it is
  t.1.edge.foldlM (startPicture f fuel) t

/-! ## The pictures -/

/-- **`is_picture`.** -/
def isPicture (b : Blob) : Bool := !(b.num < 1 || b.num > 25)

/-- `aver_x` and `aver_y`. -/
def Blob.aver (b : Blob) : Node := ⟨b.sumX / b.num, b.sumY / b.num⟩

/-- What `init` leaves for `find_pic`. -/
structure Pictures where
  /-- `PIC`, up to `pic_num`. -/
  pic : List Node
  /-- `rec`. -/
  grid : ℕ → ℕ → Node

/-- **`init`** behind `get_a4`, on the frame and the corners that it leaves and on what `block`
holds; `none` when the fuel does not last. -/
def init (f : Frame) (fuel : ℕ) (c : Corners) (block : ℕ → Blob) : Option Pictures := do
  let t ← window.foldlM (startRegion f fuel) (⟨fun _ => -1, block, []⟩, 0)
  -- the floods from here on leave `edge` as it is
  let (s, cnt) ← t.1.edge.foldlM (startPicture f fuel) t
  -- block 0 is the region around the centre
  some { pic := (((List.range' 1 (cnt - 1)).map s.block).filter isPicture).map Blob.aver
         grid := recGrid c }

/-- The entries of `PIC` after all floods. -/
def pictureNodes (t : Labels × ℕ) : List Node :=
  (((List.range' 1 (t.2 - 1)).map t.1.block).filter isPicture).map Blob.aver

/-- `init` consists of the floods and the evaluation of `block`. -/
theorem init_eq_floods (f : Frame) (fuel : ℕ) (c : Corners) (block : ℕ → Blob) :
    init f fuel c block =
      (floods f fuel (⟨fun _ => -1, block, []⟩, 0)).map fun t => ⟨pictureNodes t, recGrid c⟩ := by
  unfold init floods
  cases window.foldlM (startRegion f fuel) (⟨fun _ => -1, block, []⟩, 0) with
  | none => rfl
  | some t =>
      simp only [Option.bind_eq_bind, Option.bind_some]
      cases t.1.edge.foldlM (startPicture f fuel) t with
      | none => rfl
      | some r => rfl

end HandlingRobot
