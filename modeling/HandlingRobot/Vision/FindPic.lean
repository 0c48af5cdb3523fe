import HandlingRobot.Tour.Geometry
import HandlingRobot.Vision.A4
import HandlingRobot.Vision.Pictures
import Mathlib.Data.Rat.Floor

/-! # Locating the pictures on the field

`find_pic` takes a frame, lets `init` list the pictures in it, and searches the point of the field
that is nearest to each of them: first among the nodes of the grid, then in small steps around the
best node.

* **`Vision`** — the buffers that outlive a call.
* **`coarse`**, **`fine`**, **`gridCell`** — the two searches, and the cell of the point found.
* **`findPic`** — the function. `check_task` returns -1 before it looks at anything, so the branch
  behind it is never taken.
* **`floods_over`** — the floods add to what `block` holds: `init` does not clear it.
* **`Returns`**, **`Vision.Reachable`** — the calls that come back, and the states after some of
  them. -/

namespace HandlingRobot

/-! ## The state -/

/-- `img`, `block` and `edge`, and `cnt`, `pic_num`, `PIC`, `pos` and `pos_int`. The tables have no
end here. -/
structure Vision where
  labels : Labels
  cnt : ℕ
  picNum : ℕ
  pic : ℕ → Node
  pos : ℕ → Node
  posInt : ℕ → ℕ × ℕ

/-- The buffers before the first call. -/
def Vision.boot : Vision where
  labels := ⟨fun _ => 0, fun _ => ⟨0, 0, 0⟩, []⟩
  cnt := 0
  picNum := 0
  pic _ := ⟨0, 0⟩
  pos _ := ⟨0, 0⟩
  posInt _ := (0, 0)

/-! ## The searches -/

/-- **`diss`**, the square of the distance. -/
def diss (p1 p2 : Node) : ℚ :=
  (p1.x - p2.x) * (p1.x - p2.x) + (p1.y - p2.y) * (p1.y - p2.y)

/-- The nodes of the grid that lie inside the field, in the order of the loops. -/
def gridNodes : List (ℕ × ℕ) :=
  (List.range' 1 (xNum - 1)).flatMap fun (i : ℕ) =>
    (List.range' 1 (yNum - 1)).map fun (j : ℕ) => (i, j)

/-- `tmpi` and `tmpj`: the node nearest to `p`, `(-1, -1)` when none is nearer than `inf`. -/
def coarse (grid : ℕ → ℕ → Node) (p : Node) : ℤ × ℤ :=
  (gridNodes.foldl (fun (a : ℚ × (ℤ × ℤ)) n =>
    let dis := diss p (grid n.1 n.2)
    if a.1 > dis then (dis, ((n.1 : ℤ), (n.2 : ℤ))) else a) ((inf : ℚ), (-1, -1))).2

/-- The values of a loop counter from `lo` to `hi` in steps of `baby_step`. -/
def lams (lo hi : ℚ) : List ℚ :=
  (List.range (⌊(hi - lo) * 1000⌋₊ + 1)).map fun (k : ℕ) => lo + k * (1 / 1000)

/-- The point of the frame where the field has the coordinates `lamX` and `lamY`. -/
def fieldPoint (c : Corners) (lamX lamY : ℚ) : Node :=
  let LS := Node.ofPixel c.ls
  let RS := Node.ofPixel c.rs
  let LX := Node.ofPixel c.lx
  let RX := Node.ofPixel c.rx
  getCross (getProx lamX LX RX) (getProx lamX LS RS) (getProx lamY LX LS) (getProx lamY RX RS)

/-- `ansx` and `ansy`: the coordinates of the point nearest to `p` around the node `tmp`. -/
def fine (c : Corners) (p : Node) (tmp : ℤ × ℤ) : Node :=
  ((lams ((tmp.1 - 1) / xNum) ((tmp.1 + 1) / xNum)).foldl (fun a lamX =>
    (lams ((tmp.2 - 1) / yNum) ((tmp.2 + 1) / yNum)).foldl (fun (a : ℚ × Node) lamY =>
      let dis := diss (fieldPoint c lamX lamY) p
      if dis < a.1 then (dis, ⟨lamX, lamY⟩) else a) a) ((inf : ℚ), ⟨0, 0⟩)).2

/-- `pos` for a picture at `p`: the coordinates on a field of 700 times 500. -/
def locate (c : Corners) (p : Node) : Node :=
  let ans := fine c p (coarse (recGrid c) p)
  ⟨ans.x * 700, ans.y * 500⟩

/-- `pos_int` for a position, a pair of `uint8`. -/
def gridCell (p : Node) : ℕ × ℕ :=
  ((((truncate p.x).tdiv 20 + 1) % 256).toNat, (((truncate p.y).tdiv 20 + 1) % 256).toNat)

/-! ## The function -/

/-- The end of `init`: the pictures among the blocks. -/
def Vision.list (s : Vision) (t : Labels × ℕ) : Vision :=
  { s with
    labels := t.1
    cnt := t.2
    picNum := (pictureNodes t).length
    pic := fun i => (pictureNodes t).getD i (s.pic i) }

/-- `init` behind `get_a4`, on all buffers. -/
def initVision (f : Frame) (fuel : ℕ) (s : Vision) : Option Vision := do
  -- `img` is filled with -1 and `tot` set to 0, but `block` stays as it is
  let t ← floods f fuel (⟨fun _ => -1, s.labels.block, []⟩, 0)
  some (s.list t)

/-- The loops over the pictures. -/
def Vision.place (c : Corners) (s : Vision) : Vision :=
  let pos := fun id => if id < s.picNum then locate c (s.pic id) else s.pos id
  { s with
    pos := pos
    posInt := fun i => if i < s.picNum then gridCell (pos i) else s.posInt i }

/-- **`find_pic`** on the frames that the camera has still to take: the buffers, and the frames
behind the one accepted; `none` when no frame is accepted, or the fuel does not last. -/
def findPic (fuel : ℕ) (images : List Camera) (s : Vision) : Option (Vision × List Camera) := do
  let ((f, c), rest) ← a4Loop fuel images
  let s ← initVision f fuel s
  some (s.place c, rest)

/-- `init` and `initVision` are one function. -/
theorem initVision_eq_init (f : Frame) (fuel : ℕ) (c : Corners) (s : Vision) :
    (initVision f fuel s).map (fun r => (List.range r.picNum).map r.pic) =
      (init f fuel c s.labels.block).map Pictures.pic := by
  rw [init_eq_floods, initVision]
  cases floods f fuel (⟨fun _ => -1, s.labels.block, []⟩, 0) with
  | none => rfl
  | some t =>
      simp only [Option.bind_eq_bind, Option.bind_some, Option.map_some, Option.some.injEq]
      refine List.ext_getElem (by simp [Vision.list]) fun i hi hi' => ?_
      simp [Vision.list, List.getElem?_eq_getElem hi']

/-- **A call of `find_pic` returns**, with these buffers and these frames left. -/
def Returns (images : List Camera) (s s' : Vision) (rest : List Camera) : Prop :=
  ∃ N, ∀ fuel, N ≤ fuel → findPic fuel images s = some (s', rest)

/-- **The buffers after some calls of `find_pic`.** -/
inductive Vision.Reachable : Vision → Prop
  | boot : Vision.Reachable Vision.boot
  | call {images : List Camera} {s s' : Vision} {rest : List Camera} :
      Vision.Reachable s → Returns images s s' rest → Vision.Reachable s'

/-! ## What the floods add -/

/-- The sum of two entries of `block`. -/
def Blob.plus (b d : Blob) : Blob := ⟨b.num + d.num, b.sumX + d.sumX, b.sumY + d.sumY⟩

@[simp] theorem Blob.plus_num (b d : Blob) : (b.plus d).num = b.num + d.num := rfl

@[simp] theorem Blob.plus_zero (b : Blob) : b.plus ⟨0, 0, 0⟩ = b := by simp [Blob.plus]

theorem Blob.plus_add (b d : Blob) (q : Pixel) : b.plus (d.add q) = (b.plus d).add q := by
  simp only [Blob.plus, Blob.add, add_assoc]

/-- The tables on top of the blocks `B`. -/
def Labels.over (B : ℕ → Blob) (s : Labels) : Labels :=
  { s with block := fun i => (B i).plus (s.block i) }

theorem Labels.mark_over (B : ℕ → Blob) (cnt : ℕ) (q : Pixel) (s : Labels) :
    (s.over B).mark cnt q = (s.mark cnt q).over B := by
  have hblock : ((s.over B).mark cnt q).block = ((s.mark cnt q).over B).block := by
    funext i
    by_cases hi : i = cnt
    · subst hi
      simp [Labels.mark, Labels.over, Blob.plus_add]
    · simp [Labels.mark, Labels.over, hi]
  exact congrArg (fun block => Labels.mk (s.mark cnt q).img block s.edge) hblock

section Over

variable (B : ℕ → Blob) (f : Frame)

/-- The same for the tables together with something else. -/
def overFst {α : Type*} (t : Labels × α) : Labels × α := (t.1.over B, t.2)

theorem bfsVisit_over (cnt : ℕ) (tag : Bool) (n : Pixel) (t : Labels × List Pixel) (d : ℤ × ℤ) :
    bfsVisit f cnt tag n (overFst B t) d = overFst B (bfsVisit f cnt tag n t d) := by
  have himg : (overFst B t).1.img = t.1.img := rfl
  unfold bfsVisit
  dsimp only
  rw [himg]
  split_ifs with hskip hother htag
  · rfl
  · rfl
  · rfl
  · exact Prod.ext (Labels.mark_over B cnt _ t.1) rfl

theorem bfsVisits_over (cnt : ℕ) (tag : Bool) (n : Pixel) (dirs : List (ℤ × ℤ))
    (t : Labels × List Pixel) :
    dirs.foldl (bfsVisit f cnt tag n) (overFst B t) =
      overFst B (dirs.foldl (bfsVisit f cnt tag n) t) :=
  List.foldl_hom (overFst B) (fun t d => bfsVisit_over B f cnt tag n t d)

/-- **The loop of a flood**, by induction on the fuel. -/
theorem bfsLoop_over (cnt : ℕ) (dirs : List (ℤ × ℤ)) (tag : Bool) (fuel : ℕ) :
    ∀ t, bfsLoop f cnt dirs tag fuel (overFst B t) =
      (bfsLoop f cnt dirs tag fuel t).map (overFst B) := by
  induction fuel with
  | zero => exact fun _ => rfl
  | succ fuel ih =>
      rintro ⟨s, queue⟩
      cases queue with
      | nil => rfl
      | cons n queue =>
          show bfsLoop f cnt dirs tag fuel
            (dirs.foldl (bfsVisit f cnt tag n) (overFst B (s, queue))) = _
          rw [bfsVisits_over, ih]
          rfl

theorem bfs_over (fuel : ℕ) (x : Pixel) (cnt four_or_8 : ℕ) (tag : Bool) (s : Labels) :
    bfs f fuel x cnt four_or_8 tag (s.over B) =
      (bfs f fuel x cnt four_or_8 tag s).map (Labels.over B) := by
  have hloop := bfsLoop_over B f cnt (dir.take four_or_8) tag fuel (s.mark cnt x, [x])
  have hstart : overFst B (s.mark cnt x, [x]) = ((s.over B).mark cnt x, [x]) := by
    rw [Labels.mark_over]
    rfl
  rw [hstart] at hloop
  rw [bfs, bfs, hloop, Option.map_map, Option.map_map]
  rfl

theorem startFlood_over (fuel four_or_8 : ℕ) (tag : Bool) (test : Pixel → Bool) (t : Labels × ℕ)
    (q : Pixel) :
    startFlood f fuel four_or_8 tag test (overFst B t) q =
      (startFlood f fuel four_or_8 tag test t q).map (overFst B) := by
  have himg : (overFst B t).1.img = t.1.img := rfl
  unfold startFlood
  rw [himg]
  split_ifs with hstart
  · show (bfs f fuel q t.2 four_or_8 tag (t.1.over B)).bind _ = _
    rw [bfs_over]
    cases bfs f fuel q t.2 four_or_8 tag t.1 with
    | none => rfl
    | some s => rfl
  · rfl

/-- **The floods add to the blocks**: started on the blocks `B`, they end with the blocks that they
fill otherwise on top of `B`. -/
theorem floods_over (fuel : ℕ) (t : Labels × ℕ) :
    floods f fuel (overFst B t) = (floods f fuel t).map (overFst B) := by
  have hregions : window.foldlM (startRegion f fuel) (overFst B t) =
      (window.foldlM (startRegion f fuel) t).map (overFst B) :=
    foldlM_hom (overFst B) (startFlood_over B f fuel 4 true (isSeed f)) window t
  unfold floods
  rw [hregions]
  cases window.foldlM (startRegion f fuel) t with
  | none => rfl
  | some r =>
      -- the entries of `edge` are the same
      exact foldlM_hom (overFst B) (startFlood_over B f fuel 8 false (isWhite f)) r.1.edge r

end Over

end HandlingRobot
