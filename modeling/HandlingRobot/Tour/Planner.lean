import HandlingRobot.Tour.AntRoutes
import Mathlib.Data.Rat.Floor

/-! # The planner with remembered structure

`ACO_to_first` computes the tour and the first leg; every `ACO_to_next` adds the leg or the two legs
to the next picture of the tour, and `ACO_to_R`, `ACO_to_T` and `ACO_to_L` add the legs to the three
bins. A leg is a sequence of waypoints of its own path number.

* **`Planner`** — the variables of the planner, the tables of the ants among them.
* **`checkYaw`**, **`makePath`** — the kind of a leg, and its waypoints.
* **`loadTour`**, **`acoToFirst`**, **`acoToNext`**, **`acoToR`**, **`acoToT`**, **`acoToL`**.
* **`Planner.Boot`** — the state before the first call. -/

namespace HandlingRobot

/-- `erx` and `ery`, the offset of the camera from the centre of the car. -/
def erx : ℤ := 10
@[inherit_doc erx] def ery : ℤ := 45

/-- `piece_step`, the distance of two waypoints. -/
def pieceStep : ℚ := 15

/-- `yaw_dis`, the correction of the target of a steep leg. -/
def yawDis : ℤ := 2

/-- **The variables of the planner.** -/
structure Planner extends Colony where
  /-- `pic_num`, the number of pictures. -/
  picNum : ℕ
  pxStd : ℕ → ℤ
  pyStd : ℕ → ℤ
  pathX : ℕ → ℕ → ℚ
  pathY : ℕ → ℕ → ℚ
  pathPredis : ℕ → ℕ → ℤ
  pathTot : ℕ → ℕ
  numPath : ℕ
  lsttt : ℕ
  nxttt : ℕ
  lstttt : ℕ
  /-- `vis_`. -/
  vis : ℕ → Bool
  pathClk : ℕ

/-! ## Legs -/

/-- The bearing of `(dx, dy)` in degrees, with the arc tangent of the platform. -/
def yaw (atan : ℚ → ℚ) (dx dy : ℚ) : ℚ :=
  let yaw := if dx = 0 then (if dy > 0 then 0 else 180)
    else 90 - atan |dy / dx| * 180 / (314159 / 100000)
  let yaw := if dx > 0 ∧ dy < 0 then 180 - yaw else yaw
  let yaw := if dx < 0 ∧ dy < 0 then 180 + yaw else yaw
  if dx < 0 ∧ dy ≥ 0 then 360 - yaw else yaw

/-- `check_yaw`: 1 for a leg steeply to the side, 2 for a leg backwards, 0 for any other leg and for
legs of at most 60. -/
def checkYaw (atan : ℚ → ℚ) (x0 y0 x1 y1 : ℤ) : ℕ :=
  let dx : ℚ := x1 - x0
  let dy : ℚ := y1 - y0
  let yaw := yaw atan dx dy
  -- `60 < sqrt(dx * dx + dy * dy)`
  if 60 * 60 < dx * dx + dy * dy then
    if 89 < yaw ∧ yaw < 136 then 1
    else if 224 < yaw ∧ yaw < 271 then 1
    else if 136 < yaw ∧ yaw < 224 then 2
    else 0
  else 0

/-- `(int)(ds / dis_step + 1)`, the number of pieces of a leg. -/
def pieceCount (dx dy disStep : ℚ) : ℕ := Nat.sqrt ⌊(dx * dx + dy * dy) / (disStep * disStep)⌋₊ + 1

/-- The first `k` turns of the loop of `make_path` on path `num`. -/
def makePoints (s : Planner) (num : ℕ) (stepX stepY : ℚ) : ℕ → Planner
  | 0 => s
  | k + 1 =>
      let s := makePoints s num stepX stepY k
      let i := s.pathTot num + k + 1
      { s with
        pathX := setCell s.pathX num i (s.pathX num (i - 1) + stepX)
        pathY := setCell s.pathY num i (s.pathY num (i - 1) + stepY)
        pathPredis := setCell s.pathPredis num i
          (s.pathPredis num (i - 1) + calcDis 0 0 (truncate stepX) (truncate stepY)) }

/-- **`make_path`**: the waypoints from `(x0, y0)` to `(x1, y1)` are appended to path `num`. -/
def makePath (x0 y0 x1 y1 : ℤ) (num : ℕ) (disStep : ℚ) (s : Planner) : Planner :=
  let dx : ℚ := x1 - x0
  let dy : ℚ := y1 - y0
  let tot := pieceCount dx dy disStep
  let s := if s.pathTot num = 0 then
      { s with pathX := setCell s.pathX num 0 x0, pathY := setCell s.pathY num 0 y0,
               pathPredis := setCell s.pathPredis num 0 0 }
    else s
  let s := makePoints s num (dx / tot) (dy / tot) tot
  { s with pathTot := Function.update s.pathTot num (s.pathTot num + tot) }

/-- `make_path(…, num_path++, piece_step)`. -/
def Planner.leg (x0 y0 x1 y1 : ℤ) (s : Planner) : Planner :=
  { makePath x0 y0 x1 y1 s.numPath pieceStep s with numPath := s.numPath + 1 }

/-! ## The first picture -/

/-- The pictures as grid cells become points of the field; the start of the car is one more. -/
def Planner.load (s : Planner) : Planner :=
  let px := fun i => if i < s.picNum then (s.px i - 1) * 20 + 10 - erx else s.px i
  let py := fun i => if i < s.picNum then (s.py i - 1) * 20 + 10 - ery else s.py i
  { s with
    pxStd := fun i => if i < s.picNum then px i else s.pxStd i
    pyStd := fun i => if i < s.picNum then py i else s.pyStd i
    px := Function.update px s.picNum 0
    py := Function.update py s.picNum 0
    n := s.picNum + 1 }

/-- `ACO_to_first` up to the tour: `ant(100, 50, n - 1, 1, 0, 0)` through the pictures and the start
of the car, and `n` back at the number of pictures. -/
def loadTour (rand : ℕ → ℕ) (s : Planner) : Option Planner := do
  let s := s.load
  let colony ← initTag 0 s.toColony
  let (colony, _) ← ant rand 100 50 (colony.n - 1 : ℕ) 1 0 0 colony
  some { s with toColony := { colony with n := colony.n - 1 } }

/-- `ACO_to_first` from the shuffled tour on: the leg to the first picture of it. -/
def Planner.toFirst (route : ℕ → ℕ) (calls : ℕ) (s : Planner) : Planner :=
  let lsttt := route s.pathClk
  let s := { s with
    calls
    path := fun t k => if t = 0 then route k else s.path t k
    lsttt
    lstttt := 0
    vis := Function.update s.vis lsttt true
    py := Function.update s.py lsttt (s.py lsttt + 10) }
  s.leg 0 0 (s.px lsttt) (s.py lsttt)

/-- **`ACO_to_first`**: the tour, shuffled, and the leg to its first picture. -/
def acoToFirst (rand : ℕ → ℕ) (s : Planner) : Option Planner := do
  let s ← loadTour rand s
  let (route, calls) ← shuffle rand s.calls 13 (s.path 0)
  some (s.toFirst route calls)

/-! ## The next pictures and the bins -/

/-- **`ACO_to_next`**: the leg to the next picture of the tour; a leg backwards is made in two. -/
def acoToNext (atan : ℚ → ℚ) (s : Planner) : Planner :=
  let s := { s with nxttt := s.path 0 (s.pathClk + 1), pathClk := s.pathClk + 1 }
  let lstCheck := checkYaw atan (s.px s.lsttt) (s.py s.lsttt) (s.px s.nxttt) (s.py s.nxttt)
  let s :=
    if lstCheck = 0 then
      s.leg (s.px s.lsttt) (s.py s.lsttt) (s.px s.nxttt) (s.py s.nxttt)
    else if lstCheck = 1 then
      let s := { s with py := Function.update s.py s.nxttt (s.py s.nxttt - yawDis) }
      s.leg (s.px s.lsttt) (s.py s.lsttt) (s.px s.nxttt) (s.py s.nxttt)
    else
      let horiDis := if s.px s.nxttt ≤ s.px s.lsttt then 20 else -20
      let tmp := if s.px s.nxttt ≤ s.px s.lsttt then -8 else 8
      let s' := s.leg (s.px s.lsttt) (s.py s.lsttt) (s.px s.nxttt + horiDis) (s.py s.nxttt)
      let s' := s'.leg (s.px s.nxttt + horiDis) (s.py s.nxttt) (s.px s.nxttt + tmp) (s.py s.nxttt)
      { s' with px := Function.update s.px s.nxttt (s.px s.nxttt + tmp) }
  { s with lstttt := s.lsttt, lsttt := s.nxttt }

/-- What the three bins have in common: the bin becomes point `n`, and the leg to it starts at point
`n - 1`. -/
def acoToBin (atan : ℚ → ℚ) (x y : ℤ) (s : Planner) : Planner :=
  let s := { s with
    px := Function.update s.px s.n x, pxStd := Function.update s.pxStd s.n x
    py := Function.update s.py s.n y, pyStd := Function.update s.pyStd s.n y }
  let lstCheck := checkYaw atan (s.px (s.n - 1)) (s.py (s.n - 1)) (s.px s.n) (s.py s.n)
  let s := if lstCheck = 1 then
      { s with py := Function.update s.py s.n (s.py s.n - yawDis) }
    else s
  let s := s.leg (s.px (s.n - 1)) (s.py (s.n - 1)) (s.px s.n) (s.py s.n)
  { s with lsttt := s.n, n := s.n + 1 }

/-- **`ACO_to_R`**, which also moves `lsttt` on to `lstttt`. -/
def acoToR (atan : ℚ → ℚ) (s : Planner) : Planner :=
  { acoToBin atan 725 460 s with lstttt := s.lsttt }

/-- **`ACO_to_T`.** -/
def acoToT (atan : ℚ → ℚ) (s : Planner) : Planner := acoToBin atan 465 500 s

/-- **`ACO_to_L`.** -/
def acoToL (atan : ℚ → ℚ) (s : Planner) : Planner := acoToBin atan (-10) 400 s

/-! ## The first call -/

/-- **The state before the first call**: pictures in distinct cells of the grid, and everything else
as the program starts. -/
structure Planner.Boot (s : Planner) : Prop where
  picNum_pos : 1 ≤ s.picNum
  cell : ∀ i < s.picNum, (1 ≤ s.px i ∧ s.px i ≤ 35) ∧ (1 ≤ s.py i ∧ s.py i ≤ 25)
  distinct : ∀ i < s.picNum, ∀ j < s.picNum, i ≠ j → (s.px i, s.py i) ≠ (s.px j, s.py j)
  path : ∀ t k, s.path t k = 0
  pathTot : ∀ num, s.pathTot num = 0
  numPath : s.numPath = 0
  pathClk : s.pathClk = 1

/-- The points of the field are distinct, the start of the car among them: no picture is at a cell
whose offset puts it on the start. -/
theorem points_distinct {p : ℕ} {x y : ℕ → ℤ} (px py : ℕ → ℤ)
    (hcell : ∀ i < p, ∀ j < p, i ≠ j → (px i, py i) ≠ (px j, py j))
    (hpic : ∀ i < p, x i = (px i - 1) * 20 ∧ y i = (py i - 1) * 20 - 35)
    (hstart : x p = 0 ∧ y p = 0) :
    ∀ i < p + 1, ∀ j < p + 1, i ≠ j → (x i, y i) ≠ (x j, y j) := by
  have haway : ∀ i < p, (x i, y i) ≠ (0, 0) := by
    intro i hi heq
    rw [(hpic i hi).1, (hpic i hi).2, Prod.mk.injEq] at heq
    omega
  intro i hi j hj hij
  rcases (by omega : i < p ∨ i = p) with hip | rfl
  · rcases (by omega : j < p ∨ j = p) with hjp | rfl
    · intro heq
      refine hcell i hip j hjp hij ?_
      rw [(hpic i hip).1, (hpic i hip).2, (hpic j hjp).1, (hpic j hjp).2, Prod.mk.injEq] at heq
      rw [Prod.mk.injEq]
      omega
    · rw [hstart.1, hstart.2]
      exact haway i hip
  · have hjp : j < i := by omega
    rw [hstart.1, hstart.2]
    exact (haway j hjp).symm

@[inherit_doc points_distinct]
theorem Planner.Boot.load_distinct {s : Planner} (h : s.Boot) : s.load.toColony.Distinct := by
  refine points_distinct s.px s.py h.distinct (fun i hi => ?_) ?_
  · have hne : i ≠ s.picNum := by omega
    simp only [Planner.load, Function.update_of_ne hne, if_pos hi, erx, ery]
    constructor <;> ring
  · simp [Planner.load]

/-- **The tour of the first call** leads from the start of the car, point `pic_num`, through all
pictures; behind it the row of the table is still empty. -/
theorem Planner.Boot.loadTour_yields {s : Planner} (h : s.Boot) (rand : ℕ → ℕ) :
    Yields (loadTour rand s) fun t =>
      t.px = s.load.px ∧ t.py = s.load.py ∧ t.n = s.picNum ∧ t.pathTot = s.pathTot ∧
        t.numPath = s.numPath ∧ t.pathClk = s.pathClk ∧ t.picNum = s.picNum ∧
        IsTour (s.picNum + 1) s.picNum (t.path 0) ∧ ∀ k, s.picNum < k → t.path 0 k = 0 := by
  refine (initTag_yields h.load_distinct.measured).bind ?_
  rintro c ⟨hframe, hok⟩
  have hn : c.n = s.picNum + 1 := hframe.n
  have hpos := h.picNum_pos
  have hst : c.n - 1 < c.n := by omega
  have hant := ant_yields rand 50 100 (c.n - 1) 0 1 0 hok
    (by decide) (by decide) hst (by decide) fun k _ _ =>
      Or.inr ⟨fun h => absurd h.1 (by decide), fun h => absurd h.1 (by decide)⟩
  refine hant.bind ?_
  rintro ⟨d, len⟩ ⟨hpx, hpy, hdn, -, htour, hpath⟩
  refine yields_some ⟨hpx.trans hframe.px, hpy.trans hframe.py, ?_, rfl, rfl, rfl, rfl, ?_, ?_⟩
  · show d.n - 1 = s.picNum
    rw [hdn, hn, Nat.add_sub_cancel]
  · rw [hn, Nat.add_sub_cancel] at htour
    exact htour
  · intro k hk
    show d.path 0 k = 0
    rw [hpath 0 k (by omega), hframe.path]
    exact h.path 0 k

end HandlingRobot
