import HandlingRobot.Library.FirstMin
import HandlingRobot.Tour.Detour
import HandlingRobot.Tour.Targets

/-! # The greedy planner

`to_first` goes to the picture nearest to the start of the car; every `to_next` goes from the
current picture over the drop-off point of its class to the picture with the shortest such detour.
The class of a picture need not be known before the step that leaves it.

* **`toFirst`**, **`find`**, **`toNext`**, **`goHome`** — the planner.
* **`find_yields`** — the scan of `find_` ends with the first unvisited picture of least detour.
* **`Planner.Greedy`** — the invariant: pictures that are not visited yet have not been shifted.
* **`greedy_visits`** — every picture is visited exactly once, and every step is a nearest one. -/

namespace HandlingRobot

/-! ## The planner -/

/-- The scan of `to_first`: the point nearest to the start of the car among the first `k` ones, with
the value it starts with. -/
def nearestScan (px py : ℕ → ℤ) (a : ℤ × ℕ) : ℕ → ℤ × ℕ
  | 0 => a
  | i + 1 =>
      let (best, lsttt) := nearestScan px py a i
      match chkmin best (calcDis 0 0 (px i) (py i)) with
      | (best, true) => (best, i)
      | (best, false) => (best, lsttt)

/-- **`to_first`**, with the classes known so far. -/
def toFirst (cls : ℕ → ℤ) (s : Planner) : Planner :=
  let n := s.picNum
  let px := fun i => if i < n then (s.px i - 1) * 20 + 10 - erx else s.px i
  let py := fun i => if i < n then (s.py i - 1) * 20 + 10 - ery else s.py i
  let lsttt := (nearestScan px py (10000, s.lsttt) n).2
  let s := { s with
    n
    px
    pxStd := fun i => if i < n then px i else s.pxStd i
    pyStd := fun i => if i < n then py i else s.pyStd i
    clas := fun i => if i < n then clasOf (cls i) else s.clas i
    lsttt
    lstttt := 0
    vis := Function.update s.vis lsttt true
    py := Function.update py lsttt (py lsttt + 10) }
  s.leg 0 0 (s.px lsttt) (s.py lsttt)

/-- One turn of the scan of `find_`, from the point `(nx, ny)` of picture `np`. -/
def findStep (nx ny : ℤ) (np i : ℕ) (a : Planner × ℤ × ℕ) : Option (Planner × ℤ × ℕ) := do
  let (s, maxx, id) := a
  if s.vis i then some (s, maxx, id)
  else
    let (colony, val) ← s.toColony.calcTag nx ny (s.px i) (s.py i) (s.clas np)
    let s := { s with toColony := colony }
    match chkmin maxx val with
    | (maxx, true) => some (s, maxx, i)
    | (maxx, false) => some (s, maxx, id)

/-- **`find_`.** -/
def find (nx ny : ℤ) (np : ℕ) (s : Planner) : Option (Planner × ℕ) := do
  let (s, _, id) ← forLoop 0 s.n (findStep nx ny np) (s, 10000, 0)
  some ({ s with vis := Function.update s.vis id true }, id)

/-- `tmpy += d`. -/
def Planner.shiftTmp (s : Planner) (d : ℤ) : Planner := { s with tmp := (s.tmp.1, s.tmp.2 + d) }

/-- `px[i] += d`. -/
def Planner.shiftX (s : Planner) (i : ℕ) (d : ℤ) : Planner :=
  { s with px := Function.update s.px i (s.px i + d) }

@[inherit_doc Planner.shiftX]
def Planner.shiftY (s : Planner) (i : ℕ) (d : ℤ) : Planner :=
  { s with py := Function.update s.py i (s.py i + d) }

/-- The leg of `to_next` from a drop-off point at the left or the right side to the next picture. -/
def layOn (lstCheck : ℤ) (s : Planner) : Planner :=
  let s := s.shiftY s.nxttt (-(lstCheck * yawDis))
  s.leg s.tmp.1 s.tmp.2 (s.px s.nxttt) (s.py s.nxttt)

/-- The two legs of `to_next` from a drop-off point at the upper side to the next picture. -/
def layDown (atan : ℚ → ℚ) (s : Planner) : Planner :=
  let horiDis : ℤ := if s.px s.nxttt ≤ s.tmp.1 then 20 else -20
  let check : ℤ := checkYaw atan s.tmp.1 s.tmp.2 (s.px s.nxttt + horiDis) (s.py s.nxttt)
  let s := s.shiftY s.nxttt (-(check * yawDis))
  let s := s.leg s.tmp.1 s.tmp.2 (s.px s.nxttt + horiDis) (s.py s.nxttt)
  let tmp : ℤ := if s.px s.nxttt ≤ s.tmp.1 then -8 else 8
  let s := s.leg (s.px s.nxttt + horiDis) (s.py s.nxttt) (s.px s.nxttt + tmp) (s.py s.nxttt)
  s.shiftX s.nxttt tmp

/-- The legs of `to_next`: from the current picture to the drop-off point, and on to `nxttt`. -/
def layOver (atan : ℚ → ℚ) (s : Planner) : Planner :=
  let lstCheck : ℤ := checkYaw atan (s.px s.lsttt) (s.py s.lsttt) s.tmp.1 s.tmp.2
  let s := s.shiftTmp (-(lstCheck * yawDis))
  let s := s.leg (s.px s.lsttt) (s.py s.lsttt) s.tmp.1 s.tmp.2
  let s := s.shiftTmp (lstCheck * yawDis)
  let s := if s.clas s.lsttt ≠ 1 then layOn lstCheck s else layDown atan s
  let s := s.shiftTmp (-(lstCheck * yawDis))
  { s with lstttt := s.lsttt, lsttt := s.nxttt }

/-- **`to_next`.** -/
def toNext (atan : ℚ → ℚ) (s : Planner) : Option Planner := do
  let (s, nxttt) ← find (s.px s.lsttt) (s.py s.lsttt) s.lsttt s
  let s := { s with nxttt }
  let (colony, _) ← s.toColony.calcTag (s.px s.lsttt) (s.py s.lsttt) (s.px nxttt) (s.py nxttt)
    (s.clas s.lsttt)
  some (layOver atan { s with toColony := colony })

/-- The legs of `go_home`: from the last picture to its drop-off point, and on to the start. -/
def layHome (atan : ℚ → ℚ) (s : Planner) : Planner :=
  let check : ℤ := checkYaw atan (s.px s.nxttt) (s.py s.nxttt) s.tmp.1 s.tmp.2
  let s := s.shiftTmp (-(check * yawDis))
  let s := s.leg (s.px s.nxttt) (s.py s.nxttt) s.tmp.1 s.tmp.2
  let s := s.leg s.tmp.1 s.tmp.2 5 0
  { s with lstttt := s.lsttt, lsttt := s.n }

/-- **`go_home`.** -/
def goHome (atan : ℚ → ℚ) (s : Planner) : Option Planner := do
  let s := { s with px := Function.update s.px s.n 5, py := Function.update s.py s.n 0 }
  let (colony, _) ← s.toColony.calcTag (s.px s.nxttt) (s.py s.nxttt) 0 0 (s.clas s.nxttt)
  some (layHome atan { s with toColony := colony })

/-- `to_first` and the first `k` calls of `to_next`, before call `i` with the classes `clas i`. -/
def greedyRun (atan : ℚ → ℚ) (cls : ℕ → ℤ) (clas : ℕ → ℕ → ℤ) (k : ℕ) (s : Planner) :
    Option Planner :=
  forLoop 0 k (fun i t => toNext atan { t with clas := clas i }) (toFirst cls s)

/-! ## The scans -/

/-- The detour from the current picture to picture `i`, as `calc_tag` computes it. -/
def Planner.detour (s : Planner) (i : ℕ) : Option ℤ :=
  (s.toColony.calcTag (s.px s.lsttt) (s.py s.lsttt) (s.px i) (s.py i) (s.clas s.lsttt)).map Prod.snd

/-- The pictures among the first `k` ones that are not visited yet. -/
def Planner.unseen (s : Planner) (k : ℕ) : List ℕ := (List.range k).filter fun i => !s.vis i

theorem Planner.mem_unseen {s : Planner} {k i : ℕ} : i ∈ s.unseen k ↔ i < k ∧ s.vis i = false := by
  unfold Planner.unseen
  rw [List.mem_filter, List.mem_range, Bool.not_eq_true']

theorem Planner.unseen_succ (s : Planner) (k : ℕ) :
    s.unseen (k + 1) = s.unseen k ++ if s.vis k then [] else [k] := by
  unfold Planner.unseen
  rw [List.range_succ, List.filter_append]
  cases h : s.vis k <;> simp [h]

/-- **What a step needs to know** of the state: the current picture and those that are not visited
lie in the field, and the class of the current one is known. -/
structure Planner.Placeable (s : Planner) : Prop where
  here : InField (s.px s.lsttt) (s.py s.lsttt)
  side : IsSide (s.clas s.lsttt)
  unseen : ∀ i < s.n, s.vis i = false → InField (s.px i) (s.py i)

/-- The detours to the pictures that are not visited are defined, and short. -/
theorem Planner.Placeable.detour {s : Planner} (h : s.Placeable) {i : ℕ} (hi : i < s.n)
    (hvis : s.vis i = false) :
    ∃ p d, DropOff p ∧ s.detour i = some d ∧ d < 10000 ∧
      ∀ tmp, calcTag tmp (s.px s.lsttt) (s.py s.lsttt) (s.px i) (s.py i) (s.clas s.lsttt) =
        some (p, d) := by
  obtain ⟨p, d, heq, hp, hd, -⟩ := calcTag_detour h.here (h.unseen i hi hvis) h.side
  refine ⟨p, d, hp, ?_, hd, heq⟩
  unfold Planner.detour Colony.calcTag
  rw [heq]
  rfl

/-- A detour that is defined changes `tmpx` and `tmpy` only. -/
theorem Colony.calcTag_of {x1 y1 x2 y2 tag d : ℤ} {p : ℤ × ℤ}
    (h : ∀ tmp, HandlingRobot.calcTag tmp x1 y1 x2 y2 tag = some (p, d)) (c : Colony) :
    c.calcTag x1 y1 x2 y2 tag = some ({ c with tmp := p }, d) := by
  unfold Colony.calcTag
  rw [h]
  rfl

/-- A visited picture is passed over. -/
theorem findStep_seen {nx ny : ℤ} {np i : ℕ} {s : Planner} (h : s.vis i = true) (r : ℤ × ℕ) :
    findStep nx ny np i (s, r) = some (s, r) :=
  if_pos h

/-- A picture that is not visited replaces the one kept if its detour is shorter. -/
theorem findStep_unseen {nx ny d : ℤ} {np i : ℕ} {s : Planner} {p : ℤ × ℤ} (h : s.vis i = false)
    (hd : ∀ tmp, calcTag tmp nx ny (s.px i) (s.py i) (s.clas np) = some (p, d)) (r : ℤ × ℕ) :
    findStep nx ny np i (s, r) = some ({ s with tmp := p }, if d < r.1 then (d, i) else r) := by
  unfold findStep
  dsimp only
  rw [h, if_neg Bool.false_ne_true, Colony.calcTag_of hd]
  unfold chkmin
  by_cases hless : d < r.1
  · rw [if_pos hless]
    simp only [Option.bind_eq_bind, Option.bind_some, if_pos (show r.1 > d from hless)]
  · rw [if_neg hless]
    simp only [Option.bind_eq_bind, Option.bind_some, if_neg (show ¬ r.1 > d from hless)]

/-- **The scan of `find_`** ends with the first picture of least detour among those that are not
visited, and marks it. -/
theorem find_yields {s : Planner} (h : s.Placeable) :
    Yields (find (s.px s.lsttt) (s.py s.lsttt) s.lsttt s) fun r =>
      (∃ tmp, r.1 = { s with tmp := tmp, vis := Function.update s.vis r.2 true }) ∧
        ∃ best, Scanned (fun i => (s.detour i).getD 0) (10000, 0) (s.unseen s.n) (best, r.2) := by
  -- the loop scans the pictures not seen yet, and changes `tmpx` and `tmpy` only
  have hloop : Yields (forLoop 0 s.n (findStep (s.px s.lsttt) (s.py s.lsttt) s.lsttt) (s, 10000, 0))
      fun a => (∃ tmp, a.1 = { s with tmp := tmp }) ∧
        Scanned (fun i => (s.detour i).getD 0) (10000, 0) (s.unseen s.n) a.2 := by
    refine forLoop_yields (I := fun k (a : Planner × ℤ × ℕ) =>
      (∃ tmp, a.1 = { s with tmp := tmp }) ∧
        Scanned (fun i => (s.detour i).getD 0) (10000, 0) (s.unseen k) a.2) (Nat.zero_le _)
      ⟨⟨s.tmp, rfl⟩, Scanned.nil _ _⟩ ?_
    rintro i ⟨t, r⟩ - hi ⟨⟨tmp, ht⟩, hscan⟩
    dsimp only at ht hscan
    subst ht
    rw [Planner.unseen_succ]
    cases hvis : s.vis i with
    | true =>
        refine ⟨_, findStep_seen (s := { s with tmp := tmp }) hvis r, ⟨tmp, rfl⟩, ?_⟩
        rwa [if_pos rfl, List.append_nil]
    | false =>
        obtain ⟨p, d, -, hdetour, -, heq⟩ := h.detour hi hvis
        have hsnoc := hscan.snoc i
        rw [hdetour, Option.getD_some] at hsnoc
        exact ⟨_, findStep_unseen (s := { s with tmp := tmp }) hvis heq r, ⟨p, rfl⟩, hsnoc⟩
  refine hloop.bind ?_
  rintro ⟨t, maxx, id⟩ ⟨⟨tmp, ht⟩, hscan⟩
  dsimp only at ht
  subst ht
  exact yields_some ⟨⟨tmp, rfl⟩, maxx, hscan⟩

/-! ## One step -/

theorem checkYaw_le_two (atan : ℚ → ℚ) (x0 y0 x1 y1 : ℤ) : checkYaw atan x0 y0 x1 y1 ≤ 2 := by
  unfold checkYaw
  dsimp only
  split_ifs <;> decide

section Shift

variable (s : Planner) (i : ℕ) (d : ℤ)

@[simp] theorem Planner.shiftTmp_frame :
    (s.shiftTmp d).px = s.px ∧ (s.shiftTmp d).py = s.py ∧ (s.shiftTmp d).n = s.n ∧
      (s.shiftTmp d).clas = s.clas ∧ (s.shiftTmp d).vis = s.vis ∧ (s.shiftTmp d).lsttt = s.lsttt ∧
      (s.shiftTmp d).nxttt = s.nxttt ∧ (s.shiftTmp d).tmp = (s.tmp.1, s.tmp.2 + d) :=
  ⟨rfl, rfl, rfl, rfl, rfl, rfl, rfl, rfl⟩

@[simp] theorem Planner.shiftX_frame :
    (s.shiftX i d).px = Function.update s.px i (s.px i + d) ∧ (s.shiftX i d).py = s.py ∧
      (s.shiftX i d).n = s.n ∧ (s.shiftX i d).vis = s.vis ∧ (s.shiftX i d).lsttt = s.lsttt ∧
      (s.shiftX i d).nxttt = s.nxttt :=
  ⟨rfl, rfl, rfl, rfl, rfl, rfl⟩

@[simp] theorem Planner.shiftY_frame :
    (s.shiftY i d).px = s.px ∧ (s.shiftY i d).py = Function.update s.py i (s.py i + d) ∧
      (s.shiftY i d).n = s.n ∧ (s.shiftY i d).vis = s.vis ∧ (s.shiftY i d).lsttt = s.lsttt ∧
      (s.shiftY i d).nxttt = s.nxttt ∧ (s.shiftY i d).tmp = s.tmp :=
  ⟨rfl, rfl, rfl, rfl, rfl, rfl, rfl⟩

end Shift

/-- **On the way from `s` to `t` only picture `nxttt` is shifted**, and only a little. -/
structure Planner.Shifted (s t : Planner) : Prop where
  n : t.n = s.n
  vis : t.vis = s.vis
  nxttt : t.nxttt = s.nxttt
  shift : ∃ dx dy, (-8 ≤ dx ∧ dx ≤ 8) ∧ (-4 ≤ dy ∧ dy ≤ 0) ∧
    t.px = Function.update s.px s.nxttt (s.px s.nxttt + dx) ∧
    t.py = Function.update s.py s.nxttt (s.py s.nxttt + dy)

theorem layOn_shifted {lstCheck : ℤ} (s : Planner) (h : 0 ≤ lstCheck ∧ lstCheck ≤ 2) :
    s.Shifted (layOn lstCheck s) := by
  unfold layOn
  refine ⟨by simp, by simp, by simp, 0, -(lstCheck * yawDis), by decide, ?_, by simp, by simp⟩
  simp only [yawDis]
  omega

theorem layDown_shifted (atan : ℚ → ℚ) (s : Planner) : s.Shifted (layDown atan s) := by
  unfold layDown
  dsimp only
  generalize (if s.px s.nxttt ≤ s.tmp.1 then (20 : ℤ) else -20) = horiDis
  have hcheck := checkYaw_le_two atan s.tmp.1 s.tmp.2 (s.px s.nxttt + horiDis) (s.py s.nxttt)
  generalize checkYaw atan s.tmp.1 s.tmp.2 (s.px s.nxttt + horiDis) (s.py s.nxttt) = check
    at hcheck ⊢
  refine ⟨by simp, by simp, by simp, if s.px s.nxttt ≤ s.tmp.1 then -8 else 8,
    -((check : ℤ) * yawDis), ?_, ?_, by simp, by simp⟩
  · split_ifs <;> decide
  · simp only [yawDis]
    omega

/-- **The legs of `to_next`** shift the next picture, and then it is the current one. -/
theorem layOver_shifted (atan : ℚ → ℚ) (s : Planner) :
    s.Shifted (layOver atan s) ∧ (layOver atan s).lsttt = s.nxttt := by
  have hcheck := checkYaw_le_two atan (s.px s.lsttt) (s.py s.lsttt) s.tmp.1 s.tmp.2
  unfold layOver
  dsimp only
  generalize checkYaw atan (s.px s.lsttt) (s.py s.lsttt) s.tmp.1 s.tmp.2 = check at hcheck ⊢
  -- the way to the drop-off point shifts no picture
  generalize hu : (((s.shiftTmp (-((check : ℤ) * yawDis))).leg _ _ _ _).shiftTmp
    ((check : ℤ) * yawDis)) = u
  have hframe : u.n = s.n ∧ u.vis = s.vis ∧ u.nxttt = s.nxttt ∧ u.px = s.px ∧ u.py = s.py := by
    rw [← hu]
    simp
  obtain ⟨hn, hvis, hnxt, hpx, hpy⟩ := hframe
  have hon : s.Shifted (if u.clas u.lsttt ≠ 1 then layOn check u else layDown atan u) := by
    have hshift : u.Shifted (if u.clas u.lsttt ≠ 1 then layOn check u else layDown atan u) := by
      split_ifs
      · exact layOn_shifted u (by omega)
      · exact layDown_shifted atan u
    obtain ⟨hn', hvis', hnxt', hshift⟩ := hshift
    rw [hn] at hn'
    rw [hvis] at hvis'
    rw [hnxt, hpx, hpy] at hshift
    exact ⟨hn', hvis', hnxt'.trans hnxt, hshift⟩
  exact ⟨⟨hon.n, hon.vis, hon.nxttt, hon.shift⟩, hon.nxttt⟩

/-- **A nearest picture**: not visited, and no picture that is not visited has a shorter detour. -/
def Planner.Nearest (s : Planner) (i : ℕ) : Prop :=
  (i < s.n ∧ s.vis i = false) ∧
    ∃ d, s.detour i = some d ∧ ∀ j < s.n, s.vis j = false → ∃ e, s.detour j = some e ∧ d ≤ e

/-- **A call of `to_next`** marks a nearest picture and lays the legs to it over the drop-off
point. -/
theorem toNext_eq (atan : ℚ → ℚ) {s : Planner} (h : s.Placeable)
    (hrest : ∃ i < s.n, s.vis i = false) :
    ∃ i p, s.Nearest i ∧ DropOff p ∧ toNext atan s =
      some (layOver atan { s with tmp := p, vis := Function.update s.vis i true, nxttt := i }) := by
  obtain ⟨⟨t, i⟩, hfind, ⟨tmp, ht⟩, best, hscan⟩ := find_yields h
  dsimp only at ht hscan
  subst ht
  -- some picture beats the value the scan starts with
  obtain ⟨j, hj, hjvis⟩ := hrest
  obtain ⟨-, d, -, hjd, hjlt, -⟩ := h.detour hj hjvis
  obtain ⟨hmem, hval⟩ := hscan.attained (Planner.mem_unseen.mpr ⟨hj, hjvis⟩)
    (by rw [hjd]; exact hjlt)
  obtain ⟨hi, hivis⟩ := Planner.mem_unseen.mp hmem
  obtain ⟨p, e, hp, hie, -, heq⟩ := h.detour hi hivis
  refine ⟨i, p, ⟨⟨hi, hivis⟩, e, hie, fun k hk hkvis => ?_⟩, hp, ?_⟩
  · obtain ⟨-, f, -, hkf, -, -⟩ := h.detour hk hkvis
    have hle := hscan.least k (Planner.mem_unseen.mpr ⟨hk, hkvis⟩)
    dsimp only at hle hval
    rw [hkf, Option.getD_some] at hle
    rw [hie, Option.getD_some] at hval
    exact ⟨f, hkf, hval.trans_le hle⟩
  · unfold toNext
    rw [hfind]
    simp only [Option.bind_eq_bind, Option.bind_some]
    rw [Colony.calcTag_of heq]
    rfl

/-! ## The run -/

/-- **The pictures before `to_first`**: at most 24 in cells of the grid, none of them visited. -/
structure Planner.OnMap (pos : ℕ → ℤ × ℤ) (s : Planner) : Prop where
  picNum_pos : 1 ≤ s.picNum
  picNum_le : s.picNum ≤ 24
  at_pos : ∀ i < s.picNum, s.px i = (pos i).1 ∧ s.py i = (pos i).2
  cell : ∀ i < s.picNum, (1 ≤ (pos i).1 ∧ (pos i).1 ≤ 35) ∧ 1 ≤ (pos i).2 ∧ (pos i).2 ≤ 25
  vis : ∀ i, s.vis i = false

/-- **Between two steps**, after `j` pictures of `route`: they are the visited ones, the current one
lies in the field, and the others are where they were on the map. -/
structure Planner.Greedy (pos : ℕ → ℤ × ℤ) (p j : ℕ) (route : ℕ → ℕ) (s : Planner) : Prop where
  n : s.n = p
  tour : PartialTour p (route 0) j route
  vis : ∀ i < p, s.vis i = true ↔ ∃ k < j, route k = i
  here : InField (s.px s.lsttt) (s.py s.lsttt)
  unseen : ∀ i < p, s.vis i = false →
    s.px i = ((pos i).1 - 1) * 20 ∧ s.py i = ((pos i).2 - 1) * 20 - 35

/-- A step can be made from such a state, as soon as the class of the current picture is known. -/
theorem Planner.Greedy.placeable {pos : ℕ → ℤ × ℤ} {p j : ℕ} {route : ℕ → ℕ} {s : Planner}
    (h : s.Greedy pos p j route)
    (hcell : ∀ i < p, (1 ≤ (pos i).1 ∧ (pos i).1 ≤ 35) ∧ 1 ≤ (pos i).2 ∧ (pos i).2 ≤ 25)
    {clas : ℕ → ℤ} (hclas : ∀ i, IsSide (clas i)) :
    ({ s with clas := clas } : Planner).Placeable := by
  refine ⟨h.here, hclas _, fun i hi hvis => ?_⟩
  have hip : i < p := h.n ▸ hi
  obtain ⟨hx, hy⟩ := h.unseen i hip hvis
  obtain ⟨hX, hY⟩ := hcell i hip
  show InField (s.px i) (s.py i)
  unfold InField
  omega

/-- **What a step keeps.** -/
theorem Planner.Greedy.step {pos : ℕ → ℤ × ℤ} {p j : ℕ} {route : ℕ → ℕ} {s : Planner}
    (h : s.Greedy pos p j route) (hj : 1 ≤ j)
    (hcell : ∀ i < p, (1 ≤ (pos i).1 ∧ (pos i).1 ≤ 35) ∧ 1 ≤ (pos i).2 ∧ (pos i).2 ≤ 25)
    {clas : ℕ → ℤ} {i : ℕ} {t : Planner}
    (hnear : ({ s with clas := clas } : Planner).Nearest i)
    (ht : ({ s with vis := Function.update s.vis i true, nxttt := i } : Planner).Shifted t)
    (hlst : t.lsttt = i) (hroute : route j = i) : t.Greedy pos p (j + 1) route := by
  obtain ⟨⟨hi, hivis⟩, -⟩ := hnear
  have hip : i < p := h.n ▸ hi
  have hivis' : s.vis i = false := hivis
  obtain ⟨dx, dy, hdx, hdy, hpx, hpy⟩ := ht.shift
  dsimp only at hpx hpy
  have hvis : t.vis = Function.update s.vis i true := ht.vis
  refine ⟨ht.n.trans h.n, ?_, fun m hm => ?_, ?_, fun m hm hunseen => ?_⟩
  · -- the picture is new on the route, because the route holds the visited ones
    refine h.tour.extend hj hip (fun l hl hli => ?_) (fun _ _ => rfl) hroute
    have hseen := (h.vis i hip).mpr ⟨l, hl, hli⟩
    rw [hivis'] at hseen
    cases hseen
  · rw [hvis]
    by_cases hmi : m = i
    · subst hmi
      rw [Function.update_self]
      exact iff_of_true rfl ⟨j, Nat.lt_succ_self j, hroute⟩
    · rw [Function.update_of_ne hmi, h.vis m hm]
      constructor
      · rintro ⟨k, hk, hkm⟩
        exact ⟨k, Nat.lt_succ_of_lt hk, hkm⟩
      · rintro ⟨k, hk, hkm⟩
        refine ⟨k, lt_of_le_of_ne (Nat.le_of_lt_succ hk) fun hkj => hmi ?_, hkm⟩
        rw [← hkm, hkj, hroute]
  · rw [hlst, hpx, hpy, Function.update_self, Function.update_self]
    obtain ⟨hx, hy⟩ := h.unseen i hip hivis'
    obtain ⟨hX, hY⟩ := hcell i hip
    show InField (s.px i + dx) (s.py i + dy)
    unfold InField
    omega
  · have hmi : m ≠ i := by
      rintro rfl
      rw [hvis, Function.update_self] at hunseen
      cases hunseen
    rw [hvis, Function.update_of_ne hmi] at hunseen
    rw [hpx, hpy, Function.update_of_ne hmi, Function.update_of_ne hmi]
    exact h.unseen m hm hunseen

/-- The scan of `to_first` is a scan over all pictures. -/
theorem nearestScan_scanned (px py : ℕ → ℤ) (a : ℤ × ℕ) (k : ℕ) :
    Scanned (fun i => calcDis 0 0 (px i) (py i)) a (List.range k) (nearestScan px py a k) := by
  induction k with
  | zero => exact Scanned.nil _ a
  | succ k ih =>
      rw [List.range_succ]
      have hsnoc := ih.snoc k
      have hstep : nearestScan px py a (k + 1) =
          if calcDis 0 0 (px k) (py k) < (nearestScan px py a k).1 then
            (calcDis 0 0 (px k) (py k), k) else nearestScan px py a k := by
        rw [nearestScan]
        dsimp only
        unfold chkmin
        by_cases hless : calcDis 0 0 (px k) (py k) < (nearestScan px py a k).1
        · rw [if_pos hless, if_pos hless]
        · rw [if_neg hless, if_neg hless]
      rw [hstep]
      exact hsnoc

/-- The variables that `to_first` sets, in terms of the moved points and of the scan. -/
theorem toFirst_fields {s : Planner} {px py : ℕ → ℤ} {r : ℤ × ℕ} (cls : ℕ → ℤ)
    (hpx : (fun i => if i < s.picNum then (s.px i - 1) * 20 + 10 - erx else s.px i) = px)
    (hpy : (fun i => if i < s.picNum then (s.py i - 1) * 20 + 10 - ery else s.py i) = py)
    (hscan : nearestScan px py (10000, s.lsttt) s.picNum = r) :
    (toFirst cls s).n = s.picNum ∧ (toFirst cls s).lsttt = r.2 ∧
      (toFirst cls s).vis = Function.update s.vis r.2 true ∧ (toFirst cls s).px = px ∧
      (toFirst cls s).py = Function.update py r.2 (py r.2 + 10) := by
  unfold toFirst
  simp only [Planner.leg_n, Planner.leg_lsttt, Planner.leg_vis, Planner.leg_px, Planner.leg_py, hpx,
    hpy, hscan]
  refine ⟨trivial, trivial, trivial, trivial, ?_⟩
  exact congrArg (fun y => Function.update py r.2 (y + 10)) (congrFun hpy r.2)

/-- **`to_first`** goes to a picture, the first of the route. -/
theorem toFirst_greedy {pos : ℕ → ℤ × ℤ} {s : Planner} (h : s.OnMap pos) (cls : ℕ → ℤ) :
    ∃ i < s.picNum, (toFirst cls s).lsttt = i ∧ ∀ route : ℕ → ℕ, route 0 = i →
      (toFirst cls s).Greedy pos s.picNum 1 route := by
  have hpos := h.picNum_pos
  generalize hpx : (fun i => if i < s.picNum then (s.px i - 1) * 20 + 10 - erx else s.px i) = px
  generalize hpy : (fun i => if i < s.picNum then (s.py i - 1) * 20 + 10 - ery else s.py i) = py
  have hat : ∀ i < s.picNum, px i = ((pos i).1 - 1) * 20 ∧ py i = ((pos i).2 - 1) * 20 - 35 := by
    intro i hi
    obtain ⟨hx, hy⟩ := h.at_pos i hi
    rw [← hpx, ← hpy]
    simp only [if_pos hi, hx, hy, erx, ery]
    omega
  generalize hscan : nearestScan px py (10000, s.lsttt) s.picNum = r
  have hscanned := nearestScan_scanned px py (10000, s.lsttt) s.picNum
  rw [hscan] at hscanned
  -- the first picture is near enough to replace the value that the scan starts with
  have hmem : r.2 ∈ List.range s.picNum := by
    obtain ⟨hx, hy⟩ := hat 0 hpos
    obtain ⟨hX, hY⟩ := h.cell 0 hpos
    have hnear := calcDis_lt_of_near 0 0 (px 0) (py 0)
      (by omega) (by omega)
    exact (hscanned.attained (List.mem_range.mpr hpos) (hnear.trans (by norm_num))).1
  have hi : r.2 < s.picNum := List.mem_range.mp hmem
  obtain ⟨hn, hlst, hvis, hpx', hpy'⟩ := toFirst_fields cls hpx hpy hscan
  refine ⟨r.2, hi, hlst, fun route hroute => ⟨hn, ⟨rfl, ?_, ?_⟩, ?_, ?_, ?_⟩⟩
  · intro k hk
    obtain rfl : k = 0 := by omega
    exact hroute ▸ hi
  · intro k hk l hl _
    omega
  · intro m hm
    rw [hvis]
    by_cases hmr : m = r.2
    · subst hmr
      rw [Function.update_self]
      exact iff_of_true rfl ⟨0, Nat.one_pos, hroute⟩
    · rw [Function.update_of_ne hmr, h.vis m]
      refine iff_of_false Bool.false_ne_true ?_
      rintro ⟨k, hk, hkm⟩
      obtain rfl : k = 0 := by omega
      exact hmr (hkm.symm.trans hroute)
  · rw [hlst, hpx', hpy', Function.update_self]
    obtain ⟨hx, hy⟩ := hat r.2 hi
    obtain ⟨hX, hY⟩ := h.cell r.2 hi
    unfold InField
    omega
  · intro m hm hunseen
    have hmr : m ≠ r.2 := by
      rintro rfl
      rw [hvis, Function.update_self] at hunseen
      cases hunseen
    rw [hpx', hpy', Function.update_of_ne hmr]
    exact hat m hm

/-- As long as the route is not complete, some picture is not visited. -/
theorem Planner.Greedy.exists_unseen {pos : ℕ → ℤ × ℤ} {p j : ℕ} {route : ℕ → ℕ} {s : Planner}
    (h : s.Greedy pos p j route) (hjp : j < p) : ∃ i < s.n, s.vis i = false := by
  obtain ⟨i, hi⟩ := List.exists_mem_of_ne_nil _ (unvisited_ne_nil route hjp)
  obtain ⟨hip, hnew⟩ := mem_unvisited hi
  refine ⟨i, h.n.symm ▸ hip, ?_⟩
  cases hvis : s.vis i with
  | false => rfl
  | true =>
      obtain ⟨k, hk, hki⟩ := (h.vis i hip).mp hvis
      exact absurd hki (hnew k hk)

/-- **One call of `to_next`** in a run, for the class table it finds. -/
theorem Planner.Greedy.toNext {pos : ℕ → ℤ × ℤ} {p j : ℕ} {route : ℕ → ℕ} {s : Planner}
    (h : s.Greedy pos p j route) (atan : ℚ → ℚ) (hj : 1 ≤ j) (hjp : j < p)
    (hcell : ∀ i < p, (1 ≤ (pos i).1 ∧ (pos i).1 ≤ 35) ∧ 1 ≤ (pos i).2 ∧ (pos i).2 ≤ 25)
    {clas : ℕ → ℤ} (hclas : ∀ i, IsSide (clas i)) :
    ∃ t, HandlingRobot.toNext atan { s with clas := clas } = some t ∧
      ({ s with clas := clas } : Planner).Nearest t.lsttt ∧
      (route j = t.lsttt → t.Greedy pos p (j + 1) route) := by
  obtain ⟨i, q, hnear, -, hnext⟩ :=
    toNext_eq atan (h.placeable hcell hclas) (h.exists_unseen hjp)
  obtain ⟨hshift, hlst⟩ := layOver_shifted atan { s with
    clas := clas, tmp := q, vis := Function.update s.vis i true, nxttt := i }
  refine ⟨_, hnext, ?_, fun hroute => ?_⟩
  · rw [hlst]
    exact hnear
  · refine h.step hj hcell hnear ?_ hlst (hroute.trans hlst)
    exact ⟨hshift.n, hshift.vis, hshift.nxttt, hshift.shift⟩

/-- **A run of the greedy planner** goes from state to state by calls of `to_next` that succeed, and
keeps what the next call needs. -/
theorem greedyRun_states (atan : ℚ → ℚ) (cls : ℕ → ℤ) (clas : ℕ → ℕ → ℤ) {pos : ℕ → ℤ × ℤ}
    {s : Planner} (h : s.OnMap pos) (hclas : ∀ k i, IsSide (clas k i)) :
    ∃ run : ℕ → Planner, run 0 = toFirst cls s ∧
      (∀ k < s.picNum, greedyRun atan cls clas k s = some (run k) ∧
        (run k).Greedy pos s.picNum (k + 1) fun k => (run k).lsttt) ∧
      ∀ k, k + 1 < s.picNum →
        HandlingRobot.toNext atan { run k with clas := clas k } = some (run (k + 1)) := by
  -- one state for every number of steps; the default stands for runs that fail
  generalize hrun : (fun k => (greedyRun atan cls clas k s).getD s) = run
  have hzero : greedyRun atan cls clas 0 s = some (run 0) := by
    rw [← hrun]
    rfl
  have hrun0 : run 0 = toFirst cls s := (Option.some.inj hzero).symm
  have hsucc : ∀ k t, greedyRun atan cls clas k s = some (run k) →
      HandlingRobot.toNext atan { run k with clas := clas k } = some t → run (k + 1) = t := by
    intro k t heq ht
    have hnext : greedyRun atan cls clas (k + 1) s = some t := by
      unfold greedyRun at heq ⊢
      rw [forLoop_succ (Nat.zero_le k), heq]
      exact ht
    rw [← hrun]
    simp only [hnext, Option.getD_some]
  -- step after step, as the calls follow each other
  have hstate : ∀ k < s.picNum, greedyRun atan cls clas k s = some (run k) ∧
      (run k).Greedy pos s.picNum (k + 1) fun k => (run k).lsttt := by
    intro k
    induction k with
    | zero =>
        intro _
        obtain ⟨i, -, hlst, hfirst⟩ := toFirst_greedy h cls
        refine ⟨hzero, hrun0 ▸ hfirst _ ?_⟩
        rw [hrun0]
        exact hlst
    | succ k ih =>
        intro hk
        obtain ⟨heq, hgreedy⟩ := ih (by omega)
        obtain ⟨t, ht, -, hnext⟩ :=
          hgreedy.toNext atan (Nat.succ_pos k) hk h.cell (hclas k)
        have hrunk := hsucc k t heq ht
        refine ⟨?_, hrunk ▸ hnext (congrArg Planner.lsttt hrunk)⟩
        unfold greedyRun at heq ⊢
        rw [forLoop_succ (Nat.zero_le k), heq, hrunk]
        exact ht
  refine ⟨run, hrun0, hstate, fun k hk => ?_⟩
  obtain ⟨heq, hgreedy⟩ := hstate k (by omega)
  obtain ⟨t, ht, -, -⟩ := hgreedy.toNext atan (Nat.succ_pos k) hk h.cell (hclas k)
  rw [hsucc k t heq ht]
  exact ht

/-- **The greedy planner visits every picture exactly once**, whatever the classes are, and every
call of `to_next` goes to a picture with the least value of `calc_tag`. -/
theorem greedy_visits (atan : ℚ → ℚ) (cls : ℕ → ℤ) (clas : ℕ → ℕ → ℤ) (pos : ℕ → ℤ × ℤ)
    (s : Planner) (h : s.OnMap pos) (hclas : ∀ k i, IsSide (clas k i)) :
    ∃ run : ℕ → Planner,
      (∀ k < s.picNum, greedyRun atan cls clas k s = some (run k)) ∧
      ((List.range s.picNum).map fun k => (run k).lsttt).Perm (List.range s.picNum) ∧
      ∀ k, k + 1 < s.picNum →
        ({ run k with clas := clas k } : Planner).Nearest (run (k + 1)).lsttt := by
  obtain ⟨run, -, hstate, hnext⟩ := greedyRun_states atan cls clas h hclas
  refine ⟨run, fun k hk => (hstate k hk).1, ?_, fun k hk => ?_⟩
  · have hpos := h.picNum_pos
    have htour := (hstate (s.picNum - 1) (by omega)).2.tour
    rw [Nat.sub_add_cancel hpos] at htour
    exact htour.isTour.2
  · have hgreedy := (hstate k (by omega)).2
    obtain ⟨t, ht, hnear, -⟩ := hgreedy.toNext atan (Nat.succ_pos k) hk h.cell (hclas k)
    rw [hnext k hk, Option.some.injEq] at ht
    exact ht ▸ hnear

/-- The thirteen pictures of the sample map: the first nine go to the left side, the others to the
upper one. -/
theorem samplePictures_greedy :
    ∃ run : ℕ → Planner,
      (∀ k < 13, greedyRun (fun x => x) (fun _ => 1) (fun k _ => if k < 9 then 0 else 1) k
        (.boot samplePictures) = some (run k)) ∧
      ((List.range 13).map fun k => (run k).lsttt).Perm (List.range 13) := by
  obtain ⟨run, hrun, hperm, -⟩ := greedy_visits (fun x => x) (fun _ => 1)
    (fun k _ => if k < 9 then 0 else 1) (fun i => samplePictures.getD i (0, 0))
    (.boot samplePictures)
    ⟨by decide, by decide, fun _ _ => ⟨rfl, rfl⟩, by decide, fun _ => rfl⟩ fun k i => by
      by_cases hk : k < 9
      · exact Or.inl (if_pos hk)
      · exact Or.inr (Or.inl (if_neg hk))
  exact ⟨run, hrun, hperm⟩

end HandlingRobot
