import HandlingRobot.Search.NoTrans
import HandlingRobot.Tour.Greedy

/-! # The path store of the tour planners

The waypoints of a leg are kept under a path number of its own. There is room for 60 path numbers
and for 103 waypoints each. The greedy planner needs two legs for a picture it leaves, three at the
upper side; `run_twice1` needs one leg for a picture and `run_twice2` two.

* **`runTwice1`**, **`runTwice2`** — the planner that goes to all pictures twice.
* **`Planner.Stored`** — the invariant: the first `k` path numbers hold short legs, the others
  nothing; **`Planner.Stored.leg`** — what a leg adds.
* **`greedyTour_stored`**, **`runTwice_stored`** — how many path numbers a run uses.
* **`tours_within_store`** — when they are enough. -/

namespace HandlingRobot

/-! ## The runs -/

/-- `N << 1`, the number of paths there is room for. -/
def pathRoom : ℕ := 60

/-- `NUM`, the number of waypoints there is room for on a path. -/
def pointRoom : ℕ := 103

/-- A run of the greedy planner: `to_first`, `pic_num - 1` calls of `to_next` and `go_home`, the
classes before call `i` being `clas i`. -/
def greedyTour (atan : ℚ → ℚ) (cls : ℕ → ℤ) (clas : ℕ → ℕ → ℤ) (s : Planner) : Option Planner :=
  (greedyRun atan cls clas (s.picNum - 1) s).bind fun t =>
    goHome atan { t with clas := clas (s.picNum - 1) }

/-- `run_twice1` up to the tour `ant(20, 50, n - 1, 0, 0, 2)`. -/
def twiceLoad (rand : ℕ → ℕ) (s : Planner) : Option Planner := do
  let s := s.loadPoints
  let colony ← initTag 0 s.toColony
  let (colony, _) ← ant rand 20 50 (colony.n - 1 : ℕ) 0 0 2 colony
  some { s with toColony := colony }

/-- The legs along the first `k` steps of the tour `path[0]`. -/
def layTour (s : Planner) : ℕ → Planner
  | 0 => s
  | i + 1 =>
      let s := layTour s i
      s.leg (s.px (s.path 0 i)) (s.py (s.path 0 i)) (s.px (s.path 0 (i + 1)))
        (s.py (s.path 0 (i + 1)))

/-- `run_twice1` from the tour on: the legs, and `lstpos`. -/
def layTwice (s : Planner) : Planner × ℕ :=
  let s := layTour s (s.n - 1)
  (s, s.path 0 (s.n - 1))

/-- **`run_twice1`.** -/
def runTwice1 (rand : ℕ → ℕ) (s : Planner) : Option (Planner × ℕ) := do
  let s ← twiceLoad rand s
  some (layTwice s)

/-- The two legs of `run_twice2` from picture `i` over its drop-off point to `(x2, y2)`. -/
def layDetour (i : ℕ) (x2 y2 : ℤ) (s : Planner) : Option Planner := do
  let (colony, _) ← s.toColony.calcTag (s.px i) (s.py i) x2 y2 (s.clas i)
  let s := { s with toColony := colony }
  let s := s.leg (s.px i) (s.py i) s.tmp.1 s.tmp.2
  some (s.leg s.tmp.1 s.tmp.2 x2 y2)

/-- The tour of `run_twice2`: `--n`, and `ant(20, 50, lstpos, 1, 1, 2)` on the detours. -/
def twiceLoad2 (rand : ℕ → ℕ) (lstpos : ℕ) (s : Planner) : Option Planner := do
  let s := { s with n := s.n - 1 }
  let colony ← initTag 2 s.toColony
  let (colony, _) ← ant rand 20 50 lstpos 1 1 2 colony
  some { s with toColony := colony }

/-- **`run_twice2`.** -/
def runTwice2 (rand : ℕ → ℕ) (lstpos : ℕ) (s : Planner) : Option Planner := do
  let s ← twiceLoad2 rand lstpos s
  let s ← forLoop 0 (s.n - 1) (fun i s =>
    layDetour (s.path 1 i) (s.px (s.path 1 (i + 1))) (s.py (s.path 1 (i + 1))) s) s
  let s ← layDetour (s.path 1 (s.n - 1)) 0 0 s
  some (if s.clas (s.path 1 (s.n - 1)) = 0 then { s with numPath := s.numPath - 1 } else s)

/-- The rest of a run of both, from the tour of `run_twice1` on; the classes are read in between. -/
def runTwice (rand : ℕ → ℕ) (clas : ℕ → ℤ) (s : Planner) : Option Planner :=
  let (s, lstpos) := layTwice s
  runTwice2 rand lstpos { s with clas := clas }

/-! ## The store -/

/-- **The first `k` paths hold legs of fewer than `NUM` waypoints**, the others nothing. -/
structure Planner.Stored (k : ℕ) (s : Planner) : Prop where
  numPath : s.numPath = k
  used : ∀ num < k, 1 ≤ s.pathTot num ∧ s.pathTot num < pointRoom
  fresh : ∀ num, k ≤ num → s.pathTot num = 0

/-- The path numbers used by a run fit into the store. -/
def Planner.FitsPaths (s : Planner) : Prop := ∀ num, s.pathTot num ≠ 0 → num < pathRoom

/-- The waypoints of each path fit into the store. -/
def Planner.FitsPoints (s : Planner) : Prop := ∀ num, s.pathTot num < pointRoom

theorem Planner.Stored.fitsPaths_iff {k : ℕ} {s : Planner} (h : s.Stored k) :
    s.FitsPaths ↔ k ≤ pathRoom := by
  constructor
  · intro hfits
    by_contra hk
    have hused := (h.used pathRoom (not_le.mp hk)).1
    exact lt_irrefl _ (hfits pathRoom (Nat.one_le_iff_ne_zero.mp hused))
  · intro hk num hnum
    by_contra hout
    exact hnum (h.fresh num (by omega))

theorem Planner.Stored.fitsPoints {k : ℕ} {s : Planner} (h : s.Stored k) : s.FitsPoints := by
  intro num
  rcases Nat.lt_or_ge num k with hlt | hge
  · exact (h.used num hlt).2
  · rw [h.fresh num hge]
    decide

/-- Points that one leg can join. -/
def InReach (x0 y0 x1 y1 : ℤ) : Prop :=
  (-1000 ≤ x0 - x1 ∧ x0 - x1 ≤ 1000) ∧ -1000 ≤ y0 - y1 ∧ y0 - y1 ≤ 1000

/-- **A leg between near points is short.** -/
theorem InReach.pieceCount_lt {x0 y0 x1 y1 : ℤ} (h : InReach x0 y0 x1 y1) :
    pieceCount (x1 - x0) (y1 - y0) pieceStep < pointRoom := by
  obtain ⟨⟨hx0, hx1⟩, hy0, hy1⟩ := h
  have hx : (x1 - x0) * (x1 - x0) ≤ 1000 * 1000 := by nlinarith
  have hy : (y1 - y0) * (y1 - y0) ≤ 1000 * 1000 := by nlinarith
  have hsum : ((x1 : ℚ) - x0) * (x1 - x0) + (y1 - y0) * (y1 - y0) ≤ 2000000 := by
    exact_mod_cast (by omega : (x1 - x0) * (x1 - x0) + (y1 - y0) * (y1 - y0) ≤ 2000000)
  have hnn : 0 ≤ ((x1 : ℚ) - x0) * (x1 - x0) + (y1 - y0) * (y1 - y0) :=
    add_nonneg (mul_self_nonneg _) (mul_self_nonneg _)
  have hstep : pieceStep * pieceStep = 225 := by norm_num [pieceStep]
  unfold pieceCount
  rw [hstep]
  have hfloor : ⌊(((x1 : ℚ) - x0) * (x1 - x0) + (y1 - y0) * (y1 - y0)) / 225⌋₊ < 102 * 102 := by
    rw [Nat.floor_lt (div_nonneg hnn (by norm_num)), div_lt_iff₀ (by norm_num)]
    push_cast
    linarith
  exact Nat.succ_lt_succ (Nat.sqrt_lt.mpr hfloor)

/-- **A leg between near points** uses one more path. -/
theorem Planner.Stored.leg {k : ℕ} {s : Planner} (h : s.Stored k) {x0 y0 x1 y1 : ℤ}
    (hnear : InReach x0 y0 x1 y1) : (s.leg x0 y0 x1 y1).Stored (k + 1) := by
  have hnum := h.numPath
  have htot := s.leg_pathTot x0 y0 x1 y1
  rw [hnum, h.fresh k le_rfl, Nat.zero_add] at htot
  have hother : ∀ num, num ≠ k → (s.leg x0 y0 x1 y1).pathTot num = s.pathTot num := fun num hne =>
    (Planner.leg_other (hnum.symm ▸ hne) x0 y0 x1 y1).2.2
  refine ⟨by rw [Planner.leg_numPath, hnum], fun num hlt => ?_, fun num hge => ?_⟩
  · rcases (by omega : num < k ∨ num = k) with hold | rfl
    · rw [hother num hold.ne]
      exact h.used num hold
    · rw [htot]
      exact ⟨Nat.succ_pos _, hnear.pieceCount_lt⟩
  · rw [hother num (by omega)]
    exact h.fresh num (by omega)

/-! ## The greedy planner -/

/-- The legs of a call of `to_next`. -/
def callLegs (tag : ℤ) : ℕ := if tag = 1 then 3 else 2

theorem Planner.Stored.shiftTmp {k : ℕ} {s : Planner} (h : s.Stored k) (d : ℤ) :
    (s.shiftTmp d).Stored k := ⟨h.numPath, h.used, h.fresh⟩

theorem Planner.Stored.shiftX {k : ℕ} {s : Planner} (h : s.Stored k) (i : ℕ) (d : ℤ) :
    (s.shiftX i d).Stored k := ⟨h.numPath, h.used, h.fresh⟩

theorem Planner.Stored.shiftY {k : ℕ} {s : Planner} (h : s.Stored k) (i : ℕ) (d : ℤ) :
    (s.shiftY i d).Stored k := ⟨h.numPath, h.used, h.fresh⟩

theorem layOn_stored {k : ℕ} {s : Planner} (h : s.Stored k) {lstCheck : ℤ}
    (hcheck : 0 ≤ lstCheck ∧ lstCheck ≤ 2) (htmp : DropOff s.tmp)
    (hnxt : InField (s.px s.nxttt) (s.py s.nxttt)) : (layOn lstCheck s).Stored (k + 1) := by
  obtain ⟨hx, hy⟩ := hnxt
  obtain ⟨htx, hty⟩ := htmp
  unfold layOn
  apply (h.shiftY s.nxttt (-(lstCheck * yawDis))).leg
  simp only [Planner.shiftY_frame, Function.update_self, yawDis, InReach]
  omega

theorem layDown_stored (atan : ℚ → ℚ) {k : ℕ} {s : Planner} (h : s.Stored k) (htmp : DropOff s.tmp)
    (hnxt : InField (s.px s.nxttt) (s.py s.nxttt)) : (layDown atan s).Stored (k + 2) := by
  obtain ⟨hx, hy⟩ := hnxt
  obtain ⟨htx, hty⟩ := htmp
  unfold layDown
  dsimp only
  generalize hhori : (if s.px s.nxttt ≤ s.tmp.1 then (20 : ℤ) else -20) = horiDis
  have hhori' : -20 ≤ horiDis ∧ horiDis ≤ 20 := by
    rw [← hhori]
    split_ifs <;> decide
  have hcheck := checkYaw_le_two atan s.tmp.1 s.tmp.2 (s.px s.nxttt + horiDis) (s.py s.nxttt)
  generalize checkYaw atan s.tmp.1 s.tmp.2 (s.px s.nxttt + horiDis) (s.py s.nxttt) = check
    at hcheck ⊢
  apply Planner.Stored.shiftX
  apply Planner.Stored.leg
  · apply (h.shiftY s.nxttt (-((check : ℤ) * yawDis))).leg
    simp only [Planner.shiftY_frame, Function.update_self, yawDis, InReach]
    omega
  · -- the second leg is as short as the step to the side
    simp only [Planner.leg_px, Planner.leg_py, Planner.leg_nxttt, Planner.leg_tmp,
      Planner.shiftY_frame, InReach]
    split_ifs <;> omega

/-- **The legs of `to_next`** from a picture to another one. -/
theorem layOver_stored (atan : ℚ → ℚ) {k : ℕ} {s : Planner} (h : s.Stored k)
    (hhere : InField (s.px s.lsttt) (s.py s.lsttt)) (htmp : DropOff s.tmp)
    (hnxt : InField (s.px s.nxttt) (s.py s.nxttt)) :
    (layOver atan s).Stored (k + callLegs (s.clas s.lsttt)) := by
  have hcheck := checkYaw_le_two atan (s.px s.lsttt) (s.py s.lsttt) s.tmp.1 s.tmp.2
  unfold layOver
  dsimp only
  generalize checkYaw atan (s.px s.lsttt) (s.py s.lsttt) s.tmp.1 s.tmp.2 = check at hcheck ⊢
  -- the leg to the drop-off point, which the yaw may move
  have hfirst : ((s.shiftTmp (-((check : ℤ) * yawDis))).leg (s.px s.lsttt) (s.py s.lsttt)
      s.tmp.1 (s.tmp.2 + -((check : ℤ) * yawDis))).Stored (k + 1) := by
    apply (h.shiftTmp _).leg
    obtain ⟨hx, hy⟩ := hhere
    obtain ⟨htx, hty⟩ := htmp
    simp only [yawDis, InReach]
    omega
  generalize hu : (((s.shiftTmp (-((check : ℤ) * yawDis))).leg _ _ _ _).shiftTmp
    ((check : ℤ) * yawDis)) = u
  have hustored : u.Stored (k + 1) := by
    rw [← hu]
    exact hfirst.shiftTmp _
  have hframe : u.px = s.px ∧ u.py = s.py ∧ u.nxttt = s.nxttt ∧
      u.clas u.lsttt = s.clas s.lsttt ∧ u.tmp = s.tmp := by
    rw [← hu]
    simp
  obtain ⟨hpx, hpy, hnxttt, hclas, htmp'⟩ := hframe
  rw [← htmp'] at htmp
  rw [← hpx, ← hpy, ← hnxttt] at hnxt
  rw [hclas]
  -- then the legs to the next picture, two more from the upper side
  have hlast : (if s.clas s.lsttt ≠ 1 then layOn check u else layDown atan u).Stored
      (k + callLegs (s.clas s.lsttt)) := by
    unfold callLegs
    by_cases hone : s.clas s.lsttt = 1
    · rw [if_neg (not_not.mpr hone), if_pos hone]
      exact layDown_stored atan hustored htmp hnxt
    · rw [if_pos hone, if_neg hone]
      exact layOn_stored hustored (by omega) htmp hnxt
  exact ⟨hlast.numPath, hlast.used, hlast.fresh⟩

/-- **A call of `to_next`.** -/
theorem toNext_stored (atan : ℚ → ℚ) {k : ℕ} {s t : Planner} (h : s.Stored k) (hs : s.Placeable)
    (hrest : ∃ i < s.n, s.vis i = false) (ht : toNext atan s = some t) :
    t.Stored (k + callLegs (s.clas s.lsttt)) ∧ t.nxttt = t.lsttt := by
  obtain ⟨i, p, ⟨⟨hi, hvis⟩, -⟩, hp, hnext⟩ := toNext_eq atan hs hrest
  obtain rfl := Option.some.inj (hnext.symm.trans ht)
  obtain ⟨hshift, hlst⟩ := layOver_shifted atan { s with
    tmp := p, vis := Function.update s.vis i true, nxttt := i }
  refine ⟨?_, hshift.nxttt.trans hlst.symm⟩
  apply layOver_stored atan (s := { s with
    tmp := p, vis := Function.update s.vis i true, nxttt := i })
  · exact ⟨h.numPath, h.used, h.fresh⟩
  · exact hs.here
  · exact hp
  · exact hs.unseen i hi hvis

theorem layHome_stored (atan : ℚ → ℚ) {k : ℕ} {s : Planner} (h : s.Stored k)
    (hnxt : InField (s.px s.nxttt) (s.py s.nxttt)) (htmp : DropOff s.tmp) :
    (layHome atan s).Stored (k + 2) := by
  have hcheck := checkYaw_le_two atan (s.px s.nxttt) (s.py s.nxttt) s.tmp.1 s.tmp.2
  obtain ⟨hx, hy⟩ := hnxt
  obtain ⟨htx, hty⟩ := htmp
  unfold layHome
  dsimp only
  generalize checkYaw atan (s.px s.nxttt) (s.py s.nxttt) s.tmp.1 s.tmp.2 = check at hcheck ⊢
  have hfirst := h.shiftTmp (-((check : ℤ) * yawDis))
  have hlegs : (((s.shiftTmp (-((check : ℤ) * yawDis))).leg (s.px s.nxttt) (s.py s.nxttt) s.tmp.1
      (s.tmp.2 + -((check : ℤ) * yawDis))).leg s.tmp.1 (s.tmp.2 + -((check : ℤ) * yawDis)) 5
      0).Stored (k + 2) := by
    apply Planner.Stored.leg
    · apply hfirst.leg
      simp only [yawDis, InReach]
      omega
    · simp only [yawDis, InReach]
      omega
  simp only [Planner.leg_tmp, Planner.shiftTmp_frame]
  exact ⟨hlegs.numPath, hlegs.used, hlegs.fresh⟩

/-- **A call of `go_home`** from a picture. -/
theorem goHome_stored (atan : ℚ → ℚ) {k : ℕ} {s : Planner} (h : s.Stored k)
    (hhere : InField (s.px s.nxttt) (s.py s.nxttt)) (hside : IsSide (s.clas s.nxttt))
    (hnxt : s.nxttt < s.n) : ∃ t, goHome atan s = some t ∧ t.Stored (k + 2) := by
  have hstart : InField 0 0 := by
    unfold InField
    decide
  obtain ⟨p, d, heq, hp, -, -⟩ := calcTag_detour hhere hstart hside
  unfold goHome
  simp only [Function.update_of_ne hnxt.ne]
  rw [Colony.calcTag_of heq]
  refine ⟨_, rfl, layHome_stored atan ⟨h.numPath, h.used, h.fresh⟩ ?_ hp⟩
  simp only [Function.update_of_ne hnxt.ne]
  exact hhere

/-- The calls of `to_next` among the first `k` ones that leave a picture of the upper side. -/
def topCalls (clas : ℕ → ℕ → ℤ) (run : ℕ → Planner) (k : ℕ) : ℕ :=
  (List.range k).countP fun i => clas i (run i).lsttt = 1

theorem topCalls_succ (clas : ℕ → ℕ → ℤ) (run : ℕ → Planner) (k : ℕ) :
    2 * (k + 1) + 1 + topCalls clas run (k + 1) =
      2 * k + 1 + topCalls clas run k + callLegs (clas k (run k).lsttt) := by
  unfold topCalls callLegs
  rw [List.range_succ, List.countP_append]
  by_cases h : clas k (run k).lsttt = 1
  · simp [h]
    omega
  · simp [h]
    omega

/-- **`to_first`** lays one leg. -/
theorem toFirst_stored {pos : ℕ → ℤ × ℤ} {s : Planner} (h : s.OnMap pos) (hs : s.Stored 0)
    (cls : ℕ → ℤ) : (toFirst cls s).Stored 1 := by
  obtain ⟨i, hi, -, hfirst⟩ := toFirst_greedy h cls
  obtain ⟨hx, hy⟩ := (hfirst (fun _ => i) rfl).here
  unfold toFirst at hx hy ⊢
  simp only [Planner.leg_px, Planner.leg_py, Planner.leg_lsttt] at hx hy
  dsimp only
  apply Planner.Stored.leg (k := 0)
  · exact ⟨hs.numPath, hs.used, hs.fresh⟩
  · unfold InReach
    omega

/-- **The path numbers up to picture `k`**: one for the first picture, two or three for every call
of `to_next`, which sets `nxttt` as well. -/
theorem greedyRun_stored (atan : ℚ → ℚ) {cls : ℕ → ℤ} {clas : ℕ → ℕ → ℤ} {pos : ℕ → ℤ × ℤ}
    {s : Planner} {run : ℕ → Planner} (h : s.OnMap pos) (hs : s.Stored 0)
    (hclas : ∀ k i, IsSide (clas k i)) (hrun0 : run 0 = toFirst cls s)
    (hgreedy : ∀ k < s.picNum, (run k).Greedy pos s.picNum (k + 1) fun k => (run k).lsttt)
    (hnext : ∀ k, k + 1 < s.picNum →
      HandlingRobot.toNext atan { run k with clas := clas k } = some (run (k + 1))) (k : ℕ) :
    k < s.picNum → (run k).Stored (2 * k + 1 + topCalls clas run k) ∧
      (1 ≤ k → (run k).nxttt = (run k).lsttt) := by
  induction k with
  | zero =>
      intro _
      refine ⟨?_, fun hk => absurd hk (by decide)⟩
      rw [hrun0]
      exact toFirst_stored h hs cls
  | succ k ih =>
      intro hk
      obtain ⟨hk', -⟩ := ih (by omega)
      have hat := hgreedy k (by omega)
      have hcall := toNext_stored atan (s := { run k with clas := clas k })
        ⟨hk'.numPath, hk'.used, hk'.fresh⟩ (hat.placeable h.cell (hclas k))
        (hat.exists_unseen hk) (hnext k hk)
      rw [topCalls_succ]
      exact ⟨hcall.1, fun _ => hcall.2⟩

/-- **The path numbers of a run of the greedy planner**: those of the pictures, and two for the way
home. -/
theorem greedyTour_stored (atan : ℚ → ℚ) (cls : ℕ → ℤ) (clas : ℕ → ℕ → ℤ) {pos : ℕ → ℤ × ℤ}
    {s : Planner} (h : s.OnMap pos) (hs : s.Stored 0) (hnxttt : s.nxttt = 0)
    (hclas : ∀ k i, IsSide (clas k i)) :
    ∃ run t, (∀ k < s.picNum, greedyRun atan cls clas k s = some (run k)) ∧
      greedyTour atan cls clas s = some t ∧
      t.Stored (2 * s.picNum + 1 + topCalls clas run (s.picNum - 1)) := by
  obtain ⟨run, hrun0, hstate, hnext⟩ := greedyRun_states atan cls clas h hclas
  have hpos := h.picNum_pos
  have hlast : s.picNum - 1 < s.picNum := by omega
  obtain ⟨hlaid, hcall⟩ :=
    greedyRun_stored atan h hs hclas hrun0 (fun k hk => (hstate k hk).2) hnext _ hlast
  obtain ⟨hrun, hgreedy⟩ := hstate _ hlast
  -- `nxttt` is the current picture: `to_next` has set it, or there is only one picture
  have hcur : (run (s.picNum - 1)).nxttt = (run (s.picNum - 1)).lsttt := by
    rcases Nat.lt_or_ge 1 s.picNum with hmany | hone
    · exact hcall (by omega)
    · have hzero : s.picNum - 1 = 0 := by omega
      have hlst := hgreedy.tour.lt (s.picNum - 1) (Nat.lt_succ_self _)
      rw [hzero, hrun0] at hlst ⊢
      have hkeep : (toFirst cls s).nxttt = s.nxttt := by
        unfold toFirst
        simp only [Planner.leg_nxttt]
      rw [hkeep, hnxttt]
      omega
  have hhome := goHome_stored atan (s := { run (s.picNum - 1) with clas := clas (s.picNum - 1) })
    ⟨hlaid.numPath, hlaid.used, hlaid.fresh⟩ ?_ (hclas _ _) ?_
  · obtain ⟨t, ht, htstored⟩ := hhome
    refine ⟨run, t, fun k hk => (hstate k hk).1, ?_, ?_⟩
    · unfold greedyTour
      rw [hrun]
      exact ht
    · have hsum : 2 * s.picNum + 1 + topCalls clas run (s.picNum - 1) =
          2 * (s.picNum - 1) + 1 + topCalls clas run (s.picNum - 1) + 2 := by omega
      rw [hsum]
      exact htstored
  · dsimp only
    rw [hcur]
    exact hgreedy.here
  · dsimp only
    rw [hcur, hgreedy.n]
    exact hgreedy.tour.lt (s.picNum - 1) (Nat.lt_succ_self _)

/-! ## The planner that goes to all pictures twice -/

/-- **What the ants of `run_twice1` leave**: the points, and a tour whose entries after the first
one are pictures. -/
structure Planner.Toured (s u : Planner) : Prop where
  n : u.n = s.picNum + 1
  px : u.px = s.loadPoints.px
  py : u.py = s.loadPoints.py
  pathTot : u.pathTot = s.pathTot
  numPath : u.numPath = s.numPath
  start : u.path 0 0 = s.picNum
  pic : ∀ k, 1 ≤ k → k ≤ s.picNum → u.path 0 k < s.picNum

/-- A picture on the map, as a point of the field, is not the start of the car. -/
theorem Planner.OnMap.inField {pos : ℕ → ℤ × ℤ} {s : Planner} (h : s.OnMap pos) {i : ℕ}
    (hi : i < s.picNum) : InField (s.loadPoints.px i) (s.loadPoints.py i) ∧
      ¬ (s.loadPoints.px i = 0 ∧ s.loadPoints.py i = 0) := by
  obtain ⟨hx, hy⟩ := Planner.loadPoints_pic hi
  obtain ⟨hpx, hpy⟩ := h.at_pos i hi
  obtain ⟨hX, hY⟩ := h.cell i hi
  rw [hpx] at hx
  rw [hpy] at hy
  unfold InField
  omega

theorem inField_start : InField 0 0 := by
  unfold InField
  decide

/-- The points of the tour lie in the field. -/
theorem Planner.Toured.inField {pos : ℕ → ℤ × ℤ} {s u : Planner} (h : s.Toured u) (hs : s.OnMap pos)
    {k : ℕ} (hk : k ≤ s.picNum) : InField (u.px (u.path 0 k)) (u.py (u.path 0 k)) := by
  rw [h.px, h.py]
  rcases Nat.eq_zero_or_pos k with rfl | hpos
  · rw [h.start, (Planner.loadPoints_start s).1, (Planner.loadPoints_start s).2]
    exact inField_start
  · exact (hs.inField (h.pic k hpos hk)).1

/-- Points of the field can be joined by one leg. -/
theorem InField.inReach {x0 y0 x1 y1 : ℤ} (h0 : InField x0 y0) (h1 : InField x1 y1) :
    InReach x0 y0 x1 y1 := by
  unfold InField at h0 h1
  unfold InReach
  omega

/-- **The legs of `run_twice1`**, one for every step of the tour. -/
theorem layTour_stored {u : Planner} {j : ℕ} (h : u.Stored j) (k : ℕ)
    (hpic : ∀ i ≤ k, InField (u.px (u.path 0 i)) (u.py (u.path 0 i))) :
    (layTour u k).Stored (j + k) ∧ (layTour u k).px = u.px ∧ (layTour u k).py = u.py ∧
      (layTour u k).path = u.path ∧ (layTour u k).n = u.n := by
  induction k with
  | zero => exact ⟨h, rfl, rfl, rfl, rfl⟩
  | succ k ih =>
      obtain ⟨hstored, hpx, hpy, hpath, hn⟩ := ih fun i hi => hpic i (by omega)
      refine ⟨?_, (Planner.leg_px _ _ _ _ _).trans hpx, (Planner.leg_py _ _ _ _ _).trans hpy,
        (Planner.leg_path _ _ _ _ _).trans hpath, (Planner.leg_n _ _ _ _ _).trans hn⟩
      apply hstored.leg
      rw [hpx, hpy, hpath]
      exact (hpic k (by omega)).inReach (hpic (k + 1) le_rfl)

/-- **The two legs of a detour** succeed from a picture of the field. -/
theorem layDetour_stored {k : ℕ} {s : Planner} (i : ℕ) (x2 y2 : ℤ) (h : s.Stored k)
    (hi : InField (s.px i) (s.py i)) (h2 : InField x2 y2) (hside : IsSide (s.clas i)) :
    Yields (layDetour i x2 y2 s) fun t => t.Stored (k + 2) ∧ t.px = s.px ∧ t.py = s.py ∧
      t.path = s.path ∧ t.n = s.n ∧ t.clas = s.clas := by
  obtain ⟨p, d, heq, hp, -, -⟩ := calcTag_detour hi h2 hside
  unfold layDetour
  rw [Colony.calcTag_of heq]
  refine ⟨_, rfl, ?_, by simp, by simp, by simp, by simp, by simp⟩
  obtain ⟨hx, hy⟩ := hi
  obtain ⟨hx2, hy2⟩ := h2
  obtain ⟨hpx, hpy⟩ := hp
  apply Planner.Stored.leg
  · apply Planner.Stored.leg (k := k)
    · exact ⟨h.numPath, h.used, h.fresh⟩
    · unfold InReach
      dsimp only
      omega
  · unfold InReach
    simp only [Planner.leg_tmp]
    omega

/-- **The distances of `init_tag(2)`** are defined for pictures of the field off the start. -/
theorem measured_two {c : Colony} (hpic : ∀ i < c.n, InField (c.px i) (c.py i) ∧
    ¬ (c.px i = 0 ∧ c.py i = 0)) (hside : ∀ i, IsSide (c.clas i)) : c.Measured 2 := by
  intro t ht i hi j hj _
  obtain ⟨hin, hcorner⟩ := hpic i hi
  obtain ⟨p, d, heq, -, -, hone⟩ := calcTag_detour hin (hpic j hj).1 (hside i)
  rw [← ht.px, ← ht.py, ← ht.clas] at heq
  exact ⟨p, d, Colony.calcTag_of heq t, hone hcorner⟩

/-- **The tour of `run_twice2`** leads through all pictures. -/
theorem twiceLoad2_yields (rand : ℕ → ℕ) {lstpos : ℕ} {s : Planner} (hlst : lstpos < s.n - 1)
    (hpic : ∀ i < s.n - 1, InField (s.px i) (s.py i) ∧ ¬ (s.px i = 0 ∧ s.py i = 0))
    (hside : ∀ i, IsSide (s.clas i)) :
    Yields (twiceLoad2 rand lstpos s) fun t => t.px = s.px ∧ t.py = s.py ∧ t.n = s.n - 1 ∧
      t.clas = s.clas ∧ t.pathTot = s.pathTot ∧ t.numPath = s.numPath ∧
      ∀ k < s.n - 1, t.path 1 k < s.n - 1 := by
  have hmeasured : ({ s.toColony with n := s.n - 1 } : Colony).Measured 2 := measured_two hpic hside
  refine (initTag_yields hmeasured).bind ?_
  rintro c ⟨hframe, hok⟩
  have hn : c.n = s.n - 1 := hframe.n
  have hsafe : ∀ k < c.n, (k = lstpos → c.n = 1) → c.ClosesSafely 2 1 k := by
    intro k hk _
    refine Or.inr ⟨fun h => absurd h.1 (by decide), fun _ => ?_⟩
    rw [hframe.px, hframe.py, hframe.clas]
    exact (tagDenominator_pos (hpic k (hn ▸ hk)).1 inField_start (hside k)).ne'
  have hant := ant_yields rand 50 20 lstpos 2 1 1 hok (by decide) (by decide)
    (hn.symm ▸ hlst) (by decide) hsafe
  refine hant.bind ?_
  rintro ⟨d, len⟩ ⟨hpx, hpy, hdn, hclas, htour, -⟩
  refine yields_some ⟨hpx.trans hframe.px, hpy.trans hframe.py, hdn.trans hn,
    hclas.trans hframe.clas, rfl, rfl, fun k hk => ?_⟩
  have hlt := htour.partialTour.lt k (hn.symm ▸ hk)
  rwa [hn] at hlt

/-- **The detours between the pictures** of the second tour, two path numbers each. -/
theorem layDetours_stored {p : ℕ} {w : Planner} (hw : w.Stored p) (hn : w.n = p)
    (hfield : ∀ k < p, InField (w.px (w.path 1 k)) (w.py (w.path 1 k)))
    (hside : ∀ i, IsSide (w.clas i)) :
    Yields (forLoop 0 (w.n - 1) (fun i s => layDetour (s.path 1 i)
      (s.px (s.path 1 (i + 1))) (s.py (s.path 1 (i + 1))) s) w) fun t =>
      t.Stored (p + 2 * (p - 1)) ∧ t.px = w.px ∧ t.py = w.py ∧ t.path = w.path ∧ t.n = p ∧
        t.clas = w.clas := by
  rw [hn]
  refine forLoop_yields (I := fun i (t : Planner) => t.Stored (p + 2 * i) ∧ t.px = w.px ∧
    t.py = w.py ∧ t.path = w.path ∧ t.n = p ∧ t.clas = w.clas) (Nat.zero_le _)
    ⟨hw, rfl, rfl, rfl, hn, rfl⟩ ?_
  rintro i t - hi ⟨ht, htx, hty, htpath, htn, htclas⟩
  have hdetour := layDetour_stored (t.path 1 i) (t.px (t.path 1 (i + 1)))
    (t.py (t.path 1 (i + 1))) ht
  rw [htx, hty, htpath, htn, htclas] at hdetour
  rw [htx, hty, htpath]
  exact hdetour (hfield i (by omega)) (hfield (i + 1) (by omega)) (hside _)

/-- **The path numbers of both runs**: one for every picture, and two for every picture. -/
theorem runTwice_stored (rand : ℕ → ℕ) {clas : ℕ → ℤ} {pos : ℕ → ℤ × ℤ} {s u : Planner}
    (h : s.OnMap pos) (hs : s.Stored 0) (hu : s.Toured u) (hside : ∀ i, IsSide (clas i)) :
    ∃ t, runTwice rand clas u = some t ∧ ∃ v : Planner,
      v.Stored (3 * s.picNum) ∧ t.pathTot = v.pathTot := by
  have hpos := h.picNum_pos
  have hn : u.n - 1 = s.picNum := by rw [hu.n, Nat.add_sub_cancel]
  have hu0 : u.Stored 0 := by
    refine ⟨hu.numPath.trans hs.numPath, fun _ hnum => absurd hnum (Nat.not_lt_zero _), ?_⟩
    intro num hnum
    rw [hu.pathTot]
    exact hs.fresh num hnum
  obtain ⟨hstored, hpx, hpy, hpath, hvn⟩ :=
    layTour_stored hu0 (u.n - 1) fun i hi => hu.inField h (hn ▸ hi)
  unfold runTwice layTwice
  dsimp only
  generalize layTour u (u.n - 1) = v at hstored hpx hpy hpath hvn ⊢
  rw [hn, Nat.zero_add] at hstored
  have hvn' : v.n - 1 = s.picNum := by rw [hvn, hn]
  have hlst : v.path 0 (v.n - 1) < v.n - 1 := by
    rw [hvn', hpath]
    exact hu.pic s.picNum hpos le_rfl
  have hpic : ∀ i < v.n - 1, InField (v.px i) (v.py i) ∧ ¬ (v.px i = 0 ∧ v.py i = 0) := by
    intro i hi
    rw [hpx, hpy, hu.px, hu.py]
    exact h.inField (hvn' ▸ hi)
  have hload := twiceLoad2_yields rand (s := { v with clas := clas }) hlst hpic hside
  refine Yields.bind (o := twiceLoad2 rand (v.path 0 (v.n - 1)) { v with clas := clas }) hload ?_
  rintro w ⟨hwx, hwy, hwn, hwclas, hwtot, hwnum, hwpath⟩
  dsimp only at hwx hwy hwn hwclas hwtot hwnum hwpath
  rw [hvn'] at hwn hwpath
  -- every entry of the tour is a picture, and its class is known
  have hfield : ∀ k < s.picNum, InField (w.px (w.path 1 k)) (w.py (w.path 1 k)) := by
    intro k hk
    rw [hwx, hwy]
    exact (hpic _ (hvn'.symm ▸ hwpath k hk)).1
  have hwstored : w.Stored s.picNum :=
    ⟨hwnum.trans hstored.numPath, hwtot ▸ hstored.used, hwtot ▸ hstored.fresh⟩
  have hwside : ∀ i, IsSide (w.clas i) := fun i => hwclas ▸ hside i
  refine (layDetours_stored hwstored hwn hfield hwside).bind ?_
  rintro t ⟨ht, htx, hty, htpath, htn, htclas⟩
  have hdetour := layDetour_stored (t.path 1 (t.n - 1)) 0 0 ht
  rw [htx, hty, htpath, htn, htclas] at hdetour
  rw [htpath, htn]
  refine (hdetour (hfield _ (by omega)) inField_start (hwside _)).bind ?_
  rintro x ⟨hx, -⟩
  have hsum : s.picNum + 2 * (s.picNum - 1) + 2 = 3 * s.picNum := by omega
  refine yields_some ⟨x, hsum ▸ hx, ?_⟩
  split_ifs <;> rfl

/-- **The tour of `run_twice1`** exists for pictures in different cells. -/
theorem twiceLoad_yields (rand : ℕ → ℕ) {pos : ℕ → ℤ × ℤ} {s : Planner} (h : s.OnMap pos)
    (hdistinct : ∀ i < s.picNum, ∀ j < s.picNum, i ≠ j → pos i ≠ pos j) :
    Yields (twiceLoad rand s) s.Toured := by
  -- the points are distinct, so no distance divides by zero
  have hcells : s.loadPoints.toColony.Distinct := by
    refine points_distinct s.px s.py (fun i hi j hj hij heq => hdistinct i hi j hj hij ?_)
      (fun i hi => Planner.loadPoints_pic hi) (Planner.loadPoints_start s)
    obtain ⟨hix, hiy⟩ := h.at_pos i hi
    obtain ⟨hjx, hjy⟩ := h.at_pos j hj
    rw [hix, hiy, hjx, hjy] at heq
    exact heq
  refine (initTag_yields hcells.measured).bind ?_
  rintro c ⟨hframe, hok⟩
  have hn : c.n = s.picNum + 1 := hframe.n
  have hst : c.n - 1 < c.n := by omega
  have hant := ant_yields rand 50 20 (c.n - 1) 2 0 0 hok (by decide) (by decide) hst (by decide)
    fun k _ _ => Or.inr ⟨fun h => absurd h.1 (by decide), fun h => absurd h.2 (by decide)⟩
  refine hant.bind ?_
  rintro ⟨d, len⟩ ⟨hpx, hpy, hdn, -, htour, -⟩
  dsimp only at htour
  rw [hn, Nat.add_sub_cancel] at htour
  have hpart := htour.partialTour
  refine yields_some ⟨hdn.trans hn, hpx.trans hframe.px, hpy.trans hframe.py, rfl, rfl,
    hpart.start, fun k hk hkp => ?_⟩
  show d.path 0 k < s.picNum
  -- an entry behind the first one is not the start, which is point `pic_num`
  have hlt := hpart.lt k (by omega)
  have hne : d.path 0 k ≠ s.picNum := fun heq =>
    absurd (hpart.inj k (by omega) 0 (by omega) (heq.trans hpart.start.symm)) (by omega)
  omega

/-! ## The store is large enough -/

/-- **When a run of a planner stays within the path store.** For any placement of the pictures, any
classes and any results of `rand()`, both planners succeed and the waypoints of every path fit into
the store. The path numbers fit exactly when there are at most 60 legs: in a run of the greedy
planner two for a picture, one more for every call that leaves a picture of the upper side, and one;
in a run of the other planner three for a picture. -/
theorem tours_within_store (atan : ℚ → ℚ) (rand : ℕ → ℕ) (cls : ℕ → ℤ) (clas : ℕ → ℕ → ℤ)
    (pos : ℕ → ℤ × ℤ) (s : Planner) (h : s.OnMap pos) (hs : s.Stored 0) (hnxttt : s.nxttt = 0)
    (hclas : ∀ k i, IsSide (clas k i)) :
    (∃ run t, (∀ k < s.picNum, greedyRun atan cls clas k s = some (run k)) ∧
      greedyTour atan cls clas s = some t ∧ t.FitsPoints ∧
      (t.FitsPaths ↔ 2 * s.picNum + 1 + topCalls clas run (s.picNum - 1) ≤ pathRoom)) ∧
    (∀ u, s.Toured u → ∃ t, runTwice rand (clas 0) u = some t ∧ t.FitsPoints ∧
      (t.FitsPaths ↔ 3 * s.picNum ≤ pathRoom)) ∧
    ((∀ i < s.picNum, ∀ j < s.picNum, i ≠ j → pos i ≠ pos j) →
      ∃ u, twiceLoad rand s = some u ∧ s.Toured u) := by
  refine ⟨?_, fun u hu => ?_, fun hdistinct => twiceLoad_yields rand h hdistinct⟩
  · obtain ⟨run, t, hrun, ht, hstored⟩ := greedyTour_stored atan cls clas h hs hnxttt hclas
    exact ⟨run, t, hrun, ht, hstored.fitsPoints, hstored.fitsPaths_iff⟩
  · obtain ⟨t, ht, v, hstored, htot⟩ := runTwice_stored rand h hs hu (hclas 0)
    refine ⟨t, ht, ?_, ?_⟩
    · unfold Planner.FitsPoints
      rw [htot]
      exact hstored.fitsPoints
    · unfold Planner.FitsPaths
      rw [htot]
      exact hstored.fitsPaths_iff

/-- The thirteen pictures of the sample map fit, whatever their classes are. -/
theorem samplePictures_within_store :
    (∃ t, greedyTour (fun x => x) (fun _ => 11) (fun _ _ => 1) (.boot samplePictures) = some t ∧
      t.FitsPoints ∧ t.FitsPaths) ∧
    ∃ u t, twiceLoad (fun _ => 0) (.boot samplePictures) = some u ∧
      runTwice (fun _ => 0) (fun _ => 1) u = some t ∧ t.FitsPoints ∧ t.FitsPaths := by
  obtain ⟨⟨run, t, -, ht, hpoints, hiff⟩, htwice, hload⟩ :=
    tours_within_store (fun x => x) (fun _ => 0) (fun _ => 11) (fun _ _ => 1)
      (fun i => samplePictures.getD i (0, 0)) (.boot samplePictures)
      ⟨by decide, by decide, fun _ _ => ⟨rfl, rfl⟩, by decide, fun _ => rfl⟩
      ⟨rfl, by decide, fun _ _ => rfl⟩ rfl fun _ _ => Or.inr (Or.inl rfl)
  obtain ⟨u, hu, htoured⟩ := hload (by decide)
  obtain ⟨v, hv, hvpoints, hviff⟩ := htwice u htoured
  refine ⟨⟨t, ht, hpoints, hiff.mpr ?_⟩, u, v, hu, hv, hvpoints, hviff.mpr (by decide)⟩
  have hcount : topCalls (fun _ _ => 1) run 12 ≤ 12 := by
    unfold topCalls
    exact List.countP_le_length.trans_eq List.length_range
  show 2 * 13 + 1 + topCalls (fun _ _ => 1) run 12 ≤ 60
  omega

/-- As many pictures as the picture search can report, in one row. -/
def rowPictures : List (ℤ × ℤ) := (List.range 24).map fun i => ((i : ℤ) + 1, 1)

/-- **24 pictures need 72 path numbers** when all of them are visited twice. -/
theorem rowPictures_overflow :
    ¬ ∀ (atan : ℚ → ℚ) (rand : ℕ → ℕ) (cls : ℕ → ℤ) (clas : ℕ → ℕ → ℤ) (pos : ℕ → ℤ × ℤ)
      (s : Planner), s.OnMap pos → s.Stored 0 → s.nxttt = 0 → (∀ k i, IsSide (clas k i)) →
      (∀ i < s.picNum, ∀ j < s.picNum, i ≠ j → pos i ≠ pos j) →
      (∃ t, greedyTour atan cls clas s = some t ∧ t.FitsPoints ∧ t.FitsPaths) ∧
      ∃ u t, twiceLoad rand s = some u ∧ runTwice rand (clas 0) u = some t ∧
        t.FitsPoints ∧ t.FitsPaths := by
  intro hall
  have hmap : (Planner.boot rowPictures).OnMap fun i => rowPictures.getD i (0, 0) :=
    ⟨by decide, by decide, fun _ _ => ⟨rfl, rfl⟩, by decide, fun _ => rfl⟩
  have hempty : (Planner.boot rowPictures).Stored 0 := ⟨rfl, by decide, fun _ _ => rfl⟩
  have hside : ∀ k i : ℕ, IsSide ((fun _ _ => 0 : ℕ → ℕ → ℤ) k i) := fun _ _ => Or.inl rfl
  have hdistinct : ∀ i < 24, ∀ j < 24, i ≠ j →
      rowPictures.getD i (0, 0) ≠ rowPictures.getD j (0, 0) := by
    decide +kernel
  obtain ⟨-, u, t, hu, ht, -, hfits⟩ := hall (fun x => x) (fun _ => 0) (fun _ => 1)
    (fun _ _ => 0) _ (.boot rowPictures) hmap hempty rfl hside hdistinct
  have htoured := (twiceLoad_yields (fun _ => 0) hmap hdistinct).of_eq_some hu
  obtain ⟨t', ht', v, hstored, htot⟩ := runTwice_stored (fun _ => 0) hmap hempty htoured (hside 0)
  obtain rfl := Option.some.inj (ht'.symm.trans ht)
  unfold Planner.FitsPaths at hfits
  rw [htot] at hfits
  exact absurd (hstored.fitsPaths_iff.mp hfits) (by decide)

end HandlingRobot
