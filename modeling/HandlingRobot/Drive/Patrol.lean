import HandlingRobot.Drive.Approach
import HandlingRobot.Library.Shuttle

/-! # The patrol

When the car has not found its card, `protect_back` drives it to and fro in motion 11, between 30 cm
before and 30 cm behind the place where `y_pos` is 0, until a photograph shows a card: then it stops
and sets `y_pos` to 0 where it stands. `y_pos` and the direction outlive the patrol, so that a later
one goes on where an earlier one has left them. The loop is closed over the wheels, as in the
approach.

* **`protectBack`** — the function, on numbers of any kind; **`cruise_protectBack`** — on rational
  ones it is the one of the main loop.
* **`patrolStep`** — a callback in motion 11, with what the last photograph has shown.
* **`Patrol.shuttle`** — the patrol as something that moves to and fro.
* **`Trail`** — the patrol with the place of the car, and that where `y_pos` was set to 0 last.
* **`patrol_sweeps`** — it stays within the ends of its line, and visits both of them again and
  again. -/

namespace HandlingRobot

/-! ## The callback -/

section Callback

variable {K : Type*} [Field K] [LinearOrder K] (F : Trig K)

/-- What `protect_back` reads and writes. -/
structure Patrol (K : Type*) where
  /-- The static `x_pos`. -/
  xPos : K
  /-- The static `y_pos`. -/
  yPos : K
  /-- The static `flag`: 0 backwards, 1 forwards. -/
  flag : ℕ
  x : K
  y : K
  z : ℚ
  /-- `car.pic_stop`. -/
  picStop : Bool

/-- **`protect_back`** for the way `(dx, dy)` of the odometry; `isPic` is `car.is_pic`. -/
def protectBack (isPic : Bool) (dx dy : K) (theta : ℚ) (s : Patrol K) : Patrol K :=
  let xPos := s.xPos + dx
  let yPos := s.yPos + dy
  let (x, flag) :=
    match s.flag with
    | 0 => if yPos > (-30 : ℚ) then ((-stdSpeed : ℚ), s.flag) else (s.x, 1)
    | 1 => if yPos < (30 : ℚ) then ((stdSpeed : ℚ), s.flag) else (s.x, 0)
    | _ => (s.x, s.flag)
  let s := { s with xPos, yPos, flag, x, y := 0, z := getTheta theta 0 theta }
  if isPic then { s with x := 0, y := 0, picStop := true, xPos := 0, yPos := 0, flag := 0 } else s

/-- **A callback in motion 11**: what it measures, and `car.is_pic`. -/
def patrolStep (s : Patrol K) (i : Sense × Bool) : Option (Patrol K) :=
  some (protectBack i.2 (odometry F i.1.speed (i.1.theta : K)).1
    (odometry F i.1.speed (i.1.theta : K)).2 i.1.theta s)

/-- The part of the search for a card that the patrol reads and writes. -/
def Cruise.patrol (s : Cruise) : Patrol ℚ := ⟨s.xPos, s.yPos, s.dir, s.x, s.y, s.z, s.picStop⟩

/-- **The callback of the search** is this one. -/
theorem cruise_protectBack (s : Cruise) (dx dy theta : ℚ) :
    (s.protectBack dx dy theta).patrol = protectBack s.isPic dx dy theta s.patrol := by
  obtain ⟨pc, flag, motion, picFlag, isPic, picStop, xPos1, yPos1, xPos, yPos, dir⟩ := s
  rcases dir with _ | _ | dir <;> cases isPic <;> rfl

end Callback

open Real

/-! ## The way of a callback -/

/-- **The way ahead** of a car with the command `x` and none to the side. -/
theorem way_ahead {x : ℝ} {z : ℚ} {speed : Fin 4 → ℤ} {theta : ℚ} (hx : |x| ≤ 30)
    (hfollows : Follows 2 x 0 z speed) (hstraight : Straight theta) :
    |(odometry realTrig speed (theta : ℝ)).2| ≤ 54 / 100 ∧
      ∀ g : ℝ, g = 1 ∨ g = -1 → x = 30 * g →
        37 / 100 ≤ g * (odometry realTrig speed (theta : ℝ)).2 := by
  obtain ⟨hvx, hvy⟩ := hfollows.speeds
  have hoy := (odometry_turned speed theta).2
  have hc := hstraight.le_cos
  have hsc := sin_sq_add_cos_sq ((theta : ℝ) * (31416 / 10000) / 180)
  generalize sin ((theta : ℝ) * (31416 / 10000) / 180) = s at hoy hsc
  generalize cos ((theta : ℝ) * (31416 / 10000) / 180) = c at hoy hsc hc
  generalize (odometry realTrig speed (theta : ℝ)).2 = way at hoy ⊢
  generalize (speedX speed : ℝ) = vx at hvx hoy
  generalize (speedY speed : ℝ) = vy at hvy hoy
  rw [mul_zero, sub_zero] at hvy
  have hc1 : c ≤ 1 := by
    refine (abs_le.mp ((sq_le_one_iff_abs_le_one c).mp ?_)).2
    linarith [sq_nonneg s]
  have hs : |s| ≤ 52 / 100 := by
    refine abs_le_of_sq_le_sq ?_ (by norm_num)
    have hcc := mul_self_le_mul_self (by norm_num) hc
    linarith
  -- what the speed to the side contributes
  have hside : |vy * s| ≤ 163 / 100 := by
    rw [abs_mul]
    calc |vy| * |s| ≤ 155 / 100 * 2 * (52 / 100) :=
          mul_le_mul hvy hs (abs_nonneg s) (by norm_num)
      _ ≤ 163 / 100 := by norm_num
  obtain ⟨hside0, hside1⟩ := abs_le.mp hside
  obtain ⟨hoy0, hoy1⟩ := abs_le.mp (hoy.trans (by linarith : |vy| / 100000 ≤ 1 / 1000))
  obtain ⟨hvx0, hvx1⟩ := abs_le.mp hvx
  obtain ⟨hx0, hx1⟩ := abs_le.mp hx
  have hpos : 0 < c := by linarith
  constructor
  · have hahead : |vx * c| ≤ 5216 / 100 := by
      rw [abs_mul, abs_of_pos hpos]
      calc |vx| * c ≤ 5216 / 100 * 1 :=
            mul_le_mul (abs_le.mpr ⟨by linarith, by linarith⟩) hc1 hpos.le (by norm_num)
        _ = 5216 / 100 := mul_one _
    obtain ⟨hahead0, hahead1⟩ := abs_le.mp hahead
    exact abs_le.mpr ⟨by linarith, by linarith⟩
  · intro g hg hxg
    have hforth : 4564 / 100 ≤ g * vx := by
      rcases hg with rfl | rfl <;> rw [hxg] at hvx0 hvx1 <;> linarith
    have hmul := mul_le_mul hforth hc (by norm_num) (by linarith)
    rcases hg with rfl | rfl <;> linarith

/-! ## The patrol as a shuttle -/

namespace Patrol

/-- The direction it heads for. -/
def heading (s : Patrol ℝ) : ℝ := if s.flag = 0 then -1 else 1

theorem heading_back {s : Patrol ℝ} (h : s.flag = 0) : s.heading = -1 := if_pos h

theorem heading_ahead {s : Patrol ℝ} (h : s.flag = 1) : s.heading = 1 := if_neg (by omega)

/-- The patrol along its line. -/
noncomputable def shuttle (s : Patrol ℝ) : Shuttle ℝ := ⟨s.yPos, s.heading, s.x / (30 : ℚ)⟩

/-- **A steady car** on patrol, while no photograph shows a card. -/
structure Steady (s : Patrol ℝ) (i : Sense × Bool) : Prop where
  follows : Follows 2 s.x s.y s.z i.1.speed
  straight : Straight i.1.theta

/-- **What holds between two callbacks.** -/
structure Sweeps (s : Patrol ℝ) : Prop where
  flag : s.flag = 0 ∨ s.flag = 1
  x : |s.x| ≤ 30
  y : s.y = 0
  shuttle : s.shuttle.Sweeping 30 (54 / 100)

theorem directed_shuttle (s : Patrol ℝ) : s.shuttle.Directed := by
  show s.heading = 1 ∨ s.heading = -1
  unfold heading
  split_ifs
  · exact Or.inr rfl
  · exact Or.inl rfl

/-- **The two branches** without a card: it drives on, or turns. -/
theorem protectBack_cases {s : Patrol ℝ} (h : s.flag = 0 ∨ s.flag = 1) (dx dy : ℝ) (theta : ℚ) :
    ∃ t, protectBack false dx dy theta s = t ∧ t.yPos = s.yPos + dy ∧ t.y = 0 ∧
      (t.flag = 0 ∨ t.flag = 1) ∧
      ((s.heading * t.yPos < 30 ∧ t.heading = s.heading ∧ t.x = 30 * s.heading) ∨
        (30 ≤ s.heading * t.yPos ∧ t.heading = -s.heading ∧ t.x = s.x)) := by
  have hends : ((-30 : ℚ) : ℝ) = -30 ∧ ((30 : ℚ) : ℝ) = 30 := by norm_num
  have hstd : ((-stdSpeed : ℚ) : ℝ) = 30 * -1 ∧ ((stdSpeed : ℚ) : ℝ) = 30 * 1 := by
    norm_num [stdSpeed]
  refine ⟨_, rfl, rfl, rfl, ?_⟩
  rcases h with h | h
  · rw [heading_back h]
    unfold protectBack
    rw [h]
    dsimp only
    rw [hends.1, hstd.1]
    by_cases hbefore : s.yPos + dy > -30
    · rw [if_pos hbefore]
      exact ⟨Or.inl rfl, Or.inl ⟨(show -1 * (s.yPos + dy) < 30 by linarith), heading_back rfl, rfl⟩⟩
    · rw [if_neg hbefore]
      refine ⟨Or.inr rfl, Or.inr ⟨(show 30 ≤ -1 * (s.yPos + dy) by linarith), ?_, rfl⟩⟩
      rw [neg_neg]
      exact heading_ahead rfl
  · rw [heading_ahead h]
    unfold protectBack
    rw [h]
    dsimp only
    rw [hends.2, hstd.2]
    by_cases hbefore : s.yPos + dy < 30
    · rw [if_pos hbefore]
      exact ⟨Or.inr rfl, Or.inl ⟨(show 1 * (s.yPos + dy) < 30 by linarith), heading_ahead rfl, rfl⟩⟩
    · rw [if_neg hbefore]
      exact ⟨Or.inl rfl, Or.inr ⟨(show 30 ≤ 1 * (s.yPos + dy) by linarith), heading_back rfl, rfl⟩⟩

/-- **What a callback does** without a card: it takes the step of a shuttle. -/
theorem Sweeps.callback {s t : Patrol ℝ} {i : Sense × Bool} (h : s.Sweeps) (hsteady : s.Steady i)
    (hcard : i.2 = false) (hstep : patrolStep realTrig s i = some t) :
    s.shuttle.Step 30 (37 / 100) (54 / 100) t.shuttle ∧ (t.flag = 0 ∨ t.flag = 1) ∧ |t.x| ≤ 30 ∧
      t.y = 0 := by
  obtain rfl := Option.some.inj hstep
  have hfollows := hsteady.follows
  rw [h.y] at hfollows
  obtain ⟨hshort, halong⟩ := way_ahead h.x hfollows hsteady.straight
  rw [hcard]
  obtain ⟨t, heq, hpos, hy, hflag, hcases⟩ := protectBack_cases h.flag
    (odometry realTrig i.1.speed (i.1.theta : ℝ)).1
    (odometry realTrig i.1.speed (i.1.theta : ℝ)).2 i.1.theta
  rw [heq]
  generalize (odometry realTrig i.1.speed (i.1.theta : ℝ)).2 = dy at hshort halong hpos
  have hscale : ((30 : ℚ) : ℝ) = 30 := by norm_num
  have hway : t.yPos - s.yPos = dy := by linarith
  have hmul : ∀ g : ℝ, 30 * g / (30 : ℚ) = g := fun g => by
    rw [hscale]
    ring
  refine ⟨⟨?_, fun hdrive => ?_, ?_⟩, hflag, ?_, hy⟩
  · show |t.yPos - s.yPos| ≤ 54 / 100
    rwa [hway]
  · show 37 / 100 ≤ s.x / (30 : ℚ) * (t.yPos - s.yPos)
    rw [hway]
    refine halong _ ?_ (by rw [hscale]; ring)
    have hsame : s.x / (30 : ℚ) = s.heading := hdrive
    rw [hsame]
    exact s.directed_shuttle
  · rcases hcases with ⟨hbefore, hheading, hx⟩ | ⟨hbehind, hheading, hx⟩
    · exact Or.inl ⟨hbefore, hheading, (congrArg (· / ((30 : ℚ) : ℝ)) hx).trans (hmul _)⟩
    · exact Or.inr ⟨hbehind, hheading, congrArg (· / ((30 : ℚ) : ℝ)) hx⟩
  · rcases hcases with ⟨-, -, hx⟩ | ⟨-, -, hx⟩
    · have hunit : s.heading = 1 ∨ s.heading = -1 := s.directed_shuttle
      rcases hunit with heq | heq <;> rw [hx, heq] <;> norm_num
    · rw [hx]
      exact h.x

/-- **How a patrol begins**: `y_pos` and the direction as an earlier one has left them, or as they
are set at the start and by a card. -/
structure Starting (s : Patrol ℝ) : Prop where
  yPos : |s.yPos| < 30
  flag : s.flag = 0 ∨ s.flag = 1
  x : |s.x| ≤ 30
  y : s.y = 0

theorem Starting.sweeps {s : Patrol ℝ} (h : s.Starting) : s.Sweeps :=
  ⟨h.flag, h.x, h.y, .starting h.yPos⟩

/-- **A callback** of a steady car, whatever the photograph has shown. -/
theorem Sweeps.step {s t : Patrol ℝ} {i : Sense × Bool} (h : s.Sweeps) (hsteady : s.Steady i)
    (hstep : patrolStep realTrig s i = some t) : t.Sweeps := by
  cases hcard : i.2 with
  | true =>
      have hstart : t.Starting := by
        obtain rfl := Option.some.inj hstep
        rw [hcard]
        exact ⟨by simp [protectBack], Or.inl rfl, by simp [protectBack], rfl⟩
      exact hstart.sweeps
  | false =>
      obtain ⟨hshuttle, hflag, hx, hy⟩ := h.callback hsteady hcard hstep
      exact ⟨hflag, hx, hy, h.shuttle.step hshuttle s.directed_shuttle (by norm_num) (by norm_num)
        (by norm_num)⟩

/-- **Both ends are visited**: from any place on the patrol, in 340 callbacks without a card. -/
theorem Sweeps.visits {s t : Patrol ℝ} {is : List (Sense × Bool)} {e : ℝ} (h : s.Sweeps)
    (he : e = 1 ∨ e = -1)
    (hsteady : StepsSatisfy (patrolStep realTrig) (fun s i => s.Steady i ∧ i.2 = false) s is)
    (hrun : runSteps (patrolStep realTrig) s is = some t) (hlen : 340 ≤ is.length) :
    ∃ pre u, pre <+: is ∧ runSteps (patrolStep realTrig) s pre = some u ∧ 30 ≤ e * u.yPos := by
  have hlen' : (340 : ℝ) ≤ is.length := by exact_mod_cast hlen
  have hrank : s.shuttle.toEnd 30 (37 / 100) (54 / 100) e ≤ is.length * (37 / 100) :=
    (h.shuttle.toEnd_le s.directed_shuttle (by norm_num) (by norm_num) (by norm_num)).trans
      (by linarith)
  refine visits_of_rank (I := Sweeps) (fun s => s.shuttle.toEnd 30 (37 / 100) (54 / 100) e)
    (fun s hs => hs.shuttle.toEnd_pos s.directed_shuttle (by norm_num) (by norm_num) (by norm_num))
    (fun s i t hs hi hstep => ⟨hs.step hi.1 hstep, ?_⟩) is s t h hsteady hrun hrank
  exact hs.shuttle.toEnd_step (hs.callback hi.1 hi.2 hstep).1 s.directed_shuttle he (by norm_num)
    (by norm_num) (by norm_num)

end Patrol

/-! ## The line of the patrol -/

/-- The patrol, with the place of the car along its line as the odometry counts it, and the place
where `y_pos` is 0. -/
structure Trail (K : Type*) where
  patrol : Patrol K
  place : K
  centre : K

/-- A callback: the car moves on, and a card makes its place the new centre. -/
def trailStep {K : Type*} [Field K] [LinearOrder K] (F : Trig K) (s : Trail K)
    (i : Sense × Bool) : Option (Trail K) := do
  let patrol ← patrolStep F s.patrol i
  let place := s.place + (odometry F i.1.speed (i.1.theta : K)).2
  some ⟨patrol, place, if i.2 then place else s.centre⟩

namespace Trail

/-- A patrol that begins at the place 0. -/
def begin (s : Patrol ℝ) : Trail ℝ := ⟨s, 0, -s.yPos⟩

/-- `y_pos` is the way from the centre. -/
structure Tracked (s : Trail ℝ) : Prop where
  sweeps : s.patrol.Sweeps
  yPos : s.place - s.centre = s.patrol.yPos

theorem tracked_begin {s : Patrol ℝ} (h : s.Starting) : (begin s).Tracked :=
  ⟨h.sweeps, by simp [begin]⟩

/-- A steady car. -/
def Steady (s : Trail ℝ) (i : Sense × Bool) : Prop := s.patrol.Steady i

/-- A callback keeps `y_pos` and the place together; the centre stays unless there is a card. -/
theorem Tracked.step {s t : Trail ℝ} {i : Sense × Bool} (h : s.Tracked) (hsteady : s.Steady i)
    (hstep : trailStep realTrig s i = some t) :
    t.Tracked ∧ patrolStep realTrig s.patrol i = some t.patrol ∧
      (i.2 = false → t.centre = s.centre) := by
  simp only [trailStep, Option.bind_eq_bind] at hstep
  obtain ⟨p, hp, hstep⟩ := Option.bind_eq_some_iff.mp hstep
  obtain rfl := Option.some.inj hstep
  have hyPos := h.yPos
  refine ⟨⟨h.sweeps.step hsteady hp, ?_⟩, hp, fun hi => if_neg (by simp [hi])⟩
  obtain rfl := Option.some.inj hp
  cases hi : i.2 with
  | true => simp [protectBack]
  | false =>
      simp only [Bool.false_eq_true, if_false, protectBack]
      linarith

/-- A run of the trail without cards is one of the patrol, around the same centre. -/
theorem Tracked.run {s t : Trail ℝ} {is : List (Sense × Bool)} (h : s.Tracked)
    (hsteady : StepsSatisfy (trailStep realTrig) (fun s i => s.Steady i ∧ i.2 = false) s is)
    (hrun : runSteps (trailStep realTrig) s is = some t) :
    t.Tracked ∧ t.centre = s.centre ∧
      runSteps (patrolStep realTrig) s.patrol is = some t.patrol ∧
      StepsSatisfy (patrolStep realTrig) (fun s i => s.Steady i ∧ i.2 = false) s.patrol is := by
  induction is generalizing s with
  | nil =>
      obtain rfl := Option.some.inj hrun
      exact ⟨h, rfl, rfl, trivial⟩
  | cons i is ih =>
      obtain ⟨m, hm, hrest⟩ := Option.bind_eq_some_iff.mp hrun
      obtain ⟨hm', hpatrol, hcentre⟩ := h.step hsteady.1.1 hm
      obtain ⟨ht, hcentre', hrun', hsteady'⟩ := ih hm' (hsteady.2 m hm) hrest
      refine ⟨ht, hcentre'.trans (hcentre hsteady.1.2), ?_, hsteady.1, fun p hp => ?_⟩
      · rw [runSteps_cons, hpatrol]
        exact hrun'
      · obtain rfl := Option.some.inj (hpatrol.symm.trans hp)
        exact hsteady'

end Trail

/-- **The patrol sweeps its line.** Whatever the wheels and the heading do within their bounds, and
whatever the photographs show: the car is never more than 31.08 cm from the centre, the place where
`y_pos` was set to 0 last, which stays where it is until a card is seen; and any 340 callbacks
without a card take it to both ends, 30 cm behind and ahead of the centre. -/
theorem patrol_sweeps (s : Patrol ℝ) (hs : s.Starting) (as : List (Sense × Bool)) (t : Trail ℝ)
    (hsteady : StepsSatisfy (trailStep realTrig) Trail.Steady (.begin s) as)
    (hrun : runSteps (trailStep realTrig) (.begin s) as = some t) :
    |t.place - t.centre| ≤ 3108 / 100 ∧
      ((∀ a ∈ as, a.2 = false) → t.centre = -s.yPos) ∧
      ∀ bs u, StepsSatisfy (trailStep realTrig) (fun s b => s.Steady b ∧ b.2 = false) t bs →
        runSteps (trailStep realTrig) t bs = some u → 340 ≤ bs.length →
        (∃ pre v, pre <+: bs ∧ runSteps (trailStep realTrig) t pre = some v ∧
          v.place ≤ t.centre - 30) ∧
        ∃ pre v, pre <+: bs ∧ runSteps (trailStep realTrig) t pre = some v ∧
          t.centre + 30 ≤ v.place := by
  have ht : t.Tracked ∧ ((∀ a ∈ as, a.2 = false) → t.centre = -s.yPos) := by
    refine runSteps_invariant_of_steps
      (I := fun as t => t.Tracked ∧ ((∀ a ∈ as, a.2 = false) → t.centre = -s.yPos))
      ⟨Trail.tracked_begin hs, fun _ => rfl⟩ ?_ as t hsteady hrun
    rintro as t a t' ⟨h, hcentre⟩ hi hstep
    obtain ⟨h', -, hstay⟩ := h.step hi hstep
    refine ⟨h', fun hnone => ?_⟩
    rw [hstay (hnone a (by simp)), hcentre fun b hb => hnone b (List.mem_append_left _ hb)]
  obtain ⟨ht, hcentre⟩ := ht
  refine ⟨?_, hcentre, fun bs u hbs hu hlen => ?_⟩
  · rw [ht.yPos]
    exact (ht.sweeps.shuttle.abs_pos_le t.patrol.directed_shuttle (by norm_num)
      (by norm_num)).trans (by norm_num)
  · obtain ⟨-, -, hpatrol, hsteady'⟩ := ht.run hbs hu
    -- a visit of the patrol is one of the car
    have hvisit : ∀ e : ℝ, e = 1 ∨ e = -1 → ∃ pre v, pre <+: bs ∧
        runSteps (trailStep realTrig) t pre = some v ∧ 30 ≤ e * (v.place - t.centre) := by
      intro e he
      obtain ⟨pre, p, hpre, hp, hend⟩ := ht.sweeps.visits he hsteady' hpatrol hlen
      obtain ⟨rest, rfl⟩ := hpre
      rw [runSteps_append] at hu
      obtain ⟨v, hv, -⟩ := Option.bind_eq_some_iff.mp hu
      obtain ⟨hv', hsame, hrun', -⟩ := ht.run hbs.of_append hv
      obtain rfl := Option.some.inj (hrun'.symm.trans hp)
      exact ⟨pre, v, List.prefix_append _ _, hv, by rw [← hsame, hv'.yPos]; exact hend⟩
    obtain ⟨pre, v, hpre, hv, hend⟩ := hvisit (-1) (Or.inr rfl)
    obtain ⟨pre', v', hpre', hv', hend'⟩ := hvisit 1 (Or.inl rfl)
    exact ⟨⟨pre, v, hpre, hv, by linarith⟩, pre', v', hpre', hv', by linarith⟩

/-- A patrol that has just begun, the car at rest. -/
def Patrol.boot : Patrol ℝ := ⟨0, 0, 0, 0, 0, 0, false⟩

/-- The commands of the patrol: full speed either way, or the last one. -/
theorem protectBack_x (dx dy : ℝ) (theta : ℚ) (s : Patrol ℝ) :
    (protectBack false dx dy theta s).x = -30 ∨ (protectBack false dx dy theta s).x = 30 ∨
      (protectBack false dx dy theta s).x = s.x := by
  have hstd : ((-stdSpeed : ℚ) : ℝ) = -30 ∧ ((stdSpeed : ℚ) : ℝ) = 30 := by norm_num [stdSpeed]
  obtain ⟨xPos, yPos, flag, x, y, z, picStop⟩ := s
  rcases flag with _ | _ | flag
  · by_cases hbefore : yPos + dy > ((-30 : ℚ) : ℝ)
    · exact Or.inl ((congrArg Prod.fst (if_pos hbefore)).trans hstd.1)
    · exact Or.inr (Or.inr (congrArg Prod.fst (if_neg hbefore)))
  · by_cases hbefore : yPos + dy < ((30 : ℚ) : ℝ)
    · exact Or.inr (Or.inl ((congrArg Prod.fst (if_pos hbefore)).trans hstd.2))
    · exact Or.inr (Or.inr (congrArg Prod.fst (if_neg hbefore)))
  · exact Or.inr (Or.inr rfl)

/-- A car that keeps its heading and follows its commands can patrol as long as it likes. -/
theorem exists_patrol (n : ℕ) (s : Trail ℝ) (c : ℤ) (hx : s.patrol.x = c) (hy : s.patrol.y = 0)
    (hz : s.patrol.z = 0) : ∃ bs u, bs.length = n ∧
      StepsSatisfy (trailStep realTrig) (fun s b => s.Steady b ∧ b.2 = false) s bs ∧
      runSteps (trailStep realTrig) s bs = some u := by
  induction n generalizing s c with
  | zero => exact ⟨[], s, rfl, trivial, rfl⟩
  | succ n ih =>
      let i : Sense × Bool := (⟨mix c 0 0, 0⟩, false)
      have hsteady : s.Steady i := by
        refine ⟨fun n => ?_, Or.inl ⟨le_rfl, by norm_num [i]⟩⟩
        rw [hx, hy, hz]
        fin_cases n <;> norm_num [i, mix]
      obtain ⟨t, ht⟩ : ∃ t, trailStep realTrig s i = some t := ⟨_, rfl⟩
      obtain ⟨c', hx'⟩ : ∃ c' : ℤ, t.patrol.x = c' := by
        obtain rfl := Option.some.inj ht
        obtain heq | heq | heq := protectBack_x _ _ i.1.theta s.patrol
        · exact ⟨-30, heq.trans (by norm_num)⟩
        · exact ⟨30, heq.trans (by norm_num)⟩
        · exact ⟨c, heq.trans hx⟩
      have hyz : t.patrol.y = 0 ∧ t.patrol.z = 0 := by
        obtain rfl := Option.some.inj ht
        exact ⟨rfl, by norm_num [i, protectBack, getTheta, restrictTheta]⟩
      obtain ⟨bs, u, hlen, hbs, hu⟩ := ih t c' hx' hyz.1 hyz.2
      refine ⟨i :: bs, u, by simp [hlen], ⟨⟨hsteady, rfl⟩, fun t' ht' => ?_⟩, ?_⟩
      · obtain rfl := Option.some.inj (ht.symm.trans ht')
        exact hbs
      · rw [runSteps_cons, ht, Option.bind_some, hu]

/-- A patrol of 340 callbacks from the start visits both ends. -/
theorem patrol_sweeps_boot : ∃ bs : List (Sense × Bool), bs.length = 340 ∧
    (∃ pre v, pre <+: bs ∧ runSteps (trailStep realTrig) (.begin .boot) pre = some v ∧
      v.place ≤ -30) ∧
    ∃ pre v, pre <+: bs ∧ runSteps (trailStep realTrig) (.begin .boot) pre = some v ∧
      30 ≤ v.place := by
  have hstart : Patrol.boot.Starting := ⟨by simp [Patrol.boot], Or.inl rfl, by simp [Patrol.boot],
    rfl⟩
  obtain ⟨bs, u, hlen, hbs, hu⟩ := exists_patrol 340 (.begin .boot) 0 (by simp [Trail.begin,
    Patrol.boot]) rfl rfl
  have hcentre : (Trail.begin Patrol.boot).centre = 0 := neg_zero
  obtain ⟨⟨pre, v, hpre, hv, hback⟩, pre', v', hpre', hv', hahead⟩ :=
    (patrol_sweeps .boot hstart [] (.begin .boot) trivial rfl).2.2 bs u hbs hu hlen.ge
  rw [hcentre] at hback hahead
  exact ⟨bs, hlen, ⟨pre, v, hpre, hv, by linarith⟩, pre', v', hpre', hv', by linarith⟩

end HandlingRobot
