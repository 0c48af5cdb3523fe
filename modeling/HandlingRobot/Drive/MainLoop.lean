import HandlingRobot.Drive.Heading
import HandlingRobot.Library.Runs

/-! # Looking for a card: the main loop and the patrol callback

At a stop the main loop photographs the floor with `get_pic` and, when it sees a card, sets
`car.motion = 5`, the approach. When it does not, it sets `car.motion = 11`: the 10 ms callback
`protect_back` then drives the car to and fro until a later photograph shows a card, and stops it
(`car.pic_stop`).

* **`Cruise`** — the flags the two share, the statics of both and the main loop's position;
  **`cruiseStep`** — one statement of the main loop, one callback, or a write of another handler.
* **`SeesCard`** — at an assignment `car.motion = 5` the last photograph showed a card.
* **`seesCard_iff_reshotSees`** — it holds all along a run exactly when every photograph taken after
  a stop shows a card. -/

namespace HandlingRobot

/-- `std_speed`. -/
def stdSpeed : ℚ := 30

/-- The statements of the main loop, in program order. -/
inductive MainPc
  /-- `if ((car.motion == 3 && car.pic_flag == 0) || car.motion == 11)`, then `if (!flag)`. -/
  | top
  /-- `rt_thread_mdelay(300), flag = 1`. -/
  | settle
  /-- `car.is_pic = get_pic()`, the photograph at a stop. -/
  | firstShot
  /-- `if (car.is_pic)`. -/
  | firstTest
  /-- `x_pos1 = y_pos1 = 0; car.motion = 5`. -/
  | firstApproach
  /-- `car.pic_flag = 1; flag = 0`. -/
  | firstFlags
  /-- `car.motion = 11`. -/
  | startPatrol
  /-- `car.is_pic = get_pic()`, a photograph on patrol. -/
  | shot
  /-- `if (car.pic_stop)`. -/
  | stopTest
  /-- `car.is_pic = get_pic()`, the photograph after the stop. -/
  | reshot
  /-- `x_pos1 = y_pos1 = 0; car.motion = 5`. -/
  | approach
  /-- `car.pic_flag = 1; flag = 0`. -/
  | flags
  /-- `car.pic_stop = 0`. -/
  | stopOff
  deriving Repr, DecidableEq

/-- **The state of the search for a card.** The flags of `car` hold 0 or 1. -/
structure Cruise where
  /-- The next statement of the main loop. -/
  pc : MainPc
  /-- The static `flag` of the main loop: the car is on patrol. -/
  flag : Bool
  /-- `car.motion`. -/
  motion : ℕ
  /-- `car.pic_flag`. -/
  picFlag : Bool
  /-- `car.is_pic`. -/
  isPic : Bool
  /-- `car.pic_stop`. -/
  picStop : Bool
  /-- `x_pos1`, the approach odometry. -/
  xPos1 : ℚ
  /-- `y_pos1`. -/
  yPos1 : ℚ
  /-- The static `x_pos` of `protect_back`. -/
  xPos : ℚ
  /-- The static `y_pos` of `protect_back`. -/
  yPos : ℚ
  /-- The static `flag` of `protect_back`: 0 backwards, 1 forwards. -/
  dir : ℕ
  /-- The speed command `x`. -/
  x : ℚ
  /-- The speed command `y`. -/
  y : ℚ
  /-- The rotation command `z`. -/
  z : ℚ
  /-- Log: the result of the most recent `get_pic()`. -/
  lastShot : Option Bool

/-- The state after `flag_init`, before the first turn of the main loop. -/
def Cruise.boot : Cruise :=
  ⟨.top, false, 0, false, false, false, 0, 0, 0, 0, 0, 0, 0, 0, none⟩

/-- The steps of the parties. -/
inductive CruiseAct
  /-- The next statement of the main loop; `seen` is what `get_pic()` returns if it is called. -/
  | main (seen : Bool)
  /-- A timer callback; `dx`, `dy` are the odometry increments and `theta` the gyro heading. -/
  | timer (dx dy theta : ℚ)
  /-- Another handler writes `car.motion` and `car.pic_flag`. -/
  | other (motion : ℕ) (picFlag : Bool)

/-- `car.is_pic = get_pic()`. -/
def Cruise.photograph (s : Cruise) (seen : Bool) : Cruise :=
  { s with isPic := seen, lastShot := some seen }

/-- `x_pos1 = y_pos1 = 0; car.motion = 5`. -/
def Cruise.startApproach (s : Cruise) : Cruise := { s with xPos1 := 0, yPos1 := 0, motion := 5 }

/-- **One statement of the main loop.** The delays and the wait for a camera frame are pauses
between two steps. -/
def Cruise.mainStep (s : Cruise) (seen : Bool) : Cruise :=
  match s.pc with
  | .top =>
      if (s.motion = 3 ∧ s.picFlag = false) ∨ s.motion = 11 then
        if s.flag then { s with pc := .shot } else { s with pc := .settle }
      else s
  | .settle => { s with flag := true, pc := .firstShot }
  | .firstShot => { s.photograph seen with pc := .firstTest }
  | .firstTest => if s.isPic then { s with pc := .firstApproach } else { s with pc := .startPatrol }
  | .firstApproach => { s.startApproach with pc := .firstFlags }
  | .firstFlags => { s with picFlag := true, flag := false, pc := .top }
  | .startPatrol => { s with motion := 11, pc := .top }
  | .shot => { s.photograph seen with pc := .stopTest }
  | .stopTest => if s.picStop then { s with pc := .reshot } else { s with pc := .top }
  | .reshot => { s.photograph seen with pc := .approach }
  | .approach => { s.startApproach with pc := .flags }
  | .flags => { s with picFlag := true, flag := false, pc := .stopOff }
  | .stopOff => { s with picStop := false, pc := .top }

/-- **`protect_back`**: drive back and forth between -30 and 30 cm, and stop once `car.is_pic` is
set. -/
def Cruise.protectBack (s : Cruise) (dx dy theta : ℚ) : Cruise :=
  let xPos := s.xPos + dx
  let yPos := s.yPos + dy
  let (x, dir) :=
    match s.dir with
    | 0 => if yPos > -30 then (-stdSpeed, s.dir) else (s.x, 1)
    | 1 => if yPos < 30 then (stdSpeed, s.dir) else (s.x, 0)
    | _ => (s.x, s.dir)
  let s := { s with xPos, yPos, dir, x, y := 0, z := getTheta theta 0 theta }
  if s.isPic then { s with x := 0, y := 0, picStop := true, xPos := 0, yPos := 0, dir := 0 } else s

/-- **One step.** The timer callback runs `protect_back` in motion 11; what it does in the other
motions is an `other` step. -/
def cruiseStep (s : Cruise) : CruiseAct → Option Cruise
  | .main seen => some (s.mainStep seen)
  | .timer dx dy theta => some (if s.motion = 11 then s.protectBack dx dy theta else s)
  | .other motion picFlag => some { s with motion, picFlag }

/-! ## Seeing the card -/

/-- The main loop stands at an assignment `car.motion = 5`. -/
def Cruise.SettingApproach (s : Cruise) : Prop := s.pc = .firstApproach ∨ s.pc = .approach

/-- **No blind approach**: at an assignment `car.motion = 5` the last photograph showed a card. -/
def SeesCard (s : Cruise) : Prop := s.SettingApproach → s.lastShot = some true

/-- The photograph taken after a stop, if this is the step, shows a card. -/
def ReshotSees (s : Cruise) (a : CruiseAct) : Prop :=
  s.pc = .reshot → ∀ seen, a = .main seen → seen = true

/-- What the main loop knows: `car.is_pic` is the last photograph's result when it is tested, and
`SeesCard`. -/
structure Cruise.Informed (s : Cruise) : Prop where
  tested : s.pc = .firstTest → s.lastShot = some s.isPic
  seesCard : SeesCard s

/-- The main loop sets `car.motion` to 5 at its two assignments only. -/
theorem mainStep_motion_five {s : Cruise} {seen : Bool} (h : (s.mainStep seen).motion = 5)
    (hne : s.motion ≠ 5) : s.SettingApproach := by
  unfold Cruise.SettingApproach
  unfold Cruise.mainStep at h
  cases hpc : s.pc with
  | firstApproach => exact Or.inl rfl
  | approach => exact Or.inr rfl
  | top =>
      simp only [hpc] at h
      split at h
      · split at h <;> exact absurd h hne
      · exact absurd h hne
  | firstTest =>
      simp only [hpc] at h
      split at h <;> exact absurd h hne
  | stopTest =>
      simp only [hpc] at h
      split at h <;> exact absurd h hne
  | startPatrol => simp [hpc] at h
  | settle | firstShot | firstFlags | shot | reshot | flags | stopOff =>
      simp only [hpc, Cruise.photograph] at h
      exact absurd h hne

/-- A callback changes neither the main loop's position nor what it photographed. -/
theorem timer_frame {s s' : Cruise} {dx dy theta : ℚ}
    (h : cruiseStep s (.timer dx dy theta) = some s') :
    s'.pc = s.pc ∧ s'.isPic = s.isPic ∧ s'.lastShot = s.lastShot := by
  obtain rfl := Option.some.inj h
  by_cases h11 : s.motion = 11
  · rw [if_pos h11]
    unfold Cruise.protectBack
    by_cases hpic : s.isPic <;> simp [hpic]
  · rw [if_neg h11]
    exact ⟨rfl, rfl, rfl⟩

/-- Only the position and the photograph matter to `Informed`. -/
theorem Cruise.Informed.frame {s s' : Cruise} (h : s.Informed) (hpc : s'.pc = s.pc)
    (hpic : s'.isPic = s.isPic) (hshot : s'.lastShot = s.lastShot) : s'.Informed := by
  constructor
  · rw [hpc, hpic, hshot]
    exact h.tested
  · unfold SeesCard Cruise.SettingApproach
    rw [hpc, hshot]
    exact h.seesCard

/-- A state whose next statement neither tests nor uses the photograph is `Informed`. -/
theorem Cruise.informed_of_pc {s : Cruise} (h₁ : s.pc ≠ .firstTest) (h₂ : s.pc ≠ .firstApproach)
    (h₃ : s.pc ≠ .approach) : s.Informed :=
  ⟨fun h => absurd h h₁, fun h => h.elim (fun h => absurd h h₂) fun h => absurd h h₃⟩

/-- A statement of the main loop keeps `Informed`, if a photograph after a stop shows a card. -/
theorem mainStep_informed {s : Cruise} {seen : Bool} (hs : s.Informed)
    (hsees : s.pc = .reshot → seen = true) : (s.mainStep seen).Informed := by
  unfold Cruise.mainStep
  cases hpc : s.pc with
  | firstShot =>
      exact ⟨fun _ => rfl, fun h => h.elim (fun h => by simp at h) fun h => by simp at h⟩
  | firstTest =>
      -- the only way to the first assignment is through this test
      have hshot := hs.tested hpc
      by_cases hpic : s.isPic
      · simp only [hpic, if_true]
        rw [hpic] at hshot
        exact ⟨fun h => by simp at h, fun _ => hshot⟩
      · simp only [hpic]
        exact Cruise.informed_of_pc (by simp) (by simp) (by simp)
  | reshot =>
      -- no test stands between this photograph and the second assignment
      rw [hsees hpc]
      exact ⟨fun h => by simp at h, fun _ => rfl⟩
  | top =>
      simp only
      split
      · split <;> exact Cruise.informed_of_pc (by simp) (by simp) (by simp)
      · exact Cruise.informed_of_pc (by simp [hpc]) (by simp [hpc]) (by simp [hpc])
  | stopTest =>
      simp only
      split <;> exact Cruise.informed_of_pc (by simp) (by simp) (by simp)
  | settle | firstApproach | firstFlags | startPatrol | shot | approach | flags | stopOff =>
      exact Cruise.informed_of_pc (by simp) (by simp) (by simp)

/-- **One step** keeps `Informed`, if a photograph after a stop shows a card. -/
theorem cruiseStep_informed {s s' : Cruise} {a : CruiseAct} (hs : s.Informed) (ha : ReshotSees s a)
    (h : cruiseStep s a = some s') : s'.Informed := by
  cases a with
  | main seen =>
      obtain rfl := Option.some.inj h
      exact mainStep_informed hs fun hpc => ha hpc seen rfl
  | timer dx dy theta =>
      obtain ⟨hpc, hpic, hshot⟩ := timer_frame h
      exact hs.frame hpc hpic hshot
  | other motion picFlag =>
      obtain rfl := Option.some.inj h
      exact hs.frame rfl rfl rfl

/-- After a photograph that follows a stop the main loop stands at the assignment. -/
theorem reshotSees_of_seesCard (s : Cruise) (a : CruiseAct) :
    ∃ s', cruiseStep s a = some s' ∧ (SeesCard s' → ReshotSees s a) := by
  cases a with
  | main seen =>
      refine ⟨s.mainStep seen, rfl, ?_⟩
      intro hsees hpc seen' heq
      obtain rfl : seen = seen' := by injection heq
      have hnext : s.mainStep seen = { s.photograph seen with pc := .approach } := by
        unfold Cruise.mainStep
        rw [hpc]
      rw [hnext] at hsees
      exact Option.some.inj (hsees (Or.inr rfl))
  | timer dx dy theta => exact ⟨_, rfl, fun _ _ _ h => by cases h⟩
  | other motion picFlag => exact ⟨_, rfl, fun _ _ _ h => by cases h⟩

/-- A run in which the card is seen on patrol, the car stops, and the photograph after the stop does
not show it any more. -/
def lostAfterStop : List CruiseAct :=
  [.other 3 false, .main false, .main false, .main false, .main false, .main false,
    .main false, .main true, .timer 0 0 0, .main true, .main false]

/-- The car drives blind after `lostAfterStop`: the last photograph showed no card, and the next
statement of the main loop sets `car.motion = 5`. -/
theorem lostAfterStop_drives_blind :
    ¬ ∀ as, StatesSatisfy cruiseStep SeesCard Cruise.boot as := by
  intro h
  have hlast : ∃ s, runSteps cruiseStep Cruise.boot lostAfterStop = some s ∧
      s.pc = .approach ∧ s.lastShot = some false := ⟨_, rfl, rfl, rfl⟩
  obtain ⟨s, hrun, hpc, hshot⟩ := hlast
  have hsees : SeesCard s := (h lostAfterStop).of_run hrun
  rw [hsees (Or.inr hpc)] at hshot
  exact absurd hshot (by decide)

/-- **When the car does not drive blind.** For every sequence of `get_pic()` results and every
interleaving: the last photograph showed a card at each assignment `car.motion = 5` of the run
exactly when every photograph of the run that is taken after a stop shows a card. -/
theorem seesCard_iff_reshotSees (as : List CruiseAct) :
    StatesSatisfy cruiseStep SeesCard Cruise.boot as ↔
      StepsSatisfy cruiseStep ReshotSees Cruise.boot as := by
  constructor
  · exact stepsSatisfy_of_states reshotSees_of_seesCard as Cruise.boot
  · intro h
    have hboot : Cruise.boot.Informed :=
      Cruise.informed_of_pc (by decide) (by decide) (by decide)
    exact statesSatisfy_of_steps (fun s hs => hs.seesCard)
      (fun s a s' hs ha hstep => cruiseStep_informed hs ha hstep) as Cruise.boot hboot h

end HandlingRobot
