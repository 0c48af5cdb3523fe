import HandlingRobot.Drive.MainLoop
import HandlingRobot.Servo.Handshake

/-! # What the car does in the end

All parties write `car.motion`: the main loop, the 10 ms callback, the thread of the menu, and,
through the flags of the arm, the servo thread and the thread that reads the packets of the camera.
The transitions that lead from a card to the next one are commented out in `motionControl`, which
stops the car at its first point instead. What is left of the state machine is this.

* **`Mission`**, **`missionStep`** — all parties together.
* **`Idle`** — the states of a car that is started once, drives to one point and stops there.
* **`missionRun_idle`** — no interleaving leads out of them: the car never looks for a card, never
  moves its arm and, once it has stopped, never drives again. -/

namespace HandlingRobot

/-- The thread of the menu, on the page that starts the car. -/
inductive StartPc
  /-- The static `flag` of `child2_find_coor_UI` is 0. -/
  | fresh
  /-- It is 1, and `ACO_to_first` plans the tour. -/
  | planning
  /-- `car.motion = 1` is done. -/
  | done
  deriving Repr, DecidableEq

/-- **All parties.** `car.motion` is the one of `hands`; the search sees the same. -/
structure Mission where
  /-- The main loop and `protect_back`. -/
  search : Cruise
  /-- The servo thread, and the flags between it and the callback. -/
  hands : Handshake
  /-- `car.send_flag`. -/
  sendFlag : Bool
  /-- `car.bar_flag`. -/
  barFlag : ℕ
  /-- The static `cnt` of `pic_mag`. -/
  cnt : ℕ
  menu : StartPc

/-- The state after `flag_init`. The thread of the menu runs since `IPS_INIT`, a second before. -/
def Mission.boot (menu : StartPc) : Mission := ⟨Cruise.boot, Handshake.boot, false, 0, 0, menu⟩

/-- `car.motion = motion`. -/
def Mission.setMotion (m : Mission) (motion : ℕ) : Mission :=
  { m with search := { m.search with motion }, hands := { m.hands with motion } }

/-- What a callback measures: the odometry, the gyro, and whether the place that the motion in
progress drives to is reached. -/
structure Measured where
  dx : ℚ
  dy : ℚ
  theta : ℚ
  reached : Bool

/-- The steps of the parties. -/
inductive MissionAct
  /-- The next statement of the main loop; `seen` is what `get_pic()` returns if it is called. -/
  | main (seen : Bool)
  /-- A timer callback. -/
  | timer (i : Measured)
  /-- The next step of the servo thread. -/
  | servo
  /-- A packet with a class: `car.servo_flag`, if the class has one, and `car.uart_flag`. -/
  | classify (servoFlag : Option ℕ)
  /-- A packet with the position of the bar. -/
  | bar
  /-- The menu comes to the page that starts the car, or goes on there. -/
  | menu

/-- **The callback `motorControl_timer1`**, as far as it decides what to do next. -/
def Mission.timer (m : Mission) (i : Measured) : Mission :=
  match m.hands.motion with
  | 1 | 2 => if i.reached then m.setMotion 4 else m
  | 4 => { m with search := { m.search with x := 0, y := 0, z := 0 } }
  | 5 => if i.reached then { m with sendFlag := true }.setMotion 13 else m
  | 6 => if i.reached then m.setMotion 7 else m
  | 7 => if m.cnt < 26 then { m with cnt := m.cnt + 1 } else { m with cnt := 0 }.setMotion 1
  | 8 => m.setMotion 1
  | 9 => if i.reached then m.setMotion 1 else m
  | 10 => if i.reached then m.setMotion 4 else m
  | 11 => { m with search := m.search.protectBack i.dx i.dy i.theta }
  | 12 => if m.barFlag = 2 ∧ i.reached then m.setMotion 4 else m
  | 13 => { m with hands := m.hands.waitGet }.setMotion m.hands.waitGet.motion
  | 14 => { m with hands := m.hands.waitDrop }.setMotion m.hands.waitDrop.motion
  | 15 => if m.barFlag = 1 ∧ i.reached then m.setMotion 10 else m
  | _ => m

/-- A movement of the arm that is under way has seen a callback. -/
def Mission.ticked (m : Mission) : Mission :=
  { m with hands := { m.hands with pc := m.hands.pc.tick } }

/-- The menu: the flag is set first, and the motion after the planning. -/
def Mission.menuStep (m : Mission) : Mission :=
  match m.menu with
  | .fresh => { m with menu := .planning }
  | .planning => { m with menu := .done }.setMotion 1
  | .done => m

/-- **One step of all parties.** -/
def missionStep (m : Mission) : MissionAct → Option Mission
  | .main seen => some ({ m with search := m.search.mainStep seen }.setMotion
      (m.search.mainStep seen).motion)
  | .timer i => some (m.ticked.timer i)
  | .servo => m.hands.servo.map fun hands => { m with hands }
  | .classify servoFlag => some { m with
      hands := { m.hands with
        servoFlag := servoFlag.getD m.hands.servoFlag
        uartFlag := true } }
  | .bar => some { m with barFlag := if m.barFlag = 0 then 1 else 2 }
  | .menu => some m.menuStep

/-- **A car that is started once, drives to one point and stops there.** -/
structure Idle (m : Mission) : Prop where
  /-- The motion is the one the menu and `motionControl` lead to. -/
  motion : m.hands.motion = 0 ∨ (m.hands.motion = 1 ∨ m.hands.motion = 4) ∧ m.menu = .done
  agree : m.search.motion = m.hands.motion
  /-- The main loop does not look for cards. -/
  unseen : m.search.pc = .top ∧ m.search.lastShot = none ∧ m.search.picStop = false
  /-- The arm is not asked for, and has not been. -/
  unmoved : m.hands.servoFlagCtrl = false ∧ m.hands.started = [] ∧ m.hands.pwmLst = 600 ∧
    (m.hands.pc = .test ∨ m.hands.pc = .pause)
  /-- Nothing is announced. -/
  silent : m.sendFlag = false ∧ m.hands.pickFlag = false ∧ m.hands.dropFlag = false

theorem boot_idle (menu : StartPc) : Idle (Mission.boot menu) where
  motion := Or.inl rfl
  agree := rfl
  unseen := ⟨rfl, rfl, rfl⟩
  unmoved := ⟨rfl, rfl, rfl, Or.inl rfl⟩
  silent := ⟨rfl, rfl, rfl⟩

/-- Only the motions 0, 1 and 4 occur. -/
theorem Idle.motion_mem {m : Mission} (h : Idle m) :
    m.hands.motion = 0 ∨ m.hands.motion = 1 ∨ m.hands.motion = 4 := by
  rcases h.motion with h0 | ⟨h1 | h4, -⟩
  · exact Or.inl h0
  · exact Or.inr (Or.inl h1)
  · exact Or.inr (Or.inr h4)

/-- A car that drives, or has, was started by the menu. -/
theorem Idle.menu_done {m : Mission} (h : Idle m) (h0 : m.hands.motion ≠ 0) : m.menu = .done :=
  (h.motion.resolve_left h0).2

/-- The main loop does nothing in these motions. -/
theorem Idle.mainStep {m : Mission} (h : Idle m) (seen : Bool) :
    m.search.mainStep seen = m.search := by
  have hnot : ¬ ((m.search.motion = 3 ∧ m.search.picFlag = false) ∨ m.search.motion = 11) := by
    rw [h.agree]
    rcases h.motion_mem with hm | hm | hm <;> rw [hm] <;> simp
  unfold Cruise.mainStep
  rw [h.unseen.1]
  exact if_neg hnot

/-- Setting `car.motion` to what it is. -/
theorem Mission.setMotion_self {m : Mission} (h : m.search.motion = m.hands.motion) :
    m.setMotion m.search.motion = m := by
  show ({ m with hands := { m.hands with motion := m.search.motion } } : Mission) = m
  rw [h]

/-- **The callback.** -/
theorem Idle.timer {m : Mission} (h : Idle m) (i : Measured) : Idle (m.timer i) := by
  unfold Mission.timer
  rcases h.motion_mem with hm | hm | hm
  · rw [hm]
    exact h
  · rw [hm]
    have hdone : m.menu = .done := h.menu_done (by rw [hm]; decide)
    show Idle (if i.reached then m.setMotion 4 else m)
    split_ifs
    · exact ⟨Or.inr ⟨Or.inr rfl, hdone⟩, rfl, h.unseen, h.unmoved, h.silent⟩
    · exact h
  · rw [hm]
    exact ⟨h.motion, h.agree, h.unseen, h.unmoved, h.silent⟩

/-- **The servo thread** looks at the request and sleeps. -/
theorem Idle.servo {m : Mission} (h : Idle m) {hands : Handshake}
    (hstep : m.hands.servo = some hands) : Idle { m with hands } := by
  obtain ⟨hctrl, hstarted, hpwm, hpc | hpc⟩ := h.unmoved
  · rw [Handshake.servo, hpc] at hstep
    dsimp only at hstep
    rw [hctrl] at hstep
    obtain rfl := Option.some.inj hstep
    exact ⟨h.motion, h.agree, h.unseen, ⟨rfl, hstarted, hpwm, Or.inr rfl⟩, h.silent⟩
  · rw [Handshake.servo, hpc] at hstep
    obtain rfl := Option.some.inj hstep
    exact ⟨h.motion, h.agree, h.unseen, ⟨hctrl, hstarted, hpwm, Or.inl rfl⟩, h.silent⟩

/-- The menu starts the car once. -/
theorem Idle.menuStep {m : Mission} (h : Idle m) : Idle m.menuStep := by
  unfold Mission.menuStep
  cases hmenu : m.menu with
  | fresh =>
      have h0 : m.hands.motion = 0 :=
        h.motion.resolve_right fun hdone => StartPc.noConfusion (hmenu.symm.trans hdone.2)
      exact ⟨Or.inl h0, h.agree, h.unseen, h.unmoved, h.silent⟩
  | planning => exact ⟨Or.inr ⟨Or.inl rfl, rfl⟩, rfl, h.unseen, h.unmoved, h.silent⟩
  | done => exact h

/-- **One step of any party.** -/
theorem Idle.step {m m' : Mission} {a : MissionAct} (h : Idle m)
    (hstep : missionStep m a = some m') : Idle m' := by
  cases a with
  | main seen =>
      rw [missionStep, h.mainStep seen, Mission.setMotion_self h.agree] at hstep
      exact Option.some.inj hstep ▸ h
  | timer i =>
      obtain rfl := Option.some.inj hstep
      obtain ⟨hctrl, hstarted, hpwm, hpc⟩ := h.unmoved
      have hticked : Idle m.ticked := by
        refine ⟨h.motion, h.agree, h.unseen, ⟨hctrl, hstarted, hpwm, ?_⟩, h.silent⟩
        rcases hpc with hpc | hpc
        · exact Or.inl (congrArg ServoPc.tick hpc)
        · exact Or.inr (congrArg ServoPc.tick hpc)
      exact hticked.timer i
  | servo =>
      obtain ⟨hands, hhands, rfl⟩ := Option.map_eq_some_iff.mp hstep
      exact h.servo hhands
  | classify servoFlag =>
      obtain rfl := Option.some.inj hstep
      exact ⟨h.motion, h.agree, h.unseen, h.unmoved, h.silent⟩
  | bar =>
      obtain rfl := Option.some.inj hstep
      exact ⟨h.motion, h.agree, h.unseen, h.unmoved, h.silent⟩
  | menu =>
      obtain rfl := Option.some.inj hstep
      exact h.menuStep

/-- The callback of a car that has stopped. -/
theorem Mission.timer_stopped {m : Mission} (i : Measured) (h4 : m.hands.motion = 4) :
    m.timer i = { m with search := { m.search with x := 0, y := 0, z := 0 } } := by
  unfold Mission.timer
  rw [h4]
  rfl

/-- A car that has stopped. -/
theorem Idle.stopped_step {m m' : Mission} {a : MissionAct} (h : Idle m)
    (h4 : m.hands.motion = 4) (hstep : missionStep m a = some m') : m'.hands.motion = 4 := by
  cases a with
  | main seen =>
      rw [missionStep, h.mainStep seen, Mission.setMotion_self h.agree] at hstep
      exact Option.some.inj hstep ▸ h4
  | timer i =>
      obtain rfl := Option.some.inj hstep
      have hticked : m.ticked.hands.motion = 4 := h4
      rw [Mission.timer_stopped i hticked]
      exact h4
  | servo =>
      obtain ⟨hands, hhands, rfl⟩ := Option.map_eq_some_iff.mp hstep
      obtain ⟨hctrl, -, -, hpc | hpc⟩ := h.unmoved
      all_goals
        rw [Handshake.servo, hpc] at hhands
        exact Option.some.inj hhands ▸ h4
  | classify servoFlag => exact Option.some.inj hstep ▸ h4
  | bar => exact Option.some.inj hstep ▸ h4
  | menu =>
      have hdone : m.menu = .done := h.menu_done (by rw [h4]; decide)
      rw [missionStep, Mission.menuStep, hdone] at hstep
      exact Option.some.inj hstep ▸ h4

/-- **The car never does what it was built for**: in every interleaving of all parties it stays in
the motions 0, 1 and 4, so that it takes no photograph, stops at no card, and starts no case of the
servo thread; and once it has stopped, it stays where it is. -/
theorem missionRun_idle (menu : StartPc) (as bs : List MissionAct) (m m' : Mission)
    (h : runSteps missionStep (Mission.boot menu) as = some m)
    (h' : runSteps missionStep m bs = some m') :
    Idle m ∧ (m.hands.motion = 4 → m'.hands.motion = 4) := by
  have hidle : ∀ as m, runSteps missionStep (Mission.boot menu) as = some m → Idle m :=
    runSteps_invariant (I := fun _ m => Idle m) (boot_idle menu)
      fun _ _ _ _ hs hstep => hs.step hstep
  refine ⟨hidle as m h, fun h4 => ?_⟩
  have hstay : ∀ bs m', runSteps missionStep m bs = some m' → Idle m' ∧ m'.hands.motion = 4 :=
    runSteps_invariant (I := fun _ m => Idle m ∧ m.hands.motion = 4) ⟨hidle as m h, h4⟩
      fun _ _ _ _ hs hstep => ⟨hs.1.step hstep, hs.1.stopped_step hs.2 hstep⟩
  exact (hstay bs m' h').2

/-- A way through the menu and a trip to the first point, with a packet on the way. -/
def trip : List MissionAct :=
  [.menu, .classify (some 1), .servo, .menu, .main true, .timer ⟨0, 0, 0, false⟩,
    .timer ⟨0, 0, 0, true⟩]

/-- The car reaches its point and stops. -/
theorem missionRun_idle_trip : ∃ m, runSteps missionStep (Mission.boot .fresh) trip = some m ∧
    m.hands.motion = 4 ∧ Idle m := by
  have hrun : ∃ m, runSteps missionStep (Mission.boot .fresh) trip = some m ∧
      m.hands.motion = 4 := ⟨_, rfl, rfl⟩
  obtain ⟨m, hm, h4⟩ := hrun
  exact ⟨m, hm, h4, (missionRun_idle _ trip [] m m hm rfl).1⟩

end HandlingRobot
