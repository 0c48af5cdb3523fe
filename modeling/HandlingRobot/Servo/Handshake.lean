import HandlingRobot.Library.Runs
import Mathlib.Algebra.Order.Field.Rat
import Mathlib.Data.Rat.Defs

/-! # The servo thread and the timer callbacks

At a card the car stays in motion 13 and at a bin in motion 14. The 10 ms callbacks `wait_get` and
`wait_drop` ask the thread `servo_ctrl` for an arm movement by `car.servo_flag_ctrl`; the thread
runs the case `car.servo_flag` (1 to 3 pick and place, 4 to 6 drop), announces by `car.pick_flag` or
`car.drop_flag` that the car may leave, and clears the request at the end of the case. The callbacks
repeat the request at every tick until they see the announcement and set `car.motion = 1`.

* **`ServoInstr`**, **`servoCase`** — the cases as instruction lists; **`Movement.delays`** — the
  number of sleeps of a movement, from the last position of the turntable.
* **`Handshake`**, **`handshakeStep`** — a callback, one instruction of the thread, or the arrival
  of the next request. A movement that sleeps ends only after a callback has run during it.
* **`OneCasePerStay`** — every stay starts exactly one case and leaves no announcement behind.
* **`CallbackBeforeClear`** — case 6 does not clear the request while its announcement is unread. -/

namespace HandlingRobot

/-! ## Movements -/

/-- The calls of `servo_ctrl` that move the arm or sleep. -/
inductive Movement
  | servoReset
  | servoGet
  | servoPutLeft
  | servoPutTail
  | servoPutRight
  | servoDropRight
  | servoDropTail
  | servoDropLeft
  /-- `servo_rote_ctrl(tar)`. -/
  | servoRoteCtrl (tar : ℤ)
  /-- `rt_thread_mdelay(ms)`. -/
  | mdelay (ms : ℕ)
  deriving Repr, DecidableEq

/-- `GET_UP`, `GET_PUT` and `GET_DOWN`, the positions of the picking arm. -/
def getUp : ℤ := 800
@[inherit_doc getUp] def getPut : ℤ := 940
@[inherit_doc getUp] def getDown : ℤ := 1240

/-- `DROP_LEFT`, `DROP_RIGHT` and `DROP_TAIL`, positions of the turntable. -/
def dropLeft : ℤ := 600
@[inherit_doc dropLeft] def dropRight : ℤ := 1110
@[inherit_doc dropLeft] def dropTail : ℤ := 850

/-- Where a movement turns the turntable, if it does. -/
def Movement.target : Movement → Option ℤ
  | servoReset | servoGet => some 600
  | servoPutLeft => some 840
  | servoPutTail => some 1110
  | servoPutRight => some 340
  | servoDropRight => some 1110
  | servoDropTail => some 850
  | servoDropLeft => some 600
  | servoRoteCtrl tar => some tar
  | mdelay _ => none

/-- `pwm_lst` of `servo_rote_ctrl` after a movement that began at `pwmLst`. -/
def Movement.after (m : Movement) (pwmLst : ℤ) : ℤ := m.target.getD pwmLst

/-- The number of sleeps of `servo_rote_ctrl(tar)`: one each ten units. -/
def roteDelays (tar pwmLst : ℤ) : ℕ := (tar - pwmLst).natAbs / 10

/-- **The number of sleeps of a movement** that begins with the turntable at `pwmLst`. -/
def Movement.delays (pwmLst : ℤ) : Movement → ℕ
  | servoReset => roteDelays 600 pwmLst
  | servoGet => roteDelays 600 pwmLst + (getUp - getDown).natAbs / 10 + 1
  | servoPutLeft => roteDelays 840 pwmLst + (getUp - getPut).natAbs / 10
  | servoPutTail => roteDelays 1110 pwmLst + (getUp - getPut).natAbs / 10
  | servoPutRight => roteDelays 340 pwmLst + (getUp - getPut).natAbs / 10
  | servoDropRight => roteDelays 1110 pwmLst + 27 + 1
  | servoDropTail => roteDelays 850 pwmLst + 27 + 1
  | servoDropLeft => roteDelays 600 pwmLst + 27 + 1
  | servoRoteCtrl tar => roteDelays tar pwmLst
  | mdelay _ => 1

/-! ## The cases of the servo thread -/

/-- The instructions of a servo case. -/
inductive ServoInstr
  /-- A movement or a sleep. -/
  | call (m : Movement)
  /-- `car.pick_flag = 1`. -/
  | setPick
  /-- `car.drop_flag = 1`. -/
  | setDrop
  /-- `if (target_cnt < pic_num) servo_reset(); else { rt_thread_mdelay(15); … }`. -/
  | ifMoreTargets
  /-- `if (car.drop_tail_flag) servo_rote_ctrl(DROP_TAIL), car.drop_tail_flag = 0`. -/
  | ifDropTail
  /-- `car.drop_tail_flag = 0`. -/
  | clearDropTail
  /-- `car.put_flag = 1`. -/
  | setPut
  deriving Repr, DecidableEq

/-- A pick-and-place case, with its own put movement. -/
def pickCase (put : Movement) : List ServoInstr :=
  [.call .servoGet, .setPick, .call .servoReset, .call (.mdelay 250), .call put, .ifMoreTargets,
    .setPut]

/-- **The cases of `switch (car.servo_flag)`.** -/
def servoCase : ℕ → List ServoInstr
  | 0 => [.call .servoReset]
  | 1 => pickCase .servoPutLeft
  | 2 => pickCase .servoPutTail
  | 3 => pickCase .servoPutRight
  | 4 => [.call .servoDropRight, .setDrop, .call (.servoRoteCtrl dropLeft)]
  | 5 => [.call .servoDropTail, .setDrop, .call (.servoRoteCtrl dropRight)]
  | 6 => [.call .servoDropLeft, .setDrop]
  | _ => []

/-- Where the servo thread stands. -/
inductive ServoPc
  /-- `if (car.servo_flag_ctrl)`. -/
  | test
  /-- `switch (car.servo_flag)`. -/
  | select
  /-- In case `c`, with the instructions `rest` to go; then `car.servo_flag_ctrl = 0`. -/
  | running (c : ℕ) (rest : List ServoInstr)
  /-- In a movement of case `c`; `ticked` tells whether a callback has run during it. -/
  | moving (c : ℕ) (ticked : Bool) (rest : List ServoInstr)
  /-- `rt_thread_mdelay(5)`. -/
  | pause
  deriving Repr, DecidableEq

/-! ## The system -/

/-- **The shared flags, the position of the servo thread and a log of the current stay.** -/
structure Handshake where
  /-- `car.motion`. -/
  motion : ℕ
  /-- `car.servo_flag`. -/
  servoFlag : ℕ
  /-- `car.servo_flag_ctrl`. -/
  servoFlagCtrl : Bool
  /-- `car.pick_flag`. -/
  pickFlag : Bool
  /-- `car.put_flag`. -/
  putFlag : Bool
  /-- `car.drop_flag`. -/
  dropFlag : Bool
  /-- `car.uart_flag`. -/
  uartFlag : Bool
  /-- `car.drop_tail_flag`. -/
  dropTailFlag : Bool
  /-- `target_cnt`. -/
  targetCnt : ℕ
  /-- `pic_num`. -/
  picNum : ℕ
  /-- The speed commands `x` and `y`. -/
  speed : ℚ × ℚ
  /-- Where the servo thread stands. -/
  pc : ServoPc
  /-- `pwm_lst` of `servo_rote_ctrl`. -/
  pwmLst : ℤ
  /-- Log: the cases started since the last arrival. -/
  started : List ℕ
  deriving Repr, DecidableEq

/-- The steps of the parties. -/
inductive HandshakeAct
  /-- The 10 ms timer callback. -/
  | tick
  /-- The next step of the servo thread. -/
  | servo
  /-- The car stops at a card. -/
  | arriveCard
  /-- The class of a card comes in: `car.servo_flag` is set, then `car.uart_flag`. -/
  | classify (servoFlag : ℕ)
  /-- The car stops at a bin, with the drop case to run. -/
  | arriveBin (servoFlag : ℕ)
  /-- The car drives on. -/
  | drive (motion targetCnt : ℕ)
  deriving Repr, DecidableEq

/-- `wait_get`, the callback of motion 13. -/
def Handshake.waitGet (s : Handshake) : Handshake :=
  if s.uartFlag ∧ s.putFlag then
    let s := { s with servoFlagCtrl := true }
    if s.pickFlag then
      { s with motion := 1, pickFlag := false, uartFlag := false, putFlag := false,
               dropTailFlag := if s.targetCnt = s.picNum then true else s.dropTailFlag }
    else s
  else s

/-- `wait_drop`, the callback of motion 14. -/
def Handshake.waitDrop (s : Handshake) : Handshake :=
  let s := { s with speed := (0, 0) }
  if s.putFlag then
    let s := { s with servoFlagCtrl := true }
    if s.dropFlag then { s with motion := 1, dropFlag := false } else s
  else s

/-- The timer callback as `motorControl_timer1` dispatches it. -/
def Handshake.timer (s : Handshake) : Handshake :=
  if s.motion = 13 then s.waitGet else if s.motion = 14 then s.waitDrop else s

/-- A callback during a movement lets the movement end. -/
def ServoPc.tick : ServoPc → ServoPc
  | .moving c _ rest => .moving c true rest
  | pc => pc

/-- One instruction of a servo case. A movement that never sleeps is over at once. -/
def Handshake.exec (s : Handshake) (c : ℕ) (rest : List ServoInstr) : ServoInstr → Handshake
  | .call m =>
      let s := { s with pwmLst := m.after s.pwmLst,
                        pc := if m.delays s.pwmLst = 0 then .running c rest
                              else .moving c false rest }
      s
  | .setPick => { s with pickFlag := true, pc := .running c rest }
  | .setDrop => { s with dropFlag := true, pc := .running c rest }
  | .ifMoreTargets =>
      if s.targetCnt < s.picNum then { s with pc := .running c (.call .servoReset :: rest) }
      else { s with pc := .running c (.call (.mdelay 15) :: .ifDropTail :: rest) }
  | .ifDropTail =>
      if s.dropTailFlag then
        { s with pc := .running c (.call (.servoRoteCtrl dropTail) :: .clearDropTail :: rest) }
      else { s with pc := .running c rest }
  | .clearDropTail => { s with dropTailFlag := false, pc := .running c rest }
  | .setPut => { s with putFlag := true, pc := .running c rest }

/-- One step of the servo thread. A movement ends only when a callback has run during it. -/
def Handshake.servo (s : Handshake) : Option Handshake :=
  match s.pc with
  | .test => some { s with pc := if s.servoFlagCtrl then .select else .pause }
  | .select =>
      some { s with pc := .running s.servoFlag (servoCase s.servoFlag),
                    started := s.started ++ [s.servoFlag] }
  | .running c (i :: rest) => some (s.exec c rest i)
  | .running _ [] => some { s with servoFlagCtrl := false, pc := .pause }
  | .moving c ticked rest => if ticked then some { s with pc := .running c rest } else none
  | .pause => some { s with pc := .test }

/-- The car stays at a card or at a bin. -/
def Handshake.Staying (s : Handshake) : Prop := s.motion = 13 ∨ s.motion = 14

instance (s : Handshake) : Decidable s.Staying := inferInstanceAs (Decidable (_ ∨ _))

/-- **One step of the system.** The class of a card selects a pick case and may come in at any time
but during a stay at a bin; a bin selects a drop case. -/
def handshakeStep (s : Handshake) : HandshakeAct → Option Handshake
  | .tick => some { s.timer with pc := s.pc.tick }
  | .servo => s.servo
  | .arriveCard =>
      if ¬ s.Staying ∧ (s.uartFlag = true → 1 ≤ s.servoFlag ∧ s.servoFlag ≤ 3) then
        some { s with motion := 13, started := [] }
      else none
  | .classify sf =>
      if s.motion ≠ 14 ∧ 1 ≤ sf ∧ sf ≤ 3 then
        some { s with servoFlag := sf, uartFlag := true }
      else none
  | .arriveBin sf =>
      if ¬ s.Staying ∧ 4 ≤ sf ∧ sf ≤ 6 then
        some { s with motion := 14, servoFlag := sf, started := [] }
      else none
  | .drive motion targetCnt =>
      if ¬ s.Staying ∧ motion ≠ 13 ∧ motion ≠ 14 then some { s with motion, targetCnt } else none

/-- A stay is given the kind of case it asks for: pick and place at a card once it is classified,
drop at a bin. -/
structure Handshake.Matched (s : Handshake) : Prop where
  card : s.motion = 13 → s.uartFlag = true → 1 ≤ s.servoFlag ∧ s.servoFlag ≤ 3
  bin : s.motion = 14 → 4 ≤ s.servoFlag ∧ s.servoFlag ≤ 6

/-- **The start of a run**: the servo thread is idle, and nothing is requested, announced or already
done. -/
structure Handshake.Initial (s : Handshake) : Prop where
  pc : s.pc = .test
  servoFlagCtrl : s.servoFlagCtrl = false
  pickFlag : s.pickFlag = false
  dropFlag : s.dropFlag = false
  started : s.started = []
  matched : s.Matched

/-- The state after `flag_init`. -/
def Handshake.boot : Handshake where
  motion := 0
  servoFlag := 0
  servoFlagCtrl := false
  pickFlag := false
  putFlag := true
  dropFlag := false
  uartFlag := false
  dropTailFlag := false
  targetCnt := 0
  picNum := 13
  speed := (0, 0)
  pc := .test
  pwmLst := 600
  started := []

theorem Handshake.initial_boot : Handshake.boot.Initial :=
  ⟨rfl, rfl, rfl, rfl, rfl, ⟨fun h => absurd h (by decide), fun h => absurd h (by decide)⟩⟩

/-! ## The property and the condition -/

/-- Case `c` is the kind of case a stay asks for: pick and place at a card, drop at a bin. -/
def Serves (c motion : ℕ) : Prop :=
  (motion = 13 ∧ 1 ≤ c ∧ c ≤ 3) ∨ (motion = 14 ∧ 4 ≤ c ∧ c ≤ 6)

/-- **One case per stay**, as a condition on every step of a run. -/
structure OneCasePerStay (s : Handshake) (a : HandshakeAct) : Prop where
  /-- A case starts only during a stay it serves, as the first case of that stay. -/
  starts : a = .servo → s.pc = .select → Serves s.servoFlag s.motion ∧ s.started = []
  /-- A callback that ends a stay finds exactly one case started in it, of the right kind. -/
  leaves : a = .tick → s.timer.motion ≠ s.motion → ∃ c, s.started = [c] ∧ Serves c s.motion
  /-- At an arrival no announcement of an earlier stay is left. -/
  arrives : (a = .arriveCard ∨ ∃ sf, a = .arriveBin sf) → s.pickFlag = false ∧ s.dropFlag = false

/-- **The request is not cleared early**: when case 6 clears `car.servo_flag_ctrl`, a callback has
read `car.drop_flag` since the case set it. -/
def CallbackBeforeClear (s : Handshake) (a : HandshakeAct) : Prop :=
  a = .servo → s.pc = .running 6 [] → s.dropFlag = false

instance (s : Handshake) (a : HandshakeAct) : Decidable (CallbackBeforeClear s a) :=
  inferInstanceAs (Decidable (_ → _ → _))

/-! ## The shape of the cases -/

/-- The instructions still to come announce nothing. -/
def Quiet (rest : List ServoInstr) : Prop := ServoInstr.setPick ∉ rest ∧ ServoInstr.setDrop ∉ rest

/-- The next instructions are movements, and one of them sleeps. -/
def WillSleep : ℤ → List ServoInstr → Prop
  | pwm, .call m :: rest => m.delays pwm ≠ 0 ∨ WillSleep (m.after pwm) rest
  | _, _ => False

/-- **Case `c` will announce its end once, and then sleep** before it clears the request; case 6
announces as its last instruction. -/
def Announces (c : ℕ) : ℤ → List ServoInstr → Prop
  | pwm, .call m :: rest => Announces c (m.after pwm) rest
  | pwm, .setPick :: rest => c ≤ 3 ∧ Quiet rest ∧ WillSleep pwm rest
  | pwm, .setDrop :: rest => 4 ≤ c ∧ Quiet rest ∧ (WillSleep pwm rest ∨ (c = 6 ∧ rest = []))
  | _, _ => False

/-- The six cases have that shape, wherever the turntable stands. -/
theorem servoCase_announces {c : ℕ} (h₁ : 1 ≤ c) (h₆ : c ≤ 6) (pwm : ℤ) :
    Announces c pwm (servoCase c) := by
  have hpick : ∀ put, c ≤ 3 → Announces c pwm (pickCase put) := fun put h =>
    ⟨h, ⟨by simp, by simp⟩, Or.inr (Or.inl Nat.one_ne_zero)⟩
  obtain rfl | rfl | rfl | rfl | rfl | rfl :
      c = 1 ∨ c = 2 ∨ c = 3 ∨ c = 4 ∨ c = 5 ∨ c = 6 := by omega
  · exact hpick _ (by decide)
  · exact hpick _ (by decide)
  · exact hpick _ (by decide)
  · have hsleep : roteDelays dropLeft 1110 ≠ 0 := by decide
    exact ⟨by decide, ⟨by simp, by simp⟩, Or.inl (Or.inl hsleep)⟩
  · have hsleep : roteDelays dropRight 850 ≠ 0 := by decide
    exact ⟨by decide, ⟨by simp, by simp⟩, Or.inl (Or.inl hsleep)⟩
  · exact ⟨by decide, ⟨by simp, by simp⟩, Or.inr ⟨rfl, rfl⟩⟩

/-! ## What one callback does -/

/-- The callback of the current motion acts: the stay is classified and the arm is free. -/
def Handshake.Requesting (s : Handshake) : Prop :=
  s.putFlag = true ∧ ((s.motion = 13 ∧ s.uartFlag = true) ∨ s.motion = 14)

/-- The announcement the callback of the current motion looks for. -/
def Handshake.Told (s : Handshake) : Prop :=
  (s.motion = 13 ∧ s.pickFlag = true) ∨ (s.motion = 14 ∧ s.dropFlag = true)

/-- What stays as it is in every callback. -/
structure Handshake.SameThread (s s' : Handshake) : Prop where
  pc : s'.pc = s.pc
  pwmLst : s'.pwmLst = s.pwmLst
  started : s'.started = s.started
  servoFlag : s'.servoFlag = s.servoFlag

/-- **The callback, with everything it changes**: it does not act, it repeats the request, or it
reads the announcement and ends the stay. -/
theorem timer_cases (s : Handshake) :
    s.SameThread s.timer ∧
    ((¬ s.Requesting ∧ s.timer.motion = s.motion ∧ s.timer.servoFlagCtrl = s.servoFlagCtrl ∧
        s.timer.pickFlag = s.pickFlag ∧ s.timer.dropFlag = s.dropFlag ∧
        s.timer.putFlag = s.putFlag ∧ s.timer.uartFlag = s.uartFlag) ∨
      (s.Requesting ∧ ¬ s.Told ∧ s.timer.motion = s.motion ∧ s.timer.servoFlagCtrl = true ∧
        s.timer.pickFlag = s.pickFlag ∧ s.timer.dropFlag = s.dropFlag ∧
        s.timer.putFlag = s.putFlag ∧ s.timer.uartFlag = s.uartFlag) ∨
      (s.Requesting ∧ s.Told ∧ s.timer.motion = 1 ∧
        (s.motion = 13 → s.timer.pickFlag = false ∧ s.timer.dropFlag = s.dropFlag) ∧
        (s.motion = 14 → s.timer.dropFlag = false ∧ s.timer.pickFlag = s.pickFlag))) := by
  unfold Handshake.timer Handshake.Requesting Handshake.Told
  -- the callback looks at motion 13 first, then at motion 14
  by_cases h13 : s.motion = 13
  · rw [if_pos h13]
    unfold Handshake.waitGet
    by_cases hreq : s.uartFlag = true ∧ s.putFlag = true
    · rw [if_pos hreq]
      by_cases hpick : s.pickFlag = true
      · simp only [hpick, if_true]
        refine ⟨⟨rfl, rfl, rfl, rfl⟩, Or.inr (Or.inr ?_)⟩
        simp [h13, hreq.1, hreq.2]
      · simp only [if_neg hpick]
        refine ⟨⟨rfl, rfl, rfl, rfl⟩, Or.inr (Or.inl ?_)⟩
        simp [h13, hreq.1, hreq.2, hpick]
    · rw [if_neg hreq]
      refine ⟨⟨rfl, rfl, rfl, rfl⟩, Or.inl ⟨?_, rfl, rfl, rfl, rfl, rfl, rfl⟩⟩
      rintro ⟨hput, ⟨-, huart⟩ | h14⟩
      · exact hreq ⟨huart, hput⟩
      · omega
  · rw [if_neg h13]
    by_cases h14 : s.motion = 14
    · rw [if_pos h14]
      unfold Handshake.waitDrop
      by_cases hput : s.putFlag = true
      · simp only [hput, if_true]
        by_cases hdrop : s.dropFlag = true
        · simp only [hdrop, if_true]
          refine ⟨⟨rfl, rfl, rfl, rfl⟩, Or.inr (Or.inr ?_)⟩
          simp [h14]
        · simp only [if_neg hdrop]
          refine ⟨⟨rfl, rfl, rfl, rfl⟩, Or.inr (Or.inl ?_)⟩
          simp [h14, hdrop]
      · simp only [if_neg hput]
        refine ⟨⟨rfl, rfl, rfl, rfl⟩, Or.inl ⟨fun h => hput h.1, ?_⟩⟩
        simp
    · rw [if_neg h14]
      refine ⟨⟨rfl, rfl, rfl, rfl⟩, Or.inl ⟨?_, rfl, rfl, rfl, rfl, rfl, rfl⟩⟩
      rintro ⟨-, ⟨h, -⟩ | h⟩
      · exact h13 h
      · exact h14 h

/-! ## The invariant -/

/-- Nothing is announced, and no case has been started in the current stay. -/
structure Handshake.Free (s : Handshake) : Prop where
  pickFlag : s.pickFlag = false
  dropFlag : s.dropFlag = false
  started : s.Staying → s.started = []

/-- The current stay asked for case `c`, the only one started in it. -/
structure Handshake.Asked (s : Handshake) (c : ℕ) : Prop where
  serves : Serves c s.motion
  requesting : s.Requesting
  started : s.started = [c]

/-- Case `c` has not announced its end yet. -/
structure Handshake.Waiting (s : Handshake) (c : ℕ) : Prop extends s.Asked c where
  pickFlag : s.pickFlag = false
  dropFlag : s.dropFlag = false

/-- Case `c` has announced its end, and no callback has read it yet. -/
structure Handshake.Announced (s : Handshake) (c : ℕ) : Prop extends s.Asked c where
  pickFlag : s.pickFlag = decide (c ≤ 3)
  dropFlag : s.dropFlag = decide (4 ≤ c)

/-- Inside case `c`: before the announcement, between the announcement and the callback that reads
it (only as long as `unread` holds), or after the car has left. -/
def Handshake.InCase (s : Handshake) (c : ℕ) (rest : List ServoInstr) (unread : Prop) : Prop :=
  (s.Waiting c ∧ Announces c s.pwmLst rest) ∨ (s.Announced c ∧ Quiet rest ∧ unread) ∨
    (s.Free ∧ Quiet rest)

/-- Two states with the same flags, the same stay and the same log of it. -/
structure Handshake.SameFlags (s s' : Handshake) : Prop where
  motion : s'.motion = s.motion
  pickFlag : s'.pickFlag = s.pickFlag
  dropFlag : s'.dropFlag = s.dropFlag
  putFlag : s'.putFlag = s.putFlag
  uartFlag : s'.uartFlag = s.uartFlag
  started : s'.started = s.started

theorem Handshake.SameFlags.requesting {s s' : Handshake} (h : s.SameFlags s') :
    s'.Requesting ↔ s.Requesting := by
  unfold Handshake.Requesting
  rw [h.motion, h.putFlag, h.uartFlag]

theorem Handshake.SameFlags.free {s s' : Handshake} (h : s.SameFlags s') (hs : s.Free) :
    s'.Free := by
  refine ⟨h.pickFlag.trans hs.pickFlag, h.dropFlag.trans hs.dropFlag, ?_⟩
  unfold Handshake.Staying
  rw [h.motion, h.started]
  exact hs.started

theorem Handshake.SameFlags.asked {s s' : Handshake} {c : ℕ} (h : s.SameFlags s')
    (hs : s.Asked c) : s'.Asked c :=
  ⟨h.motion ▸ hs.serves, h.requesting.mpr hs.requesting, h.started.trans hs.started⟩

theorem Handshake.SameFlags.waiting {s s' : Handshake} {c : ℕ} (h : s.SameFlags s')
    (hs : s.Waiting c) : s'.Waiting c :=
  ⟨h.asked hs.toAsked, h.pickFlag.trans hs.pickFlag, h.dropFlag.trans hs.dropFlag⟩

theorem Handshake.SameFlags.announced {s s' : Handshake} {c : ℕ} (h : s.SameFlags s')
    (hs : s.Announced c) : s'.Announced c :=
  ⟨h.asked hs.toAsked, h.pickFlag.trans hs.pickFlag, h.dropFlag.trans hs.dropFlag⟩

/-- **What holds at each position of the servo thread.** -/
def Handshake.PcInv (s : Handshake) : Prop :=
  match s.pc with
  | .test | .pause => s.Free ∧ (s.servoFlagCtrl = true → s.Requesting)
  | .select => s.Free ∧ s.Requesting
  | .running c rest => s.InCase c rest (WillSleep s.pwmLst rest ∨ (c = 6 ∧ rest = []))
  | .moving c ticked rest => s.InCase c rest (ticked = false)

/-- The invariant of the handshake. -/
structure Handshake.Inv (s : Handshake) : Prop where
  matched : s.Matched
  pcInv : s.PcInv

theorem Handshake.Initial.inv {s : Handshake} (h : s.Initial) : s.Inv := by
  refine ⟨h.matched, ?_⟩
  unfold Handshake.PcInv
  rw [h.pc]
  exact ⟨⟨h.pickFlag, h.dropFlag, fun _ => h.started⟩,
    fun hctrl => absurd (h.servoFlagCtrl ▸ hctrl) (by decide)⟩

/-- The stay of a request is given a case that serves it. -/
theorem Handshake.Matched.serves {s : Handshake} (hm : s.Matched) (hr : s.Requesting) :
    Serves s.servoFlag s.motion := by
  obtain ⟨-, ⟨h13, huart⟩ | h14⟩ := hr
  · exact Or.inl ⟨h13, hm.card h13 huart⟩
  · exact Or.inr ⟨h14, hm.bin h14⟩

theorem Serves.bounds {c motion : ℕ} (h : Serves c motion) : 1 ≤ c ∧ c ≤ 6 := by
  obtain ⟨-, h₁, h₃⟩ | ⟨-, h₄, h₆⟩ := h <;> omega

/-! ### Callbacks keep the invariant -/

/-- Nothing announced is nothing a callback could act on. -/
theorem Handshake.not_told {s : Handshake} (hpick : s.pickFlag = false)
    (hdrop : s.dropFlag = false) : ¬ s.Told := by
  rintro (⟨-, h⟩ | ⟨-, h⟩)
  · exact absurd (hpick ▸ h) (by decide)
  · exact absurd (hdrop ▸ h) (by decide)

/-- A callback that reads no announcement at most repeats the request. -/
theorem timer_of_not_told {s : Handshake} (h : ¬ s.Told) :
    s.timer.motion = s.motion ∧ s.timer.pickFlag = s.pickFlag ∧ s.timer.dropFlag = s.dropFlag ∧
      (s.timer.Requesting ↔ s.Requesting) ∧
      (s.timer.servoFlagCtrl = true → s.servoFlagCtrl = true ∨ s.Requesting) := by
  obtain ⟨-, ⟨-, hm, hctrl, hp, hd, hput, hu⟩ | ⟨hreq, -, hm, -, hp, hd, hput, hu⟩ |
    ⟨-, htold, -⟩⟩ := timer_cases s
  · refine ⟨hm, hp, hd, ?_, fun h => Or.inl (hctrl ▸ h)⟩
    unfold Handshake.Requesting
    rw [hput, hm, hu]
  · refine ⟨hm, hp, hd, ?_, fun _ => Or.inr hreq⟩
    unfold Handshake.Requesting
    rw [hput, hm, hu]
  · exact absurd htold h

theorem timer_free {s : Handshake} (h : s.Free) :
    s.timer.Free ∧ (s.Requesting → s.timer.Requesting) ∧
      (s.timer.servoFlagCtrl = true → s.servoFlagCtrl = true ∨ s.timer.Requesting) := by
  obtain ⟨hm, hp, hd, hreq, hctrl⟩ := timer_of_not_told (Handshake.not_told h.pickFlag h.dropFlag)
  refine ⟨⟨hp.trans h.pickFlag, hd.trans h.dropFlag, ?_⟩, hreq.mpr,
    fun ht => (hctrl ht).imp_right hreq.mpr⟩
  unfold Handshake.Staying
  rw [hm, (timer_cases s).1.started]
  exact h.started

theorem timer_waiting {s : Handshake} {c : ℕ} (h : s.Waiting c) : s.timer.Waiting c := by
  obtain ⟨hm, hp, hd, hreq, -⟩ := timer_of_not_told (Handshake.not_told h.pickFlag h.dropFlag)
  refine ⟨⟨hm ▸ h.serves, hreq.mpr h.requesting, ?_⟩, hp.trans h.pickFlag, hd.trans h.dropFlag⟩
  rw [(timer_cases s).1.started, h.started]

/-- An announced end is one the callback acts on. -/
theorem Handshake.Announced.told {s : Handshake} {c : ℕ} (h : s.Announced c) : s.Told := by
  obtain ⟨h13, -, h₃⟩ | ⟨h14, h₄, -⟩ := h.serves
  · exact Or.inl ⟨h13, by rw [h.pickFlag]; exact decide_eq_true h₃⟩
  · exact Or.inr ⟨h14, by rw [h.dropFlag]; exact decide_eq_true h₄⟩

/-- A callback that reads the announcement ends the stay and takes the announcement back. -/
theorem timer_announced {s : Handshake} {c : ℕ} (h : s.Announced c) :
    s.timer.Free ∧ s.timer.motion = 1 := by
  obtain ⟨-, ⟨hno, -⟩ | ⟨-, hno, -⟩ | ⟨-, -, h₁, hcard, hbin⟩⟩ := timer_cases s
  · exact absurd h.requesting hno
  · exact absurd h.told hno
  · have haway : ¬ s.timer.Staying := by
      unfold Handshake.Staying
      omega
    refine ⟨?_, h₁⟩
    obtain ⟨h13, -, h₃⟩ | ⟨h14, h₄, -⟩ := h.serves
    · obtain ⟨hp, hd⟩ := hcard h13
      refine ⟨hp, ?_, fun hs => absurd hs haway⟩
      rw [hd, h.dropFlag, decide_eq_false (by omega)]
    · obtain ⟨hd, hp⟩ := hbin h14
      refine ⟨?_, hd, fun hs => absurd hs haway⟩
      rw [hp, h.pickFlag, decide_eq_false (by omega)]

/-- A callback in the middle of a case; one that finds the end announced ends the stay. -/
theorem timer_inCase {s : Handshake} {c : ℕ} {rest : List ServoInstr} {unread : Prop} (pc : ServoPc)
    (h : s.InCase c rest unread) (unread' : Prop) :
    Handshake.InCase { s.timer with pc } c rest unread' := by
  have hsame : s.timer.SameFlags { s.timer with pc } := ⟨rfl, rfl, rfl, rfl, rfl, rfl⟩
  unfold Handshake.InCase
  obtain ⟨hw, ha⟩ | ⟨ha, hq, -⟩ | ⟨hf, hq⟩ := h
  · refine Or.inl ⟨hsame.waiting (timer_waiting hw), ?_⟩
    exact (timer_cases s).1.pwmLst ▸ ha
  · exact Or.inr (Or.inr ⟨hsame.free (timer_announced ha).1, hq⟩)
  · exact Or.inr (Or.inr ⟨hsame.free (timer_free hf).1, hq⟩)

theorem timer_matched {s : Handshake} (h : s.Matched) : s.timer.Matched := by
  have hsf := (timer_cases s).1.servoFlag
  obtain ⟨-, ⟨-, hm, -, -, -, -, hu⟩ | ⟨-, -, hm, -, -, -, -, hu⟩ | ⟨-, -, h₁, -⟩⟩ := timer_cases s
  · exact ⟨by rw [hm, hu, hsf]; exact h.card, by rw [hm, hsf]; exact h.bin⟩
  · exact ⟨by rw [hm, hu, hsf]; exact h.card, by rw [hm, hsf]; exact h.bin⟩
  · exact ⟨fun h => by omega, fun h => by omega⟩

/-- A callback keeps the invariant. -/
theorem tick_inv {s : Handshake} (h : s.Inv) : Handshake.Inv { s.timer with pc := s.pc.tick } := by
  have hsame : s.timer.SameFlags { s.timer with pc := s.pc.tick } := ⟨rfl, rfl, rfl, rfl, rfl, rfl⟩
  refine ⟨⟨(timer_matched h.matched).card, (timer_matched h.matched).bin⟩, ?_⟩
  have hpc := h.pcInv
  unfold Handshake.PcInv at hpc ⊢
  cases hs : s.pc with
  | test | pause =>
      simp only [hs] at hpc
      obtain ⟨hfree, hreq, hctrl⟩ := timer_free hpc.1
      refine ⟨hs ▸ hsame.free hfree, fun ht => ?_⟩
      exact (hctrl ht).elim (fun ht => hreq (hpc.2 ht)) id
  | select =>
      simp only [hs] at hpc
      obtain ⟨hfree, hreq, -⟩ := timer_free hpc.1
      exact ⟨hs ▸ hsame.free hfree, hreq hpc.2⟩
  | running c rest =>
      simp only [hs] at hpc
      exact timer_inCase _ hpc _
  | moving c ticked rest =>
      simp only [hs] at hpc
      exact timer_inCase _ hpc _

/-! ### The servo thread keeps the invariant -/

/-- Instructions after the announcement never announce again. -/
theorem Quiet.tail {i : ServoInstr} {rest : List ServoInstr} (h : Quiet (i :: rest)) : Quiet rest :=
  ⟨fun hm => h.1 (List.mem_cons_of_mem i hm), fun hm => h.2 (List.mem_cons_of_mem i hm)⟩

theorem Quiet.cons {i : ServoInstr} {rest : List ServoInstr} (h : Quiet rest)
    (hp : i ≠ .setPick) (hd : i ≠ .setDrop) : Quiet (i :: rest) := by
  refine ⟨fun hm => ?_, fun hm => ?_⟩
  · exact (List.mem_cons.mp hm).elim (fun e => hp e.symm) h.1
  · exact (List.mem_cons.mp hm).elim (fun e => hd e.symm) h.2

/-- A movement of a case begins; it is over at once when it never sleeps. -/
theorem exec_call_inCase {s : Handshake} {c : ℕ} {m : Movement} {rest : List ServoInstr}
    (h : s.InCase c (.call m :: rest)
      (WillSleep s.pwmLst (.call m :: rest) ∨ (c = 6 ∧ (ServoInstr.call m :: rest) = []))) :
    (s.exec c rest (.call m)).PcInv := by
  have hsame : s.SameFlags (s.exec c rest (.call m)) := ⟨rfl, rfl, rfl, rfl, rfl, rfl⟩
  by_cases hd : m.delays s.pwmLst = 0
  · have hpc : (s.exec c rest (.call m)).pc = .running c rest := by simp [Handshake.exec, hd]
    unfold Handshake.PcInv
    rw [hpc]
    obtain ⟨hw, ha⟩ | ⟨ha, hq, hsleep | ⟨-, hnil⟩⟩ | ⟨hf, hq⟩ := h
    · exact Or.inl ⟨hsame.waiting hw, ha⟩
    · refine Or.inr (Or.inl ⟨hsame.announced ha, hq.tail, Or.inl ?_⟩)
      exact hsleep.resolve_left fun hne => hne hd
    · exact absurd hnil (List.cons_ne_nil _ _)
    · exact Or.inr (Or.inr ⟨hsame.free hf, hq.tail⟩)
  · have hpc : (s.exec c rest (.call m)).pc = .moving c false rest := by simp [Handshake.exec, hd]
    unfold Handshake.PcInv
    rw [hpc]
    obtain ⟨hw, ha⟩ | ⟨ha, hq, -⟩ | ⟨hf, hq⟩ := h
    · exact Or.inl ⟨hsame.waiting hw, ha⟩
    · exact Or.inr (Or.inl ⟨hsame.announced ha, hq.tail, rfl⟩)
    · exact Or.inr (Or.inr ⟨hsame.free hf, hq.tail⟩)

/-- The announcement of a pick case. -/
theorem exec_setPick_inCase {s : Handshake} {c : ℕ} {rest : List ServoInstr} {unread : Prop}
    (h : s.InCase c (.setPick :: rest) unread) : (s.exec c rest .setPick).PcInv := by
  obtain ⟨hw, h₃, hq, hsleep⟩ | ⟨-, hq, -⟩ | ⟨-, hq⟩ := h
  · refine Or.inr (Or.inl ⟨⟨⟨hw.serves, hw.requesting, hw.started⟩, ?_, ?_⟩, hq, Or.inl hsleep⟩)
    · exact (decide_eq_true h₃).symm
    · exact hw.dropFlag.trans (decide_eq_false (by omega)).symm
  · exact absurd List.mem_cons_self hq.1
  · exact absurd List.mem_cons_self hq.1

/-- The announcement of a drop case. -/
theorem exec_setDrop_inCase {s : Handshake} {c : ℕ} {rest : List ServoInstr} {unread : Prop}
    (h : s.InCase c (.setDrop :: rest) unread) : (s.exec c rest .setDrop).PcInv := by
  obtain ⟨hw, h₄, hq, hsleep⟩ | ⟨-, hq, -⟩ | ⟨-, hq⟩ := h
  · refine Or.inr (Or.inl ⟨⟨⟨hw.serves, hw.requesting, hw.started⟩, ?_, ?_⟩, hq, hsleep⟩)
    · exact hw.pickFlag.trans (decide_eq_false (by omega)).symm
    · exact (decide_eq_true h₄).symm
  · exact absurd List.mem_cons_self hq.2
  · exact absurd List.mem_cons_self hq.2

/-- The instructions that only come after the announcement is read. -/
theorem exec_other_inCase {s : Handshake} {c : ℕ} {i : ServoInstr} {rest : List ServoInstr}
    (hi : i = .ifMoreTargets ∨ i = .ifDropTail ∨ i = .clearDropTail ∨ i = .setPut)
    (h : s.InCase c (i :: rest) (WillSleep s.pwmLst (i :: rest) ∨ (c = 6 ∧ (i :: rest) = []))) :
    (s.exec c rest i).PcInv := by
  have hleft : s.Free ∧ Quiet (i :: rest) := by
    obtain ⟨-, ha⟩ | ⟨-, -, hsleep | ⟨-, hnil⟩⟩ | hleft := h
    · obtain rfl | rfl | rfl | rfl := hi <;> exact ha.elim
    · obtain rfl | rfl | rfl | rfl := hi <;> exact hsleep.elim
    · exact absurd hnil (List.cons_ne_nil _ _)
    · exact hleft
  obtain ⟨hf, hq⟩ := hleft
  have hrest := hq.tail
  -- what these instructions leave as it is keeps the car free to go
  have hpc : ∀ s' : Handshake, ∀ rest', s'.pc = .running c rest' → s'.pickFlag = s.pickFlag →
      s'.dropFlag = s.dropFlag → s'.motion = s.motion → s'.started = s.started → Quiet rest' →
      s'.PcInv := by
    intro s' rest' hpc hp hd hm hst hq'
    unfold Handshake.PcInv
    rw [hpc]
    refine Or.inr (Or.inr ⟨⟨hp.trans hf.pickFlag, hd.trans hf.dropFlag, ?_⟩, hq'⟩)
    unfold Handshake.Staying
    rw [hm, hst]
    exact hf.started
  obtain rfl | rfl | rfl | rfl := hi
  · by_cases hmore : s.targetCnt < s.picNum
    · simp only [Handshake.exec, if_pos hmore]
      exact hpc _ _ rfl rfl rfl rfl rfl (hrest.cons (by simp) (by simp))
    · simp only [Handshake.exec, if_neg hmore]
      exact hpc _ _ rfl rfl rfl rfl rfl ((hrest.cons (by simp) (by simp)).cons (by simp) (by simp))
  · by_cases htail : s.dropTailFlag = true
    · simp only [Handshake.exec, if_pos htail]
      exact hpc _ _ rfl rfl rfl rfl rfl ((hrest.cons (by simp) (by simp)).cons (by simp) (by simp))
    · simp only [Handshake.exec, if_neg htail]
      exact hpc _ _ rfl rfl rfl rfl rfl hrest
  · exact hpc _ _ rfl rfl rfl rfl rfl hrest
  · exact hpc _ _ rfl rfl rfl rfl rfl hrest

/-- The end of a case: its announcement has been read. -/
theorem Handshake.InCase.nil_free {s : Handshake} {c : ℕ} {unread : Prop} (h : s.InCase c [] unread)
    (honly : unread → c = 6) (hread : c = 6 → s.dropFlag = false) : s.Free := by
  obtain ⟨-, ha⟩ | ⟨ha, -, hu⟩ | ⟨hf, -⟩ := h
  · exact ha.elim
  · -- only case 6 can get here with its announcement unread
    have hset : s.dropFlag = true := by rw [ha.dropFlag, honly hu]; rfl
    rw [hread (honly hu)] at hset
    exact absurd hset (by decide)
  · exact hf

/-- An instruction of a case leaves the stay and its request alone. -/
theorem exec_matched {s : Handshake} (h : s.Matched) (c : ℕ) (rest : List ServoInstr)
    (i : ServoInstr) : (s.exec c rest i).Matched := by
  have hsame : (s.exec c rest i).motion = s.motion ∧ (s.exec c rest i).uartFlag = s.uartFlag ∧
      (s.exec c rest i).servoFlag = s.servoFlag := by
    cases i with
    | ifMoreTargets =>
        unfold Handshake.exec
        by_cases hmore : s.targetCnt < s.picNum <;> simp [hmore]
    | ifDropTail =>
        unfold Handshake.exec
        by_cases htail : s.dropTailFlag = true <;> simp [htail]
    | call m => exact ⟨rfl, rfl, rfl⟩
    | setPick | setDrop | clearDropTail | setPut => exact ⟨rfl, rfl, rfl⟩
  obtain ⟨hm, hu, hsf⟩ := hsame
  exact ⟨by rw [hm, hu, hsf]; exact h.card, by rw [hm, hsf]; exact h.bin⟩

/-- A step of the servo thread keeps the invariant, if case 6 does not clear the request early. -/
theorem servo_inv {s s' : Handshake} (h : s.Inv) (hread : s.pc = .running 6 [] → s.dropFlag = false)
    (hstep : s.servo = some s') : s'.Inv := by
  have hpc := h.pcInv
  unfold Handshake.PcInv at hpc
  unfold Handshake.servo at hstep
  -- by cases on where the thread is
  cases hs : s.pc with
  | test =>
      simp only [hs] at hpc hstep
      obtain rfl := Option.some.inj hstep
      by_cases hctrl : s.servoFlagCtrl = true
      · simp only [hctrl, if_true]
        exact ⟨⟨h.matched.card, h.matched.bin⟩,
          ⟨hpc.1.pickFlag, hpc.1.dropFlag, hpc.1.started⟩, hpc.2 hctrl⟩
      · simp only [if_neg hctrl]
        exact ⟨⟨h.matched.card, h.matched.bin⟩,
          ⟨hpc.1.pickFlag, hpc.1.dropFlag, hpc.1.started⟩, hpc.2⟩
  | select =>
      simp only [hs] at hpc hstep
      obtain rfl := Option.some.inj hstep
      obtain ⟨hfree, hreq⟩ := hpc
      have hserves := h.matched.serves hreq
      -- the car may wait here, but no case of this stay has been started yet
      have hstart : s.started ++ [s.servoFlag] = [s.servoFlag] := by
        rw [hfree.started (hreq.2.imp_left And.left), List.nil_append]
      refine ⟨⟨h.matched.card, h.matched.bin⟩, Or.inl ⟨⟨⟨hserves, hreq, hstart⟩, ?_, ?_⟩, ?_⟩⟩
      · exact hfree.pickFlag
      · exact hfree.dropFlag
      · exact servoCase_announces hserves.bounds.1 hserves.bounds.2 _
  | running c rest =>
      cases rest with
      | nil =>
          simp only [hs] at hpc hstep
          obtain rfl := Option.some.inj hstep
          -- at the end of a case the request has been answered
          have hfree := Handshake.InCase.nil_free hpc
            (fun hu => hu.elim False.elim And.left) fun h₆ => hread (h₆ ▸ hs)
          exact ⟨⟨h.matched.card, h.matched.bin⟩,
            ⟨hfree.pickFlag, hfree.dropFlag, hfree.started⟩, fun ht => absurd ht (by simp)⟩
      | cons i rest =>
          simp only [hs] at hpc hstep
          obtain rfl := Option.some.inj hstep
          refine ⟨exec_matched h.matched c rest i, ?_⟩
          cases i with
          | call m => exact exec_call_inCase hpc
          | setPick => exact exec_setPick_inCase hpc
          | setDrop => exact exec_setDrop_inCase hpc
          | ifMoreTargets => exact exec_other_inCase (by simp) hpc
          | ifDropTail => exact exec_other_inCase (by simp) hpc
          | clearDropTail => exact exec_other_inCase (by simp) hpc
          | setPut => exact exec_other_inCase (by simp) hpc
  | moving c ticked rest =>
      simp only [hs] at hpc hstep
      by_cases hticked : ticked = true
      · rw [if_pos hticked] at hstep
        obtain rfl := Option.some.inj hstep
        have hsame : s.SameFlags { s with pc := .running c rest } := ⟨rfl, rfl, rfl, rfl, rfl, rfl⟩
        refine ⟨⟨h.matched.card, h.matched.bin⟩, ?_⟩
        obtain ⟨hw, ha⟩ | ⟨-, -, hno⟩ | ⟨hf, hq⟩ := hpc
        · exact Or.inl ⟨hsame.waiting hw, ha⟩
        · exact absurd (hticked.symm.trans hno) (by decide)
        · exact Or.inr (Or.inr ⟨hsame.free hf, hq⟩)
      · rw [if_neg hticked] at hstep
        exact absurd hstep (by simp)
  | pause =>
      simp only [hs] at hpc hstep
      obtain rfl := Option.some.inj hstep
      exact ⟨⟨h.matched.card, h.matched.bin⟩,
        ⟨hpc.1.pickFlag, hpc.1.dropFlag, hpc.1.started⟩, hpc.2⟩

/-! ### The car's own moves keep the invariant -/

/-- While the car is under way nothing is requested and nothing is announced, and it may be that the
last case is still coming to its end. -/
theorem Handshake.Inv.free_of_not_staying {s : Handshake} (h : s.Inv) (haway : ¬ s.Staying) :
    s.pickFlag = false ∧ s.dropFlag = false ∧ ¬ s.Requesting := by
  have hreq : ¬ s.Requesting := fun hr => haway (hr.2.imp_left And.left)
  have hcase : ∀ {c rest unread}, s.InCase c rest unread → s.Free := by
    rintro c rest unread (⟨hw, -⟩ | ⟨ha, -⟩ | ⟨hf, -⟩)
    · exact absurd hw.requesting hreq
    · exact absurd ha.requesting hreq
    · exact hf
  have hfree : s.Free := by
    have hpc := h.pcInv
    unfold Handshake.PcInv at hpc
    cases hs : s.pc with
    | test | pause | select =>
        simp only [hs] at hpc
        exact hpc.1
    | running c rest =>
        simp only [hs] at hpc
        exact hcase hpc
    | moving c ticked rest =>
        simp only [hs] at hpc
        exact hcase hpc
  exact ⟨hfree.pickFlag, hfree.dropFlag, hreq⟩

/-- A move of the car that starts a new log, or ends outside a stay, keeps the invariant of the
servo thread. -/
theorem Handshake.Inv.pcInv_of_move {s s' : Handshake} (h : s.Inv) (haway : ¬ s.Staying)
    (hpc : s'.pc = s.pc) (hctrl : s'.servoFlagCtrl = s.servoFlagCtrl)
    (hp : s'.pickFlag = s.pickFlag) (hd : s'.dropFlag = s.dropFlag)
    (hst : s'.Staying → s'.started = []) : s'.PcInv := by
  obtain ⟨hpick, hdrop, hreq⟩ := h.free_of_not_staying haway
  have hfree : s'.Free := ⟨hp.trans hpick, hd.trans hdrop, hst⟩
  have hinv := h.pcInv
  -- there was no request, so what the thread is about to do does not answer one
  unfold Handshake.PcInv at hinv ⊢
  rw [hpc]
  cases hs : s.pc with
  | test | pause =>
      simp only [hs] at hinv
      exact ⟨hfree, fun ht => absurd (hinv.2 (hctrl ▸ ht)) hreq⟩
  | select =>
      simp only [hs] at hinv
      exact absurd hinv.2 hreq
  | running c rest | moving c ticked rest =>
      simp only [hs] at hinv
      obtain ⟨hw, -⟩ | ⟨ha, -⟩ | ⟨-, hq⟩ := hinv
      · exact absurd hw.requesting hreq
      · exact absurd ha.requesting hreq
      · exact Or.inr (Or.inr ⟨hfree, hq⟩)

/-- The class of a card only adds to what is requested. -/
theorem Handshake.Inv.pcInv_of_classify {s : Handshake} (h : s.Inv) (sf : ℕ) :
    Handshake.PcInv { s with servoFlag := sf, uartFlag := true } := by
  have hreq : s.Requesting →
      Handshake.Requesting { s with servoFlag := sf, uartFlag := true } := by
    rintro ⟨hput, ⟨h13, -⟩ | h14⟩
    · exact ⟨hput, Or.inl ⟨h13, rfl⟩⟩
    · exact ⟨hput, Or.inr h14⟩
  have hcase : ∀ {c rest unread} pc, s.InCase c rest unread →
      Handshake.InCase { s with servoFlag := sf, uartFlag := true, pc } c rest unread := by
    rintro c rest unread pc (⟨hw, ha⟩ | ⟨ha, hq⟩ | ⟨hf, hq⟩)
    · exact Or.inl ⟨⟨⟨hw.serves, hreq hw.requesting, hw.started⟩, hw.pickFlag, hw.dropFlag⟩, ha⟩
    · refine Or.inr (Or.inl ⟨⟨⟨ha.serves, hreq ha.requesting, ha.started⟩, ?_, ?_⟩, hq⟩)
      · exact ha.pickFlag
      · exact ha.dropFlag
    · exact Or.inr (Or.inr ⟨⟨hf.pickFlag, hf.dropFlag, hf.started⟩, hq⟩)
  have hpc := h.pcInv
  unfold Handshake.PcInv at hpc ⊢
  cases hs : s.pc with
  | test | pause =>
      simp only [hs] at hpc
      exact ⟨⟨hpc.1.pickFlag, hpc.1.dropFlag, hpc.1.started⟩, fun hctrl => hreq (hpc.2 hctrl)⟩
  | select =>
      simp only [hs] at hpc
      exact ⟨⟨hpc.1.pickFlag, hpc.1.dropFlag, hpc.1.started⟩, hreq hpc.2⟩
  | running c rest | moving c ticked rest =>
      simp only [hs] at hpc
      exact hcase _ hpc

/-- **Every step keeps the invariant**, if case 6 does not clear the request early. -/
theorem handshakeStep_inv {s s' : Handshake} {a : HandshakeAct} (h : s.Inv)
    (hread : CallbackBeforeClear s a) (hstep : handshakeStep s a = some s') : s'.Inv := by
  -- only the thread needs the hypothesis: its step may be the end of case 6
  cases a with
  | tick =>
      obtain rfl := Option.some.inj hstep
      exact tick_inv h
  | servo => exact servo_inv h (hread rfl) hstep
  | arriveCard =>
      unfold handshakeStep at hstep
      obtain ⟨⟨haway, hsf⟩, hs'⟩ := Option.ite_none_right_eq_some.mp hstep
      obtain rfl := Option.some.inj hs'
      refine ⟨⟨fun _ => hsf, fun h14 => absurd h14 (show (13 : ℕ) ≠ 14 by decide)⟩, ?_⟩
      exact h.pcInv_of_move haway rfl rfl rfl rfl fun _ => rfl
  | classify sf =>
      unfold handshakeStep at hstep
      obtain ⟨⟨hbin, hsf⟩, hs'⟩ := Option.ite_none_right_eq_some.mp hstep
      obtain rfl := Option.some.inj hs'
      exact ⟨⟨fun _ _ => hsf, fun h14 => absurd h14 hbin⟩, h.pcInv_of_classify sf⟩
  | arriveBin sf =>
      unfold handshakeStep at hstep
      obtain ⟨⟨haway, hsf⟩, hs'⟩ := Option.ite_none_right_eq_some.mp hstep
      obtain rfl := Option.some.inj hs'
      refine ⟨⟨fun h13 => absurd h13 (show (14 : ℕ) ≠ 13 by decide), fun _ => hsf⟩, ?_⟩
      exact h.pcInv_of_move haway rfl rfl rfl rfl fun _ => rfl
  | drive motion targetCnt =>
      unfold handshakeStep at hstep
      obtain ⟨⟨haway, h13, h14⟩, hs'⟩ := Option.ite_none_right_eq_some.mp hstep
      obtain rfl := Option.some.inj hs'
      refine ⟨⟨fun h => absurd h h13, fun h => absurd h h14⟩, ?_⟩
      exact h.pcInv_of_move haway rfl rfl rfl rfl fun hs => (hs.elim h13 h14).elim

/-! ## One case per stay -/

/-- A callback ends a stay only by reading an announcement. -/
theorem timer_leaves {s : Handshake} (h : s.timer.motion ≠ s.motion) : s.Requesting ∧ s.Told := by
  obtain ⟨-, ⟨-, hm, -⟩ | ⟨-, -, hm, -⟩ | ⟨hr, ht, -⟩⟩ := timer_cases s
  · exact absurd hm h
  · exact absurd hm h
  · exact ⟨hr, ht⟩

/-- An announcement is the one of the case the current stay asked for. -/
theorem Handshake.Inv.asked_of_told {s : Handshake} (h : s.Inv) (ht : s.Told) :
    ∃ c, s.Asked c := by
  have hcase : ∀ {c rest unread}, s.InCase c rest unread → s.Asked c := by
    rintro c rest unread (⟨hw, -⟩ | ⟨ha, -⟩ | ⟨hf, -⟩)
    · exact hw.toAsked
    · exact ha.toAsked
    · exact absurd ht (Handshake.not_told hf.pickFlag hf.dropFlag)
  have hpc := h.pcInv
  unfold Handshake.PcInv at hpc
  cases hs : s.pc with
  | test | pause | select =>
      simp only [hs] at hpc
      exact absurd ht (Handshake.not_told hpc.1.pickFlag hpc.1.dropFlag)
  | running c rest | moving c ticked rest =>
      simp only [hs] at hpc
      exact ⟨c, hcase hpc⟩

/-- The invariant makes every step keep to one case per stay. -/
theorem Handshake.Inv.oneCasePerStay {s s' : Handshake} {a : HandshakeAct} (h : s.Inv)
    (hstep : handshakeStep s a = some s') : OneCasePerStay s a where
  starts := by
    rintro rfl hs
    have hpc := h.pcInv
    unfold Handshake.PcInv at hpc
    simp only [hs] at hpc
    obtain ⟨hfree, hreq⟩ := hpc
    exact ⟨h.matched.serves hreq, hfree.started (hreq.2.imp_left And.left)⟩
  leaves := by
    rintro - hleave
    obtain ⟨c, hc⟩ := h.asked_of_told (timer_leaves hleave).2
    exact ⟨c, hc.started, hc.serves⟩
  arrives := by
    intro ha
    have haway : ¬ s.Staying := by
      obtain rfl | ⟨sf, rfl⟩ := ha
      · exact (Option.ite_none_right_eq_some.mp hstep).1.1
      · exact (Option.ite_none_right_eq_some.mp hstep).1.1
    obtain ⟨hp, hd, -⟩ := h.free_of_not_staying haway
    exact ⟨hp, hd⟩

/-- **One case per stay, in every run that does not clear the request early.** -/
theorem oneCasePerStay_of_callbackBeforeClear {s₀ t : Handshake} {as : List HandshakeAct}
    (h₀ : s₀.Initial) (hrun : runSteps handshakeStep s₀ as = some t)
    (hread : StepsSatisfy handshakeStep CallbackBeforeClear s₀ as) :
    StepsSatisfy handshakeStep OneCasePerStay s₀ as :=
  stepsSatisfy_of_invariant (fun _ _ _ hs ha hstep => handshakeStep_inv hs ha hstep)
    (fun _ _ _ hs hstep => hs.oneCasePerStay hstep) as s₀ t h₀.inv hread hrun

/-- A stay at a bin with drop case 5, which turns the arm back after it has announced its end: a
callback runs during each movement. -/
def dropThenTurn : List HandshakeAct :=
  [.arriveBin 5, .tick, .servo, .servo, .servo, .tick, .servo, .servo, .servo, .tick, .servo,
    .servo]

theorem oneCasePerStay_dropThenTurn :
    StepsSatisfy handshakeStep OneCasePerStay .boot dropThenTurn :=
  oneCasePerStay_of_callbackBeforeClear Handshake.initial_boot (t := { Handshake.boot with
      motion := 1, servoFlag := 5, pc := .pause, pwmLst := 1110, started := [5] }) rfl
    (by decide)

/-- A stay at a bin with drop case 6: the case announces its end and clears the request at once, and
the next callback repeats the request as it lets the car leave. -/
def dropThenClear : List HandshakeAct :=
  [.arriveBin 6, .tick, .servo, .servo, .servo, .tick, .servo, .servo, .servo, .tick, .servo,
    .servo]

/-- Where `dropThenClear` leads: the car is on its way, and the thread is about to start case 6. -/
def Handshake.afterDropThenClear : Handshake :=
  { Handshake.boot with
    motion := 1, servoFlag := 6, servoFlagCtrl := true, pc := .select, started := [6] }

/-- **Case 6 clears the request too early**: once the car has left the bin, the case is started
again. -/
theorem dropThenClear_starts_again :
    ¬ ∀ (s₀ t : Handshake) (as : List HandshakeAct), s₀.Initial →
      runSteps handshakeStep s₀ as = some t → StepsSatisfy handshakeStep OneCasePerStay s₀ as := by
  intro h
  have hreach : runSteps handshakeStep .boot dropThenClear = some .afterDropThenClear := rfl
  have hsteps := h .boot _ (dropThenClear ++ [.servo]) Handshake.initial_boot rfl
  have hserves := ((hsteps.concat hreach).2.starts rfl rfl).1
  obtain ⟨h13, -⟩ | ⟨h14, -⟩ := hserves
  · exact absurd h13 (by decide)
  · exact absurd h14 (by decide)

end HandlingRobot
