import HandlingRobot.Servo.Handshake
import Mathlib.Algebra.Order.Group.Abs
import Mathlib.Algebra.Order.Group.Int

/-! # The movements of the arm

The functions of `servo.c` turn the turntable, open the flap and lower the picking arm by sequences
of duties with delays between them, and switch the pin `C5` that holds the card. The handshake knows
of a movement only where it turns the turntable and how often it sleeps.

* **`ArmCmd`**, **`Movement.commands`** — the calls that a movement makes.
* **`delays_commands`** — they sleep as often as the handshake says.
* **`Careful`** — what may be asked of the arm in a state: no jumps of the turntable, no turning
  with the picking arm on the floor or the flap open, and a card is let go over its bin only.
* **`Movement.does`** — a movement that fits the state of the arm is careful.
* **`armRun_careful`** — so is every movement in every run of the servo thread and the callbacks. -/

namespace HandlingRobot

/-! ## Commands -/

/-- `SERVO_ROTE`, `SERVO_DROP` and `SERVO_GET`: the turntable, the flap and the picking arm. -/
inductive Channel
  | rote
  | drop
  | get
  deriving Repr, DecidableEq

/-- The calls that reach the arm, and the sleeps between them. -/
inductive ArmCmd
  /-- `pwm_duty(ch, duty)`. -/
  | pwm (ch : Channel) (duty : ℤ)
  /-- `gpio_set(C5, on)`. -/
  | c5 (on : Bool)
  /-- `rt_thread_mdelay(ms)`. -/
  | mdelay (ms : ℕ)
  deriving Repr, DecidableEq

/-- A loop over the duties of a channel from `start` on. -/
def sweep (ch : Channel) (start step : ℤ) (ms n : ℕ) : List ArmCmd :=
  (List.range n).flatMap fun i : ℕ => [.pwm ch (start + step * (i + 1 : ℕ)), .mdelay ms]

/-- The step of a loop towards `tar`. -/
def sweepStep (start tar : ℤ) : ℤ := if tar - start > 0 then 10 else -10

/-- **`servo_rote_ctrl(tar)`** with the turntable at `pwm_lst`. -/
def servoRoteCtrl (tar pwmLst : ℤ) : List ArmCmd :=
  sweep .rote pwmLst (sweepStep pwmLst tar) 15 ((tar - pwmLst).natAbs / 10) ++ [.pwm .rote tar]

/-- The loop that lowers the picking arm from `GET_UP` to `tar`. -/
def lowerGet (tar : ℤ) (ms : ℕ) : List ArmCmd :=
  sweep .get getUp (if tar - getUp < 0 then -10 else 10) ms ((getUp - tar).natAbs / 10) ++
    [.pwm .get tar]

/-- `servo_reset`. -/
def servoReset (pwmLst : ℤ) : List ArmCmd :=
  servoRoteCtrl 600 pwmLst ++ [.pwm .drop 635, .pwm .get getUp]

/-- `servo_get`. -/
def servoGet (pwmLst : ℤ) : List ArmCmd :=
  [.c5 true] ++ servoRoteCtrl 600 pwmLst ++ [.pwm .drop 635] ++ lowerGet getDown 8 ++ [.mdelay 100]

/-- The functions `servo_put_…`: they differ in the place of the turntable. -/
def servoPut (tar pwmLst : ℤ) : List ArmCmd :=
  servoRoteCtrl tar pwmLst ++ [.pwm .drop 635] ++ lowerGet getPut 15 ++ [.c5 false]

/-- `servo_put_left`, `servo_put_right` and `servo_put_tail`. -/
def servoPutLeft : ℤ → List ArmCmd := servoPut 840
@[inherit_doc servoPutLeft] def servoPutRight : ℤ → List ArmCmd := servoPut 340
@[inherit_doc servoPutLeft] def servoPutTail : ℤ → List ArmCmd := servoPut 1110

/-- The functions `servo_drop_…`: they differ in the place of the turntable, and in how long the
flap stays open. -/
def servoDrop (tar : ℤ) (ms : ℕ) (pwmLst : ℤ) : List ArmCmd :=
  [.pwm .get getUp] ++ servoRoteCtrl tar pwmLst ++ sweep .drop 635 (-10) 8 27 ++
    [.mdelay ms, .pwm .drop 635, .c5 false]

/-- `servo_drop_left`, `servo_drop_right` and `servo_drop_tail`. -/
def servoDropLeft : ℤ → List ArmCmd := servoDrop 600 200
@[inherit_doc servoDropLeft] def servoDropRight : ℤ → List ArmCmd := servoDrop 1110 200
@[inherit_doc servoDropLeft] def servoDropTail : ℤ → List ArmCmd := servoDrop 850 300

/-- **The calls of a movement** that begins with the turntable at `pwmLst`. -/
def Movement.commands (pwmLst : ℤ) : Movement → List ArmCmd
  | servoReset => HandlingRobot.servoReset pwmLst
  | servoGet => HandlingRobot.servoGet pwmLst
  | servoPutLeft => HandlingRobot.servoPutLeft pwmLst
  | servoPutTail => HandlingRobot.servoPutTail pwmLst
  | servoPutRight => HandlingRobot.servoPutRight pwmLst
  | servoDropRight => HandlingRobot.servoDropRight pwmLst
  | servoDropTail => HandlingRobot.servoDropTail pwmLst
  | servoDropLeft => HandlingRobot.servoDropLeft pwmLst
  | servoRoteCtrl tar => HandlingRobot.servoRoteCtrl tar pwmLst
  | mdelay ms => [.mdelay ms]

/-! ## Sleeps -/

/-- The command sleeps. -/
def ArmCmd.sleeps : ArmCmd → Bool
  | mdelay _ => true
  | _ => false

theorem countP_sweep (ch : Channel) (start step : ℤ) (ms n : ℕ) :
    (sweep ch start step ms n).countP ArmCmd.sleeps = n := by
  induction n with
  | zero => rfl
  | succ n ih =>
      rw [sweep, List.range_succ, List.flatMap_append, List.countP_append]
      rw [sweep] at ih
      rw [ih]
      rfl

theorem countP_servoRoteCtrl (tar pwmLst : ℤ) :
    (servoRoteCtrl tar pwmLst).countP ArmCmd.sleeps = roteDelays tar pwmLst := by
  rw [servoRoteCtrl, List.countP_append, countP_sweep]
  rfl

/-- **The calls of a movement sleep as often as the handshake says.** -/
theorem delays_commands (m : Movement) (pwmLst : ℤ) :
    (m.commands pwmLst).countP ArmCmd.sleeps = m.delays pwmLst := by
  have hput : ∀ tar, (servoPut tar pwmLst).countP ArmCmd.sleeps =
      roteDelays tar pwmLst + (getUp - getPut).natAbs / 10 := by
    intro tar
    rw [servoPut, List.countP_append, List.countP_append, List.countP_append,
      countP_servoRoteCtrl, lowerGet, List.countP_append, countP_sweep]
    rfl
  have hdrop : ∀ tar ms, (servoDrop tar ms pwmLst).countP ArmCmd.sleeps =
      roteDelays tar pwmLst + 27 + 1 := by
    intro tar ms
    rw [servoDrop, List.countP_append, List.countP_append, List.countP_append,
      countP_servoRoteCtrl, countP_sweep]
    exact congrArg (· + 1) (congrArg (· + 27) (Nat.zero_add _))
  cases m with
  | servoReset =>
      show (servoReset pwmLst).countP ArmCmd.sleeps = roteDelays 600 pwmLst
      rw [servoReset, List.countP_append, countP_servoRoteCtrl]
      rfl
  | servoGet =>
      show (servoGet pwmLst).countP ArmCmd.sleeps = _
      rw [servoGet, List.countP_append, List.countP_append, List.countP_append,
        List.countP_append, countP_servoRoteCtrl, lowerGet, List.countP_append, countP_sweep]
      exact congrArg (· + 1) (congrArg (· + 44) (Nat.zero_add _))
  | servoPutLeft => exact hput 840
  | servoPutTail => exact hput 1110
  | servoPutRight => exact hput 340
  | servoDropRight => exact hdrop 1110 200
  | servoDropTail => exact hdrop 850 300
  | servoDropLeft => exact hdrop 600 200
  | servoRoteCtrl tar => exact countP_servoRoteCtrl tar pwmLst
  | mdelay ms => rfl

/-! ## Care -/

/-- **The arm**: the duties of its channels, and the pin that holds the card. -/
structure Arm where
  rote : ℤ
  drop : ℤ
  get : ℤ
  c5 : Bool
  deriving Repr, DecidableEq

/-- The duties `servo_init` sets, and the pin after `gpio_init`. -/
def Arm.start : Arm := ⟨600, 635, getUp, false⟩

/-- The duty of a channel. -/
def Arm.duty (a : Arm) : Channel → ℤ
  | .rote => a.rote
  | .drop => a.drop
  | .get => a.get

/-- `pwm_duty(ch, duty)`. -/
def Arm.set (a : Arm) (ch : Channel) (duty : ℤ) : Arm :=
  match ch with
  | .rote => { a with rote := duty }
  | .drop => { a with drop := duty }
  | .get => { a with get := duty }

@[simp] theorem Arm.set_duty (a : Arm) (ch : Channel) : a.set ch (a.duty ch) = a := by
  cases ch <;> rfl

@[simp] theorem Arm.set_set (a : Arm) (ch : Channel) (u v : ℤ) :
    (a.set ch u).set ch v = a.set ch v := by
  cases ch <;> rfl

/-- A command. -/
def Arm.exec (a : Arm) : ArmCmd → Option Arm
  | .pwm ch duty => some (a.set ch duty)
  | .c5 on => some { a with c5 := on }
  | .mdelay _ => some a

/-- Where the turntable stands when case `c` lets go of a card: over the bin of its class, or where
the bin is emptied. -/
def bin : ℕ → ℤ
  | 1 => 840
  | 2 => 1110
  | 3 => 340
  | 4 => dropRight
  | 5 => dropTail
  | 6 => dropLeft
  | _ => 600

/-- **What case `c` may ask of the arm** in a state. -/
def Careful (c : ℕ) (a : Arm) : ArmCmd → Prop
  -- the turntable does not jump, and turns with the flap closed and the picking arm off the floor
  | .pwm .rote duty => (340 ≤ duty ∧ duty ≤ 1110 ∧ |duty - a.rote| ≤ 10) ∧
      (duty ≠ a.rote → a.get ≤ getPut ∧ a.drop = 635)
  -- the flap opens with the picking arm up, over the place of the case
  | .pwm .drop duty => (365 ≤ duty ∧ duty ≤ 635) ∧ (duty ≠ 635 → a.get = getUp ∧ a.rote = bin c)
  -- the picking arm goes down to the floor in front of the car only
  | .pwm .get duty => (getUp ≤ duty ∧ duty ≤ getDown) ∧ (getPut < duty → a.rote = 600)
  -- a card is let go over its bin
  | .c5 on => on = false → a.rote = bin c ∧ a.drop = 635 ∧
      a.get = if c ≤ 3 then getPut else getUp
  | .mdelay _ => True

/-- Case `c` takes the arm from `a` to `b` by these commands, and is careful all the way. -/
def Does (c : ℕ) (a : Arm) (cmds : List ArmCmd) (b : Arm) : Prop :=
  StepsSatisfy Arm.exec (Careful c) a cmds ∧ runSteps Arm.exec a cmds = some b

section Does

variable {c : ℕ} {a b d : Arm} {cmds cmds' : List ArmCmd}

theorem Does.nil : Does c a [] a := ⟨trivial, rfl⟩

theorem Does.append (h : Does c a cmds b) (h' : Does c b cmds' d) : Does c a (cmds ++ cmds') d := by
  refine ⟨h.1.append h.2 h'.1, ?_⟩
  rw [runSteps_append, h.2]
  exact h'.2

theorem Does.single {cmd : ArmCmd} (hcare : Careful c a cmd) (hexec : a.exec cmd = some b) :
    Does c a [cmd] b := by
  refine ⟨⟨hcare, fun _ _ => trivial⟩, ?_⟩
  rw [runSteps_cons, hexec]
  rfl

theorem Does.pwm (ch : Channel) (duty : ℤ) (h : Careful c a (.pwm ch duty)) :
    Does c a [.pwm ch duty] (a.set ch duty) := Does.single h rfl

theorem Does.mdelay (ms : ℕ) : Does c a [.mdelay ms] a := Does.single trivial rfl

/-- Where a channel stands before turn `i` of a loop. -/
def sweepAt (a : Arm) (ch : Channel) (start step : ℤ) (i : ℕ) : ℤ :=
  if i = 0 then a.duty ch else start + step * i

/-- **A loop over duties**, by induction on the number of turns. -/
theorem sweep_does (ch : Channel) (start step : ℤ) (ms n : ℕ)
    (h : ∀ i < n, Careful c (a.set ch (sweepAt a ch start step i))
      (.pwm ch (start + step * (i + 1 : ℕ)))) :
    Does c a (sweep ch start step ms n) (a.set ch (sweepAt a ch start step n)) := by
  induction n with
  | zero =>
      rw [sweepAt, if_pos rfl, Arm.set_duty]
      exact Does.nil
  | succ n ih =>
      have hturn := (Does.pwm _ _ (h n n.lt_succ_self)).append (Does.mdelay ms)
      rw [Arm.set_set] at hturn
      have hat : sweepAt a ch start step (n + 1) = start + step * (n + 1 : ℕ) :=
        if_neg n.succ_ne_zero
      rw [sweep, List.range_succ, List.flatMap_append, List.flatMap_singleton, hat]
      exact (ih fun i hi => h i (Nat.lt_succ_of_lt hi)).append hturn

/-! ## Movements -/

/-- The arm between two movements: the turntable is where `pwm_lst` says, and the flap closed. -/
structure Arm.Ready (a : Arm) (pwm : ℤ) : Prop where
  rote : a.rote = pwm
  mem : 340 ≤ pwm ∧ pwm ≤ 1110
  drop : a.drop = 635
  get : getUp ≤ a.get ∧ a.get ≤ getDown

/-- **The turntable**: it goes to its place in steps of 10. -/
theorem servoRoteCtrl_does {pwm tar : ℤ} (h : a.Ready pwm) (htar : 340 ≤ tar ∧ tar ≤ 1110)
    (hturn : tar = pwm ∨ a.get ≤ getPut) :
    Does c a (servoRoteCtrl tar pwm) { a with rote := tar } := by
  obtain ⟨hrote, hmem, hdrop, -⟩ := h
  have hat : ∀ i, sweepAt a .rote pwm (sweepStep pwm tar) i = pwm + sweepStep pwm tar * i := by
    intro i
    unfold sweepAt
    split_ifs with hi
    · rw [hi, Nat.cast_zero, mul_zero, add_zero]
      exact hrote
    · rfl
  have hclear : ∀ {duty v : ℤ}, (tar = pwm → duty = v) → duty ≠ v → a.get ≤ getPut ∧ a.drop = 635 :=
    fun hsame hne => ⟨hturn.resolve_left fun heq => hne (hsame heq), hdrop⟩
  have hloop := sweep_does (c := c) (a := a) .rote pwm (sweepStep pwm tar) 15
    ((tar - pwm).natAbs / 10) ?_
  · refine hloop.append (Does.pwm _ _ ⟨⟨htar.1, htar.2, ?_⟩, ?_⟩)
    · show |tar - sweepAt a .rote pwm (sweepStep pwm tar) _| ≤ 10
      rw [hat, abs_le, sweepStep]
      split_ifs <;> omega
    · refine hclear fun heq => ?_
      show tar = sweepAt a .rote pwm (sweepStep pwm tar) _
      rw [hat, heq, sub_self]
      simp
  · intro i hi
    have hpos : (a.set .rote (sweepAt a .rote pwm (sweepStep pwm tar) i)).rote =
        pwm + sweepStep pwm tar * i := hat i
    refine ⟨⟨?_, ?_, ?_⟩, hclear fun heq => ?_⟩
    · unfold sweepStep
      split_ifs <;> push_cast <;> omega
    · unfold sweepStep
      split_ifs <;> push_cast <;> omega
    · rw [hpos, abs_le]
      unfold sweepStep
      split_ifs <;> push_cast <;> constructor <;> omega
    · omega

/-- **The picking arm** goes down from above, in steps of 10. -/
theorem lowerGet_does (tar : ℤ) (htar : getUp ≤ tar ∧ tar ≤ getDown)
    (hfront : getPut < tar → a.rote = 600) (ms : ℕ) :
    Does c a (lowerGet tar ms) { a with get := tar } := by
  obtain ⟨hup, hdown⟩ := htar
  have hloop := sweep_does (c := c) (a := a) .get getUp 10 ms ((getUp - tar).natAbs / 10)
    fun i hi => ?_
  · rw [lowerGet, if_neg (by omega)]
    exact hloop.append (Does.pwm _ _ ⟨⟨hup, hdown⟩, hfront⟩)
  · refine ⟨by constructor <;> push_cast <;> omega, fun hlow => hfront ?_⟩
    push_cast at hlow
    omega

/-- **The flap** opens in steps of 10, stays open and is closed. -/
theorem flap_does (hrote : a.rote = bin c) (hget : a.get = getUp) (hdrop : a.drop = 635)
    (hc : ¬ c ≤ 3) (ms : ℕ) :
    Does c a (sweep .drop 635 (-10) 8 27 ++ [.mdelay ms, .pwm .drop 635, .c5 false])
      { a with c5 := false } := by
  have hloop := sweep_does (c := c) (a := a) .drop 635 (-10) 8 27
    fun i hi => ⟨by constructor <;> push_cast <;> omega, fun _ => ⟨hget, hrote⟩⟩
  have hopen := (hloop.append (Does.mdelay ms)).append
    (Does.pwm .drop 635 ⟨by decide, fun hne => absurd rfl hne⟩)
  rw [Arm.set_set] at hopen
  have hclosed : a.set .drop 635 = a := by
    rw [← hdrop]
    exact Arm.set_duty a .drop
  rw [hclosed] at hopen
  have hlet : Careful c a (.c5 false) := fun _ => ⟨hrote, hdrop, by rw [if_neg hc, hget]⟩
  have hall := hopen.append (Does.single (b := { a with c5 := false }) hlet rfl)
  rw [List.append_assoc, List.append_assoc] at hall
  exact hall

/-- Where a movement leaves the picking arm. -/
def Movement.getAfter (get : ℤ) : Movement → ℤ
  | servoReset | servoDropRight | servoDropTail | servoDropLeft => getUp
  | servoGet => getDown
  | servoPutLeft | servoPutTail | servoPutRight => getPut
  | servoRoteCtrl _ | mdelay _ => get

/-- The movement is a `servo_put_…`. -/
def Movement.puts : Movement → Bool
  | servoPutLeft | servoPutTail | servoPutRight => true
  | _ => false

/-- The movement is a `servo_drop_…`. -/
def Movement.drops : Movement → Bool
  | servoDropRight | servoDropTail | servoDropLeft => true
  | _ => false

/-- **The movement fits the arm** in case `c`: it turns to a place on the dial, with the picking arm
off the floor unless the turntable is there already, and lets go over the place of the case. -/
structure Movement.Fits (c : ℕ) (pwm get : ℤ) (m : Movement) : Prop where
  turns : ∀ tar, m.target = some tar → (340 ≤ tar ∧ tar ≤ 1110) ∧ (tar = pwm ∨ get ≤ getPut)
  puts : m.puts = true → m.target = some (bin c) ∧ c ≤ 3
  drops : m.drops = true → m.target = some (bin c) ∧ ¬ c ≤ 3

/-- A function `servo_put_…`. -/
theorem servoPut_does {pwm tar : ℤ} (h : a.Ready pwm) (htar : 340 ≤ tar ∧ tar ≤ 1110)
    (hturn : tar = pwm ∨ a.get ≤ getPut) (hbin : tar = bin c) (hc : c ≤ 3) :
    Does c a (servoPut tar pwm) ⟨tar, 635, getPut, false⟩ := by
  have hclose := (servoRoteCtrl_does (c := c) h htar hturn).append
    (Does.pwm .drop 635 ⟨by decide, fun hne => absurd rfl hne⟩)
  have hlower := hclose.append (lowerGet_does getPut (by decide)
    (fun hlow => absurd hlow (lt_irrefl _)) 15)
  refine hlower.append (Does.single (fun _ => ⟨hbin, rfl, ?_⟩) rfl)
  rw [if_pos hc]

/-- A function `servo_drop_…`. -/
theorem servoDrop_does {pwm tar : ℤ} (h : a.Ready pwm) (htar : 340 ≤ tar ∧ tar ≤ 1110)
    (hbin : tar = bin c) (hc : ¬ c ≤ 3) (ms : ℕ) :
    Does c a (servoDrop tar ms pwm) ⟨tar, 635, getUp, false⟩ := by
  have hget : getUp ≤ getUp ∧ getUp ≤ getDown := by decide
  have hup : Does c a [.pwm .get getUp] { a with get := getUp } :=
    Does.pwm _ _ ⟨hget, fun hlow => absurd hlow (by decide)⟩
  have hready : Arm.Ready { a with get := getUp } pwm := ⟨h.rote, h.mem, h.drop, hget⟩
  have hlow : getUp ≤ getPut := by decide
  have hturn := hup.append (servoRoteCtrl_does (c := c) hready htar (Or.inr hlow))
  have hflap := flap_does (c := c) (a := { a with get := getUp, rote := tar }) hbin rfl h.drop hc ms
  have hall := hturn.append hflap
  rw [h.drop, ← List.append_assoc] at hall
  exact hall

/-- **A movement that fits is careful**, and leaves the arm ready for the next one. -/
theorem Movement.does {m : Movement} {pwm : ℤ} (h : a.Ready pwm) (hfits : m.Fits c pwm a.get) :
    ∃ on, Does c a (m.commands pwm) ⟨m.after pwm, 635, m.getAfter a.get, on⟩ := by
  have hready : a = ⟨pwm, 635, a.get, a.c5⟩ := by
    rw [← h.rote, ← h.drop]
  have hclosed : ∀ {b : Arm}, Careful c b (.pwm .drop 635) := ⟨by decide, fun hne => absurd rfl hne⟩
  have hup : ∀ {b : Arm}, Careful c b (.pwm .get getUp) := fun {b} =>
    ⟨by decide, fun hlow => absurd hlow (by decide)⟩
  cases m with
  | servoReset =>
      obtain ⟨htar, hturn⟩ := hfits.turns 600 rfl
      exact ⟨a.c5, (servoRoteCtrl_does (c := c) h htar hturn).append
        ((Does.pwm _ _ hclosed).append (Does.pwm _ _ hup))⟩
  | servoGet =>
      obtain ⟨htar, hturn⟩ := hfits.turns 600 rfl
      have hhold : Does c a [.c5 true] { a with c5 := true } :=
        Does.single (fun hoff => Bool.noConfusion hoff) rfl
      have hready' : Arm.Ready { a with c5 := true } pwm := ⟨h.rote, h.mem, h.drop, h.get⟩
      have hturned := hhold.append (servoRoteCtrl_does (c := c) hready' htar hturn)
      have hlower := (hturned.append (Does.pwm _ _ hclosed)).append
        (lowerGet_does getDown (by decide) (fun _ => rfl) 8)
      exact ⟨true, hlower.append (Does.mdelay 100)⟩
  | servoPutLeft =>
      obtain ⟨hbin, hc⟩ := hfits.puts rfl
      obtain ⟨htar, hturn⟩ := hfits.turns 840 rfl
      exact ⟨false, servoPut_does h htar hturn (Option.some.inj hbin) hc⟩
  | servoPutTail =>
      obtain ⟨hbin, hc⟩ := hfits.puts rfl
      obtain ⟨htar, hturn⟩ := hfits.turns 1110 rfl
      exact ⟨false, servoPut_does h htar hturn (Option.some.inj hbin) hc⟩
  | servoPutRight =>
      obtain ⟨hbin, hc⟩ := hfits.puts rfl
      obtain ⟨htar, hturn⟩ := hfits.turns 340 rfl
      exact ⟨false, servoPut_does h htar hturn (Option.some.inj hbin) hc⟩
  | servoDropRight =>
      obtain ⟨hbin, hc⟩ := hfits.drops rfl
      exact ⟨false, servoDrop_does h (hfits.turns 1110 rfl).1 (Option.some.inj hbin) hc 200⟩
  | servoDropTail =>
      obtain ⟨hbin, hc⟩ := hfits.drops rfl
      exact ⟨false, servoDrop_does h (hfits.turns 850 rfl).1 (Option.some.inj hbin) hc 300⟩
  | servoDropLeft =>
      obtain ⟨hbin, hc⟩ := hfits.drops rfl
      exact ⟨false, servoDrop_does h (hfits.turns 600 rfl).1 (Option.some.inj hbin) hc 200⟩
  | servoRoteCtrl tar =>
      obtain ⟨htar, hturn⟩ := hfits.turns tar rfl
      have hall := servoRoteCtrl_does (c := c) h htar hturn
      rw [hready] at hall ⊢
      exact ⟨a.c5, hall⟩
  | mdelay ms =>
      rw [hready]
      exact ⟨a.c5, Does.mdelay ms⟩

end Does

/-! ## Cases -/

/-- **The rest of case `c` fits the arm**, and leaves it ready for the next case. -/
def FitsAll (c : ℕ) : ℤ → ℤ → List ServoInstr → Prop
  | _, get, [] => get ≤ getPut
  | pwm, get, .call m :: rest => m.Fits c pwm get ∧ FitsAll c (m.after pwm) (m.getAfter get) rest
  -- either the arm is reset, or it may turn to the place where the next bin is emptied
  | pwm, get, .ifMoreTargets :: rest =>
      get ≤ getPut ∧ FitsAll c 600 getUp rest ∧ FitsAll c pwm get rest ∧ FitsAll c dropTail get rest
  | pwm, get, .ifDropTail :: rest =>
      get ≤ getPut ∧ FitsAll c pwm get rest ∧ FitsAll c dropTail get rest
  | pwm, get, .setPick :: rest => FitsAll c pwm get rest
  | pwm, get, .setDrop :: rest => FitsAll c pwm get rest
  | pwm, get, .clearDropTail :: rest => FitsAll c pwm get rest
  | pwm, get, .setPut :: rest => FitsAll c pwm get rest

/-- A movement that turns to `tar` and lets go of nothing. -/
theorem fits_of_target {c : ℕ} {pwm get tar : ℤ} {m : Movement} (htarget : m.target = some tar)
    (hputs : m.puts = false) (hdrops : m.drops = false) (htar : 340 ≤ tar ∧ tar ≤ 1110)
    (hturn : tar = pwm ∨ get ≤ getPut) : m.Fits c pwm get where
  turns tar' h := by
    obtain rfl : tar = tar' := Option.some.inj (htarget.symm.trans h)
    exact ⟨htar, hturn⟩
  puts h := absurd (hputs.symm.trans h) Bool.false_ne_true
  drops h := absurd (hdrops.symm.trans h) Bool.false_ne_true

theorem fits_mdelay {c : ℕ} {pwm get : ℤ} (ms : ℕ) : (Movement.mdelay ms).Fits c pwm get where
  turns _ h := nomatch h
  puts h := absurd h Bool.false_ne_true
  drops h := absurd h Bool.false_ne_true

/-- A movement that lets go of a card over the place of its case. -/
theorem fits_of_bin {c : ℕ} {pwm get : ℤ} {m : Movement} (htarget : m.target = some (bin c))
    (hputs : m.puts = true → c ≤ 3) (hdrops : m.drops = true → ¬ c ≤ 3)
    (hbin : 340 ≤ bin c ∧ bin c ≤ 1110) (hget : get ≤ getPut) : m.Fits c pwm get where
  turns tar h := by
    obtain rfl : bin c = tar := Option.some.inj (htarget.symm.trans h)
    exact ⟨hbin, Or.inr hget⟩
  puts h := ⟨htarget, hputs h⟩
  drops h := ⟨htarget, hdrops h⟩

/-- A pick-and-place case with a movement that puts the card over its bin. -/
theorem pickCase_fits {c : ℕ} {pwm get : ℤ} {put : Movement} (htarget : put.target = some (bin c))
    (hdrops : put.drops = false) (hc : c ≤ 3) (hbin : 340 ≤ bin c ∧ bin c ≤ 1110)
    (hafter : put.getAfter getUp = getPut) (hget : get ≤ getPut) :
    FitsAll c pwm get (pickCase put) := by
  have hlow : getUp ≤ getPut := by decide
  refine ⟨fits_of_target rfl rfl rfl (by decide) (Or.inr hget),
    fits_of_target rfl rfl rfl (by decide) (Or.inl rfl), fits_mdelay 250,
    fits_of_bin htarget (fun _ => hc) (fun h => absurd (hdrops.symm.trans h) Bool.false_ne_true)
      hbin hlow, ?_⟩
  have hput : put.getAfter ((Movement.mdelay 250).getAfter (Movement.servoReset.getAfter
      (Movement.servoGet.getAfter get))) = getPut := hafter
  rw [hput]
  exact ⟨le_rfl, hlow, le_rfl, le_rfl⟩

/-- **Every case fits** an arm that is off the floor. -/
theorem servoCase_fits (c : ℕ) {pwm get : ℤ} (hget : get ≤ getPut) :
    FitsAll c pwm get (servoCase c) := by
  have hlow : getUp ≤ getPut := by decide
  match c with
  | 0 => exact ⟨fits_of_target rfl rfl rfl (by decide) (Or.inr hget), hlow⟩
  | 1 => exact pickCase_fits rfl rfl (by decide) (by decide) rfl hget
  | 2 => exact pickCase_fits rfl rfl (by decide) (by decide) rfl hget
  | 3 => exact pickCase_fits rfl rfl (by decide) (by decide) rfl hget
  | 4 => exact ⟨fits_of_bin rfl (fun h => Bool.noConfusion h) (fun _ => by decide) (by decide) hget,
      fits_of_target rfl rfl rfl (by decide) (Or.inr hlow), hlow⟩
  | 5 => exact ⟨fits_of_bin rfl (fun h => Bool.noConfusion h) (fun _ => by decide) (by decide) hget,
      fits_of_target rfl rfl rfl (by decide) (Or.inr hlow), hlow⟩
  | 6 => exact ⟨fits_of_bin rfl (fun h => Bool.noConfusion h) (fun _ => by decide) (by decide) hget,
      hlow⟩
  | _ + 7 => exact hget

/-! ## Runs -/

/-- The calls of a step: those of the movement that the servo thread begins. -/
def Handshake.commands (s : Handshake) : HandshakeAct → List ArmCmd
  | .servo =>
      match s.pc with
      | .running _ (.call m :: _) => m.commands s.pwmLst
      | _ => []
  | _ => []

theorem Handshake.commands_call {s : Handshake} {c : ℕ} {m : Movement} {rest : List ServoInstr}
    (hpc : s.pc = .running c (.call m :: rest)) : s.commands .servo = m.commands s.pwmLst := by
  unfold Handshake.commands
  rw [hpc]

theorem Handshake.commands_quiet {s : Handshake}
    (h : ∀ c m rest, s.pc ≠ .running c (.call m :: rest)) : s.commands .servo = [] := by
  unfold Handshake.commands
  dsimp only
  split
  · exact absurd ‹_› (h _ _ _)
  · rfl

/-- The case whose movement a step begins. -/
def Handshake.case (s : Handshake) : ℕ :=
  match s.pc with
  | .running c _ => c
  | _ => 0

/-- **A step of the handshake, with the arm.** -/
def armStep (x : Handshake × Arm) (a : HandshakeAct) : Option (Handshake × Arm) := do
  let s ← handshakeStep x.1 a
  let arm ← runSteps Arm.exec x.2 (x.1.commands a)
  some (s, arm)

/-- The calls of a step are careful. -/
def CarefulStep (x : Handshake × Arm) (a : HandshakeAct) : Prop :=
  StepsSatisfy Arm.exec (Careful x.1.case) x.2 (x.1.commands a)

/-- What the servo thread has still to do fits the arm. -/
def Handshake.FitsArm (s : Handshake) (get : ℤ) : Prop :=
  match s.pc with
  | .running c rest | .moving c _ rest => FitsAll c s.pwmLst get rest
  | _ => get ≤ getPut

/-- **Between two steps** the arm is ready, and what follows fits it. -/
structure ArmFits (x : Handshake × Arm) : Prop where
  ready : x.2.Ready x.1.pwmLst
  fits : x.1.FitsArm x.2.get

/-- The arm does not notice a callback, nor what happens to the flags. -/
theorem Handshake.FitsArm.congr {s s' : Handshake} {get : ℤ} (h : s.FitsArm get)
    (hpc : s'.pc = s.pc ∨ s'.pc = s.pc.tick) (hpwm : s'.pwmLst = s.pwmLst) : s'.FitsArm get := by
  unfold Handshake.FitsArm at h ⊢
  rw [hpwm]
  rcases hpc with hpc | hpc
  · rw [hpc]
    exact h
  · rw [hpc]
    cases hs : s.pc with
    | moving c ticked rest =>
        rw [hs] at h
        exact h
    | _ =>
        rw [hs] at h
        exact h

/-- A step that is not one of the servo thread. -/
theorem handshakeStep_other {s s' : Handshake} {a : HandshakeAct} (hne : a ≠ .servo)
    (hstep : handshakeStep s a = some s') :
    (s'.pc = s.pc ∨ s'.pc = s.pc.tick) ∧ s'.pwmLst = s.pwmLst := by
  cases a with
  | servo => exact absurd rfl hne
  | tick =>
      obtain rfl := Option.some.inj hstep
      exact ⟨Or.inr rfl, (timer_cases s).1.pwmLst⟩
  | arriveCard =>
      obtain rfl := Option.some.inj (Option.ite_none_right_eq_some.mp hstep).2
      exact ⟨Or.inl rfl, rfl⟩
  | classify sf =>
      obtain rfl := Option.some.inj (Option.ite_none_right_eq_some.mp hstep).2
      exact ⟨Or.inl rfl, rfl⟩
  | arriveBin sf =>
      obtain rfl := Option.some.inj (Option.ite_none_right_eq_some.mp hstep).2
      exact ⟨Or.inl rfl, rfl⟩
  | drive motion targetCnt =>
      obtain rfl := Option.some.inj (Option.ite_none_right_eq_some.mp hstep).2
      exact ⟨Or.inl rfl, rfl⟩

/-- **An instruction that is not a call** leaves what fits the arm. -/
theorem exec_fitsArm {s : Handshake} {c : ℕ} {i : ServoInstr} {rest : List ServoInstr} {get : ℤ}
    (hcall : ∀ m, i ≠ .call m) (h : FitsAll c s.pwmLst get (i :: rest)) :
    (s.exec c rest i).pwmLst = s.pwmLst ∧ (s.exec c rest i).FitsArm get := by
  cases i with
  | call m => exact absurd rfl (hcall m)
  | setPick => exact ⟨rfl, h⟩
  | setDrop => exact ⟨rfl, h⟩
  | clearDropTail => exact ⟨rfl, h⟩
  | setPut => exact ⟨rfl, h⟩
  | ifMoreTargets =>
      obtain ⟨hget, hreset, hstay, htail⟩ := h
      unfold Handshake.exec
      dsimp only
      split_ifs
      · exact ⟨rfl, fits_of_target rfl rfl rfl (by decide) (Or.inr hget), hreset⟩
      · exact ⟨rfl, fits_mdelay 15, hget, hstay, htail⟩
  | ifDropTail =>
      obtain ⟨hget, hstay, htail⟩ := h
      unfold Handshake.exec
      dsimp only
      split_ifs
      · exact ⟨rfl, fits_of_target rfl rfl rfl (by decide) (Or.inr hget), htail⟩
      · exact ⟨rfl, hstay⟩

/-- A step that calls nothing. -/
theorem armStep_quiet {x y : Handshake × Arm} {a : HandshakeAct} (hquiet : x.1.commands a = [])
    (hstep : armStep x a = some y) :
    CarefulStep x a ∧ handshakeStep x.1 a = some y.1 ∧ y.2 = x.2 := by
  unfold CarefulStep
  unfold armStep at hstep
  rw [hquiet] at hstep ⊢
  obtain ⟨s, hs, h⟩ := Option.bind_eq_some_iff.mp hstep
  obtain rfl := Option.some.inj h
  exact ⟨trivial, hs, rfl⟩

/-- **The start of a movement.** -/
theorem ArmFits.call {x y : Handshake × Arm} {c : ℕ} {m : Movement} {rest : List ServoInstr}
    (h : ArmFits x) (hpc : x.1.pc = .running c (.call m :: rest))
    (hstep : armStep x .servo = some y) : CarefulStep x .servo ∧ ArmFits y := by
  have hfits := h.fits
  unfold Handshake.FitsArm at hfits
  rw [hpc] at hfits
  obtain ⟨on, hcare, hrun⟩ := Movement.does h.ready hfits.1
  have hcommands := Handshake.commands_call hpc
  have hcase : x.1.case = c := by
    unfold Handshake.case
    rw [hpc]
  have hservo : handshakeStep x.1 .servo = some (x.1.exec c rest (.call m)) := by
    unfold handshakeStep Handshake.servo
    rw [hpc]
  unfold CarefulStep
  unfold armStep at hstep
  rw [hcommands] at hstep ⊢
  rw [hservo, Option.bind_eq_bind, Option.bind_some, hrun, Option.bind_eq_bind, Option.bind_some]
    at hstep
  obtain rfl := Option.some.inj hstep
  rw [hcase]
  refine ⟨hcare, ⟨rfl, ?_, rfl, ?_⟩, ?_⟩
  · show 340 ≤ m.after x.1.pwmLst ∧ m.after x.1.pwmLst ≤ 1110
    unfold Movement.after
    cases htarget : m.target with
    | none => exact h.ready.mem
    | some tar => exact (hfits.1.turns tar htarget).1
  · show getUp ≤ m.getAfter x.2.get ∧ m.getAfter x.2.get ≤ getDown
    have hget := h.ready.get
    have hup : getUp ≤ getUp ∧ getUp ≤ getDown := by decide
    have hput : getUp ≤ getPut ∧ getPut ≤ getDown := by decide
    have hdown : getUp ≤ getDown ∧ getDown ≤ getDown := by decide
    cases m with
    | servoRoteCtrl tar => exact hget
    | mdelay ms => exact hget
    | servoGet => exact hdown
    | servoPutLeft | servoPutTail | servoPutRight => exact hput
    | _ => exact hup
  · show (x.1.exec c rest (.call m)).FitsArm (m.getAfter x.2.get)
    unfold Handshake.FitsArm Handshake.exec
    dsimp only
    split_ifs <;> exact hfits.2

/-- **One step of the servo thread.** -/
theorem ArmFits.servo {x y : Handshake × Arm} (h : ArmFits x) (hstep : armStep x .servo = some y) :
    CarefulStep x .servo ∧ ArmFits y := by
  obtain ⟨s, arm⟩ := x
  -- a step that calls nothing leaves the arm, and `pwm_lst`
  have hquiet : s.commands .servo = [] → (∀ s', s.servo = some s' →
      s'.pwmLst = s.pwmLst ∧ s'.FitsArm arm.get) → CarefulStep (s, arm) .servo ∧ ArmFits y := by
    intro hcommands hnext
    obtain ⟨hcare, hs, harm⟩ := armStep_quiet hcommands hstep
    obtain ⟨hpwm, hfits⟩ := hnext y.1 hs
    refine ⟨hcare, ?_, ?_⟩
    · rw [hpwm, harm]
      exact h.ready
    · rw [harm]
      exact hfits
  have hfits := h.fits
  unfold Handshake.FitsArm at hfits
  cases hpc : s.pc with
  | test =>
      rw [hpc] at hfits
      refine hquiet (Handshake.commands_quiet (by simp [hpc])) fun s' hs' => ?_
      rw [Handshake.servo, hpc] at hs'
      obtain rfl := Option.some.inj hs'
      refine ⟨rfl, ?_⟩
      unfold Handshake.FitsArm
      dsimp only
      split_ifs <;> exact hfits
  | select =>
      rw [hpc] at hfits
      refine hquiet (Handshake.commands_quiet (by simp [hpc])) fun s' hs' => ?_
      rw [Handshake.servo, hpc] at hs'
      obtain rfl := Option.some.inj hs'
      exact ⟨rfl, servoCase_fits _ hfits⟩
  | running c rest =>
      rw [hpc] at hfits
      cases rest with
      | nil =>
          refine hquiet (Handshake.commands_quiet (by simp [hpc])) fun s' hs' => ?_
          rw [Handshake.servo, hpc] at hs'
          obtain rfl := Option.some.inj hs'
          exact ⟨rfl, hfits⟩
      | cons i rest =>
          by_cases hcall : ∃ m, i = .call m
          · obtain ⟨m, rfl⟩ := hcall
            exact h.call hpc hstep
          · refine hquiet (Handshake.commands_quiet ?_) fun s' hs' => ?_
            · rintro c' m rest' hcall'
              obtain ⟨-, hrest⟩ := ServoPc.running.inj (hpc.symm.trans hcall')
              exact hcall ⟨m, (List.cons.inj hrest).1⟩
            rw [Handshake.servo, hpc] at hs'
            obtain rfl := Option.some.inj hs'
            exact exec_fitsArm (fun m hm => hcall ⟨m, hm⟩) hfits
  | moving c ticked rest =>
      rw [hpc] at hfits
      refine hquiet (Handshake.commands_quiet (by simp [hpc])) fun s' hs' => ?_
      rw [Handshake.servo, hpc] at hs'
      obtain ⟨-, hs'⟩ := Option.ite_none_right_eq_some.mp hs'
      obtain rfl := Option.some.inj hs'
      exact ⟨rfl, hfits⟩
  | pause =>
      rw [hpc] at hfits
      refine hquiet (Handshake.commands_quiet (by simp [hpc])) fun s' hs' => ?_
      rw [Handshake.servo, hpc] at hs'
      obtain rfl := Option.some.inj hs'
      exact ⟨rfl, hfits⟩

/-- **One step of any party.** -/
theorem ArmFits.step {x y : Handshake × Arm} {a : HandshakeAct} (h : ArmFits x)
    (hstep : armStep x a = some y) : CarefulStep x a ∧ ArmFits y := by
  by_cases ha : a = .servo
  · rw [ha] at hstep ⊢
    exact h.servo hstep
  · have hquiet : x.1.commands a = [] := by
      cases a with
      | servo => exact absurd rfl ha
      | _ => rfl
    obtain ⟨hcare, hs, harm⟩ := armStep_quiet hquiet hstep
    obtain ⟨hpc, hpwm⟩ := handshakeStep_other ha hs
    refine ⟨hcare, ?_, ?_⟩
    · rw [hpwm, harm]
      exact h.ready
    · rw [harm]
      exact h.fits.congr hpc hpwm

/-- The servo thread waits for a callback. -/
def Handshake.Sleeping (s : Handshake) : Prop := ∃ c rest, s.pc = .moving c false rest

/-- An instruction that is not a call is over at once. -/
theorem exec_awake {s : Handshake} {c : ℕ} {i : ServoInstr} {rest : List ServoInstr}
    (hcall : ∀ m, i ≠ .call m) : ¬ (s.exec c rest i).Sleeping := by
  rintro ⟨c', rest', hpc⟩
  cases i with
  | call m => exact hcall m rfl
  | ifMoreTargets | ifDropTail =>
      unfold Handshake.exec at hpc
      dsimp only at hpc
      split_ifs at hpc
  | _ => exact ServoPc.noConfusion hpc

/-- **The thread sleeps when its calls do.** -/
theorem servo_sleeping_iff {s s' : Handshake} (h : s.servo = some s') :
    s'.Sleeping ↔ (s.commands .servo).countP ArmCmd.sleeps ≠ 0 := by
  have hquiet : s.commands .servo = [] → ¬ s'.Sleeping →
      (s'.Sleeping ↔ (s.commands .servo).countP ArmCmd.sleeps ≠ 0) := by
    intro hcommands hawake
    rw [hcommands]
    exact iff_of_false hawake (fun hne => hne rfl)
  unfold Handshake.servo at h
  cases hpc : s.pc with
  | test =>
      rw [hpc] at h
      obtain rfl := Option.some.inj h
      refine hquiet (Handshake.commands_quiet (by simp [hpc])) ?_
      rintro ⟨c, rest, hmoving⟩
      dsimp only at hmoving
      split_ifs at hmoving
  | running c rest =>
      rw [hpc] at h
      cases rest with
      | nil =>
          obtain rfl := Option.some.inj h
          exact hquiet (Handshake.commands_quiet (by simp [hpc])) fun ⟨_, _, h⟩ => nomatch h
      | cons i rest =>
          obtain rfl := Option.some.inj h
          by_cases hcall : ∃ m, i = .call m
          · obtain ⟨m, rfl⟩ := hcall
            rw [Handshake.commands_call hpc, delays_commands]
            unfold Handshake.Sleeping Handshake.exec
            dsimp only
            split_ifs with hzero
            · exact iff_of_false (fun ⟨_, _, hmoving⟩ => nomatch hmoving) (fun hne => hne hzero)
            · exact iff_of_true ⟨c, rest, rfl⟩ hzero
          · have hnot : ∀ m, i ≠ .call m := fun m hm => hcall ⟨m, hm⟩
            refine hquiet (Handshake.commands_quiet ?_) (exec_awake hnot)
            rintro c' m rest' hcall'
            obtain ⟨-, hrest⟩ := ServoPc.running.inj (hpc.symm.trans hcall')
            exact hnot m (List.cons.inj hrest).1
  | moving c ticked rest =>
      rw [hpc] at h
      obtain rfl := Option.some.inj (Option.ite_none_right_eq_some.mp h).2
      exact hquiet (Handshake.commands_quiet (by simp [hpc])) fun ⟨_, _, h⟩ => nomatch h
  | _ =>
      rw [hpc] at h
      obtain rfl := Option.some.inj h
      exact hquiet (Handshake.commands_quiet (by simp [hpc])) fun ⟨_, _, h⟩ => nomatch h

/-- **The arm is never asked for anything careless**: in every run of the servo thread, the
callbacks and the arrivals, from a start with any flags, every call of every movement is careful,
and the thread waits for a callback exactly when its calls sleep. -/
theorem armRun_careful (s : Handshake) (hs : s.Initial) (hpwm : s.pwmLst = 600)
    (as : List HandshakeAct) (a : HandshakeAct) (x y : Handshake × Arm)
    (hrun : runSteps armStep (s, Arm.start) as = some x) (hstep : armStep x a = some y) :
    CarefulStep x a ∧
      (a = .servo → (y.1.Sleeping ↔ (x.1.commands a).countP ArmCmd.sleeps ≠ 0)) := by
  have hstart : ArmFits (s, Arm.start) := by
    refine ⟨⟨hpwm.symm, ?_, rfl, ?_⟩, ?_⟩
    · rw [hpwm]
      decide
    · exact show getUp ≤ getUp ∧ getUp ≤ getDown by decide
    · unfold Handshake.FitsArm
      rw [hs.pc]
      exact show getUp ≤ getPut by decide
  have hfits := runSteps_invariant (I := fun _ x => ArmFits x) hstart
    (fun _ _ _ _ hx hx' => (hx.step hx').2) as x hrun
  refine ⟨(hfits.step hstep).1, ?_⟩
  rintro rfl
  obtain ⟨s', hs', hy⟩ := Option.bind_eq_some_iff.mp hstep
  obtain ⟨arm, -, hy'⟩ := Option.bind_eq_some_iff.mp hy
  obtain rfl := Option.some.inj hy'
  exact servo_sleeping_iff hs'

/-- A card of the first class is put over its bin. -/
theorem armRun_careful_put : ∃ x y, runSteps armStep (Handshake.boot, Arm.start)
      [.classify 1, .arriveCard, .tick, .servo, .servo, .servo, .tick, .servo, .servo, .servo,
        .servo, .tick, .servo] = some x ∧
    x.1.pc = .running 1 [.call .servoPutLeft, .ifMoreTargets, .setPut] ∧
    armStep x .servo = some y ∧ CarefulStep x .servo ∧ y.1.Sleeping := by
  have hrun : ∃ x y, runSteps armStep (Handshake.boot, Arm.start)
      [.classify 1, .arriveCard, .tick, .servo, .servo, .servo, .tick, .servo, .servo, .servo,
        .servo, .tick, .servo] = some x ∧
      x.1.pc = .running 1 [.call .servoPutLeft, .ifMoreTargets, .setPut] ∧
      armStep x .servo = some y := ⟨_, _, rfl, rfl, rfl⟩
  obtain ⟨x, y, hx, hpc, hy⟩ := hrun
  obtain ⟨hcareful, hsleeps⟩ :=
    armRun_careful Handshake.boot Handshake.initial_boot rfl _ _ x y hx hy
  refine ⟨x, y, hx, hpc, hy, hcareful, (hsleeps rfl).mpr ?_⟩
  rw [Handshake.commands_call hpc, delays_commands]
  exact Nat.succ_ne_zero _

end HandlingRobot
