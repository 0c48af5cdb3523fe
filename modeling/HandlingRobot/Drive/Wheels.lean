import HandlingRobot.Tour.Geometry
import Mathlib.Data.Fin.VecNotation
import Mathlib.Data.Fintype.Basic
import Mathlib.Data.List.Induction
import Mathlib.Tactic.FinCases
import Mathlib.Tactic.NormNum

/-! # The wheel controllers and the watchdog

The end of the 10 ms callback: the speed command is mixed into the targets of the four wheels, a
controller for each wheel computes its output from the target and the encoder, and the output is
put out as a direction and a duty. The watchdog is refreshed when all four duties are below 9900.

* **`pidCal`** — one controller; **`Wheel.tick`** — its wheel; **`Board.tick`** — the four of them
  and the watchdog.
* **`Wheel.drive`** — direction and duty together stand for the output, cut off.
* **`stall_times_out`** — a blocked wheel winds its controller up, so the watchdog resets the board
  after a number of callbacks that can be computed.
* **`boardRun_mirror`** — the reversed run drives all wheels the other way, and refreshes the
  watchdog in the same callbacks. -/

namespace HandlingRobot

/-! ## The controllers -/

/-- `pid`: the gains, and what a controller remembers. -/
structure Pid (K : Type*) where
  p : K
  i : K
  d : K
  sumI : K
  out : K
  lastE : K
  dt : K
  deriving DecidableEq

section Controller

variable {K : Type*} [Field K] [LinearOrder K]

/-- A controller with these gains that has not been run. -/
def Pid.start (p i d : K) : Pid K := ⟨p, i, d, 0, 0, 0, 0⟩

/-- The limits of `pid_cal` on its output. -/
def limitOut (out : K) : K :=
  let out := if out > ((10000 : ℚ) : K) then ((9999 : ℚ) : K) else out
  if out < ((-10000 : ℚ) : K) then ((-9999 : ℚ) : K) else out

/-- **`pid_cal`**: the integral decays while the wheel is more than a tenth too fast. -/
def pidCal (tar cur : K) (m : Pid K) : Pid K :=
  let e := tar - cur
  let sumI := m.sumI + e
  let dt := e - m.lastE
  let sumI := if tar > 0 ∧ (cur - tar) - (1 / 10 : ℚ) * tar > 0 then sumI * (8 / 10 : ℚ) else sumI
  let sumI := if tar < 0 ∧ (tar - cur) + (1 / 10 : ℚ) * tar > 0 then sumI * (8 / 10 : ℚ) else sumI
  { m with sumI, dt, out := limitOut (m.p * e + m.i * sumI + m.d * dt), lastE := e }

@[simp] theorem pidCal_p (tar cur : K) (m : Pid K) : (pidCal tar cur m).p = m.p := rfl
@[simp] theorem pidCal_i (tar cur : K) (m : Pid K) : (pidCal tar cur m).i = m.i := rfl
@[simp] theorem pidCal_d (tar cur : K) (m : Pid K) : (pidCal tar cur m).d = m.d := rfl

end Controller

/-! ## The wheels -/

/-- A wheel: its controller, the pin `DIR`, and the duty of its PWM channel. -/
structure Wheel where
  pid : Pid ℚ
  dir : ℕ
  duty : ℕ
  deriving DecidableEq

/-- **The output to a wheel**; the pin stays as it is for an output of zero. -/
def Wheel.tick (tar : ℚ) (speed : ℤ) (w : Wheel) : Wheel :=
  let pid := pidCal tar speed w.pid
  { pid
    dir := if pid.out < 0 then 0 else if pid.out > 0 then 1 else w.dir
    duty := (truncate pid.out).natAbs }

/-- What a callback finds: the commands `x`, `y` and `z`, and the encoders. -/
structure Tick where
  x : ℚ
  y : ℚ
  z : ℚ
  speed : Fin 4 → ℤ

/-- `target_1`, `target_2`, `-target_3` and `-target_4`: the motors on the left are mounted the
other way round. -/
def mix {K : Type*} [Ring K] (x y z : K) : Fin 4 → K :=
  ![x + y + z, x - y + z, -(x + y - z), -(x - y - z)]

/-- The targets of the callback. -/
def Tick.target (t : Tick) : Fin 4 → ℚ := mix t.x t.y t.z

/-- The wheels, and the callbacks since the last refresh of the watchdog. -/
structure Board where
  wheel : Fin 4 → Wheel
  quiet : ℕ

/-- The test before `WDOG_Refresh`. -/
def Board.passes (wheel : Fin 4 → Wheel) : Prop := ∀ n, (wheel n).duty < 9900

instance (wheel : Fin 4 → Wheel) : Decidable (Board.passes wheel) :=
  Nat.decidableForallFin _

/-- **The end of `motorControl_timer1`.** -/
def Board.tick (b : Board) (t : Tick) : Board :=
  let wheel := fun n => (b.wheel n).tick (t.target n) (t.speed n)
  ⟨wheel, if Board.passes wheel then 0 else b.quiet + 1⟩

/-- The callbacks one after the other. -/
def boardRun (b : Board) (ts : List Tick) : Board := ts.foldl Board.tick b

@[simp] theorem boardRun_nil (b : Board) : boardRun b [] = b := rfl

theorem boardRun_snoc (b : Board) (ts : List Tick) (t : Tick) :
    boardRun b (ts ++ [t]) = (boardRun b ts).tick t := by
  rw [boardRun, List.foldl_append]
  rfl

/-- The watchdog is set to half a second, 50 callbacks. -/
def wdogTicks : ℕ := 50

/-- **The watchdog resets the board.** -/
def Board.TimedOut (b : Board) : Prop := wdogTicks ≤ b.quiet

/-! ## One controller -/

/-- The limits are those of an odd function. -/
theorem limitOut_neg (out : ℚ) : limitOut (-out) = -limitOut out := by
  unfold limitOut
  simp only [Rat.cast_id]
  split_ifs <;> linarith

/-- **The output of a controller is bounded.** -/
theorem abs_limitOut_le (out : ℚ) : |limitOut out| ≤ 10000 := by
  unfold limitOut
  simp only [Rat.cast_id]
  rw [abs_le]
  split_ifs <;> constructor <;> linarith

/-- Below the limits of the test, the limits of the output do nothing. -/
theorem abs_limitOut_lt_iff (out : ℚ) : |limitOut out| < 9900 ↔ |out| < 9900 := by
  unfold limitOut
  simp only [Rat.cast_id]
  simp only [abs_lt]
  split_ifs <;> constructor <;> rintro ⟨h1, h2⟩ <;> constructor <;> linarith

theorem natAbs_truncate_lt_iff (x : ℚ) (n : ℕ) : (truncate x).natAbs < n ↔ |x| < n := by
  have hnonneg : ∀ y : ℚ, 0 ≤ y → ((truncate y).natAbs < n ↔ |y| < n) := by
    intro y hy
    rw [truncate_of_nonneg hy, Int.natAbs_natCast, abs_of_nonneg hy, Nat.floor_lt hy]
  rcases le_total 0 x with h | h
  · exact hnonneg x h
  · have hneg := hnonneg (-x) (neg_nonneg.mpr h)
    rwa [truncate_neg, Int.natAbs_neg, abs_neg] at hneg

/-- **The test of the watchdog on one wheel**, in terms of the output before its limits. -/
theorem duty_lt_iff (tar : ℚ) (speed : ℤ) (w : Wheel) : (w.tick tar speed).duty < 9900 ↔
    |w.pid.p * (tar - speed) + w.pid.i * (pidCal tar speed w.pid).sumI +
      w.pid.d * (pidCal tar speed w.pid).dt| < 9900 := by
  rw [← abs_limitOut_lt_iff]
  exact natAbs_truncate_lt_iff _ 9900

/-! ## A blocked wheel -/

/-- **The integral of a blocked wheel grows** by the target: it never turns too fast. -/
theorem pidCal_blocked (tar : ℚ) (m : Pid ℚ) : (pidCal tar 0 m).sumI = m.sumI + tar := by
  have hpos : ¬ (tar > 0 ∧ (0 - tar) - 1 / 10 * tar > 0) := fun h => by linarith [h.1, h.2]
  have hneg : ¬ (tar < 0 ∧ (tar - 0) + 1 / 10 * tar > 0) := fun h => by linarith [h.1, h.2]
  unfold pidCal
  simp only [Rat.cast_id]
  rw [if_neg hneg, if_neg hpos, sub_zero]

/-- The gains stay as they are. -/
theorem boardRun_gains (b : Board) (n : Fin 4) (ts : List Tick) :
    ((boardRun b ts).wheel n).pid.p = (b.wheel n).pid.p ∧
      ((boardRun b ts).wheel n).pid.i = (b.wheel n).pid.i ∧
      ((boardRun b ts).wheel n).pid.d = (b.wheel n).pid.d := by
  induction ts using List.reverseRecOn with
  | nil => exact ⟨rfl, rfl, rfl⟩
  | append_singleton ts t ih =>
      rw [boardRun_snoc]
      exact ih

/-- The wheel `n` is blocked in these callbacks, and is always given the target `tar`. -/
def Blocked (n : Fin 4) (tar : ℚ) (ts : List Tick) : Prop :=
  ∀ t ∈ ts, t.speed n = 0 ∧ t.target n = tar

/-- The integral after some callbacks with a blocked wheel. -/
theorem boardRun_sumI {b : Board} {n : Fin 4} {tar : ℚ} {ts : List Tick} (h : Blocked n tar ts) :
    ((boardRun b ts).wheel n).pid.sumI = (b.wheel n).pid.sumI + ts.length * tar := by
  induction ts using List.reverseRecOn with
  | nil => simp
  | append_singleton ts t ih =>
      obtain ⟨hspeed, htarget⟩ := h t (by simp)
      have hrun : ((boardRun b (ts ++ [t])).wheel n).pid =
          pidCal (t.target n) (t.speed n) ((boardRun b ts).wheel n).pid := by
        rw [boardRun_snoc]
        rfl
      rw [hrun, hspeed, htarget, Int.cast_zero, pidCal_blocked,
        ih fun t' ht' => h t' (List.mem_append_left _ ht'), List.length_append,
        List.length_singleton]
      push_cast
      ring

/-- **The test on a blocked wheel** after some callbacks. -/
theorem blocked_duty_lt_iff {b : Board} {n : Fin 4} {tar : ℚ} {ts : List Tick}
    (hd : (b.wheel n).pid.d = 0) (h : Blocked n tar ts) (hts : ts ≠ []) :
    ((boardRun b ts).wheel n).duty < 9900 ↔
      |(b.wheel n).pid.p * tar +
        (b.wheel n).pid.i * ((b.wheel n).pid.sumI + ts.length * tar)| < 9900 := by
  obtain ⟨init, t, rfl⟩ := (List.eq_nil_or_concat' ts).resolve_left hts
  obtain ⟨hspeed, htarget⟩ := h t (by simp)
  have hsum := boardRun_sumI (b := b) h
  obtain ⟨hp, hi, hd'⟩ := boardRun_gains b n init
  rw [boardRun_snoc] at hsum ⊢
  have hduty := duty_lt_iff (t.target n) (t.speed n) ((boardRun b init).wheel n)
  have hpid : (pidCal (t.target n) (t.speed n) ((boardRun b init).wheel n).pid).sumI =
      (b.wheel n).pid.sumI + (init ++ [t]).length * tar := hsum
  rw [hpid, hp, hi, hd', hd, zero_mul, add_zero, htarget, hspeed, Int.cast_zero, sub_zero] at hduty
  have hwheel : ((boardRun b init).tick t).wheel n = ((boardRun b init).wheel n).tick tar 0 := by
    rw [← htarget, ← hspeed]
    rfl
  rw [hwheel]
  exact hduty

/-! ## The watchdog -/

/-- Callbacks that all fail the test are counted. -/
theorem quiet_of_failing {b : Board} {ts : List Tick}
    (h : ∀ us, us ≠ [] → us <+: ts → ¬ Board.passes (boardRun b us).wheel) :
    (boardRun b ts).quiet = b.quiet + ts.length := by
  induction ts using List.reverseRecOn with
  | nil => rfl
  | append_singleton ts t ih =>
      have hfail := h (ts ++ [t]) (by simp) (List.prefix_refl _)
      rw [boardRun_snoc] at hfail ⊢
      have hquiet : ((boardRun b ts).tick t).quiet = (boardRun b ts).quiet + 1 := if_neg hfail
      rw [hquiet, ih fun us hus hpre => h us hus (hpre.trans (List.prefix_append ts [t])),
        List.length_append, List.length_singleton, add_assoc]

/-- **When a blocked wheel fails the test for ever**: the integral has outgrown what the controller
held before. -/
theorem not_passes_of_blocked {b : Board} {n : Fin 4} {tar : ℚ} {ts : List Tick}
    (hd : (b.wheel n).pid.d = 0) (hi : 0 < (b.wheel n).pid.i) (htar : tar ≠ 0)
    (h : Blocked n tar ts) (hts : ts ≠ [])
    (hlen : (9900 + |(b.wheel n).pid.p * tar + (b.wheel n).pid.i * (b.wheel n).pid.sumI|) /
      ((b.wheel n).pid.i * |tar|) ≤ ts.length) : ¬ Board.passes (boardRun b ts).wheel := by
  intro hpass
  have hsmall := (blocked_duty_lt_iff hd h hts).mp (hpass n)
  rw [div_le_iff₀ (mul_pos hi (abs_pos.mpr htar))] at hlen
  have hgrown : |(b.wheel n).pid.i * (ts.length * tar)| =
      ts.length * ((b.wheel n).pid.i * |tar|) := by
    rw [abs_mul, abs_mul, abs_of_pos hi, Nat.abs_cast]
    ring
  have hsplit : (b.wheel n).pid.p * tar +
      (b.wheel n).pid.i * ((b.wheel n).pid.sumI + ts.length * tar) =
      (b.wheel n).pid.i * (ts.length * tar) -
        -((b.wheel n).pid.p * tar + (b.wheel n).pid.i * (b.wheel n).pid.sumI) := by ring
  rw [hsplit] at hsmall
  have htriangle := abs_sub_abs_le_abs_sub ((b.wheel n).pid.i * (ts.length * tar))
    (-((b.wheel n).pid.p * tar + (b.wheel n).pid.i * (b.wheel n).pid.sumI))
  rw [abs_neg] at htriangle
  linarith

theorem boardRun_append (b : Board) (ts us : List Tick) :
    boardRun b (ts ++ us) = boardRun (boardRun b ts) us := List.foldl_append

/-- **A blocked wheel resets the board.** A wheel that does not turn under a constant target passes
the test exactly as long as its output has not reached 9900. Whatever the controllers held and the
other wheels do, the watchdog runs out after a number of callbacks that depends on the state of the
wheel's own controller. -/
theorem stall_times_out (b : Board) (n : Fin 4) (tar : ℚ) (ts : List Tick)
    (hd : (b.wheel n).pid.d = 0) (hi : 0 < (b.wheel n).pid.i) (htar : tar ≠ 0)
    (h : Blocked n tar ts) :
    (∀ us, us ≠ [] → us <+: ts → (((boardRun b us).wheel n).duty < 9900 ↔
      |(b.wheel n).pid.p * tar +
        (b.wheel n).pid.i * ((b.wheel n).pid.sumI + us.length * tar)| < 9900)) ∧
    ((9900 + |(b.wheel n).pid.p * tar + (b.wheel n).pid.i * (b.wheel n).pid.sumI|) /
      ((b.wheel n).pid.i * |tar|) + wdogTicks ≤ ts.length → (boardRun b ts).TimedOut) := by
  have hblocked : ∀ {us}, us <+: ts → Blocked n tar us := fun hpre t ht => h t (hpre.subset ht)
  refine ⟨fun us hus hpre => blocked_duty_lt_iff hd (hblocked hpre) hus, fun hlen => ?_⟩
  -- the last callbacks all fail the test
  obtain ⟨early, late, rfl, hlate⟩ :
      ∃ early late, ts = early ++ late ∧ late.length = wdogTicks := by
    have hle : wdogTicks ≤ ts.length := by
      have hnn : (0 : ℚ) ≤ (9900 + |(b.wheel n).pid.p * tar +
          (b.wheel n).pid.i * (b.wheel n).pid.sumI|) / ((b.wheel n).pid.i * |tar|) := by positivity
      have hcast : (wdogTicks : ℚ) ≤ ts.length := by linarith
      exact_mod_cast hcast
    exact ⟨ts.take (ts.length - wdogTicks), ts.drop (ts.length - wdogTicks),
      (List.take_append_drop _ ts).symm, by rw [List.length_drop]; omega⟩
  have hfail : ∀ us, us ≠ [] → us <+: late →
      ¬ Board.passes (boardRun (boardRun b early) us).wheel := by
    intro us hus hpre
    rw [← boardRun_append]
    refine not_passes_of_blocked hd hi htar
      (hblocked ((List.prefix_append_right_inj early).mpr hpre)) (by simp [hus]) ?_
    rw [List.length_append, hlate] at hlen
    rw [List.length_append]
    push_cast at hlen ⊢
    have hnn : (0 : ℚ) ≤ us.length := Nat.cast_nonneg _
    linarith
  rw [Board.TimedOut, boardRun_append, quiet_of_failing hfail, hlate]
  omega

/-- `IPS_INIT` gives all controllers the same gains. -/
def Board.start : Board := ⟨fun _ => ⟨Pid.start 45 13 0, 0, 0⟩, 0⟩

/-- The car pushes against a wall at the speed of `go_out`: the duties reach 9900 in the tenth
callback. -/
theorem stall_times_out_wall :
    (((boardRun Board.start (List.replicate 9 ⟨60, 0, 0, fun _ => 0⟩)).wheel 0).duty < 9900 ∧
      ¬ ((boardRun Board.start (List.replicate 10 ⟨60, 0, 0, fun _ => 0⟩)).wheel 0).duty < 9900) ∧
    (boardRun Board.start (List.replicate 67 ⟨60, 0, 0, fun _ => 0⟩)).TimedOut := by
  have hstall : ∀ k, Blocked 0 60 (List.replicate k ⟨60, 0, 0, fun _ => 0⟩) := by
    intro k t ht
    rw [List.eq_of_mem_replicate ht]
    exact ⟨rfl, by norm_num [Tick.target, mix]⟩
  have hboard := fun k => stall_times_out Board.start 0 60
    (List.replicate k ⟨60, 0, 0, fun _ => 0⟩) rfl (by norm_num [Board.start, Pid.start])
    (by norm_num) (hstall k)
  refine ⟨⟨((hboard 9).1 _ (by simp) (List.prefix_refl _)).mpr ?_,
    fun hlt => ?_⟩, (hboard 67).2 ?_⟩
  · norm_num [Board.start, Pid.start]
  · have habs := ((hboard 10).1 _ (by simp) (List.prefix_refl _)).mp hlt
    norm_num [Board.start, Pid.start] at habs
  · norm_num [Board.start, Pid.start, wdogTicks]

/-! ## Driving the other way -/

/-- The signed duty that the pin and the channel stand for. -/
def Wheel.drive (w : Wheel) : ℤ := if w.dir = 1 then w.duty else -w.duty

/-- The direction and the duty of an output; `dir` is the direction before. -/
theorem signed_eq_truncate (out : ℚ) (dir : ℕ) :
    (if (if out < 0 then 0 else if out > 0 then 1 else dir) = 1 then ((truncate out).natAbs : ℤ)
      else -(truncate out).natAbs) = truncate out := by
  rcases lt_trichotomy out 0 with hneg | hzero | hpos
  · rw [if_pos hneg, if_neg zero_ne_one, ← neg_neg out, truncate_neg, Int.natAbs_neg,
      truncate_of_nonneg (neg_nonneg.mpr hneg.le), Int.natAbs_natCast]
  · have htrunc : truncate out = 0 := by
      rw [truncate_of_nonneg hzero.ge, hzero, Nat.floor_zero, Nat.cast_zero]
    rw [htrunc, Int.natAbs_zero, Nat.cast_zero, neg_zero, ite_self]
  · rw [if_neg hpos.not_gt, if_pos hpos, if_pos rfl, truncate_of_nonneg hpos.le,
      Int.natAbs_natCast]

/-- **Pin and duty stand for the output**, cut off. -/
theorem Wheel.drive_tick (tar : ℚ) (speed : ℤ) (w : Wheel) :
    (w.tick tar speed).drive = truncate (w.tick tar speed).pid.out :=
  signed_eq_truncate _ _

/-- Two controllers with the same gains and opposite memories. -/
structure Pid.Opposite (m m' : Pid ℚ) : Prop where
  gains : m'.p = m.p ∧ m'.i = m.i ∧ m'.d = m.d
  sumI : m'.sumI = -m.sumI
  out : m'.out = -m.out
  lastE : m'.lastE = -m.lastE

/-- **A controller is odd.** -/
theorem Pid.Opposite.pidCal {m m' : Pid ℚ} (h : m.Opposite m') (tar cur : ℚ) :
    (pidCal tar cur m).Opposite (pidCal (-tar) (-cur) m') := by
  have hsum : (HandlingRobot.pidCal (-tar) (-cur) m').sumI =
      -(HandlingRobot.pidCal tar cur m).sumI := by
    have hpos : (-tar > 0 ∧ (-cur - -tar) - 1 / 10 * -tar > 0) ↔
        (tar < 0 ∧ (tar - cur) + 1 / 10 * tar > 0) := by
      constructor <;> rintro ⟨h1, h2⟩ <;> constructor <;> linarith
    have hneg : (-tar < 0 ∧ (-tar - -cur) + 1 / 10 * -tar > 0) ↔
        (tar > 0 ∧ (cur - tar) - 1 / 10 * tar > 0) := by
      constructor <;> rintro ⟨h1, h2⟩ <;> constructor <;> linarith
    unfold HandlingRobot.pidCal
    simp only [Rat.cast_id]
    rw [h.sumI]
    simp only [hpos, hneg]
    split_ifs <;> linarith
  refine ⟨h.gains, hsum, ?_, ?_⟩
  · have hout : ∀ (tar cur : ℚ) (m : Pid ℚ), (HandlingRobot.pidCal tar cur m).out =
        limitOut (m.p * (tar - cur) + m.i * (HandlingRobot.pidCal tar cur m).sumI +
          m.d * (tar - cur - m.lastE)) := fun _ _ _ => rfl
    rw [hout, hout, ← limitOut_neg, hsum, h.gains.1, h.gains.2.1, h.gains.2.2, h.lastE]
    congr 1
    ring
  · show -tar - -cur = -(tar - cur)
    ring

/-- The callback of a car that is driven, and driving, the other way. -/
def Tick.reverse (t : Tick) : Tick := ⟨-t.x, -t.y, -t.z, fun n => -t.speed n⟩

theorem Tick.target_reverse (t : Tick) (n : Fin 4) : t.reverse.target n = -t.target n := by
  fin_cases n <;> simp [Tick.target, mix, Tick.reverse] <;> ring

/-- **Two boards that drive their wheels in opposite directions.** -/
structure Board.Opposite (b b' : Board) : Prop where
  pid : ∀ n, (b.wheel n).pid.Opposite (b'.wheel n).pid
  drive : ∀ n, (b'.wheel n).drive = -(b.wheel n).drive
  duty : ∀ n, (b'.wheel n).duty = (b.wheel n).duty
  quiet : b'.quiet = b.quiet

/-- One callback. -/
theorem Board.Opposite.tick {b b' : Board} (h : b.Opposite b') (t : Tick) :
    (b.tick t).Opposite (b'.tick t.reverse) := by
  have hpid : ∀ n, ((b.tick t).wheel n).pid.Opposite ((b'.tick t.reverse).wheel n).pid := by
    intro n
    have hcal := (h.pid n).pidCal (t.target n) (t.speed n)
    rw [← t.target_reverse n, ← Int.cast_neg] at hcal
    exact hcal
  have hduty : ∀ n, ((b'.tick t.reverse).wheel n).duty = ((b.tick t).wheel n).duty := by
    intro n
    show (truncate ((b'.tick t.reverse).wheel n).pid.out).natAbs =
      (truncate ((b.tick t).wheel n).pid.out).natAbs
    rw [(hpid n).out, truncate_neg, Int.natAbs_neg]
  refine ⟨hpid, fun n => ?_, hduty, ?_⟩
  · have hdrive : ∀ (b : Board) (t : Tick),
        ((b.tick t).wheel n).drive = truncate ((b.tick t).wheel n).pid.out :=
      fun b t => Wheel.drive_tick _ _ _
    rw [hdrive, hdrive, (hpid n).out, truncate_neg]
  · have hpasses : Board.passes (b'.tick t.reverse).wheel ↔ Board.passes (b.tick t).wheel :=
      forall_congr' fun n => by rw [hduty n]
    have hquiet : ∀ (b : Board) (t : Tick), (b.tick t).quiet =
        if Board.passes (b.tick t).wheel then 0 else b.quiet + 1 := fun _ _ => rfl
    rw [hquiet, hquiet, h.quiet]
    exact if_congr hpasses rfl rfl

/-- **The reversed run.** From a start with any gains, a run with all commands and encoders negated
drives every wheel with the same duty the other way after every callback, and refreshes the watchdog
in the same callbacks. -/
theorem boardRun_mirror (p i d : Fin 4 → ℚ) (ts : List Tick) :
    (boardRun ⟨fun n => ⟨Pid.start (p n) (i n) (d n), 0, 0⟩, 0⟩ ts).Opposite
      (boardRun ⟨fun n => ⟨Pid.start (p n) (i n) (d n), 0, 0⟩, 0⟩ (ts.map Tick.reverse)) := by
  induction ts using List.reverseRecOn with
  | nil =>
      exact ⟨fun n => ⟨⟨rfl, rfl, rfl⟩, neg_zero.symm, neg_zero.symm, neg_zero.symm⟩,
        fun _ => rfl, fun _ => rfl, rfl⟩
  | append_singleton ts t ih =>
      rw [List.map_append, List.map_singleton, boardRun_snoc, boardRun_snoc]
      exact ih.tick t

end HandlingRobot
