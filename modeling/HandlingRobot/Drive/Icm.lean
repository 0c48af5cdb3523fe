import HandlingRobot.Library.Wrapped
import HandlingRobot.Uart.Frame
import Mathlib.Algebra.Order.Field.Rat
import Mathlib.Data.Rat.Defs
import Mathlib.Tactic.Positivity

/-! # The gyro heading

`ICM_INIT` averages 200 samples of the resting gyro; the timer routine `icm_read_timer3` takes that
bias off every sample, runs the rate of turn through a low-pass filter and adds a hundredth of it to
the heading `theta`, which is corrected by one full turn at most. In exact arithmetic, over the
16-bit registers of the sensor.

* **`icmInit`**, **`icmReadTimer3`** — the two functions.
* **`Icm.InRange`** — what bounds the rate of turn: the bias and the output of the filter stay in
  the range of the sensor.
* **`icmRun_theta`** — the heading of every run: in `[0, 360]`, and the sum of all increments modulo
  360. -/

namespace HandlingRobot

/-! ## The timer routine -/

/-- The gyro registers `icm_gyro_x`, `icm_gyro_y` and `icm_gyro_z`. -/
structure Gyro where
  x : Int16
  y : Int16
  z : Int16
  deriving DecidableEq

/-- The variables of `icm.c` that the routines use, and the two words of other modules that the
timer writes. -/
structure Icm where
  realGryoX : ℚ := 0
  realGryoY : ℚ := 0
  realGryoZ : ℚ := 0
  bias : ℚ := 0
  lastGryoZ : ℚ := 0
  theta : ℚ := 0
  /-- The `static int cnt` of the timer. -/
  cnt : ℕ := 0
  motionFlag : UInt16 := 0
  /-- `car.uart`. -/
  uart : SpStatus := .wait
  deriving DecidableEq

/-- The filter constant `k2`. -/
def k2 : ℚ := 6 / 10

/-- `(float)sample / 16.4`: a register in degrees a second. -/
def degPerSec (sample : Int16) : ℚ := sample.toInt / (164 / 10)

/-- The loop of `ICM_INIT`, `n` samples of it. -/
def sumBias (gyroZ : ℕ → Int16) : ℕ → Icm → Icm
  | 0, s => s
  | n + 1, s =>
      let s := sumBias gyroZ n s
      let s := { s with realGryoZ := degPerSec (gyroZ n) }
      { s with bias := s.bias + s.realGryoZ }

/-- **`ICM_INIT`**: the bias, as the average of 200 samples. -/
def icmInit (gyroZ : ℕ → Int16) (s : Icm) : Icm :=
  let s := sumBias gyroZ 200 s
  { s with bias := s.bias / 200 }

/-- The gyro part of `icm_read_timer3`: the rates of turn, the filter and the heading. -/
def readGyro (g : Gyro) (s : Icm) : Icm :=
  let s := { s with
    realGryoX := degPerSec g.x
    realGryoY := degPerSec g.y
    realGryoZ := degPerSec g.z }
  let s := { s with realGryoZ := s.realGryoZ - s.bias }
  let s := { s with realGryoZ := s.realGryoZ * (-1) }
  let s := { s with lastGryoZ := s.lastGryoZ * (1 - k2) + k2 * s.realGryoZ }
  let s := { s with theta := s.theta + s.lastGryoZ * (1 / 100) }
  if s.theta < 0 then { s with theta := s.theta + 360 }
  else if s.theta > 360 then { s with theta := s.theta - 360 }
  else s

/-- The rest of it: `motion_flag` does not stay at 3 for more than 150 runs, and a received frame
is acknowledged. -/
def watchFlags (s : Icm) : Icm :=
  let s : Icm := if s.motionFlag = 3 then
      let s : Icm := { s with cnt := s.cnt + 1 }
      if s.cnt > 150 then { s with motionFlag := 1, cnt := 0 } else s
    else s
  if s.uart = .ok then { s with uart := .wait } else s

/-- **`icm_read_timer3`**, run every 10 ms. -/
def icmReadTimer3 (g : Gyro) (s : Icm) : Icm := watchFlags (readGyro g s)

/-- What the other tasks may do between two runs of the timer: `motion_flag` and `car.uart` are
theirs as well. -/
structure Others where
  motionFlag : UInt16
  uart : SpStatus

/-- The state with the words the other tasks have written. -/
def Icm.see (s : Icm) (o : Others) : Icm := { s with motionFlag := o.motionFlag, uart := o.uart }

/-- **A run**: the state after `k` runs of the timer, from the initialised variables on, for the
samples `calib` of the calibration, the samples `gyro` of the timer and the words the other tasks
leave. -/
def icmRun (calib : ℕ → Int16) (gyro : ℕ → Gyro) (others : ℕ → Others) : ℕ → Icm
  | 0 => icmInit calib {}
  | k + 1 => icmReadTimer3 (gyro k) ((icmRun calib gyro others k).see (others k))

/-! ## What the routines do to the heading -/

theorem watchFlags_frame (s : Icm) : (watchFlags s).bias = s.bias ∧
    (watchFlags s).lastGryoZ = s.lastGryoZ ∧ (watchFlags s).theta = s.theta := by
  unfold watchFlags
  dsimp only
  split_ifs <;> exact ⟨rfl, rfl, rfl⟩

theorem readGyro_bias (g : Gyro) (s : Icm) : (readGyro g s).bias = s.bias := by
  unfold readGyro
  dsimp only
  split_ifs <;> rfl

theorem readGyro_lastGryoZ (g : Gyro) (s : Icm) :
    (readGyro g s).lastGryoZ = lowPass k2 s.lastGryoZ ((degPerSec g.z - s.bias) * (-1)) := by
  unfold readGyro
  dsimp only
  split_ifs <;> rfl

theorem readGyro_theta (g : Gyro) (s : Icm) :
    (readGyro g s).theta = wrapOnce 360 (s.theta + (readGyro g s).lastGryoZ * (1 / 100)) := by
  rw [readGyro_lastGryoZ, wrapOnce, lowPass]
  unfold readGyro
  dsimp only
  split_ifs <;> rfl

/-- The bias of a calibration is the sum of its samples. -/
theorem sumBias_bias (gyroZ : ℕ → Int16) (n : ℕ) (s : Icm) :
    (sumBias gyroZ n s).bias = s.bias + ∑ i ∈ Finset.range n, degPerSec (gyroZ i) := by
  induction n with
  | zero => rw [Finset.sum_range_zero, add_zero, sumBias]
  | succ n ih =>
      rw [Finset.sum_range_succ, ← add_assoc, ← ih]
      rfl

theorem sumBias_frame (gyroZ : ℕ → Int16) (n : ℕ) (s : Icm) :
    (sumBias gyroZ n s).lastGryoZ = s.lastGryoZ ∧ (sumBias gyroZ n s).theta = s.theta := by
  induction n with
  | zero => exact ⟨rfl, rfl⟩
  | succ n ih => exact ih

/-! ## The range of the rate of turn -/

/-- The largest rate of turn a register holds, in degrees a second. -/
def gyroRange : ℚ := 32768 / (164 / 10)

theorem abs_degPerSec_le (sample : Int16) : |degPerSec sample| ≤ gyroRange := by
  have hlo : (-2 ^ 15 : ℚ) ≤ sample.toInt := by exact_mod_cast sample.le_toInt
  have hhi : (sample.toInt : ℚ) ≤ 2 ^ 15 := by exact_mod_cast sample.toInt_lt.le
  rw [degPerSec, gyroRange, abs_div, abs_of_pos (by norm_num : (0 : ℚ) < 164 / 10)]
  refine div_le_div_of_nonneg_right (abs_le.mpr ⟨?_, ?_⟩) (by norm_num)
  · linarith
  · linarith

/-- **What bounds the rate of turn**: the bias is in the range of the sensor, and the filter within
twice that range, where all samples are once the bias is taken off. -/
structure Icm.InRange (s : Icm) : Prop where
  bias : |s.bias| ≤ gyroRange
  lastGryoZ : |s.lastGryoZ| ≤ gyroRange + gyroRange

theorem icmInit_inRange (calib : ℕ → Int16) : (icmInit calib {}).InRange where
  bias := by
    have hsum : (icmInit calib {}).bias =
        (∑ i ∈ Finset.range 200, degPerSec (calib i)) / (200 : ℕ) := by
      rw [icmInit, sumBias_bias, zero_add]
      rfl
    rw [hsum]
    exact abs_sum_div_le (by norm_num) fun i _ => abs_degPerSec_le (calib i)
  lastGryoZ := by
    rw [icmInit, (sumBias_frame calib 200 {}).1, abs_zero]
    norm_num [gyroRange]

/-- A sample without the bias. -/
theorem Icm.InRange.abs_sample_le {s : Icm} (h : s.InRange) (sample : Int16) :
    |(degPerSec sample - s.bias) * (-1)| ≤ gyroRange + gyroRange := by
  rw [abs_mul, abs_neg, abs_one, mul_one]
  exact (abs_sub _ _).trans (add_le_add (abs_degPerSec_le sample) h.bias)

/-- **One run of the timer keeps the range.** -/
theorem Icm.InRange.readTimer3 {s : Icm} (h : s.InRange) (g : Gyro) :
    (icmReadTimer3 g s).InRange := by
  obtain ⟨hbias, hlast, -⟩ := watchFlags_frame (readGyro g s)
  constructor
  · rw [icmReadTimer3, hbias, readGyro_bias]
    exact h.bias
  · rw [icmReadTimer3, hlast, readGyro_lastGryoZ]
    exact abs_lowPass_le (by norm_num [k2]) (by norm_num [k2]) h.lastGryoZ (h.abs_sample_le g.z)

theorem Icm.InRange.see {s : Icm} (h : s.InRange) (o : Others) : (s.see o).InRange :=
  ⟨h.bias, h.lastGryoZ⟩

/-- A rate of turn in range moves the heading by less than 40 degrees. -/
theorem Icm.InRange.abs_increment_le {s : Icm} (h : s.InRange) :
    |s.lastGryoZ * (1 / 100)| ≤ 360 := by
  have hrange := h.lastGryoZ
  rw [abs_mul, abs_of_pos (by norm_num : (0 : ℚ) < 1 / 100)]
  rw [gyroRange] at hrange
  linarith

/-! ## Runs -/

section Runs

variable (calib : ℕ → Int16) (gyro : ℕ → Gyro) (others : ℕ → Others)

theorem icmRun_inRange (k : ℕ) : (icmRun calib gyro others k).InRange := by
  induction k with
  | zero => exact icmInit_inRange calib
  | succ k ih => exact (ih.see (others k)).readTimer3 (gyro k)

/-- The heading after one more run of the timer. -/
theorem icmRun_succ_theta (k : ℕ) : (icmRun calib gyro others (k + 1)).theta =
    wrapOnce 360 ((icmRun calib gyro others k).theta +
      (icmRun calib gyro others (k + 1)).lastGryoZ * (1 / 100)) := by
  obtain ⟨-, hlast, htheta⟩ :=
    watchFlags_frame (readGyro (gyro k) ((icmRun calib gyro others k).see (others k)))
  rw [icmRun, icmReadTimer3, hlast, htheta]
  exact readGyro_theta _ _

/-- The heading is the wrapped sum of the increments. -/
theorem icmRun_wraps (k : ℕ) : Wraps 360 (icmRun calib gyro others k).theta
    (∑ i ∈ Finset.range k, (icmRun calib gyro others (i + 1)).lastGryoZ * (1 / 100)) := by
  induction k with
  | zero =>
      have hzero : (icmRun calib gyro others 0).theta = 0 := by
        rw [icmRun, icmInit, (sumBias_frame calib 200 {}).2]
      rw [hzero, Finset.sum_range_zero]
      exact ⟨le_rfl, by norm_num, AddCommGroup.modEq_rfl⟩
  | succ k ih =>
      rw [icmRun_succ_theta, Finset.sum_range_succ]
      exact ih.add (icmRun_inRange calib gyro others (k + 1)).abs_increment_le

/-- **The heading of every run**: after every run of the timer it lies in `[0, 360]` and is the sum
of all increments `last_gryo_z * 0.01` modulo 360. -/
theorem icmRun_theta (k : ℕ) :
    0 ≤ (icmRun calib gyro others k).theta ∧ (icmRun calib gyro others k).theta ≤ 360 ∧
      (icmRun calib gyro others k).theta ≡
        ∑ i ∈ Finset.range k, (icmRun calib gyro others (i + 1)).lastGryoZ * (1 / 100)
          [PMOD 360] :=
  have h := icmRun_wraps calib gyro others k
  ⟨h.nonneg, h.le, h.modEq⟩

end Runs

end HandlingRobot
