import HandlingRobot.Uart.Category
import Mathlib.Tactic.IntervalCases

/-! # The bin of a classified picture

The branch for `'#'` writes the class of a picture under `lsttt`, lets the planner go on to the next
target, and reads the class back under `lstttt` to choose the bin. Between the two the planner has
moved `lsttt` to `lstttt`, so both are the picture the car stands at.

* **`Handler.plan_frame`** — what the planner does to the two indices and the classes.
* **`binOf`** — the bin of a class, as the groups of five are meant.
* **`hashBranch_bin`** — the class is stored for the picture, and the bin is that of the class. -/

namespace HandlingRobot

/-! ## The planner in between -/

/-- **`ACO_to_next`** leaves the classes alone and remembers the target it replaces. -/
theorem acoToNext_frame (atan : ℚ → ℚ) (s : Planner) :
    (acoToNext atan s).clas = s.clas ∧ (acoToNext atan s).lstttt = s.lsttt ∧
      (acoToNext atan s).picNum = s.picNum := by
  unfold acoToNext
  dsimp only
  split_ifs <;> simp

/-- So does **`ACO_to_R`**. -/
theorem acoToR_frame (atan : ℚ → ℚ) (s : Planner) :
    (acoToR atan s).clas = s.clas ∧ (acoToR atan s).lstttt = s.lsttt ∧
      (acoToR atan s).picNum = s.picNum := by
  unfold acoToR acoToBin
  dsimp only
  split_ifs <;> simp

/-- **The planner's part of a packet**, as long as there is a picture or a bin to go to. -/
theorem Handler.plan_frame (atan : ℚ → ℚ) {s : Handler} (h : s.targetCnt ≤ s.picNum) :
    (s.plan atan).clas = s.clas ∧ (s.plan atan).lstttt = s.lsttt ∧ (s.plan atan).cls = s.cls := by
  unfold Handler.plan
  dsimp only
  rcases h.lt_or_eq with hlt | heq
  · -- a picture; the number of pictures is read again and is the same
    obtain ⟨hclas, hlst, hpic⟩ := acoToNext_frame atan s.toPlanner
    simp only [if_pos hlt, hpic, if_neg hlt.ne]
    exact ⟨hclas, hlst, trivial⟩
  · obtain ⟨hclas, hlst, -⟩ := acoToR_frame atan s.toPlanner
    simp only [if_neg heq.not_lt, if_pos heq]
    exact ⟨hclas, hlst, trivial⟩

/-! ## The bin -/

/-- The number behind `'A'`. -/
def CategoryPacket.category (b : CategoryPacket) : ℤ :=
  b.digit 3 * 100 + b.digit 4 * 10 + b.digit 5

/-- **The bin of a class**, as a value of `car.servo_flag`. -/
def binOf (c : ℤ) : ℕ := if c ≤ 5 then 1 else if c ≤ 10 then 2 else 3

/-- The two steps of the remapping, and the `switch` behind them, are the groups of five. -/
theorem servoFlag_clasOf {c : ℤ} (h : 1 ≤ c ∧ c ≤ 15) (old : ℕ) :
    (if clasOf c = 0 then 1 else if clasOf c = 1 then 3 else if clasOf c = 2 then 2 else old) =
      binOf c := by
  obtain ⟨hlo, hhi⟩ := h
  interval_cases c <;> rfl

/-- **A picture goes into the bin of its class.** For every state of the planner and every packet
with a class from 1 to 15, handled with a picture or a bin to go to: the class is stored for the
picture the car stands at and for no other, and the servo task is told the bin of this class. -/
theorem hashBranch_bin (atan : ℚ → ℚ) (b : CategoryPacket) (s : Handler)
    (hA : b.uartBuff.getD 2 0 = 65) (hc : 1 ≤ b.category ∧ b.category ≤ 15)
    (htarget : s.targetCnt ≤ s.picNum) :
    (hashBranch atan b s).cls = Function.update s.cls s.lsttt b.category ∧
      ((1 ≤ b.category ∧ b.category ≤ 5) → (hashBranch atan b s).servoFlag = 1) ∧
      ((6 ≤ b.category ∧ b.category ≤ 10) → (hashBranch atan b s).servoFlag = 2) ∧
      ((11 ≤ b.category ∧ b.category ≤ 15) → (hashBranch atan b s).servoFlag = 3) := by
  -- the classes and the indices in front of the planner
  have hclassify : (s.classify b).cls = Function.update s.cls s.lsttt b.category ∧
      (s.classify b).clas = Function.update s.clas s.lsttt (clasOf b.category) ∧
      (s.classify b).lsttt = s.lsttt ∧ (s.classify b).targetCnt ≤ (s.classify b).picNum := by
    unfold Handler.classify
    rw [if_pos hA]
    exact ⟨rfl, rfl, rfl, htarget⟩
  obtain ⟨hcls, hclas, hlst, hle⟩ := hclassify
  obtain ⟨hclas', hlst', hcls'⟩ := Handler.plan_frame atan hle
  have hread : ((s.classify b).plan atan).clas ((s.classify b).plan atan).lstttt =
      clasOf b.category := by
    rw [hclas', hlst', hlst, hclas, Function.update_self]
  have hflag : (hashBranch atan b s).servoFlag = binOf b.category := by
    unfold hashBranch Handler.announce
    dsimp only
    rw [hread]
    exact servoFlag_clasOf hc _
  refine ⟨hcls'.trans hcls, fun h => ?_, fun h => ?_, fun h => ?_⟩
  · rw [hflag, binOf, if_pos h.2]
  · rw [hflag, binOf, if_neg (by omega), if_pos h.2]
  · rw [hflag, binOf, if_neg (by omega), if_neg (by omega)]

/-- The sample packet at the first picture of the sample map: an animal. -/
theorem hashBranch_bin_sample : (hashBranch (fun x => x) .sample Handler.sample).servoFlag = 1 :=
  (hashBranch_bin (fun x => x) .sample .sample (by decide) (by decide) (by decide)).2.1 (by decide)

end HandlingRobot
