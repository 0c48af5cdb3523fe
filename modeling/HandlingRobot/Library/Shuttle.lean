import HandlingRobot.Library.Runs
import Mathlib.Algebra.Order.Field.Basic
import Mathlib.Tactic.Linarith

/-! # To and fro

Something moves on a line between two ends, at `-w` and `w`. In every step it compares its place
with the end it heads for: before that end it drives on, and behind it it turns, but drives the
other way only one step later. The way of a step is known between two bounds, `lo` and `hi`.

* **`Shuttle`**, **`Shuttle.Step`** — place, heading and drive, and a step.
* **`Shuttle.Sweeping`** — what holds between two steps; **`Shuttle.Sweeping.step`** — a step keeps
  it.
* **`Shuttle.Sweeping.abs_pos_le`** — it is never more than two steps behind an end.
* **`Shuttle.toEnd`** — a bound on the way left to an end; **`Shuttle.Sweeping.toEnd_step`** — every
  step shortens it.
* **`visits_of_rank`** — a run along which a rank falls until a set is reached visits this set. -/

namespace HandlingRobot

variable {K : Type*} [Field K] [LinearOrder K]

/-- The place, and the directions of the heading and of the drive. -/
structure Shuttle (K : Type*) where
  pos : K
  heading : K
  drive : K

namespace Shuttle

/-- The heading is a direction. -/
def Directed (s : Shuttle K) : Prop := s.heading = 1 ∨ s.heading = -1

/-- **A step** with the ends at `-w` and `w`. -/
structure Step (w lo hi : K) (s t : Shuttle K) : Prop where
  short : |t.pos - s.pos| ≤ hi
  along : s.drive = s.heading → lo ≤ s.drive * (t.pos - s.pos)
  next : (s.heading * t.pos < w ∧ t.heading = s.heading ∧ t.drive = s.heading) ∨
    (w ≤ s.heading * t.pos ∧ t.heading = -s.heading ∧ t.drive = s.drive)

/-- **Between two steps**: it drives where it heads for, or it has just turned, or it starts
anywhere between the ends, with any drive. -/
inductive Sweeping (w hi : K) (s : Shuttle K) : Prop
  | driving : s.drive = s.heading → -(w + hi + hi) ≤ s.heading * s.pos → s.heading * s.pos < w →
      Sweeping w hi s
  | turned : -(w + hi) ≤ s.heading * s.pos → s.heading * s.pos ≤ -w → Sweeping w hi s
  | starting : |s.pos| < w → Sweeping w hi s

/-- What the turn of the drive costs. -/
def lag (lo hi : K) (s : Shuttle K) : K := if s.drive = s.heading then 0 else hi + lo

/-- **The way left to the end at `e * w`**, at most: that to the end it heads for, and from there
the one back. -/
def toEnd (w lo hi e : K) (s : Shuttle K) : K :=
  w - s.heading * s.pos + s.lag lo hi +
    if s.heading = e then 0 else w + w + (hi + hi) + (lo + lo)

variable {w lo hi e : K} {s t : Shuttle K}

variable [IsStrictOrderedRing K]

/-- A bound on the place is one on either side. -/
theorem Directed.mul_bounds (h : s.Directed) {b : K} (hb : |s.pos| ≤ b) :
    -b ≤ s.heading * s.pos ∧ s.heading * s.pos ≤ b := by
  obtain ⟨hlow, hhigh⟩ := abs_le.mp hb
  rcases h with heq | heq <;> rw [heq] <;> constructor <;> linarith

theorem lag_mem (s : Shuttle K) (hlo : 0 < lo) (hhi : 0 ≤ hi) :
    0 ≤ s.lag lo hi ∧ s.lag lo hi ≤ hi + lo := by
  unfold lag
  split_ifs <;> constructor <;> linarith

/-- The way of a step in the direction of the heading. -/
theorem Step.heading_mul (h : Step w lo hi s t) (hs : s.Directed) :
    s.heading * s.pos - hi ≤ s.heading * t.pos ∧ s.heading * t.pos ≤ s.heading * s.pos + hi := by
  obtain ⟨hlow, hhigh⟩ := abs_le.mp h.short
  rcases hs with heq | heq <;> rw [heq] <;> constructor <;> linarith

theorem Sweeping.lt (h : Sweeping w hi s) (hs : s.Directed) (hw : 0 < w) :
    s.heading * s.pos < w := by
  cases h with
  | driving _ _ hlt => exact hlt
  | turned _ hle => linarith
  | starting habs => linarith [(hs.mul_bounds le_rfl).2]

/-- It is never more than two steps behind an end. -/
theorem Sweeping.abs_pos_le (h : Sweeping w hi s) (hs : s.Directed) (hw : 0 < w) (hhi : 0 ≤ hi) :
    |s.pos| ≤ w + hi + hi := by
  have hlt := h.lt hs hw
  have hlow : -(w + hi + hi) ≤ s.heading * s.pos := by
    cases h with
    | driving _ hlow _ => exact hlow
    | turned hlow _ => linarith
    | starting habs => linarith [(hs.mul_bounds le_rfl).1]
  rw [abs_le]
  rcases hs with heq | heq <;> rw [heq] at hlow hlt <;> constructor <;> linarith

/-- **A step** of something that sweeps. -/
theorem Sweeping.step (h : Sweeping w hi s) (hstep : Step w lo hi s t) (hs : s.Directed)
    (hw : hi < w + w) (hlo : 0 < lo) (hhi : 0 ≤ hi) : Sweeping w hi t := by
  obtain ⟨hback, hahead⟩ := hstep.heading_mul hs
  rcases hstep.next with ⟨hbefore, hheading, hdrive⟩ | ⟨hbehind, hheading, hdrive⟩
  · refine .driving (by rw [hdrive, hheading]) ?_ (by rwa [hheading])
    rw [hheading]
    cases h with
    | driving hsame hlow _ =>
        have halong := hstep.along hsame
        rw [hsame, mul_sub] at halong
        linarith
    | turned hlow _ => linarith
    | starting habs => linarith [(hs.mul_bounds le_rfl).1]
  · cases h with
    | driving _ _ hlt =>
        refine .turned ?_ ?_
        all_goals
          rw [hheading, neg_mul]
          linarith
    | turned _ hle =>
        -- it has not reached the other end yet
        linarith
    | starting habs =>
        have hle := (hs.mul_bounds le_rfl).2
        refine .turned ?_ ?_
        all_goals
          rw [hheading, neg_mul]
          linarith

/-- The way left is at least something, wherever it is. -/
theorem Sweeping.toEnd_pos (h : Sweeping w hi s) (hs : s.Directed) (hw : 0 < w) (hlo : 0 < lo)
    (hhi : 0 ≤ hi) : 0 < s.toEnd w lo hi e := by
  have hlt := h.lt hs hw
  have hlag := (s.lag_mem hlo hhi).1
  unfold toEnd
  split_ifs <;> linarith

/-- The way left is at most that from behind the other end, there and back. -/
theorem Sweeping.toEnd_le (h : Sweeping w hi s) (hs : s.Directed) (hw : 0 < w) (hlo : 0 < lo)
    (hhi : 0 ≤ hi) :
    s.toEnd w lo hi e ≤ w + w + w + w + (hi + hi + hi + hi) + (lo + lo + lo) := by
  unfold toEnd lag
  cases h with
  | driving hsame hlow _ =>
      rw [if_pos hsame]
      split_ifs <;> linarith
  | turned hlow hle => split_ifs <;> linarith
  | starting habs =>
      have hlow := (hs.mul_bounds le_rfl).1
      split_ifs <;> linarith

/-- **A step shortens the way left**, unless it reaches the end. -/
theorem Sweeping.toEnd_step (h : Sweeping w hi s) (hstep : Step w lo hi s t) (hs : s.Directed)
    (he : e = 1 ∨ e = -1) (hw : 0 < w) (hlo : 0 < lo) (hhi : 0 ≤ hi) :
    w ≤ e * t.pos ∨ t.toEnd w lo hi e + lo ≤ s.toEnd w lo hi e := by
  obtain ⟨hback, hahead⟩ := hstep.heading_mul hs
  have hlt := h.lt hs hw
  rcases hstep.next with ⟨hbefore, hheading, hdrive⟩ | ⟨hbehind, hheading, hdrive⟩
  · -- it drives on
    right
    have hfall : w - t.heading * t.pos + t.lag lo hi + lo ≤
        w - s.heading * s.pos + s.lag lo hi := by
      rw [lag, lag, if_pos (by rw [hdrive, hheading]), hheading]
      split_ifs with hsame
      · have halong := hstep.along hsame
        rw [hsame, mul_sub] at halong
        linarith
      · linarith
    rw [toEnd, toEnd, hheading]
    rw [hheading] at hfall
    linarith
  · by_cases hend : s.heading = e
    · left
      rwa [hend] at hbehind
    · -- it turns at the other end
      right
      have hturn : -s.heading = e := by
        rcases hs with heq | heq <;> rcases he with rfl | rfl
        · exact absurd heq hend
        · rw [heq]
        · rw [heq, neg_neg]
        · exact absurd heq hend
      have hlag := (t.lag_mem hlo hhi).2
      have hlag' := (s.lag_mem hlo hhi).1
      rw [toEnd, toEnd, hheading, if_pos hturn, if_neg hend, neg_mul]
      linarith

end Shuttle

/-! ## Reaching a set -/

/-- **A rank that falls** in every step until `Q` is reached: a run that is long enough for it
passes through `Q`. -/
theorem visits_of_rank {σ α : Type*} [IsStrictOrderedRing K] {step : σ → α → Option σ}
    {I Q : σ → Prop} {P : σ → α → Prop} (rank : σ → K) {d : K} (hpos : ∀ s, I s → 0 < rank s)
    (hstep : ∀ s a t, I s → P s a → step s a = some t → I t ∧ (Q t ∨ rank t + d ≤ rank s)) :
    ∀ as s t, I s → StepsSatisfy step P s as → runSteps step s as = some t →
      rank s ≤ as.length * d → ∃ pre u, pre <+: as ∧ runSteps step s pre = some u ∧ Q u := by
  intro as
  induction as with
  | nil =>
      intro s t hI _ _ hrank
      rw [List.length_nil, Nat.cast_zero, zero_mul] at hrank
      exact absurd (hpos s hI) (not_lt.mpr hrank)
  | cons a as ih =>
      intro s t hI hP hrun hrank
      rw [runSteps_cons, Option.bind_eq_some_iff] at hrun
      obtain ⟨s', hs', hrun'⟩ := hrun
      obtain ⟨hI', hQ | hfall⟩ := hstep s a s' hI hP.1 hs'
      · refine ⟨[a], s', ⟨as, rfl⟩, ?_, hQ⟩
        rw [runSteps_cons, hs']
        rfl
      · have hrank' : rank s' ≤ as.length * d := by
          rw [List.length_cons, Nat.cast_succ, add_mul, one_mul] at hrank
          linarith
        obtain ⟨pre, u, hpre, hu, hQ⟩ := ih s' t hI' (hP.2 s' hs') hrun' hrank'
        refine ⟨a :: pre, u, List.cons_prefix_cons.mpr ⟨rfl, hpre⟩, ?_, hQ⟩
        rw [runSteps_cons, hs', Option.bind_some, hu]

end HandlingRobot
