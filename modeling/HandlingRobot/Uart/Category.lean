import HandlingRobot.Library.Runs
import HandlingRobot.Tour.Targets
import HandlingRobot.Uart.Frame

/-! # The class of a picture arrives

When the car stands at a picture, the camera board sends the class of it in a packet `$#A…`. The
branch of `data_analysis` for such packets stores the class, has the planner add the legs to the
next picture or to the bins, and tells the servo task what to do. It is `target_cnt`, the number of
the path the motion task follows, that decides between the two, and not the place in the tour that
`ACO_to_next` reads on.

* **`Handler`** — the planner and the flags the branch sets; **`hashBranch`** — the branch.
* **`categoryStep`** — `target_cnt` advances, and a packet is handled.
* **`Handler.WithinTables`** — the planner stays inside its tables.
* **`categoryRun_within_iff`** — it does exactly when few enough packets are handled before
  `target_cnt` reaches the number of pictures, and few enough while it is there. -/

namespace HandlingRobot

/-! ## The branch -/

/-- **What the branch works on**: the planner, and flags of other tasks. -/
structure Handler extends Planner where
  /-- `class`, the classes as they were sent. -/
  cls : ℕ → ℤ
  /-- `target_cnt`, of the motion task. -/
  targetCnt : ℕ
  /-- `car.servo_flag`. -/
  servoFlag : ℕ
  /-- `y`, the speed sideways. -/
  y : ℚ
  /-- `car.to_pic_cnt`. -/
  toPicCnt : ℕ
  /-- `car.uart_flag`. -/
  uartFlag : ℕ

/-- A packet with `'#'` behind its header. -/
structure CategoryPacket where
  /-- `uart_buff`. -/
  uartBuff : List UInt8
  hash : uartBuff.getD 1 0 = 35

/-- The decimal digit at place `i` of the packet; any other byte gives a number as well. -/
def CategoryPacket.digit (b : CategoryPacket) (i : ℕ) : ℤ := (b.uartBuff.getD i 0).toNat - 48

/-- The first part of the branch: the class, if the packet has one, is that of the target. -/
def Handler.classify (b : CategoryPacket) (s : Handler) : Handler :=
  if b.uartBuff.getD 2 0 = 65 then
    let c := b.digit 3 * 100 + b.digit 4 * 10 + b.digit 5
    { s with
      cls := Function.update s.cls s.lsttt c
      clas := Function.update s.clas s.lsttt (clasOf c) }
  else s

/-- The middle part: the planner adds the next legs. -/
def Handler.plan (atan : ℚ → ℚ) (s : Handler) : Handler :=
  let s := if s.targetCnt < s.picNum then { s with toPlanner := acoToNext atan s.toPlanner } else s
  if s.targetCnt = s.picNum then { s with toPlanner := acoToR atan s.toPlanner } else s

/-- The last part: the servo task is told what to do with the picture. -/
def Handler.announce (s : Handler) : Handler :=
  let clas := s.clas s.lstttt
  { s with
    servoFlag := if clas = 0 then 1 else if clas = 1 then 3 else if clas = 2 then 2 else s.servoFlag
    y := 0
    toPicCnt := 0
    uartFlag := 1 }

/-- **The branch of `data_analysis` for `'#'`.** -/
def hashBranch (atan : ℚ → ℚ) (b : CategoryPacket) (s : Handler) : Handler :=
  ((s.classify b).plan atan).announce

/-- `target_cnt`, a `uint16_t`, has advanced by `d`. -/
def advance (d c : ℕ) : ℕ := (c + d) % 65536

/-- **One packet**, after the motion task has advanced `target_cnt` by any amount. -/
def categoryStep (atan : ℚ → ℚ) (s : Handler) (a : ℕ × CategoryPacket) : Option Handler :=
  some (hashBranch atan a.2 { s with targetCnt := advance a.1 s.targetCnt })

/-- The values of `target_cnt` that the packets are handled with. -/
def targetCnts : ℕ → List (ℕ × CategoryPacket) → List ℕ
  | _, [] => []
  | c, a :: as => advance a.1 c :: targetCnts (advance a.1 c) as

/-- **The planner is inside its tables**: the place in the tour is one of the tour's, the points fit
their table, and so do all paths so far. -/
structure Handler.WithinTables (tour : ℕ → ℕ) (s : Handler) : Prop where
  pathClk : s.pathClk ≤ s.picNum
  entry : ∃ k ≤ s.picNum, s.path 0 s.pathClk = tour k
  n : s.n < 30
  path_tot : ∀ num < s.numPath, num < 60

/-! ## What the calls of the planner count -/

/-- `ACO_to_next` makes one path or two. -/
theorem acoToNext_numPath (atan : ℚ → ℚ) (s : Planner) :
    (acoToNext atan s).picNum = s.picNum ∧ (acoToNext atan s).numPath ≤ s.numPath + 2 := by
  unfold acoToNext
  dsimp only
  -- two paths only for a leg backwards
  split_ifs <;> simp

/-- A call for a bin makes one path, and the bin is one more point. -/
theorem acoToR_counts (atan : ℚ → ℚ) (s : Planner) :
    (acoToR atan s).picNum = s.picNum ∧ (acoToR atan s).path = s.path ∧
      (acoToR atan s).pathClk = s.pathClk ∧ (acoToR atan s).n = s.n + 1 ∧
      (acoToR atan s).numPath = s.numPath + 1 := by
  unfold acoToR acoToBin
  dsimp only
  split_ifs <;> simp

/-- **Between two packets** with `p` pictures: the table of the tour holds entries of the tour only,
and the paths are accounted for by the places read and the points added. -/
structure Handler.Counted (p : ℕ) (tour : ℕ → ℕ) (s : Handler) : Prop where
  picNum : s.picNum = p
  entry : ∀ k, ∃ j ≤ p, s.path 0 k = tour j
  pathClk : 1 ≤ s.pathClk
  n : p ≤ s.n
  numPath : s.numPath + p + 1 ≤ 2 * s.pathClk + s.n

/-- **What the planner's part of a packet counts**: a place read while `target_cnt` is below the
number of pictures, a point added while it is there, and nothing after that. -/
theorem Handler.plan_counts (atan : ℚ → ℚ) {p : ℕ} {tour : ℕ → ℕ} {s : Handler}
    (h : s.Counted p tour) :
    (s.plan atan).Counted p tour ∧ (s.plan atan).targetCnt = s.targetCnt ∧
      (s.plan atan).pathClk = s.pathClk + (if s.targetCnt < p then 1 else 0) ∧
      (s.plan atan).n = s.n + (if s.targetCnt = p then 1 else 0) := by
  have hpic := h.picNum
  have hnum := h.numPath
  have hp := h.n
  unfold Handler.plan
  dsimp only
  rw [hpic]
  -- `target_cnt` decides: a picture, the bins, or nothing
  rcases lt_trichotomy s.targetCnt p with hlt | rfl | hgt
  · -- the picture behind the current one
    obtain ⟨hpicN, hpaths⟩ := acoToNext_numPath atan s.toPlanner
    obtain ⟨hpath, hclk, -, hn⟩ := acoToNext_target atan s.toPlanner
    rw [hpic] at hpicN
    simp only [if_pos hlt, if_neg hlt.ne, hpicN]
    refine ⟨⟨hpicN, fun k => ?_, ?_, ?_, ?_⟩, trivial, hclk, hn⟩
    · rw [hpath]
      apply h.entry
    · rw [hclk]
      omega
    · rw [hn]
      omega
    · rw [hclk, hn]
      show (acoToNext atan s.toPlanner).numPath + p + 1 ≤ _
      omega
  · -- the bin on the right
    obtain ⟨hpicR, hpath, hclk, hn, hpaths⟩ := acoToR_counts atan s.toPlanner
    simp only [if_neg (lt_irrefl s.targetCnt), hpic, if_true]
    refine ⟨⟨hpicR.trans hpic, fun k => ?_, ?_, ?_, ?_⟩, trivial, hclk, hn⟩
    · rw [hpath]
      apply h.entry
    · rw [hclk]
      exact h.pathClk
    · rw [hn]
      omega
    · rw [hclk, hn, hpaths]
      omega
  · simp only [if_neg hgt.not_gt, if_neg hgt.ne', hpic]
    exact ⟨h, trivial, rfl, rfl⟩

/-- **What one packet counts.** -/
theorem hashBranch_counts (atan : ℚ → ℚ) (b : CategoryPacket) {p : ℕ} {tour : ℕ → ℕ} {s : Handler}
    (h : s.Counted p tour) :
    (hashBranch atan b s).Counted p tour ∧ (hashBranch atan b s).targetCnt = s.targetCnt ∧
      (hashBranch atan b s).pathClk = s.pathClk + (if s.targetCnt < p then 1 else 0) ∧
      (hashBranch atan b s).n = s.n + (if s.targetCnt = p then 1 else 0) := by
  -- the class and the flags are none of the counts
  have hclass : (s.classify b).Counted p tour ∧ (s.classify b).targetCnt = s.targetCnt ∧
      (s.classify b).pathClk = s.pathClk ∧ (s.classify b).n = s.n := by
    unfold Handler.classify
    by_cases hA : b.uartBuff.getD 2 0 = 65
    · rw [if_pos hA]
      exact ⟨⟨h.picNum, h.entry, h.pathClk, h.n, h.numPath⟩, rfl, rfl, rfl⟩
    · rw [if_neg hA]
      exact ⟨h, rfl, rfl, rfl⟩
  obtain ⟨h, htarget, hclk, hn⟩ := hclass
  obtain ⟨hplan, hcounts⟩ := Handler.plan_counts atan h
  rw [htarget, hclk, hn] at hcounts
  exact ⟨⟨hplan.picNum, hplan.entry, hplan.pathClk, hplan.n, hplan.numPath⟩, hcounts⟩

/-! ## Runs -/

/-- Inside the tables, in terms of the counts: with at most 19 pictures the paths fit when the
places and the points do. -/
theorem Handler.Counted.withinTables_iff {p : ℕ} {tour : ℕ → ℕ} {s : Handler}
    (h : s.Counted p tour) (hp : p ≤ 19) : s.WithinTables tour ↔ s.pathClk ≤ p ∧ s.n < 30 := by
  have hpic := h.picNum
  have hnum := h.numPath
  constructor
  · intro hw
    exact ⟨hpic ▸ hw.pathClk, hw.n⟩
  · rintro ⟨hclk, hn⟩
    exact ⟨hpic.symm ▸ hclk, hpic.symm ▸ h.entry s.pathClk, hn, fun num hlt => by omega⟩

/-- **A run stays inside the tables** exactly when the packets that read a place and the packets
that add a point are few enough. -/
theorem categoryRun_iff (atan : ℚ → ℚ) {p : ℕ} {tour : ℕ → ℕ} (hp : p ≤ 19)
    (as : List (ℕ × CategoryPacket)) :
    ∀ s : Handler, s.Counted p tour →
      (StatesSatisfy (categoryStep atan) (Handler.WithinTables tour) s as ↔
        s.pathClk + (targetCnts s.targetCnt as).countP (· < p) ≤ p ∧
          s.n + (targetCnts s.targetCnt as).count p < 30) := by
  induction as with
  | nil =>
      intro s h
      exact h.withinTables_iff hp
  | cons a as ih =>
      intro s h
      generalize hs' : hashBranch atan a.2 { s with targetCnt := advance a.1 s.targetCnt } = s'
      have hstart : Handler.Counted p tour { s with targetCnt := advance a.1 s.targetCnt } :=
        ⟨h.picNum, h.entry, h.pathClk, h.n, h.numPath⟩
      obtain ⟨hcounted, htarget, hclk, hn⟩ := hashBranch_counts atan a.2 hstart
      rw [hs'] at hcounted htarget hclk hn
      have hstep : ∀ t, categoryStep atan s a = some t ↔ s' = t := fun t => by
        rw [categoryStep, hs', Option.some.injEq]
      simp only [StatesSatisfy, hstep, forall_eq', h.withinTables_iff hp, ih s' hcounted,
        targetCnts, htarget, hclk, hn, List.countP_cons, List.count_cons, decide_eq_true_eq,
        beq_iff_eq]
      -- the counts only grow, so the first state is inside when the next one is
      omega

/-- **After `ACO_to_first`** nothing has been counted yet. The shuffled row holds entries of the
tour: the empty ones behind it are 0, as is one of the tour's. -/
theorem Planner.Boot.counted {s₀ : Planner} (h : s₀.Boot) (rand : ℕ → ℕ) :
    ∃ t s₁, loadTour rand s₀ = some t ∧ acoToFirst rand s₀ = some s₁ ∧
      ∀ g : Handler, g.toPlanner = s₁ →
        g.Counted s₀.picNum (t.path 0) ∧ g.pathClk = 1 ∧ g.n = s₀.picNum := by
  obtain ⟨t, ht, -, -, hn, -, hnum, hclk, hpic, htour, hempty⟩ := h.loadTour_yields rand
  rw [h.pathClk] at hclk
  rw [h.numPath] at hnum
  refine ⟨t, _, ht, acoToFirst_eq rand ht, fun g hg => ?_⟩
  -- 0 is an entry of the tour, as every number up to `pic_num` is
  have hzero : ∃ j ≤ s₀.picNum, t.path 0 j = 0 := by
    obtain ⟨j, hj, hj0⟩ := List.mem_map.mp
      (htour.2.mem_iff.mpr (List.mem_range.mpr (Nat.succ_pos s₀.picNum)))
    rw [List.mem_range] at hj
    exact ⟨j, by omega, hj0⟩
  have hentry : ∀ k, ∃ j ≤ s₀.picNum, g.path 0 k = t.path 0 j := by
    intro k
    have hk : g.path 0 k = t.path 0 (t.drawn rand k) := by
      rw [hg]
      simp [Planner.toFirst]
    rw [hk]
    by_cases hlt : t.drawn rand k ≤ s₀.picNum
    · exact ⟨_, hlt, rfl⟩
    · obtain ⟨j, hj, hj0⟩ := hzero
      exact ⟨j, hj, by rw [hempty _ (not_le.mp hlt), hj0]⟩
  -- `ACO_to_first` leaves the counters as they are
  have hg1 : g.pathClk = 1 := by
    rw [hg]
    simpa [Planner.toFirst] using hclk
  have hgn : g.n = s₀.picNum := by
    rw [hg]
    simpa [Planner.toFirst] using hn
  have hgnum : g.numPath = 1 := by
    rw [hg]
    simp [Planner.toFirst, hnum]
  have hgpic : g.picNum = s₀.picNum := by
    rw [hg]
    simpa [Planner.toFirst] using hpic
  exact ⟨⟨hgpic, hentry, hg1.ge, hgn.ge, by omega⟩, hg1, hgn⟩

/-- The runs after `ACO_to_first`. -/
theorem Planner.Boot.categoryRun_iff (h₀ : Handler) (hb : h₀.toPlanner.Boot)
    (hp : h₀.picNum ≤ 19) (atan : ℚ → ℚ) (rand : ℕ → ℕ) :
    ∃ t s₁, loadTour rand h₀.toPlanner = some t ∧ acoToFirst rand h₀.toPlanner = some s₁ ∧
      ∀ as, StatesSatisfy (categoryStep atan) (Handler.WithinTables (t.path 0))
          { h₀ with toPlanner := s₁ } as ↔
        (targetCnts h₀.targetCnt as).countP (· < h₀.picNum) < h₀.picNum ∧
          h₀.picNum + (targetCnts h₀.targetCnt as).count h₀.picNum < 30 := by
  obtain ⟨t, s₁, ht, hs₁, hcounted⟩ := hb.counted rand
  refine ⟨t, s₁, ht, hs₁, fun as => ?_⟩
  obtain ⟨hstart, hclk, hn⟩ := hcounted { h₀ with toPlanner := s₁ } rfl
  rw [HandlingRobot.categoryRun_iff atan hp as _ hstart, hclk, hn]
  exact and_congr_left' Nat.one_add_le_iff

/-- **When the planner stays inside its tables**, from `ACO_to_first` on and for any packets, with
`target_cnt` advancing by any amount in between: exactly when fewer than `pic_num` of them are
handled while `target_cnt` is below `pic_num`, and fewer than `30 - pic_num` while it is there. -/
theorem categoryRun_within_iff (atan : ℚ → ℚ) (rand : ℕ → ℕ) (h₀ : Handler)
    (hb : h₀.toPlanner.Boot) (hp : h₀.picNum ≤ 19) :
    ∃ t s₁, loadTour rand h₀.toPlanner = some t ∧ acoToFirst rand h₀.toPlanner = some s₁ ∧
      ∀ as, StatesSatisfy (categoryStep atan) (Handler.WithinTables (t.path 0))
          { h₀ with toPlanner := s₁ } as ↔
        (targetCnts h₀.targetCnt as).countP (· < h₀.picNum) < h₀.picNum ∧
          h₀.picNum + (targetCnts h₀.targetCnt as).count h₀.picNum < 30 :=
  hb.categoryRun_iff h₀ hp atan rand

/-! ## Packets that come too often -/

/-- The packet `$#A001.0AAAAAAAAAAAA\n`. -/
def CategoryPacket.sample : CategoryPacket := ⟨Packet.category.bytes, by decide⟩

/-- The handler on the sample map, before the first call. -/
def Handler.sample : Handler where
  toPlanner := .boot samplePictures
  cls := fun _ => 0
  targetCnt := 0
  servoFlag := 0
  y := 0
  toPicCnt := 0
  uartFlag := 0

/-- One packet for each of the 13 pictures, each on a path of its own, keeps the planner inside its
tables. -/
theorem onePacketPerStop_within :
    ∃ t s₁, loadTour (fun _ => 0) (.boot samplePictures) = some t ∧
      acoToFirst (fun _ => 0) (.boot samplePictures) = some s₁ ∧
      StatesSatisfy (categoryStep fun x => x) (Handler.WithinTables (t.path 0))
        { Handler.sample with toPlanner := s₁ } (List.replicate 13 (1, .sample)) := by
  obtain ⟨t, s₁, ht, hs₁, hiff⟩ := categoryRun_within_iff (fun x => x) (fun _ => 0) .sample
    Planner.boot_samplePictures (by decide)
  exact ⟨t, s₁, ht, hs₁, (hiff _).mpr (by decide)⟩

/-- **The place in the tour leaves the tour** when 13 packets are handled at the first picture of
the sample map. -/
theorem repeatedPacket_outside :
    ¬ ∀ (atan : ℚ → ℚ) (rand : ℕ → ℕ) (h₀ : Handler), h₀.toPlanner.Boot → h₀.picNum ≤ 19 →
      ∃ t s₁, loadTour rand h₀.toPlanner = some t ∧ acoToFirst rand h₀.toPlanner = some s₁ ∧
        ∀ as, StatesSatisfy (categoryStep atan) (Handler.WithinTables (t.path 0))
          { h₀ with toPlanner := s₁ } as := by
  intro h
  obtain ⟨t, s₁, ht, hs₁, hall⟩ := h (fun x => x) (fun _ => 0) .sample Planner.boot_samplePictures
    (by decide)
  obtain ⟨t', s₁', ht', hs₁', hiff⟩ :=
    Planner.Boot.categoryRun_iff .sample Planner.boot_samplePictures (by decide) (fun x => x)
      (fun _ => 0)
  obtain rfl := Option.some.inj (ht.symm.trans ht')
  obtain rfl := Option.some.inj (hs₁.symm.trans hs₁')
  -- the first packet finds the car on path 1, the others find it there still
  have hfew := ((hiff ((1, .sample) :: List.replicate 12 (0, .sample))).mp (hall _)).1
  exact absurd hfew (by decide)

end HandlingRobot
