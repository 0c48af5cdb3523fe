import HandlingRobot.Tour.Planner

/-! # Which pictures the planner visits

The tour of `ACO_to_first` starts with the start of the car at entry 0 and is followed by empty
entries. The shuffle that comes after it rearranges the first 13 entries of the table, entry 0 and
the empty ones among them, and the pictures are then read from entry 1 on.

* **`targets`** — the values of `lsttt` after `ACO_to_first` and the calls of `ACO_to_next`.
* **`ShuffleKeepsPictures`** — the draw brings neither the start nor an empty entry among them.
* **`targets_perm_iff`** — exactly then every picture is visited once. -/

namespace HandlingRobot

/-! ## What a leg leaves alone -/

/-- The waypoints are all that changes in the loop of `make_path`. -/
theorem makePoints_frame (s : Planner) (num : ℕ) (stepX stepY : ℚ) (k : ℕ) :
    ∃ pathX pathY pathPredis, makePoints s num stepX stepY k =
      { s with pathX := pathX, pathY := pathY, pathPredis := pathPredis } := by
  induction k with
  | zero => exact ⟨s.pathX, s.pathY, s.pathPredis, rfl⟩
  | succ k ih =>
      obtain ⟨pathX, pathY, pathPredis, hk⟩ := ih
      rw [makePoints, hk]
      exact ⟨_, _, _, rfl⟩

@[simp] theorem makePoints_pathTot (s : Planner) (num : ℕ) (stepX stepY : ℚ) (k : ℕ) :
    (makePoints s num stepX stepY k).pathTot = s.pathTot := by
  obtain ⟨_, _, _, h⟩ := makePoints_frame s num stepX stepY k
  rw [h]

/-- The waypoints are all that changes in `make_path`. -/
theorem makePath_frame (x0 y0 x1 y1 : ℤ) (num : ℕ) (disStep : ℚ) (s : Planner) :
    ∃ pathX pathY pathPredis pathTot, makePath x0 y0 x1 y1 num disStep s =
      { s with pathX := pathX, pathY := pathY, pathPredis := pathPredis, pathTot := pathTot } := by
  unfold makePath
  by_cases h : s.pathTot num = 0
  · simp only [if_pos h]
    obtain ⟨pathX, pathY, pathPredis, hk⟩ := makePoints_frame
      { s with pathX := setCell s.pathX num 0 x0, pathY := setCell s.pathY num 0 y0,
               pathPredis := setCell s.pathPredis num 0 0 } num _ _ _
    rw [hk]
    exact ⟨_, _, _, _, rfl⟩
  · simp only [if_neg h]
    obtain ⟨pathX, pathY, pathPredis, hk⟩ := makePoints_frame s num _ _ _
    rw [hk]
    exact ⟨_, _, _, _, rfl⟩

/-- The waypoints and the number of paths are all that changes in a leg. -/
theorem Planner.leg_frame (s : Planner) (x0 y0 x1 y1 : ℤ) :
    ∃ pathX pathY pathPredis pathTot, s.leg x0 y0 x1 y1 =
      { s with pathX := pathX, pathY := pathY, pathPredis := pathPredis, pathTot := pathTot,
               numPath := s.numPath + 1 } := by
  obtain ⟨_, _, _, _, h⟩ := makePath_frame x0 y0 x1 y1 s.numPath pieceStep s
  rw [Planner.leg, h]
  exact ⟨_, _, _, _, rfl⟩

section Leg

variable (s : Planner) (x0 y0 x1 y1 : ℤ)

@[simp] theorem Planner.leg_px : (s.leg x0 y0 x1 y1).px = s.px := by
  obtain ⟨_, _, _, _, h⟩ := s.leg_frame x0 y0 x1 y1
  rw [h]

@[simp] theorem Planner.leg_py : (s.leg x0 y0 x1 y1).py = s.py := by
  obtain ⟨_, _, _, _, h⟩ := s.leg_frame x0 y0 x1 y1
  rw [h]

@[simp] theorem Planner.leg_n : (s.leg x0 y0 x1 y1).n = s.n := by
  obtain ⟨_, _, _, _, h⟩ := s.leg_frame x0 y0 x1 y1
  rw [h]

@[simp] theorem Planner.leg_path : (s.leg x0 y0 x1 y1).path = s.path := by
  obtain ⟨_, _, _, _, h⟩ := s.leg_frame x0 y0 x1 y1
  rw [h]

@[simp] theorem Planner.leg_lsttt : (s.leg x0 y0 x1 y1).lsttt = s.lsttt := by
  obtain ⟨_, _, _, _, h⟩ := s.leg_frame x0 y0 x1 y1
  rw [h]

@[simp] theorem Planner.leg_nxttt : (s.leg x0 y0 x1 y1).nxttt = s.nxttt := by
  obtain ⟨_, _, _, _, h⟩ := s.leg_frame x0 y0 x1 y1
  rw [h]

@[simp] theorem Planner.leg_pathClk : (s.leg x0 y0 x1 y1).pathClk = s.pathClk := by
  obtain ⟨_, _, _, _, h⟩ := s.leg_frame x0 y0 x1 y1
  rw [h]

@[simp] theorem Planner.leg_picNum : (s.leg x0 y0 x1 y1).picNum = s.picNum := by
  obtain ⟨_, _, _, _, h⟩ := s.leg_frame x0 y0 x1 y1
  rw [h]

@[simp] theorem Planner.leg_clas : (s.leg x0 y0 x1 y1).clas = s.clas := by
  obtain ⟨_, _, _, _, h⟩ := s.leg_frame x0 y0 x1 y1
  rw [h]

@[simp] theorem Planner.leg_tmp : (s.leg x0 y0 x1 y1).tmp = s.tmp := by
  obtain ⟨_, _, _, _, h⟩ := s.leg_frame x0 y0 x1 y1
  rw [h]

@[simp] theorem Planner.leg_vis : (s.leg x0 y0 x1 y1).vis = s.vis := by
  obtain ⟨_, _, _, _, h⟩ := s.leg_frame x0 y0 x1 y1
  rw [h]

@[simp] theorem Planner.leg_numPath : (s.leg x0 y0 x1 y1).numPath = s.numPath + 1 := rfl

end Leg

/-! ## The targets -/

/-- **The targets of the first `p` calls**: `lsttt` after `ACO_to_first`, which leaves `s`, and
after each of the next `p - 1` calls of `ACO_to_next`. -/
def targets (atan : ℚ → ℚ) (p : ℕ) (s : Planner) : List ℕ :=
  (List.range p).map fun k => ((acoToNext atan)^[k] s).lsttt

/-- A call of `ACO_to_next` moves on by one entry of the table. -/
theorem acoToNext_target (atan : ℚ → ℚ) (s : Planner) :
    (acoToNext atan s).path = s.path ∧ (acoToNext atan s).pathClk = s.pathClk + 1 ∧
      (acoToNext atan s).lsttt = s.path 0 (s.pathClk + 1) ∧ (acoToNext atan s).n = s.n := by
  unfold acoToNext
  dsimp only
  split_ifs <;> simp

/-- After `k` calls of `ACO_to_next` the target is the entry `k` behind the first one. -/
theorem iterate_acoToNext_target (atan : ℚ → ℚ) {s : Planner} (h : s.lsttt = s.path 0 s.pathClk)
    (k : ℕ) :
    ((acoToNext atan)^[k] s).path = s.path ∧ ((acoToNext atan)^[k] s).pathClk = s.pathClk + k ∧
      ((acoToNext atan)^[k] s).lsttt = s.path 0 (s.pathClk + k) ∧
      ((acoToNext atan)^[k] s).n = s.n := by
  induction k with
  | zero => exact ⟨rfl, rfl, h, rfl⟩
  | succ k ih =>
      obtain ⟨hpath, hclk, -, hn⟩ := ih
      rw [Function.iterate_succ_apply']
      obtain ⟨hpath', hclk', hlst, hn'⟩ := acoToNext_target atan ((acoToNext atan)^[k] s)
      rw [hpath, hclk] at hlst
      exact ⟨hpath'.trans hpath, by rw [hclk', hclk, Nat.add_assoc], hlst, hn'.trans hn⟩

/-- The place that the shuffle of `ACO_to_first` draws for entry `k`, when it is called in state
`s`. -/
def Planner.drawn (rand : ℕ → ℕ) (s : Planner) (k : ℕ) : ℕ := place rand s.calls 13 k

/-- **The tour as `ACO_to_first` rearranges it.** -/
theorem acoToFirst_eq {s t : Planner} (rand : ℕ → ℕ) (ht : loadTour rand s = some t) :
    acoToFirst rand s =
      some (t.toFirst (fun k => t.path 0 (t.drawn rand k)) (t.calls + 13)) := by
  have hshuffle := shuffle_eq rand (n := 13) (by decide) le_rfl t.calls (t.path 0)
  simp only [acoToFirst, ht, hshuffle, Option.bind_eq_bind, Option.bind_some]
  rfl

/-- **The draw keeps the pictures**, in the state before the shuffle: it brings the start of the car
to none of the entries 1 to `pic_num`, and exactly one of them holds 0, the picture 0 or an empty
entry. -/
def ShuffleKeepsPictures (rand : ℕ → ℕ) (p : ℕ) (s : Planner) : Prop :=
  (∀ k, 1 ≤ k → k ≤ p → s.drawn rand k ≠ 0) ∧
    ∃! k, (1 ≤ k ∧ k ≤ p) ∧ s.path 0 (s.drawn rand k) = 0

/-- A list of the values of a function is a permutation of `0, …, p - 1`, if they are different
values below `p`. -/
theorem map_range_perm_iff {p : ℕ} {f : ℕ → ℕ} :
    ((List.range p).map f).Perm (List.range p) ↔
      (∀ k < p, f k < p) ∧ ∀ k < p, ∀ l < p, f k = f l → k = l := by
  constructor
  · intro h
    have htour : PartialTour p (f 0) p f := IsTour.partialTour ⟨rfl, h⟩
    exact ⟨htour.lt, htour.inj⟩
  · rintro ⟨hlt, hinj⟩
    exact (PartialTour.isTour ⟨rfl, hlt, hinj⟩).2

/-- **The rearranged tour.** The entries drawn from a tour that is followed by empty entries are the
pictures, each once, exactly when the start is not among them and 0 is among them once. -/
theorem drawn_perm_iff {p : ℕ} {tour draw : ℕ → ℕ} (hp : 1 ≤ p) (htour : IsTour (p + 1) p tour)
    (hempty : ∀ k, p < k → tour k = 0) (hdraw : Function.Injective draw) :
    ((List.range p).map fun k => tour (draw (k + 1))).Perm (List.range p) ↔
      (∀ k, 1 ≤ k → k ≤ p → draw k ≠ 0) ∧ ∃! k, (1 ≤ k ∧ k ≤ p) ∧ tour (draw k) = 0 := by
  have hpart := htour.partialTour
  rw [map_range_perm_iff]
  constructor
  -- the start is not drawn, and 0 is drawn exactly once
  · rintro ⟨hlt, hinj⟩
    refine ⟨fun k hk hkp hzero => ?_, ?_⟩
    · have hstart := hlt (k - 1) (by omega)
      rw [Nat.sub_add_cancel hk, hzero, hpart.start] at hstart
      exact absurd hstart (lt_irrefl p)
    · have hperm := map_range_perm_iff.mpr ⟨hlt, hinj⟩
      have hmem := hperm.mem_iff.mpr (List.mem_range.mpr hp)
      obtain ⟨k, hk, hzero⟩ := List.mem_map.mp hmem
      rw [List.mem_range] at hk
      refine ⟨k + 1, ⟨⟨by omega, by omega⟩, hzero⟩, ?_⟩
      rintro l ⟨⟨hl, hlp⟩, hlzero⟩
      have heq := hinj (l - 1) (by omega) k hk (by rw [Nat.sub_add_cancel hl, hlzero, hzero])
      omega
  · rintro ⟨hne, z, -, honly⟩
    -- what is not 0 is an entry of the tour
    have hbound : ∀ k, 1 ≤ k → k ≤ p → tour (draw k) ≠ 0 → draw k < p + 1 := by
      intro k _ _ hnz
      by_contra hout
      exact hnz (hempty _ (by omega))
    refine ⟨fun k hk => ?_, fun k hk l hl hkl => ?_⟩
    · by_cases hnz : tour (draw (k + 1)) = 0
      · omega
      · have hk' := hbound (k + 1) (by omega) (by omega) hnz
        have hlt := hpart.lt _ hk'
        have hnotstart : tour (draw (k + 1)) ≠ p := fun h =>
          hne (k + 1) (by omega) (by omega)
            (hpart.inj _ hk' 0 (by omega) (h.trans hpart.start.symm))
        omega
    · by_cases hnz : tour (draw (k + 1)) = 0
      · have hk' := honly (k + 1) ⟨⟨by omega, by omega⟩, hnz⟩
        have hl' := honly (l + 1) ⟨⟨by omega, by omega⟩, hkl ▸ hnz⟩
        omega
      · have hk' := hbound (k + 1) (by omega) (by omega) hnz
        have hl' := hbound (l + 1) (by omega) (by omega) (hkl ▸ hnz)
        have heq := hdraw (hpart.inj _ hk' _ hl' hkl)
        omega

/-- **With at least 12 pictures** only the first draw matters: the pictures are kept exactly when it
is the start of the car. -/
theorem drawn_first_iff {p : ℕ} {tour : ℕ → ℕ} (hp : 12 ≤ p) (htour : IsTour (p + 1) p tour)
    (rand : ℕ → ℕ) (calls : ℕ) :
    ((∀ k, 1 ≤ k → k ≤ p → place rand calls 13 k ≠ 0) ∧
        ∃! k, (1 ≤ k ∧ k ≤ p) ∧ tour (place rand calls 13 k) = 0) ↔ rand calls % 13 = 0 := by
  have hsize : 13 ≤ tableSize := le_rfl
  have hinj := place_injective rand (by decide) hsize calls
  have hpart := htour.partialTour
  have hbound : ∀ k, k ≤ p → place rand calls 13 k < p + 1 := by
    intro k hk
    rcases Nat.lt_or_ge k 13 with hlt | hge
    · exact lt_of_lt_of_le (place_lt rand (by decide) hsize calls hlt) (by omega)
    · rw [place_of_le rand (by decide) hsize calls hge]
      omega
  rw [← place_zero rand (by decide) hsize calls]
  constructor
  · rintro ⟨hne, -⟩
    obtain ⟨k, hk, hzero⟩ := exists_place rand (by decide) hsize calls (p := 0) (by decide)
    rcases Nat.eq_zero_or_pos k with rfl | hpos
    · exact hzero
    · exact absurd hzero (hne k hpos (by omega))
  · intro hzero
    refine ⟨fun k hk _ h => absurd (hinj (h.trans hzero.symm)) (by omega), ?_⟩
    -- the place of picture 0 in the tour, and the entry it is drawn for
    obtain ⟨z, hz, htz⟩ := List.mem_map.mp
      (htour.2.mem_iff.mpr (List.mem_range.mpr (Nat.succ_pos p)))
    rw [List.mem_range] at hz
    have hz0 : z ≠ 0 := by
      rintro rfl
      rw [hpart.start] at htz
      omega
    have hentry : ∃ k ≤ p, place rand calls 13 k = z := by
      rcases Nat.lt_or_ge z 13 with hlt | hge
      · obtain ⟨k, hk, hkz⟩ := exists_place rand (by decide) hsize calls hlt
        exact ⟨k, by omega, hkz⟩
      · exact ⟨z, by omega, place_of_le rand (by decide) hsize calls hge⟩
    obtain ⟨k, hk, hkz⟩ := hentry
    have hk0 : k ≠ 0 := by
      rintro rfl
      omega
    refine ⟨k, ⟨⟨by omega, hk⟩, by rw [hkz, htz]⟩, ?_⟩
    rintro l ⟨⟨-, hlp⟩, hl⟩
    have hlz := hpart.inj _ (hbound l hlp) z hz (hl.trans htz.symm)
    exact hinj (hlz.trans hkz.symm)

/-- The targets of a run from the state before the first call. -/
theorem Planner.Boot.targets_yields {s₀ : Planner} (h : s₀.Boot) (atan : ℚ → ℚ) (rand : ℕ → ℕ) :
    ∃ t s₁, loadTour rand s₀ = some t ∧ acoToFirst rand s₀ = some s₁ ∧
      ((targets atan s₀.picNum s₁).Perm (List.range s₀.picNum) ↔
        ShuffleKeepsPictures rand s₀.picNum t) ∧
      (12 ≤ s₀.picNum → (ShuffleKeepsPictures rand s₀.picNum t ↔ rand t.calls % 13 = 0)) := by
  obtain ⟨t, ht, -, -, -, -, -, hclk, -, htour, hempty⟩ := h.loadTour_yields rand
  rw [h.pathClk] at hclk
  refine ⟨t, _, ht, acoToFirst_eq rand ht, ?_, fun hp => drawn_first_iff hp htour rand t.calls⟩
  have htargets : targets atan s₀.picNum
      (t.toFirst (fun k => t.path 0 (t.drawn rand k)) (t.calls + 13)) =
      (List.range s₀.picNum).map fun k => t.path 0 (t.drawn rand (k + 1)) := by
    refine List.map_congr_left fun k _ => ?_
    rw [(iterate_acoToNext_target atan (by simp [Planner.toFirst]) k).2.2.1]
    simp [Planner.toFirst, hclk, Nat.add_comm]
  rw [htargets]
  exact drawn_perm_iff h.picNum_pos htour hempty
    (place_injective rand (n := 13) (by decide) le_rfl t.calls)

/-- **When every picture is visited exactly once**: from the state before the first call, exactly
when the draw keeps the pictures. With at least 12 pictures that is when the first of the 13 results
of `rand()` is divisible by 13. -/
theorem targets_perm_iff (atan : ℚ → ℚ) (rand : ℕ → ℕ) (s₀ : Planner) (h : s₀.Boot) :
    ∃ t s₁, loadTour rand s₀ = some t ∧ acoToFirst rand s₀ = some s₁ ∧
      ((targets atan s₀.picNum s₁).Perm (List.range s₀.picNum) ↔
        ShuffleKeepsPictures rand s₀.picNum t) ∧
      (12 ≤ s₀.picNum → (ShuffleKeepsPictures rand s₀.picNum t ↔ rand t.calls % 13 = 0)) :=
  h.targets_yields atan rand

/-! ## A run that misses a picture -/

/-- The cells of a map with 13 pictures. -/
def samplePictures : List (ℤ × ℤ) :=
  [(16, 14), (13, 9), (20, 16), (14, 19), (23, 6), (5, 5), (3, 14), (9, 22), (26, 23), (2, 2),
    (33, 2), (4, 24), (33, 21)]

/-- The state before the first call, with the given pictures. -/
def Planner.boot (pictures : List (ℤ × ℤ)) : Planner where
  n := 0
  px := fun i => (pictures.getD i (0, 0)).1
  py := fun i => (pictures.getD i (0, 0)).2
  clas := fun _ => 0
  dis := fun _ _ => 0
  idis := fun _ _ => 0
  pher := fun _ _ => 0
  deltaPher := fun _ _ => 0
  routes := fun _ _ => 0
  lenBest := fun _ => 0
  pathBest := fun _ _ => 0
  path := fun _ _ => 0
  tmp := (0, 0)
  calls := 0
  picNum := pictures.length
  pxStd := fun _ => 0
  pyStd := fun _ => 0
  pathX := fun _ _ => 0
  pathY := fun _ _ => 0
  pathPredis := fun _ _ => 0
  pathTot := fun _ => 0
  numPath := 0
  lsttt := 0
  nxttt := 0
  lstttt := 0
  vis := fun _ => false
  pathClk := 1

theorem Planner.boot_samplePictures : (Planner.boot samplePictures).Boot :=
  ⟨by decide, by decide, by decide, fun _ _ => rfl, fun _ => rfl, rfl, rfl⟩

/-- On the sample map every picture is visited once when every result of `rand()` is 0. -/
theorem samplePictures_visited :
    ∃ s₁, acoToFirst (fun _ => 0) (.boot samplePictures) = some s₁ ∧
      (targets (fun x => x) 13 s₁).Perm (List.range 13) := by
  obtain ⟨t, s₁, -, hs₁, hiff, hfirst⟩ :=
    targets_perm_iff (fun x => x) (fun _ => 0) _ Planner.boot_samplePictures
  exact ⟨s₁, hs₁, hiff.mpr ((hfirst (by decide)).mpr (Nat.zero_mod 13))⟩

/-- **The start of the car becomes a target** on the sample map when `rand()` always returns 1. -/
theorem samplePictures_missed :
    ¬ ∀ (atan : ℚ → ℚ) (rand : ℕ → ℕ) (s₀ : Planner), s₀.Boot → s₀.picNum ≤ 19 →
      ∃ s₁, acoToFirst rand s₀ = some s₁ ∧
        (targets atan s₀.picNum s₁).Perm (List.range s₀.picNum) := by
  intro h
  obtain ⟨s₁, hs₁, hperm⟩ := h (fun x => x) (fun _ => 1) _ Planner.boot_samplePictures (by decide)
  obtain ⟨t, s₁', -, hs₁', hiff, hfirst⟩ :=
    Planner.boot_samplePictures.targets_yields (fun x => x) (fun _ => 1)
  obtain rfl := Option.some.inj (hs₁.symm.trans hs₁')
  exact absurd ((hfirst (by decide)).mp (hiff.mp hperm)) (by decide)

end HandlingRobot
