import HandlingRobot.Library.Wheel
import HandlingRobot.Tour.AntRoutes
import Mathlib.Data.Rat.Floor

/-! # The choice of the next point is fair

An ant draws one of 1000 numbers and moves on to the point in whose sector of the wheel the number
lies. Every number belongs to one point, and the points get their shares of the numbers.

* **`Colony.weight`**, **`Colony.pick`** — the weight of a point, and the point of a number.
* **`moveAnt_pick`** — a move of an ant goes to the point of the number drawn.
* **`moveAnt_fair`** — the shares are off by less than one number. -/

namespace HandlingRobot

/-- `P[k]` in the `j`-th move of ant `i`, for the point `k`. -/
def Colony.weight (s : Colony) (j i k : ℕ) : ℚ :=
  s.pher (s.routes i (j - 1)) k * s.idis (s.routes i (j - 1)) k

/-- `unvis` in the `j`-th move of ant `i`. -/
def Colony.unvis (s : Colony) (j i : ℕ) : List ℕ := unvisited s.n j (s.routes i)

/-- `Psum`. -/
def Colony.weightSum (s : Colony) (j i : ℕ) : ℚ := ((s.unvis j i).map (s.weight j i)).sum

/-- **The point of a number** in the `j`-th move of ant `i`, for the result `r` of `rand()`. -/
def Colony.pick (s : Colony) (j i r : ℕ) : Option ℕ :=
  roulette (randn r 0 (s.weightSum j i)) 0 ((s.unvis j i).map fun k => (k, s.weight j i k))

variable {s : Colony} {j i : ℕ}

/-- The sectors of the wheel. -/
theorem Colony.weights_eq : s.weights (s.routes i (j - 1)) (unvisited s.n j (s.routes i)) =
    (s.unvis j i).map fun k => (k, s.weight j i k) := rfl

@[simp] theorem Colony.map_fst_sectors :
    ((s.unvis j i).map fun k => (k, s.weight j i k)).map Prod.fst = s.unvis j i := by
  rw [List.map_map]
  exact List.map_id' _

@[simp] theorem Colony.map_snd_sectors :
    (((s.unvis j i).map fun k => (k, s.weight j i k)).map Prod.snd).sum = s.weightSum j i := by
  rw [List.map_map]
  rfl

/-- **A move goes to the point of the number drawn.** -/
theorem moveAnt_pick (rand : ℕ → ℕ) {k : ℕ} (h : s.pick j i (rand s.calls) = some k) :
    moveAnt rand j i s = { s with calls := s.calls + 1, routes := setCell s.routes i j k } := by
  unfold moveAnt
  dsimp only
  rw [Colony.weights_eq, Colony.map_snd_sectors]
  unfold Colony.pick at h
  rw [h]

/-- Only the last three digits of the result of `rand()` count. -/
theorem Colony.pick_mod (r : ℕ) : s.pick j i (r % 1000) = s.pick j i r := by
  unfold pick randn
  rw [Nat.mod_mod]

theorem Colony.weightSum_pos (hne : s.unvis j i ≠ [])
    (hpos : ∀ k ∈ s.unvis j i, 0 < s.weight j i k) : 0 < s.weightSum j i := by
  refine List.sum_pos _ (fun w hw => ?_) (by simpa using hne)
  obtain ⟨k, hk, rfl⟩ := List.mem_map.mp hw
  exact hpos k hk

/-- The point of a number below 1000 is that of the wheel. -/
theorem Colony.pick_eq_sector {r : ℕ} (hr : r < 1000) : s.pick j i r =
    sector ((r : ℚ) / (1000 : ℕ) * s.weightSum j i) 0
      ((s.unvis j i).map fun k => (k, s.weight j i k)) := by
  unfold pick randn
  rw [roulette_eq_sector, Nat.mod_eq_of_lt hr, sub_zero, add_zero]
  rfl

/-- **Every number belongs to one point.** -/
theorem Colony.existsUnique_pick (hne : s.unvis j i ≠ [])
    (hpos : ∀ k ∈ s.unvis j i, 0 < s.weight j i k) (r : ℕ) :
    ∃! k, k ∈ s.unvis j i ∧ s.pick j i r = some k := by
  have hsum := Colony.weightSum_pos hne hpos
  obtain ⟨hrate, hrate'⟩ := randn_bounds r hsum
  obtain ⟨k, hpick, hmem⟩ := roulette_yields
    ((s.unvis j i).map fun k => (k, s.weight j i k)) 0 hrate
    (by rwa [Colony.map_snd_sectors, zero_add])
  rw [Colony.map_fst_sectors] at hmem
  exact ⟨k, ⟨hmem, hpick⟩, fun l hl => Option.some.inj (hl.2.symm.trans hpick)⟩

/-- **The numbers of a point** are its share of the weights, up to less than one. -/
theorem Colony.abs_card_pick_sub_lt (hpos : ∀ k ∈ s.unvis j i, 0 < s.weight j i k) {k : ℕ}
    (hk : k ∈ s.unvis j i) :
    |(((Finset.range 1000).filter fun r => s.pick j i r = some k).card : ℚ) -
      1000 * s.weight j i k / s.weightSum j i| < 1 := by
  have hsum := Colony.weightSum_pos (List.ne_nil_of_mem hk) hpos
  have hshare := card_sector (k := k) (w := s.weight j i k)
    (P := (s.unvis j i).map fun k => (k, s.weight j i k)) 1000 ?_ ?_ ?_ ?_
  · rw [Colony.map_snd_sectors] at hshare
    rw [Finset.filter_congr fun r hr =>
      by rw [Colony.pick_eq_sector (Finset.mem_range.mp hr)]]
    exact_mod_cast hshare
  · rw [Colony.map_fst_sectors]
    exact List.nodup_range.filter _
  · intro x hx
    obtain ⟨l, hl, rfl⟩ := List.mem_map.mp hx
    exact (hpos l hl).le
  · rwa [Colony.map_snd_sectors]
  · exact List.mem_map_of_mem hk

/-- **The choice is fair**: in every move with a point left and positive weights, each of the 1000
numbers belongs to exactly one of the unvisited points, the one the ant moves on to when this
number is drawn, and the numbers of a point are as many as its share of the weights, up to less than
one. -/
theorem moveAnt_fair (s : Colony) (j i : ℕ) (hne : s.unvis j i ≠ [])
    (hpos : ∀ k ∈ s.unvis j i, 0 < s.weight j i k) :
    (∀ r < 1000, ∃! k, k ∈ s.unvis j i ∧ s.pick j i r = some k) ∧
      (∀ (rand : ℕ → ℕ) (k : ℕ), s.pick j i (rand s.calls % 1000) = some k →
        moveAnt rand j i s = { s with calls := s.calls + 1, routes := setCell s.routes i j k }) ∧
      ∀ k ∈ s.unvis j i,
        |(((Finset.range 1000).filter fun r => s.pick j i r = some k).card : ℚ) -
          1000 * s.weight j i k / s.weightSum j i| < 1 :=
  ⟨fun r _ => Colony.existsUnique_pick hne hpos r,
    fun rand _ hk => moveAnt_pick rand (Colony.pick_mod _ ▸ hk),
    fun _ hk => Colony.abs_card_pick_sub_lt hpos hk⟩

/-- Three points, the last one twice as visible as the one before. -/
def Colony.ofThree : Colony :=
  { Colony.ofPair (0, 0) (0, 0) with n := 3, idis := fun _ k => k, pher := fun _ _ => 1 }

/-- The first move from point 0: the weights are 1 and 2. -/
theorem moveAnt_fair_ofThree :
    |(((Finset.range 1000).filter fun r => Colony.ofThree.pick 1 0 r = some 2).card : ℚ) -
      1000 * 2 / 3| < 1 := by
  have hunvis : Colony.ofThree.unvis 1 0 = [1, 2] := by decide
  have hweight : ∀ k, Colony.ofThree.weight 1 0 k = k := fun k => one_mul (k : ℚ)
  have hsum : Colony.ofThree.weightSum 1 0 = 3 := by
    rw [Colony.weightSum, hunvis]
    norm_num [hweight]
  have hshare := (moveAnt_fair Colony.ofThree 1 0 (by simp [hunvis]) ?_).2.2 2 (by simp [hunvis])
  · rwa [hsum, hweight] at hshare
  · rw [hunvis]
    norm_num [hweight]

end HandlingRobot
