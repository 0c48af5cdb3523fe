import HandlingRobot.Library.BestSplit
import HandlingRobot.Vision.Threshold
import Mathlib.Order.ConditionallyCompleteLattice.Basic
import Mathlib.Order.Lattice.Nat

/-! # The level that `GetOSTU` chooses

On its histogram `GetOSTU` chooses the least level that splits best. The histogram is that of the
frame up to multiples of 256, and a histogram of one level is a case of its own.

* **`Levels`** — the levels that occur in a histogram.
* **`otsu_spec`** — the level chosen on a histogram.
* **`count`**, **`Chosen`** — the numbers of pixels, and the level meant.
* **`getOSTU_chosen_iff`** — when `GetOSTU` chooses the level meant.
* **`separates_iff`** — when the frame of 0 and 1 shows the class of that level. -/

namespace HandlingRobot

/-! ## The loops over the histogram -/

/-- The levels that occur in a histogram. -/
def Levels (h : ℕ → ℕ) : Set ℕ := {v | v < 256 ∧ h v ≠ 0}

/-- The sum over the levels from `lo` on, when none below counts. -/
theorem sum_map_range' {g : ℕ → ℕ} {lo : ℕ} (hlo : ∀ v < lo, g v = 0) (n : ℕ) :
    ((List.range' lo n).map g).sum = ∑ v ∈ Finset.range (lo + n), g v := by
  induction n with
  | zero => exact (Finset.sum_eq_zero fun v hv => hlo v (Finset.mem_range.mp hv)).symm
  | succ n ih =>
      rw [List.range'_concat, List.map_append, List.sum_append, ih, Nat.one_mul, ← Nat.add_assoc,
        Finset.sum_range_succ]
      simp

section Histogram

variable {H : ℕ → ℕ} {lo hi : ℕ} (hlo : IsLeast (Levels H) lo) (hhi : IsGreatest (Levels H) hi)

include hlo in
theorem eq_zero_of_lt {v : ℕ} (hv : v < lo) : H v = 0 := by
  by_contra hne
  exact absurd (hlo.2 ⟨hv.trans hlo.1.1, hne⟩) (not_le.mpr hv)

include hhi in
theorem eq_zero_of_gt {v : ℕ} (hv : hi < v) (hlt : v < 256) : H v = 0 := by
  by_contra hne
  exact absurd (hhi.2 ⟨hlt, hne⟩) (not_le.mpr hv)

include hlo in
theorem minValue_eq : minValue H = lo := by
  have hfind : (List.range 256).find? (fun v => decide (H v ≠ 0)) = some lo := by
    rw [List.find?_range_eq_some]
    refine ⟨decide_eq_true hlo.1.2, List.mem_range.mpr hlo.1.1, fun v hv => ?_⟩
    simp [eq_zero_of_lt hlo hv]
  rw [minValue, hfind, Option.getD_some]

include hlo in
/-- **The loop for the last level ends where it starts.** -/
theorem maxValue_eq : maxValue H lo 255 = 255 := by
  rw [maxValue, if_neg fun h => hlo.1.2 h.2]

include hlo hhi in
/-- The variance that the code computes at a level. -/
theorem sigma_eq {j : ℕ} (hj : lo ≤ j) (hlt : j < 256) :
    sigma (lower H j) ((∑ v ∈ Finset.range 256, H v) - lower H j) (lower (weigh H) j)
      ((∑ v ∈ Finset.range 256, weigh H v) - lower (weigh H) j) =
      if j < hi then some (betweenVariance 256 H j) else none := by
  have hfore := lower_add_upper H hlt
  have hfore' := lower_add_upper (weigh H) hlt
  have hback := lower_ne_zero hj hlo.1.2
  rw [← hfore, ← hfore', Nat.add_sub_cancel_left, Nat.add_sub_cancel_left, sigma]
  by_cases hjhi : j < hi
  · have hupper := upper_ne_zero hjhi hhi.1.1 hhi.1.2
    rw [if_pos hjhi, if_neg (not_or.mpr ⟨hback, hupper⟩)]
    dsimp only
    unfold betweenVariance
    dsimp only
    ring_nf
  · have hupper : upper 256 H j = 0 :=
      Finset.sum_eq_zero fun v hv => eq_zero_of_gt hhi
        (by have hv' := Finset.mem_Ico.mp hv; omega) (Finset.mem_Ico.mp hv).2
    rw [if_neg hjhi, if_pos (Or.inr hupper)]

include hlo hhi in
/-- **One level of the loop**, when the sums are those of the levels before. -/
theorem otsuStep_eq {a : Otsu} {j : ℕ} (hj : lo ≤ j) (hlt : j < 256)
    (hback : a.pixelBack = ∑ v ∈ Finset.range j, H v)
    (hintegral : a.integralBack = ∑ v ∈ Finset.range j, weigh H v) :
    otsuStep H (∑ v ∈ Finset.range 256, H v) (∑ v ∈ Finset.range 256, weigh H v) a j =
      if j < hi ∧ betweenVariance 256 H j > a.sigmaB then
        ⟨lower H j, lower (weigh H) j, betweenVariance 256 H j, j⟩
      else ⟨lower H j, lower (weigh H) j, a.sigmaB, a.threshold⟩ := by
  have hsum : a.pixelBack + H j = lower H j := by
    rw [hback, lower, Finset.sum_range_succ]
  have hsum' : a.integralBack + H j * j = lower (weigh H) j := by
    rw [hintegral, lower, Finset.sum_range_succ, weigh]
  unfold otsuStep
  dsimp only
  rw [hsum, hsum', sigma_eq hlo hhi hj hlt]
  by_cases hjhi : j < hi
  · rw [if_pos hjhi]
    dsimp only
    by_cases hgt : betweenVariance 256 H j > a.sigmaB
    · rw [if_pos hgt, if_pos ⟨hjhi, hgt⟩]
    · rw [if_neg hgt, if_neg fun h => hgt h.2]
  · rw [if_neg hjhi, if_neg fun h => hjhi h.1]

include hlo hhi in
/-- **The loop as far as the last level that occurs** is a scan for the greatest variance. -/
theorem otsuLoop_scanned (n : ℕ) (hn : lo + n ≤ hi) :
    let a := (List.range' lo n).foldl (otsuStep H (∑ v ∈ Finset.range 256, H v)
      (∑ v ∈ Finset.range 256, weigh H v)) ⟨0, 0, -1, 0⟩
    (a.pixelBack = ∑ v ∈ Finset.range (lo + n), H v ∧
      a.integralBack = ∑ v ∈ Finset.range (lo + n), weigh H v) ∧
      Scanned (fun j => OrderDual.toDual (betweenVariance 256 H j)) (OrderDual.toDual (-1), 0)
        (List.range' lo n) (OrderDual.toDual a.sigmaB, a.threshold) := by
  -- level after level, with the sums up to the level
  induction n with
  | zero =>
      have hzero : ∀ v ∈ Finset.range lo, H v = 0 := fun v hv =>
        eq_zero_of_lt hlo (Finset.mem_range.mp hv)
      refine ⟨⟨(Finset.sum_eq_zero hzero).symm, (Finset.sum_eq_zero fun v hv => ?_).symm⟩,
        Scanned.nil _ _⟩
      rw [weigh, hzero v hv, Nat.zero_mul]
  | succ n ih =>
      obtain ⟨⟨hback, hintegral⟩, hscan⟩ := ih (by omega)
      have hhi256 := hhi.1.1
      have hstep := hscan.snoc (lo + n)
      dsimp only
      rw [List.range'_concat, Nat.one_mul, List.foldl_append, List.foldl_cons, List.foldl_nil,
        otsuStep_eq hlo hhi (by omega) (by omega) hback hintegral]
      generalize (List.range' lo n).foldl (otsuStep H _ _) ⟨0, 0, -1, 0⟩ = a at hstep
      have hin : lo + n < hi := by omega
      by_cases hgt : betweenVariance 256 H (lo + n) > a.sigmaB
      · rw [if_pos ⟨hin, hgt⟩]
        rw [if_pos (OrderDual.toDual_lt_toDual.mpr hgt)] at hstep
        exact ⟨⟨rfl, rfl⟩, hstep⟩
      · rw [if_neg fun h => hgt h.2]
        rw [if_neg (fun h => hgt (OrderDual.toDual_lt_toDual.mp h))] at hstep
        exact ⟨⟨rfl, rfl⟩, hstep⟩

include hlo hhi in
/-- **Behind the last level that occurs** the loop changes nothing more. -/
theorem otsuLoop_behind (n : ℕ) : ∀ (j : ℕ) (a : Otsu), lo ≤ j → hi ≤ j → j + n ≤ 256 →
    a.pixelBack = ∑ v ∈ Finset.range j, H v → a.integralBack = ∑ v ∈ Finset.range j, weigh H v →
    ((List.range' j n).foldl (otsuStep H (∑ v ∈ Finset.range 256, H v)
      (∑ v ∈ Finset.range 256, weigh H v)) a).threshold = a.threshold := by
  induction n with
  | zero => exact fun j a _ _ _ _ _ => rfl
  | succ n ih =>
      intro j a hj hjhi hn hback hintegral
      rw [List.range'_succ, List.foldl_cons, otsuStep_eq hlo hhi hj (by omega) hback hintegral,
        if_neg fun h => absurd h.1 (not_lt.mpr hjhi)]
      exact ih (j + 1) _ (by omega) (by omega) (by omega) rfl rfl

include hlo hhi in
/-- **The level that `GetOSTU` chooses** on a histogram: the least one that splits best. On a
histogram of one level it is 0, unless the level is 254 or 255. -/
theorem otsu_spec : if lo < hi then IsBest 256 H lo hi (otsu H)
    else otsu H = if 254 ≤ lo then lo else 0 := by
  have hlohi : lo ≤ hi := hlo.2 hhi.1
  have hhi256 := hhi.1.1
  unfold otsu
  rw [minValue_eq hlo]
  dsimp only
  rw [maxValue_eq hlo]
  by_cases h255 : 255 = lo
  · rw [if_pos h255, if_neg (by omega), if_pos (by omega)]
    exact h255
  · rw [if_neg h255]
    by_cases h254 : lo + 1 = 255
    · rw [if_pos h254, if_pos (show 254 ≤ lo by omega)]
      split_ifs with hlt
      · -- only the level 254 comes into question
        exact ⟨le_rfl, hlt, fun j hj hj' => le_of_eq (congrArg _ (by omega)),
          fun j hj hj' => absurd hj (not_le.mpr hj')⟩
      · rfl
    · rw [if_neg h254, if_neg (show ¬ 254 ≤ lo by omega)]
      have hamount := sum_map_range' (fun v hv => eq_zero_of_lt hlo hv) (255 + 1 - lo)
      have hintegral := sum_map_range' (g := weigh H)
        (fun v hv => by rw [weigh, eq_zero_of_lt hlo hv, Nat.zero_mul]) (255 + 1 - lo)
      have hall : lo + (255 + 1 - lo) = 256 := by omega
      rw [hall] at hamount hintegral
      have hweigh : (fun j => H j * j) = weigh H := rfl
      rw [hweigh, hamount, hintegral]
      -- the levels up to the last one that occurs, and those behind it
      have hlevels : List.range' lo (255 - lo) =
          List.range' lo (hi - lo) ++ List.range' hi (255 - hi) := by
        have hlen : 255 - lo = hi - lo + (255 - hi) := by omega
        have hmid : lo + (hi - lo) = hi := by omega
        rw [hlen, ← List.range'_append_1, hmid]
      obtain ⟨⟨hback, hsum⟩, hscan⟩ := otsuLoop_scanned hlo hhi (hi - lo) (by omega)
      rw [show lo + (hi - lo) = hi by omega] at hback hsum
      rw [hlevels, List.foldl_append,
        otsuLoop_behind hlo hhi (255 - hi) hi _ hlohi le_rfl (by omega) hback hsum]
      split_ifs with hlt
      · exact isBest_of_scanned hlt rfl hscan
      · rw [show hi - lo = 0 by omega]
        rfl

end Histogram

/-! ## The levels of a frame -/

/-- How many pixels of the frame have this level. -/
def count (f : Frame) (v : ℕ) : ℕ := framePixels.countP fun q => f q.1 q.2 = v

theorem histogram_eq (f : Frame) (v : ℕ) : histogram f v = count f v % 256 :=
  histogram_of_count rfl

/-- A level occurs when a pixel of the frame has it. -/
theorem count_ne_zero_iff {f : Frame} {v : ℕ} :
    count f v ≠ 0 ↔ ∃ q, OnFrame q ∧ f q.1 q.2 = v := by
  rw [count, ← Nat.pos_iff_ne_zero, List.countP_pos_iff]
  simp only [mem_framePixels, decide_eq_true_eq]

/-- The levels of a frame are those of `uint8_t`. -/
def IsGrey (f : Frame) : Prop := ∀ q, OnFrame q → f q.1 q.2 < 256

/-- **Every pixel has a level.** -/
theorem sum_count {f : Frame} (hf : IsGrey f) : ∑ v ∈ Finset.range 256, count f v = 22560 := by
  have hlist : ∀ l : List Pixel, (∀ q ∈ l, f q.1 q.2 < 256) →
      ∑ v ∈ Finset.range 256, l.countP (fun q => f q.1 q.2 = v) = l.length := by
    intro l
    induction l with
    | nil => exact fun _ => Finset.sum_const_zero
    | cons q l ih =>
        intro hl
        simp only [List.countP_cons, Finset.sum_add_distrib, decide_eq_true_eq]
        rw [ih fun p hp => hl p (List.mem_cons_of_mem q hp), List.length_cons, Finset.sum_ite_eq,
          if_pos (Finset.mem_range.mpr (hl q List.mem_cons_self))]
  rw [← length_framePixels]
  exact hlist framePixels fun q hq => hf q (mem_framePixels.mp hq)

/-- **Some level keeps a count** in the histogram: 22560 is not a multiple of 256. -/
theorem exists_histogram_ne_zero {f : Frame} (hf : IsGrey f) : (Levels (histogram f)).Nonempty := by
  by_contra hnone
  have hdvd : 256 ∣ ∑ v ∈ Finset.range 256, count f v := by
    refine Finset.dvd_sum fun v hv => Nat.dvd_of_mod_eq_zero ?_
    by_contra hne
    exact hnone ⟨v, Finset.mem_range.mp hv, histogram_eq f v ▸ hne⟩
  rw [sum_count hf] at hdvd
  exact absurd hdvd (by decide)

/-- The levels of a histogram have a first and a last one. -/
theorem exists_extremes {h : ℕ → ℕ} (hne : (Levels h).Nonempty) :
    ∃ lo hi, IsLeast (Levels h) lo ∧ IsGreatest (Levels h) hi := by
  have hbdd : BddAbove (Levels h) := ⟨256, fun v hv => hv.1.le⟩
  exact ⟨sInf (Levels h), sSup (Levels h), ⟨Nat.sInf_mem hne, fun v hv => Nat.sInf_le hv⟩,
    ⟨Nat.sSup_mem hne hbdd, fun v hv => le_csSup hbdd hv⟩⟩

/-! ## The level meant -/

/-- **The level meant** by a histogram: the least one that splits best, and the only one of a
histogram of one level. -/
def Chosen (h : ℕ → ℕ) (t : ℕ) : Prop :=
  ∀ lo hi, IsLeast (Levels h) lo → IsGreatest (Levels h) hi →
    if lo < hi then IsBest 256 h lo hi t else t = lo

/-- The level that is left when the counts are taken modulo 256; it is 0 instead of the only level
that still counts, when that is below 254. -/
def Left (H : ℕ → ℕ) (t : ℕ) : Prop :=
  ∀ lo hi, IsLeast (Levels H) lo → IsGreatest (Levels H) hi →
    if lo < hi then IsBest 256 H lo hi t else t = if 254 ≤ lo then lo else 0

/-- **`GetOSTU` returns the level that is left.** -/
theorem left_iff {f : Frame} (hf : IsGrey f) {t : ℕ} : Left (histogram f) t ↔ t = getOSTU f := by
  obtain ⟨lo, hi, hlo, hhi⟩ := exists_extremes (exists_histogram_ne_zero hf)
  have hspec := otsu_spec hlo hhi
  constructor
  · intro h
    have ht := h lo hi hlo hhi
    split_ifs at ht hspec with hlt
    · exact ht.unique hspec
    · exact ht.trans hspec.symm
    · exact ht.trans hspec.symm
  · rintro rfl lo' hi' hlo' hhi'
    obtain rfl := hlo'.unique hlo
    obtain rfl := hhi'.unique hhi
    exact hspec

/-- The counts of a frame of one level. -/
theorem count_const {f : Frame} {v : ℕ} (h : ∀ q, OnFrame q → f q.1 q.2 = v) (u : ℕ) :
    count f u = if u = v then 22560 else 0 := by
  split_ifs with hu
  · rw [count, ← length_framePixels, List.countP_eq_length]
    exact fun q hq => decide_eq_true ((h q (mem_framePixels.mp hq)).trans hu.symm)
  · by_contra hne
    obtain ⟨q, hq, hqu⟩ := count_ne_zero_iff.mp hne
    exact hu (hqu.symm.trans (h q hq))

/-- The levels of a histogram that has one. -/
theorem levels_eq_singleton {h : ℕ → ℕ} {n v : ℕ} (hv : v < 256) (hn : n ≠ 0)
    (hh : ∀ u, h u = if u = v then n else 0) : Levels h = {v} := by
  ext u
  simp only [Levels, Set.mem_ofPred_eq, Set.mem_singleton_iff, hh]
  constructor
  · rintro ⟨-, hu⟩
    by_contra hne
    exact hu (if_neg hne)
  · rintro rfl
    exact ⟨hv, by rwa [if_pos rfl]⟩

/-- **A frame of one level**: `GetOSTU` returns 0 below 254. -/
theorem getOSTU_const {f : Frame} {v : ℕ} (hv : v < 256) (h : ∀ q, OnFrame q → f q.1 q.2 = v) :
    Levels (count f) = {v} ∧ getOSTU f = if 254 ≤ v then v else 0 := by
  have hlevels : Levels (histogram f) = {v} := by
    refine levels_eq_singleton (n := 32) hv (by decide) fun u => ?_
    rw [histogram_eq, count_const h]
    split_ifs <;> rfl
  refine ⟨levels_eq_singleton hv (by decide) (count_const h), ?_⟩
  have hlo : IsLeast (Levels (histogram f)) v := by rw [hlevels]; exact isLeast_singleton
  have hhi : IsGreatest (Levels (histogram f)) v := by rw [hlevels]; exact isGreatest_singleton
  have hspec := otsu_spec hlo hhi
  rw [if_neg (Nat.lt_irrefl v)] at hspec
  exact hspec

/-- The level meant by a frame of one level. -/
theorem chosen_singleton {h : ℕ → ℕ} {v t : ℕ} (hlevels : Levels h = {v}) :
    Chosen h t ↔ t = v := by
  have hlo : IsLeast (Levels h) v := by rw [hlevels]; exact isLeast_singleton
  have hhi : IsGreatest (Levels h) v := by rw [hlevels]; exact isGreatest_singleton
  constructor
  · intro hc
    have ht := hc v v hlo hhi
    rwa [if_neg (Nat.lt_irrefl v)] at ht
  · rintro rfl lo hi hlo' hhi'
    obtain rfl := hlo'.unique hlo
    obtain rfl := hhi'.unique hhi
    rw [if_neg (Nat.lt_irrefl _)]

/-- **When `GetOSTU` returns the level meant**: exactly when that level is still the one left by the
counts modulo 256. So it is when no level occurs 256 times; a frame of one level needs the level
0, 254 or 255. -/
theorem getOSTU_chosen_iff (f : Frame) (hf : IsGrey f) :
    (Chosen (count f) (getOSTU f) ↔
        ∃ t, Chosen (count f) t ∧ Left (fun v => count f v % 256) t) ∧
      ((∀ v, count f v < 256) → Chosen (count f) (getOSTU f)) ∧
      ∀ v, (∀ q, OnFrame q → f q.1 q.2 = v) →
        (Chosen (count f) (getOSTU f) ↔ v = 0 ∨ 254 ≤ v) := by
  refine ⟨⟨fun h => ⟨_, h, (left_iff hf).mpr rfl⟩, ?_⟩, fun hsmall => ?_, fun v hv => ?_⟩
  · rintro ⟨t, ht, hleft⟩
    rwa [← (left_iff hf).mp hleft]
  · -- nothing is lost
    have hsame : histogram f = count f := by
      funext v
      rw [histogram_eq, Nat.mod_eq_of_lt (hsmall v)]
    intro lo hi hlo hhi
    have hspec := otsu_spec (hsame.symm ▸ hlo) (hsame.symm ▸ hhi)
    have hlt : lo < hi := by
      by_contra hno
      -- the only level would occur 22560 times
      have hone : ∑ v ∈ Finset.range 256, count f v = count f lo := by
        refine Finset.sum_eq_single_of_mem lo (Finset.mem_range.mpr hlo.1.1) fun v hv hne => ?_
        by_contra hpos
        have hv' : v ∈ Levels (count f) := ⟨Finset.mem_range.mp hv, hpos⟩
        have hle := hlo.2 hv'
        have hge := hhi.2 hv'
        omega
      have hlo256 := hsmall lo
      rw [sum_count hf] at hone
      omega
    rw [if_pos hlt] at hspec ⊢
    rw [← hsame]
    exact hspec
  · have hv256 : v < 256 := by
      have hq : OnFrame (0, 0) := by decide
      rw [← hv (0, 0) hq]
      exact hf (0, 0) hq
    obtain ⟨hlevels, hlevel⟩ := getOSTU_const hv256 hv
    rw [chosen_singleton hlevels, hlevel]
    split_ifs <;> omega

/-- Every column has a level of its own. -/
def ramp : Frame := fun i _ => i.toNat

/-- A level of the ramp occurs in one column at most. -/
theorem count_ramp_le (v : ℕ) : count ramp v ≤ 120 := by
  have hsub : framePixels.filter (fun q => ramp q.1 q.2 = v) ⊆
      (List.range 120).map fun (j : ℕ) => (((v : ℤ), (j : ℤ)) : Pixel) := by
    rintro ⟨x, y⟩ hq
    obtain ⟨hq, hlevel⟩ := List.mem_filter.mp hq
    have hcolumn : x.toNat = v := of_decide_eq_true hlevel
    rw [mem_framePixels] at hq
    simp only [OnFrame, imgWidth, imgHeight] at hq
    exact List.mem_map.mpr ⟨y.toNat, List.mem_range.mpr (by omega), Prod.ext (by dsimp only; omega)
      (by dsimp only; omega)⟩
  have hle := (List.subperm_of_subset (framePixels_nodup.filter _) hsub).length_le
  rwa [List.length_map, List.length_range, ← List.countP_eq_length_filter] at hle

/-- **On the ramp no level occurs 256 times**, and the level meant is returned. -/
theorem getOSTU_chosen_ramp : Chosen (count ramp) (getOSTU ramp) := by
  have hgrey : IsGrey ramp := fun q hq => by
    simp only [OnFrame, imgWidth] at hq
    simp only [ramp]
    omega
  exact (getOSTU_chosen_iff ramp hgrey).2.1 fun v => (count_ramp_le v).trans_lt (by decide)

/-- In a frame of the level 100 `GetOSTU` returns 0. -/
theorem getOSTU_misses_grey : ¬ Chosen (count fun _ _ => 100) (getOSTU fun _ _ => 100) := by
  obtain ⟨hlevels, hlevel⟩ :=
    getOSTU_const (f := fun _ _ => 100) (v := 100) (by decide) fun _ _ => rfl
  rw [chosen_singleton hlevels, hlevel]
  decide

/-! ## The class in the frame of 0 and 1 -/

/-- **The frame of 0 and 1 shows the lower class**, the levels up to the one chosen. -/
def Separates (f : Frame) : Prop :=
  ∀ q, OnFrame q → (binarise (getOSTU f) f q.1 q.2 = 1 ↔ f q.1 q.2 ≤ getOSTU f)

/-- The class is shown when no pixel has the level itself. -/
theorem separates_iff_level_absent (f : Frame) :
    Separates f ↔ ∀ q, OnFrame q → f q.1 q.2 ≠ getOSTU f := by
  refine forall₂_congr fun q hq => ?_
  rw [binarise, if_pos hq]
  split_ifs with hlt
  · exact iff_of_true (iff_of_true rfl hlt.le) hlt.ne
  · rw [false_iff, not_le]
    omega

/-- **The level chosen occurs in the frame**, unless it is 0. -/
theorem getOSTU_occurs {f : Frame} (hf : IsGrey f) (hne : getOSTU f ≠ 0) :
    ∃ q, OnFrame q ∧ f q.1 q.2 = getOSTU f := by
  obtain ⟨lo, hi, hlo, hhi⟩ := exists_extremes (exists_histogram_ne_zero hf)
  have hspec := otsu_spec hlo hhi
  have hoccurs : ∀ {v : ℕ}, histogram f v ≠ 0 → ∃ q, OnFrame q ∧ f q.1 q.2 = v := by
    intro v hv
    refine count_ne_zero_iff.mp fun hzero => hv ?_
    rw [histogram_eq, hzero]
  rw [show getOSTU f = otsu (histogram f) from rfl] at hne ⊢
  split_ifs at hspec with hlt h254
  · exact hoccurs (hspec.pos hlo.1.2)
  · rw [hspec]
    exact hoccurs hlo.1.2
  · exact absurd hspec hne

/-- A frame with a black pixel is not separated. -/
theorem not_separates_of_black {f : Frame} (hf : IsGrey f) {q : Pixel} (hq : OnFrame q)
    (hblack : f q.1 q.2 = 0) : ¬ Separates f := by
  rw [separates_iff_level_absent]
  intro habsent
  by_cases hzero : getOSTU f = 0
  · exact habsent q hq (hblack.trans hzero.symm)
  · obtain ⟨p, hp, hlevel⟩ := getOSTU_occurs hf hzero
    exact habsent p hp hlevel

/-- **When the frame of 0 and 1 shows the lower class**: when there is no black pixel and all
levels but one, which is at most 253, occur a multiple of 256 times. -/
theorem separates_iff (f : Frame) (hf : IsGrey f) :
    Separates f ↔ (∀ q, OnFrame q → f q.1 q.2 ≠ 0) ∧
      ∃ v ≤ 253, ∀ u, u ≠ v → 256 ∣ count f u := by
  obtain ⟨lo, hi, hlo, hhi⟩ := exists_extremes (exists_histogram_ne_zero hf)
  -- what `getOSTU` returns depends on how many levels the histogram has
  have hspec := otsu_spec hlo hhi
  have hdvd : ∀ {u : ℕ}, histogram f u = 0 ↔ 256 ∣ count f u := by
    intro u
    rw [histogram_eq, Nat.dvd_iff_mod_eq_zero]
  constructor
  · intro h
    refine ⟨fun q hq hblack => not_separates_of_black hf hq hblack h, ?_⟩
    have hzero : getOSTU f = 0 := by
      by_contra hne
      obtain ⟨q, hq, hlevel⟩ := getOSTU_occurs hf hne
      exact (separates_iff_level_absent f).mp h q hq hlevel
    rw [show otsu (histogram f) = 0 from hzero] at hspec
    split_ifs at hspec with hlt h254
    · -- the level 0 would occur
      have hpos := hspec.pos hlo.1.2
      rw [histogram_eq] at hpos
      obtain ⟨q, hq, hblack⟩ := count_ne_zero_iff.mp fun hnone => hpos (by rw [hnone])
      exact absurd h (not_separates_of_black hf hq hblack)
    · omega
    · refine ⟨lo, by omega, fun u hne => ?_⟩
      by_cases hu : u < 256
      · rw [← hdvd]
        by_contra hpos
        have hle := hlo.2 ⟨hu, hpos⟩
        have hge := hhi.2 ⟨hu, hpos⟩
        omega
      · have hnone : count f u = 0 := by
          by_contra hpos
          obtain ⟨q, hq, rfl⟩ := count_ne_zero_iff.mp hpos
          exact hu (hf q hq)
        rw [hnone]
        exact dvd_zero 256
  · rintro ⟨hblack, v, hv, hother⟩
    have hone : ∀ {u : ℕ}, u ∈ Levels (histogram f) → u = v := by
      intro u hu
      by_contra hne
      exact hu.2 (hdvd.mpr (hother u hne))
    obtain rfl := hone hlo.1
    obtain rfl := hone hhi.1
    rw [if_neg (Nat.lt_irrefl _), if_neg (by omega)] at hspec
    -- the threshold is 0, and no pixel has that level
    rw [separates_iff_level_absent]
    intro q hq
    rw [show getOSTU f = 0 from hspec]
    exact hblack q hq

/-- **A frame of the level 100** passes. -/
theorem separates_iff_grey :
    Separates (fun _ _ => 100) ↔ (∀ q, OnFrame q → (fun _ _ => 100 : Frame) q.1 q.2 ≠ 0) ∧
      ∃ v ≤ 253, ∀ u, u ≠ v → 256 ∣ count (fun _ _ => 100) u :=
  separates_iff (fun _ _ => 100) fun _ _ => show 100 < 256 by decide

/-- A frame that is black on the left and bright on the right. -/
def halves : Frame := fun x _ => if x < 94 then 0 else 200

/-- **Two levels far apart** are not separated. -/
theorem halves_not_separated : ¬ Separates halves := by
  refine not_separates_of_black (fun q _ => ?_) (q := (0, 0)) (by decide) rfl
  unfold halves
  split_ifs <;> decide

end HandlingRobot
