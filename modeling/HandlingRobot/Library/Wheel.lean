import Mathlib.Algebra.BigOperators.Group.List.Basic
import Mathlib.Algebra.Order.BigOperators.Group.List
import Mathlib.Algebra.Order.Floor.Ring
import Mathlib.Data.Finset.Interval
import Mathlib.Order.Interval.Finset.Nat
import Mathlib.Tactic.FieldSimp
import Mathlib.Tactic.Linarith
import Mathlib.Tactic.Ring

/-! # The wheel of fortune

A wheel has one sector for each candidate, as wide as the weight of the candidate. It is stopped at
a rate between 0 and the sum of the weights and selects the candidate whose sector it stops in.

* **`sector`** — the candidate selected: the first one whose sector ends beyond the rate.
* **`exists_sector`** — there is one; **`sector_eq_some_iff`** — it is the one whose sector, without
  its end, contains the rate.
* **`card_sector`** — out of `N` rates at equal distances, the share of each candidate is off by
  less than one rate. -/

namespace HandlingRobot

variable {ι K : Type*} [Field K] [LinearOrder K]

/-- **The sector in which the wheel stops**, from the sector that begins at `cur` on. -/
def sector (rate : K) : K → List (ι × K) → Option ι
  | _, [] => none
  | cur, (k, w) :: rest => if rate < cur + w then some k else sector rate (cur + w) rest

/-- Only candidates are selected. -/
theorem mem_of_sector {rate : K} {k : ι} {P : List (ι × K)} :
    ∀ {cur : K}, sector rate cur P = some k → k ∈ P.map Prod.fst := by
  induction P with
  | nil => exact fun h => by cases h
  | cons x rest ih =>
      obtain ⟨l, w⟩ := x
      intro cur h
      unfold sector at h
      split_ifs at h with hlt
      · rw [Option.some.inj h]
        exact List.mem_cons_self
      · exact List.mem_cons_of_mem l (ih h)

/-- **The wheel stops in a sector** when the rate lies below the sum of the weights. -/
theorem exists_sector {rate : K} (P : List (ι × K)) :
    ∀ cur, rate < cur + (P.map Prod.snd).sum →
      cur ≤ rate → ∃ k, sector rate cur P = some k ∧ k ∈ P.map Prod.fst := by
  induction P with
  | nil =>
      intro cur hlt hle
      rw [List.map_nil, List.sum_nil, add_zero] at hlt
      exact absurd hlt (not_lt.mpr hle)
  | cons x rest ih =>
      obtain ⟨k, w⟩ := x
      intro cur hlt hle
      by_cases hw : rate < cur + w
      · exact ⟨k, if_pos hw, List.mem_cons_self⟩
      · rw [List.map_cons, List.sum_cons, ← add_assoc] at hlt
        obtain ⟨l, hl, hmem⟩ := ih (cur + w) hlt (not_lt.mp hw)
        exact ⟨l, (if_neg hw).trans hl, List.mem_cons_of_mem k hmem⟩

variable [IsStrictOrderedRing K]

/-- **A candidate is selected by the rates of its sector**, the end of it excluded. -/
theorem sector_eq_some_iff {rate : K} {k : ι} {w : K} {pre post : List (ι × K)} :
    ∀ {cur : K}, ((pre ++ (k, w) :: post).map Prod.fst).Nodup → (∀ x ∈ pre, 0 ≤ x.2) →
      cur ≤ rate → (sector rate cur (pre ++ (k, w) :: post) = some k ↔
        cur + (pre.map Prod.snd).sum ≤ rate ∧ rate < cur + (pre.map Prod.snd).sum + w) := by
  induction pre with
  | nil =>
      intro cur hnodup _ hle
      rw [List.map_nil, List.sum_nil, add_zero, List.nil_append]
      refine ⟨fun h => ⟨hle, ?_⟩, fun h => if_pos h.2⟩
      by_contra hw
      -- a later sector belongs to another candidate
      have hrest : sector rate (cur + w) post = some k := (if_neg hw).symm.trans h
      rw [List.nil_append, List.map_cons, List.nodup_cons] at hnodup
      exact hnodup.1 (mem_of_sector hrest)
  | cons x pre ih =>
      obtain ⟨l, v⟩ := x
      intro cur hnodup hnn hle
      have hv : 0 ≤ v := hnn (l, v) List.mem_cons_self
      have hpre : ∀ x ∈ pre, 0 ≤ x.2 := fun x hx => hnn x (List.mem_cons_of_mem _ hx)
      rw [List.cons_append, List.map_cons, List.nodup_cons] at hnodup
      rw [List.map_cons, List.sum_cons, ← add_assoc, List.cons_append]
      by_cases hlt : rate < cur + v
      · have hsum : 0 ≤ (pre.map Prod.snd).sum := by
          refine List.sum_nonneg fun y hy => ?_
          obtain ⟨x, hx, rfl⟩ := List.mem_map.mp hy
          exact hpre x hx
        have hfirst : sector rate cur ((l, v) :: (pre ++ (k, w) :: post)) = some l := if_pos hlt
        have hne : l ≠ k := fun heq => hnodup.1 (by simp [heq])
        rw [hfirst]
        refine ⟨fun h => absurd (Option.some.inj h) hne, fun h => ?_⟩
        linarith [h.1]
      · have hskip : sector rate cur ((l, v) :: (pre ++ (k, w) :: post)) =
            sector rate (cur + v) (pre ++ (k, w) :: post) := if_neg hlt
        rw [hskip]
        exact ih hnodup.2 hpre (not_lt.mp hlt)

/-! ## Counting -/

variable [FloorRing K]

/-- The whole numbers of an interval without its end, below `N`. -/
theorem card_range_between {N : ℕ} {a b : K} (hb : b ≤ N) :
    ((Finset.range N).filter fun r : ℕ => a ≤ r ∧ (r : K) < b).card = ⌈b⌉₊ - ⌈a⌉₊ := by
  rw [← Nat.card_Ico]
  congr 1
  ext r
  rw [Finset.mem_filter, Finset.mem_range, Finset.mem_Ico, Nat.ceil_le, Nat.lt_ceil]
  refine ⟨fun h => h.2, fun h => ⟨?_, h⟩⟩
  exact_mod_cast h.2.trans_le hb

/-- **Their number is off the length of the interval by less than 1.** -/
theorem abs_card_range_sub_lt {N : ℕ} {a b : K} (ha : 0 ≤ a) (hab : a ≤ b) (hb : b ≤ N) :
    |(((Finset.range N).filter fun r : ℕ => a ≤ r ∧ (r : K) < b).card : K) - (b - a)| < 1 := by
  rw [card_range_between hb, Nat.cast_sub (Nat.ceil_mono hab), abs_lt]
  have hlow := Nat.le_ceil a
  have hlow' := Nat.ceil_lt_add_one ha
  have hhigh := Nat.le_ceil b
  have hhigh' := Nat.ceil_lt_add_one (ha.trans hab)
  constructor <;> linarith

/-- **The share of a candidate**: out of the rates `r / N` of the whole wheel, `r` from 0 to
`N - 1`, its weight decides how many select it, up to less than one. -/
theorem card_sector [DecidableEq ι] {k : ι} {w : K} {P : List (ι × K)} (N : ℕ)
    (hnodup : (P.map Prod.fst).Nodup) (hnn : ∀ x ∈ P, 0 ≤ x.2) (hpos : 0 < (P.map Prod.snd).sum)
    (hk : (k, w) ∈ P) :
    |(((Finset.range N).filter fun r : ℕ =>
        sector ((r : K) / N * (P.map Prod.snd).sum) 0 P = some k).card : K) -
      N * w / (P.map Prod.snd).sum| < 1 := by
  obtain ⟨pre, post, rfl⟩ := List.append_of_mem hk
  generalize hS : ((pre ++ (k, w) :: post).map Prod.snd).sum = S at hpos ⊢
  rcases Nat.eq_zero_or_pos N with rfl | hN
  · simp
  have hN' : (0 : K) < N := Nat.cast_pos.mpr hN
  have hsum : ∀ {l : List (ι × K)}, (∀ x ∈ l, 0 ≤ x.2) → 0 ≤ (l.map Prod.snd).sum := by
    intro l hl
    refine List.sum_nonneg fun y hy => ?_
    obtain ⟨x, hx, rfl⟩ := List.mem_map.mp hy
    exact hl x hx
  have hpre : ∀ x ∈ pre, 0 ≤ x.2 := fun x hx => hnn x (List.mem_append_left _ hx)
  have hA := hsum hpre
  have hpost := hsum fun x hx =>
    hnn x (List.mem_append_right pre (List.mem_cons_of_mem (k, w) hx))
  have hw : 0 ≤ w := hnn (k, w) hk
  rw [List.map_append, List.sum_append, List.map_cons, List.sum_cons] at hS
  generalize hA' : (pre.map Prod.snd).sum = A at hA hS
  -- the rates of the sector, as numbers of steps
  have hiff : ∀ r : ℕ, sector ((r : K) / N * S) 0 (pre ++ (k, w) :: post) = some k ↔
      N * A / S ≤ r ∧ (r : K) < N * (A + w) / S := by
    intro r
    have hle : (0 : K) ≤ (r : K) / N * S := by positivity
    have hlow : A ≤ (r : K) / N * S ↔ N * A / S ≤ r := by
      rw [div_mul_eq_mul_div, le_div_iff₀ hN', div_le_iff₀ hpos, mul_comm A]
    have hhigh : (r : K) / N * S < A + w ↔ (r : K) < N * (A + w) / S := by
      rw [div_mul_eq_mul_div, div_lt_iff₀ hN', lt_div_iff₀ hpos, mul_comm (A + w)]
    rw [sector_eq_some_iff hnodup hpre hle, hA', zero_add, hlow, hhigh]
  simp only [hiff]
  have hwidth : N * w / S = N * (A + w) / S - N * A / S := by ring
  rw [hwidth]
  refine abs_card_range_sub_lt (by positivity) ?_ ?_
  · exact div_le_div_of_nonneg_right (mul_le_mul_of_nonneg_left (by linarith) hN'.le) hpos.le
  · rw [div_le_iff₀ hpos]
    exact mul_le_mul_of_nonneg_left (by linarith) hN'.le

end HandlingRobot
