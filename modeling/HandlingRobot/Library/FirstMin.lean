import Mathlib.Data.List.Basic
import Mathlib.Data.List.Induction
import Mathlib.Order.Lattice

/-! # Scans for the first least candidate

The loop `if (best > f(x)) best = f(x), index = x;` over a list of candidates keeps the first one
of least value, provided that value is below the one the scan starts with.

* **`Scanned`** — what such a loop holds after a list of candidates.
* **`Scanned.nil`**, **`Scanned.snoc`**, **`Scanned.foldl`** — the start, one turn, and the loop.
* **`Scanned.attained`** — the value kept is that of a candidate as soon as one of them is below the
  start. -/

namespace HandlingRobot

variable {ι β : Type*} [LinearOrder β]

/-- **The scan holds `r` after the candidates `l`**, started with `a`: nothing seen is smaller, and
either nothing was below the start or `r` is the first candidate of its value. -/
structure Scanned (f : ι → β) (a : β × ι) (l : List ι) (r : β × ι) : Prop where
  start : r.1 ≤ a.1
  least : ∀ x ∈ l, r.1 ≤ f x
  kept : r = a ∨ ∃ pre post, l = pre ++ r.2 :: post ∧ f r.2 = r.1 ∧ r.1 < a.1 ∧ ∀ x ∈ pre, r.1 < f x

theorem Scanned.nil (f : ι → β) (a : β × ι) : Scanned f a [] a :=
  ⟨le_rfl, fun _ hx => absurd hx List.not_mem_nil, Or.inl rfl⟩

/-- **One turn of the scan.** -/
theorem Scanned.snoc {f : ι → β} {a r : β × ι} {l : List ι} (h : Scanned f a l r) (x : ι) :
    Scanned f a (l ++ [x]) (if f x < r.1 then (f x, x) else r) := by
  by_cases hx : f x < r.1
  · rw [if_pos hx]
    refine ⟨hx.le.trans h.start, fun y hy => ?_, Or.inr ⟨l, [], rfl, rfl, hx.trans_le h.start, ?_⟩⟩
    · rcases List.mem_append.mp hy with hy | hy
      · exact hx.le.trans (h.least y hy)
      · exact (congrArg f (List.mem_singleton.mp hy)).ge
    · exact fun y hy => hx.trans_le (h.least y hy)
  · rw [if_neg hx]
    refine ⟨h.start, fun y hy => ?_, ?_⟩
    · rcases List.mem_append.mp hy with hy | hy
      · exact h.least y hy
      · rw [List.mem_singleton.mp hy]
        exact not_lt.mp hx
    · rcases h.kept with heq | ⟨pre, post, hl, hval, hlt, hpre⟩
      · exact Or.inl heq
      · refine Or.inr ⟨pre, post ++ [x], ?_, hval, hlt, hpre⟩
        rw [hl, List.append_assoc, List.cons_append]

/-- **The scan as a fold.** -/
theorem Scanned.foldl (f : ι → β) (a : β × ι) (l : List ι) :
    Scanned f a l (l.foldl (fun r x => if f x < r.1 then (f x, x) else r) a) := by
  induction l using List.reverseRecOn with
  | nil => exact Scanned.nil f a
  | append_singleton l x ih =>
      rw [List.foldl_append]
      exact ih.snoc x

/-- Only the values of the candidates matter. -/
theorem Scanned.congr {f g : ι → β} {a r : β × ι} {l : List ι} (h : Scanned f a l r)
    (hfg : ∀ x ∈ l, f x = g x) : Scanned g a l r := by
  refine ⟨h.start, fun x hx => hfg x hx ▸ h.least x hx, ?_⟩
  rcases h.kept with heq | ⟨pre, post, rfl, hval, hlt, hpre⟩
  · exact Or.inl heq
  · refine Or.inr ⟨pre, post, rfl, ?_, hlt, fun x hx => ?_⟩
    · rw [← hfg _ (List.mem_append_right pre List.mem_cons_self)]
      exact hval
    · rw [← hfg x (List.mem_append_left _ hx)]
      exact hpre x hx

/-- **The value kept is attained** as soon as one candidate is below the start. -/
theorem Scanned.attained {f : ι → β} {a r : β × ι} {l : List ι} (h : Scanned f a l r) {x : ι}
    (hx : x ∈ l) (hlt : f x < a.1) : r.2 ∈ l ∧ f r.2 = r.1 := by
  rcases h.kept with rfl | ⟨pre, post, rfl, hval, -, -⟩
  · exact absurd (h.least x hx) (not_le.mpr hlt)
  · exact ⟨List.mem_append_right pre List.mem_cons_self, hval⟩

end HandlingRobot
