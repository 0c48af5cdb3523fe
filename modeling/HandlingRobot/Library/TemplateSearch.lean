import HandlingRobot.Library.FirstMin
import Mathlib.Algebra.BigOperators.Group.List.Basic
import Mathlib.Algebra.GroupWithZero.Nat
import Mathlib.Data.List.Induction
import Mathlib.Data.Nat.Basic

/-! # Searching for a template

A template is compared with every window of a table, cell after cell, and the first window of least
mismatch is kept. The comparison of a window is abandoned, row by row, once the mismatch exceeds a
bound; a window counts only if every cell has been compared.

* **`scanRow`**, **`scanWindow`** — the comparison of a window, with the cells compared.
* **`scanWindow_complete`** — all cells are compared exactly when the whole mismatch is within the
  bound, and then it is the sum.
* **`searchStep_eq`** — so a window is kept exactly when its whole mismatch is within the bound and
  the least so far.
* **`Found`**, **`search_found`** — the search ends at the first window of least mismatch, when that
  is within the bound.
* **`search_exact`** — so it ends at the first window that fits exactly. -/

namespace HandlingRobot

/-! ## One window -/

/-- The comparison of a row: sum and number of cells compared, until the sum exceeds the bound. -/
def scanRow (bound : ℕ) : ℕ × ℕ → List ℕ → ℕ × ℕ
  | a, [] => a
  | (sum, cnt), c :: cs =>
      if sum + c > bound then (sum + c, cnt) else scanRow bound (sum + c, cnt + 1) cs

/-- The comparison of a window, row after row. -/
def scanWindow (bound : ℕ) (rows : List (List ℕ)) : ℕ × ℕ := rows.foldl (scanRow bound) (0, 0)

/-- The whole mismatch of a window. -/
def mismatch (rows : List (List ℕ)) : ℕ := rows.flatten.sum

/-- **After some rows**: either nothing has been abandoned, or the sum exceeds the bound and a cell
has been left out. -/
def ScannedTo (bound : ℕ) (cells : List ℕ) (a : ℕ × ℕ) : Prop :=
  (cells.sum ≤ bound ∧ a = (cells.sum, cells.length)) ∨
    (bound < cells.sum ∧ bound < a.1 ∧ a.2 < cells.length)

theorem ScannedTo.row {bound : ℕ} (row : List ℕ) : ∀ {cells : List ℕ} {a : ℕ × ℕ},
    ScannedTo bound cells a → ScannedTo bound (cells ++ row) (scanRow bound a row) := by
  -- cell after cell, as `scanRow` goes
  induction row with
  | nil =>
      intro cells a h
      rwa [List.append_nil]
  | cons c row ih =>
      rintro cells ⟨sum, cnt⟩ h
      rw [scanRow]
      by_cases hover : sum + c > bound
      · -- the row is abandoned here, and was or is now over the bound
        rw [if_pos hover]
        right
        rw [List.sum_append, List.sum_cons, List.length_append, List.length_cons]
        rcases h with ⟨-, heq⟩ | ⟨hsum, -, hcnt⟩
        · obtain ⟨rfl, rfl⟩ := Prod.mk.inj heq
          dsimp only
          omega
        · dsimp only at hcnt ⊢
          omega
      · rw [if_neg hover, List.append_cons]
        apply ih
        rcases h with ⟨hsum, heq⟩ | ⟨hsum, hacc, -⟩
        · obtain ⟨rfl, rfl⟩ := Prod.mk.inj heq
          left
          rw [List.sum_append, List.sum_singleton, List.length_append, List.length_singleton]
          exact ⟨Nat.not_lt.mp hover, rfl⟩
        · dsimp only at hacc
          omega

theorem scannedTo_window (bound : ℕ) (rows : List (List ℕ)) :
    ScannedTo bound rows.flatten (scanWindow bound rows) := by
  have hfold : ∀ (rows : List (List ℕ)) (cells : List ℕ) (a : ℕ × ℕ), ScannedTo bound cells a →
      ScannedTo bound (cells ++ rows.flatten) (rows.foldl (scanRow bound) a) := by
    intro rows
    induction rows with
    | nil =>
        intro cells a h
        rwa [List.flatten_nil, List.append_nil]
    | cons row rows ih =>
        intro cells a h
        rw [List.flatten_cons, ← List.append_assoc, List.foldl_cons]
        exact ih _ _ (h.row row)
  exact hfold rows [] (0, 0) (Or.inl ⟨Nat.zero_le _, rfl⟩)

/-- **All cells are compared** exactly when the whole mismatch is within the bound. -/
theorem scanWindow_complete (bound : ℕ) (rows : List (List ℕ)) :
    ((scanWindow bound rows).2 = rows.flatten.length ↔ mismatch rows ≤ bound) ∧
      (mismatch rows ≤ bound → (scanWindow bound rows).1 = mismatch rows) := by
  unfold mismatch
  rcases scannedTo_window bound rows with ⟨hsum, heq⟩ | ⟨hsum, -, hcnt⟩
  · rw [heq]
    exact ⟨iff_of_true rfl hsum, fun _ => rfl⟩
  · exact ⟨iff_of_false (Nat.ne_of_lt hcnt) (Nat.not_le.mpr hsum),
      fun h => absurd hsum (Nat.not_lt.mpr h)⟩

/-! ## All windows -/

variable {ι : Type*}

/-- One window of the search, of `size` cells: the least mismatch so far, and its window. -/
def searchStep (bound size : ℕ) (cost : ι → List (List ℕ)) (a : ℕ × ι) (w : ι) : ℕ × ι :=
  let r := scanWindow bound (cost w)
  if r.2 = size then (if a.1 > r.1 then (r.1, w) else a) else a

/-- **One window of the search**, in terms of the whole mismatch. -/
theorem searchStep_eq {bound size : ℕ} {cost : ι → List (List ℕ)} {w : ι}
    (hsize : (cost w).flatten.length = size) (a : ℕ × ι) :
    searchStep bound size cost a w =
      if mismatch (cost w) ≤ bound ∧ mismatch (cost w) < a.1 then (mismatch (cost w), w)
      else a := by
  obtain ⟨hiff, hsum⟩ := scanWindow_complete bound (cost w)
  unfold searchStep
  dsimp only
  rw [← hsize]
  by_cases hle : mismatch (cost w) ≤ bound
  · rw [if_pos (hiff.mpr hle), hsum hle]
    by_cases hlt : mismatch (cost w) < a.1
    · rw [if_pos hlt, if_pos ⟨hle, hlt⟩]
    · rw [if_neg hlt, if_neg fun h => hlt h.2]
  · rw [if_neg fun h => hle (hiff.mp h), if_neg fun h => hle h.1]

/-- The search over a list of windows. -/
def search (bound size : ℕ) (cost : ι → List (List ℕ)) (a : ℕ × ι) (windows : List ι) : ℕ × ι :=
  windows.foldl (searchStep bound size cost) a

/-- **The first window of least mismatch**, when that is within the bound, and `stay` otherwise. -/
def Found (bound : ℕ) (total : ι → ℕ) (stay : ι) (windows : List ι) (r : ι) : Prop :=
  (∃ pre post, windows = pre ++ r :: post ∧ total r ≤ bound ∧ (∀ w ∈ pre, total r < total w) ∧
    ∀ w ∈ post, total r ≤ total w) ∨
  (r = stay ∧ ∀ w ∈ windows, bound < total w)

/-- No window fits. -/
theorem Found.eq_stay {bound : ℕ} {total : ι → ℕ} {stay r : ι} {windows : List ι}
    (h : Found bound total stay windows r) (hno : ∀ w ∈ windows, bound < total w) : r = stay := by
  rcases h with ⟨pre, post, rfl, hle, -⟩ | ⟨rfl, -⟩
  · exact absurd (hno r (by simp)) (not_lt.mpr hle)
  · rfl

/-- One window fits. -/
theorem Found.eq_of_fits {bound : ℕ} {total : ι → ℕ} {stay r w : ι} {windows : List ι}
    (h : Found bound total stay windows r) (hw : w ∈ windows) (hle : total w ≤ bound)
    (hno : ∀ v ∈ windows, v ≠ w → bound < total v) : r = w := by
  rcases h with ⟨pre, post, rfl, hr, -⟩ | ⟨-, hall⟩
  · by_contra hne
    exact absurd (hno r (by simp) hne) (not_lt.mpr hr)
  · exact absurd (hall w hw) (not_lt.mpr hle)

/-- One window fits better than all others. -/
theorem Found.eq_of_least {bound : ℕ} {total : ι → ℕ} {stay r w : ι} {windows : List ι}
    (h : Found bound total stay windows r) (hw : w ∈ windows) (hle : total w ≤ bound)
    (hleast : ∀ v ∈ windows, v ≠ w → total w < total v) : r = w := by
  rcases h with ⟨pre, post, rfl, -, hpre, hpost⟩ | ⟨-, hall⟩
  · by_contra hne
    have hlt := hleast r (by simp) hne
    rcases List.mem_append.mp hw with hbefore | hbehind
    · exact absurd (hpre w hbefore) (not_lt.mpr hlt.le)
    · rcases List.mem_cons.mp hbehind with heq | hpast
      · exact hne heq.symm
      · exact absurd (hpost w hpast) (not_le.mpr hlt)
  · exact absurd (hall w hw) (not_lt.mpr hle)

/-- The search is a scan for the least mismatch, where a window beyond the bound never counts. -/
theorem search_scanned (bound : ℕ) {size : ℕ} {cost : ι → List (List ℕ)}
    (hsize : ∀ v, (cost v).flatten.length = size) (a : ℕ × ι) (windows : List ι) :
    Scanned (fun v => if mismatch (cost v) ≤ bound then mismatch (cost v) else a.1) a windows
      (search bound size cost a windows) := by
  induction windows using List.reverseRecOn with
  | nil => exact Scanned.nil _ a
  | append_singleton windows w ih =>
      have hstep := ih.snoc w
      rw [search, List.foldl_append, List.foldl_cons, List.foldl_nil, searchStep_eq (hsize w)]
      by_cases hle : mismatch (cost w) ≤ bound
      · simp only [if_pos hle] at hstep
        simp only [hle, true_and]
        exact hstep
      · simp only [if_neg hle] at hstep
        rw [if_neg (not_lt.mpr ih.start)] at hstep
        simp only [hle, false_and, if_false]
        exact hstep

/-- **The search with abandoned comparisons finds what a search without them finds.** -/
theorem search_found {bound size : ℕ} {cost : ι → List (List ℕ)}
    (hsize : ∀ v, (cost v).flatten.length = size) {a : ℕ × ι} (hstart : bound < a.1)
    (windows : List ι) :
    Found bound (fun v => mismatch (cost v)) a.2 windows (search bound size cost a windows).2 := by
  have h := search_scanned bound hsize a windows
  generalize search bound size cost a windows = r at h
  -- either no window fits, or the value kept is that of a window
  rcases h.kept with rfl | ⟨pre, post, hsplit, hval, hlt, hpre⟩
  · right
    refine ⟨rfl, fun w hw => ?_⟩
    have hleast := h.least w hw
    dsimp only
    by_contra hle
    rw [if_pos (not_lt.mp hle)] at hleast
    omega
  · -- the value kept is a mismatch within the bound
    have hle : mismatch (cost r.2) ≤ bound := by
      by_contra hno
      rw [if_neg hno] at hval
      omega
    rw [if_pos hle] at hval
    left
    refine ⟨pre, post, hsplit, hle, fun w hw => ?_, fun w hw => ?_⟩
    · have hw' := hpre w hw
      dsimp only
      split_ifs at hw' <;> omega
    · dsimp only
      have hw' := h.least w (hsplit ▸ List.mem_append_right pre (List.mem_cons_of_mem _ hw))
      split_ifs at hw' <;> omega

/-- The first window that fits exactly. -/
theorem Found.eq_of_exact {bound : ℕ} {total : ι → ℕ} {stay r w : ι} {pre post : List ι}
    (h : Found bound total stay (pre ++ w :: post) r) (hpre : ∀ v ∈ pre, 0 < total v)
    (hw : total w = 0) : r = w := by
  rcases h with ⟨pre', post', hsplit, hr, hlt, hle⟩ | ⟨-, hall⟩
  · rcases List.append_eq_append_iff.mp hsplit with ⟨as, rfl, hmid⟩ | ⟨as, rfl, hmid⟩
    · -- `r` is `w`, or it comes behind it
      cases as with
      | nil => exact (List.cons.inj hmid).1.symm
      | cons v as =>
          obtain ⟨rfl, -⟩ := List.cons.inj hmid
          have hzero := hlt w (List.mem_append_right _ List.mem_cons_self)
          omega
    · -- `r` is `w`, or it comes in front of it
      cases as with
      | nil => exact (List.cons.inj hmid).1
      | cons v as =>
          obtain ⟨rfl, rfl⟩ := List.cons.inj hmid
          have hpos := hpre r (List.mem_append_right _ List.mem_cons_self)
          have hzero := hle w (List.mem_append_right _ List.mem_cons_self)
          omega
  · have hbound := hall w (List.mem_append_right _ List.mem_cons_self)
    omega

/-- **The search ends at the first window that fits exactly.** -/
theorem search_exact {bound size : ℕ} {cost : ι → List (List ℕ)} {a : ℕ × ι} {pre post : List ι}
    {w : ι} (hsize : ∀ v, (cost v).flatten.length = size) (hstart : bound < a.1)
    (hpre : ∀ v ∈ pre, 0 < mismatch (cost v)) (hw : mismatch (cost w) = 0) :
    (search bound size cost a (pre ++ w :: post)).2 = w :=
  (search_found hsize hstart _).eq_of_exact hpre hw

end HandlingRobot
