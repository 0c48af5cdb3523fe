import HandlingRobot.Vision.A4
import Mathlib.Data.List.Basic

/-! # The pixels that the search for the field reads

A window of `get_smlarA4` reads the pixels under the cells of its template that are not 2, and in
every row at least those up to the first one that exceeds the bound.

* **`readRow`**, **`readWindow`** — the comparison of a window, with the pixels read.
* **`readWindow_sum`** — the sum is that of `scanWindow`.
* **`mem_readWindow_first`**, **`readWindow_subset`** — pixels that are read, and all that can be.
* **`smlarReads`** — the pixels that `get_smlarA4` reads.
* **`smlar_leaves_frame`** — some of them are not on the frame. -/

namespace HandlingRobot

/-! ## One window -/

/-- The comparison of a row whose first cell is at `p`: the sum, and the pixels read. -/
def readRow (bound : ℕ) (f : Frame) : Pixel → ℕ × List Pixel → List ℕ → ℕ × List Pixel
  | _, a, [] => a
  | p, (sum, reads), c :: cs =>
      let a := if c ≠ 2 then (sum + ((f p.1 p.2 : ℤ) - (c : ℤ)).natAbs, reads ++ [p])
        else (sum, reads)
      if a.1 > bound then a else readRow bound f (p.1, p.2 + 1) a cs

/-- The comparison of the window at `w`, row by row. -/
def readWindow (f : Frame) (t : List (List ℕ)) (w : Pixel) : ℕ × List Pixel :=
  t.zipIdx.foldl (fun a row => readRow 4 f (w.1 + (row.2 : ℕ), w.2) a row.1) (0, [])

/-- **The sum of a row** is the one of `scanRow`. -/
theorem readRow_sum (bound : ℕ) (f : Frame) (cs : List ℕ) : ∀ (p : Pixel) (a : ℕ × List Pixel)
    (cnt : ℕ), (readRow bound f p a cs).1 = (scanRow bound (a.1, cnt) (cs.mapIdx fun (l c : ℕ) =>
      if c ≠ 2 then ((f p.1 (p.2 + l) : ℤ) - (c : ℤ)).natAbs else 0)).1 := by
  -- cell after cell, as the comparison goes
  induction cs with
  | nil => exact fun p a cnt => rfl
  | cons c cs ih =>
      rintro p ⟨sum, reads⟩ cnt
      have hshift : ∀ l : ℕ, p.2 + ((l + 1 : ℕ) : ℤ) = p.2 + 1 + (l : ℤ) := by
        intro l
        push_cast
        ring
      rw [readRow, List.mapIdx_cons, scanRow]
      simp only [hshift, Nat.cast_zero, add_zero]
      by_cases h2 : c = 2
      · simp only [h2, ne_eq, not_true, if_false, add_zero]
        split_ifs
        · rfl
        · exact ih (p.1, p.2 + 1) (sum, reads) (cnt + 1)
      · simp only [h2, ne_eq, not_false_eq_true, if_true]
        split_ifs
        · rfl
        · exact ih (p.1, p.2 + 1) (_, reads ++ [p]) (cnt + 1)

/-- **The sum of a window** is the one that decides in `search`. -/
theorem readWindow_sum (f : Frame) (t : List (List ℕ)) (w : Pixel) :
    (readWindow f t w).1 = (scanWindow 4 (cellCosts f t w)).1 := by
  rw [readWindow, scanWindow, cellCosts, List.mapIdx_eq_zipIdx_map, List.foldl_map]
  have hrows : ∀ (rows : List (List ℕ × ℕ)) (a : ℕ × List Pixel) (cnt : ℕ),
      (rows.foldl (fun a row => readRow 4 f (w.1 + (row.2 : ℕ), w.2) a row.1) a).1 =
        (rows.foldl (fun b row => scanRow 4 b (row.1.mapIdx fun (l c : ℕ) =>
          if c ≠ 2 then ((f (w.1 + (row.2 : ℕ)) (w.2 + l) : ℤ) - (c : ℤ)).natAbs else 0))
          (a.1, cnt)).1 := by
    intro rows
    induction rows with
    | nil => exact fun a cnt => rfl
    | cons row rows ih =>
        intro a cnt
        rw [List.foldl_cons, List.foldl_cons, ih _ (scanRow 4 (a.1, cnt) _).2]
        rw [readRow_sum 4 f row.1 _ a cnt]
  exact hrows t.zipIdx (0, []) 0

/-- Nothing that has been read is taken back. -/
theorem mem_readRow_of_mem {bound : ℕ} {f : Frame} {q : Pixel} (cs : List ℕ) :
    ∀ {p : Pixel} {a : ℕ × List Pixel}, q ∈ a.2 → q ∈ (readRow bound f p a cs).2 := by
  induction cs with
  | nil => exact fun h => h
  | cons c cs ih =>
      rintro p ⟨sum, reads⟩ h
      rw [readRow]
      have hmem : q ∈ (if c ≠ 2 then (sum + ((f p.1 p.2 : ℤ) - (c : ℤ)).natAbs, reads ++ [p])
          else (sum, reads)).2 := by
        by_cases h2 : c ≠ 2
        · rw [if_pos h2]
          exact List.mem_append_left _ h
        · rw [if_neg h2]
          exact h
      generalize (if c ≠ 2 then (sum + ((f p.1 p.2 : ℤ) - (c : ℤ)).natAbs, reads ++ [p])
        else (sum, reads)) = a at hmem ⊢
      split_ifs
      · exact hmem
      · exact ih hmem

/-- **The first cell of a row** is always read, unless it is 2. -/
theorem mem_readRow_first {bound : ℕ} {f : Frame} {p : Pixel} {a : ℕ × List Pixel} {c : ℕ}
    (cs : List ℕ) (h2 : c ≠ 2) : p ∈ (readRow bound f p a (c :: cs)).2 := by
  obtain ⟨sum, reads⟩ := a
  rw [readRow]
  simp only [h2, ne_eq, not_false_eq_true, if_true]
  have hmem : p ∈ reads ++ [p] := List.mem_append_right reads (List.mem_singleton_self p)
  split_ifs
  · exact hmem
  · exact mem_readRow_of_mem cs hmem

/-- **The first cell of every row of a window** is read: leaving a row does not leave the window. -/
theorem mem_readWindow_first (f : Frame) {t : List (List ℕ)} {k c : ℕ} {cs : List ℕ}
    (hrow : t[k]? = some (c :: cs)) (h2 : c ≠ 2) (w : Pixel) :
    (w.1 + (k : ℤ), w.2) ∈ (readWindow f t w).2 := by
  have hmem : (c :: cs, k) ∈ t.zipIdx := List.mem_zipIdx_iff_getElem?.mpr hrow
  obtain ⟨pre, post, hsplit⟩ := List.append_of_mem hmem
  have hpost : ∀ (rows : List (List ℕ × ℕ)) {a : ℕ × List Pixel} {q : Pixel}, q ∈ a.2 →
      q ∈ (rows.foldl (fun a row => readRow 4 f (w.1 + (row.2 : ℕ), w.2) a row.1) a).2 := by
    intro rows
    induction rows with
    | nil => exact fun h => h
    | cons row rows ih => exact fun h => ih (mem_readRow_of_mem row.1 h)
  rw [readWindow, hsplit, List.foldl_append, List.foldl_cons]
  exact hpost post (mem_readRow_first cs h2)

/-- The pixels of a row. -/
theorem readRow_subset {bound : ℕ} {f : Frame} {q : Pixel} (cs : List ℕ) :
    ∀ {p : Pixel} {a : ℕ × List Pixel}, q ∈ (readRow bound f p a cs).2 →
      q ∈ a.2 ∨ ∃ l < cs.length, q = (p.1, p.2 + (l : ℤ)) := by
  induction cs with
  | nil => exact fun h => Or.inl h
  | cons c cs ih =>
      rintro p ⟨sum, reads⟩ h
      -- the cell itself may be read, and the other cells come behind it
      have hstep : ∀ {b : ℕ × List Pixel}, b.2 = reads ∨ b.2 = reads ++ [p] →
          (q ∈ b.2 ∨ ∃ l < cs.length, q = ((p.1, p.2 + 1).1, (p.1, p.2 + 1).2 + (l : ℤ))) →
          q ∈ reads ∨ ∃ l < (c :: cs).length, q = (p.1, p.2 + (l : ℤ)) := by
        rintro b hb (hq | ⟨l, hl, rfl⟩)
        · rcases hb with hb | hb
          · exact Or.inl (hb ▸ hq)
          · rcases List.mem_append.mp (hb ▸ hq) with hq | hq
            · exact Or.inl hq
            · refine Or.inr ⟨0, Nat.succ_pos _, ?_⟩
              rw [List.mem_singleton.mp hq, Nat.cast_zero, add_zero]
        · refine Or.inr ⟨l + 1, Nat.succ_lt_succ hl, Prod.ext rfl ?_⟩
          push_cast
          ring
      rw [readRow] at h
      by_cases h2 : c = 2
      · simp only [h2, ne_eq, not_true, if_false] at h
        split_ifs at h
        · exact hstep (b := (sum, reads)) (Or.inl rfl) (Or.inl h)
        · exact hstep (b := (sum, reads)) (Or.inl rfl) (ih h)
      · simp only [h2, ne_eq, not_false_eq_true, if_true] at h
        split_ifs at h
        · exact hstep (b := (_, reads ++ [p])) (Or.inr rfl) (Or.inl h)
        · exact hstep (b := (_, reads ++ [p])) (Or.inr rfl) (ih h)

/-- **A window reads only its own pixels.** -/
theorem readWindow_subset {f : Frame} {t : List (List ℕ)} (ht : IsTemplate t) {w q : Pixel}
    (hq : q ∈ (readWindow f t w).2) :
    ∃ k l : ℕ, k < 11 ∧ l < 11 ∧ q = (w.1 + (k : ℤ), w.2 + (l : ℤ)) := by
  have hrows : ∀ (rows : List (List ℕ × ℕ)), (∀ row ∈ rows, row ∈ t.zipIdx) →
      ∀ {a : ℕ × List Pixel}, q ∈ (rows.foldl (fun a row =>
        readRow 4 f (w.1 + (row.2 : ℕ), w.2) a row.1) a).2 →
      q ∈ a.2 ∨ ∃ k l : ℕ, k < 11 ∧ l < 11 ∧ q = (w.1 + (k : ℤ), w.2 + (l : ℤ)) := by
    intro rows
    -- row after row
    induction rows with
    | nil => exact fun _ _ h => Or.inl h
    | cons row rows ih =>
        intro hall a h
        rcases ih (fun r hr => hall r (List.mem_cons_of_mem row hr)) h with h | h
        · rcases readRow_subset row.1 h with h | ⟨l, hl, hq⟩
          · exact Or.inl h
          · have hrow := List.mem_zipIdx_iff_getElem?.mp (hall row List.mem_cons_self)
            obtain ⟨hk, hget⟩ := List.getElem?_eq_some_iff.mp hrow
            refine Or.inr ⟨row.2, l, ht.1 ▸ hk, ?_, hq⟩
            rw [← ht.2 row.1 (hget ▸ List.getElem_mem hk)]
            exact hl
        · exact Or.inr h
  exact (hrows t.zipIdx (fun _ h => h) hq).resolve_left List.not_mem_nil

/-! ## The four searches -/

/-- The pixels that a search reads. -/
def searchReads (f : Frame) (t : List (List ℕ)) (ws : List Pixel) : List Pixel :=
  ws.flatMap fun w => (readWindow f t w).2

/-- **The pixels that `get_smlarA4` reads.** -/
def smlarReads (f : Frame) : List Pixel :=
  searchReads f a4UL (windows 0 94 60 120) ++ searchReads f a4DR (windows 94 188 0 60) ++
    searchReads f a4UR (windows 94 188 60 120) ++ searchReads f a4DL (windows 0 94 0 60)

/-- **The search for the lower left corner** reads the frame only. -/
theorem searchReads_a4DL (f : Frame) {q : Pixel}
    (hq : q ∈ searchReads f a4DL (windows 0 94 0 60)) : OnFrame q := by
  obtain ⟨w, hw, hq⟩ := List.mem_flatMap.mp hq
  obtain ⟨i, j, rfl, hi⟩ := mem_windows.mp hw
  obtain ⟨k, l, hk, hl, rfl⟩ := readWindow_subset isTemplate_a4.2.2.2 hq
  simp only [OnFrame, imgWidth, imgHeight]
  omega

/-- **The search for the upper right corner** reads column 194 of every frame: its last window
starts in column 187, and row 7 of its template starts with a cell that is compared. -/
theorem mem_smlarReads (f : Frame) : ((194 : ℤ), (60 : ℤ)) ∈ smlarReads f := by
  have hw : ((187 : ℤ), (60 : ℤ)) ∈ windows 94 188 60 120 :=
    mem_windows.mpr ⟨187, 60, rfl, by omega, by omega, by omega, by omega⟩
  have hread : ((187 : ℤ) + ((7 : ℕ) : ℤ), (60 : ℤ)) ∈ (readWindow f a4UR (187, 60)).2 :=
    mem_readWindow_first f (t := a4UR) (k := 7) rfl (by decide) (187, 60)
  refine List.mem_append_left _ (List.mem_append_right _ ?_)
  exact List.mem_flatMap.mpr ⟨_, hw, hread⟩

/-! ## The sides -/

/-- **`line_` stays between its ends.** -/
theorem onSegment_between {a b q : Pixel} (h : OnSegment a b q) :
    (min a.1 b.1 ≤ q.1 ∧ q.1 ≤ max a.1 b.1) ∧ (min a.2 b.2 ≤ q.2 ∧ q.2 ≤ max a.2 b.2) := by
  by_cases hsteep : |b.1 - a.1| ≤ |b.2 - a.2|
  · by_cases hpos : 0 < |b.2 - a.2|
    · have hline : Steep a.1 a.2 b.1 b.2 := ⟨hsteep, hpos⟩
      obtain ⟨hlo, hhi, hx⟩ := (onSegment_steep hline).mp h
      have hcolumn := hline.columnAt_mem q.2
      have hx' : columnAt a.1 a.2 b.1 b.2 q.2 = q.1 := hx
      rw [hx'] at hcolumn
      exact ⟨hcolumn, hlo, hhi⟩
    · -- the line is one pixel
      have h2 := abs_nonpos_iff.mp (not_lt.mp hpos)
      have h1 := abs_nonpos_iff.mp (hsteep.trans (not_lt.mp hpos))
      have hrun : ∀ fuel, 1 ≤ fuel →
          line_ fuel a.1 a.2 b.1 b.2 (fun _ _ => 0) = some (plot (fun _ _ => 0) a.1 a.2) := by
        intro fuel hfuel
        obtain ⟨fuel, rfl⟩ := Nat.exists_eq_add_of_le' hfuel
        exact if_pos (show a.1 = b.1 ∧ a.2 = b.2 by omega)
      obtain ⟨hq1, hq2⟩ := (onSegment_iff (P := q.1 = a.1 ∧ q.2 = a.2) hrun rfl).mp h
      omega
  · have hline : Steep a.2 a.1 b.2 b.1 :=
      ⟨(not_le.mp hsteep).le, (abs_nonneg _).trans_lt (not_le.mp hsteep)⟩
    obtain ⟨hlo, hhi, hy⟩ := (onSegment_flat hline).mp h
    have hrow := hline.columnAt_mem q.1
    have hy' : columnAt a.2 a.1 b.2 b.1 q.1 = q.2 := hy
    rw [hy'] at hrow
    exact ⟨⟨hlo, hhi⟩, hrow⟩

/-- The four corners lie on the frame. -/
def Corners.OnFrame (c : Corners) : Prop :=
  HandlingRobot.OnFrame c.ls ∧ HandlingRobot.OnFrame c.rs ∧ HandlingRobot.OnFrame c.lx ∧
    HandlingRobot.OnFrame c.rx

/-- **Between corners on the frame** `line_` writes on the frame only. -/
theorem Corners.OnFrame.outline {c : Corners} (h : c.OnFrame) {q : Pixel} (hq : c.OnOutline q) :
    HandlingRobot.OnFrame q := by
  have hside : ∀ {a b : Pixel}, HandlingRobot.OnFrame a → HandlingRobot.OnFrame b →
      OnSegment a b q → HandlingRobot.OnFrame q := by
    intro a b ha hb hab
    have hbetween := onSegment_between hab
    simp only [HandlingRobot.OnFrame] at ha hb ⊢
    omega
  obtain ⟨hls, hrs, hlx, hrx⟩ := h
  rcases hq with (hq | hq) | hq | hq
  · exact hside hls hlx hq
  · exact hside hrx hrs hq
  · exact hside hlx hrx hq
  · exact hside hls hrs hq

/-! ## The frame is left -/

/-- `get_smlarA4` reads the frame only, its corners lie on it, and so do the sides between them. -/
def StaysOnFrame (f : Frame) : Prop :=
  (∀ q ∈ smlarReads f, OnFrame q) ∧ (getSmlarA4 f).OnFrame ∧
    ∀ q, (getSmlarA4 f).OnOutline q → OnFrame q

theorem not_staysOnFrame {f : Frame} {q : Pixel} (hq : q ∈ smlarReads f) (hoff : ¬ OnFrame q) :
    ¬ StaysOnFrame f := fun h => hoff (h.1 q hq)

/-- **Every search leaves the frame.** -/
theorem smlar_leaves_frame (f : Frame) : ¬ StaysOnFrame f :=
  not_staysOnFrame (mem_smlarReads f) (by decide)

/-- The search in a black frame. -/
theorem smlar_leaves_black : ¬ StaysOnFrame fun _ _ => 0 :=
  not_staysOnFrame (mem_smlarReads fun _ _ => 0) (by decide)

end HandlingRobot
