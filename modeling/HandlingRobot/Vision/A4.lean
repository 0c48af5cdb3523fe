import HandlingRobot.Library.TemplateSearch
import HandlingRobot.Vision.Corners
import HandlingRobot.Vision.Threshold

/-! # Finding the field in the frame

`get_smlarA4` searches every quarter of the frame for the template of its corner. `get_a4` takes
frames from the camera until the corners found look like those of the field.

* **`a4UL`**, **`a4UR`**, **`a4DR`**, **`a4DL`** — the templates; cells of 2 are not compared.
* **`bestWindow`**, **`getSmlarA4`** — the search.
* **`a4Round`**, **`a4Loop`** — a round of `get_a4`, and the loop.
* **`a4Loop_of_rejected`** — the loop ends with the first frame accepted. -/

namespace HandlingRobot

/-! ## The templates -/

/-- `a4_UL`, `a4_UR`, `a4_DR` and `a4_DL`. -/
def a4UL : List (List ℕ) :=
  [[0, 0, 0, 0, 0, 0, 0, 0, 0, 0, 0],
   [1, 1, 1, 1, 1, 1, 1, 1, 1, 1, 0],
   [2, 2, 2, 2, 2, 2, 2, 2, 2, 1, 0],
   [0, 0, 0, 0, 0, 0, 0, 0, 2, 1, 0],
   [2, 2, 2, 2, 2, 2, 2, 0, 2, 1, 0],
   [2, 2, 2, 2, 2, 2, 2, 0, 2, 1, 0],
   [2, 2, 2, 2, 2, 2, 2, 0, 2, 1, 0],
   [2, 2, 2, 2, 2, 2, 2, 0, 2, 1, 0],
   [2, 2, 2, 2, 2, 2, 2, 0, 2, 1, 0],
   [2, 2, 2, 2, 2, 2, 2, 0, 2, 1, 0],
   [2, 2, 2, 2, 2, 2, 2, 0, 2, 1, 0]]
@[inherit_doc a4UL] def a4UR : List (List ℕ) :=
  [[2, 2, 2, 2, 2, 2, 2, 0, 2, 1, 0],
   [2, 2, 2, 2, 2, 2, 2, 0, 2, 1, 0],
   [2, 2, 2, 2, 2, 2, 2, 0, 2, 1, 0],
   [2, 2, 2, 2, 2, 2, 2, 0, 2, 1, 0],
   [2, 2, 2, 2, 2, 2, 2, 0, 2, 1, 0],
   [2, 2, 2, 2, 2, 2, 2, 0, 2, 1, 0],
   [2, 2, 2, 2, 2, 2, 2, 0, 2, 1, 0],
   [0, 0, 0, 0, 0, 0, 0, 0, 2, 1, 0],
   [2, 2, 2, 2, 2, 2, 2, 2, 2, 1, 0],
   [1, 1, 1, 1, 1, 1, 1, 1, 1, 1, 0],
   [0, 0, 0, 0, 0, 0, 0, 0, 0, 0, 0]]
@[inherit_doc a4UL] def a4DR : List (List ℕ) :=
  [[0, 1, 2, 0, 2, 2, 2, 2, 2, 2, 2],
   [0, 1, 2, 0, 2, 2, 2, 2, 2, 2, 2],
   [0, 1, 2, 0, 2, 2, 2, 2, 2, 2, 2],
   [0, 1, 2, 0, 2, 2, 2, 2, 2, 2, 2],
   [0, 1, 2, 0, 2, 2, 2, 2, 2, 2, 2],
   [0, 1, 2, 0, 2, 2, 2, 2, 2, 2, 2],
   [0, 1, 2, 0, 2, 2, 2, 2, 2, 2, 2],
   [0, 1, 2, 0, 0, 0, 0, 0, 0, 0, 0],
   [0, 1, 2, 2, 2, 2, 2, 2, 2, 2, 2],
   [0, 1, 1, 1, 1, 1, 1, 1, 1, 1, 1],
   [0, 0, 0, 0, 0, 0, 0, 0, 0, 0, 0]]
@[inherit_doc a4UL] def a4DL : List (List ℕ) :=
  [[0, 0, 0, 0, 0, 0, 0, 0, 0, 0, 0],
   [0, 1, 1, 1, 1, 1, 1, 1, 1, 1, 1],
   [0, 1, 2, 2, 2, 2, 2, 2, 2, 2, 2],
   [0, 1, 2, 0, 0, 0, 0, 0, 0, 0, 0],
   [0, 1, 2, 0, 2, 2, 2, 2, 2, 2, 2],
   [0, 1, 2, 0, 2, 2, 2, 2, 2, 2, 2],
   [0, 1, 2, 0, 2, 2, 2, 2, 2, 2, 2],
   [0, 1, 2, 0, 2, 2, 2, 2, 2, 2, 2],
   [0, 1, 2, 0, 2, 2, 2, 2, 2, 2, 2],
   [0, 1, 2, 0, 2, 2, 2, 2, 2, 2, 2],
   [0, 1, 2, 0, 2, 2, 2, 2, 2, 2, 2]]

/-- A template is a table of 11 rows and columns, `COR_H` and `COR_W`. -/
def IsTemplate (t : List (List ℕ)) : Prop := t.length = 11 ∧ ∀ row ∈ t, row.length = 11

instance (t : List (List ℕ)) : Decidable (IsTemplate t) := inferInstanceAs (Decidable (_ ∧ _))

theorem isTemplate_a4 : IsTemplate a4UL ∧ IsTemplate a4UR ∧ IsTemplate a4DR ∧ IsTemplate a4DL := by
  decide

/-! ## The search -/

/-- The mismatch of the cells of a window at `w`, row by row; cells of 2 are not compared. -/
def cellCosts (f : Frame) (t : List (List ℕ)) (w : Pixel) : List (List ℕ) :=
  t.mapIdx fun (k : ℕ) (row : List ℕ) => row.mapIdx fun (l c : ℕ) =>
    if c ≠ 2 then ((f (w.1 + k) (w.2 + l) : ℤ) - (c : ℤ)).natAbs else 0

/-- The frame counts inside the window only. -/
theorem cellCosts_congr {f g : Frame} {t : List (List ℕ)} (ht : IsTemplate t) {w : Pixel}
    (h : ∀ k l : ℕ, k < 11 → l < 11 → f (w.1 + k) (w.2 + l) = g (w.1 + k) (w.2 + l)) :
    cellCosts f t w = cellCosts g t w := by
  refine List.mapIdx_eq_mapIdx_iff.mpr fun k hk => List.mapIdx_eq_mapIdx_iff.mpr fun l hl => ?_
  rw [h k l (ht.1 ▸ hk) (ht.2 _ (List.getElem_mem hk) ▸ hl)]

/-- The windows of a scan, `i` from `i0` to `i1` and `j` from `j0` to `j1`. -/
def windows (i0 i1 j0 j1 : ℕ) : List Pixel :=
  (List.range' i0 (i1 - i0)).flatMap fun (i : ℕ) =>
    (List.range' j0 (j1 - j0)).map fun (j : ℕ) => ((i : ℤ), (j : ℤ))

/-- The window of least mismatch, `(0, 0)` if none is within the bound of 4. -/
def bestWindow (f : Frame) (t : List (List ℕ)) (ws : List Pixel) : Pixel :=
  (search 4 (11 * 11) (cellCosts f t) (100, (0, 0)) ws).2

/-- **`get_smlarA4`**: the corners, moved from the windows to the sides of the field. -/
def getSmlarA4 (f : Frame) : Corners :=
  let ls := bestWindow f a4UL (windows 0 94 60 120)
  let rx := bestWindow f a4DR (windows 94 188 0 60)
  let rs := bestWindow f a4UR (windows 94 188 60 120)
  let lx := bestWindow f a4DL (windows 0 94 0 60)
  ⟨(ls.1 + 1, ls.2 + 9), (rs.1 + 9, rs.2 + 9), (lx.1 + 1, lx.2 + 1), (rx.1 + 9, rx.2 + 1)⟩

/-- **A value for every cell of a template** makes a table of `COR_H * COR_W` values. -/
theorem flatten_mapIdx_length {t : List (List ℕ)} (h : IsTemplate t) (F : ℕ → ℕ → ℕ → ℕ) :
    (t.mapIdx fun (k : ℕ) (row : List ℕ) => row.mapIdx (F k)).flatten.length = 11 * 11 := by
  have hrows : (t.mapIdx fun (k : ℕ) (row : List ℕ) => row.mapIdx (F k)).map List.length =
      List.replicate 11 11 := by
    rw [List.eq_replicate_iff]
    refine ⟨by simp [h.1], fun n hn => ?_⟩
    obtain ⟨row, hrow, rfl⟩ := List.mem_map.mp hn
    obtain ⟨k, hk, rfl⟩ := List.mem_mapIdx.mp hrow
    rw [List.length_mapIdx]
    exact h.2 _ (List.getElem_mem _)
  rw [List.length_flatten, hrows]
  rfl

theorem cellCosts_length {t : List (List ℕ)} (h : IsTemplate t) (f : Frame) (w : Pixel) :
    (cellCosts f t w).flatten.length = 11 * 11 :=
  flatten_mapIdx_length h _

theorem mem_windows {i0 i1 j0 j1 : ℕ} {w : Pixel} : w ∈ windows i0 i1 j0 j1 ↔
    ∃ a b : ℕ, w = ((a : ℤ), (b : ℤ)) ∧ i0 ≤ a ∧ a < i1 ∧ j0 ≤ b ∧ b < j1 := by
  simp only [windows, List.mem_flatMap, List.mem_map, List.mem_range'_1]
  constructor
  · rintro ⟨a, ha, b, hb, rfl⟩
    exact ⟨a, b, rfl, ha.1, by omega, hb.1, by omega⟩
  · rintro ⟨a, b, rfl, ha, ha', hb, hb'⟩
    exact ⟨a, ⟨ha, by omega⟩, b, ⟨hb, by omega⟩, rfl⟩

/-- **The windows of a scan before a given one.** -/
theorem windows_eq_append {i0 i1 j0 j1 i j : ℕ} (hi : i0 ≤ i ∧ i < i1) (hj : j0 ≤ j ∧ j < j1) :
    ∃ pre post, windows i0 i1 j0 j1 = pre ++ ((i : ℤ), (j : ℤ)) :: post ∧ ∀ w ∈ pre,
      ∃ a b : ℕ, w = ((a : ℤ), (b : ℤ)) ∧ i0 ≤ a ∧ j0 ≤ b ∧ b < j1 ∧ (a < i ∨ a = i ∧ b < j) := by
  have hsplit : ∀ {lo hi k : ℕ}, lo ≤ k ∧ k < hi → List.range' lo (hi - lo) =
      List.range' lo (k - lo) ++ k :: List.range' (k + 1) (hi - (k + 1)) := by
    intro lo hi k hk
    have hlen : hi - lo = k - lo + (hi - (k + 1) + 1) := by omega
    have hmid : lo + (k - lo) = k := by omega
    rw [hlen, ← List.range'_append_1, hmid, List.range'_succ]
  -- whole columns come first, and then a part of the column
  refine ⟨windows i0 i j0 j1 ++ windows i (i + 1) j0 j,
    windows i (i + 1) (j + 1) j1 ++ windows (i + 1) i1 j0 j1, ?_, fun w hw => ?_⟩
  · have hone : ∀ lo hi, windows i (i + 1) lo hi =
        (List.range' lo (hi - lo)).map fun (b : ℕ) => ((i : ℤ), (b : ℤ)) := by
      intro lo hi
      simp [windows]
    rw [windows, hsplit hi, List.flatMap_append, List.flatMap_cons, hsplit hj, List.map_append,
      List.map_cons, ← hone, ← hone, ← hsplit hj, List.append_assoc, List.append_assoc]
    rfl
  · rcases List.mem_append.mp hw with hw | hw
    · obtain ⟨a, b, rfl, ha, hai, hb, hb'⟩ := mem_windows.mp hw
      exact ⟨a, b, rfl, ha, hb, hb', Or.inl hai⟩
    · obtain ⟨a, b, rfl, ha, hai, hb, hb'⟩ := mem_windows.mp hw
      exact ⟨a, b, rfl, hi.1.trans ha, hb, hb'.trans hj.2, Or.inr ⟨by omega, hb'⟩⟩

/-- A cell of the template that does not fit. -/
theorem mismatch_pos {f : Frame} {t : List (List ℕ)} {w : Pixel} (k l : ℕ) {row : List ℕ} {c : ℕ}
    (hrow : t[k]? = some row) (hc : row[l]? = some c) (h2 : c ≠ 2)
    (hf : f (w.1 + k) (w.2 + l) ≠ c) : 0 < mismatch (cellCosts f t w) := by
  have hmem : ((f (w.1 + k) (w.2 + l) : ℤ) - (c : ℤ)).natAbs ∈ (cellCosts f t w).flatten := by
    rw [List.mem_flatten]
    refine ⟨row.mapIdx fun (l c : ℕ) =>
      if c ≠ 2 then ((f (w.1 + k) (w.2 + l) : ℤ) - (c : ℤ)).natAbs else 0, ?_, ?_⟩
    · refine List.mem_of_getElem? (i := k) ?_
      rw [cellCosts, List.getElem?_mapIdx, hrow]
      rfl
    · refine List.mem_of_getElem? (i := l) ?_
      rw [List.getElem?_mapIdx, hc, Option.map_some, if_pos h2]
  refine List.sum_pos_iff_exists_pos_nat.mpr ⟨_, hmem, ?_⟩
  omega

/-- **The window of a template that fits exactly**, when none before it does. -/
theorem bestWindow_exact {f : Frame} {t : List (List ℕ)} (ht : IsTemplate t)
    {i0 i1 j0 j1 i j : ℕ} (hi : i0 ≤ i ∧ i < i1) (hj : j0 ≤ j ∧ j < j1)
    (hw : mismatch (cellCosts f t (i, j)) = 0)
    (hbefore : ∀ a b : ℕ, i0 ≤ a → j0 ≤ b → b < j1 → a < i ∨ a = i ∧ b < j →
      0 < mismatch (cellCosts f t (a, b))) :
    bestWindow f t (windows i0 i1 j0 j1) = ((i : ℤ), (j : ℤ)) := by
  obtain ⟨pre, post, hsplit, hpre⟩ := windows_eq_append hi hj
  rw [bestWindow, hsplit]
  refine search_exact (cellCosts_length ht f) (show 4 < 100 by decide) (fun v hv => ?_) hw
  obtain ⟨a, b, rfl, ha, hb, hb', hlt⟩ := hpre v hv
  exact hbefore a b ha hb hb' hlt

/-! ## The loop -/

/-- A round of `get_a4`: whether it leaves the loop, the frame and the corners. -/
def a4Round (fuel : ℕ) (image : Camera) : Option (Bool × Frame × Corners) := do
  let grey := fromCamera image
  let f := binarise (getOSTU grey) grey
  let c := getSmlarA4 f
  let (accepted, f) ← getA4 fuel c f
  some (accepted, f, c)

/-- **The loop of `get_a4`** on the frames that the camera has still to take: the frame accepted,
its corners, and the frames behind it; `none` when no frame is accepted. -/
def a4Loop (fuel : ℕ) : List Camera → Option ((Frame × Corners) × List Camera)
  | [] => none
  | image :: images => do
      let (accepted, f, c) ← a4Round fuel image
      if accepted then some ((f, c), images) else a4Loop fuel images

/-- The thresholded frame, and the corners found in it. -/
def seenFrame (image : Camera) : Frame := binarise (getOSTU (fromCamera image)) (fromCamera image)
@[inherit_doc seenFrame] def seenCorners (image : Camera) : Corners := getSmlarA4 (seenFrame image)

/-- **`line_` ends** for all end points. -/
theorem line_ends (i0 j0 i1 j1 : ℤ) (f : Frame) :
    ∃ N g, ∀ fuel, N ≤ fuel → line_ fuel i0 j0 i1 j1 f = some g := by
  by_cases hsteep : |i1 - i0| ≤ |j1 - j0|
  · by_cases hpos : 0 < |j1 - j0|
    · exact ⟨|j1 - j0|.toNat + 1, _, fun fuel hfuel => line_steep ⟨hsteep, hpos⟩ f (by omega)⟩
    · -- the line is one pixel
      have hi : i0 = i1 := by
        have hzero := abs_nonpos_iff.mp (hsteep.trans (not_lt.mp hpos))
        omega
      have hj : j0 = j1 := by
        have hzero := abs_nonpos_iff.mp (not_lt.mp hpos)
        omega
      refine ⟨1, plot f i0 j0, fun fuel hfuel => ?_⟩
      obtain ⟨fuel, rfl⟩ := Nat.exists_eq_add_of_le' hfuel
      exact if_pos ⟨hi, hj⟩
  · have hflat : Steep j0 i0 j1 i1 :=
      ⟨(not_le.mp hsteep).le, (abs_nonneg _).trans_lt (not_le.mp hsteep)⟩
    exact ⟨|i1 - i0|.toNat + 1, _, fun fuel hfuel => line_flat hflat f (by omega)⟩

/-- **A round of `get_a4` ends**, and it leaves the loop when the corners are accepted. -/
theorem a4Round_ends (image : Camera) :
    ∃ N g, ∀ fuel, N ≤ fuel → a4Round fuel image =
      some ((seenCorners image).accepted, g, seenCorners image) := by
  generalize hc : seenCorners image = c
  obtain ⟨N1, f1, h1⟩ := line_ends c.ls.1 c.ls.2 c.rs.1 c.rs.2 (seenFrame image)
  obtain ⟨N2, f2, h2⟩ := line_ends c.ls.1 c.ls.2 c.lx.1 c.lx.2 f1
  obtain ⟨N3, f3, h3⟩ := line_ends c.lx.1 c.lx.2 c.rx.1 c.rx.2 f2
  obtain ⟨N4, f4, h4⟩ := line_ends c.rx.1 c.rx.2 c.rs.1 c.rs.2 f3
  refine ⟨N1 + N2 + N3 + N4, fun x y => f4 x y * 255 % 256, fun fuel hfuel => ?_⟩
  have hround : getA4 fuel c (seenFrame image) =
      some (c.accepted, fun x y => f4 x y * 255 % 256) := by
    unfold getA4
    simp only [h1 fuel (by omega), h2 fuel (by omega), h3 fuel (by omega), h4 fuel (by omega),
      Option.bind_eq_bind, Option.bind_some]
  unfold a4Round
  dsimp only
  unfold seenCorners at hc
  unfold seenFrame at hc hround
  rw [hc, hround]
  rfl

/-- The image is accepted, and `g` is the frame that the loop is left with. -/
def AcceptedAs (image : Camera) (g : Frame) : Prop :=
  ∃ N, ∀ fuel, N ≤ fuel → a4Round fuel image = some (true, g, seenCorners image)

/-- The image is not accepted. -/
def Rejected (image : Camera) : Prop := (seenCorners image).accepted = false

instance (image : Camera) : Decidable (Rejected image) := inferInstanceAs (Decidable (_ = _))

theorem exists_acceptedAs {image : Camera} (h : ¬ Rejected image) : ∃ g, AcceptedAs image g := by
  obtain ⟨N, g, hround⟩ := a4Round_ends image
  exact ⟨g, N, fun fuel hfuel => Bool.eq_true_of_not_eq_false h ▸ hround fuel hfuel⟩

/-- **A frame that is rejected** makes one more round. -/
theorem a4Loop_cons_of_rejected {image : Camera} (h : Rejected image) :
    ∃ N, ∀ images fuel, N ≤ fuel → a4Loop fuel (image :: images) = a4Loop fuel images := by
  obtain ⟨N, g, hround⟩ := a4Round_ends image
  refine ⟨N, fun images fuel hfuel => ?_⟩
  rw [a4Loop, hround fuel hfuel, Option.bind_eq_bind, Option.bind_some, h]
  rfl

/-- **The loop ends with the first frame accepted.** -/
theorem a4Loop_of_rejected {image : Camera} {g : Frame} (himage : AcceptedAs image g)
    (rejected rest : List Camera) (hrejected : ∀ other ∈ rejected, Rejected other) :
    ∃ N, ∀ fuel, N ≤ fuel →
      a4Loop fuel (rejected ++ image :: rest) = some ((g, seenCorners image), rest) := by
  induction rejected with
  | nil =>
      obtain ⟨N, hround⟩ := himage
      refine ⟨N, fun fuel hfuel => ?_⟩
      rw [List.nil_append, a4Loop, hround fuel hfuel, Option.bind_eq_bind, Option.bind_some]
      rfl
  | cons other rejected ih =>
      obtain ⟨M, hrest⟩ := ih fun o ho => hrejected o (List.mem_cons_of_mem other ho)
      obtain ⟨K, hother⟩ := a4Loop_cons_of_rejected (hrejected other List.mem_cons_self)
      refine ⟨max M K, fun fuel hfuel => ?_⟩
      rw [List.cons_append, hother _ fuel ((le_max_right M K).trans hfuel)]
      exact hrest fuel ((le_max_left M K).trans hfuel)

/-- **The loop does not end** on frames that are all rejected. -/
theorem a4Loop_of_all_rejected (images : List Camera)
    (hrejected : ∀ other ∈ images, Rejected other) :
    ∃ N, ∀ fuel, N ≤ fuel → a4Loop fuel images = none := by
  induction images with
  | nil => exact ⟨0, fun _ _ => rfl⟩
  | cons other images ih =>
      obtain ⟨M, hrest⟩ := ih fun o ho => hrejected o (List.mem_cons_of_mem other ho)
      obtain ⟨K, hother⟩ := a4Loop_cons_of_rejected (hrejected other List.mem_cons_self)
      refine ⟨max M K, fun fuel hfuel => ?_⟩
      rw [hother _ fuel ((le_max_right M K).trans hfuel)]
      exact hrest fuel ((le_max_left M K).trans hfuel)

end HandlingRobot
