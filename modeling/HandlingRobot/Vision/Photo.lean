import HandlingRobot.Vision.A4
import HandlingRobot.Vision.Pictures
import Mathlib.Tactic.NormNum

/-! # A photograph of a field with marks

The photographs that the tests of the vision stage are run on: an upright field with its outline,
some single dark pixels inside it, and as much of the lowest row as makes the dark pixels two times
256.

* **`Marks`** — the dark pixels inside the outline.
* **`Marks.image`**, **`Marks.field`** — the photograph, and the frame that `get_a4` makes of it.
* **`Marks.countP_isDark`** — 512 pixels are dark, so `HistoGram` counts them as nothing.
* **`Marks.seenCorners_image`** — the corners found are those of the outline.
* **`Marks.acceptedAs`** — the photograph is accepted as this frame. -/

namespace HandlingRobot

/-- **The marks inside the field.** -/
structure Marks where
  pixels : List Pixel
  nodup : pixels.Nodup
  inside : ∀ q ∈ pixels, (56 ≤ q.1 ∧ q.1 ≤ 102) ∧ 36 ≤ q.2 ∧ q.2 ≤ 84
  length_le : pixels.length ≤ 168

namespace Marks

/-- The outline of the field, the marks, and a part of the lowest row. -/
def IsDark (m : Marks) (x y : ℤ) : Prop :=
  (44 ≤ x ∧ x ≤ 144 ∧ 24 ≤ y ∧ y ≤ 96) ∧ (x = 44 ∨ x = 144 ∨ y = 24 ∨ y = 96) ∨
    (x, y) ∈ m.pixels ∨ (0 ≤ x ∧ x < 168 - m.pixels.length) ∧ y = 0

instance (m : Marks) (x y : ℤ) : Decidable (m.IsDark x y) := inferInstanceAs (Decidable (_ ∨ _))

/-- **The photograph.** -/
def image (m : Marks) : Camera := fun r c => if m.IsDark c (119 - r) then 0 else 254

/-- The photograph behind the threshold. -/
def seen (m : Marks) : Frame := fun x y =>
  if m.IsDark x y then 1 else if OnFrame (x, y) then 0 else 254

/-- **The frame that the floods see.** -/
def field (m : Marks) : Frame := fun x y => m.seen x y * 255 % 256

variable (m : Marks)

/-- Where a dark pixel can lie. -/
theorem IsDark.bounds {m : Marks} {x y : ℤ} (h : m.IsDark x y) :
    (44 ≤ x ∧ x ≤ 144 ∧ 24 ≤ y ∧ y ≤ 96) ∧ (x = 44 ∨ x = 144 ∨ y = 24 ∨ y = 96) ∨
      ((56 ≤ x ∧ x ≤ 102) ∧ 36 ≤ y ∧ y ≤ 84) ∨ (0 ≤ x ∧ x < 168) ∧ y = 0 := by
  rcases h with h | h | h
  · exact Or.inl h
  · exact Or.inr (Or.inl (m.inside _ h))
  · exact Or.inr (Or.inr (by omega))

theorem isDark_of_outline {x y : ℤ} (hin : 44 ≤ x ∧ x ≤ 144 ∧ 24 ≤ y ∧ y ≤ 96)
    (hon : x = 44 ∨ x = 144 ∨ y = 24 ∨ y = 96) : m.IsDark x y :=
  Or.inl ⟨hin, hon⟩

theorem IsDark.onFrame {m : Marks} {x y : ℤ} (h : m.IsDark x y) : OnFrame (x, y) := by
  have hbounds := h.bounds
  simp only [OnFrame, imgWidth, imgHeight]
  omega

/-! ## The threshold -/

/-- The pixels of the outline. -/
def outline : List Pixel :=
  ((List.range 101).flatMap fun (i : ℕ) => [(44 + (i : ℤ), 24), (44 + (i : ℤ), 96)]) ++
    (List.range 71).flatMap fun (j : ℕ) => [(44, 25 + (j : ℤ)), (144, 25 + (j : ℤ))]

theorem mem_outline {q : Pixel} : q ∈ outline ↔
    (44 ≤ q.1 ∧ q.1 ≤ 144 ∧ 24 ≤ q.2 ∧ q.2 ≤ 96) ∧
      (q.1 = 44 ∨ q.1 = 144 ∨ q.2 = 24 ∨ q.2 = 96) := by
  obtain ⟨x, y⟩ := q
  simp only [outline, List.mem_append, List.mem_flatMap, List.mem_range, List.mem_cons,
    List.not_mem_nil, or_false, Prod.mk.injEq]
  constructor
  · rintro (⟨i, hi, ⟨rfl, rfl⟩ | ⟨rfl, rfl⟩⟩ | ⟨j, hj, ⟨rfl, rfl⟩ | ⟨rfl, rfl⟩⟩) <;> omega
  · intro h
    by_cases hrow : y = 24 ∨ y = 96
    · exact Or.inl ⟨(x - 44).toNat, by omega, by omega⟩
    · exact Or.inr ⟨(y - 25).toNat, by omega, by omega⟩

/-- The dark pixels of the lowest row. -/
def lowest (n : ℕ) : List Pixel := (List.range n).map fun (i : ℕ) => ((i : ℤ), 0)

/-- The dark pixels. -/
def dark : List Pixel := outline ++ (m.pixels ++ lowest (168 - m.pixels.length))

theorem mem_lowest {n : ℕ} {q : Pixel} : q ∈ lowest n ↔ (0 ≤ q.1 ∧ q.1 < n) ∧ q.2 = 0 := by
  obtain ⟨x, y⟩ := q
  simp only [lowest, List.mem_map, List.mem_range, Prod.mk.injEq]
  constructor
  · rintro ⟨i, hi, rfl, rfl⟩
    omega
  · intro h
    exact ⟨x.toNat, by omega, by omega, h.2.symm⟩

theorem mem_dark {q : Pixel} : q ∈ m.dark ↔ m.IsDark q.1 q.2 := by
  have hlength := m.length_le
  rw [dark, List.mem_append, List.mem_append, mem_outline, mem_lowest, IsDark,
    Nat.cast_sub hlength]
  rfl

theorem length_dark : m.dark.length = 512 := by
  have hlength := m.length_le
  have houtline : outline.length = 344 := by decide +kernel
  rw [dark, List.length_append, List.length_append, houtline, lowest, List.length_map,
    List.length_range]
  omega

theorem nodup_dark : m.dark.Nodup := by
  have houtline : outline.Nodup := by decide +kernel
  have hlowest : (lowest (168 - m.pixels.length)).Nodup :=
    List.nodup_range.map fun i j hij => by simpa using hij
  refine houtline.append (m.nodup.append hlowest fun q hq hq' => ?_) fun q hq hq' => ?_
  · have hin := m.inside q hq
    have hlow := mem_lowest.mp hq'
    omega
  · have hon := mem_outline.mp hq
    rcases List.mem_append.mp hq' with hq' | hq'
    · have hin := m.inside q hq'
      omega
    · have hlow := mem_lowest.mp hq'
      omega

/-- **There are 512 dark pixels.** -/
theorem countP_isDark : framePixels.countP (fun q => m.IsDark q.1 q.2) = 512 := by
  rw [List.countP_eq_length_filter, ← m.length_dark]
  refine List.Perm.length_eq ((List.perm_ext_iff_of_nodup (framePixels_nodup.filter _)
    m.nodup_dark).mpr fun q => ?_)
  rw [List.mem_filter, decide_eq_true_eq, mem_dark, mem_framePixels]
  exact ⟨fun h => h.2, fun h => ⟨h.onFrame, h⟩⟩

theorem fromCamera_image : fromCamera m.image = fun x y => if m.IsDark x y then 0 else 254 := by
  funext x y
  have hrow : 119 - (imgHeight - 1 - y) = y := by
    unfold imgHeight
    omega
  rw [fromCamera, image, hrow]

/-- The entry for the light pixels is the first one that is not 0, since `HistoGram` counts 512 as
nothing. -/
theorem getOSTU_image : getOSTU (fromCamera m.image) = 254 := by
  have hdark : ∀ q : Pixel, fromCamera m.image q.1 q.2 = if m.IsDark q.1 q.2 then 0 else 254 :=
    fun q => by rw [fromCamera_image]
  -- 512 dark pixels count as none, since an entry is a byte
  have hzero : ∀ v < 254, histogram (fromCamera m.image) v = 0 := by
    intro v hv
    by_cases h0 : v = 0
    · have hcongr : framePixels.countP (fun q => fromCamera m.image q.1 q.2 = v) = 512 := by
        rw [← m.countP_isDark]
        refine List.countP_congr fun q _ => ?_
        rw [decide_eq_true_eq, decide_eq_true_eq, hdark]
        split_ifs with hq <;> simp [hq, h0]
      rw [histogram_of_count hcongr]
    · have hnone : framePixels.countP (fun q => fromCamera m.image q.1 q.2 = v) = 0 := by
        rw [List.countP_eq_zero]
        intro q _
        rw [decide_eq_true_eq, hdark]
        split_ifs <;> omega
      rw [histogram_of_count hnone]
  have hlight : histogram (fromCamera m.image) 254 = 32 := by
    have hcompl : framePixels.countP (fun q => fromCamera m.image q.1 q.2 = 254) =
        22560 - 512 := by
      have hsplit := List.length_eq_countP_add_countP (fun q : Pixel => decide (m.IsDark q.1 q.2))
        (l := framePixels)
      rw [length_framePixels, countP_isDark] at hsplit
      rw [hsplit, Nat.add_sub_cancel_left]
      refine List.countP_congr fun q _ => ?_
      rw [decide_eq_true_eq, hdark]
      split_ifs with hq <;> simp [hq]
    rw [histogram_of_count hcompl]
  have hmin : minValue (histogram (fromCamera m.image)) = 254 := by
    unfold minValue
    have hfind : ((List.range 256).find? fun v => histogram (fromCamera m.image) v ≠ 0) =
        some 254 := by
      rw [List.find?_range_eq_some]
      refine ⟨by simp [hlight], by simp, fun v hv => ?_⟩
      simp [hzero v hv]
    rw [hfind]
    rfl
  -- the loop for the last level stops at once, as it looks at the first entry only
  have hmax : maxValue (histogram (fromCamera m.image)) 254 255 = 255 := by
    rw [maxValue, if_neg fun h => absurd h.2 (by rw [hlight]; decide)]
  unfold getOSTU otsu
  dsimp only
  rw [hmin, hmax]
  rfl

theorem seenFrame_image : seenFrame m.image = m.seen := by
  funext x y
  rw [seenFrame, getOSTU_image, fromCamera_image, binarise, seen]
  by_cases hdark : m.IsDark x y
  · rw [if_pos hdark.onFrame, if_pos hdark, if_pos hdark]
    rfl
  · rw [if_neg hdark, if_neg hdark]
    rfl

/-! ## The corners -/

/-- A cell of a template at a dark and at a light pixel. -/
theorem cell_pos {t : List (List ℕ)} {w : Pixel} (k l : ℕ) {row : List ℕ}
    (hrow : t[k]? = some row) (h : row[l]? = some 0 ∧ m.IsDark (w.1 + k) (w.2 + l) ∨
      row[l]? = some 1 ∧ ¬ m.IsDark (w.1 + k) (w.2 + l)) :
    0 < mismatch (cellCosts m.seen t w) := by
  rcases h with ⟨hc, hdark⟩ | ⟨hc, hlight⟩
  · refine mismatch_pos k l hrow hc (by decide) ?_
    rw [seen, if_pos hdark]
    decide
  · refine mismatch_pos k l hrow hc (by decide) ?_
    rw [seen, if_neg hlight]
    split_ifs <;> decide

/-- The field without marks. -/
def unmarked : Marks := ⟨[], List.nodup_nil, fun _ h => absurd h List.not_mem_nil, Nat.zero_le _⟩

/-- **A window over a corner of the outline** sees no mark. -/
theorem mismatch_corner {t : List (List ℕ)} (ht : IsTemplate t) {i j : ℕ}
    (hw : (i + 10 < 56 ∨ 102 < i) ∧ 0 < j ∨ (j + 10 < 36 ∨ 84 < j) ∧ 0 < j) :
    mismatch (cellCosts m.seen t (i, j)) = mismatch (cellCosts unmarked.seen t (i, j)) := by
  rw [cellCosts_congr ht fun k l hk hl => ?_]
  have hiff : m.IsDark ((i : ℤ) + k) ((j : ℤ) + l) ↔
      unmarked.IsDark ((i : ℤ) + k) ((j : ℤ) + l) := by
    constructor
    · intro h
      have hbounds := h.bounds
      exact Or.inl (by omega)
    · intro h
      have hbounds := h.bounds
      exact Or.inl (by omega)
  simp only [seen, hiff]

theorem seenCorners_image : seenCorners m.image = upright := by
  -- each corner of the outline fits its template, and no window before it does
  have hUL : bestWindow m.seen a4UL (windows 0 94 60 120) = (43, 87) := by
    refine bestWindow_exact isTemplate_a4.1 (i := 43) (j := 87) (by decide) (by decide) ?_
      fun a b _ hb hb' hlt => ?_
    · rw [m.mismatch_corner isTemplate_a4.1 (by omega)]
      decide +kernel
    · rcases hlt with ha | ⟨rfl, hbj⟩
      · refine m.cell_pos 1 0 rfl (Or.inr ⟨rfl, fun h => ?_⟩)
        have hbounds := h.bounds
        omega
      · refine m.cell_pos 1 10 rfl (Or.inl ⟨rfl, m.isDark_of_outline ?_ ?_⟩) <;> omega
  have hUR : bestWindow m.seen a4UR (windows 94 188 60 120) = (135, 87) := by
    refine bestWindow_exact isTemplate_a4.2.1 (i := 135) (j := 87) (by decide) (by decide) ?_
      fun a b ha0 hb hb' hlt => ?_
    · rw [m.mismatch_corner isTemplate_a4.2.1 (by omega)]
      decide +kernel
    · rcases hlt with ha | ⟨rfl, hbj⟩
      · by_cases hb96 : b = 96
        · refine m.cell_pos 9 1 rfl (Or.inr ⟨rfl, fun h => ?_⟩)
          have hbounds := h.bounds
          omega
        · refine m.cell_pos 9 0 rfl (Or.inr ⟨rfl, fun h => ?_⟩)
          have hbounds := h.bounds
          omega
      · refine m.cell_pos 9 10 rfl (Or.inl ⟨rfl, m.isDark_of_outline ?_ ?_⟩) <;> omega
  have hDR : bestWindow m.seen a4DR (windows 94 188 0 60) = (135, 23) := by
    refine bestWindow_exact isTemplate_a4.2.2.1 (i := 135) (j := 23) (by decide) (by decide) ?_
      fun a b ha0 hb hb' hlt => ?_
    · rw [m.mismatch_corner isTemplate_a4.2.2.1 (by omega)]
      decide +kernel
    · rcases hlt with ha | ⟨rfl, hbj⟩
      · by_cases hb14 : b = 14
        · refine m.cell_pos 9 9 rfl (Or.inr ⟨rfl, fun h => ?_⟩)
          have hbounds := h.bounds
          omega
        · refine m.cell_pos 9 10 rfl (Or.inr ⟨rfl, fun h => ?_⟩)
          have hbounds := h.bounds
          omega
      · refine m.cell_pos 9 1 rfl (Or.inr ⟨rfl, fun h => ?_⟩)
        have hbounds := h.bounds
        omega
  have hDL : bestWindow m.seen a4DL (windows 0 94 0 60) = (43, 23) := by
    refine bestWindow_exact isTemplate_a4.2.2.2 (i := 43) (j := 23) (by decide) (by decide) ?_
      fun a b _ hb hb' hlt => ?_
    · rw [m.mismatch_corner isTemplate_a4.2.2.2 (by omega)]
      decide +kernel
    · refine m.cell_pos 1 1 rfl (Or.inr ⟨rfl, fun h => ?_⟩)
      have hbounds := h.bounds
      omega
  rw [seenCorners, seenFrame_image, getSmlarA4, hUL, hUR, hDR, hDL]
  rfl

end Marks

/-! ## The frame -/

theorem upright_accepted : upright.accepted = true := by
  rw [Corners.accepted, Bool.and_eq_true]
  refine ⟨by decide, ?_⟩
  norm_num [checkRct, upright]

theorem upright_sides : upright.Sides := by
  refine ⟨⟨?_, ?_⟩, ⟨?_, ?_⟩, ⟨?_, ?_⟩, ⟨?_, ?_⟩⟩ <;> decide

/-- The lines are the sides of a rectangle. -/
theorem upright_outline {q : Pixel} (h : upright.OnOutline q) :
    (44 ≤ q.1 ∧ q.1 ≤ 144 ∧ 24 ≤ q.2 ∧ q.2 ≤ 96) ∧
      (q.1 = 44 ∨ q.1 = 144 ∨ q.2 = 24 ∨ q.2 = 96) := by
  have hside : ∀ {i0 j0 i1 j1 t v : ℤ} (hs : Steep i0 j0 i1 j1), hs.fence.Covers t v →
      (min j0 j1 ≤ t ∧ t ≤ max j0 j1) ∧ min i0 i1 ≤ v ∧ v ≤ max i0 i1 := by
    rintro i0 j0 i1 j1 t v hs ⟨hlo, hhi, rfl⟩
    exact ⟨⟨hlo, hhi⟩, hs.columnAt_mem t⟩
  rw [upright_sides.onOutline_iff] at h
  rcases h with (h | h) | (h | h)
  · have hbounds := hside _ h
    simp only [upright] at hbounds
    omega
  · have hbounds := hside _ h
    simp only [upright] at hbounds
    omega
  · have hbounds := hside _ h
    simp only [upright] at hbounds
    omega
  · have hbounds := hside _ h
    simp only [upright] at hbounds
    omega

namespace Marks

variable (m : Marks)

theorem field_eq {x y : ℤ} (h : OnFrame (x, y)) :
    m.field x y = if m.IsDark x y then 255 else 0 := by
  rw [field, seen, if_pos h]
  split_ifs <;> rfl

theorem isWhite_field {q : Pixel} (h : OnFrame q) :
    isWhite m.field q = true ↔ m.IsDark q.1 q.2 := by
  rw [isWhite, m.field_eq h, beq_iff_eq]
  split_ifs with hdark
  · exact iff_of_true rfl hdark
  · exact iff_of_false (by decide) hdark

theorem not_rejected : ¬ Rejected m.image := by
  rw [Rejected, seenCorners_image, upright_accepted]
  exact Bool.noConfusion

/-- **The photograph is accepted**, and its lines are drawn where they are. -/
theorem acceptedAs : AcceptedAs m.image m.field := by
  have hdrawn : ∀ q, upright.OnOutline q → m.seen q.1 q.2 = 1 := fun q hq =>
    if_pos (m.isDark_of_outline (upright_outline hq).1 (upright_outline hq).2)
  obtain ⟨N, hrun⟩ := getA4_drawn upright_sides hdrawn
  refine ⟨N, fun fuel hfuel => ?_⟩
  have hcorners := m.seenCorners_image
  have hframe := m.seenFrame_image
  unfold seenCorners at hcorners ⊢
  rw [hframe] at hcorners ⊢
  unfold seenFrame at hframe
  unfold a4Round
  dsimp only
  rw [hframe, hcorners, hrun fuel hfuel, upright_accepted]
  rfl

end Marks

end HandlingRobot
