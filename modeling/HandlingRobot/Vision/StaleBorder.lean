import HandlingRobot.Vision.PicPick
import HandlingRobot.Vision.Repeat

/-! # A border that `find_pic` has left behind

After `find_pic` the border of `img` is -1, and `get_pic` compares it with its templates. A dark
triangle close to the left side of the frame has an upper left corner in the windows of column 0, so
it is found after the start, and not after a call of `find_pic`.

* **`sum_le_mismatch`** — a window without an edge misses every 1 of the template.
* **`overspent`** — a fast test that a window misses more than a bound.
* **`triangle`**, **`triangleEdges`** — the frame, and its edges on a border of `b`.
* **`dash_border`** — the border of `img` after a call of `find_pic`.
* **`getPic_differs`** — the two calls. -/

namespace HandlingRobot

/-! ## Windows without an edge -/

theorem sum_le_mismatch_row (cs : List ℕ) : ∀ g : ℕ → ℤ, (∀ l < cs.length, g l ≤ 0) →
    cs.sum ≤ (cs.mapIdx fun (l c : ℕ) => (g l - (c : ℤ)).natAbs).sum := by
  induction cs with
  | nil => exact fun g _ => le_rfl
  | cons c cs ih =>
      intro g hg
      rw [List.mapIdx_cons, List.sum_cons, List.sum_cons]
      have h0 := hg 0 (Nat.succ_pos _)
      have hrest := ih (fun l => g (l + 1)) fun l hl => hg (l + 1) (Nat.succ_lt_succ hl)
      omega

/-- **A window without an edge** misses every 1 of the template. -/
theorem sum_le_mismatch {img : Pixel → ℤ} {t : List (List ℕ)} (ht : IsTemplate t) {w : Pixel}
    (h : ∀ k l : ℕ, k < 11 → l < 11 → img (w.1 + k, w.2 + l) ≤ 0) :
    t.flatten.sum ≤ mismatch (edgeCosts img t w) := by
  have hrows : ∀ (rows : List (List ℕ)) (g : ℕ → ℕ → ℤ),
      (∀ row ∈ rows, row.length = 11) → (∀ k l, k < rows.length → l < 11 → g k l ≤ 0) →
      rows.flatten.sum ≤ (rows.mapIdx fun (k : ℕ) (row : List ℕ) =>
        row.mapIdx fun (l c : ℕ) => (g k l - (c : ℤ)).natAbs).flatten.sum := by
    intro rows
    induction rows with
    | nil => exact fun g _ _ => le_rfl
    | cons row rows ih =>
        intro g hlen hg
        rw [List.mapIdx_cons, List.flatten_cons, List.flatten_cons, List.sum_append,
          List.sum_append]
        have hrow := sum_le_mismatch_row row (g 0) fun l hl =>
          hg 0 l (Nat.succ_pos _) (hlen row List.mem_cons_self ▸ hl)
        have hrest := ih (fun k => g (k + 1)) (fun r hr => hlen r (List.mem_cons_of_mem row hr))
          fun k l hk hl => hg (k + 1) l (Nat.succ_lt_succ hk) hl
        exact Nat.add_le_add hrow hrest
  exact hrows t (fun k l => img (w.1 + k, w.2 + l)) ht.2 fun k l hk hl => h k l (ht.1 ▸ hk) hl

/-- A window whose first column is -1 misses all cells there. -/
theorem lt_mismatch_of_column {img : Pixel → ℤ} {t : List (List ℕ)} (ht : IsTemplate t) {w : Pixel}
    (h : ∀ l : ℕ, l < 11 → img (w.1, w.2 + l) = -1) : 10 < mismatch (edgeCosts img t w) := by
  obtain ⟨row, rows, rfl⟩ : ∃ row rows, t = row :: rows :=
    List.exists_cons_of_length_eq_add_one ht.1
  have hcells : ∀ (cs : List ℕ) (g : ℕ → ℤ), (∀ l < cs.length, g l = -1) →
      cs.length ≤ (cs.mapIdx fun (l c : ℕ) => (g l - (c : ℤ)).natAbs).sum := by
    intro cs
    induction cs with
    | nil => exact fun _ _ => le_rfl
    | cons c cs ih =>
        intro g hg
        rw [List.mapIdx_cons, List.sum_cons, List.length_cons]
        have h0 := hg 0 (Nat.succ_pos _)
        have hrest := ih (fun l => g (l + 1)) fun l hl => hg (l + 1) (Nat.succ_lt_succ hl)
        omega
  have hlength := ht.2 row List.mem_cons_self
  have hrow := hcells row (fun l => img (w.1 + (0 : ℕ), w.2 + l)) fun l hl => by
    rw [Nat.cast_zero, add_zero]
    exact h l (hlength ▸ hl)
  rw [mismatch, edgeCosts, List.mapIdx_cons, List.flatten_cons, List.sum_append]
  omega

/-- Only the cells of the window matter. -/
theorem edgeCosts_congr {a b : Pixel → ℤ} {t : List (List ℕ)} (ht : IsTemplate t) {w : Pixel}
    (h : ∀ k l : ℕ, k < 11 → l < 11 → a (w.1 + k, w.2 + l) = b (w.1 + k, w.2 + l)) :
    edgeCosts a t w = edgeCosts b t w := by
  rw [edgeCosts, edgeCosts, List.mapIdx_eq_mapIdx_iff]
  intro k hk
  rw [List.mapIdx_eq_mapIdx_iff]
  intro l hl
  rw [h k l (ht.1 ▸ hk) (ht.2 _ (List.getElem_mem hk) ▸ hl)]

/-! ## Windows of bits -/

/-- The mismatch of a row of a template with the bits of `m`. -/
def rowMisses : ℕ → List ℕ → ℕ
  | _, [] => 0
  | m, c :: cs => (m % 2 ^^^ c) + rowMisses (m / 2) cs

/-- The mismatch exceeds `b`, in a window whose columns from `i` on are the bits from `j` on. -/
def overspent (bits : ℕ → ℕ) (j : ℕ) : ℕ → ℕ → List (List ℕ) → Bool
  | _, _, [] => false
  | b, i, row :: rows =>
      decide (b < rowMisses (bits i / 2 ^ j) row) ||
        overspent bits j (b - rowMisses (bits i / 2 ^ j) row) (i + 1) rows

theorem rowMisses_eq (cs : List ℕ) : ∀ (m : ℕ) (g : ℕ → ℤ), (∀ c ∈ cs, c ≤ 1) →
    (∀ l < cs.length, g l = ((m / 2 ^ l % 2 : ℕ) : ℤ)) →
    (cs.mapIdx fun (l c : ℕ) => (g l - (c : ℤ)).natAbs).sum = rowMisses m cs := by
  induction cs with
  | nil => exact fun _ _ _ _ => rfl
  | cons c cs ih =>
      intro m g hle hg
      have hrest := ih (m / 2) (fun l => g (l + 1)) (fun d hd => hle d (List.mem_cons_of_mem c hd))
        fun l hl => by rw [hg (l + 1) (Nat.succ_lt_succ hl), Nat.div_div_eq_div_mul, pow_succ']
      have hfirst : (g 0 - (c : ℤ)).natAbs = (m % 2 ^^^ c) := by
        rw [hg 0 (Nat.succ_pos _), pow_zero, Nat.div_one]
        obtain hc | hc : c = 0 ∨ c = 1 := Nat.le_one_iff_eq_zero_or_eq_one.mp
          (hle c List.mem_cons_self)
        · obtain hm | hm := Nat.mod_two_eq_zero_or_one m <;> rw [hc, hm] <;> rfl
        · obtain hm | hm := Nat.mod_two_eq_zero_or_one m <;> rw [hc, hm] <;> rfl
      rw [List.mapIdx_cons, List.sum_cons, hrest, hfirst, rowMisses]

/-- **A window of bits**, by induction on the rows of the template. -/
theorem lt_mismatch_of_overspent {bits : ℕ → ℕ} {img : Pixel → ℤ} {t : List (List ℕ)}
    (ht : IsTemplate t) (hle : ∀ row ∈ t, ∀ c ∈ row, c ≤ 1) {w : Pixel} {b i j : ℕ}
    (hcells : ∀ k l : ℕ, k < 11 → l < 11 →
      img (w.1 + k, w.2 + l) = ((bits (i + k) / 2 ^ (j + l) % 2 : ℕ) : ℤ))
    (h : overspent bits j b i t = true) : b < mismatch (edgeCosts img t w) := by
  have hrows : ∀ (rows : List (List ℕ)) (b i : ℕ) (g : ℕ → ℕ → ℤ),
      (∀ row ∈ rows, row.length = 11 ∧ ∀ c ∈ row, c ≤ 1) →
      (∀ k l, k < rows.length → l < 11 →
        g k l = ((bits (i + k) / 2 ^ (j + l) % 2 : ℕ) : ℤ)) →
      overspent bits j b i rows = true →
      b < (rows.mapIdx fun (k : ℕ) (row : List ℕ) =>
        row.mapIdx fun (l c : ℕ) => (g k l - (c : ℤ)).natAbs).flatten.sum := by
    -- row after row, as `overspent` goes
    intro rows
    induction rows with
    | nil => exact fun _ _ _ _ _ h => absurd h Bool.false_ne_true
    | cons row rows ih =>
        intro b i g hlen hg hspent
        have hrow := rowMisses_eq row (bits i / 2 ^ j) (g 0) (hlen row List.mem_cons_self).2
          fun l hl => by
            rw [hg 0 l (Nat.succ_pos _) ((hlen row List.mem_cons_self).1 ▸ hl),
              Nat.div_div_eq_div_mul, ← pow_add]
            rfl
        rw [List.mapIdx_cons, List.flatten_cons, List.sum_append, hrow]
        rw [overspent, Bool.or_eq_true, decide_eq_true_eq] at hspent
        rcases hspent with hnow | hlater
        · exact Nat.lt_add_right _ hnow
        · have hrest := ih (b - rowMisses (bits i / 2 ^ j) row) (i + 1) (fun k => g (k + 1))
            (fun r hr => hlen r (List.mem_cons_of_mem row hr))
            (fun k l hk hl => by rw [hg (k + 1) l (Nat.succ_lt_succ hk) hl, Nat.add_right_comm,
              Nat.add_assoc]) hlater
          omega
  exact hrows t b i (fun k l => img (w.1 + k, w.2 + l)) (fun row hr => ⟨ht.2 row hr, hle row hr⟩)
    (fun k l hk hl => hcells k l (ht.1 ▸ hk) hl) h

/-! ## The triangle -/

/-- A pixel of the triangle. -/
def InTriangle (x y : ℤ) : Prop := 6 ≤ x ∧ y ≤ 61 ∧ x ≤ y - 48

instance (x y : ℤ) : Decidable (InTriangle x y) := inferInstanceAs (Decidable (_ ∧ _ ∧ _))

/-- The triangle in the camera. -/
def triangle : Camera := fun r c => if InTriangle c (119 - r) then 0 else 255

/-- A pixel where the triangle has an edge. -/
def OnTriangle (x y : ℤ) : Prop :=
  (5 ≤ x ∧ x ≤ 14 ∧ 53 ≤ y ∧ y ≤ 62 ∧ x ≤ y - 46) ∧ (x ≤ 6 ∨ 61 ≤ y ∨ y - 49 ≤ x)

instance (x y : ℤ) : Decidable (OnTriangle x y) := inferInstanceAs (Decidable (_ ∧ _))

instance (q : Pixel) : Decidable (OnBorder q) := inferInstanceAs (Decidable (_ ∨ _ ∨ _ ∨ _))

/-- The edges of the triangle on a border of `b`. -/
def triangleEdges (b : ℤ) (q : Pixel) : ℤ :=
  if OnTriangle q.1 q.2 then 1 else if OnBorder q then b else 0

/-- The frame in front of `sobel`. -/
def triangleLevels : Frame := fun x y => if InTriangle x y then 0 else 255

theorem twoLevels_triangle {x y : ℤ} (h : OnFrame (x, y)) :
    twoLevels (fromCamera triangle) x y = triangleLevels x y := by
  have hrow : 119 - (imgHeight - 1 - y) = y := by
    unfold imgHeight
    omega
  rw [twoLevels, if_pos h, fromCamera, triangle, hrow, triangleLevels]
  split_ifs with hin hlt hlt
  · rfl
  · exact absurd (show (0 : ℕ) < 145 by decide) hlt
  · exact absurd hlt (by decide)
  · rfl

/-- The test of `sobel` on the triangle. -/
theorem sobel_triangle (x y : ℤ) :
    |sobelX triangleLevels x y| + |sobelY triangleLevels x y| > 89 ↔ OnTriangle x y := by
  by_cases hnear : (4 ≤ x ∧ x ≤ 15) ∧ 52 ≤ y ∧ y ≤ 63
  -- close to the triangle, pixel by pixel
  · have hall : ∀ i < 12, ∀ j < 12, (|sobelX triangleLevels (4 + (i : ℕ)) (52 + (j : ℕ))| +
        |sobelY triangleLevels (4 + (i : ℕ)) (52 + (j : ℕ))| > 89 ↔
          OnTriangle (4 + (i : ℕ)) (52 + (j : ℕ))) := by
      decide +kernel
    have hcell := hall (x - 4).toNat (by omega) (y - 52).toNat (by omega)
    rwa [Int.toNat_of_nonneg (by omega), Int.toNat_of_nonneg (by omega), add_sub_cancel,
      add_sub_cancel] at hcell
  · -- all pixels around are bright
    have hbright : ∀ i j, |i - x| ≤ 1 → |j - y| ≤ 1 → triangleLevels i j = 255 := by
      intro i j hi hj
      rw [abs_le] at hi hj
      refine if_neg fun hin => hnear ?_
      simp only [InTriangle] at hin
      omega
    refine iff_of_false ?_ fun hon => hnear ?_
    · simp only [sobelX, sobelY]
      repeat rw [hbright _ _ (by rw [abs_le]; omega) (by rw [abs_le]; omega)]
      decide
    · simp only [OnTriangle] at hon
      omega

/-- **The edges of the triangle**, whatever `img` holds inside. -/
theorem sobel_triangle_eq {img : Pixel → ℤ} {b : ℤ}
    (hb : ∀ q, OnFrame q → OnBorder q → img q = b) {q : Pixel} (hq : OnFrame q) :
    sobel (twoLevels (fromCamera triangle)) img q = triangleEdges b q := by
  by_cases hborder : OnBorder q
  · have hoff : ¬ OnTriangle q.1 q.2 := by
      simp only [OnTriangle, OnBorder, imgWidth, imgHeight] at hborder ⊢
      omega
    rw [(sobel_eq _ img hq).1 hborder, hb q hq hborder, triangleEdges, if_neg hoff, if_pos hborder]
  -- inside the frame all nine pixels lie on it
  · have hlevels : ∀ i j, |i - q.1| ≤ 1 → |j - q.2| ≤ 1 →
        twoLevels (fromCamera triangle) i j = triangleLevels i j := by
      intro i j hi hj
      rw [abs_le] at hi hj
      refine twoLevels_triangle ?_
      simp only [OnFrame, OnBorder, imgWidth, imgHeight] at hq hborder ⊢
      omega
    have hsame : sobelX (twoLevels (fromCamera triangle)) q.1 q.2 =
        sobelX triangleLevels q.1 q.2 ∧ sobelY (twoLevels (fromCamera triangle)) q.1 q.2 =
        sobelY triangleLevels q.1 q.2 := by
      constructor
      · unfold sobelX
        repeat rw [hlevels _ _ (by rw [abs_le]; omega) (by rw [abs_le]; omega)]
      · unfold sobelY
        repeat rw [hlevels _ _ (by rw [abs_le]; omega) (by rw [abs_le]; omega)]
    rw [(sobel_eq _ img hq).2 hborder, hsame.1, hsame.2, triangleEdges, if_neg hborder]
    exact if_congr (sobel_triangle q.1 q.2) rfl rfl

/-! ## The windows of the triangle -/

/-- The templates of `get_similarity`. -/
def cornerTemplates : List (List (List ℕ)) := [corUL, corUR, corDL, corDR]

theorem cornerTemplates_spec : ∀ t ∈ cornerTemplates, IsTemplate t ∧ (∀ row ∈ t, ∀ c ∈ row, c ≤ 1) ∧
    10 < t.flatten.sum := by
  decide +kernel

/-- The columns of the edges, from row 43 on. -/
def triangleBits (x : ℕ) : ℕ :=
  [0, 0, 0, 0, 0, 1047552, 1047552, 801792, 817152, 847872, 909312, 1032192, 1015808, 983040,
    917504].getD x 0

theorem triangleBits_eq : ∀ x < 25, ∀ y < 30,
    (if OnTriangle (x : ℕ) ((43 + y : ℕ) : ℤ) then 1 else 0) = triangleBits x / 2 ^ y % 2 := by
  decide +kernel

/-- **One window of the triangle** fits, when the border shows no edge. -/
theorem overspent_triangle : ∀ t ∈ cornerTemplates, ∀ i < 15, ∀ j < 20,
    (t = corUL ∧ i = 0 ∧ j = 14) ∨ overspent triangleBits j 10 i t = true := by
  decide +kernel

/-- **The windows that fit the triangle**: the one at `(0, 57)`, as long as the border is 0. -/
theorem lt_mismatch_triangle {b : ℤ} (hb : b = 0 ∨ b = -1) {t : List (List ℕ)}
    (ht : t ∈ cornerTemplates) {i j : ℕ} (hi : i < 178) (hj : j < 110)
    (hno : ¬ (b = 0 ∧ t = corUL ∧ i = 0 ∧ j = 57)) :
    10 < mismatch (edgeCosts (triangleEdges b) t ((i : ℤ), (j : ℤ))) := by
  obtain ⟨htemplate, hle, hsum⟩ := cornerTemplates_spec t ht
  by_cases hborder : i = 0 ∧ b = -1
  · obtain ⟨rfl, rfl⟩ := hborder
    refine lt_mismatch_of_column htemplate fun l _ => ?_
    have hoff : ¬ OnTriangle ((0 : ℕ) : ℤ) ((j : ℤ) + l) := by
      simp only [OnTriangle]
      omega
    have hon : OnBorder (((0 : ℕ) : ℤ), (j : ℤ) + l) := Or.inl rfl
    exact (if_neg hoff).trans (if_pos hon)
  · by_cases hnear : i < 15 ∧ 43 ≤ j ∧ j < 63
    · obtain ⟨hi15, hj43, hj63⟩ := hnear
      obtain ⟨m, rfl⟩ := Nat.exists_eq_add_of_le hj43
      -- near the triangle the window shows the bits
      have hbits : ∀ k l : ℕ, k < 11 → l < 11 →
          triangleEdges b ((i : ℤ) + k, ((43 + m : ℕ) : ℤ) + l) =
            ((triangleBits (i + k) / 2 ^ (m + l) % 2 : ℕ) : ℤ) := by
        intro k l hk hl
        have hrow : ((43 + m : ℕ) : ℤ) + l = ((43 + (m + l) : ℕ) : ℤ) := by
          push_cast
          ring
        rw [← triangleBits_eq (i + k) (by omega) (m + l) (by omega), triangleEdges, hrow,
          Nat.cast_ite, Nat.cast_add i k]
        refine if_congr Iff.rfl Nat.cast_one.symm ?_
        split_ifs with hb0
        · simp only [OnBorder, imgWidth, imgHeight] at hb0
          omega
        · rfl
      refine lt_mismatch_of_overspent htemplate hle hbits ?_
      refine (overspent_triangle t ht i hi15 m (by omega)).resolve_left ?_
      rintro ⟨hUL, hi0, hm⟩
      exact hno ⟨hb.resolve_right fun h => hborder ⟨hi0, h⟩, hUL, hi0, by rw [hm]⟩
    -- elsewhere it shows no edge
    · refine hsum.trans_le (sum_le_mismatch htemplate fun k l hk hl => ?_)
      have hoff : ¬ OnTriangle ((i : ℤ) + k) ((j : ℤ) + l) := by
        simp only [OnTriangle]
        omega
      rw [triangleEdges, if_neg hoff]
      split_ifs <;> omega

/-! ## The search in the triangle -/

section Search

variable {E : Pixel → ℤ} {b : ℤ}

/-- The columns and rows of the box around the triangle. -/
theorem edges_triangle (hE : ∀ q, OnFrame q → E q = triangleEdges b q) {i j : ℕ} (hi : i < 188)
    (hj : j < 120) : E (i, j) ≠ 0 ↔
      OnTriangle i j ∨ b ≠ 0 ∧ (i = 0 ∨ i = 187 ∨ j = 0 ∨ j = 119) := by
  have hframe : OnFrame ((i : ℤ), (j : ℤ)) := by
    simp only [OnFrame, imgWidth, imgHeight]
    omega
  have hborder : OnBorder ((i : ℤ), (j : ℤ)) ↔ i = 0 ∨ i = 187 ∨ j = 0 ∨ j = 119 := by
    simp only [OnBorder, imgWidth, imgHeight]
    omega
  rw [hE _ hframe, triangleEdges]
  split_ifs with hon hb0
  · exact iff_of_true one_ne_zero (Or.inl hon)
  · simp [hon, hborder.mp hb0]
  · simp [hon, mt hborder.mpr hb0]

theorem windowsInside_triangle (hE : ∀ q, OnFrame q → E q = triangleEdges b q) :
    (searchBox E).WindowsInside := by
  rw [searchBox_inside_iff]
  by_cases hb : b = 0
  · -- the last column is 14, and the last row 62
    refine ⟨fun m hm => ?_, fun n hn => ?_⟩
    · obtain ⟨hi, j, hj, hne⟩ := hm.1
      have hon := (edges_triangle hE hi hj).mp hne
      simp only [OnTriangle] at hon
      omega
    · obtain ⟨hj, i, hi, hne⟩ := hn.1
      have hon := (edges_triangle hE hi hj).mp hne
      simp only [OnTriangle] at hon
      omega
  · -- they are those of the frame
    have hlast : E ((187 : ℕ), (119 : ℕ)) ≠ 0 :=
      (edges_triangle hE (by decide) (by decide)).mpr (Or.inr ⟨hb, Or.inr (Or.inl rfl)⟩)
    refine ⟨fun m hm => ?_, fun n hn => ?_⟩
    · have hle : 187 ≤ m := hm.2 ⟨by decide, 119, by decide, hlast⟩
      omega
    · have hle : 119 ≤ n := hn.2 ⟨by decide, 187, by decide, hlast⟩
      omega

/-- **The window at the left side is one of the box**, as long as the border is 0. -/
theorem corner_mem_windows (hE : ∀ q, OnFrame q → E q = triangleEdges 0 q) :
    ((0 : ℤ), (57 : ℤ)) ∈ (searchBox E).windows := by
  have hfirst : E ((5 : ℕ), (62 : ℕ)) ≠ 0 :=
    (edges_triangle hE (by decide) (by decide)).mpr (Or.inl (by decide))
  have hcolumn : 5 ∈ edgeColumns E := ⟨by decide, 62, by decide, hfirst⟩
  have hrow : 62 ∈ edgeRows E := ⟨by decide, 5, by decide, hfirst⟩
  rcases extremes_spec E with ⟨hnone, -, -⟩ | hspans
  · exact absurd hcolumn (by simp [hnone])
  · have hminI := hspans.minI.2 hcolumn
    have hminJ := hspans.minJ.2 hrow
    have hmaxI := hspans.maxI.2 hcolumn
    have hmaxJ := hspans.maxJ.2 hrow
    refine mem_windows.mpr ⟨0, 57, rfl, ?_⟩
    dsimp only [searchBox]
    split_ifs <;> omega

/-- **All other windows of the box** miss more than 10 cells. -/
theorem lt_mismatch_of_mem (hE : ∀ q, OnFrame q → E q = triangleEdges b q) (hb : b = 0 ∨ b = -1)
    {t : List (List ℕ)} (ht : t ∈ cornerTemplates) {w : Pixel} (hw : w ∈ (searchBox E).windows)
    (hno : ¬ (b = 0 ∧ t = corUL ∧ w = (0, 57))) : 10 < mismatch (edgeCosts E t w) := by
  obtain ⟨i, j, rfl, hi, hi', hj, hj'⟩ := mem_windows.mp hw
  have hinside := windowsInside_triangle hE i j hi hi' hj hj'
  have hlast := hinside 10 (by decide) 10 (by decide)
  rw [edgeCosts_congr (cornerTemplates_spec t ht).1 fun k l hk hl => hE _ ?_]
  · refine lt_mismatch_triangle hb ht (by omega) (by omega) fun ⟨hb0, hUL, hi0, hj57⟩ => hno ?_
    exact ⟨hb0, hUL, by rw [hi0, hj57]; rfl⟩
  · have hcell := hinside k hk l hl
    simp only [OnFrame, imgWidth, imgHeight]
    omega

/-- **The corners of the triangle**: the upper left one, as long as the border is 0. -/
theorem getSimilarity_triangle (hE : ∀ q, OnFrame q → E q = triangleEdges b q)
    (hb : b = 0 ∨ b = -1) : getSimilarity E ⟨(0, 0), (0, 0), (0, 0), (0, 0)⟩ =
      ⟨if b = 0 then (0, 57) else (0, 0), (0, 0), (0, 0), (0, 0)⟩ := by
  obtain ⟨hul, hur, hdl, hdr⟩ := getSimilarity_found E ⟨(0, 0), (0, 0), (0, 0), (0, 0)⟩
  generalize getSimilarity E ⟨(0, 0), (0, 0), (0, 0), (0, 0)⟩ = coor at hul hur hdl hdr ⊢
  obtain ⟨ls, rs, lx, rx⟩ := coor
  dsimp only at hul hur hdl hdr
  -- three templates fit nowhere
  obtain rfl : rs = (0, 0) := hur.eq_stay fun w hw =>
    lt_mismatch_of_mem hE hb (by decide) hw fun h => absurd h.2.1 (by decide)
  obtain rfl : lx = (0, 0) := hdl.eq_stay fun w hw =>
    lt_mismatch_of_mem hE hb (by decide) hw fun h => absurd h.2.1 (by decide)
  obtain rfl : rx = (0, 0) := hdr.eq_stay fun w hw =>
    lt_mismatch_of_mem hE hb (by decide) hw fun h => absurd h.2.1 (by decide)
  split_ifs with hb0
  · subst hb0
    -- the fourth one fits at the left side, which shows a border of 0
    obtain rfl : ls = (0, 57) := by
      refine hul.eq_of_fits (corner_mem_windows hE) ?_ fun w hw hne =>
        lt_mismatch_of_mem hE hb (by decide) hw fun h => hne h.2.2
      rw [edgeCosts_congr isTemplate_cor.1 fun k l hk hl => hE _ ?_]
      · decide +kernel
      · simp only [OnFrame, imgWidth, imgHeight]
        omega
    rfl
  · obtain rfl : ls = (0, 0) := hul.eq_stay fun w hw =>
      lt_mismatch_of_mem hE hb (by decide) hw fun h => hb0 h.1
    rfl

/-- **`get_pic` on the triangle** finds a picture, as long as the border is 0. -/
theorem getPic_triangle (outside : (Pixel → ℤ) → Pixel → ℤ) {img : Pixel → ℤ}
    (himg : ∀ q, OnFrame q → OnBorder q → img q = b) (hb : b = 0 ∨ b = -1) :
    (getPic outside triangle img).1 = if b = 0 then some (35, 32) else none := by
  have hE : ∀ q, OnFrame q →
      readImg outside (sobel (twoLevels (fromCamera triangle)) img) q = triangleEdges b q :=
    fun q hq => (if_pos hq).trans (sobel_triangle_eq himg hq)
  have hcorners := getSimilarity_triangle hE hb
  unfold getPic
  dsimp only
  rw [hcorners]
  split_ifs <;> rfl

end Search

/-! ## The border after a call of `find_pic` -/

/-- A property that passes from pixel to linked pixel. -/
theorem Connected.keeps {f : Frame} {k : ℕ} {P : Pixel → Prop}
    (hstep : ∀ p q, P p → q ∈ linked f k p → P q) {x q : Pixel} (hx : P x)
    (h : Connected f k x q) : P q := by
  induction h with
  | refl => exact hx
  | tail _ hlink ih => exact hstep _ _ ih hlink

/-- Inside the outline, and on it or inside it. -/
def InsideDash (q : Pixel) : Prop := 45 ≤ q.1 ∧ q.1 ≤ 143 ∧ 25 ≤ q.2 ∧ q.2 ≤ 95
@[inherit_doc InsideDash] def WithinDash (q : Pixel) : Prop :=
  44 ≤ q.1 ∧ q.1 ≤ 144 ∧ 24 ≤ q.2 ∧ q.2 ≤ 96

theorem Neighbour.withinDash {p q : Pixel} (hp : InsideDash p) (h : Neighbour p q) :
    WithinDash q := by
  simp only [InsideDash, WithinDash, Neighbour, Near] at *
  omega

/-- A flooded region stays inside the outline. -/
theorem insideDash_of_connected {x q : Pixel} (hx : x ∈ window) (hseed : isSeed dash.field x = true)
    (h : Connected dash.field 4 x q) : InsideDash q := by
  have hstart : InsideDash x ∧ isWhite dash.field x = false := by
    refine ⟨?_, isWhite_of_isSeed hseed⟩
    obtain ⟨i, hi, hx⟩ := List.mem_flatMap.mp hx
    obtain ⟨j, hj, rfl⟩ := List.mem_map.mp hx
    rw [List.mem_range] at hi hj
    simp only [InsideDash, imgWidth, imgHeight]
    omega
  refine (h.keeps (P := fun q => InsideDash q ∧ isWhite dash.field q = false) ?_ hstart).1
  rintro p q ⟨hp, hblack⟩ hlink
  obtain ⟨hdir, hframe, hcolour⟩ := mem_linked.mp hlink
  have hwithin := (mem_dir_iff_neighbour.mp hdir).withinDash hp
  rw [hblack] at hcolour
  have hlight : ¬ dash.IsDark q.1 q.2 := fun hdark => by
    rw [(dash.isWhite_field hframe).mpr hdark] at hcolour
    exact Bool.noConfusion hcolour
  rw [isDark_dash] at hlight
  refine ⟨?_, hcolour⟩
  simp only [InsideDash, WithinDash] at *
  omega

/-- A picture stays within the outline. -/
theorem withinDash_of_connected {x q : Pixel} (hx : WithinDash x)
    (hwhite : isWhite dash.field x = true) (h : Connected dash.field 8 x q) : WithinDash q := by
  refine (h.keeps (P := fun q => WithinDash q ∧ isWhite dash.field q = true) ?_ ⟨hx, hwhite⟩).1
  rintro p q ⟨hp, hwhite⟩ hlink
  obtain ⟨hdir, hframe, hcolour⟩ := mem_linked.mp hlink
  rw [hwhite] at hcolour
  have hdark := isDark_dash.mp ((dash.isWhite_field hframe).mp hcolour)
  have hnear : ∀ d ∈ dir.take 8, (-1 ≤ d.1 ∧ d.1 ≤ 1) ∧ -1 ≤ d.2 ∧ d.2 ≤ 1 := by decide
  obtain ⟨d, hd, rfl⟩ := hdir
  have hd1 := hnear d hd
  refine ⟨?_, hcolour⟩
  simp only [WithinDash] at *
  omega

/-- **No region reaches the border.** -/
theorem Regions.withinDash {t : Labels × ℕ} {regions : List (List Pixel)}
    (h : Regions dash.field t regions) {l : List Pixel} (hl : l ∈ regions) {q : Pixel}
    (hq : q ∈ l) : WithinDash q := by
  obtain ⟨r, rs, ps, hrs, hps, rfl⟩ := h
  have hblack : ∀ m ∈ rs, ∀ p ∈ m, InsideDash p := by
    intro m hm p hp
    obtain ⟨x, hx, -, hseed, hcomp⟩ := hrs.region m hm
    exact insideDash_of_connected hx hseed ((hcomp.mem_iff p).mp hp)
  rcases List.mem_append.mp hl with hl | hl
  · have hin := hblack l hl q hq
    simp only [InsideDash, WithinDash] at hin ⊢
    omega
  · obtain ⟨x, hx, -, hwhite, hcomp⟩ := hps.picture l hl
    obtain ⟨m, hm, p, hp, hnext⟩ := (hrs.edge x).mp hx
    exact withinDash_of_connected (hnext.1.withinDash (hblack m hm p hp)) hwhite
      ((hcomp.mem_iff q).mp hq)

/-- **A call of `find_pic` leaves -1 on the border.** -/
theorem dash_border {t : Labels × ℕ} {regions : List (List Pixel)}
    (h : Regions dash.field t regions) {q : Pixel} (hq : OnBorder q) : toInt8 (t.1.img q) = -1 := by
  have hfree : t.1.img q = -1 := (h.tally.img q).mpr fun l hl hmem => by
    have hwithin := h.withinDash hl hmem
    simp only [WithinDash, OnBorder, imgWidth, imgHeight] at hwithin hq
    omega
  rw [hfree]
  rfl

/-- **`get_pic` finds the triangle after the start, and not after a call of `find_pic`.** -/
theorem getPic_differs : ∃ (outside : (Pixel → ℤ) → Pixel → ℤ) (s : Vision) (a b : Pixel → ℤ),
    Contents outside false Vision.boot a ∧ Contents outside true s b ∧
      (getPic outside triangle a).1 = some (35, 32) ∧ (getPic outside triangle b).1 = none := by
  obtain ⟨t, regions, hregions, hreturns⟩ := findPic_returns dash.acceptedAs
  refine ⟨fun _ _ => 0, _, _, _, .boot, .findPic .boot (hreturns Vision.boot [] [] (by simp)), ?_,
    ?_⟩
  · exact getPic_triangle _ (b := 0) (fun _ _ _ => rfl) (Or.inl rfl)
  · exact getPic_triangle _ (b := -1) (fun q _ hq => dash_border hregions hq) (Or.inr rfl)

end HandlingRobot
