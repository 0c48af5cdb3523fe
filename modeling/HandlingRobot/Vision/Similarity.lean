import HandlingRobot.Vision.A4
import Mathlib.Data.List.ProdSigma
import Mathlib.Order.Bounds.Basic

/-! # The corners of a picture

`get_similarity` looks for the four corners of a picture in the table of edges that `sobel` leaves
in `img`. It scans the windows of a box around the edges, with one template for each corner.

* **`corUL`**, **`corUR`**, **`corDR`**, **`corDL`** — the templates.
* **`extremes`**, **`searchBox`** — the box.
* **`searchBox_inside_iff`** — when its windows stay on the frame.
* **`getSimilarity`** — the search.
* **`corners_found`** — every corner, here and in `get_smlarA4`, is the first window of least
  mismatch. -/

namespace HandlingRobot

/-! ## The templates -/

/-- `cor_UL`, `cor_UR`, `cor_DR` and `cor_DL`. -/
def corUL : List (List ℕ) :=
  [[0, 0, 0, 0, 0, 0, 0, 0, 0, 0, 0],
   [0, 0, 0, 0, 0, 0, 0, 0, 0, 0, 0],
   [0, 0, 0, 0, 0, 0, 0, 0, 0, 0, 0],
   [0, 0, 0, 0, 0, 0, 0, 0, 0, 0, 0],
   [0, 0, 0, 0, 0, 0, 0, 0, 0, 0, 0],
   [1, 1, 1, 1, 1, 0, 0, 0, 0, 0, 0],
   [1, 1, 1, 1, 1, 1, 0, 0, 0, 0, 0],
   [0, 0, 0, 0, 1, 1, 0, 0, 0, 0, 0],
   [0, 0, 0, 0, 1, 1, 0, 0, 0, 0, 0],
   [0, 0, 0, 0, 1, 1, 0, 0, 0, 0, 0],
   [0, 0, 0, 0, 1, 1, 0, 0, 0, 0, 0]]
@[inherit_doc corUL] def corUR : List (List ℕ) :=
  [[0, 0, 0, 0, 1, 1, 0, 0, 0, 0, 0],
   [0, 0, 0, 0, 1, 1, 0, 0, 0, 0, 0],
   [0, 0, 0, 0, 1, 1, 0, 0, 0, 0, 0],
   [0, 0, 0, 0, 1, 1, 0, 0, 0, 0, 0],
   [1, 1, 1, 1, 1, 1, 0, 0, 0, 0, 0],
   [1, 1, 1, 1, 1, 0, 0, 0, 0, 0, 0],
   [0, 0, 0, 0, 0, 0, 0, 0, 0, 0, 0],
   [0, 0, 0, 0, 0, 0, 0, 0, 0, 0, 0],
   [0, 0, 0, 0, 0, 0, 0, 0, 0, 0, 0],
   [0, 0, 0, 0, 0, 0, 0, 0, 0, 0, 0],
   [0, 0, 0, 0, 0, 0, 0, 0, 0, 0, 0]]
@[inherit_doc corUL] def corDR : List (List ℕ) :=
  [[0, 0, 0, 0, 0, 1, 1, 0, 0, 0, 1],
   [0, 0, 0, 0, 0, 1, 1, 0, 0, 0, 0],
   [0, 0, 0, 0, 0, 1, 1, 0, 0, 0, 0],
   [0, 0, 0, 0, 0, 1, 1, 0, 0, 0, 0],
   [0, 0, 0, 0, 0, 1, 1, 1, 1, 1, 1],
   [0, 0, 0, 0, 0, 1, 1, 1, 1, 1, 1],
   [0, 0, 0, 0, 0, 0, 0, 0, 0, 0, 0],
   [0, 0, 0, 0, 0, 0, 0, 0, 0, 0, 0],
   [0, 0, 0, 0, 0, 0, 0, 0, 0, 0, 0],
   [0, 0, 0, 0, 0, 0, 0, 0, 0, 0, 0],
   [0, 0, 0, 0, 0, 0, 0, 0, 0, 0, 0]]
@[inherit_doc corUL] def corDL : List (List ℕ) :=
  [[0, 0, 0, 0, 0, 0, 0, 0, 0, 0, 0],
   [0, 0, 0, 0, 0, 0, 0, 0, 0, 0, 0],
   [0, 0, 0, 0, 0, 0, 0, 0, 0, 0, 0],
   [0, 0, 0, 0, 0, 0, 0, 0, 0, 0, 0],
   [0, 0, 0, 0, 0, 0, 0, 0, 0, 0, 0],
   [0, 0, 0, 0, 0, 0, 1, 1, 1, 1, 1],
   [0, 0, 0, 0, 0, 1, 1, 1, 1, 1, 1],
   [0, 0, 0, 0, 0, 1, 1, 1, 0, 0, 0],
   [0, 0, 0, 0, 0, 1, 1, 0, 0, 0, 0],
   [0, 0, 0, 0, 0, 1, 1, 0, 0, 0, 0],
   [0, 0, 0, 0, 0, 1, 1, 0, 0, 0, 0]]

theorem isTemplate_cor : IsTemplate corUL ∧ IsTemplate corUR ∧ IsTemplate corDR ∧
    IsTemplate corDL := by
  decide

/-! ## The box of the search -/

/-- `min_i`, `min_j`, `max_i` and `max_j`. -/
structure Box where
  minI : ℕ
  minJ : ℕ
  maxI : ℕ
  maxJ : ℕ
  deriving Repr, DecidableEq

/-- The columns and rows of the frame, in the order of the loops. -/
def scanOrder : List (ℕ × ℕ) := List.range 188 ×ˢ List.range 120

/-- One cell of the first loop; the flag is `flag_`. -/
def extremesStep (img : Pixel → ℤ) (a : Box × Bool) (p : ℕ × ℕ) : Box × Bool :=
  if img (p.1, p.2) = 0 then a
  else
    let (b, flag) := if a.2 then a else ({ a.1 with minI := p.1, minJ := p.2 }, true)
    (⟨if b.minI > p.1 then p.1 else b.minI, if b.minJ > p.2 then p.2 else b.minJ,
      if b.maxI < p.1 then p.1 else b.maxI, if b.maxJ < p.2 then p.2 else b.maxJ⟩, flag)

/-- The first loop of `get_similarity`: the box of the edges, all 0 without an edge. -/
def extremes (img : Pixel → ℤ) : Box :=
  (scanOrder.foldl (extremesStep img) (⟨0, 0, 0, 0⟩, false)).1

/-- **The box of the search**, from the box of the edges. -/
def searchBox (img : Pixel → ℤ) : Box :=
  let b := extremes img
  ⟨if b.minI - 11 > 0 then b.minI - 11 else 0, if b.minJ - 11 > 0 then b.minJ - 11 else 0,
    if b.maxI + 11 < 188 then b.maxI + 11 else 188 - 11,
    if b.maxJ + 11 < 120 then b.maxJ + 11 else 120 - 11⟩

/-- The columns and the rows that hold an edge. -/
def edgeColumns (img : Pixel → ℤ) : Set ℕ := {i | i < 188 ∧ ∃ j : ℕ, j < 120 ∧ img (i, j) ≠ 0}
@[inherit_doc edgeColumns] def edgeRows (img : Pixel → ℤ) : Set ℕ :=
  {j | j < 120 ∧ ∃ i : ℕ, i < 188 ∧ img (i, j) ≠ 0}

/-- **The box spans these columns and rows.** -/
structure Box.Spans (b : Box) (columns rows : Set ℕ) : Prop where
  minI : IsLeast columns b.minI
  minJ : IsLeast rows b.minJ
  maxI : IsGreatest columns b.maxI
  maxJ : IsGreatest rows b.maxJ

/-- **The box of some cells**, and whether there were any. -/
def Spanned (cells : Set (ℕ × ℕ)) (a : Box × Bool) : Prop :=
  (cells = ∅ ∧ a = (⟨0, 0, 0, 0⟩, false)) ∨
    (a.2 = true ∧ a.1.Spans (Prod.fst '' cells) (Prod.snd '' cells))

/-- The loop takes over a smaller and a greater coordinate. -/
theorem takeLess_eq (a b : ℕ) : (if b > a then a else b) = min a b := by
  split_ifs <;> omega

theorem takeGreater_eq (a b : ℕ) : (if b < a then a else b) = max a b := by
  split_ifs <;> omega

/-- **One cell more.** -/
theorem Spanned.step {img : Pixel → ℤ} {cells : Set (ℕ × ℕ)} {a : Box × Bool}
    (h : Spanned cells a) {p : ℕ × ℕ} (hp : img (p.1, p.2) ≠ 0) :
    Spanned (insert p cells) (extremesStep img a p) := by
  right
  rw [extremesStep, if_neg hp, Set.image_insert_eq, Set.image_insert_eq]
  simp only [takeLess_eq, takeGreater_eq]
  rcases h with ⟨rfl, rfl⟩ | ⟨hflag, hspans⟩
  · -- the first edge of all
    simp only [Bool.false_eq_true, if_false, Set.image_empty, insert_empty_eq, min_self]
    rw [max_eq_left (Nat.zero_le p.1), max_eq_left (Nat.zero_le p.2)]
    exact ⟨trivial, isLeast_singleton, isLeast_singleton, isGreatest_singleton,
      isGreatest_singleton⟩
  · obtain ⟨b, flag⟩ := a
    obtain rfl : flag = true := hflag
    exact ⟨rfl, hspans.minI.insert p.1, hspans.minJ.insert p.2, hspans.maxI.insert p.1,
      hspans.maxJ.insert p.2⟩

/-- The edges among some cells. -/
def edgesOf (img : Pixel → ℤ) (l : List (ℕ × ℕ)) : Set (ℕ × ℕ) :=
  {p | p ∈ l ∧ img (p.1, p.2) ≠ 0}

/-- **The loop spans the edges it has passed**, by induction on the cells. -/
theorem spanned_foldl (img : Pixel → ℤ) (l : List (ℕ × ℕ)) :
    Spanned (edgesOf img l) (l.foldl (extremesStep img) (⟨0, 0, 0, 0⟩, false)) := by
  induction l using List.reverseRecOn with
  | nil => exact Or.inl ⟨by simp [edgesOf], rfl⟩
  | append_singleton l p ih =>
      rw [List.foldl_append, List.foldl_cons, List.foldl_nil]
      -- a cell without an edge changes nothing
      by_cases hp : img (p.1, p.2) = 0
      · have hsame : edgesOf img (l ++ [p]) = edgesOf img l := by
          ext q
          simp only [edgesOf, List.mem_append, List.mem_singleton, Set.mem_ofPred_eq]
          refine ⟨fun ⟨hq, hne⟩ => ⟨hq.resolve_right fun heq => hne (heq ▸ hp), hne⟩,
            fun ⟨hq, hne⟩ => ⟨Or.inl hq, hne⟩⟩
        rw [hsame, extremesStep, if_pos hp]
        exact ih
      · have hmore : edgesOf img (l ++ [p]) = insert p (edgesOf img l) := by
          ext q
          simp only [edgesOf, List.mem_append, List.mem_singleton, Set.mem_ofPred_eq,
            Set.mem_insert_iff]
          constructor
          · rintro ⟨hq | hq, hne⟩
            · exact Or.inr ⟨hq, hne⟩
            · exact Or.inl hq
          · rintro (rfl | ⟨hq, hne⟩)
            · exact ⟨Or.inr rfl, hp⟩
            · exact ⟨Or.inl hq, hne⟩
        rw [hmore]
        exact ih.step hp

theorem image_edgesOf (img : Pixel → ℤ) :
    Prod.fst '' edgesOf img scanOrder = edgeColumns img ∧
      Prod.snd '' edgesOf img scanOrder = edgeRows img := by
  constructor <;> ext n
  all_goals
    simp only [edgesOf, scanOrder, edgeColumns, edgeRows, Set.mem_image, Set.mem_ofPred_eq,
      Prod.exists, List.mem_product, List.mem_range]
  · constructor
    · rintro ⟨i, j, ⟨⟨hi, hj⟩, hne⟩, rfl⟩
      exact ⟨hi, j, hj, hne⟩
    · rintro ⟨hi, j, hj, hne⟩
      exact ⟨n, j, ⟨⟨hi, hj⟩, hne⟩, rfl⟩
  · constructor
    · rintro ⟨i, j, ⟨⟨hi, hj⟩, hne⟩, rfl⟩
      exact ⟨hj, i, hi, hne⟩
    · rintro ⟨hj, i, hi, hne⟩
      exact ⟨i, n, ⟨⟨hi, hj⟩, hne⟩, rfl⟩

-- as functions: to compare the values would be to run the loop
theorem extremes_eq (img : Pixel → ℤ) :
    extremes img = (scanOrder.foldl (extremesStep img) (⟨0, 0, 0, 0⟩, false)).1 :=
  congrFun (show extremes = fun img =>
    (scanOrder.foldl (extremesStep img) (⟨0, 0, 0, 0⟩, false)).1 from rfl) img

/-- **The box of the edges** spans them, and is all 0 without an edge. -/
theorem extremes_spec (img : Pixel → ℤ) :
    (edgeColumns img = ∅ ∧ edgeRows img = ∅ ∧ extremes img = ⟨0, 0, 0, 0⟩) ∨
      (extremes img).Spans (edgeColumns img) (edgeRows img) := by
  rw [extremes_eq, ← (image_edgesOf img).1, ← (image_edgesOf img).2]
  rcases spanned_foldl img scanOrder with ⟨hnone, hbox⟩ | ⟨-, hspans⟩
  · left
    rw [hnone, Set.image_empty, Set.image_empty, hbox]
    exact ⟨rfl, rfl, rfl⟩
  · exact Or.inr hspans

/-! ## The windows of the box -/

/-- All cells of all windows of the box lie on the frame. -/
def Box.WindowsInside (b : Box) : Prop :=
  ∀ i j, b.minI ≤ i → i < b.maxI → b.minJ ≤ j → j < b.maxJ →
    ∀ k < 11, ∀ l < 11, i + k < 188 ∧ j + l < 120

/-- For a box that is not empty the last window decides. -/
theorem Box.windowsInside_iff {b : Box} (hi : b.minI < b.maxI) (hj : b.minJ < b.maxJ) :
    b.WindowsInside ↔ b.maxI ≤ 178 ∧ b.maxJ ≤ 110 := by
  constructor
  · intro h
    have hlast := h (b.maxI - 1) (b.maxJ - 1) (by omega) (by omega) (by omega) (by omega) 10
      (by omega) 10 (by omega)
    omega
  · intro h i j hi0 hi1 hj0 hj1 k hk l hl
    omega

/-- The windows of the box, when there is an edge. -/
theorem windowsInside_iff_greatest {img : Pixel → ℤ} {m n : ℕ}
    (hm : IsGreatest (edgeColumns img) m) (hn : IsGreatest (edgeRows img) n) :
    (searchBox img).WindowsInside ↔ ¬ (168 ≤ m ∧ m ≤ 176) ∧ ¬ (100 ≤ n ∧ n ≤ 108) := by
  rcases extremes_spec img with ⟨hcolumns, -, -⟩ | hspans
  · exact absurd hm.1 (by simp [hcolumns])
  · have hminI := hspans.minI.2 hm.1
    have hminJ := hspans.minJ.2 hn.1
    have hmaxI := hspans.maxI.unique hm
    have hmaxJ := hspans.maxJ.unique hn
    have hm188 : m < 188 := hm.1.1
    have hn120 : n < 120 := hn.1.1
    -- both growing and pinning leave the box with a window
    rw [searchBox, Box.windowsInside_iff]
    all_goals
      dsimp only
      split_ifs <;> omega

/-- **The windows of the box lie on the frame** unless the last column with an edge is one of 168
to 176, or the last row one of 100 to 108. -/
theorem searchBox_inside_iff (img : Pixel → ℤ) :
    (searchBox img).WindowsInside ↔
      (∀ m, IsGreatest (edgeColumns img) m → ¬ (168 ≤ m ∧ m ≤ 176)) ∧
        (∀ n, IsGreatest (edgeRows img) n → ¬ (100 ≤ n ∧ n ≤ 108)) := by
  rcases extremes_spec img with ⟨hcolumns, hrows, hbox⟩ | hspans
  · have hinside : (searchBox img).WindowsInside := by
      rw [searchBox, hbox, Box.windowsInside_iff] <;> decide
    refine iff_of_true hinside ⟨fun m hm => ?_, fun n hn => ?_⟩
    · exact absurd hm.1 (by simp [hcolumns])
    · exact absurd hn.1 (by simp [hrows])
  · rw [windowsInside_iff_greatest hspans.maxI hspans.maxJ]
    constructor
    · rintro ⟨hm, hn⟩
      exact ⟨fun m h => h.unique hspans.maxI ▸ hm, fun n h => h.unique hspans.maxJ ▸ hn⟩
    · exact fun ⟨hm, hn⟩ => ⟨hm _ hspans.maxI, hn _ hspans.maxJ⟩

/-- The edges of a frame that is dark up to column 175 and bright behind it. -/
def stepEdges (q : Pixel) : ℤ := if (q.1 = 175 ∨ q.1 = 176) ∧ 1 ≤ q.2 ∧ q.2 ≤ 118 then 1 else 0

theorem stepEdges_ne_zero {q : Pixel} :
    stepEdges q ≠ 0 ↔ (q.1 = 175 ∨ q.1 = 176) ∧ 1 ≤ q.2 ∧ q.2 ≤ 118 := by
  simp [stepEdges]

/-- **The box around such edges** has windows that leave the frame. -/
theorem searchBox_leaves_frame : ¬ (searchBox stepEdges).WindowsInside := by
  have hm : IsGreatest (edgeColumns stepEdges) 176 := by
    refine ⟨⟨by decide, 50, by decide, by decide⟩, fun i hi => ?_⟩
    obtain ⟨-, j, -, hne⟩ := hi
    have hcell := stepEdges_ne_zero.mp hne
    omega
  have hn : IsGreatest (edgeRows stepEdges) 118 := by
    refine ⟨⟨by decide, 176, by decide, by decide⟩, fun j hj => ?_⟩
    obtain ⟨-, i, -, hne⟩ := hj
    have hcell := stepEdges_ne_zero.mp hne
    omega
  rw [windowsInside_iff_greatest hm hn]
  omega

/-! ## The search -/

/-- The mismatch of the cells of a window at `w`. -/
def edgeCosts (img : Pixel → ℤ) (t : List (List ℕ)) (w : Pixel) : List (List ℕ) :=
  t.mapIdx fun (k : ℕ) (row : List ℕ) => row.mapIdx fun (l c : ℕ) =>
    (img (w.1 + k, w.2 + l) - (c : ℤ)).natAbs

/-- `smlar_UL`, `smlar_UR`, `smlar_DL` and `smlar_DR`, each with its entry of `coor`. -/
structure Scores where
  ul : ℕ × Pixel
  ur : ℕ × Pixel
  dl : ℕ × Pixel
  dr : ℕ × Pixel

/-- One window, with all four templates. -/
def similarityStep (img : Pixel → ℤ) (a : Scores) (w : Pixel) : Scores :=
  let a := { a with ul := searchStep 10 (11 * 11) (edgeCosts img corUL) a.ul w }
  let a := { a with ur := searchStep 10 (11 * 11) (edgeCosts img corUR) a.ur w }
  let a := { a with dr := searchStep 10 (11 * 11) (edgeCosts img corDR) a.dr w }
  { a with dl := searchStep 10 (11 * 11) (edgeCosts img corDL) a.dl w }

/-- The windows of the box, column by column. -/
def Box.windows (b : Box) : List Pixel := HandlingRobot.windows b.minI b.maxI b.minJ b.maxJ

/-- **`get_similarity`**, with the entries of `coor` before and after it: upper left, upper right,
lower left and lower right. -/
def getSimilarity (img : Pixel → ℤ) (coor : Corners) : Corners :=
  let a := (searchBox img).windows.foldl (similarityStep img)
    ⟨(100, coor.ls), (100, coor.rs), (100, coor.lx), (100, coor.rx)⟩
  ⟨a.ul.2, a.ur.2, a.dl.2, a.dr.2⟩

/-- The four searches do not touch each other. -/
theorem foldl_similarityStep (img : Pixel → ℤ) (ws : List Pixel) : ∀ a : Scores,
    ws.foldl (similarityStep img) a =
      ⟨search 10 (11 * 11) (edgeCosts img corUL) a.ul ws,
        search 10 (11 * 11) (edgeCosts img corUR) a.ur ws,
        search 10 (11 * 11) (edgeCosts img corDL) a.dl ws,
        search 10 (11 * 11) (edgeCosts img corDR) a.dr ws⟩ := by
  induction ws with
  | nil => exact fun a => rfl
  | cons w ws ih =>
      intro a
      rw [List.foldl_cons, ih]
      simp only [similarityStep, search, List.foldl_cons]

/-- A search of `get_similarity`. -/
theorem edge_search_found {t : List (List ℕ)} (ht : IsTemplate t) (img : Pixel → ℤ) (stay : Pixel)
    (ws : List Pixel) :
    Found 10 (fun w => mismatch (edgeCosts img t w)) stay ws
      (search 10 (11 * 11) (edgeCosts img t) (100, stay) ws).2 :=
  search_found (fun _ => flatten_mapIdx_length ht _) (show 10 < 100 by decide) ws

/-- The four corners, each from a search of its own. -/
theorem getSimilarity_eq (img : Pixel → ℤ) (coor : Corners) : getSimilarity img coor =
    ⟨(search 10 (11 * 11) (edgeCosts img corUL) (100, coor.ls) (searchBox img).windows).2,
      (search 10 (11 * 11) (edgeCosts img corUR) (100, coor.rs) (searchBox img).windows).2,
      (search 10 (11 * 11) (edgeCosts img corDL) (100, coor.lx) (searchBox img).windows).2,
      (search 10 (11 * 11) (edgeCosts img corDR) (100, coor.rx) (searchBox img).windows).2⟩ := by
  have hfold : getSimilarity = fun img coor =>
      let a := (searchBox img).windows.foldl (similarityStep img)
        ⟨(100, coor.ls), (100, coor.rs), (100, coor.lx), (100, coor.rx)⟩
      ⟨a.ul.2, a.ur.2, a.dl.2, a.dr.2⟩ := rfl
  simp only [hfold, foldl_similarityStep]

/-- Four results, with what is known of each. -/
theorem Corners.each {c : Corners} {ul ur dl dr : ℕ × Pixel} (h : c = ⟨ul.2, ur.2, dl.2, dr.2⟩)
    (P Q R S : Pixel → Prop) (hul : P ul.2) (hur : Q ur.2) (hdl : R dl.2) (hdr : S dr.2) :
    P c.ls ∧ Q c.rs ∧ R c.lx ∧ S c.rx := by
  subst h
  exact ⟨hul, hur, hdl, hdr⟩

/-- **What `get_similarity` finds.** -/
theorem getSimilarity_found (img : Pixel → ℤ) (coor : Corners) :
    Found 10 (fun w => mismatch (edgeCosts img corUL w)) coor.ls (searchBox img).windows
        (getSimilarity img coor).ls ∧
      Found 10 (fun w => mismatch (edgeCosts img corUR w)) coor.rs (searchBox img).windows
        (getSimilarity img coor).rs ∧
      Found 10 (fun w => mismatch (edgeCosts img corDL w)) coor.lx (searchBox img).windows
        (getSimilarity img coor).lx ∧
      Found 10 (fun w => mismatch (edgeCosts img corDR w)) coor.rx (searchBox img).windows
        (getSimilarity img coor).rx := by
  obtain ⟨hul, hur, hdr, hdl⟩ := isTemplate_cor
  apply Corners.each (getSimilarity_eq img coor)
    (Found 10 (fun w => mismatch (edgeCosts img corUL w)) coor.ls (searchBox img).windows)
    (Found 10 (fun w => mismatch (edgeCosts img corUR w)) coor.rs (searchBox img).windows)
    (Found 10 (fun w => mismatch (edgeCosts img corDL w)) coor.lx (searchBox img).windows)
    (Found 10 (fun w => mismatch (edgeCosts img corDR w)) coor.rx (searchBox img).windows)
  · exact edge_search_found hul img coor.ls _
  · exact edge_search_found hur img coor.rs _
  · exact edge_search_found hdl img coor.lx _
  · exact edge_search_found hdr img coor.rx _

/-- A search of `get_smlarA4`. -/
theorem bestWindow_found {t : List (List ℕ)} (ht : IsTemplate t) (f : Frame) (ws : List Pixel) :
    Found 4 (fun w => mismatch (cellCosts f t w)) (0, 0) ws (bestWindow f t ws) :=
  search_found (cellCosts_length ht f) (show 4 < 100 by decide) ws

/-- **The searches for the corners find the first window of least mismatch**, if that is at most 10
in `get_similarity` and at most 4 in `get_smlarA4`, and `(0, 0)` otherwise. The tables `img` and
`f` hold any values off the frame. -/
theorem corners_found (img : Pixel → ℤ) (f : Frame) :
    (∃ ul ur dl dr : Pixel,
      getSimilarity img ⟨(0, 0), (0, 0), (0, 0), (0, 0)⟩ = ⟨ul, ur, dl, dr⟩ ∧
      Found 10 (fun w => mismatch (edgeCosts img corUL w)) (0, 0) (searchBox img).windows ul ∧
      Found 10 (fun w => mismatch (edgeCosts img corUR w)) (0, 0) (searchBox img).windows ur ∧
      Found 10 (fun w => mismatch (edgeCosts img corDL w)) (0, 0) (searchBox img).windows dl ∧
      Found 10 (fun w => mismatch (edgeCosts img corDR w)) (0, 0) (searchBox img).windows dr) ∧
    ∃ ul ur dl dr : Pixel,
      getSmlarA4 f = ⟨(ul.1 + 1, ul.2 + 9), (ur.1 + 9, ur.2 + 9), (dl.1 + 1, dl.2 + 1),
        (dr.1 + 9, dr.2 + 1)⟩ ∧
      Found 4 (fun w => mismatch (cellCosts f a4UL w)) (0, 0) (windows 0 94 60 120) ul ∧
      Found 4 (fun w => mismatch (cellCosts f a4UR w)) (0, 0) (windows 94 188 60 120) ur ∧
      Found 4 (fun w => mismatch (cellCosts f a4DL w)) (0, 0) (windows 0 94 0 60) dl ∧
      Found 4 (fun w => mismatch (cellCosts f a4DR w)) (0, 0) (windows 94 188 0 60) dr := by
  obtain ⟨hUL, hUR, hDR, hDL⟩ := isTemplate_a4
  have hfound := getSimilarity_found img ⟨(0, 0), (0, 0), (0, 0), (0, 0)⟩
  generalize getSimilarity img ⟨(0, 0), (0, 0), (0, 0), (0, 0)⟩ = coor at hfound ⊢
  obtain ⟨ul, ur, dl, dr⟩ := coor
  refine ⟨⟨ul, ur, dl, dr, rfl, hfound⟩, bestWindow f a4UL (windows 0 94 60 120),
    bestWindow f a4UR (windows 94 188 60 120), bestWindow f a4DL (windows 0 94 0 60),
    bestWindow f a4DR (windows 94 188 0 60), by rw [getSmlarA4], bestWindow_found hUL f _,
    bestWindow_found hUR f _, bestWindow_found hDL f _, bestWindow_found hDR f _⟩

end HandlingRobot
