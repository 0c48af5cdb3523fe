import HandlingRobot.Vision.Center
import HandlingRobot.Vision.StaleBorder
import Mathlib.Data.Fintype.Prod

/-! # A card in front of the robot

A photograph in which a bright upright rectangle lies on a dark ground: what `get_pic` makes of it.
The edges form a band of two pixels around the sides. A window sees at most one upright and one
level band, so there are finitely many pictures that a window can show, and the templates are
compared with all of them.

* **`Zone`**, **`zone`** — a line outside the card, on the band of a side, or further in.
* **`sobel_card`** — the edges of the card.
* **`profile`**, **`zone_profile`** — what a window shows of the zones.
* **`overspent_template`** — the finite check: only the right window fits a template.
* **`getPic_card`** — the corners of the card are found, and `get_pic` returns its centre.
* **`run_finds_card`** — so it does in every run of the program. -/

namespace HandlingRobot

/-! ## Cards -/

/-- A card in a photograph: its lower left pixel, and its size. -/
structure Card where
  left : ℤ
  bottom : ℤ
  width : ℤ
  height : ℤ

/-- The pixels of a card. -/
def Card.Covers (c : Card) (q : Pixel) : Prop :=
  (c.left ≤ q.1 ∧ q.1 < c.left + c.width) ∧ c.bottom ≤ q.2 ∧ q.2 < c.bottom + c.height

/-- **The picture lies on the card**, six pixels or more away from its sides. -/
def Card.Holds (c : Card) (picture : Set Pixel) : Prop :=
  ∀ q ∈ picture, (c.left + 6 ≤ q.1 ∧ q.1 < c.left + c.width - 6) ∧
    c.bottom + 6 ≤ q.2 ∧ q.2 < c.bottom + c.height - 6

/-- **The photograph shows the card**, with anything in the picture on it; `THRE` is 145. -/
def Card.Shown (c : Card) (picture : Set Pixel) (image : Camera) : Prop :=
  ∀ q, OnFrame q → q ∉ picture → (145 ≤ fromCamera image q.1 q.2 ↔ c.Covers q)

/-- The pixels whose edges a picture can reach. -/
def Touches (picture : Set Pixel) (q : Pixel) : Prop :=
  ∃ p ∈ picture, (q.1 - 1 ≤ p.1 ∧ p.1 ≤ q.1 + 1) ∧ q.2 - 1 ≤ p.2 ∧ p.2 ≤ q.2 + 1

/-- The card is large enough for the templates, and lies on the frame with the windows of its
corners. -/
structure Card.Fits (c : Card) : Prop where
  left : 7 ≤ c.left
  bottom : 7 ≤ c.bottom
  right : c.left + c.width ≤ 181
  top : c.bottom + c.height ≤ 113
  width : 12 ≤ c.width
  height : 12 ≤ c.height

/-- The card ends where the box of the search fits on the frame. -/
def Card.BoxFits (c : Card) : Prop :=
  ¬ (168 ≤ c.left + c.width ∧ c.left + c.width ≤ 176) ∧
    ¬ (100 ≤ c.bottom + c.height ∧ c.bottom + c.height ≤ 108)

instance (c : Card) : Decidable c.BoxFits := inferInstanceAs (Decidable (¬ _ ∧ ¬ _))

/-! ## The band -/

/-- A column or a row and the card: outside of it, on the band of a side, or further in. -/
inductive Zone
  | outside | band | inner
  deriving DecidableEq

/-- The zone of the column or row `i`, for a card of length `len` from `lo` on. -/
def zone (lo len i : ℤ) : Zone :=
  if i < lo - 1 ∨ lo + len < i then .outside
  else if lo < i ∧ i < lo + len - 1 then .inner else .band

theorem zone_past {lo len i : ℤ} (hi : lo + len < i) : zone lo len i = .outside :=
  if_pos (Or.inr hi)

/-- **Whether there is an edge**, in a column and a row of these zones. -/
def Zone.edge : Zone → Zone → ℕ
  | .outside, _ => 0
  | _, .outside => 0
  | .inner, .inner => 0
  | _, _ => 1

theorem Zone.edge_outside (z : Zone) : z.edge .outside = 0 := by
  cases z <;> rfl

/-- Whether the card covers the column or row `i`. -/
def lit (lo len i : ℤ) : ℤ := if lo ≤ i ∧ i < lo + len then 1 else 0

/-- What the zone says of a line and the two next to it. -/
def Zone.Reads (z : Zone) (x₀ x₁ x₂ : ℤ) : Prop :=
  match z with
  | .outside => x₀ = 0 ∧ x₁ = 0 ∧ x₂ = 0
  | .inner => x₀ = 1 ∧ x₁ = 1 ∧ x₂ = 1
  | .band => (x₁ = 0 ∨ x₁ = 1) ∧ (x₀ = 0 ∧ x₂ = 1 ∨ x₀ = 1 ∧ x₂ = 0)

theorem zone_reads {lo len : ℤ} (hlen : 2 ≤ len) (i : ℤ) :
    (zone lo len i).Reads (lit lo len (i - 1)) (lit lo len i) (lit lo len (i + 1)) := by
  unfold zone
  split_ifs with houtside hinner
  · refine ⟨if_neg ?_, if_neg ?_, if_neg ?_⟩ <;> omega
  · refine ⟨if_pos ?_, if_pos ?_, if_pos ?_⟩ <;> omega
  · unfold lit Zone.Reads
    constructor
    · split_ifs <;> simp
    · split_ifs <;> omega

/-- **The gradient of a product** is steep where a band meets something lit. -/
theorem gradient_product {zx zy : Zone} {x₀ x₁ x₂ y₀ y₁ y₂ : ℤ} (hx : zx.Reads x₀ x₁ x₂)
    (hy : zy.Reads y₀ y₁ y₂) :
    (if |255 * ((x₂ - x₀) * (y₀ + 2 * y₁ + y₂))| + |255 * ((x₀ + 2 * x₁ + x₂) * (y₀ - y₂))| > 89
      then 1 else 0) = (zx.edge zy : ℤ) := by
  cases zx with
  | outside =>
      obtain ⟨rfl, rfl, rfl⟩ := hx
      simp [Zone.edge]
  | inner =>
      obtain ⟨rfl, rfl, rfl⟩ := hx
      cases zy with
      | outside | inner =>
          obtain ⟨rfl, rfl, rfl⟩ := hy
          decide
      | band =>
          obtain ⟨-, ⟨rfl, rfl⟩ | ⟨rfl, rfl⟩⟩ := hy <;> simp [Zone.edge]
  | band =>
      obtain ⟨rfl | rfl, ⟨rfl, rfl⟩ | ⟨rfl, rfl⟩⟩ := hx
      all_goals
        cases zy with
        | outside | inner =>
            obtain ⟨rfl, rfl, rfl⟩ := hy
            decide
        | band =>
            obtain ⟨rfl | rfl, ⟨rfl, rfl⟩ | ⟨rfl, rfl⟩⟩ := hy <;> decide

/-- Away from the picture the frame is a product. -/
theorem twoLevels_card {c : Card} {picture : Set Pixel} {image : Camera}
    (hshown : c.Shown picture image) {i j : ℤ} (hframe : OnFrame (i, j))
    (hpicture : (i, j) ∉ picture) :
    ((twoLevels (fromCamera image) i j : ℕ) : ℤ) =
      255 * (lit c.left c.width i * lit c.bottom c.height j) := by
  have hlevel : 145 ≤ fromCamera image i j ↔ c.Covers (i, j) := hshown (i, j) hframe hpicture
  rw [twoLevels, if_pos hframe]
  by_cases hcovers : c.Covers (i, j)
  · rw [if_neg (not_lt.mpr (hlevel.mpr hcovers)), lit, lit, if_pos hcovers.1, if_pos hcovers.2]
    rfl
  · rw [if_pos (not_le.mp fun h => hcovers (hlevel.mp h))]
    by_cases hi : c.left ≤ i ∧ i < c.left + c.width
    · rw [lit, lit, if_neg fun hj => hcovers ⟨hi, hj⟩, mul_zero]
      rfl
    · rw [lit, if_neg hi, zero_mul]
      rfl

/-- **The edges of a card** that is shown. -/
theorem sobel_card {c : Card} {picture : Set Pixel} {image : Camera} (hfits : c.Fits)
    (hshown : c.Shown picture image) (img : Pixel → ℤ) {q : Pixel} (hq : OnFrame q)
    (hborder : ¬ OnBorder q) (htouches : ¬ Touches picture q) :
    sobel (twoLevels (fromCamera image)) img q =
      (zone c.left c.width q.1).edge (zone c.bottom c.height q.2) := by
  obtain ⟨i, j⟩ := q
  have hcell : ∀ x y : ℤ, i - 1 ≤ x ∧ x ≤ i + 1 → j - 1 ≤ y ∧ y ≤ j + 1 →
      ((twoLevels (fromCamera image) x y : ℕ) : ℤ) =
        255 * (lit c.left c.width x * lit c.bottom c.height y) := by
    intro x y hx hy
    refine twoLevels_card hshown ?_ fun hpicture => htouches ⟨(x, y), hpicture, hx, hy⟩
    simp only [OnFrame, OnBorder, imgWidth, imgHeight] at hq hborder ⊢
    omega
  rw [(sobel_eq _ img hq).2 hborder, ← gradient_product
    (zone_reads (by linarith [hfits.width]) i) (zone_reads (by linarith [hfits.height]) j)]
  have hx : sobelX (twoLevels (fromCamera image)) i j =
      255 * ((lit c.left c.width (i + 1) - lit c.left c.width (i - 1)) *
        (lit c.bottom c.height (j - 1) + 2 * lit c.bottom c.height j +
          lit c.bottom c.height (j + 1))) := by
    rw [sobelX, hcell, hcell, hcell, hcell, hcell, hcell]
    · ring
    all_goals omega
  have hy : sobelY (twoLevels (fromCamera image)) i j =
      255 * ((lit c.left c.width (i - 1) + 2 * lit c.left c.width i +
        lit c.left c.width (i + 1)) *
          (lit c.bottom c.height (j - 1) - lit c.bottom c.height (j + 1))) := by
    rw [sobelY, hcell, hcell, hcell, hcell, hcell, hcell]
    · ring
    all_goals omega
  rw [hx, hy]

/-! ## What a window shows -/

/-- Eleven lines in which a band begins or ends: `up` when they come from the outside, and the band
is on the lines `m - 2` and `m - 1`. -/
def profile (up : Bool) (m k : ℕ) : Zone :=
  if k + 2 < m then (if up then .outside else .inner) else if k < m then .band
  else (if up then .inner else .outside)

/-- The profile of the lines from `x` on. -/
def profileAt (lo len x : ℤ) : Bool × Fin 14 :=
  if x + 10 < lo + len - 1 then (true, ⟨min 13 (lo + 1 - x).toNat, by omega⟩)
  else (false, ⟨min 13 (lo + len + 1 - x).toNat, by omega⟩)

/-- **The zones of a window** are those of its profile. -/
theorem zone_profile {lo len : ℤ} (hlen : 12 ≤ len) (x : ℤ) {k : ℕ} (hk : k < 11) :
    zone lo len (x + k) = profile (profileAt lo len x).1 (profileAt lo len x).2 k := by
  unfold profileAt
  split_ifs with hbefore
  · show _ = profile true (min 13 (lo + 1 - x).toNat) k
    simp only [zone, profile, if_true]
    split_ifs <;> first | rfl | omega
  · show _ = profile false (min 13 (lo + len + 1 - x).toNat) k
    simp only [zone, profile, Bool.false_eq_true, if_false]
    split_ifs <;> first | rfl | omega

/-- **The edges of a line as bits**, in a column of this zone and the rows of a profile. -/
def Zone.bits (z : Zone) (up : Bool) (n : ℕ) : ℕ :=
  match z with
  | .outside => 0
  | .band => if up then 2 ^ 11 - 2 ^ (n - 2) else 2 ^ n - 1
  | .inner => 2 ^ n - 2 ^ (n - 2)

theorem Zone.bit_eq (z : Zone) (up : Bool) (n : Fin 14) {l : ℕ} (hl : l < 11) :
    z.bits up n / 2 ^ l % 2 = z.edge (profile up n l) := by
  have hall : ∀ (up : Bool) (n : Fin 14) (l : Fin 11), ∀ z ∈ [Zone.outside, .band, .inner],
      z.bits up n / 2 ^ (l : ℕ) % 2 = z.edge (profile up n l) := by decide +kernel
  exact hall up n ⟨l, hl⟩ z (by cases z <;> decide)

/-- The edges of a window, column by column. -/
def profileBits (u v : Bool × Fin 14) (k : ℕ) : ℕ := (profile u.1 u.2 k).bits v.1 v.2

/-! ## The templates -/

/-- The template of a corner. -/
def Place.template : Place → List (List ℕ)
  | .ul => corUL
  | .ur => corUR
  | .dl => corDL
  | .dr => corDR

theorem Place.isTemplate (a : Place) :
    IsTemplate a.template ∧ ∀ row ∈ a.template, ∀ c ∈ row, c ≤ 1 := by
  cases a <;> decide

/-- The profile of a window that has the lower or left side in its middle, or the other one. -/
def sideProfile : Bool → Bool × Fin 14
  | false => (true, ⟨7, by decide⟩)
  | true => (false, ⟨6, by decide⟩)

/-- **The columns and rows** of the window of a corner. -/
def Place.columns : Place → Bool × Fin 14
  | .ul | .dl => sideProfile false
  | .ur | .dr => sideProfile true
@[inherit_doc Place.columns] def Place.rows : Place → Bool × Fin 14
  | .dl | .dr => sideProfile false
  | .ul | .ur => sideProfile true

/-- **No other window fits a template**: the others miss more than two cells, even without the first
three columns and rows. -/
theorem overspent_template : ∀ (a : Place) (u v : Bool × Fin 14), u = a.columns ∧ v = a.rows ∨
    overspent (profileBits u v) 3 2 3 ((a.template.drop 3).map (List.drop 3)) = true := by
  decide +kernel

/-- The mismatch of the cells of a window with a profile. -/
def profileCosts (u v : Bool × Fin 14) (t : List (List ℕ)) : List (List ℕ) :=
  t.mapIdx fun (k : ℕ) (row : List ℕ) => row.mapIdx fun (l c : ℕ) =>
    ((((profile u.1 u.2 k).edge (profile v.1 v.2 l) : ℕ) : ℤ) - (c : ℤ)).natAbs

/-- The window of a corner misses its template in two cells at most. -/
theorem mismatch_template (a : Place) :
    mismatch (profileCosts a.columns a.rows a.template) ≤ 2 := by
  cases a <;> decide +kernel

/-! ## Windows without their first lines -/

theorem mismatch_mapIdx {α : Type*} (xs : List α) : ∀ f : ℕ → α → List ℕ,
    mismatch (xs.mapIdx f) = (xs.mapIdx fun k x => (f k x).sum).sum := by
  induction xs with
  | nil => exact fun _ => rfl
  | cons x xs ih =>
      intro f
      rw [List.mapIdx_cons, List.mapIdx_cons, List.sum_cons, ← ih, mismatch, List.flatten_cons,
        List.sum_append]
      rfl

theorem sum_mapIdx_drop_le {α : Type*} (d : ℕ) : ∀ (f : ℕ → α → ℕ) (xs : List α),
    ((xs.drop d).mapIdx fun k => f (k + d)).sum ≤ (xs.mapIdx f).sum := by
  induction d with
  | zero => exact fun f xs => le_rfl
  | succ d ih =>
      intro f xs
      cases xs with
      | nil => exact le_rfl
      | cons x xs =>
          rw [List.drop_succ_cons, List.mapIdx_cons, List.sum_cons]
          exact le_add_left (ih (fun k => f (k + 1)) xs)

/-- **Rows that cost more than they miss**: more than was left, if that is overspent. -/
theorem lt_sum_of_overspent {bits : ℕ → ℕ} {j : ℕ} (rows : List (List ℕ)) :
    ∀ (cost : ℕ → List ℕ → ℕ) {b i : ℕ}, (∀ k < rows.length, ∀ row ∈ rows[k]?,
      rowMisses (bits (i + k) / 2 ^ j) (row.drop j) ≤ cost k row) →
    overspent bits j b i (rows.map (List.drop j)) = true → b < (rows.mapIdx cost).sum := by
  induction rows with
  | nil => exact fun _ _ _ _ h => absurd h Bool.false_ne_true
  | cons row rows ih =>
      intro cost b i hcost hspent
      have hfirst := hcost 0 (Nat.succ_pos _) row rfl
      rw [Nat.add_zero] at hfirst
      rw [List.mapIdx_cons, List.sum_cons]
      rw [List.map_cons, overspent, Bool.or_eq_true, decide_eq_true_eq] at hspent
      rcases hspent with hnow | hlater
      · omega
      · have hrest := ih (fun k => cost (k + 1)) (fun k hk row' hrow' => by
          have hnext := hcost (k + 1) (Nat.succ_lt_succ hk) row' hrow'
          rwa [← Nat.add_assoc, Nat.add_right_comm] at hnext) hlater
        omega

/-- **A window of bits behind its first lines.** -/
theorem lt_mismatch_of_rest {bits : ℕ → ℕ} {img : Pixel → ℤ} {t : List (List ℕ)} {w : Pixel}
    {b d : ℕ} (ht : IsTemplate t ∧ ∀ row ∈ t, ∀ c ∈ row, c ≤ 1)
    (hcells : ∀ k l : ℕ, d ≤ k → k < 11 → d ≤ l → l < 11 →
      img (w.1 + k, w.2 + l) = ((bits k / 2 ^ l % 2 : ℕ) : ℤ))
    (h : overspent bits d b d ((t.drop d).map (List.drop d)) = true) :
    b < mismatch (edgeCosts img t w) := by
  rw [edgeCosts, mismatch_mapIdx]
  refine lt_of_lt_of_le (lt_sum_of_overspent (t.drop d) _ (fun k hk row hrow => ?_) h)
    (sum_mapIdx_drop_le d _ t)
  have hmem : row ∈ t := List.mem_of_mem_drop (List.mem_of_getElem? hrow)
  rw [List.length_drop, ht.1.1] at hk
  -- a row costs what its last cells miss
  refine le_trans (rowMisses_eq (row.drop d) _
    (fun l => img (w.1 + (k + d : ℕ), w.2 + (l + d : ℕ)))
    (fun c hc => ht.2 row hmem c (List.mem_of_mem_drop hc)) fun l hl => ?_).ge
    (sum_mapIdx_drop_le d
      (fun (l c : ℕ) => (img (w.1 + (k + d : ℕ), w.2 + l) - (c : ℤ)).natAbs) row)
  rw [List.length_drop, ht.1.2 row hmem] at hl
  rw [hcells (k + d) (l + d) (Nat.le_add_left d k) (by omega) (Nat.le_add_left d l) (by omega),
    Nat.div_div_eq_div_mul, ← pow_add, Nat.add_comm k d, Nat.add_comm l d]

/-! ## The windows of the corners -/

/-- The window of a corner. -/
def Card.window (c : Card) : Place → Pixel
  | .ul => (c.left - 6, c.bottom + c.height - 5)
  | .ur => (c.left + c.width - 5, c.bottom + c.height - 5)
  | .dl => (c.left - 6, c.bottom - 6)
  | .dr => (c.left + c.width - 5, c.bottom - 6)

/-- Only the lines of a corner have the profile of its window. -/
theorem profileAt_eq_iff (lo : ℤ) {len : ℤ} (hlen : 12 ≤ len) (x : ℤ) :
    (profileAt lo len x = sideProfile false ↔ x = lo - 6) ∧
      (profileAt lo len x = sideProfile true ↔ x = lo + len - 5) := by
  unfold profileAt
  split_ifs with hbefore
  · refine ⟨?_, iff_of_false (by simp [sideProfile]) (by omega)⟩
    rw [sideProfile, Prod.mk.injEq, Fin.mk.injEq, eq_self_iff_true, true_and]
    omega
  · refine ⟨iff_of_false (by simp [sideProfile]) (by omega), ?_⟩
    rw [sideProfile, Prod.mk.injEq, Fin.mk.injEq, eq_self_iff_true, true_and]
    omega

theorem Card.window_iff {c : Card} (hfits : c.Fits) (a : Place) (w : Pixel) :
    profileAt c.left c.width w.1 = a.columns ∧ profileAt c.bottom c.height w.2 = a.rows ↔
      w = c.window a := by
  have hx := profileAt_eq_iff c.left hfits.width w.1
  have hy := profileAt_eq_iff c.bottom hfits.height w.2
  have hpair : w = c.window a ↔ w.1 = (c.window a).1 ∧ w.2 = (c.window a).2 := Prod.ext_iff
  rw [hpair]
  cases a with
  | ul => exact and_congr hx.1 hy.2
  | ur => exact and_congr hx.2 hy.2
  | dl => exact and_congr hx.1 hy.1
  | dr => exact and_congr hx.2 hy.1

/-- **The table of edges is that of the card**, but for the border and what the picture reaches. -/
def Card.Outlined (c : Card) (picture : Set Pixel) (img : Pixel → ℤ) : Prop :=
  ∀ q, OnFrame q → ¬ OnBorder q → ¬ Touches picture q →
    img q = ((zone c.left c.width q.1).edge (zone c.bottom c.height q.2) : ℤ)

/-- **Nothing in the picture looks like a corner**: no window that sees it misses one of the
templates in two cells or less. -/
def Plain (picture : Set Pixel) (img : Pixel → ℤ) : Prop :=
  ∀ w ∈ (searchBox img).windows,
    (∃ k l : ℕ, k < 11 ∧ l < 11 ∧ Touches picture (w.1 + k, w.2 + l)) →
    ∀ a : Place, 2 < mismatch (edgeCosts img a.template w)

namespace Card

variable {c : Card} {picture : Set Pixel} {img : Pixel → ℤ}

/-- The sides of a card leave edges in the table. -/
theorem Outlined.edge (h : c.Outlined picture img) (hfits : c.Fits) (hholds : c.Holds picture)
    {i j : ℤ} (hi : i = c.left - 1 ∨ i = c.left + c.width)
    (hj : j = c.bottom - 1 ∨ j = c.bottom + c.height) : img (i, j) ≠ 0 := by
  obtain ⟨hleft, hbottom, hright, htop, hwidth, hheight⟩ := hfits
  have hband : ∀ {lo len x : ℤ}, 12 ≤ len → x = lo - 1 ∨ x = lo + len →
      zone lo len x = .band := by
    intro lo len x hlen hx
    rw [zone, if_neg (by omega), if_neg (by omega)]
  rw [h (i, j) ?_ ?_ ?_, hband hwidth hi, hband hheight hj]
  · decide
  · simp only [OnFrame, imgWidth, imgHeight]
    omega
  · simp only [OnBorder, imgWidth, imgHeight]
    omega
  · rintro ⟨p, hp, hcolumn, -⟩
    have hin := hholds p hp
    omega

/-- **The box of the search**: the windows of the corners lie in it, and where it reaches the last
column or row of the frame, there is nothing in these. -/
theorem Outlined.box (h : c.Outlined picture img) (hfits : c.Fits) (hholds : c.Holds picture) :
    (((searchBox img).minI : ℤ) ≤ c.left - 6 ∧ ((searchBox img).minJ : ℤ) ≤ c.bottom - 6 ∧
        c.left + c.width - 5 < (searchBox img).maxI ∧
        c.bottom + c.height - 5 < (searchBox img).maxJ) ∧
      (177 < (searchBox img).maxI → ∀ j : ℕ, j < 120 → img (187, j) = 0) ∧
      (109 < (searchBox img).maxJ → ∀ i : ℕ, i < 188 → img (i, 119) = 0) := by
  have hleft := hfits.left
  have hbottom := hfits.bottom
  have hright := hfits.right
  have htop := hfits.top
  have hwidth := hfits.width
  have hheight := hfits.height
  obtain ⟨x₀, hx₀⟩ := Int.eq_ofNat_of_zero_le (show 0 ≤ c.left - 1 by omega)
  obtain ⟨x₁, hx₁⟩ := Int.eq_ofNat_of_zero_le (show 0 ≤ c.left + c.width by omega)
  obtain ⟨y₀, hy₀⟩ := Int.eq_ofNat_of_zero_le (show 0 ≤ c.bottom - 1 by omega)
  obtain ⟨y₁, hy₁⟩ := Int.eq_ofNat_of_zero_le (show 0 ≤ c.bottom + c.height by omega)
  have hlow := h.edge hfits hholds (Or.inl hx₀.symm) (Or.inl hy₀.symm)
  have hhigh := h.edge hfits hholds (Or.inr hx₁.symm) (Or.inr hy₁.symm)
  have hcolumns : x₀ ∈ edgeColumns img ∧ x₁ ∈ edgeColumns img :=
    ⟨⟨by omega, y₀, by omega, hlow⟩, ⟨by omega, y₁, by omega, hhigh⟩⟩
  have hrows : y₀ ∈ edgeRows img ∧ y₁ ∈ edgeRows img :=
    ⟨⟨by omega, x₀, by omega, hlow⟩, ⟨by omega, x₁, by omega, hhigh⟩⟩
  obtain ⟨hnone, -, -⟩ | hspans := extremes_spec img
  · exact absurd hcolumns.1 (by rw [hnone]; exact Set.notMem_empty _)
  · have hminI := hspans.minI.2 hcolumns.1
    have hmaxI := hspans.maxI.2 hcolumns.2
    have hminJ := hspans.minJ.2 hrows.1
    have hmaxJ := hspans.maxJ.2 hrows.2
    unfold searchBox
    dsimp only
    refine ⟨⟨?_, ?_, ?_, ?_⟩, fun hpast j hj => ?_, fun hpast i hi => ?_⟩
    · split_ifs <;> omega
    · split_ifs <;> omega
    · split_ifs <;> omega
    · split_ifs <;> omega
    · by_contra hne
      have hlast := hspans.maxI.2 (show 187 ∈ edgeColumns img from ⟨by decide, j, hj, hne⟩)
      rw [if_neg (by omega)] at hpast
      omega
    · by_contra hne
      have hlast := hspans.maxJ.2 (show 119 ∈ edgeRows img from ⟨by decide, i, hi, hne⟩)
      rw [if_neg (by omega)] at hpast
      omega

/-- **On a clean border** no edge lies behind the card or above it. -/
theorem Outlined.within (h : c.Outlined picture img) (hholds : c.Holds picture)
    (hclean : ∀ q, OnFrame q → OnBorder q → img q = 0) {i j : ℕ} (hi : i < 188) (hj : j < 120)
    (hne : img (i, j) ≠ 0) : i ≤ c.left + c.width ∧ j ≤ c.bottom + c.height := by
  have hframe : OnFrame (i, j) := by
    simp only [OnFrame, imgWidth, imgHeight]
    omega
  have hinner : ¬ OnBorder (i, j) := fun hborder => hne (hclean _ hframe hborder)
  by_cases htouches : Touches picture (i, j)
  · obtain ⟨p, hp, hcolumn, hrow⟩ := htouches
    have hin := hholds p hp
    dsimp only at hcolumn hrow
    omega
  · rw [h _ hframe hinner htouches] at hne
    refine ⟨not_lt.mp fun hpast => hne ?_, not_lt.mp fun hpast => hne ?_⟩
    · rw [zone_past hpast]
      rfl
    · rw [zone_past hpast, Zone.edge_outside]
      rfl

/-- **On a clean border** the search stays on the frame, unless the card ends where its box does not
fit. -/
theorem Outlined.windowsInside_iff (h : c.Outlined picture img) (hfits : c.Fits)
    (hholds : c.Holds picture) (hclean : ∀ q, OnFrame q → OnBorder q → img q = 0) :
    (searchBox img).WindowsInside ↔ c.BoxFits := by
  have hleft := hfits.left
  have hbottom := hfits.bottom
  have hright := hfits.right
  have htop := hfits.top
  have hwidth := hfits.width
  have hheight := hfits.height
  obtain ⟨x, hx⟩ := Int.eq_ofNat_of_zero_le (show 0 ≤ c.left + c.width by omega)
  obtain ⟨y, hy⟩ := Int.eq_ofNat_of_zero_le (show 0 ≤ c.bottom + c.height by omega)
  have hcorner := h.edge hfits hholds (Or.inr hx.symm) (Or.inr hy.symm)
  have hm : IsGreatest (edgeColumns img) x := by
    refine ⟨⟨by omega, y, by omega, hcorner⟩, fun i hi => ?_⟩
    obtain ⟨hi188, j, hj, hne⟩ := hi
    have hbehind := (h.within hholds hclean hi188 hj hne).1
    omega
  have hn : IsGreatest (edgeRows img) y := by
    refine ⟨⟨by omega, x, by omega, hcorner⟩, fun j hj => ?_⟩
    obtain ⟨hj120, i, hi, hne⟩ := hj
    have habove := (h.within hholds hclean hi hj120 hne).2
    omega
  rw [windowsInside_iff_greatest hm hn, Card.BoxFits]
  omega

/-- **The cells of a window** that sees nothing of the picture: those of its profiles, but for the
first column and the first row of the frame. -/
theorem Outlined.cell (h : c.Outlined picture img) (hfits : c.Fits) (hholds : c.Holds picture)
    (hinside : (searchBox img).WindowsInside) {w : Pixel} (hw : w ∈ (searchBox img).windows)
    {k l : ℕ} (hk : k < 11) (hl : l < 11) (htouches : ¬ Touches picture (w.1 + k, w.2 + l))
    (hcolumn : 0 < w.1 + k) (hrow : 0 < w.2 + l) : img (w.1 + k, w.2 + l) =
      (((profile (profileAt c.left c.width w.1).1 (profileAt c.left c.width w.1).2 k).edge
        (profile (profileAt c.bottom c.height w.2).1 (profileAt c.bottom c.height w.2).2 l) : ℕ) :
        ℤ) := by
  obtain ⟨-, hlastI, hlastJ⟩ := h.box hfits hholds
  rw [← zone_profile hfits.width w.1 hk, ← zone_profile hfits.height w.2 hl]
  obtain ⟨a, b, rfl, ha, ha', hb, hb'⟩ := mem_windows.mp hw
  obtain ⟨hk188, hl120⟩ := hinside a b ha ha' hb hb' k hk l hl
  dsimp only at htouches hcolumn hrow ⊢
  by_cases hright : a + k = 187
  · -- the last column of the frame
    have hpixel : ((a : ℤ) + k, (b : ℤ) + l) = (187, ((b + l : ℕ) : ℤ)) :=
      Prod.ext (by omega) (by push_cast; rfl)
    have hpast : c.left + c.width < (a : ℤ) + k := by linarith [hfits.right]
    rw [zone_past hpast, Zone.edge, hpixel]
    exact hlastI (by omega) (b + l) hl120
  · by_cases htop : b + l = 119
    · -- the last row
      have hpixel : ((a : ℤ) + k, (b : ℤ) + l) = (((a + k : ℕ) : ℤ), 119) :=
        Prod.ext (by push_cast; rfl) (by omega)
      have hpast : c.bottom + c.height < (b : ℤ) + l := by linarith [hfits.top]
      rw [zone_past hpast, Zone.edge_outside, hpixel]
      exact hlastJ (by omega) (a + k) hk188
    · refine h (a + k, b + l) ?_ ?_ htouches
      · simp only [OnFrame, imgWidth, imgHeight]
        omega
      · simp only [OnBorder, imgWidth, imgHeight]
        omega

theorem window_mem (h : c.Outlined picture img) (hfits : c.Fits) (hholds : c.Holds picture)
    (a : Place) : c.window a ∈ (searchBox img).windows := by
  obtain ⟨⟨hminI, hminJ, hmaxI, hmaxJ⟩, -, -⟩ := h.box hfits hholds
  obtain ⟨hleft, hbottom, hright, htop, hwidth, hheight⟩ := hfits
  refine mem_windows.mpr ⟨(c.window a).1.toNat, (c.window a).2.toNat, ?_, ?_⟩
  · rw [Prod.ext_iff]
    cases a <;> simp only [window] <;> omega
  · cases a <;> simp only [window] <;> omega

/-- The windows of the corners see nothing of the picture. -/
theorem window_apart (hholds : c.Holds picture) (a : Place) {k : ℕ} (hk : k < 11) (l : ℕ) :
    ¬ Touches picture ((c.window a).1 + k, (c.window a).2 + l) := by
  rintro ⟨p, hp, hcolumn, hrow⟩
  have hin := hholds p hp
  cases a <;> simp only [window] at hcolumn hrow <;> omega

/-- **Its window fits a corner**, but for two cells. -/
theorem mismatch_window (h : c.Outlined picture img) (hfits : c.Fits) (hholds : c.Holds picture)
    (hinside : (searchBox img).WindowsInside) (a : Place) :
    mismatch (edgeCosts img a.template (c.window a)) ≤ 2 := by
  obtain ⟨hcolumns, hrows⟩ := (window_iff hfits a (c.window a)).mpr rfl
  have hcosts : edgeCosts img a.template (c.window a) =
      profileCosts a.columns a.rows a.template := by
    rw [edgeCosts, profileCosts, List.mapIdx_eq_mapIdx_iff]
    intro k hk
    rw [a.isTemplate.1.1] at hk
    rw [List.mapIdx_eq_mapIdx_iff]
    intro l hl
    rw [a.isTemplate.1.2 _ (List.getElem_mem _)] at hl
    rw [h.cell hfits hholds hinside (window_mem h hfits hholds a) hk hl
      (window_apart hholds a hk l) ?_ ?_, hcolumns, hrows]
    · have hleft := hfits.left
      have hwidth := hfits.width
      cases a <;> simp only [window] <;> omega
    · have hbottom := hfits.bottom
      have hheight := hfits.height
      cases a <;> simp only [window] <;> omega
  rw [hcosts]
  exact mismatch_template a

/-- **No other window does.** -/
theorem lt_mismatch_window (h : c.Outlined picture img) (hfits : c.Fits)
    (hholds : c.Holds picture) (hplain : Plain picture img)
    (hinside : (searchBox img).WindowsInside) (a : Place) {w : Pixel}
    (hw : w ∈ (searchBox img).windows) (hne : w ≠ c.window a) :
    2 < mismatch (edgeCosts img a.template w) := by
  by_cases hsees : ∃ k l : ℕ, k < 11 ∧ l < 11 ∧ Touches picture (w.1 + k, w.2 + l)
  · exact hplain w hw hsees a
  · have hother := (overspent_template a (profileAt c.left c.width w.1)
      (profileAt c.bottom c.height w.2)).resolve_left fun heq =>
        hne ((window_iff hfits a w).mp heq)
    refine lt_mismatch_of_rest a.isTemplate (fun k l hk hk' hl hl' => ?_) hother
    obtain ⟨i, j, rfl, -⟩ := mem_windows.mp hw
    rw [h.cell hfits hholds hinside hw hk' hl' (fun htouches => hsees ⟨k, l, hk', hl', htouches⟩)
      (by dsimp only; omega) (by dsimp only; omega), profileBits, Zone.bit_eq _ _ _ hl']

/-- **The search for a corner** ends at its window. -/
theorem found_window (h : c.Outlined picture img) (hfits : c.Fits) (hholds : c.Holds picture)
    (hplain : Plain picture img) (hinside : (searchBox img).WindowsInside) (a : Place)
    {stay r : Pixel}
    (hfound : Found 10 (fun w => mismatch (edgeCosts img a.template w)) stay
      (searchBox img).windows r) : r = c.window a := by
  have hle := mismatch_window h hfits hholds hinside a
  exact hfound.eq_of_least (window_mem h hfits hholds a) (hle.trans (by decide)) fun v hv hne =>
    lt_of_le_of_lt hle (lt_mismatch_window h hfits hholds hplain hinside a hv hne)

end Card

/-! ## The centre -/

/-- With all corners found and opposite sides that pass together, all corners are kept. -/
theorem keep_opposite {t : Tests} (hbottom : t.bottom = t.top) (hleft : t.left = t.right) :
    keep t ⟨true, true, true, true⟩ = some ⟨true, true, true, true⟩ := by
  obtain ⟨top, right, bottom, left, slash, backslash⟩ := t
  obtain rfl : bottom = top := hbottom
  obtain rfl : left = right := hleft
  cases bottom <;> cases left <;> rfl

/-- **All corners of a rectangle** are kept, whatever its size. -/
theorem keep_rectangle (x₀ x₁ y₀ y₁ : ℤ) :
    keep (Corners.tests ⟨(x₀, y₁), (x₁, y₁), (x₀, y₀), (x₁, y₀)⟩) ⟨true, true, true, true⟩ =
      some ⟨true, true, true, true⟩ := by
  have hbottom : calcDis x₀ y₀ x₁ y₀ = calcDis x₀ y₁ x₁ y₁ := by
    rw [calcDis, calcDis, sub_self, sub_self]
  have hleft : calcDis x₀ y₁ x₀ y₀ = calcDis x₁ y₁ x₁ y₀ := by
    rw [calcDis, calcDis, sub_self, sub_self]
  exact keep_opposite (congrArg isSide hbottom) (congrArg isSide hleft)

/-- **The centre of a card** from its corners, whatever its size. -/
theorem getCenter_card {c : Card} (hfits : c.Fits) :
    getCenter ⟨c.window .ul, c.window .ur, c.window .dl, c.window .dr⟩ =
      some (c.left + (c.width + 3) / 2, c.bottom + (c.height - 1) / 2) := by
  obtain ⟨hleft, hbottom, -, -, hwidth, hheight⟩ := hfits
  have hne : ∀ x y : ℤ, 0 < x → (x != 0 || y != 0) = true := fun x y hx => by
    rw [Bool.or_eq_true, bne_iff_ne]
    exact Or.inl hx.ne'
  have hfound : foundCorners ⟨c.window .ul, c.window .ur, c.window .dl, c.window .dr⟩ =
      ⟨true, true, true, true⟩ := by
    unfold foundCorners Card.window
    dsimp only
    rw [hne _ _ (by omega), hne _ _ (by omega), hne _ _ (by omega), hne _ _ (by omega)]
  have hmoved : moveCorners ⟨c.window .ul, c.window .ur, c.window .dl, c.window .dr⟩ =
      ⟨(c.left - 1, c.bottom + c.height), (c.left + c.width + 4, c.bottom + c.height),
        (c.left - 1, c.bottom - 1), (c.left + c.width + 4, c.bottom - 1)⟩ := by
    simp only [moveCorners, Card.window, Corners.mk.injEq, Prod.mk.injEq]
    omega
  rw [getCenter_eq, hfound, hmoved, keep_rectangle, Option.bind_some, centerOf]
  dsimp only
  rw [Int.tdiv_eq_ediv_of_nonneg (by omega), Int.tdiv_eq_ediv_of_nonneg (by omega),
    Option.some.injEq, Prod.mk.injEq]
  omega

/-- The table of edges that `get_pic` makes of a photograph; off the frame, what is read there. -/
def photoEdges (outside : (Pixel → ℤ) → Pixel → ℤ) (image : Camera) (img : Pixel → ℤ) :
    Pixel → ℤ := readImg outside (sobel (twoLevels (fromCamera image)) img)

theorem outlined_photo (outside : (Pixel → ℤ) → Pixel → ℤ) {image : Camera} (img : Pixel → ℤ)
    {c : Card} {picture : Set Pixel} (hfits : c.Fits) (hshown : c.Shown picture image) :
    c.Outlined picture (photoEdges outside image img) := fun _ hq hborder htouches =>
  (if_pos hq).trans (sobel_card hfits hshown img hq hborder htouches)

/-- **The search** ends at the windows of the four corners. -/
theorem photo_corners (outside : (Pixel → ℤ) → Pixel → ℤ) {image : Camera} (img : Pixel → ℤ)
    {c : Card} {picture : Set Pixel} (hfits : c.Fits) (hholds : c.Holds picture)
    (hshown : c.Shown picture image)
    (hinside : (searchBox (photoEdges outside image img)).WindowsInside)
    (hplain : Plain picture (photoEdges outside image img)) :
    getSimilarity (photoEdges outside image img) ⟨(0, 0), (0, 0), (0, 0), (0, 0)⟩ =
      ⟨c.window .ul, c.window .ur, c.window .dl, c.window .dr⟩ := by
  have hout := outlined_photo outside img hfits hshown
  obtain ⟨hul, hur, hdl, hdr⟩ := getSimilarity_found (photoEdges outside image img)
    ⟨(0, 0), (0, 0), (0, 0), (0, 0)⟩
  generalize getSimilarity (photoEdges outside image img) _ = coor at hul hur hdl hdr ⊢
  rw [← Card.found_window hout hfits hholds hplain hinside .ul hul,
    ← Card.found_window hout hfits hholds hplain hinside .ur hur,
    ← Card.found_window hout hfits hholds hplain hinside .dl hdl,
    ← Card.found_window hout hfits hholds hplain hinside .dr hdr]

theorem photo_center (outside : (Pixel → ℤ) → Pixel → ℤ) {image : Camera} (img : Pixel → ℤ)
    {c : Card} {picture : Set Pixel} (hfits : c.Fits) (hholds : c.Holds picture)
    (hshown : c.Shown picture image)
    (hinside : (searchBox (photoEdges outside image img)).WindowsInside)
    (hplain : Plain picture (photoEdges outside image img)) :
    (getPic outside image img).1 =
      some (c.left + (c.width + 3) / 2, c.bottom + (c.height - 1) / 2) := by
  rw [← getCenter_card hfits, ← photo_corners outside img hfits hholds hshown hinside hplain]
  rfl

/-- **`get_pic` finds a card that is shown**, wherever it lies and whatever its size, whatever
earlier calls have left in `img`: the search ends at the windows of its four corners, and `pic_j` is
its centre; `pic_i` is two pixels to the right of it. -/
theorem getPic_card (outside : (Pixel → ℤ) → Pixel → ℤ) (image : Camera) (img : Pixel → ℤ)
    (c : Card) (picture : Set Pixel) (hfits : c.Fits) (hholds : c.Holds picture)
    (hshown : c.Shown picture image)
    (hinside : (searchBox (photoEdges outside image img)).WindowsInside)
    (hplain : Plain picture (photoEdges outside image img)) :
    getSimilarity (photoEdges outside image img) ⟨(0, 0), (0, 0), (0, 0), (0, 0)⟩ =
        ⟨c.window .ul, c.window .ur, c.window .dl, c.window .dr⟩ ∧
      (getPic outside image img).1 =
        some (c.left + (c.width + 3) / 2, c.bottom + (c.height - 1) / 2) :=
  ⟨photo_corners outside img hfits hholds hshown hinside hplain,
    photo_center outside img hfits hholds hshown hinside hplain⟩

/-! ## Any photograph -/

/-- On a clean border the edges are those of the photograph alone. -/
theorem photoEdges_clean (outside : (Pixel → ℤ) → Pixel → ℤ) (image : Camera) {img : Pixel → ℤ}
    (hclean : ∀ q, OnFrame q → OnBorder q → img q = 0) :
    photoEdges outside image img = photoEdges outside image fun _ => 0 :=
  readImg_congr outside fun _ => SameBorder.sobel hclean _

/-- **A photograph of a card** with a picture on it. -/
structure Card.Photographed (c : Card) (picture : Set Pixel) (outside : (Pixel → ℤ) → Pixel → ℤ)
    (image : Camera) : Prop where
  fits : c.Fits
  holds : c.Holds picture
  shown : c.Shown picture image
  plain : Plain picture (photoEdges outside image fun _ => 0)

/-- The search on the edges of a photograph stays on the frame where its box fits. -/
theorem Card.Photographed.inside_iff {c : Card} {picture : Set Pixel}
    {outside : (Pixel → ℤ) → Pixel → ℤ} {image : Camera}
    (h : c.Photographed picture outside image) :
    (searchBox (photoEdges outside image fun _ => 0)).WindowsInside ↔ c.BoxFits := by
  refine (outlined_photo outside (fun _ => 0) h.fits h.shown).windowsInside_iff h.fits h.holds
    fun q hq hborder => ?_
  rw [photoEdges, readImg, if_pos hq, (sobel_eq _ _ hq).1 hborder]

/-- **In every run of the program**, which never calls `find_pic`, and whatever it has photographed
before, the search for a card stays on the frame exactly if the card ends where its box fits, and
then `get_pic` finds the card: `pic_j` is its centre, and `pic_i` is two pixels to the right. -/
theorem run_finds_card (outside : (Pixel → ℤ) → Pixel → ℤ) (s : Vision) (img : Pixel → ℤ)
    (h : Contents outside false s img) (c : Card) (picture : Set Pixel) (image : Camera)
    (hphoto : c.Photographed picture outside image) :
    ((searchBox (photoEdges outside image img)).WindowsInside ↔ c.BoxFits) ∧
      (c.BoxFits → (getPic outside image img).1 =
        some (c.left + (c.width + 3) / 2, c.bottom + (c.height - 1) / 2)) := by
  have hedges := photoEdges_clean outside image (h.border_zero rfl)
  refine ⟨?_, fun hbox => photo_center outside img hphoto.fits hphoto.holds hphoto.shown ?_ ?_⟩
  · rw [hedges]
    exact hphoto.inside_iff
  · rw [hedges]
    exact hphoto.inside_iff.mpr hbox
  · rw [hedges]
    exact hphoto.plain

/-- The card of `cardImage`. -/
def whiteCard : Card := ⟨70, 36, 48, 48⟩

theorem whiteCard_shown : whiteCard.Shown ∅ cardImage := by
  intro q _ _
  have hrow : 119 - (imgHeight - 1 - q.2) = q.2 := by
    rw [imgHeight]
    ring
  rw [fromCamera, cardImage, hrow]
  show _ ↔ (70 ≤ q.1 ∧ q.1 < 70 + 48) ∧ 36 ≤ q.2 ∧ q.2 < 36 + 48
  split_ifs <;> omega

theorem whiteCard_boxFits : whiteCard.BoxFits := by decide

theorem whiteCard_photographed : whiteCard.Photographed ∅ (fun _ _ => 0) cardImage where
  fits := by constructor <;> decide
  holds := fun q hq => absurd hq (Set.notMem_empty q)
  shown := whiteCard_shown
  plain := by
    rintro w - ⟨k, l, -, -, p, hp, -⟩
    exact absurd hp (Set.notMem_empty p)

/-- **The white card is found.** -/
theorem getPic_card_white : (getPic (fun _ _ => 0) cardImage fun _ => 0).1 = some (95, 59) :=
  (getPic_card (fun _ _ => 0) cardImage (fun _ => 0) whiteCard ∅ whiteCard_photographed.fits
    whiteCard_photographed.holds whiteCard_shown
    (whiteCard_photographed.inside_iff.mpr whiteCard_boxFits) whiteCard_photographed.plain).2

/-- It is found again, after a photograph of the ground. -/
theorem run_finds_card_white :
    (getPic (fun _ _ => 0) cardImage (getPic (fun _ _ => 0) (fun _ _ => 50) fun _ => 0).2).1 =
      some (95, 59) := by
  have hrun : Contents (fun _ _ => 0) false Vision.boot
      (getPic (fun _ _ => 0) (fun _ _ => 50) fun _ => 0).2 := .getPic (fun _ _ => 50) .boot
  exact (run_finds_card (fun _ _ => 0) _ _ hrun whiteCard ∅ cardImage whiteCard_photographed).2
    whiteCard_boxFits

end HandlingRobot
