import HandlingRobot.Vision.Coarse
import HandlingRobot.Vision.Repeat

/-! # Where a picture is reported

Around the node that the coarse search leaves, `find_pic` tries the points of the field in steps of
a thousandth and keeps the one nearest to the picture. On an accepted field the distance in the
frame bounds the distance on the field, so the position reported is close to the true one.

* **`fineNodes`** — the points tried; **`fine_nearest`** — the one kept is nearest.
* **`Corners.distSq_near`**, **`Corners.le_distSq`** — the distance in the frame, from above and
  from below, in terms of the coordinates on the field.
* **`locate_near`** — the position is within 2 of the true one, on a field of 700 times 500.
* **`findPic_cells`** — so every call reports the right cell for a picture that is not close to the
  border of its cell. -/

namespace HandlingRobot

/-! ## The points tried -/

/-- The points that the fine search tries around a node, in the order of its loops. -/
def fineNodes (tmp : ℤ × ℤ) : List Node :=
  (lams ((tmp.1 - 1) / xNum) ((tmp.1 + 1) / xNum)).flatMap fun lamX =>
    (lams ((tmp.2 - 1) / yNum) ((tmp.2 + 1) / yNum)).map fun lamY => ⟨lamX, lamY⟩

/-- The two loops are one scan. -/
theorem fine_eq_scan (c : Corners) (p : Node) (tmp : ℤ × ℤ) :
    fine c p tmp = ((fineNodes tmp).foldl (fun r q =>
      if diss (fieldPoint c q.x q.y) p < r.1 then (diss (fieldPoint c q.x q.y) p, q) else r)
      ((inf : ℚ), ⟨0, 0⟩)).2 := by
  unfold fine fineNodes
  rw [List.foldl_flatMap]
  simp only [List.foldl_map]

/-- **The point kept is nearest**, once some point is nearer than `inf`. -/
theorem fine_nearest (c : Corners) (p : Node) (tmp : ℤ × ℤ) {q : Node} (hq : q ∈ fineNodes tmp)
    (hinf : diss (fieldPoint c q.x q.y) p < (inf : ℚ)) :
    fine c p tmp ∈ fineNodes tmp ∧ ∀ r ∈ fineNodes tmp,
      diss (fieldPoint c (fine c p tmp).x (fine c p tmp).y) p ≤ diss (fieldPoint c r.x r.y) p := by
  have hscan := Scanned.foldl (fun q : Node => diss (fieldPoint c q.x q.y) p) ((inf : ℚ), ⟨0, 0⟩)
    (fineNodes tmp)
  obtain ⟨hmem, hval⟩ := hscan.attained hq hinf
  rw [fine_eq_scan]
  exact ⟨hmem, fun r hr => hval.trans_le (hscan.least r hr)⟩

/-- A loop counter stays between its bounds. -/
theorem mem_lams_bounds {lo hi l : ℚ} (h : lo ≤ hi) (hl : l ∈ lams lo hi) : lo ≤ l ∧ l ≤ hi := by
  obtain ⟨k, hk, rfl⟩ := List.mem_map.mp hl
  rw [List.mem_range, Nat.lt_succ_iff, Nat.le_floor_iff (by linarith)] at hk
  have hnn : (0 : ℚ) ≤ k := Nat.cast_nonneg k
  exact ⟨by linarith, by linarith⟩

/-- **The points tried lie on the field** when the node is an interior one. -/
theorem fineNodes_unit {i j : ℕ} (hin : Patch.Interior xNum yNum i j) {q : Node}
    (hq : q ∈ fineNodes (i, j)) : (0 ≤ q.x ∧ q.x ≤ 1) ∧ (0 ≤ q.y ∧ q.y ≤ 1) := by
  have hunit : ∀ {m i : ℕ} {l : ℚ}, 1 ≤ i ∧ i < m →
      l ∈ lams ((((i : ℤ) : ℚ) - 1) / m) ((((i : ℤ) : ℚ) + 1) / m) → 0 ≤ l ∧ l ≤ 1 := by
    intro m i l hi hl
    have hm : (0 : ℚ) < m := by exact_mod_cast (by omega : 0 < m)
    have hlo : (1 : ℚ) ≤ (i : ℤ) := by exact_mod_cast hi.1
    have hhi : ((i : ℤ) : ℚ) + 1 ≤ m := by exact_mod_cast hi.2
    obtain ⟨h1, h2⟩ := mem_lams_bounds (by gcongr; linarith) hl
    exact ⟨h1.trans' (div_nonneg (by linarith) hm.le), h2.trans ((div_le_one hm).mpr hhi)⟩
  obtain ⟨lamX, hx, hq⟩ := List.mem_flatMap.mp hq
  obtain ⟨lamY, hy, rfl⟩ := List.mem_map.mp hq
  exact ⟨hunit hin.1 hx, hunit hin.2 hy⟩

/-! ## Distances in the frame and on the field -/

section Distance

variable {K : Type*} [Field K] [LinearOrder K] [IsStrictOrderedRing K]

/-- **Points that are close on the field are close in the frame.** -/
theorem Corners.distSq_near {c : Corners} (h : c.accepted = true) {a b x y r : K}
    (ha : 0 ≤ a ∧ a ≤ 1) (hy : 0 ≤ y ∧ y ≤ 1) (hax : |a - x| ≤ r) (hby : |b - y| ≤ r) :
    Patch.distSq ((c.patch K).point a b) ((c.patch K).point x y) ≤
      r ^ 2 * (132 ^ 2 + 97 ^ 2) := by
  obtain ⟨⟨-, hwide⟩, hlevel⟩ := across_bounds (K := K) h hy.1 hy.2
  obtain ⟨⟨-, hhigh⟩, hupright⟩ := up_bounds (K := K) h ha.1 ha.2
  have hr : 0 ≤ r := (abs_nonneg _).trans hax
  have hmul : ∀ {d v w : K}, |d| ≤ r → |v| ≤ w → |d * v| ≤ r * w := by
    intro d v w hd hv
    rw [abs_mul]
    exact mul_le_mul hd hv (abs_nonneg v) hr
  have hsum : ∀ {p q v w : K}, |p| ≤ v → |q| ≤ w → (p + q) * (p + q) ≤ (v + w) ^ 2 := by
    intro p q v w hp hq
    rw [← sq, ← sq_abs]
    exact pow_le_pow_left₀ (abs_nonneg _) ((abs_add_le p q).trans (add_le_add hp hq)) 2
  unfold Patch.distSq
  rw [(Patch.point_sub _ a b x y).1, (Patch.point_sub _ a b x y).2]
  have hcol := hsum (hmul hax hwide) (hmul hby hupright)
  have hrow := hsum (hmul hax hlevel) (hmul hby hhigh)
  linarith

/-- **Points that are close in the frame are close on the field**: the vectors along the
coordinate lines are long, and nearly perpendicular. -/
theorem Corners.le_distSq {c : Corners} (h : c.accepted = true) {a b x y : K}
    (ha : 0 ≤ a ∧ a ≤ 1) (hy : 0 ≤ y ∧ y ≤ 1) :
    3922 * (a - x) ^ 2 ≤ Patch.distSq ((c.patch K).point a b) ((c.patch K).point x y) ∧
      1848 * (b - y) ^ 2 ≤ Patch.distSq ((c.patch K).point a b) ((c.patch K).point x y) := by
  have hE := le_dot_self (r := 67) (by norm_num)
    (Or.inl (across_bounds (K := K) h hy.1 hy.2).1.1)
  have hG := le_dot_self (r := 46) (by norm_num) (Or.inr (up_bounds (K := K) h ha.1 ha.2).1.1)
  have hF := abs_dot_le (K := K) h ha.1 ha.2 hy.1 hy.2
  have hform := (c.patch K).distSq_point one_ne_zero one_ne_zero a b x y
  simp only [div_one, one_pow, mul_one, one_mul] at hform
  rw [hform]
  constructor
  · refine (le_form_left hE hF (by norm_num) hG _ _).trans' ?_
    exact mul_le_mul_of_nonneg_right (by norm_num) (sq_nonneg _)
  · rw [← form_comm]
    refine (le_form_left hG hF (by norm_num) hE _ _).trans' ?_
    exact mul_le_mul_of_nonneg_right (by norm_num) (sq_nonneg _)

end Distance

/-! ## The position -/

/-- The distance of a picture from a point tried. -/
theorem diss_fieldPoint {c : Corners} (h : c.accepted = true) {lx ly : ℝ} {p : Node}
    (hp : p.toReal = (c.patch ℝ).point lx ly) {q : Node} (hx : 0 ≤ q.x ∧ q.x ≤ 1)
    (hy : 0 ≤ q.y ∧ q.y ≤ 1) :
    (diss (fieldPoint c q.x q.y) p : ℝ) =
      Patch.distSq ((c.patch ℝ).point q.x q.y) ((c.patch ℝ).point lx ly) := by
  rw [diss_toReal, hp, fieldPoint_eq h hx hy]
  unfold Node.toReal Patch.point Corners.patch
  push_cast
  rfl

/-- A coordinate from the square of its error. -/
theorem scaled_error {k s e d w : ℝ} (hk : 0 < k) (hd : k * e ^ 2 ≤ d) (hw : 0 ≤ w)
    (hlt : d * s ^ 2 < k * w ^ 2) : |s * e| < w := by
  refine abs_lt_of_sq_lt_sq ?_ hw
  have hsq : k * (s * e) ^ 2 < k * w ^ 2 :=
    calc k * (s * e) ^ 2 = k * e ^ 2 * s ^ 2 := by ring
      _ ≤ d * s ^ 2 := mul_le_mul_of_nonneg_right hd (sq_nonneg s)
      _ < k * w ^ 2 := hlt
  exact lt_of_mul_lt_mul_left hsq hk.le

section Picture

variable {c : Corners} (h : c.accepted = true) {lx ly : ℝ} (hlx : 0 ≤ lx ∧ lx ≤ 1)
  (hly : 0 ≤ ly ∧ ly ≤ 1) {p : Node} (hp : p.toReal = (c.patch ℝ).point lx ly)

include h hlx hly hp

/-- The coarse search finds an interior node at most one cell away. -/
theorem coarse_near : ∃ i j : ℕ, coarse (recGrid c) p = ((i : ℤ), (j : ℤ)) ∧
    Patch.Interior xNum yNum i j ∧ |(xNum : ℕ) * lx - i| ≤ 1 ∧ |(yNum : ℕ) * ly - j| ≤ 1 := by
  have hfirst : (1, 1) ∈ gridNodes := by decide
  obtain ⟨⟨i, j⟩, hmem, htmp, hleast⟩ := coarse_nearest (recGrid c) p
    ⟨(1, 1), hfirst, diss_lt_inf h hp hlx hly (mem_gridNodes.mp hfirst)⟩
  have hin := mem_gridNodes.mp hmem
  have hnear : (c.patch ℝ).Nearest xNum yNum lx ly i j := by
    refine ⟨hin, fun i' j' hin' => ?_⟩
    rw [← diss_recGrid h hp hin, ← diss_recGrid h hp hin']
    exact_mod_cast hleast (i', j') (mem_gridNodes.mpr hin')
  exact ⟨i, j, htmp, hin, (Corners.regular h).bracket hlx hly hnear⟩

/-- **The point kept by the fine search** is about a step away from the picture, seen in the
frame. -/
theorem fine_close : ∃ q : Node, fine c p (coarse (recGrid c) p) = q ∧
    ((0 ≤ q.x ∧ q.x ≤ 1) ∧ (0 ≤ q.y ∧ q.y ≤ 1)) ∧
    Patch.distSq ((c.patch ℝ).point q.x q.y) ((c.patch ℝ).point lx ly) ≤
      (1 / 1000) ^ 2 * (132 ^ 2 + 97 ^ 2) := by
  obtain ⟨i, j, htmp, hin, hcol, hrow⟩ := coarse_near h hlx hly hp
  have hx := between_of_near (m := xNum) (k := i) (by decide) (by exact_mod_cast hcol)
  have hy := between_of_near (m := yNum) (k := j) (by decide) (by exact_mod_cast hrow)
  -- the search passes a point just behind the picture
  obtain ⟨lamX, hmemX, hleX, hltX⟩ := exists_mem_lams hx.1 hx.2
  obtain ⟨lamY, hmemY, hleY, hltY⟩ := exists_mem_lams hy.1 hy.2
  have hmem : (⟨lamX, lamY⟩ : Node) ∈ fineNodes ((i : ℤ), (j : ℤ)) :=
    List.mem_flatMap.mpr ⟨lamX, hmemX, List.mem_map.mpr ⟨lamY, hmemY, rfl⟩⟩
  have hunit := fineNodes_unit hin hmem
  have hclose : (diss (fieldPoint c lamX lamY) p : ℝ) ≤
      (1 / 1000) ^ 2 * (132 ^ 2 + 97 ^ 2) := by
    rw [diss_fieldPoint h hp (q := ⟨lamX, lamY⟩) hunit.1 hunit.2]
    refine Corners.distSq_near h (by exact_mod_cast hunit.1) hly ?_ ?_ <;>
      exact abs_le.mpr ⟨by linarith, by linarith⟩
  have hinf : diss (fieldPoint c lamX lamY) p < (inf : ℚ) := by
    have hlt : (diss (fieldPoint c lamX lamY) p : ℝ) < (inf : ℚ) :=
      hclose.trans_lt (by norm_num [inf])
    exact_mod_cast hlt
  obtain ⟨hfine, hleast⟩ := fine_nearest c p _ hmem hinf
  rw [htmp]
  refine ⟨_, rfl, fineNodes_unit hin hfine, ?_⟩
  rw [← diss_fieldPoint h hp (fineNodes_unit hin hfine).1 (fineNodes_unit hin hfine).2]
  exact hclose.trans' (by exact_mod_cast hleast _ hmem)

/-- **The position is within 2 of the true one** in both coordinates. -/
theorem locate_near :
    |((locate c p).x : ℝ) - 700 * lx| < 2 ∧ |((locate c p).y : ℝ) - 500 * ly| < 2 := by
  obtain ⟨q, hq, hunit, hclose⟩ := fine_close h hlx hly hp
  have hdist := Corners.le_distSq h (K := ℝ) (a := q.x) (b := q.y) (x := lx) (y := ly)
    (by exact_mod_cast hunit.1) hly
  have hx := scaled_error (s := 700) (w := 2) (by norm_num) (hdist.1.trans hclose) (by norm_num)
    (by norm_num)
  have hy := scaled_error (s := 500) (w := 2) (by norm_num) (hdist.2.trans hclose) (by norm_num)
    (by norm_num)
  unfold locate
  rw [hq]
  push_cast
  rw [mul_comm (q.x : ℝ), mul_comm (q.y : ℝ), ← mul_sub, ← mul_sub]
  exact ⟨hx, hy⟩

end Picture

/-! ## The cell -/

/-- The cell of a coordinate, counted from 0, of which there are fewer than 255. -/
theorem cell_of_mem {x : ℚ} {i : ℕ} (hi : i < 255) (hlo : 20 * (i : ℚ) ≤ x)
    (hhi : x < 20 * (i : ℚ) + 20) : (((truncate x).tdiv 20 + 1) % 256).toNat = i + 1 := by
  have hnn : 0 ≤ x := hlo.trans' (by positivity)
  have hfloor : 20 * i ≤ ⌊x⌋₊ ∧ ⌊x⌋₊ < 20 * i + 20 :=
    ⟨Nat.le_floor (by push_cast; exact hlo), (Nat.floor_lt hnn).mpr (by push_cast; exact hhi)⟩
  rw [truncate_of_nonneg hnn, Int.tdiv_eq_ediv_of_nonneg (Int.natCast_nonneg _)]
  omega

/-- A true coordinate in the middle of a cell, and the one reported. -/
theorem mem_cell_of_near {x : ℚ} {v : ℝ} {i : ℕ} (hx : |(x : ℝ) - v| < 2)
    (hlo : 20 * (i : ℝ) + 2 ≤ v) (hhi : v ≤ 20 * (i : ℝ) + 18) :
    20 * (i : ℚ) ≤ x ∧ x < 20 * (i : ℚ) + 20 := by
  rw [abs_lt] at hx
  have hlo' : ((20 * (i : ℚ) : ℚ) : ℝ) ≤ x := by
    push_cast
    linarith
  have hhi' : (x : ℝ) < ((20 * (i : ℚ) + 20 : ℚ) : ℝ) := by
    push_cast
    linarith
  exact ⟨by exact_mod_cast hlo', by exact_mod_cast hhi'⟩

/-- A picture lies in the middle of a cell of the field: 2 or more away from its border. -/
structure InCell (lx ly : ℝ) (i j : ℕ) : Prop where
  column : 20 * (i : ℝ) + 2 ≤ 700 * lx ∧ 700 * lx ≤ 20 * (i : ℝ) + 18
  row : 20 * (j : ℝ) + 2 ≤ 500 * ly ∧ 500 * ly ≤ 20 * (j : ℝ) + 18

/-- **The cell reported** for a picture in the middle of a cell. -/
theorem gridCell_locate {c : Corners} (h : c.accepted = true) {lx ly : ℝ} (hlx : 0 ≤ lx ∧ lx ≤ 1)
    (hly : 0 ≤ ly ∧ ly ≤ 1) {p : Node} (hp : p.toReal = (c.patch ℝ).point lx ly) {i j : ℕ}
    (hcell : InCell lx ly i j) : gridCell (locate c p) = (i + 1, j + 1) := by
  have hbound : ∀ {k : ℕ} {v : ℝ}, 20 * (k : ℝ) + 2 ≤ v → v ≤ 700 → k < 255 := by
    intro k v hlo hhi
    have hlt : (k : ℝ) < 255 := by linarith
    exact_mod_cast hlt
  obtain ⟨hx, hy⟩ := locate_near h hlx hly hp
  have hcol := mem_cell_of_near hx hcell.column.1 hcell.column.2
  have hrow := mem_cell_of_near hy hcell.row.1 hcell.row.2
  unfold gridCell
  rw [cell_of_mem (hbound hcell.column.1 (by linarith)) hcol.1 hcol.2,
    cell_of_mem (hbound hcell.row.1 (by linarith)) hrow.1 hrow.2]

/-! ## A call -/

/-- A round of `get_a4` leaves the loop with corners that it has accepted. -/
theorem a4Round_accepted {fuel : ℕ} {image : Camera} {b : Bool} {f : Frame} {c : Corners}
    (h : a4Round fuel image = some (b, f, c)) : c = seenCorners image ∧ b = c.accepted := by
  unfold a4Round at h
  dsimp only at h
  rw [← seenFrame, ← seenCorners] at h
  generalize seenCorners image = c' at h ⊢
  unfold getA4 at h
  simp only [Option.bind_eq_bind, Option.bind_eq_some_iff, Option.some.injEq, Prod.mk.injEq] at h
  obtain ⟨r, ⟨_, _, _, _, _, _, _, _, rfl⟩, rfl, -, rfl⟩ := h
  exact ⟨rfl, rfl⟩

/-- **The loop of `get_a4` ends with the corners of the first image that is not rejected.** -/
theorem a4Loop_accepted {fuel : ℕ} {images rest : List Camera} {f : Frame} {c : Corners}
    (h : a4Loop fuel images = some ((f, c), rest)) :
    ∃ rejected image, images = rejected ++ image :: rest ∧ (∀ other ∈ rejected, Rejected other) ∧
      c = seenCorners image ∧ c.accepted = true := by
  induction images with
  | nil => exact absurd h (by simp [a4Loop])
  | cons image images ih =>
      simp only [a4Loop, Option.bind_eq_bind, Option.bind_eq_some_iff] at h
      obtain ⟨⟨b, f', c'⟩, hround, h⟩ := h
      obtain ⟨hc', hb⟩ := a4Round_accepted hround
      cases b with
      | true =>
          obtain ⟨⟨-, rfl⟩, rfl⟩ := by simpa using h
          exact ⟨[], image, rfl, fun other hother => absurd hother List.not_mem_nil, hc', hb.symm⟩
      | false =>
          obtain ⟨rejected, other, rfl, hrejected, hother⟩ := ih (by simpa using h)
          refine ⟨image :: rejected, other, rfl, fun o ho => ?_, hother⟩
          rcases List.mem_cons.mp ho with rfl | ho
          · rw [Rejected, ← hc']
            exact hb.symm
          · exact hrejected o ho

/-- **Every call reports the pictures of the first accepted image where they are**: within 2 of
their places on the field, and in the right cell when they lie in the middle of it. -/
theorem findPic_cells {images rest : List Camera} {s s' : Vision}
    (h : Returns images s s' rest) :
    ∃ rejected image, images = rejected ++ image :: rest ∧ (∀ other ∈ rejected, Rejected other) ∧
      (seenCorners image).accepted = true ∧ ∀ id < s'.picNum, ∀ lx ly : ℝ,
      0 ≤ lx ∧ lx ≤ 1 → 0 ≤ ly ∧ ly ≤ 1 →
      (s'.pic id).toReal = ((seenCorners image).patch ℝ).point lx ly →
      (|((s'.pos id).x : ℝ) - 700 * lx| < 2 ∧ |((s'.pos id).y : ℝ) - 500 * ly| < 2) ∧
        ∀ i j, InCell lx ly i j → s'.posInt id = (i + 1, j + 1) := by
  obtain ⟨fuel, hrun⟩ := h
  have hrun := hrun fuel le_rfl
  unfold findPic at hrun
  simp only [Option.bind_eq_bind, Option.bind_eq_some_iff] at hrun
  obtain ⟨⟨⟨f, c⟩, rest'⟩, hloop, s₁, -, hplace⟩ := hrun
  obtain ⟨rejected, image, himages, hrejected, rfl, haccepted⟩ := a4Loop_accepted hloop
  obtain ⟨rfl, rfl⟩ := by simpa using hplace
  refine ⟨rejected, image, himages, hrejected, haccepted, fun id hid lx ly hlx hly hp => ?_⟩
  have hpos : (s₁.place (seenCorners image)).pos id =
      locate (seenCorners image) ((s₁.place (seenCorners image)).pic id) := if_pos hid
  have hcell : (s₁.place (seenCorners image)).posInt id =
      gridCell ((s₁.place (seenCorners image)).pos id) := if_pos hid
  rw [hcell, hpos]
  exact ⟨locate_near haccepted hlx hly hp,
    fun i j hin => gridCell_locate haccepted hlx hly hp hin⟩

/-- The dash in the frame of the second test, which lies in the field at 322 and 326. -/
theorem findPic_cells_dash :
    ∃ s', Returns [dash.image] Vision.boot s' [] ∧
      ∀ id < s'.picNum, s'.pic id = ⟨90, 71⟩ → s'.posInt id = (17, 17) := by
  obtain ⟨t, regions, -, hreturns⟩ := findPic_returns dash.acceptedAs
  have hcall := hreturns Vision.boot [] [] (by simp)
  refine ⟨_, hcall, fun id hid hpic => ?_⟩
  obtain ⟨rejected, image, himages, -, -, hcells⟩ := findPic_cells hcall
  have hmem : image ∈ [] ++ [dash.image] := himages ▸ List.mem_append_right _ List.mem_cons_self
  obtain rfl : image = dash.image := List.mem_singleton.mp hmem
  have hcell : InCell (23 / 50) (47 / 72) 16 16 := by
    refine ⟨⟨?_, ?_⟩, ?_, ?_⟩ <;> norm_num
  refine (hcells id hid (23 / 50) (47 / 72) (by norm_num) (by norm_num) ?_).2 16 16 hcell
  rw [hpic, dash.seenCorners_image]
  norm_num [Node.toReal, Patch.point, Corners.patch, upright]

end HandlingRobot
