import HandlingRobot.Library.FirstMin
import HandlingRobot.Library.Patch
import HandlingRobot.Vision.FindPic
import Mathlib.Algebra.Order.Archimedean.Real.Basic
import Mathlib.Tactic.LinearCombination

/-! # The nearest node of the grid

`find_pic` looks for a picture first among the interior nodes of the grid and then between the two
neighbours of the node found, in either coordinate.

* **`Corners.patch`** — the field in the frame as a bilinear patch.
* **`getCross_eq_of_through`** — the crossing of two lines is their common point, which makes it the
  interpolation between the corners (**`getCross_bilinear`**).
* **`Corners.across_bounds`**, **`Corners.up_bounds`** — how long and how skew the sides of an
  accepted field are, and **`Corners.regular`**, that its grid is regular.
* **`coarse_nearest`** — the node found is nearest.
* **`coarse_brackets`** — so it is at most one cell away from the picture. -/

namespace HandlingRobot

/-! ## The field as a patch -/

/-- **The field in the frame.** -/
def Corners.patch (K : Type*) [Field K] (c : Corners) : Patch K where
  ll := (c.lx.1, c.lx.2)
  hl := (c.rx.1, c.rx.2)
  lh := (c.ls.1, c.ls.2)
  hh := (c.rs.1, c.rs.2)

/-- `deno`. -/
def crossDeno (p1 p2 p3 p4 : Node) : ℚ :=
  (getLine p1 p2).A * (getLine p3 p4).B - (getLine p3 p4).A * (getLine p1 p2).B

/-- The line passes through a point. -/
def LineABC.Through (L : LineABC) (p : Node) : Prop := L.A * p.x + L.B * p.y + L.C = 0

/-- A point between two points is on their line. -/
theorem getLine_through_getProx (lambda : ℚ) (p1 p2 : Node) :
    (getLine p1 p2).Through (getProx lambda p1 p2) := by
  unfold LineABC.Through getLine getProx
  ring

/-- **The crossing is the common point** of two lines that are not nearly parallel. -/
theorem getCross_eq_of_through {p1 p2 p3 p4 s : Node} (h : ¬ |crossDeno p1 p2 p3 p4| < 1 / 1000)
    (h12 : (getLine p1 p2).Through s) (h34 : (getLine p3 p4).Through s) :
    getCross p1 p2 p3 p4 = s := by
  have hdeno : crossDeno p1 p2 p3 p4 ≠ 0 := by
    intro hzero
    rw [hzero, abs_zero] at h
    exact h (by norm_num)
  unfold LineABC.Through at h12 h34
  unfold getCross
  dsimp only
  rw [← crossDeno, if_neg h]
  -- Cramer's rule
  refine Node.ext ?_ ?_
  · rw [div_eq_iff hdeno, crossDeno]
    linear_combination (getLine p1 p2).B * h34 - (getLine p3 p4).B * h12
  · rw [div_eq_iff hdeno, crossDeno]
    linear_combination (getLine p3 p4).A * h12 - (getLine p1 p2).A * h34

/-- The two ways to interpolate between four points are one. -/
theorem getProx_getProx (LX RX LS RS : Node) (lamX lamY : ℚ) :
    getProx lamX (getProx lamY LX LS) (getProx lamY RX RS) =
      getProx lamY (getProx lamX LX RX) (getProx lamX LS RS) := by
  unfold getProx
  refine Node.ext ?_ ?_ <;> ring

/-- **The crossing of the lines** through points at `lamX` on two sides and at `lamY` on the others
is the interpolation between these points. -/
theorem getCross_getProx (LX RX LS RS : Node) (lamX lamY : ℚ)
    (h : ¬ |crossDeno (getProx lamX LX RX) (getProx lamX LS RS) (getProx lamY LX LS)
      (getProx lamY RX RS)| < 1 / 1000) :
    getCross (getProx lamX LX RX) (getProx lamX LS RS) (getProx lamY LX LS) (getProx lamY RX RS) =
      getProx lamY (getProx lamX LX RX) (getProx lamX LS RS) :=
  getCross_eq_of_through h (getLine_through_getProx _ _ _)
    (getProx_getProx LX RX LS RS lamX lamY ▸ getLine_through_getProx _ _ _)

/-- **The grid of any four points**: wherever `get_cross` finds the two lines not nearly parallel,
it gives the bilinear interpolation between the corners. -/
theorem getCross_bilinear (LX RX LS RS : Node) (lamX lamY : ℚ)
    (h : ¬ |crossDeno (getProx lamX LX RX) (getProx lamX LS RS) (getProx lamY LX LS)
      (getProx lamY RX RS)| < 1 / 1000) :
    getCross (getProx lamX LX RX) (getProx lamX LS RS) (getProx lamY LX LS) (getProx lamY RX RS) =
      ⟨(1 - lamX) * (1 - lamY) * LX.x + lamX * (1 - lamY) * RX.x + (1 - lamX) * lamY * LS.x +
          lamX * lamY * RS.x,
        (1 - lamX) * (1 - lamY) * LX.y + lamX * (1 - lamY) * RX.y + (1 - lamX) * lamY * LS.y +
          lamX * lamY * RS.y⟩ := by
  rw [getCross_getProx LX RX LS RS lamX lamY h]
  unfold getProx
  refine Node.ext ?_ ?_ <;> ring

/-- Four points in convex position, traversed the other way round than the field is. -/
theorem getCross_bilinear_mirrored :
    getCross (getProx (1 / 2) ⟨9, 1⟩ ⟨0, 0⟩) (getProx (1 / 2) ⟨8, 6⟩ ⟨1, 7⟩)
      (getProx (1 / 4) ⟨9, 1⟩ ⟨8, 6⟩) (getProx (1 / 4) ⟨0, 0⟩ ⟨1, 7⟩) = ⟨9 / 2, 2⟩ := by
  have hcross := getCross_bilinear ⟨9, 1⟩ ⟨0, 0⟩ ⟨8, 6⟩ ⟨1, 7⟩ (1 / 2) (1 / 4)
    (by norm_num [crossDeno, getLine, getProx])
  norm_num at hcross ⊢
  exact hcross

/-! ## The sides of an accepted field -/

section Sides

variable {K : Type*} [Field K] [LinearOrder K] [IsStrictOrderedRing K]

/-- A weighted mean of two distances that lie on one side of zero. -/
theorem Apart.le_abs_mix {m a b a' b' : ℤ} (h : Apart m a b a' b') {t : K} (ht : 0 ≤ t)
    (ht' : t ≤ 1) : (m : K) ≤ |(1 - t) * (b - a) + t * (b' - a')| := by
  have hcast : ∀ {u v : ℤ}, u + m ≤ v → (m : K) ≤ v - u := by
    intro u v huv
    have hle : ((u + m : ℤ) : K) ≤ v := by exact_mod_cast huv
    push_cast at hle
    linarith
  rw [le_abs]
  rcases h.far with ⟨h1, h2⟩ | ⟨h1, h2⟩
  · have hb := hcast h1
    have hb' := hcast h2
    exact Or.inl (by nlinarith)
  · have hb := hcast h1
    have hb' := hcast h2
    exact Or.inr (by nlinarith)

/-- A weighted mean of two bounded distances. -/
theorem abs_mix_le {a b a' b' w : ℤ} (h : |b - a| ≤ w ∧ |b' - a'| ≤ w) {t : K} (ht : 0 ≤ t)
    (ht' : t ≤ 1) : |(1 - t) * (b - a) + t * (b' - a')| ≤ w := by
  have hp : |(b : K) - a| ≤ w := by exact_mod_cast h.1
  have hq : |(b' : K) - a'| ≤ w := by exact_mod_cast h.2
  rw [abs_le] at hp hq ⊢
  refine ⟨?_, ?_⟩ <;> nlinarith

/-- **The vectors across an accepted field**: long, and nearly level. -/
theorem Corners.across_bounds {c : Corners} (h : c.accepted = true) {b : K} (hb : 0 ≤ b)
    (hb' : b ≤ 1) :
    (67 ≤ |((c.patch K).across b).1| ∧ |((c.patch K).across b).1| ≤ 127) ∧
      |((c.patch K).across b).2| ≤ 5 := by
  obtain ⟨⟨hwide, hhigh⟩, hwidth, -⟩ := apart_wide h
  have hlevel : |c.rx.2 - c.lx.2| ≤ 5 ∧ |c.rs.2 - c.ls.2| ≤ 5 := by
    have hnear := hhigh.near
    rw [abs_sub_comm c.rx.2, abs_sub_comm c.rs.2]
    omega
  have hlong := hwide.symm.le_abs_mix hb hb'
  have hshort := abs_mix_le hwidth.symm hb hb'
  have hskew := abs_mix_le hlevel hb hb'
  rw [Int.cast_ofNat] at hlong hshort hskew
  exact ⟨⟨hlong, hshort⟩, hskew⟩

/-- **The vectors up an accepted field**: high, and nearly upright. -/
theorem Corners.up_bounds {c : Corners} (h : c.accepted = true) {a : K} (ha : 0 ≤ a)
    (ha' : a ≤ 1) :
    (46 ≤ |((c.patch K).up a).2| ∧ |((c.patch K).up a).2| ≤ 92) ∧ |((c.patch K).up a).1| ≤ 5 := by
  obtain ⟨⟨hwide, hhigh⟩, -, hheight⟩ := apart_wide h
  have hupright : |c.ls.1 - c.lx.1| ≤ 5 ∧ |c.rs.1 - c.rx.1| ≤ 5 := by
    have hnear := hwide.near
    omega
  have hlong := hhigh.le_abs_mix ha ha'
  have hshort := abs_mix_le hheight ha ha'
  have hskew := abs_mix_le hupright ha ha'
  rw [Int.cast_ofNat] at hlong hshort hskew
  exact ⟨⟨hlong, hshort⟩, hskew⟩

/-- The two vectors are nearly perpendicular. -/
theorem Corners.abs_dot_le {c : Corners} (h : c.accepted = true) {a b : K} (ha : 0 ≤ a)
    (ha' : a ≤ 1) (hb : 0 ≤ b) (hb' : b ≤ 1) :
    |Patch.dot ((c.patch K).across b) ((c.patch K).up a)| ≤ 1095 := by
  obtain ⟨⟨-, hw⟩, hlevel⟩ := across_bounds h hb hb'
  obtain ⟨⟨-, hh⟩, hupright⟩ := up_bounds h ha ha'
  calc |Patch.dot ((c.patch K).across b) ((c.patch K).up a)|
      ≤ |((c.patch K).across b).1| * |((c.patch K).up a).1| +
          |((c.patch K).across b).2| * |((c.patch K).up a).2| := by
        rw [← abs_mul, ← abs_mul]
        exact abs_add_le _ _
    _ ≤ 127 * 5 + 5 * 92 :=
        add_le_add (mul_le_mul hw hupright (abs_nonneg _) (by norm_num))
          (mul_le_mul hlevel hh (abs_nonneg _) (by norm_num))
    _ = 1095 := by norm_num

/-- The square of a vector is at least that of one of its components. -/
theorem le_dot_self {v : K × K} {r : K} (hr : 0 ≤ r) (h : r ≤ |v.1| ∨ r ≤ |v.2|) :
    r ^ 2 ≤ Patch.dot v v := by
  unfold Patch.dot
  rcases h with h | h
  · have hsq : r ^ 2 ≤ v.1 ^ 2 := sq_le_sq.mpr (by rwa [abs_of_nonneg hr])
    nlinarith [sq_nonneg v.2]
  · have hsq : r ^ 2 ≤ v.2 ^ 2 := sq_le_sq.mpr (by rwa [abs_of_nonneg hr])
    nlinarith [sq_nonneg v.1]

/-- **The grid on an accepted field is regular.** -/
theorem Corners.regular {c : Corners} (h : c.accepted = true) :
    (c.patch K).Regular (xNum : ℕ) (yNum : ℕ) := by
  intro a b ha ha' hb hb'
  have hE := le_dot_self (r := 67) (by norm_num) (Or.inl (across_bounds (K := K) h hb hb').1.1)
  have hG := le_dot_self (r := 46) (by norm_num) (Or.inr (up_bounds (K := K) h ha ha').1.1)
  have hF := abs_dot_le (K := K) h ha ha' hb hb'
  -- the sides of a cell are a 35th and a 25th as long
  have hx : ((xNum : ℕ) : K) = 35 := Nat.cast_ofNat
  have hy : ((yNum : ℕ) : K) = 25 := Nat.cast_ofNat
  rw [hx, hy]
  have hE' : 67 ^ 2 / 35 ^ 2 ≤
      Patch.dot ((c.patch K).across b) ((c.patch K).across b) / 35 ^ 2 :=
    div_le_div_of_nonneg_right hE (by norm_num)
  have hG' : 46 ^ 2 / 25 ^ 2 ≤ Patch.dot ((c.patch K).up a) ((c.patch K).up a) / 25 ^ 2 :=
    div_le_div_of_nonneg_right hG (by norm_num)
  have hF' : |Patch.dot ((c.patch K).across b) ((c.patch K).up a) / (35 * 25)| ≤
      1095 / (35 * 25) := by
    rw [abs_div, abs_of_pos (by norm_num : (0 : K) < 35 * 25)]
    exact div_le_div_of_nonneg_right hF (by norm_num)
  norm_num at hE' hG' hF'
  exact ⟨⟨by linarith, by linarith⟩, by linarith, by linarith⟩

/-- **The field is small**: its points are all closer to each other than this. -/
theorem Corners.distSq_le {c : Corners} (h : c.accepted = true) {a b x y : K}
    (ha : 0 ≤ a ∧ a ≤ 1) (hb : 0 ≤ b ∧ b ≤ 1) (hx : 0 ≤ x ∧ x ≤ 1) (hy : 0 ≤ y ∧ y ≤ 1) :
    Patch.distSq ((c.patch K).point a b) ((c.patch K).point x y) ≤ 132 ^ 2 + 97 ^ 2 := by
  obtain ⟨⟨-, hwide⟩, hlevel⟩ := across_bounds (K := K) h hy.1 hy.2
  obtain ⟨⟨-, hhigh⟩, hupright⟩ := up_bounds (K := K) h ha.1 ha.2
  have hmul : ∀ {s t v w : K}, 0 ≤ s ∧ s ≤ 1 → 0 ≤ t ∧ t ≤ 1 → |v| ≤ w → |(s - t) * v| ≤ w := by
    intro s t v w hs ht hv
    have hst : |s - t| ≤ 1 := abs_le.mpr ⟨by linarith, by linarith⟩
    rw [abs_mul]
    exact (mul_le_of_le_one_left (abs_nonneg v) hst).trans hv
  have hsum : ∀ {p q v w : K}, |p| ≤ v → |q| ≤ w → (p + q) * (p + q) ≤ (v + w) ^ 2 := by
    intro p q v w hp hq
    rw [← sq, ← sq_abs]
    exact pow_le_pow_left₀ (abs_nonneg _) ((abs_add_le p q).trans (add_le_add hp hq)) 2
  unfold Patch.distSq
  rw [(Patch.point_sub _ a b x y).1, (Patch.point_sub _ a b x y).2]
  have hcol := hsum (hmul ha hx hwide) (hmul hb hy hupright)
  have hrow := hsum (hmul ha hx hlevel) (hmul hb hy hhigh)
  norm_num at hcol hrow ⊢
  linarith

end Sides

/-! ## The grid in the frame -/

/-- **The point of the frame with given coordinates** is the interpolation. -/
theorem fieldPoint_eq {c : Corners} (h : c.accepted = true) {lamX lamY : ℚ}
    (hx : 0 ≤ lamX ∧ lamX ≤ 1) (hy : 0 ≤ lamY ∧ lamY ≤ 1) :
    fieldPoint c lamX lamY =
      ⟨((c.patch ℚ).point lamX lamY).1, ((c.patch ℚ).point lamX lamY).2⟩ := by
  obtain ⟨⟨hwide, -⟩, hlevel⟩ := Corners.across_bounds (K := ℚ) h hy.1 hy.2
  obtain ⟨⟨hhigh, -⟩, hupright⟩ := Corners.up_bounds (K := ℚ) h hx.1 hx.2
  have hpoint : getProx lamY (getProx lamX (Node.ofPixel c.lx) (Node.ofPixel c.rx))
      (getProx lamX (Node.ofPixel c.ls) (Node.ofPixel c.rs)) =
      ⟨((c.patch ℚ).point lamX lamY).1, ((c.patch ℚ).point lamX lamY).2⟩ := by
    unfold getProx Node.ofPixel Patch.point Corners.patch
    refine Node.ext ?_ ?_ <;> ring
  rw [← hpoint]
  refine getCross_getProx _ _ _ _ lamX lamY fun hsmall => ?_
  -- `deno` is the area that the two vectors span
  have harea : crossDeno (getProx lamX (Node.ofPixel c.lx) (Node.ofPixel c.rx))
      (getProx lamX (Node.ofPixel c.ls) (Node.ofPixel c.rs))
      (getProx lamY (Node.ofPixel c.lx) (Node.ofPixel c.ls))
      (getProx lamY (Node.ofPixel c.rx) (Node.ofPixel c.rs)) =
      ((c.patch ℚ).across lamY).2 * ((c.patch ℚ).up lamX).1 -
        ((c.patch ℚ).across lamY).1 * ((c.patch ℚ).up lamX).2 := by
    simp only [crossDeno, getLine, getProx, Node.ofPixel, Patch.across, Patch.up, Corners.patch]
    ring
  have hlarge : 67 * 46 ≤ |((c.patch ℚ).across lamY).1 * ((c.patch ℚ).up lamX).2| := by
    rw [abs_mul]
    exact mul_le_mul hwide hhigh (by norm_num) (abs_nonneg _)
  have hskew : |((c.patch ℚ).across lamY).2 * ((c.patch ℚ).up lamX).1| ≤ 5 * 5 := by
    rw [abs_mul]
    exact mul_le_mul hlevel hupright (abs_nonneg _) (by norm_num)
  rw [harea, abs_sub_comm] at hsmall
  have hdiff := abs_sub_abs_le_abs_sub (((c.patch ℚ).across lamY).1 * ((c.patch ℚ).up lamX).2)
    (((c.patch ℚ).across lamY).2 * ((c.patch ℚ).up lamX).1)
  linarith

/-- A point as a pair of real numbers. -/
def Node.toReal (p : Node) : ℝ × ℝ := (p.x, p.y)

theorem diss_toReal (p q : Node) : (diss p q : ℝ) = Patch.distSq p.toReal q.toReal := by
  unfold diss Patch.distSq Node.toReal
  push_cast
  rfl

/-- **The nodes of the grid** on the patch. -/
theorem recGrid_toReal {c : Corners} (h : c.accepted = true) {i j : ℕ} (hi : i ≤ xNum)
    (hj : j ≤ yNum) :
    (recGrid c i j).toReal = (c.patch ℝ).point (i / (xNum : ℕ)) (j / (yNum : ℕ)) := by
  have hunit : ∀ {i m : ℕ}, 0 < m → i ≤ m → 0 ≤ (i : ℚ) * (1 / m) ∧ (i : ℚ) * (1 / m) ≤ 1 := by
    intro i m hm hi
    rw [mul_one_div]
    exact ⟨by positivity, div_le_one_of_le₀ (by exact_mod_cast hi) (by positivity)⟩
  have hnode : recGrid c i j = fieldPoint c (i * (1 / xNum)) (j * (1 / yNum)) := by
    unfold recGrid
    rw [if_pos ⟨hi, hj⟩]
    rfl
  rw [hnode, fieldPoint_eq h (hunit (by decide) hi) (hunit (by decide) hj)]
  unfold Node.toReal Patch.point Corners.patch
  push_cast
  rw [mul_one_div, mul_one_div]

section Picture

variable {c : Corners} (h : c.accepted = true) {lx ly : ℝ} {p : Node}
  (hp : p.toReal = (c.patch ℝ).point lx ly)

include h hp

/-- The distance of a picture from a node. -/
theorem diss_recGrid {i j : ℕ} (hin : Patch.Interior xNum yNum i j) :
    (diss p (recGrid c i j) : ℝ) = Patch.distSq ((c.patch ℝ).point lx ly)
      ((c.patch ℝ).point (i / (xNum : ℕ)) (j / (yNum : ℕ))) := by
  rw [diss_toReal, hp, recGrid_toReal h hin.1.2.le hin.2.2.le]

theorem diss_lt_inf (hlx : 0 ≤ lx ∧ lx ≤ 1) (hly : 0 ≤ ly ∧ ly ≤ 1) {i j : ℕ}
    (hin : Patch.Interior xNum yNum i j) : diss p (recGrid c i j) < (inf : ℚ) := by
  have hunit : ∀ {i m : ℕ}, i < m → 0 ≤ (i : ℝ) / m ∧ (i : ℝ) / m ≤ 1 := fun hi =>
    ⟨by positivity, div_le_one_of_le₀ (by exact_mod_cast hi.le) (by positivity)⟩
  have hle := Corners.distSq_le h hlx hly (hunit hin.1.2) (hunit hin.2.2)
  rw [← diss_recGrid h hp hin] at hle
  have hlt : (diss p (recGrid c i j) : ℝ) < (inf : ℚ) := hle.trans_lt (by norm_num [inf])
  exact_mod_cast hlt

end Picture

/-! ## The coarse search -/

theorem mem_gridNodes {n : ℕ × ℕ} : n ∈ gridNodes ↔ Patch.Interior xNum yNum n.1 n.2 := by
  obtain ⟨i, j⟩ := n
  simp only [gridNodes, List.mem_flatMap, List.mem_map, List.mem_range'_1, Prod.mk.injEq, xNum,
    yNum, Patch.Interior]
  refine ⟨?_, fun h => ⟨i, by omega, j, by omega, rfl, rfl⟩⟩
  rintro ⟨i', hi, j', hj, rfl, rfl⟩
  omega

/-- **The node found is nearest**, once some node is nearer than `inf`. -/
theorem coarse_nearest (grid : ℕ → ℕ → Node) (p : Node)
    (h : ∃ n ∈ gridNodes, diss p (grid n.1 n.2) < (inf : ℚ)) :
    ∃ n ∈ gridNodes, coarse grid p = ((n.1 : ℤ), (n.2 : ℤ)) ∧
      ∀ m ∈ gridNodes, diss p (grid n.1 n.2) ≤ diss p (grid m.1 m.2) := by
  have hscan := Scanned.foldl (fun q : ℤ × ℤ => diss p (grid q.1.toNat q.2.toNat))
    ((inf : ℚ), (-1, -1)) (gridNodes.map fun n => ((n.1 : ℤ), (n.2 : ℤ)))
  obtain ⟨n₀, hn₀, hlt⟩ := h
  obtain ⟨hmem, hval⟩ := hscan.attained (List.mem_map_of_mem hn₀) hlt
  obtain ⟨n, hn, hcoarse⟩ := List.mem_map.mp hmem
  rw [List.foldl_map] at hcoarse
  refine ⟨n, hn, hcoarse.symm, fun m hm => ?_⟩
  have hleast := hscan.least _ (List.mem_map_of_mem hm)
  rw [← hval, List.foldl_map, ← hcoarse] at hleast
  exact hleast

/-- **The fine search passes every number between its bounds**, at most a step behind one that it
tries. -/
theorem exists_mem_lams {lo hi : ℚ} {x : ℝ} (hlo : (lo : ℝ) ≤ x) (hhi : x ≤ hi) :
    ∃ l ∈ lams lo hi, (l : ℝ) ≤ x ∧ x < l + 1 / 1000 := by
  have hnn : 0 ≤ (x - lo) * 1000 := by linarith
  have hfloor := Nat.floor_le hnn
  have hnext := Nat.lt_floor_add_one ((x - lo) * 1000)
  generalize ⌊(x - lo) * 1000⌋₊ = k at hfloor hnext
  have hk : k ≤ ⌊(hi - lo) * 1000⌋₊ := by
    refine Nat.le_floor ?_
    have hcast : (k : ℝ) ≤ ((hi - lo) * 1000 : ℚ) := by
      push_cast
      linarith
    exact_mod_cast hcast
  refine ⟨lo + k * (1 / 1000), List.mem_map.mpr ⟨k, List.mem_range.mpr (by omega), rfl⟩, ?_⟩
  push_cast
  refine ⟨?_, ?_⟩ <;> linarith

/-- A coordinate within one cell of a node lies between the bounds of the fine search. -/
theorem between_of_near {m : ℕ} (hm : 0 < m) {x : ℝ} {k : ℤ} (h : |m * x - k| ≤ 1) :
    (((k - 1) / m : ℚ) : ℝ) ≤ x ∧ x ≤ (((k + 1) / m : ℚ) : ℝ) := by
  have hpos : (0 : ℝ) < m := by exact_mod_cast hm
  rw [abs_le] at h
  push_cast
  rw [div_le_iff₀ hpos, le_div_iff₀ hpos]
  refine ⟨?_, ?_⟩ <;> linarith

/-- **The coarse search brackets the picture**: when a picture lies at the point of an accepted
field with the coordinates `lx` and `ly`, the node found is at most one cell away from it, so that
the fine search around this node passes both coordinates. -/
theorem coarse_brackets (c : Corners) (h : c.accepted = true) (lx ly : ℝ)
    (hlx : 0 ≤ lx ∧ lx ≤ 1) (hly : 0 ≤ ly ∧ ly ≤ 1) (p : Node)
    (hpx : (p.x : ℝ) = (1 - lx) * (1 - ly) * c.lx.1 + lx * (1 - ly) * c.rx.1 +
      (1 - lx) * ly * c.ls.1 + lx * ly * c.rs.1)
    (hpy : (p.y : ℝ) = (1 - lx) * (1 - ly) * c.lx.2 + lx * (1 - ly) * c.rx.2 +
      (1 - lx) * ly * c.ls.2 + lx * ly * c.rs.2) :
    let tmp := coarse (recGrid c) p
    (|35 * lx - tmp.1| ≤ 1 ∧ |25 * ly - tmp.2| ≤ 1) ∧
      (∃ l ∈ lams ((tmp.1 - 1) / xNum) ((tmp.1 + 1) / xNum), (l : ℝ) ≤ lx ∧ lx < l + 1 / 1000) ∧
      (∃ l ∈ lams ((tmp.2 - 1) / yNum) ((tmp.2 + 1) / yNum), (l : ℝ) ≤ ly ∧ ly < l + 1 / 1000) := by
  intro tmp
  have hp : p.toReal = (c.patch ℝ).point lx ly := Prod.ext hpx hpy
  have hfirst : (1, 1) ∈ gridNodes := by decide
  obtain ⟨⟨i, j⟩, hmem, htmp, hleast⟩ := coarse_nearest (recGrid c) p
    ⟨(1, 1), hfirst, diss_lt_inf h hp hlx hly (mem_gridNodes.mp hfirst)⟩
  have hnear : (c.patch ℝ).Nearest xNum yNum lx ly i j := by
    refine ⟨mem_gridNodes.mp hmem, fun i' j' hin' => ?_⟩
    rw [← diss_recGrid h hp (mem_gridNodes.mp hmem), ← diss_recGrid h hp hin']
    exact_mod_cast hleast (i', j') (mem_gridNodes.mpr hin')
  obtain ⟨hcol, hrow⟩ := (Corners.regular h).bracket hlx hly hnear
  -- the node as the pair of integers that the search leaves
  have hi : (i : ℝ) = tmp.1 := by
    rw [show tmp.1 = i from congrArg Prod.fst htmp, Int.cast_natCast]
  have hj : (j : ℝ) = tmp.2 := by
    rw [show tmp.2 = j from congrArg Prod.snd htmp, Int.cast_natCast]
  rw [hi] at hcol
  rw [hj] at hrow
  have hx := between_of_near (by decide) hcol
  have hy := between_of_near (by decide) hrow
  have hcells : ((xNum : ℕ) : ℝ) = 35 ∧ ((yNum : ℕ) : ℝ) = 25 :=
    ⟨Nat.cast_ofNat, Nat.cast_ofNat⟩
  rw [hcells.1] at hcol
  rw [hcells.2] at hrow
  exact ⟨⟨hcol, hrow⟩, exists_mem_lams hx.1 hx.2, exists_mem_lams hy.1 hy.2⟩

/-- The picture in the centre of a field seen slightly askew. -/
theorem coarse_brackets_skewed :
    |35 * (1 / 2 : ℝ) - (coarse (recGrid skewed) ⟨95, 243 / 4⟩).1| ≤ 1 ∧
      |25 * (1 / 2 : ℝ) - (coarse (recGrid skewed) ⟨95, 243 / 4⟩).2| ≤ 1 :=
  (coarse_brackets skewed skewed_accepted (1 / 2) (1 / 2) (by norm_num) (by norm_num)
    ⟨95, 243 / 4⟩ (by norm_num [skewed]) (by norm_num [skewed])).1

end HandlingRobot
