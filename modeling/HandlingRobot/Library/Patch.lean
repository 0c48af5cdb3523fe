import Mathlib.Algebra.Order.Field.Basic
import Mathlib.Algebra.Order.Ring.Abs
import Mathlib.Tactic.FieldSimp
import Mathlib.Tactic.Linarith
import Mathlib.Tactic.Ring

/-! # Bilinear patches and their grids

Four points of the plane span a patch: the unit square is mapped onto it by bilinear interpolation.
A grid of `m` times `n` cells on the square gives nodes on the patch, and the node nearest to a
point of the patch need not belong to the cell of the point when the cells are skew.

* **`Reduced`** — a quadratic form whose mixed term is small; a step towards zero in the greater
  coordinate makes it smaller (`Reduced.step_lt`).
* **`le_form_left`** — a form bounds each of its coordinates.
* **`Patch.point`** — the interpolation, and **`Patch.across`**, **`Patch.up`**, the vectors along
  its coordinate lines.
* **`Patch.Regular`** — the cells are reduced everywhere.
* **`Patch.Regular.bracket`** — on such a grid the nearest interior node is at most one cell away in
  either coordinate, up to the border. -/

namespace HandlingRobot

variable {K : Type*} [Field K]

/-! ## Reduced forms -/

/-- The quadratic form with the coefficients `E`, `2 F` and `G`. -/
def form (E F G u v : K) : K := E * u ^ 2 + 2 * F * u * v + G * v ^ 2

theorem form_comm (E F G u v : K) : form G F E v u = form E F G u v := by
  unfold form
  ring

section Order

variable [LinearOrder K]

/-- **A reduced form**: the mixed coefficient is at most half of either of the others. -/
structure Reduced (E F G : K) : Prop where
  pos : 0 < E ∧ 0 < G
  mixed : 2 * |F| ≤ E ∧ 2 * |F| ≤ G

theorem Reduced.symm {E F G : K} (h : Reduced E F G) : Reduced G F E := ⟨h.pos.symm, h.mixed.symm⟩

variable [IsStrictOrderedRing K]

/-- **A step towards zero** in the greater coordinate, while it is above 1. -/
theorem Reduced.step_lt {E F G u v s : K} (h : Reduced E F G) (hs : s ^ 2 = 1) (hu : 1 < s * u)
    (hv : |v| ≤ s * u) : form E F G (u - s) v < form E F G u v := by
  have habs : |s * v| = |v| := by
    rw [abs_mul, (abs_eq zero_le_one).mpr (sq_eq_one_iff.mp hs), one_mul]
  -- the mixed term cannot make up for what the step saves
  have hmixed : -(s * u * E) ≤ 2 * (F * (s * v)) := by
    have hprod : |F * (s * v)| ≤ |F| * (s * u) := by
      rw [abs_mul, habs]
      exact mul_le_mul_of_nonneg_left hv (abs_nonneg F)
    have hhalf : 2 * |F| * (s * u) ≤ E * (s * u) :=
      mul_le_mul_of_nonneg_right h.mixed.1 (by linarith)
    linarith [neg_abs_le (F * (s * v))]
  have hdiff : form E F G u v - form E F G (u - s) v =
      (2 * (s * u) - s ^ 2) * E + 2 * (F * (s * v)) := by
    unfold form
    ring
  have hsave : 0 < (s * u - 1) * E := mul_pos (by linarith) h.pos.1
  rw [hs] at hdiff
  linarith

/-- **A form is large when one coordinate is**, whatever the other is: the square is completed in
the other coordinate. -/
theorem le_form_left {E F G e f g : K} (hE : e ≤ E) (hF : |F| ≤ f) (hg : 0 < g) (hG : g ≤ G)
    (u v : K) : (e - f ^ 2 / g) * u ^ 2 ≤ form E F G u v := by
  have hGpos : 0 < G := hg.trans_le hG
  have hsquare : form E F G u v = (E - F ^ 2 / G) * u ^ 2 + G * (v + F / G * u) ^ 2 := by
    unfold form
    field_simp
    ring
  have hmixed : F ^ 2 / G ≤ f ^ 2 / g := by
    have hsq : F ^ 2 ≤ f ^ 2 := sq_le_sq' (by linarith [neg_abs_le F]) ((le_abs_self F).trans hF)
    exact div_le_div₀ (sq_nonneg f) hsq hg hG
  rw [hsquare]
  have hleft : (e - f ^ 2 / g) * u ^ 2 ≤ (E - F ^ 2 / G) * u ^ 2 :=
    mul_le_mul_of_nonneg_right (by linarith) (sq_nonneg u)
  have hrest : 0 ≤ G * (v + F / G * u) ^ 2 := mul_nonneg hGpos.le (sq_nonneg _)
  linarith

end Order

/-! ## Patches -/

/-- **A patch**: the images of the four corners of the unit square, low or high in either
coordinate. -/
structure Patch (K : Type*) where
  ll : K × K
  hl : K × K
  lh : K × K
  hh : K × K

namespace Patch

/-- The inner product. -/
def dot (v w : K × K) : K := v.1 * w.1 + v.2 * w.2

theorem dot_comm (v w : K × K) : dot v w = dot w v := by
  unfold dot
  ring

/-- The square of the distance. -/
def distSq (p q : K × K) : K := (p.1 - q.1) * (p.1 - q.1) + (p.2 - q.2) * (p.2 - q.2)

/-- **The bilinear interpolation** between the corners. -/
def point (P : Patch K) (a b : K) : K × K :=
  ((1 - a) * (1 - b) * P.ll.1 + a * (1 - b) * P.hl.1 + (1 - a) * b * P.lh.1 + a * b * P.hh.1,
    (1 - a) * (1 - b) * P.ll.2 + a * (1 - b) * P.hl.2 + (1 - a) * b * P.lh.2 + a * b * P.hh.2)

/-- The vector along the coordinate line at height `b`. -/
def across (P : Patch K) (b : K) : K × K :=
  ((1 - b) * (P.hl.1 - P.ll.1) + b * (P.hh.1 - P.lh.1),
    (1 - b) * (P.hl.2 - P.ll.2) + b * (P.hh.2 - P.lh.2))

/-- The vector along the coordinate line at `a`. -/
def up (P : Patch K) (a : K) : K × K :=
  ((1 - a) * (P.lh.1 - P.ll.1) + a * (P.hh.1 - P.hl.1),
    (1 - a) * (P.lh.2 - P.ll.2) + a * (P.hh.2 - P.hl.2))

/-- The patch with its coordinates exchanged. -/
def swap (P : Patch K) : Patch K := ⟨P.ll, P.lh, P.hl, P.hh⟩

theorem point_swap (P : Patch K) (a b : K) : P.swap.point b a = P.point a b := by
  unfold point swap
  refine Prod.ext ?_ ?_ <;> ring

@[simp] theorem across_swap (P : Patch K) (a : K) : P.swap.across a = P.up a := rfl

@[simp] theorem up_swap (P : Patch K) (b : K) : P.swap.up b = P.across b := rfl

/-- The difference of two points, along two coordinate lines. -/
theorem point_sub (P : Patch K) (a b x y : K) :
    (P.point a b).1 - (P.point x y).1 = (a - x) * (P.across y).1 + (b - y) * (P.up a).1 ∧
      (P.point a b).2 - (P.point x y).2 = (a - x) * (P.across y).2 + (b - y) * (P.up a).2 := by
  unfold point across up
  refine ⟨?_, ?_⟩ <;> ring

/-- **The distance of two points** is a form of the differences of their coordinates, counted in
cells. -/
theorem distSq_point (P : Patch K) {m n : K} (hm : m ≠ 0) (hn : n ≠ 0) (a b x y : K) :
    distSq (P.point a b) (P.point (x / m) (y / n)) =
      form (dot (P.across (y / n)) (P.across (y / n)) / m ^ 2)
        (dot (P.across (y / n)) (P.up a) / (m * n)) (dot (P.up a) (P.up a) / n ^ 2)
        (m * a - x) (n * b - y) := by
  obtain ⟨t, rfl⟩ : ∃ t, x = m * t := ⟨x / m, (mul_div_cancel₀ x hm).symm⟩
  obtain ⟨r, rfl⟩ : ∃ r, y = n * r := ⟨y / n, (mul_div_cancel₀ y hn).symm⟩
  rw [mul_div_cancel_left₀ t hm, mul_div_cancel_left₀ r hn]
  unfold distSq form dot
  rw [(P.point_sub a b t r).1, (P.point_sub a b t r).2]
  field_simp
  ring

/-! ## The grid on a patch -/

variable [LinearOrder K]

/-- **The cells of the grid are reduced**, wherever on the patch their sides are measured. -/
def Regular (P : Patch K) (m n : K) : Prop :=
  ∀ a b, 0 ≤ a → a ≤ 1 → 0 ≤ b → b ≤ 1 →
    Reduced (dot (P.across b) (P.across b) / m ^ 2) (dot (P.across b) (P.up a) / (m * n))
      (dot (P.up a) (P.up a) / n ^ 2)

theorem Regular.swap {P : Patch K} {m n : K} (h : P.Regular m n) : P.swap.Regular n m := by
  intro b a hb hb' ha ha'
  rw [across_swap, up_swap, dot_comm (P.up a) (P.across b), mul_comm n m]
  exact (h a b ha ha' hb hb').symm

/-- The interior nodes of the grid. -/
def Interior (m n i j : ℕ) : Prop := (1 ≤ i ∧ i < m) ∧ (1 ≤ j ∧ j < n)

/-- **The node is nearest** to the point among the interior nodes. -/
def Nearest (P : Patch K) (m n : ℕ) (a b : K) (i j : ℕ) : Prop :=
  Interior m n i j ∧ ∀ i' j', Interior m n i' j' →
    distSq (P.point a b) (P.point (i / m) (j / n)) ≤
      distSq (P.point a b) (P.point (i' / m) (j' / n))

theorem Nearest.swap {P : Patch K} {m n : ℕ} {a b : K} {i j : ℕ} (h : P.Nearest m n a b i j) :
    P.swap.Nearest n m b a j i := by
  refine ⟨h.1.symm, fun j' i' hin => ?_⟩
  rw [point_swap, point_swap, point_swap]
  exact h.2 i' j' hin.symm

variable [IsStrictOrderedRing K]

/-- In the coordinate where the nearest node is further off, it is at most one cell off: otherwise
the next node on that side is an interior one and nearer. -/
theorem Regular.near_of_le {P : Patch K} {m n : ℕ} (h : P.Regular (m : K) n) {a b : K} {i j : ℕ}
    (ha : 0 ≤ a ∧ a ≤ 1) (hnear : P.Nearest m n a b i j)
    (hle : |n * b - j| ≤ |m * a - i|) : |m * a - i| ≤ 1 := by
  obtain ⟨⟨⟨hi, him⟩, hj, hjn⟩, hleast⟩ := hnear
  have hm : (0 : K) < m := by exact_mod_cast (by omega : 0 < m)
  have hn : (0 : K) < n := by exact_mod_cast (by omega : 0 < n)
  have hred := h a (j / n) ha.1 ha.2 (by positivity)
    ((div_le_one hn).mpr (by exact_mod_cast hjn.le))
  by_contra hfar
  rw [not_le] at hfar
  have hstep : ∀ (s : K) (i' : ℕ), s ^ 2 = 1 → s * (m * a - i) = |m * a - i| → (i' : K) = i + s →
      ¬ (1 ≤ i' ∧ i' < m) := by
    intro s i' hs habs hi' hin
    have hlt := hred.step_lt hs (habs ▸ hfar) (habs ▸ hle)
    have hnot := hleast i' j ⟨hin, hj, hjn⟩
    rw [P.distSq_point hm.ne' hn.ne', P.distSq_point hm.ne' hn.ne', hi', ← sub_sub] at hnot
    exact absurd hnot (not_le.mpr hlt)
  rcases le_or_gt 0 ((m : K) * a - i) with hpos | hneg
  · rw [abs_of_nonneg hpos] at hfar
    refine hstep 1 (i + 1) (one_pow 2) ?_ (by push_cast; rfl) ⟨by omega, ?_⟩
    · rw [one_mul, abs_of_nonneg hpos]
    · -- the point lies on the patch, so there is room for one more cell
      have hmul : (m : K) * a ≤ m := mul_le_of_le_one_right hm.le ha.2
      have hlt : ((i + 1 : ℕ) : K) < m := by
        push_cast
        linarith
      exact_mod_cast hlt
  · rw [abs_of_neg hneg] at hfar
    have hone : (1 : K) < i := by
      have hmul : 0 ≤ (m : K) * a := mul_nonneg hm.le ha.1
      linarith
    have hi2 : 1 < i := by exact_mod_cast hone
    refine hstep (-1) (i - 1) (by ring) ?_ ?_ (by omega)
    · rw [neg_one_mul, abs_of_neg hneg]
    · rw [Nat.cast_sub hi, Nat.cast_one]
      ring

/-- **The nearest interior node brackets the point**, up to the border. -/
theorem Regular.bracket {P : Patch K} {m n : ℕ} (h : P.Regular (m : K) n) {a b : K} {i j : ℕ}
    (ha : 0 ≤ a ∧ a ≤ 1) (hb : 0 ≤ b ∧ b ≤ 1) (hnear : P.Nearest m n a b i j) :
    |m * a - i| ≤ 1 ∧ |n * b - j| ≤ 1 := by
  rcases le_total |n * b - j| |m * a - i| with hle | hle
  · have hcol := h.near_of_le ha hnear hle
    exact ⟨hcol, hle.trans hcol⟩
  · have hrow := h.swap.near_of_le hb hnear.swap hle
    exact ⟨hle.trans hrow, hrow⟩

end Patch

end HandlingRobot
