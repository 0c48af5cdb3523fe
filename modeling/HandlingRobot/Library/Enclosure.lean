import Mathlib.Data.Int.Notation
import Mathlib.Tactic.ByContra
import Mathlib.Tactic.Common

/-! # Enclosures in the integer grid

Four curves, each the graph of a function over one of the axes that moves by at most one from a
column (or row) to the next, meet in four corners. A walk that goes in single steps along the axes
and does not enter the curves cannot leave the points between them. The curves may be connected by
their corners only, as the steps along them are diagonal.

* **`Fence`** — a curve, continued by constants beyond its ends.
* **`Enclosure`**, **`Enclosure.Inside`** — the four curves, and the points between them.
* **`Enclosure.step`** — a step that does not enter the curves stays between them.
* **`Fence.Joins`**, **`Quad`** — curves between given corners, and four of them that are kept apart
  by their corners. -/

namespace HandlingRobot

/-! ## One curve -/

/-- **A curve over the interval from `lo` to `hi`**, continued by constants. -/
structure Fence where
  lo : ℤ
  hi : ℤ
  pos : ℤ → ℤ
  /-- It rises by at most one. -/
  pos_succ_le : ∀ t, pos (t + 1) ≤ pos t + 1
  /-- It falls by at most one. -/
  pos_le_succ : ∀ t, pos t ≤ pos (t + 1) + 1
  pos_below : ∀ t, t ≤ lo → pos t = pos lo
  pos_above : ∀ t, hi ≤ t → pos t = pos hi

/-- The point at height `v` over `t` is one of the curve itself. -/
def Fence.Covers (F : Fence) (t v : ℤ) : Prop := F.lo ≤ t ∧ t ≤ F.hi ∧ F.pos t = v

instance (F : Fence) (t v : ℤ) : Decidable (F.Covers t v) := inferInstanceAs (Decidable (_ ∧ _ ∧ _))

/-- Next to each other on the line. -/
def Near (t t' : ℤ) : Prop := t' = t + 1 ∨ t = t' + 1

theorem Fence.pos_near (F : Fence) {t t' : ℤ} (h : Near t t') :
    F.pos t' ≤ F.pos t + 1 ∧ F.pos t ≤ F.pos t' + 1 := by
  rcases h with rfl | rfl
  · exact ⟨F.pos_succ_le t, F.pos_le_succ t⟩
  · exact ⟨F.pos_le_succ t', F.pos_succ_le t'⟩

/-- Where a curve changes, it is not continued by a constant. -/
theorem Fence.covers_of_ne (F : Fence) {t t' : ℤ} (h : Near t t') (hne : F.pos t' ≠ F.pos t) :
    F.Covers t' (F.pos t') := by
  refine ⟨?_, ?_, rfl⟩
  · by_contra hlo
    refine hne ?_
    rw [F.pos_below t' (by omega), F.pos_below t (by rcases h with rfl | rfl <;> omega)]
  · by_contra hhi
    refine hne ?_
    rw [F.pos_above t' (by omega), F.pos_above t (by rcases h with rfl | rfl <;> omega)]

/-- **A step along the axis of a curve** does not cross it from below. -/
theorem Fence.lt_pos_of_near (F : Fence) {t t' v : ℤ} (hv : v < F.pos t) (h : Near t t')
    (hno : ¬ F.Covers t' v) : v < F.pos t' := by
  by_contra hle
  have hnear := F.pos_near h
  have hv' : F.pos t' = v := by omega
  exact hno (hv' ▸ F.covers_of_ne h (by omega))

@[inherit_doc Fence.lt_pos_of_near]
theorem Fence.pos_lt_of_near (F : Fence) {t t' v : ℤ} (hv : F.pos t < v) (h : Near t t')
    (hno : ¬ F.Covers t' v) : F.pos t' < v := by
  by_contra hle
  have hnear := F.pos_near h
  have hv' : F.pos t' = v := by omega
  exact hno (hv' ▸ F.covers_of_ne h (by omega))

/-! ## Four curves -/

/-- **Four curves that meet in four corners**: `left` and `right` over the vertical axis, `bottom`
and `top` over the horizontal one. -/
structure Enclosure where
  left : Fence
  right : Fence
  bottom : Fence
  top : Fence
  left_bottom : left.pos left.lo = bottom.lo ∧ bottom.pos bottom.lo = left.lo
  left_top : left.pos left.hi = top.lo ∧ top.pos top.lo = left.hi
  right_bottom : right.pos right.lo = bottom.hi ∧ bottom.pos bottom.hi = right.lo
  right_top : right.pos right.hi = top.hi ∧ top.pos top.hi = right.hi

/-- The points between the curves. -/
def Enclosure.Inside (E : Enclosure) (x y : ℤ) : Prop :=
  (E.left.pos y < x ∧ x < E.right.pos y) ∧ (E.bottom.pos x < y ∧ y < E.top.pos x)

/-- The points of the curves. -/
def Enclosure.OnFence (E : Enclosure) (x y : ℤ) : Prop :=
  (E.left.Covers y x ∨ E.right.Covers y x) ∨ (E.bottom.Covers x y ∨ E.top.Covers x y)

/-- The axes exchanged. -/
def Enclosure.transpose (E : Enclosure) : Enclosure where
  left := E.bottom
  right := E.top
  bottom := E.left
  top := E.right
  left_bottom := E.left_bottom.symm
  left_top := E.right_bottom.symm
  right_bottom := E.left_top.symm
  right_top := E.right_top.symm

variable {E : Enclosure}

/-- A step to the right that meets the right curve meets it between its ends. -/
theorem Enclosure.right_covers {x y : ℤ} (h : E.Inside x y) (hx : x + 1 = E.right.pos y) :
    E.right.Covers y (x + 1) := by
  obtain ⟨-, hbottom, htop⟩ := h
  obtain ⟨hrb, hbr⟩ := E.right_bottom
  obtain ⟨hrt, htr⟩ := E.right_top
  refine ⟨?_, ?_, hx.symm⟩
  · by_contra hlo
    -- below the right curve the corner column of the bottom is next
    rw [E.right.pos_below y (by omega), hrb] at hx
    have hrise := E.bottom.pos_succ_le x
    rw [hx, hbr] at hrise
    omega
  · by_contra hhi
    rw [E.right.pos_above y (by omega), hrt] at hx
    have hfall := E.top.pos_le_succ x
    rw [hx, htr] at hfall
    omega

/-- A step to the left that meets the left curve meets it between its ends. -/
theorem Enclosure.left_covers {x y : ℤ} (h : E.Inside (x + 1) y) (hx : x = E.left.pos y) :
    E.left.Covers y x := by
  obtain ⟨-, hbottom, htop⟩ := h
  obtain ⟨hlb, hbl⟩ := E.left_bottom
  obtain ⟨hlt, htl⟩ := E.left_top
  refine ⟨?_, ?_, hx.symm⟩
  · by_contra hlo
    rw [E.left.pos_below y (by omega), hlb] at hx
    have hfall := E.bottom.pos_le_succ x
    rw [hx, hbl] at hfall
    rw [hx] at hbottom
    omega
  · by_contra hhi
    rw [E.left.pos_above y (by omega), hlt] at hx
    have hrise := E.top.pos_succ_le x
    rw [hx, htl] at hrise
    rw [hx] at htop
    omega

/-- **A step along the horizontal axis** that does not enter a curve stays between them. -/
theorem Enclosure.step_horizontal {x x' y : ℤ} (h : E.Inside x y) (hnear : Near x x')
    (hno : ¬ E.OnFence x' y) : E.Inside x' y := by
  have hvertical : E.bottom.pos x' < y ∧ y < E.top.pos x' :=
    ⟨E.bottom.pos_lt_of_near h.2.1 hnear fun hc => hno (Or.inr (Or.inl hc)),
      E.top.lt_pos_of_near h.2.2 hnear fun hc => hno (Or.inr (Or.inr hc))⟩
  have hinside := h
  obtain ⟨⟨hleft, hright⟩, -⟩ := h
  refine ⟨?_, hvertical⟩
  rcases hnear with rfl | rfl
  · have hmeet : x + 1 ≠ E.right.pos y := fun hx =>
      hno (Or.inl (Or.inr (Enclosure.right_covers hinside hx)))
    omega
  · have hmeet : x' ≠ E.left.pos y := fun hx =>
      hno (Or.inl (Or.inl (Enclosure.left_covers hinside hx)))
    omega

/-- The four neighbours of a point. -/
def Neighbour (p q : ℤ × ℤ) : Prop := (q.2 = p.2 ∧ Near p.1 q.1) ∨ (q.1 = p.1 ∧ Near p.2 q.2)

/-- **One step**, along either axis. -/
theorem Enclosure.step {p q : ℤ × ℤ} (h : E.Inside p.1 p.2) (hpq : Neighbour p q)
    (hno : ¬ E.OnFence q.1 q.2) : E.Inside q.1 q.2 := by
  rcases hpq with ⟨hsame, hnear⟩ | ⟨hsame, hnear⟩
  · rw [hsame] at hno ⊢
    exact E.step_horizontal h hnear hno
  · rw [hsame] at hno ⊢
    have htransposed : E.transpose.Inside p.2 p.1 := h.symm
    exact (E.transpose.step_horizontal htransposed hnear fun hc => hno (Or.symm hc)).symm

/-! ## Given corners -/

/-- **A curve over the vertical axis** from the corner `a` up to `b`, between their columns. -/
structure Fence.Joins (F : Fence) (a b : ℤ × ℤ) : Prop where
  lo : F.lo = a.2
  hi : F.hi = b.2
  pos_lo : F.pos a.2 = a.1
  pos_hi : F.pos b.2 = b.1
  mem : ∀ t, min a.1 b.1 ≤ F.pos t ∧ F.pos t ≤ max a.1 b.1

/-- **Four curves between four corners**, named by the end of both axes they lie at; the corners of
one end are apart from those of the other. -/
structure Quad (L R B T : Fence) (ll lh hl hh : ℤ × ℤ) : Prop where
  left : L.Joins ll lh
  right : R.Joins hl hh
  bottom : B.Joins ll.swap hl.swap
  top : T.Joins lh.swap hh.swap
  columns : max ll.1 lh.1 < min hl.1 hh.1
  rows : max ll.2 hl.2 < min lh.2 hh.2

section Quad

variable {L R B T : Fence} {ll lh hl hh : ℤ × ℤ}

/-- The four curves enclose the points between them. -/
def Quad.enclosure (h : Quad L R B T ll lh hl hh) : Enclosure where
  left := L
  right := R
  bottom := B
  top := T
  left_bottom := by
    rw [h.left.lo, h.left.pos_lo, h.bottom.lo]
    exact ⟨rfl, h.bottom.pos_lo⟩
  left_top := by
    rw [h.left.hi, h.left.pos_hi, h.top.lo]
    exact ⟨rfl, h.top.pos_lo⟩
  right_bottom := by
    rw [h.right.lo, h.right.pos_lo, h.bottom.hi]
    exact ⟨rfl, h.bottom.pos_hi⟩
  right_top := by
    rw [h.right.hi, h.right.pos_hi, h.top.hi]
    exact ⟨rfl, h.top.pos_hi⟩

/-- `v` lies strictly between the curves `F` and `G` over `t`, on whichever side each of them is. -/
def Between (F G : Fence) (t v : ℤ) : Prop :=
  ∃ a b, F.Covers t a ∧ G.Covers t b ∧ ((a < v ∧ v < b) ∨ (b < v ∧ v < a))

/-- Every curve stays between the corners it joins. -/
theorem Quad.mem (h : Quad L R B T ll lh hl hh) (x y : ℤ) :
    ((min ll.1 lh.1 ≤ L.pos y ∧ L.pos y ≤ max ll.1 lh.1) ∧
      min hl.1 hh.1 ≤ R.pos y ∧ R.pos y ≤ max hl.1 hh.1) ∧
    (min ll.2 hl.2 ≤ B.pos x ∧ B.pos x ≤ max ll.2 hl.2) ∧
      min lh.2 hh.2 ≤ T.pos x ∧ T.pos x ≤ max lh.2 hh.2 :=
  ⟨⟨h.left.mem y, h.right.mem y⟩, h.bottom.mem x, h.top.mem x⟩

/-- A point between the curves in its row and in its column is inside. -/
theorem Quad.inside (h : Quad L R B T ll lh hl hh) {x y : ℤ} (hrow : Between L R y x)
    (hcolumn : Between B T x y) : h.enclosure.Inside x y := by
  obtain ⟨a, b, ⟨-, -, ha⟩, ⟨-, -, hb⟩, hx⟩ := hrow
  obtain ⟨c, d, ⟨-, -, hc⟩, ⟨-, -, hd⟩, hy⟩ := hcolumn
  have hcolumns := h.columns
  have hrows := h.rows
  obtain ⟨⟨hleft, hright⟩, hbottom, htop⟩ := h.mem x y
  refine ⟨?_, ?_⟩
  · show L.pos y < x ∧ x < R.pos y
    omega
  · show B.pos x < y ∧ y < T.pos x
    omega

/-- **The points inside lie strictly between the outermost corners.** -/
theorem Quad.inside_box (h : Quad L R B T ll lh hl hh) {x y : ℤ} (hin : h.enclosure.Inside x y) :
    (min ll.1 lh.1 < x ∧ x < max hl.1 hh.1) ∧ (min ll.2 hl.2 < y ∧ y < max lh.2 hh.2) := by
  obtain ⟨hx, hy⟩ := hin
  have hx' : L.pos y < x ∧ x < R.pos y := hx
  have hy' : B.pos x < y ∧ y < T.pos x := hy
  obtain ⟨⟨hleft, hright⟩, hbottom, htop⟩ := h.mem x y
  omega

end Quad

end HandlingRobot
