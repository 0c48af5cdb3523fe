import HandlingRobot.Vision.Init
import Mathlib.Data.List.GetD

/-! # Connected regions of the frame

A flood that meets no labels of its own colour labels a whole connected region, and several floods
one after the other label several regions.

* **`Connected`**, **`IsComponent`** — the regions, with four or eight neighbours.
* **`bfs_component`** — what a flood labels, when the labels so far are closed.
* **`Tally`** — the tables after floods of the regions `rs`, kept by one more flood (`Tally.grow`).
  -/

namespace HandlingRobot

/-! ## Regions -/

/-- The neighbours of `p` on the frame with its colour. -/
def linked (f : Frame) (four_or_8 : ℕ) (p : Pixel) : List Pixel :=
  ((dir.take four_or_8).map fun d => (p.1 + d.1, p.2 + d.2)).filter fun q =>
    OnFrame q ∧ isWhite f q = isWhite f p

theorem mem_linked {f : Frame} {k : ℕ} {p q : Pixel} :
    q ∈ linked f k p ↔ (∃ d ∈ dir.take k, (p.1 + d.1, p.2 + d.2) = q) ∧
      OnFrame q ∧ isWhite f q = isWhite f p := by
  rw [linked, List.mem_filter, List.mem_map, decide_eq_true_eq]

/-- **The pixels are connected** by pixels of one colour. -/
def Connected (f : Frame) (four_or_8 : ℕ) : Pixel → Pixel → Prop := Reach (linked f four_or_8)

/-- The list holds every pixel connected with `x` once. -/
structure IsComponent (f : Frame) (four_or_8 : ℕ) (x : Pixel) (l : List Pixel) : Prop where
  nodup : l.Nodup
  mem_iff : ∀ q, q ∈ l ↔ Connected f four_or_8 x q

variable {f : Frame} {k : ℕ}

/-- **The directions come in opposite pairs.** -/
theorem neg_mem_dir (hk : k = 4 ∨ k = 8) {d : ℤ × ℤ} (hd : d ∈ dir.take k) :
    (-d.1, -d.2) ∈ dir.take k := by
  have hall : ∀ d ∈ dir.take 4, (-d.1, -d.2) ∈ dir.take 4 := by decide
  have hall' : ∀ d ∈ dir.take 8, (-d.1, -d.2) ∈ dir.take 8 := by decide
  rcases hk with rfl | rfl
  · exact hall d hd
  · exact hall' d hd

theorem linked_symm (hk : k = 4 ∨ k = 8) {p q : Pixel} (hp : OnFrame p) (h : q ∈ linked f k p) :
    p ∈ linked f k q := by
  obtain ⟨⟨d, hd, rfl⟩, -, hcolour⟩ := mem_linked.mp h
  refine mem_linked.mpr ⟨⟨(-d.1, -d.2), neg_mem_dir hk hd, ?_⟩, hp, hcolour.symm⟩
  exact Prod.ext (by dsimp only; omega) (by dsimp only; omega)

/-- Connected pixels have one colour and lie on the frame. -/
theorem Connected.colour {x q : Pixel} (h : Connected f k x q) : isWhite f q = isWhite f x := by
  induction h with
  | refl => rfl
  | tail _ hstep ih => exact (mem_linked.mp hstep).2.2.trans ih

theorem Connected.onFrame {x q : Pixel} (hx : OnFrame x) (h : Connected f k x q) : OnFrame q := by
  cases h with
  | refl => exact hx
  | tail _ hstep => exact (mem_linked.mp hstep).2.1

theorem Connected.symm (hk : k = 4 ∨ k = 8) {x q : Pixel} (hx : OnFrame x)
    (h : Connected f k x q) : Connected f k q x := by
  induction h with
  | refl => exact .refl
  | tail hwalk hstep ih =>
      exact Relation.ReflTransGen.head (linked_symm hk (Connected.onFrame hx hwalk) hstep) ih

theorem Connected.trans {x y z : Pixel} (h : Connected f k x y) (h' : Connected f k y z) :
    Connected f k x z := Relation.ReflTransGen.trans h h'

/-- A stretch of a row is connected. -/
theorem connected_row (hk : k = 4 ∨ k = 8) {x x' y : ℤ} (hle : x ≤ x')
    (h : ∀ a, x ≤ a → a ≤ x' → OnFrame (a, y) ∧ isWhite f (a, y) = isWhite f (x, y)) :
    Connected f k (x, y) (x', y) := by
  have hdir : ((1, 0) : ℤ × ℤ) ∈ dir.take k := by
    rcases hk with rfl | rfl <;> decide
  induction x', hle using Int.leInduction with
  | base => exact .refl
  | succ b hb ih =>
      have hnext := h (b + 1) (by omega) le_rfl
      refine (ih fun a ha ha' => h a ha (by omega)).tail (mem_linked.mpr ⟨⟨(1, 0), hdir, ?_⟩,
        hnext.1, hnext.2.trans (h b hb (by omega)).2.symm⟩)
      exact Prod.ext rfl (add_zero y)

/-- A stretch of a column is connected. -/
theorem connected_column (hk : k = 4 ∨ k = 8) {x y y' : ℤ} (hle : y ≤ y')
    (h : ∀ a, y ≤ a → a ≤ y' → OnFrame (x, a) ∧ isWhite f (x, a) = isWhite f (x, y)) :
    Connected f k (x, y) (x, y') := by
  have hdir : ((0, 1) : ℤ × ℤ) ∈ dir.take k := by
    rcases hk with rfl | rfl <;> decide
  induction y', hle using Int.leInduction with
  | base => exact .refl
  | succ b hb ih =>
      have hnext := h (b + 1) (by omega) le_rfl
      refine (ih fun a ha ha' => h a ha (by omega)).tail (mem_linked.mpr ⟨⟨(0, 1), hdir, ?_⟩,
        hnext.1, hnext.2.trans (h b hb (by omega)).2.symm⟩)
      exact Prod.ext (add_zero x) rfl

theorem IsComponent.self_mem {x : Pixel} {l : List Pixel} (h : IsComponent f k x l) : x ∈ l :=
  (h.mem_iff x).mpr .refl

/-- A region from any of its pixels. -/
theorem IsComponent.of_connected (hk : k = 4 ∨ k = 8) {x y : Pixel} {l : List Pixel}
    (hx : OnFrame x) (h : IsComponent f k x l) (hxy : Connected f k x y) : IsComponent f k y l :=
  ⟨h.nodup, fun q => (h.mem_iff q).trans
    ⟨fun hq => (hxy.symm hk hx).trans hq, fun hq => hxy.trans hq⟩⟩

/-- A region is closed. -/
theorem IsComponent.closed {x p q : Pixel} {l : List Pixel} (h : IsComponent f k x l) (hp : p ∈ l)
    (hq : q ∈ linked f k p) : q ∈ l :=
  (h.mem_iff q).mpr (((h.mem_iff p).mp hp).tail hq)

/-- A region as a set. -/
theorem IsComponent.mem_toFinset {x : Pixel} {l : List Pixel} (h : IsComponent f k x l)
    (q : Pixel) : q ∈ l.toFinset ↔ Connected f k x q := List.mem_toFinset.trans (h.mem_iff q)

/-- Lists without a common element are different sets. -/
theorem nodup_map_toFinset {ls : List (List Pixel)} (hdisjoint : ls.Pairwise List.Disjoint)
    (hne : ∀ l ∈ ls, l ≠ []) : (ls.map List.toFinset).Nodup := by
  rw [List.Nodup, List.pairwise_map]
  refine hdisjoint.imp_of_mem fun {l l'} hl _ hdis heq => ?_
  obtain ⟨x, hx⟩ := List.exists_mem_of_ne_nil l (hne l hl)
  have hx' : x ∈ l'.toFinset := heq ▸ List.mem_toFinset.mpr hx
  exact hdis hx (List.mem_toFinset.mp hx')

/-! ## One flood -/

/-- The pixels with a label and the colour `white` are made up of whole regions. -/
def ClosedLabels (f : Frame) (four_or_8 : ℕ) (white : Bool) (s : Labels) : Prop :=
  ∀ p q, isWhite f p = white → s.img p ≠ -1 → q ∈ linked f four_or_8 p → s.img q ≠ -1

/-- **Closed labels do not stand in the way of a flood.** -/
theorem reach_iff_connected (hk : k = 4 ∨ k = 8) {s : Labels} {x : Pixel} (hx : OnFrame x)
    (hnew : s.img x = -1) (hclosed : ClosedLabels f k (isWhite f x) s) {q : Pixel} :
    Reach (spread f s (dir.take k)) x q ↔ Connected f k x q := by
  constructor
  · intro h
    induction h with
    | refl => exact .refl
    | tail _ hstep ih =>
        obtain ⟨hdir, hframe, -, hcolour⟩ := mem_spread.mp hstep
        exact ih.tail (mem_linked.mpr ⟨hdir, hframe, hcolour⟩)
  · intro h
    suffices hboth : Reach (spread f s (dir.take k)) x q ∧ s.img q = -1 from hboth.1
    induction h with
    | refl => exact ⟨.refl, hnew⟩
    | @tail p q hwalk hstep ih =>
        obtain ⟨hdir, hframe, hcolour⟩ := mem_linked.mp hstep
        have hfree : s.img q = -1 := by
          by_contra hlabel
          have hpq := linked_symm hk (Connected.onFrame hx hwalk) hstep
          exact hclosed q p (hcolour.trans (Connected.colour hwalk)) hlabel hpq ih.2
        exact ⟨ih.1.tail (mem_spread.mpr ⟨hdir, hframe, hfree, hcolour⟩), hfree⟩

/-- **A flood labels the region of its seed.** -/
theorem bfs_component (hk : k = 4 ∨ k = 8) {s : Labels} {x : Pixel} (hx : OnFrame x)
    (hnew : s.img x = -1) (hclosed : ClosedLabels f k (isWhite f x) s) (cnt : ℕ) (tag : Bool) :
    ∃ N l, IsComponent f k x l ∧ (∀ q ∈ l, s.img q = -1) ∧ ∀ fuel, N ≤ fuel →
      bfs f fuel x cnt k tag s =
        some (s.flooded cnt l (metBy f s tag (dir.take k) l)) := by
  obtain ⟨N, l, hnodup, hl, hrun⟩ := bfs_ends f x cnt k tag s
  refine ⟨N, l, ⟨hnodup, fun q => (hl q).trans (reach_iff_connected hk hx hnew hclosed)⟩,
    fun q hq => ?_, hrun⟩
  cases (hl q).mp hq with
  | refl => exact hnew
  | tail _ hstep => exact (mem_spread.mp hstep).2.2.1

/-! ## Several floods -/

/-- The entry of `block` for a list of pixels. -/
def tally (l : List Pixel) : Blob := l.foldl Blob.add ⟨0, 0, 0⟩

theorem foldl_add (l : List Pixel) : ∀ b : Blob, l.foldl Blob.add b =
    ⟨b.num + l.length, b.sumX + (l.map Prod.fst).sum, b.sumY + (l.map Prod.snd).sum⟩ := by
  induction l with
  | nil =>
      intro b
      simp
  | cons q l ih =>
      intro b
      rw [List.foldl_cons, ih, Blob.mk.injEq]
      simp only [Blob.add, List.length_cons, List.map_cons, List.sum_cons, Nat.cast_succ]
      exact ⟨by omega, by omega, by omega⟩

theorem tally_eq (l : List Pixel) :
    tally l = ⟨l.length, (l.map Prod.fst).sum, (l.map Prod.snd).sum⟩ := by
  rw [tally, foldl_add]
  simp

/-- **The tables after floods of the regions `rs`**, in the order of their labels. -/
structure Tally (t : Labels × ℕ) (rs : List (List Pixel)) : Prop where
  cnt : t.2 = rs.length
  img : ∀ q, t.1.img q = -1 ↔ ∀ l ∈ rs, q ∉ l
  block : ∀ i, t.1.block i = tally (rs.getD i [])
  disjoint : rs.Pairwise List.Disjoint

/-- The tables before all floods. -/
theorem tally_nil : Tally (⟨fun _ => -1, fun _ => ⟨0, 0, 0⟩, []⟩, 0) [] :=
  ⟨rfl, by simp, fun _ => rfl, .nil⟩

/-- **One more flood.** -/
theorem Tally.grow {t : Labels × ℕ} {rs : List (List Pixel)} (h : Tally t rs) {l : List Pixel}
    (es : List Pixel) (hnew : ∀ q ∈ l, t.1.img q = -1) :
    Tally (t.1.flooded t.2 l es, t.2 + 1) (rs ++ [l]) := by
  refine ⟨?_, fun q => ?_, fun i => ?_, ?_⟩
  · rw [List.length_append, List.length_singleton, h.cnt]
  · show (if q ∈ l then (t.2 : ℤ) else t.1.img q) = -1 ↔ _
    simp only [List.mem_append, List.mem_singleton]
    by_cases hq : q ∈ l
    · rw [if_pos hq]
      constructor
      · intro hlabel
        omega
      · exact fun hall => absurd hq (hall l (Or.inr rfl))
    · rw [if_neg hq, h.img]
      constructor
      · rintro hall l' (hl' | rfl)
        · exact hall l' hl'
        · exact hq
      · exact fun hall l' hl' => hall l' (Or.inl hl')
  · show Function.update t.1.block t.2 (l.foldl Blob.add (t.1.block t.2)) i = _
    -- the entry of the new region was empty so far
    have hempty : rs.getD rs.length [] = [] := List.getD_eq_default _ _ (Nat.le_refl _)
    by_cases hi : i = t.2
    · subst hi
      rw [Function.update_self, h.block, h.cnt, hempty,
        List.getD_append_right _ _ _ _ (Nat.le_refl _), Nat.sub_self]
      rfl
    · rw [Function.update_of_ne hi, h.block]
      rcases Nat.lt_or_gt_of_ne (h.cnt ▸ hi) with hlt | hgt
      · rw [List.getD_append _ _ _ _ hlt]
      · rw [List.getD_eq_default _ _ hgt.le, List.getD_eq_default]
        rw [List.length_append, List.length_singleton]
        exact hgt
  · rw [List.pairwise_append]
    refine ⟨h.disjoint, List.pairwise_singleton _ _, fun l' hl' m hm q hq hq' => ?_⟩
    obtain rfl := List.mem_singleton.mp hm
    exact (h.img q).mp (hnew q hq') l' hl' hq

/-- A pixel with a label lies in one of the regions. -/
theorem Tally.labelled {t : Labels × ℕ} {rs : List (List Pixel)} (h : Tally t rs) {q : Pixel} :
    t.1.img q ≠ -1 ↔ ∃ l ∈ rs, q ∈ l := by
  rw [Ne, h.img]
  simp only [not_forall, not_not, exists_prop]

/-- The blocks from 1 on. -/
theorem Tally.blocks {t : Labels × ℕ} {rs : List (List Pixel)} (h : Tally t rs) :
    (List.range' 1 (t.2 - 1)).map t.1.block = (rs.drop 1).map tally := by
  refine List.ext_getElem ?_ fun i hi hi' => ?_
  · simp [h.cnt]
  · simp only [List.getElem_map, List.getElem_range', List.getElem_drop, h.block]
    rw [List.length_map, List.length_drop] at hi'
    rw [List.getD_eq_getElem _ _ (by omega)]
    simp

end HandlingRobot
