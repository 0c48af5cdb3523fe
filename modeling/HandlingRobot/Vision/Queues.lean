import HandlingRobot.Library.LinkedQueue
import HandlingRobot.Vision.Components
import Mathlib.Algebra.BigOperators.Group.Finset.Basic

/-! # The flood with its two queues

`BFS` keeps the columns and the rows of the pixels that wait in two linked lists, whose items are of
type `uint8_t`. On the frame this is one queue of pixels, the one of `bfs`.

* **`BfsState`**, **`bfsQueues`** — `BFS` with its queues in memory.
* **`Queued`** — the two queues hold these pixels.
* **`bfsQueues_eq_bfs`** — no pointer goes wrong, and the tables are those of `bfs`.
* **`bfsQueues_exact`** — what `BFS` labels, counts and records. -/

namespace HandlingRobot

/-! ## The function -/

/-- The conversion to `ElementType`. -/
def toItem (z : ℤ) : ℕ := (z % 256).toNat

/-- The variables of `BFS`: the tables, and the queues `qx` and `qy` in memory. -/
structure BfsState where
  labels : Labels
  mem : Memory ℕ
  qx : LinkedQueue
  qy : LinkedQueue

/-- `enqueue(qx, x), enqueue(qy, y)`. -/
def BfsState.enqueue (t : BfsState) (q : Pixel) : Option BfsState := do
  let (qx, mem) ← t.qx.enqueue t.mem (toItem q.1)
  let (qy, mem) ← t.qy.enqueue mem (toItem q.2)
  some { t with mem := mem, qx := qx, qy := qy }

/-- `nx = dequeue(qx), ny = dequeue(qy)`. -/
def BfsState.dequeue (t : BfsState) : Option (Pixel × BfsState) := do
  let (nx, qx, mem) ← t.qx.dequeue t.mem
  let (ny, qy, mem) ← t.qy.dequeue mem
  some (((nx : ℤ), (ny : ℤ)), { t with mem := mem, qx := qx, qy := qy })

/-- The neighbour of `n` in the direction `d`. -/
def BfsState.visit (f : Frame) (cnt : ℕ) (tag : Bool) (n : Pixel) (t : BfsState) (d : ℤ × ℤ) :
    Option BfsState :=
  let q := (n.1 + d.1, n.2 + d.2)
  if ¬ OnFrame q ∨ t.labels.img q ≠ -1 then some t
  else if xor (isWhite f n) (isWhite f q) then
    some (if tag then
      { t with labels := { t.labels with edge := t.labels.edge ++ [q] } } else t)
  else { t with labels := t.labels.mark cnt q }.enqueue q

/-- The loop `while (!is_empty(qx))`. -/
def bfsQueuesLoop (f : Frame) (cnt : ℕ) (dirs : List (ℤ × ℤ)) (tag : Bool) :
    ℕ → BfsState → Option BfsState
  | 0, _ => none
  | fuel + 1, t =>
      if t.qx.isEmpty then some t
      else do
        let (n, t) ← t.dequeue
        let t ← dirs.foldlM (BfsState.visit f cnt tag n) t
        bfsQueuesLoop f cnt dirs tag fuel t

/-- **`BFS(x, y, cnt, _4or_8, tag)`** in a memory `mem`: the tables and the memory it leaves; `none`
when it follows a pointer that leads nowhere, or the fuel does not last. -/
def bfsQueues (f : Frame) (fuel : ℕ) (x : Pixel) (cnt four_or_8 : ℕ) (tag : Bool) (mem : Memory ℕ)
    (s : Labels) : Option (Labels × Memory ℕ) := do
  let t : BfsState := { labels := s, mem := mem, qx := .create, qy := .create }
  let t ← t.enqueue x
  let t ← bfsQueuesLoop f cnt (dir.take four_or_8) tag fuel { t with labels := s.mark cnt x }
  some (t.labels, t.mem)

/-! ## One queue of pixels -/

/-- **The two queues hold these pixels**, in different nodes. -/
structure Queued (t : BfsState) (queue : List Pixel) (xs ys : List (ℕ × ℕ)) : Prop where
  qx : Represents t.mem t.qx xs
  qy : Represents t.mem t.qy ys
  apart : ∀ a ∈ xs.map Prod.fst, a ∉ ys.map Prod.fst
  columns : xs.map Prod.snd = queue.map fun p => toItem p.1
  rows : ys.map Prod.snd = queue.map fun p => toItem p.2
  onFrame : ∀ p ∈ queue, OnFrame p

/-- A pixel of the frame survives the conversion. -/
theorem toItem_pixel {p : Pixel} (h : OnFrame p) :
    (((toItem p.1 : ℕ) : ℤ), ((toItem p.2 : ℕ) : ℤ)) = p := by
  simp only [OnFrame, imgWidth, imgHeight] at h
  refine Prod.ext ?_ ?_
  · show ((p.1 % 256).toNat : ℤ) = p.1
    omega
  · show ((p.2 % 256).toNat : ℤ) = p.2
    omega

/-- The labels do not matter. -/
theorem Queued.with_labels {t : BfsState} {queue : List Pixel} {xs ys : List (ℕ × ℕ)}
    (h : Queued t queue xs ys) (s : Labels) : Queued { t with labels := s } queue xs ys :=
  ⟨h.qx, h.qy, h.apart, h.columns, h.rows, h.onFrame⟩

/-- **A pixel is appended.** -/
theorem Queued.enqueue {t : BfsState} {queue : List Pixel} {xs ys : List (ℕ × ℕ)}
    (h : Queued t queue xs ys) {q : Pixel} (hq : OnFrame q) :
    ∃ t' xs' ys', t.enqueue q = some t' ∧ t'.labels = t.labels ∧
      Queued t' (queue ++ [q]) xs' ys' := by
  obtain ⟨qx, m, hx, hqx, hbrk, hkeep⟩ := h.qx.enqueue (toItem q.1)
  -- the nodes of `qy` have been left alone
  have hqy : Represents m t.qy ys := by
    refine h.qy.frame (by omega) fun a ha => hkeep a (fun hax => h.apart a hax ha) ?_
    have hlt := h.qy.below a ha
    omega
  obtain ⟨qy, m', hy, hqy', hbrk', hkeep'⟩ := hqy.enqueue (toItem q.2)
  have hqx' : Represents m' qx (xs ++ [(t.mem.brk, toItem q.1)]) := by
    refine hqx.frame (by omega) fun a ha => hkeep' a (fun hay => ?_) ?_
    · rw [List.map_append, List.mem_append] at ha
      rcases ha with ha | ha
      · exact h.apart a ha hay
      · obtain rfl := List.mem_singleton.mp ha
        exact absurd (h.qy.below _ hay) (Nat.lt_irrefl _)
    · have hlt := hqx.below a ha
      omega
  refine ⟨{ t with mem := m', qx := qx, qy := qy }, _, _, ?_, rfl,
    ⟨hqx', hqy', fun a ha hay => ?_, ?_, ?_, ?_⟩⟩
  · rw [BfsState.enqueue, hx, Option.bind_eq_bind, Option.bind_some]
    dsimp only
    rw [hy]
    rfl
  · rw [List.map_append, List.mem_append] at ha hay
    rcases ha with ha | ha <;> rcases hay with hay | hay
    · exact h.apart a ha hay
    · have hlt := h.qx.below a ha
      have heq := List.mem_singleton.mp hay
      dsimp only at heq
      omega
    · have hlt := h.qy.below a hay
      have heq := List.mem_singleton.mp ha
      dsimp only at heq
      omega
    · have heq := List.mem_singleton.mp ha
      have heq' := List.mem_singleton.mp hay
      dsimp only at heq heq'
      omega
  · rw [List.map_append, List.map_append, h.columns]
    rfl
  · rw [List.map_append, List.map_append, h.rows]
    rfl
  · intro p hp
    rcases List.mem_append.mp hp with hp | hp
    · exact h.onFrame p hp
    · rw [List.mem_singleton.mp hp]
      exact hq

/-- **The first pixel is taken.** -/
theorem Queued.dequeue {t : BfsState} {n : Pixel} {queue : List Pixel} {xs ys : List (ℕ × ℕ)}
    (h : Queued t (n :: queue) xs ys) :
    ∃ t' xs' ys', t.dequeue = some (n, t') ∧ t'.labels = t.labels ∧ Queued t' queue xs' ys' := by
  obtain ⟨⟨a, d⟩, xs, rfl⟩ := List.exists_cons_of_ne_nil (l := xs) (by
    rintro rfl
    exact absurd h.columns (by simp))
  obtain ⟨⟨b, e⟩, ys, rfl⟩ := List.exists_cons_of_ne_nil (l := ys) (by
    rintro rfl
    exact absurd h.rows (by simp))
  obtain ⟨hd, hcolumns⟩ := List.cons.inj h.columns
  obtain ⟨he, hrows⟩ := List.cons.inj h.rows
  obtain ⟨qx, m, hx, hqx, hbrk, hkeep⟩ := h.qx.dequeue
  -- taking a column out does not touch the queue of the rows
  have hqy : Represents m t.qy ((b, e) :: ys) := by
    refine h.qy.frame (by omega) fun c hc => hkeep c ?_
    rintro rfl
    exact h.apart c List.mem_cons_self hc
  obtain ⟨qy, m', hy, hqy', hbrk', hkeep'⟩ := hqy.dequeue
  -- nor does taking a row out touch that of the columns
  have hqx' : Represents m' qx xs := by
    refine hqx.frame (by omega) fun c hc => hkeep' c ?_
    rintro rfl
    exact h.apart c (List.mem_cons_of_mem _ hc) List.mem_cons_self
  refine ⟨{ t with mem := m', qx := qx, qy := qy }, xs, ys, ?_, rfl, ⟨hqx', hqy',
    fun c hc hcy => h.apart c (List.mem_cons_of_mem _ hc) (List.mem_cons_of_mem _ hcy), hcolumns,
    hrows, fun p hp => h.onFrame p (List.mem_cons_of_mem n hp)⟩⟩
  dsimp only at hd he
  rw [BfsState.dequeue, hx, Option.bind_eq_bind, Option.bind_some]
  dsimp only
  rw [hy, Option.bind_some, hd, he]
  exact congrArg (fun p => some (p, _)) (toItem_pixel (h.onFrame n List.mem_cons_self))

/-- The state agrees with the tables and the queue of `bfs`. -/
def Agrees (t : BfsState) (u : Labels × List Pixel) : Prop :=
  t.labels = u.1 ∧ ∃ xs ys, Queued t u.2 xs ys

/-- **One neighbour.** -/
theorem Agrees.visit {t : BfsState} {u : Labels × List Pixel} (h : Agrees t u) (f : Frame)
    (cnt : ℕ) (tag : Bool) (n : Pixel) (d : ℤ × ℤ) :
    ∃ t', BfsState.visit f cnt tag n t d = some t' ∧ Agrees t' (bfsVisit f cnt tag n u d) := by
  obtain ⟨s, queue⟩ := u
  obtain ⟨hlabels, xs, ys, hq⟩ := h
  dsimp only at hlabels hq
  unfold BfsState.visit bfsVisit
  dsimp only
  rw [hlabels]
  split_ifs with hskip hother htag
  · exact ⟨t, rfl, hlabels, xs, ys, hq⟩
  · exact ⟨_, rfl, rfl, xs, ys, hq.with_labels _⟩
  · exact ⟨t, rfl, hlabels, xs, ys, hq⟩
  · obtain ⟨t', xs', ys', hrun, hlabels', hq'⟩ := (hq.with_labels (s.mark cnt
      (n.1 + d.1, n.2 + d.2))).enqueue (not_not.mp (not_or.mp hskip).1)
    exact ⟨t', hrun, hlabels', xs', ys', hq'⟩

theorem Agrees.visits (f : Frame) (cnt : ℕ) (tag : Bool) (n : Pixel) (dirs : List (ℤ × ℤ)) :
    ∀ {t : BfsState} {u : Labels × List Pixel}, Agrees t u →
      ∃ t', dirs.foldlM (BfsState.visit f cnt tag n) t = some t' ∧
        Agrees t' (dirs.foldl (bfsVisit f cnt tag n) u) := by
  induction dirs with
  | nil => exact fun {t u} h => ⟨t, rfl, h⟩
  | cons d dirs ih =>
      intro t u h
      obtain ⟨t', hrun, h'⟩ := h.visit f cnt tag n d
      rw [List.foldlM_cons, hrun]
      exact ih h'

/-- **The loops agree**, by induction on the fuel. -/
theorem bfsQueuesLoop_eq (f : Frame) (cnt : ℕ) (dirs : List (ℤ × ℤ)) (tag : Bool) (fuel : ℕ) :
    ∀ {t : BfsState} {u : Labels × List Pixel}, Agrees t u →
      (bfsQueuesLoop f cnt dirs tag fuel t).map BfsState.labels =
        (bfsLoop f cnt dirs tag fuel u).map Prod.fst := by
  -- turn after turn, with the queue as the list it represents
  induction fuel with
  | zero => exact fun _ => rfl
  | succ fuel ih =>
      rintro t ⟨s, queue⟩ ⟨hlabels, xs, ys, hq⟩
      dsimp only at hlabels hq
      cases queue with
      | nil =>
          have hempty : t.qx.isEmpty = true := by
            rw [hq.qx.isEmpty_iff]
            exact List.map_eq_nil_iff.mp hq.columns
          rw [bfsQueuesLoop, if_pos hempty, bfsLoop, Option.map_some, Option.map_some, hlabels]
      | cons n queue =>
          have hsome : ¬ t.qx.isEmpty = true := by
            rw [hq.qx.isEmpty_iff]
            rintro rfl
            exact absurd hq.columns (by simp)
          obtain ⟨t', xs', ys', hrun, hlabels', hq'⟩ := hq.dequeue
          obtain ⟨t'', hvisits, h''⟩ := Agrees.visits f cnt tag n dirs
            (⟨hlabels'.trans hlabels, xs', ys', hq'⟩ : Agrees t' (s, queue))
          rw [bfsQueuesLoop, if_neg hsome, hrun, Option.bind_eq_bind, Option.bind_some]
          dsimp only
          rw [hvisits]
          exact ih h''

/-- **`BFS` with its queues is `bfs`**, for every seed on the frame and in every memory. -/
theorem bfsQueues_eq_bfs (f : Frame) (fuel : ℕ) {x : Pixel} (hx : OnFrame x) (cnt four_or_8 : ℕ)
    (tag : Bool) (mem : Memory ℕ) (s : Labels) :
    (bfsQueues f fuel x cnt four_or_8 tag mem s).map Prod.fst =
      bfs f fuel x cnt four_or_8 tag s := by
  have hstart : Queued ⟨s, mem, .create, .create⟩ [] [] [] :=
    ⟨represents_create mem, represents_create mem, by simp, rfl, rfl, by simp⟩
  obtain ⟨t, xs, ys, hrun, -, hq⟩ := hstart.enqueue hx
  have hloop := bfsQueuesLoop_eq f cnt (dir.take four_or_8) tag fuel
    (⟨rfl, xs, ys, hq.with_labels (s.mark cnt x)⟩ :
      Agrees { t with labels := s.mark cnt x } (s.mark cnt x, [x]))
  rw [bfs, ← hloop, bfsQueues, hrun, Option.bind_eq_bind, Option.bind_some]
  cases bfsQueuesLoop f cnt (dir.take four_or_8) tag fuel { t with labels := s.mark cnt x } with
  | none => rfl
  | some t' => rfl

/-! ## What the flood does -/

/-- The pixels are neighbours on four or on eight sides. -/
def Adjacent (four_or_8 : ℕ) (p q : Pixel) : Prop :=
  if four_or_8 = 4 then |q.1 - p.1| + |q.2 - p.2| = 1 else max |q.1 - p.1| |q.2 - p.2| = 1

instance (k : ℕ) (p q : Pixel) : Decidable (Adjacent k p q) := by
  unfold Adjacent
  infer_instance

/-- The tables of directions lead to the neighbours. -/
theorem mem_dir_iff_adjacent {k : ℕ} (hk : k = 4 ∨ k = 8) {p q : Pixel} :
    (∃ d ∈ dir.take k, (p.1 + d.1, p.2 + d.2) = q) ↔ Adjacent k p q := by
  obtain ⟨x, y⟩ := p
  obtain ⟨x', y'⟩ := q
  have h4 : dir.take 4 = [(-1, 0), (0, -1), (1, 0), (0, 1)] := rfl
  have h8 : dir.take 8 = dir := rfl
  rcases hk with rfl | rfl
  · simp only [h4, List.mem_cons, List.not_mem_nil, or_false, exists_eq_or_imp, exists_eq_left,
      Prod.mk.injEq, Adjacent, if_pos]
    cases abs_cases (x' - x) <;> cases abs_cases (y' - y) <;> omega
  · rw [h8]
    simp only [dir, List.mem_cons, List.not_mem_nil, or_false, exists_eq_or_imp, exists_eq_left,
      Prod.mk.injEq, Adjacent]
    rw [if_neg (by decide)]
    cases abs_cases (x' - x) <;> cases abs_cases (y' - y) <;> omega

/-- The pixel `q` is a neighbour of `p` on the frame that has no label in `s`. -/
def Unlabelled (s : Labels) (four_or_8 : ℕ) (p q : Pixel) : Prop :=
  Adjacent four_or_8 p q ∧ OnFrame q ∧ s.img q = -1

instance (s : Labels) (k : ℕ) (p q : Pixel) : Decidable (Unlabelled s k p q) :=
  inferInstanceAs (Decidable (_ ∧ _ ∧ _))

/-- **The component of `x`** among the pixels of one class that have no label in `s`. -/
def Component (f : Frame) (s : Labels) (four_or_8 : ℕ) (x q : Pixel) : Prop :=
  Relation.ReflTransGen
    (fun p q => Unlabelled s four_or_8 p q ∧ isWhite f q = isWhite f p) x q

theorem reach_spread_iff {f : Frame} {s : Labels} {k : ℕ} (hk : k = 4 ∨ k = 8) {x q : Pixel} :
    Reach (spread f s (dir.take k)) x q ↔ Component f s k x q := by
  have hstep : ∀ p q, q ∈ spread f s (dir.take k) p ↔
      Unlabelled s k p q ∧ isWhite f q = isWhite f p := by
    intro p q
    rw [mem_spread, mem_dir_iff_adjacent hk, Unlabelled]
    simp only [and_assoc]
  unfold Reach Component
  simp only [hstep]

/-- **How often a pixel is recorded**: once for each pixel of the flood next to it. -/
theorem count_flatMap_border {f : Frame} {s : Labels} {k : ℕ} (hk : k = 4 ∨ k = 8) (q : Pixel)
    {l : List Pixel} (hl : l.Nodup) :
    (l.flatMap (border f s (dir.take k))).count q =
      (l.toFinset.filter fun p => Unlabelled s k p q ∧ isWhite f q ≠ isWhite f p).card := by
  have hmem : ∀ p, q ∈ border f s (dir.take k) p ↔
      Unlabelled s k p q ∧ isWhite f q ≠ isWhite f p := by
    intro p
    rw [mem_border, mem_dir_iff_adjacent hk, Unlabelled]
    simp only [and_assoc]
  induction l with
  | nil => rfl
  | cons p l ih =>
      rw [List.nodup_cons] at hl
      have hborder : (border f s (dir.take k) p).Nodup := (dir_map_nodup k p).filter _
      rw [List.flatMap_cons, List.count_append, ih hl.2, hborder.count, List.toFinset_cons,
        Finset.filter_insert]
      simp only [hmem]
      split_ifs with hp
      · rw [Finset.card_insert_of_notMem, Nat.add_comm]
        exact fun hno => hl.1 (List.mem_toFinset.mp (Finset.mem_filter.mp hno).1)
      · rw [Nat.zero_add]

/-- **A flood labels the component of its seed**, counts its pixels and adds up their coordinates,
and records the pixels of the other class next to it, each as often as it is met. -/
theorem bfsQueues_exact (f : Frame) (s : Labels) (mem : Memory ℕ) {cnt : ℕ}
    (hblock : s.block cnt = ⟨0, 0, 0⟩) {four_or_8 : ℕ} (hk : four_or_8 = 4 ∨ four_or_8 = 8)
    (tag : Bool) {x : Pixel} (hx : OnFrame x) :
    ∃ (C : Finset Pixel) (s' : Labels) (es : List Pixel),
      (∃ N, ∀ fuel, N ≤ fuel → ∃ mem',
        bfsQueues f fuel x cnt four_or_8 tag mem s = some (s', mem')) ∧
      (∀ q, q ∈ C ↔ Component f s four_or_8 x q) ∧
      (∀ q, s'.img q = if q ∈ C then (cnt : ℤ) else s.img q) ∧
      s'.block cnt = ⟨C.card, ∑ q ∈ C, q.1, ∑ q ∈ C, q.2⟩ ∧
      (∀ i, i ≠ cnt → s'.block i = s.block i) ∧
      s'.edge = s.edge ++ es ∧
      ∀ q, es.count q = if tag then
        (C.filter fun p => Unlabelled s four_or_8 p q ∧ isWhite f q ≠ isWhite f p).card else 0 := by
  obtain ⟨N, l, hnodup, hl, hrun⟩ := bfs_ends f x cnt four_or_8 tag s
  refine ⟨l.toFinset, s.flooded cnt l (metBy f s tag (dir.take four_or_8) l),
    metBy f s tag (dir.take four_or_8) l, ⟨N, fun fuel hfuel => ?_⟩, fun q => ?_, fun q => ?_, ?_,
    fun i hi => Function.update_of_ne hi _ _, rfl, fun q => ?_⟩
  -- the queues in memory give what the list gives
  · have heq := bfsQueues_eq_bfs f fuel hx cnt four_or_8 tag mem s
    rw [hrun fuel hfuel] at heq
    obtain ⟨⟨s', mem'⟩, hs', rfl⟩ := Option.map_eq_some_iff.mp heq
    exact ⟨mem', hs'⟩
  · rw [List.mem_toFinset, hl, reach_spread_iff hk]
  · simp only [List.mem_toFinset]
    rfl
  · show Function.update s.block cnt _ cnt = _
    rw [Function.update_self, hblock]
    show tally l = _
    rw [tally_eq, List.sum_toFinset _ hnodup, List.sum_toFinset _ hnodup,
      List.toFinset_card_of_nodup hnodup]
  · unfold metBy
    cases tag with
    | true => exact count_flatMap_border hk q hnodup
    | false => rfl

/-- Four white pixels, three of them around a corner. -/
def cornerFrame : Frame := fun i j =>
  if (10 ≤ i ∧ i ≤ 12) ∧ j = 10 ∨ i = 10 ∧ j = 11 then 255 else 0

/-- A flood before has reached a white one of them, and a black pixel next to the corner. -/
def cornerLabels : Labels where
  img q := if q = (12, 10) ∨ q = (9, 10) then 0 else -1
  block i := if i = 0 then ⟨2, 21, 20⟩ else ⟨0, 0, 0⟩
  edge := []

theorem component_corner (q : Pixel) : Component cornerFrame cornerLabels 4 (10, 10) q ↔
    q ∈ ({(10, 10), (11, 10), (10, 11)} : Finset Pixel) := by
  have hwhite : ∀ {p : Pixel}, isWhite cornerFrame p = true ↔
      (10 ≤ p.1 ∧ p.1 ≤ 12) ∧ p.2 = 10 ∨ p.1 = 10 ∧ p.2 = 11 := by
    intro p
    unfold isWhite cornerFrame
    split_ifs with hp <;> simp [hp]
  simp only [Finset.mem_insert, Finset.mem_singleton, Prod.ext_iff]
  constructor
  · intro hq
    induction hq with
    | refl => decide
    | @tail p q _ hstep ih =>
        obtain ⟨⟨-, -, hfree⟩, hsame⟩ := hstep
        have hq := hwhite.mp (hsame.trans (hwhite.mpr (by omega)))
        -- the fourth pixel has a label
        have hother : ¬ (q.1 = 12 ∧ q.2 = 10) := by
          rintro ⟨hx, hy⟩
          obtain rfl : q = (12, 10) := Prod.ext hx hy
          exact absurd hfree (by decide)
        omega
  · rintro (⟨hx, hy⟩ | ⟨hx, hy⟩ | ⟨hx, hy⟩)
    all_goals obtain rfl : q = (_, _) := Prod.ext hx hy
    · exact .refl
    · exact .single (by decide)
    · exact .single (by decide)

/-- The flood of the corner counts three pixels, leaves the labels before it, and records the black
pixel inside the corner twice. -/
theorem bfsQueues_exact_corner : ∃ (s' : Labels) (es : List Pixel),
    (∃ N, ∀ fuel, N ≤ fuel → ∃ mem', bfsQueues cornerFrame fuel (10, 10) 1 4 true
      ⟨fun _ => none, 0⟩ cornerLabels = some (s', mem')) ∧
    s'.img (10, 11) = 1 ∧ s'.img (12, 10) = 0 ∧ s'.block 1 = ⟨3, 31, 31⟩ ∧
    s'.block 0 = ⟨2, 21, 20⟩ ∧ s'.edge = es ∧ es.count (11, 11) = 2 ∧ es.count (9, 10) = 0 := by
  obtain ⟨C, s', es, hrun, hC, himg, hblock, hkeep, hedge, hcount⟩ :=
    bfsQueues_exact cornerFrame cornerLabels ⟨fun _ => none, 0⟩
      (show cornerLabels.block 1 = ⟨0, 0, 0⟩ from rfl) (.inl rfl) true
      (show OnFrame (10, 10) by decide)
  obtain rfl : C = {(10, 10), (11, 10), (10, 11)} := by
    ext q
    rw [hC, component_corner]
  refine ⟨s', es, hrun, (himg _).trans (by decide), (himg _).trans (by decide),
    hblock.trans (by decide), hkeep 0 (by decide), hedge, (hcount _).trans (by decide),
    (hcount _).trans (by decide)⟩

end HandlingRobot
