import HandlingRobot.Library.Wheel
import HandlingRobot.Tour.Ant
import Mathlib.Algebra.Order.BigOperators.Group.List
import Mathlib.Tactic.Positivity
import Mathlib.Tactic.NormNum

/-! # The routes of the ants

Every ant visits every point exactly once: the selection loop always finds a point, because all
weights are positive and the drawn rate lies strictly below their sum, and the pheromone that
carries the weights stays positive from one iteration to the next.

* **`IsTour`**, **`PartialTour`** — a route through all points, and its first `j` points.
* **`Colony.Ready`** — the tables between two steps: distances of at least 1, positive visibility
  and pheromone, nothing negative laid.
* **`antIter_yields`** — one iteration succeeds on such tables and restores them.
* **`ant_routes`** — every iteration of a run, and the tour the run ends with. -/

namespace HandlingRobot

/-! ## Tours -/

/-- **A route through all of `0, …, n - 1` from `st`**. -/
def IsTour (n st : ℕ) (route : ℕ → ℕ) : Prop :=
  route 0 = st ∧ ((List.range n).map route).Perm (List.range n)

/-- The first `j` points of a route from `st`: all different, all below `n`. -/
structure PartialTour (n st j : ℕ) (route : ℕ → ℕ) : Prop where
  start : route 0 = st
  lt : ∀ k < j, route k < n
  inj : ∀ k < j, ∀ l < j, route k = route l → k = l

theorem PartialTour.nodup {n st j : ℕ} {route : ℕ → ℕ} (h : PartialTour n st j route) :
    ((List.range j).map route).Nodup := by
  refine List.Nodup.map_on (fun k hk l hl hkl => ?_) List.nodup_range
  exact h.inj k (List.mem_range.mp hk) l (List.mem_range.mp hl) hkl

/-- A route whose first `n` points are different points below `n` is a tour. -/
theorem PartialTour.isTour {n st : ℕ} {route : ℕ → ℕ} (h : PartialTour n st n route) :
    IsTour n st route := by
  have hsub : (List.range n).map route ⊆ List.range n := by
    intro x hx
    obtain ⟨k, hk, rfl⟩ := List.mem_map.mp hx
    exact List.mem_range.mpr (h.lt k (List.mem_range.mp hk))
  refine ⟨h.start, (List.subperm_of_subset h.nodup hsub).perm_of_length_le ?_⟩
  rw [List.length_map]

theorem IsTour.partialTour {n st : ℕ} {route : ℕ → ℕ} (h : IsTour n st route) :
    PartialTour n st n route := by
  refine ⟨h.1, fun k hk => ?_, fun k hk l hl hkl => ?_⟩
  · have hmem : route k ∈ List.range n :=
      h.2.subset (List.mem_map_of_mem (List.mem_range.mpr hk))
    exact List.mem_range.mp hmem
  · have hnodup : ((List.range n).map route).Nodup := h.2.nodup_iff.mpr List.nodup_range
    exact List.inj_on_of_nodup_map hnodup (List.mem_range.mpr hk) (List.mem_range.mpr hl) hkl

/-- One more point that the route has not been to. -/
theorem PartialTour.extend {n st j k : ℕ} {route route' : ℕ → ℕ} (h : PartialTour n st j route)
    (hj : 1 ≤ j) (hk : k < n) (hnew : ∀ l < j, route l ≠ k) (hold : ∀ l < j, route' l = route l)
    (hat : route' j = k) : PartialTour n st (j + 1) route' := by
  have hcase : ∀ l < j + 1, l < j ∨ l = j := fun l hl => by omega
  refine ⟨(hold 0 hj).trans h.start, fun l hl => ?_, fun a ha b hb hab => ?_⟩
  · rcases hcase l hl with hlj | rfl
    · exact hold l hlj ▸ h.lt l hlj
    · exact hat.symm ▸ hk
  · rcases hcase a ha with haj | rfl
    · rcases hcase b hb with hbj | rfl
      · rw [hold a haj, hold b hbj] at hab
        exact h.inj a haj b hbj hab
      · rw [hold a haj, hat] at hab
        exact absurd hab (hnew a haj)
    · rcases hcase b hb with hbj | rfl
      · rw [hold b hbj, hat] at hab
        exact absurd hab.symm (hnew b hbj)
      · rfl

/-! ## The choice of the next point -/

/-- **The rate drawn by `randn` lies below the sum of the weights.** -/
theorem randn_bounds (r : ℕ) {x : ℚ} (hx : 0 < x) : 0 ≤ randn r 0 x ∧ randn r 0 x < x := by
  have hmod : ((r % 1000 : ℕ) : ℚ) < 1000 := by exact_mod_cast Nat.mod_lt r (by decide)
  have hpar : ((r % 1000 : ℕ) : ℚ) / 1000 < 1 := by
    rw [div_lt_one (by norm_num)]
    exact hmod
  simp only [randn, sub_zero, add_zero]
  refine ⟨by positivity, ?_⟩
  calc ((r % 1000 : ℕ) : ℚ) / 1000 * x < 1 * x := mul_lt_mul_of_pos_right hpar hx
    _ = x := one_mul x

/-- **The selection loop turns a wheel** with a sector for each point. -/
theorem roulette_eq_sector (rate : ℚ) (P : List (ℕ × ℚ)) :
    ∀ cur, roulette rate cur P = sector rate cur P := by
  induction P with
  | nil => exact fun _ => rfl
  | cons x rest ih =>
      intro cur
      unfold roulette sector
      rw [ih]

/-- **The selection loop finds somebody** whenever the rate lies between the weight accumulated so
far and the sum of all weights. -/
theorem roulette_yields {rate : ℚ} (P : List (ℕ × ℚ)) (cur : ℚ) (hle : cur ≤ rate)
    (hlt : rate < cur + (P.map Prod.snd).sum) :
    Yields (roulette rate cur P) fun k => k ∈ P.map Prod.fst := by
  rw [roulette_eq_sector]
  exact exists_sector P cur hlt hle

/-- As long as an ant has moves to go there is a point it has not been to. -/
theorem unvisited_ne_nil {n j : ℕ} (route : ℕ → ℕ) (hj : j < n) : unvisited n j route ≠ [] := by
  intro hnil
  have hsub : List.range n ⊆ (List.range j).map route := by
    intro k hk
    by_contra hnot
    have hmem : k ∈ unvisited n j route := List.mem_filter.mpr ⟨hk, by simpa using hnot⟩
    rw [hnil] at hmem
    exact absurd hmem List.not_mem_nil
  have hlen := (List.subperm_of_subset List.nodup_range hsub).length_le
  rw [List.length_map, List.length_range, List.length_range] at hlen
  omega

theorem mem_unvisited {n j k : ℕ} {route : ℕ → ℕ} (h : k ∈ unvisited n j route) :
    k < n ∧ ∀ l < j, route l ≠ k := by
  obtain ⟨hrange, hnot⟩ := List.mem_filter.mp h
  refine ⟨List.mem_range.mp hrange, fun l hl hlk => ?_⟩
  have hmem : k ∈ (List.range j).map route := List.mem_map.mpr ⟨l, List.mem_range.mpr hl, hlk⟩
  simp [hmem] at hnot

/-! ## The tables -/

/-- The points are pairwise distinct. -/
def Colony.Distinct (s : Colony) : Prop :=
  ∀ i < s.n, ∀ j < s.n, i ≠ j → (s.px i, s.py i) ≠ (s.px j, s.py j)

/-- What the ants never change. -/
structure Colony.Frame (s t : Colony) : Prop where
  n : t.n = s.n
  px : t.px = s.px
  py : t.py = s.py
  clas : t.clas = s.clas
  path : t.path = s.path

theorem Colony.Frame.refl (s : Colony) : s.Frame s := ⟨rfl, rfl, rfl, rfl, rfl⟩

theorem Colony.Frame.trans {s t u : Colony} (h : s.Frame t) (h' : t.Frame u) : s.Frame u :=
  ⟨h'.n.trans h.n, h'.px.trans h.px, h'.py.trans h.py, h'.clas.trans h.clas, h'.path.trans h.path⟩

/-- The entries of the tables for the points `i` and `j` can be worked with. -/
structure Colony.EntryOk (s : Colony) (i j : ℕ) : Prop where
  dis : i ≠ j → 1 ≤ s.dis i j
  idis : 0 < s.idis i j
  pher : 0 < s.pher i j

/-- **The tables between two steps of a run.** -/
structure Colony.Ready (s : Colony) : Prop where
  entry : ∀ i < s.n, ∀ j < s.n, s.EntryOk i j
  deltaPher : ∀ i j, 0 ≤ s.deltaPher i j

/-- **The distances of the mode are defined** and of at least 1, whatever the tables hold. -/
def Colony.Measured (s : Colony) (tag : ℕ) : Prop :=
  ∀ t, s.Frame t → ∀ i < s.n, ∀ j < s.n, i ≠ j →
    ∃ tmp d, t.distance tag i j = some ({ t with tmp := tmp }, d) ∧ 1 ≤ d

theorem Colony.Measured.frame {s t : Colony} {tag : ℕ} (h : s.Measured tag) (hst : s.Frame t) :
    t.Measured tag := by
  intro u hu i hi j hj hij
  exact h u (hst.trans hu) i (hst.n ▸ hi) j (hst.n ▸ hj) hij

/-- Distinct points have distances. -/
theorem Colony.Distinct.measured {s : Colony} (h : s.Distinct) : s.Measured 0 := by
  intro t ht i hi j hj hij
  refine ⟨t.tmp, _, rfl, ?_⟩
  rw [ht.px, ht.py]
  exact one_le_calcDis (h i hi j hj hij)

/-- One entry is initialised, and no other is touched. -/
theorem initEntry_yields {s : Colony} {tag i j : ℕ} (hs : s.Measured tag) (hi : i < s.n)
    (hj : j < s.n) :
    Yields (initEntry tag i j s) fun t =>
      s.Frame t ∧ t.EntryOk i j ∧ ∀ a b, s.EntryOk a b → t.EntryOk a b := by
  -- on the diagonal the distance is 0, elsewhere it is at least 1
  by_cases hij : i = j
  · refine ⟨_, if_pos hij, ⟨rfl, rfl, rfl, rfl, rfl⟩, ?_, fun a b hab => ?_⟩
    · exact ⟨fun h => absurd hij h, by simp [inf], by simp⟩
    · refine ⟨fun hne => ?_, ?_, ?_⟩
      · have hother : ¬ (a = i ∧ b = j) := by omega
        show 1 ≤ setCell s.dis i j 0 a b
        rw [setCell_of_ne s.dis 0 hother]
        exact hab.dis hne
      · exact setCell_keeps (0 < ·) hab.idis (by simp [inf])
      · exact setCell_keeps (0 < ·) hab.pher one_pos
  · obtain ⟨tmp, d, hd, hone⟩ := hs s (.refl s) i hi j hj hij
    have hdpos : (0 : ℚ) < d := by exact_mod_cast hone
    have hidis : (0 : ℚ) < 100 / d := by positivity
    have hstep : initEntry tag i j s = some { s with
        tmp := tmp, dis := setCell s.dis i j d, idis := setCell s.idis i j (100 / d),
        pher := setCell s.pher i j 1 } := by
      simp [initEntry, hij, hd, divide_of_ne_zero 100 hdpos.ne']
    refine ⟨_, hstep, ⟨rfl, rfl, rfl, rfl, rfl⟩, ?_, fun a b hab => ⟨fun hne => ?_, ?_, ?_⟩⟩
    · exact ⟨fun _ => by simpa using hone, by simpa using hidis, by simp⟩
    · exact setCell_keeps (1 ≤ ·) (hab.dis hne) hone
    · exact setCell_keeps (0 < ·) hab.idis hidis
    · exact setCell_keeps (0 < ·) hab.pher one_pos

/-- A row of the tables is initialised, and no other is touched. -/
theorem initRow_yields {s : Colony} {tag i : ℕ} (hs : s.Measured tag) (hi : i < s.n) :
    Yields (forLoop 0 s.n (fun j => initEntry tag i j) s) fun t =>
      s.Frame t ∧ (∀ b < s.n, t.EntryOk i b) ∧ ∀ a b, s.EntryOk a b → t.EntryOk a b := by
  refine forLoop_yields (I := fun j t => s.Frame t ∧ (∀ b < j, t.EntryOk i b) ∧
    ∀ a b, s.EntryOk a b → t.EntryOk a b) (Nat.zero_le _) ?_ ?_
  · exact ⟨.refl s, fun b hb => absurd hb (Nat.not_lt_zero b), fun a b hab => hab⟩
  · rintro j t - hj ⟨hframe, hrow, hkeep⟩
    refine (initEntry_yields (hs.frame hframe) (hframe.n ▸ hi) (hframe.n ▸ hj)).imp ?_
    rintro u ⟨hframe', hnew, hkeep'⟩
    refine ⟨hframe.trans hframe', fun b hb => ?_, fun a b hab => hkeep' a b (hkeep a b hab)⟩
    rcases (by omega : b < j ∨ b = j) with hbj | rfl
    · exact hkeep' i b (hrow b hbj)
    · exact hnew

/-- **`init_tag(tag)` succeeds where the distances are defined** and leaves tables that can be
worked with. -/
theorem initTag_yields {s : Colony} {tag : ℕ} (hs : s.Measured tag) :
    Yields (initTag tag s) fun t => s.Frame t ∧ ∀ i < t.n, ∀ j < t.n, t.EntryOk i j := by
  have hrows : Yields (forLoop 0 s.n (fun i => forLoop 0 s.n fun j => initEntry tag i j) s)
      fun t => s.Frame t ∧ ∀ a < s.n, ∀ b < s.n, t.EntryOk a b := by
    refine forLoop_yields (I := fun i t => s.Frame t ∧ ∀ a < i, ∀ b < s.n, t.EntryOk a b)
      (Nat.zero_le _) ?_ ?_
    · exact ⟨.refl s, fun a ha => absurd ha (Nat.not_lt_zero a)⟩
    · rintro i t - hi ⟨hframe, hrows⟩
      refine (hframe.n ▸ initRow_yields (hs.frame hframe) (hframe.n ▸ hi)).imp ?_
      rintro u ⟨hframe', hnew, hkeep⟩
      refine ⟨hframe.trans hframe', fun a ha b hb => ?_⟩
      rcases (by omega : a < i ∨ a = i) with hai | rfl
      · exact hkeep a b (hrows a hai b hb)
      · exact hnew b hb
  refine hrows.bind ?_
  rintro t ⟨hframe, hall⟩
  refine yields_some ⟨⟨hframe.n, hframe.px, hframe.py, hframe.clas, hframe.path⟩, ?_⟩
  intro i hi j hj
  have hij : i < t.n ∧ j < t.n := ⟨hi, hj⟩
  have hok := hall i (hframe.n ▸ hi) j (hframe.n ▸ hj)
  refine ⟨hok.dis, ?_, hok.pher⟩
  show 0 < if i < t.n ∧ j < t.n then t.idis i j ^ beta else t.idis i j
  rw [if_pos hij]
  exact pow_pos hok.idis beta

/-- All pheromone entries are positive. -/
def Colony.PherPos (s : Colony) : Prop := ∀ i < s.n, ∀ j < s.n, 0 < s.pher i j

theorem Colony.Ready.pherPos {s : Colony} (h : s.Ready) : s.PherPos :=
  fun i hi j hj => (h.entry i hi j hj).pher

/-! ## One move -/

/-- **Every move finds a point the ant has not been to.** -/
theorem moveAnt_eq {s : Colony} (rand : ℕ → ℕ) {st j i : ℕ} (hs : s.Ready) (hj : 1 ≤ j)
    (hjn : j < s.n) (hi : PartialTour s.n st j (s.routes i)) :
    ∃ k < s.n, (∀ l < j, s.routes i l ≠ k) ∧
      moveAnt rand j i s = { s with calls := s.calls + 1, routes := setCell s.routes i j k } := by
  generalize hP : s.weights (s.routes i (j - 1)) (unvisited s.n j (s.routes i)) = P
  have hlast : s.routes i (j - 1) < s.n := hi.lt (j - 1) (by omega)
  have hweight : ∀ w ∈ P.map Prod.snd, 0 < w := by
    intro w hw
    simp only [← hP, Colony.weights, List.map_map, List.mem_map] at hw
    obtain ⟨k, hk, rfl⟩ := hw
    have hok := hs.entry _ hlast k (mem_unvisited hk).1
    exact mul_pos hok.pher hok.idis
  have hne : P.map Prod.snd ≠ [] := by
    simp only [← hP, Colony.weights, List.map_map, ne_eq, List.map_eq_nil_iff]
    exact unvisited_ne_nil _ hjn
  have hsum : 0 < (P.map Prod.snd).sum := List.sum_pos _ hweight hne
  obtain ⟨hrate, hrate'⟩ := randn_bounds (rand s.calls) hsum
  obtain ⟨k, hk, hmem⟩ := roulette_yields P 0 hrate (by rwa [zero_add])
  have hunvis : k ∈ unvisited s.n j (s.routes i) := by
    simpa only [← hP, Colony.weights, List.map_map, Function.comp_def, List.map_id'] using hmem
  obtain ⟨hkn, hnew⟩ := mem_unvisited hunvis
  refine ⟨k, hkn, hnew, ?_⟩
  simp only [moveAnt, hP, hk]

/-- A state with other routes and other calls of `rand()` only. -/
structure Colony.SameTables (s t : Colony) : Prop extends s.Frame t where
  dis : t.dis = s.dis
  idis : t.idis = s.idis
  pher : t.pher = s.pher
  deltaPher : t.deltaPher = s.deltaPher
  pathBest : t.pathBest = s.pathBest

theorem Colony.SameTables.refl (s : Colony) : s.SameTables s := ⟨.refl s, rfl, rfl, rfl, rfl, rfl⟩

theorem Colony.SameTables.trans {s t u : Colony} (h : s.SameTables t) (h' : t.SameTables u) :
    s.SameTables u :=
  ⟨h.toFrame.trans h'.toFrame, h'.dis.trans h.dis, h'.idis.trans h.idis, h'.pher.trans h.pher,
    h'.deltaPher.trans h.deltaPher, h'.pathBest.trans h.pathBest⟩

/-- Tables with the same entries. -/
theorem Colony.Ready.congr {s t : Colony} (hs : s.Ready) (hn : t.n = s.n) (hdis : t.dis = s.dis)
    (hidis : t.idis = s.idis) (hpher : t.pher = s.pher) (hdelta : t.deltaPher = s.deltaPher) :
    t.Ready := by
  refine ⟨fun i hi j hj => ?_, fun i j => by rw [hdelta]; exact hs.deltaPher i j⟩
  have hok := hs.entry i (hn ▸ hi) j (hn ▸ hj)
  exact ⟨by rw [hdis]; exact hok.dis, by rw [hidis]; exact hok.idis, by rw [hpher]; exact hok.pher⟩

theorem Colony.SameTables.ready {s t : Colony} (h : s.SameTables t) (hs : s.Ready) : t.Ready :=
  hs.congr h.n h.dis h.idis h.pher h.deltaPher

/-! ## The routes of an iteration -/

/-- The `j`-th move of all ants. -/
theorem moveAnts_yields {s : Colony} (rand : ℕ → ℕ) (m st : ℕ) {j : ℕ} (hs : s.Ready) (hj : 1 ≤ j)
    (hjn : j < s.n) (hall : ∀ i < m, PartialTour s.n st j (s.routes i)) :
    Yields (forLoop 0 m (fun i s => some (moveAnt rand j i s)) s) fun t =>
      s.SameTables t ∧ ∀ i < m, PartialTour s.n st (j + 1) (t.routes i) := by
  -- ants before `i` have made the move, the others have not
  have hloop := forLoop_yields (f := fun i s => some (moveAnt rand j i s))
    (I := fun i t => s.SameTables t ∧ (∀ a < i, PartialTour s.n st (j + 1) (t.routes a)) ∧
      ∀ a, i ≤ a → a < m → PartialTour s.n st j (t.routes a)) (s := s) (Nat.zero_le m) ?_ ?_
  · exact hloop.imp fun t ht => ⟨ht.1, ht.2.1⟩
  · exact ⟨.refl s, fun a ha => absurd ha (Nat.not_lt_zero a), fun a _ ha => hall a ha⟩
  · rintro i t - hi ⟨hsame, hdone, htodo⟩
    have hpart := htodo i le_rfl hi
    obtain ⟨k, hk, hnew, hmove⟩ := moveAnt_eq rand (hsame.ready hs) hj (hsame.n ▸ hjn)
      (hsame.n.symm ▸ hpart)
    rw [hmove]
    -- an ant writes its own row only
    have hother : ∀ a, a ≠ i → setCell t.routes i j k a = t.routes a := by
      intro a ha
      funext l
      exact setCell_of_ne _ _ fun h => ha h.1
    refine yields_some ⟨hsame.trans ⟨⟨rfl, rfl, rfl, rfl, rfl⟩, rfl, rfl, rfl, rfl, rfl⟩, ?_, ?_⟩
    · intro a ha
      rcases (by omega : a < i ∨ a = i) with hai | rfl
      · show PartialTour s.n st (j + 1) (setCell t.routes i j k a)
        rw [hother a (by omega)]
        exact hdone a hai
      · refine hpart.extend hj (hsame.n ▸ hk) hnew (fun l hl => ?_) (setCell_self _ _ _ _)
        exact setCell_of_ne _ _ fun h => absurd h.2 (by omega)
    · intro a ha ham
      show PartialTour s.n st j (setCell t.routes i j k a)
      rw [hother a (by omega)]
      exact htodo a (by omega) ham

/-- **All ants build tours** from their common starting point. -/
theorem buildRoutes_yields {s : Colony} (rand : ℕ → ℕ) (m st : ℕ) (hs : s.Ready) (hn : 1 ≤ s.n)
    (hst : st < s.n) (hall : ∀ i < m, s.routes i 0 = st) :
    Yields (buildRoutes rand m s) fun t =>
      s.SameTables t ∧ ∀ i < m, IsTour s.n st (t.routes i) := by
  have hloop := forLoop_yields (f := fun j => forLoop 0 m fun i s => some (moveAnt rand j i s))
    (I := fun j t => s.SameTables t ∧ ∀ i < m, PartialTour s.n st j (t.routes i)) (s := s) hn ?_ ?_
  · exact hloop.imp fun t ht => ⟨ht.1, fun i hi => (ht.2 i hi).isTour⟩
  · refine ⟨.refl s, fun i hi => ⟨hall i hi, fun k hk => ?_, fun k hk l hl _ => by omega⟩⟩
    obtain rfl : k = 0 := by omega
    exact (hall i hi).symm ▸ hst
  · rintro j t hj hjn ⟨hsame, hpart⟩
    have hmoves := moveAnts_yields rand m st (hsame.ready hs) hj (hsame.n ▸ hjn)
      (hsame.n.symm ▸ hpart)
    rw [hsame.n] at hmoves
    exact hmoves.imp fun u hu => ⟨hsame.trans hu.1, hu.2⟩

/-! ## The end of an iteration -/

/-- A tour through at least two points has a length of at least 1. -/
theorem one_le_len {s : Colony} {st i : ℕ} (hs : s.Ready) (hn : 2 ≤ s.n)
    (hi : IsTour s.n st (s.routes i)) : 1 ≤ s.len i := by
  have hpart := hi.partialTour
  have hleg : ∀ d ∈ (List.range (s.n - 1)).map fun j => s.dis (s.routes i j) (s.routes i (j + 1)),
      1 ≤ d := by
    intro d hd
    obtain ⟨j, hj, rfl⟩ := List.mem_map.mp hd
    rw [List.mem_range] at hj
    have hne : s.routes i j ≠ s.routes i (j + 1) := fun h =>
      absurd (hpart.inj j (by omega) (j + 1) (by omega) h) (by omega)
    exact (hs.entry _ (hpart.lt j (by omega)) _ (hpart.lt (j + 1) (by omega))).dis hne
  have hsum := List.card_nsmul_le_sum _ 1 hleg
  rw [List.length_map, List.length_range, nsmul_eq_mul, mul_one] at hsum
  unfold Colony.len
  omega

/-- The shortest route is that of an ant. -/
theorem minLen_index_le (len : ℕ → ℤ) (i : ℕ) : (minLen len i).2 ≤ i := by
  induction i with
  | zero => exact le_rfl
  | succ i ih =>
      unfold minLen chkmin
      by_cases h : (minLen len i).1 > len (i + 1)
      · simp [h]
      · simpa [h] using Nat.le_succ_of_le ih

/-- While pheromone is laid only `delta_pher` changes, and nothing negative is laid. -/
structure Colony.Laying (s t : Colony) : Prop extends s.Frame t where
  dis : t.dis = s.dis
  idis : t.idis = s.idis
  pher : t.pher = s.pher
  routes : t.routes = s.routes
  pathBest : t.pathBest = s.pathBest
  deltaPher : ∀ i j, 0 ≤ t.deltaPher i j

/-- Laying pheromone divides by a positive length. -/
theorem layStep_yields {s t : Colony} {st i : ℕ} (hs : s.Ready) (hn : 2 ≤ s.n)
    (hi : IsTour s.n st (s.routes i)) (ht : s.Laying t) (j : ℕ) :
    Yields (layStep i j t) s.Laying := by
  have hlen : t.len i = s.len i := by rw [Colony.len, Colony.len, ht.n, ht.dis, ht.routes]
  have hpos : (0 : ℚ) < t.len i := by
    have hone := one_le_len hs hn hi
    rw [hlen]
    exact_mod_cast hone
  have hq : (0 : ℚ) ≤ pherQ / t.len i := div_nonneg (by decide) hpos.le
  have hv := add_nonneg (ht.deltaPher (t.routes i j) (t.routes i (j + 1))) hq
  refine ⟨_, by rw [layStep, divide_of_ne_zero _ hpos.ne']; rfl, ?_⟩
  refine ⟨⟨ht.n, ht.px, ht.py, ht.clas, ht.path⟩, ht.dis, ht.idis, ht.pher, ht.routes, ht.pathBest,
    fun a b => ?_⟩
  exact setCell_keeps (0 ≤ ·) (setCell_keeps (0 ≤ ·) (ht.deltaPher a b) hv) hv

/-- **The pheromone of an iteration**: no division fails, and every entry stays positive. -/
theorem layPheromone_yields {s : Colony} (m : ℕ) {st : ℕ} (hs : s.Ready)
    (hall : ∀ i < m, IsTour s.n st (s.routes i)) :
    Yields (layPheromone m s) fun t => s.Frame t ∧ t.Ready ∧ t.pathBest = s.pathBest := by
  have hlay : Yields (forLoop 0 m (fun i => forLoop 0 (s.n - 1) fun j => layStep i j) s)
      s.Laying := by
    refine forLoop_yields (I := fun _ => s.Laying) (Nat.zero_le m) ?_ fun i t _ hi ht => ?_
    · exact ⟨.refl s, rfl, rfl, rfl, rfl, rfl, hs.deltaPher⟩
    · exact forLoop_yields (I := fun _ => s.Laying) (Nat.zero_le _) ht
        fun j u _ hj hu => layStep_yields hs (by omega) (hall i hi) hu j
  refine hlay.bind fun t ht => yields_some ?_
  refine ⟨⟨ht.n, ht.px, ht.py, ht.clas, ht.path⟩, ⟨fun i hi j hj => ?_, ht.deltaPher⟩, ht.pathBest⟩
  have hij : i < t.n ∧ j < t.n := ⟨hi, hj⟩
  have hok := hs.entry i (ht.n ▸ hi) j (ht.n ▸ hj)
  have hdis : i ≠ j → 1 ≤ t.dis i j := by rw [ht.dis]; exact hok.dis
  have hidis : 0 < t.idis i j := by rw [ht.idis]; exact hok.idis
  refine ⟨hdis, hidis, ?_⟩
  show 0 < if i < t.n ∧ j < t.n then (1 - rho) * t.pher i j + t.deltaPher i j else t.pher i j
  rw [if_pos hij, ht.pher]
  have hkeep : 0 < (1 - rho) * s.pher i j := mul_pos (by norm_num [rho]) hok.pher
  exact add_pos_of_pos_of_nonneg hkeep (ht.deltaPher i j)

/-- The starting points of all ants. -/
theorem startAnts_yields {s : Colony} (rand : ℕ → ℕ) {m st : ℕ} (tim : ℕ) :
    Yields (startAnts rand m st tim s) fun t =>
      s.SameTables t ∧ ∀ i < m, t.routes i 0 = st := by
  have hne : (st : ℤ) ≠ -1 := by omega
  refine ⟨_, if_pos hne, ⟨⟨rfl, rfl, rfl, rfl, rfl⟩, rfl, rfl, rfl, rfl, rfl⟩, fun i hi => ?_⟩
  show (if i < m ∧ 0 = 0 then (st : ℤ).toNat else s.routes i 0) = st
  rw [if_pos ⟨hi, rfl⟩, Int.toNat_natCast]

/-- **A random start** succeeds when the starting points fit the local tables of the shuffle. -/
theorem startAnts_random_iff {s : Colony} (rand : ℕ → ℕ) (m tim : ℕ) :
    (startAnts rand m (-1) tim s).isSome ↔ totAnt m s.n tim ≤ tableSize := by
  have hstart : startAnts rand m (-1) tim s = if totAnt m s.n tim ≤ antMax then
      (shuffle rand s.calls (totAnt m s.n tim) fun k => tim + k % (s.n - tim)).bind fun r =>
        some { s with
          calls := r.2
          routes := fun i k => if i < m ∧ k = 0 then r.1 i else s.routes i k }
      else none := rfl
  constructor
  · intro h
    obtain ⟨t, ht⟩ := Option.isSome_iff_exists.mp h
    rw [hstart, Option.ite_none_right_eq_some, Option.bind_eq_some_iff] at ht
    obtain ⟨-, r, hr, -⟩ := ht
    exact le_of_shuffle hr
  · intro hn
    have hmax : totAnt m s.n tim ≤ antMax := hn.trans (by decide)
    rw [hstart, if_pos hmax]
    rcases Nat.eq_zero_or_pos (totAnt m s.n tim) with hzero | h₁
    · rw [hzero]
      rfl
    · rw [shuffle_eq rand h₁ hn]
      rfl

/-- The routes of an iteration are tours. -/
theorem iterRoutes_yields {s : Colony} (rand : ℕ → ℕ) (m : ℕ) {st : ℕ} (tim : ℕ) (hs : s.Ready)
    (hst : st < s.n) :
    Yields (iterRoutes rand m st tim s) fun t =>
      s.SameTables t ∧ ∀ i < m, IsTour s.n st (t.routes i) := by
  show Yields ((startAnts rand m st tim s).bind (buildRoutes rand m)) _
  refine (startAnts_yields rand tim).bind ?_
  rintro t ⟨hsame, hstart⟩
  have hbuild := buildRoutes_yields rand m st (hsame.ready hs) (by rw [hsame.n]; omega)
    (by rwa [hsame.n]) hstart
  rw [hsame.n] at hbuild
  exact hbuild.imp fun u hu => ⟨hsame.trans hu.1, hu.2⟩

/-! ## Runs -/

/-- Whether a route is a tour depends on its points only. -/
theorem IsTour.congr {n st : ℕ} {route route' : ℕ → ℕ} (h : IsTour n st route) (hn : 1 ≤ n)
    (heq : ∀ k < n, route' k = route k) : IsTour n st route' := by
  refine ⟨(heq 0 hn).trans h.1, ?_⟩
  have hmap : (List.range n).map route' = (List.range n).map route :=
    List.map_congr_left fun k hk => heq k (List.mem_range.mp hk)
  rw [hmap]
  exact h.2

/-- **After `iters` iterations from `s₀`**: the tables are in order, and the best route of each
iteration is a tour from `st`. -/
structure Colony.Iterated (s₀ : Colony) (st iters : ℕ) (s : Colony) : Prop extends s₀.Frame s where
  ready : s.Ready
  pathBest : ∀ t < iters, IsTour s₀.n st (s.pathBest t)

theorem Colony.iterated_clear {s : Colony} (hs : ∀ i < s.n, ∀ j < s.n, s.EntryOk i j) (st : ℕ) :
    s.Iterated st 0 s.clear := by
  refine ⟨⟨rfl, rfl, rfl, rfl, rfl⟩, ⟨fun i hi j hj => ?_, fun _ _ => le_rfl⟩, fun t ht => ?_⟩
  · have hok := hs i hi j hj
    exact ⟨hok.dis, hok.idis, hok.pher⟩
  · exact absurd ht (Nat.not_lt_zero t)

/-- **One iteration succeeds**, and its best route is a tour. -/
theorem antIter_yields {s₀ s : Colony} (rand : ℕ → ℕ) {m st iter : ℕ} (tim : ℕ)
    (hm : 1 ≤ m) (hst : st < s₀.n) (hs : s₀.Iterated st iter s) :
    Yields (antIter rand m st tim iter s) (s₀.Iterated st (iter + 1)) := by
  refine (iterRoutes_yields rand m tim hs.ready (hs.n ▸ hst)).bind ?_
  rintro t ⟨hsame, htours⟩
  rw [hs.n] at htours
  -- `rateRoutes` writes the lengths only
  have hready : (rateRoutes m iter t).Ready := (hsame.ready hs.ready).congr rfl rfl rfl rfl rfl
  have hframe : s₀.Frame (rateRoutes m iter t) :=
    ⟨hsame.n.trans hs.n, hsame.px.trans hs.px, hsame.py.trans hs.py, hsame.clas.trans hs.clas,
      hsame.path.trans hs.path⟩
  refine (layPheromone_yields m hready (hframe.n.symm ▸ htours)).bind ?_
  rintro u ⟨hframe', hready', hbest⟩
  have hu := hframe.trans hframe'
  refine yields_some ⟨⟨hu.n, hu.px, hu.py, hu.clas, hu.path⟩, hready'.congr rfl rfl rfl rfl rfl, ?_⟩
  intro k hk
  have hindex : (minLen t.len (m - 1)).2 < m := by
    have hle := minLen_index_le t.len (m - 1)
    omega
  have hcell : ∀ l, u.pathBest k l = if k = iter ∧ l < t.n then
      t.routes (minLen t.len (m - 1)).2 l else t.pathBest k l := fun l => by rw [hbest]; rfl
  by_cases hki : k = iter
  · refine (htours _ hindex).congr (by omega) fun l hl => ?_
    show u.pathBest k l = _
    rw [hcell, if_pos ⟨hki, by rw [hsame.n, hs.n]; exact hl⟩]
  · refine (hs.pathBest k (by omega)).congr (by omega) fun l hl => ?_
    show u.pathBest k l = _
    rw [hcell, if_neg fun h => hki h.1, hsame.pathBest]

/-- All iterations succeed. -/
theorem antIters_yields {s₀ s : Colony} (rand : ℕ → ℕ) {m st : ℕ} (tim iters : ℕ)
    (hm : 1 ≤ m) (hst : st < s₀.n) (hs : s₀.Iterated st 0 s) :
    Yields (antIters rand m st tim iters s) (s₀.Iterated st iters) :=
  forLoop_yields (Nat.zero_le iters) hs fun _ _ _ _ ht => antIter_yields rand tim hm hst ht

/-! ## The tour -/

/-- The closing distance from point `i` divides by nothing that is zero. -/
def Colony.ClosesSafely (s : Colony) (tag backSt i : ℕ) : Prop :=
  (s.px i = 0 ∧ s.py i = 0) ∨
    ((tag = 1 ∧ backSt = 1 → ∀ side ∈ [0, 1, 2],
        tagDenominator (s.px i) (s.py i) 0 0 side ≠ 0) ∧
      (tag = 2 ∧ backSt = 1 → tagDenominator (s.px i) (s.py i) 0 0 (s.clas i) ≠ 0))

/-- A state in which only `tmpx` and `tmpy` have changed. -/
def Colony.SameButTmp (s t : Colony) : Prop := ∃ tmp, t = { s with tmp }

/-- A detour that divides by nothing that is zero. -/
theorem calcTag_yields {s t : Colony} (hst : s.SameButTmp t) {x1 y1 x2 y2 tag : ℤ}
    (h : (x1 = 0 ∧ y1 = 0) ∨ tagDenominator x1 y1 x2 y2 tag ≠ 0) :
    Yields (t.calcTag x1 y1 x2 y2 tag) fun r => s.SameButTmp r.1 := by
  obtain ⟨tmp, rfl⟩ := hst
  have hsome : HandlingRobot.calcTag tmp x1 y1 x2 y2 tag ≠ none := by
    rw [ne_eq, calcTag_eq_none_iff]
    rintro ⟨hcorner, hzero⟩
    exact h.elim hcorner fun hne => hne hzero
  obtain ⟨⟨tmp', d⟩, hr⟩ := Option.ne_none_iff_exists'.mp hsome
  exact ⟨({ s with tmp := tmp' }, d), by simp [Colony.calcTag, hr], tmp', rfl⟩

/-- The closing distance, where it is defined. -/
theorem closing_yields {s t : Colony} {tag backSt i : ℕ} (h : s.ClosesSafely tag backSt i)
    (hst : s.SameButTmp t) : Yields (closing tag backSt t i) fun r => s.SameButTmp r.1 := by
  have hpoint : t.px = s.px ∧ t.py = s.py ∧ t.clas = s.clas := by
    obtain ⟨tmp, rfl⟩ := hst
    exact ⟨rfl, rfl, rfl⟩
  obtain ⟨hx, hy, hc⟩ := hpoint
  unfold closing
  rw [hx, hy, hc]
  -- mode after mode, as the code tests them
  by_cases h01 : tag = 0 ∧ backSt = 1
  · rw [if_pos h01]
    exact yields_some hst
  rw [if_neg h01]
  by_cases h11 : tag = 1 ∧ backSt = 1
  · rw [if_pos h11]
    have hside : ∀ side ∈ [0, 1, 2], (s.px i = 0 ∧ s.py i = 0) ∨
        tagDenominator (s.px i) (s.py i) 0 0 side ≠ 0 := fun side hside =>
      h.imp_right fun hok => hok.1 h11 side hside
    -- the three sides, one call after the other
    refine (calcTag_yields hst (hside 0 (by simp))).bind ?_
    rintro ⟨s₀, d₀⟩ h₀
    dsimp only at h₀ ⊢
    refine (calcTag_yields h₀ (hside 1 (by simp))).bind ?_
    rintro ⟨s₁, d₁⟩ h₁
    dsimp only at h₁ ⊢
    refine (calcTag_yields h₁ (hside 2 (by simp))).bind ?_
    rintro ⟨s₂, d₂⟩ h₂
    exact yields_some h₂
  rw [if_neg h11]
  by_cases h21 : tag = 2 ∧ backSt = 1
  · rw [if_pos h21]
    exact calcTag_yields hst (h.imp_right fun hok => hok.2 h21)
  · rw [if_neg h21]
    exact yields_some hst

/-- One turn of the selection keeps the index below the number of iterations. -/
theorem selectIter_yields {s t : Colony} {tag backSt st i totIter : ℕ} {ansLen : ℤ} {index : ℕ}
    (hn : 1 ≤ s.n) (hbest : IsTour s.n st (s.pathBest i)) (hi : i < totIter)
    (hindex : index < totIter)
    (hsafe : ∀ k < s.n, (k = st → s.n = 1) → s.ClosesSafely tag backSt k)
    (hst : s.SameButTmp t) :
    Yields (selectIter tag backSt i (t, ansLen, index)) fun r =>
      s.SameButTmp r.1 ∧ r.2.2 < totIter := by
  have hpart := hbest.partialTour
  have hfields : t.n = s.n ∧ t.pathBest = s.pathBest := by
    obtain ⟨tmp, rfl⟩ := hst
    exact ⟨rfl, rfl⟩
  have hlast : s.pathBest i (s.n - 1) = st → s.n = 1 := by
    intro h
    have hzero := hpart.inj (s.n - 1) (by omega) 0 (by omega) (h.trans hpart.start.symm)
    omega
  have hclose := closing_yields (hsafe _ (hpart.lt (s.n - 1) (by omega)) hlast) hst
  unfold selectIter
  dsimp only
  rw [hfields.1, hfields.2]
  refine hclose.bind ?_
  rintro ⟨u, d⟩ hu
  dsimp only at hu ⊢
  cases chkmin ansLen (u.lenBest i + d) with
  | mk len changed =>
      cases changed with
      | true => exact yields_some ⟨hu, hi⟩
      | false => exact yields_some ⟨hu, hindex⟩

/-- The modes of the planner. -/
def antModes : List (ℕ × ℕ) := [(0, 1), (2, 0), (2, 1), (1, 1)]

/-- **The selection ends with the best route of one iteration.** -/
theorem selectTour_yields {s : Colony} {tag backSt st totIter : ℕ} (tim : ℕ) (hn : 1 ≤ s.n)
    (htot : 1 ≤ totIter) (hbest : ∀ i < totIter, IsTour s.n st (s.pathBest i))
    (hmode : (tag, backSt) ∈ antModes)
    (hsafe : ∀ k < s.n, (k = st → s.n = 1) → s.ClosesSafely tag backSt k) :
    Yields (selectTour totIter backSt tim tag s) fun r =>
      r.1.px = s.px ∧ r.1.py = s.py ∧ r.1.n = s.n ∧ r.1.clas = s.clas ∧
        (∃ i < totIter, ∀ k < s.n, r.1.path tim k = s.pathBest i k) ∧
        ∀ t k, ¬ (t = tim ∧ k < s.n) → r.1.path t k = s.path t k := by
  -- the scan starts at iteration 0 or 1
  have hstart : ∃ lo ≤ 1, modeStart tag backSt = some lo := by
    simp only [antModes, List.mem_cons, Prod.mk.injEq, List.not_mem_nil, or_false] at hmode
    obtain ⟨rfl, rfl⟩ | ⟨rfl, rfl⟩ | ⟨rfl, rfl⟩ | ⟨rfl, rfl⟩ := hmode
    · exact ⟨0, by decide, rfl⟩
    · exact ⟨1, by decide, rfl⟩
    · exact ⟨0, by decide, rfl⟩
    · exact ⟨0, by decide, rfl⟩
  obtain ⟨lo, hlo, hmode⟩ := hstart
  have hloop : Yields (forLoop lo totIter (selectIter tag backSt) (s, inf, 0)) fun r =>
      s.SameButTmp r.1 ∧ r.2.2 < totIter := by
    refine forLoop_yields
      (I := fun _ (r : Colony × ℤ × ℕ) => s.SameButTmp r.1 ∧ r.2.2 < totIter) (by omega)
      ⟨⟨s.tmp, rfl⟩, htot⟩ ?_
    rintro i ⟨t, ansLen, index⟩ - hi ⟨hsame, hindex⟩
    exact selectIter_yields hn (hbest i hi) hi hindex hsafe hsame
  unfold selectTour
  rw [hmode]
  refine hloop.bind ?_
  rintro ⟨t, ansLen, index⟩ ⟨⟨tmp, rfl⟩, hindex⟩
  exact yields_some ⟨rfl, rfl, rfl, rfl, ⟨index, hindex, fun k hk => if_pos ⟨rfl, hk⟩⟩,
    fun t k htk => if_neg htk⟩

/-- **A whole run of the colony**, where the closing distances are defined. -/
theorem ant_yields {s : Colony} (rand : ℕ → ℕ) (m totIter st tag backSt tim : ℕ)
    (hs : ∀ i < s.n, ∀ j < s.n, s.EntryOk i j) (hm : 1 ≤ m) (htot : 1 ≤ totIter) (hst : st < s.n)
    (hmode : (tag, backSt) ∈ antModes)
    (hsafe : ∀ k < s.n, (k = st → s.n = 1) → s.ClosesSafely tag backSt k) :
    Yields (ant rand totIter m st backSt tim tag s) fun r =>
      r.1.px = s.px ∧ r.1.py = s.py ∧ r.1.n = s.n ∧ r.1.clas = s.clas ∧
        IsTour s.n st (r.1.path tim) ∧
        ∀ t k, ¬ (t = tim ∧ k < s.n) → r.1.path t k = s.path t k := by
  have hstart := Colony.iterated_clear hs st
  refine (antIters_yields rand tim totIter hm hst hstart).bind fun u hu => ?_
  have hsafe' : ∀ k < u.n, (k = st → u.n = 1) → u.ClosesSafely tag backSt k := by
    unfold Colony.ClosesSafely
    rw [hu.n, hu.px, hu.py, hu.clas]
    exact hsafe
  have hone : 1 ≤ u.n := hu.n ▸ Nat.one_le_of_lt hst
  refine (selectTour_yields tim hone htot (hu.n ▸ hu.pathBest) hmode hsafe').imp ?_
  rintro ⟨v, len⟩ ⟨hpx, hpy, hvn, hclas, ⟨i, hi, hbest⟩, hpath⟩
  rw [hu.n] at hbest hpath
  refine ⟨hpx.trans hu.px, hpy.trans hu.py, hvn.trans hu.n, hclas.trans hu.clas,
    (hu.pathBest i hi).congr (by omega) hbest, fun t k htk => ?_⟩
  rw [hpath t k htk, hu.path]

/-- **What a run of the ants guarantees**, for distinct points and any results of `rand()`. In every
iteration the pheromone is positive before and after, no division fails, and the route of every ant
is a tour from the starting point. In each mode whose closing distance is defined for every other
point, the result is such a tour. -/
theorem ant_routes (rand : ℕ → ℕ) (s₀ : Colony) (m totIter st tim : ℕ) (hn : 2 ≤ s₀.n)
    (hdistinct : s₀.Distinct) (hm : 1 ≤ m) (htot : 1 ≤ totIter) (hst : st < s₀.n) :
    ∃ s₁, initTag 0 s₀ = some s₁ ∧
      (∀ iter < totIter, ∃ s t u, antIters rand m st tim iter s₁.clear = some s ∧ s.PherPos ∧
        iterRoutes rand m st tim s = some t ∧ (∀ i < m, IsTour s₀.n st (t.routes i)) ∧
        antIter rand m st tim iter s = some u ∧ u.PherPos) ∧
      ∀ tag backSt, (tag, backSt) ∈ antModes →
        (∀ k < s₀.n, k ≠ st → s₀.ClosesSafely tag backSt k) →
        ∃ s₂ len, ant rand totIter m st backSt tim tag s₁ = some (s₂, len) ∧
          IsTour s₀.n st (s₂.path tim) := by
  -- distinct points have distances that nothing divides by zero
  obtain ⟨s₁, hinit, hframe, hok⟩ := initTag_yields hdistinct.measured
  have hst₁ : st < s₁.n := hframe.n ▸ hst
  have hn₁ : 2 ≤ s₁.n := hframe.n ▸ hn
  refine ⟨s₁, hinit, fun iter _ => ?_, fun tag backSt hmode hsafe => ?_⟩
  · obtain ⟨s, hs, hiter⟩ :=
      antIters_yields rand tim iter hm hst₁ (Colony.iterated_clear hok st)
    obtain ⟨t, ht, -, htours⟩ := iterRoutes_yields rand m tim hiter.ready (hiter.n ▸ hst₁)
    obtain ⟨u, hu, hiter'⟩ := antIter_yields rand tim hm hst₁ hiter
    rw [hiter.n, hframe.n] at htours
    exact ⟨s, t, u, hs, hiter.ready.pherPos, ht, htours, hu, hiter'.ready.pherPos⟩
  · have hsafe₁ : ∀ k < s₁.n, (k = st → s₁.n = 1) → s₁.ClosesSafely tag backSt k := by
      unfold Colony.ClosesSafely
      rw [hframe.n, hframe.px, hframe.py, hframe.clas]
      exact fun k hk hkst => hsafe k hk fun h => absurd (hkst h) (by omega)
    obtain ⟨⟨s₂, len⟩, hant, -, -, -, -, htour, -⟩ :=
      ant_yields rand m totIter st tag backSt tim hok hm htot hst₁ hmode hsafe₁
    rw [hframe.n] at htour
    exact ⟨s₂, len, hant, htour⟩

/-- Two points `a` and `b` to start with. -/
def Colony.ofPair (a b : ℤ × ℤ) : Colony where
  n := 2
  px := fun i => if i = 0 then a.1 else b.1
  py := fun i => if i = 0 then a.2 else b.2
  clas := fun _ => 0
  dis := fun _ _ => 0
  idis := fun _ _ => 0
  pher := fun _ _ => 0
  deltaPher := fun _ _ => 0
  routes := fun _ _ => 0
  lenBest := fun _ => 0
  pathBest := fun _ _ => 0
  path := fun _ _ => 0
  tmp := (0, 0)
  calls := 0

theorem Colony.ofPair_distinct {a b : ℤ × ℤ} (h : a ≠ b) : (Colony.ofPair a b).Distinct := by
  intro i hi j hj hij
  have hcases : (i = 0 ∧ j = 1) ∨ (i = 1 ∧ j = 0) := by
    have hi2 : i < 2 := hi
    have hj2 : j < 2 := hj
    omega
  rcases hcases with ⟨rfl, rfl⟩ | ⟨rfl, rfl⟩
  · exact h
  · exact h.symm

/-- **The closing distance divides by zero** for a point 60 to the left of the field that is closed
over the left side. -/
theorem ant_divides_by_zero :
    ¬ ∀ (rand : ℕ → ℕ) (s₀ : Colony) (m totIter st tag backSt tim : ℕ), 2 ≤ s₀.n → s₀.n ≤ 30 →
      s₀.Distinct → 1 ≤ m → m ≤ 52 → 1 ≤ totIter → totIter ≤ 103 → st < s₀.n →
      (tag, backSt) ∈ antModes →
      ∃ s₁ s₂ len, initTag 0 s₀ = some s₁ ∧
        ant rand totIter m st backSt tim tag s₁ = some (s₂, len) := by
  intro h
  have hdistinct : (Colony.ofPair (-60, 5) (0, 0)).Distinct := Colony.ofPair_distinct (by decide)
  obtain ⟨s₁, s₂, len, hinit, hant⟩ := h (fun _ => 0) (Colony.ofPair (-60, 5) (0, 0)) 1 1 1 2 1 0
    (by decide) (by decide) hdistinct (by decide) (by decide) (by decide) (by decide) (by decide)
    (by decide)
  obtain ⟨hframe, hok⟩ := (initTag_yields hdistinct.measured).of_eq_some hinit
  have hn : s₁.n = 2 := hframe.n
  have hst : 1 < s₁.n := by omega
  obtain ⟨u, hu, hiter⟩ := antIters_yields (fun _ => 0) (m := 1) 0 1 le_rfl hst
    (Colony.iterated_clear hok 1)
  -- the tour from point 1 ends at point 0
  have htour := (hiter.pathBest 0 Nat.zero_lt_one).partialTour
  have hlast : u.pathBest 0 (u.n - 1) = 0 := by
    have hlt := htour.lt 1 (by omega)
    have hne : u.pathBest 0 1 ≠ 1 := fun h =>
      absurd (htour.inj 1 (by omega) 0 (by omega) (h.trans htour.start.symm)) (by decide)
    rw [hiter.n, hn]
    show u.pathBest 0 1 = 0
    omega
  have hzero : u.calcTag (u.px 0) (u.py 0) 0 0 (u.clas 0) = none := by
    have hpx : u.px 0 = -60 := by rw [hiter.px, hframe.px]; rfl
    have hpy : u.py 0 = 5 := by rw [hiter.py, hframe.py]; rfl
    have hclas : u.clas 0 = 0 := by rw [hiter.clas, hframe.clas]; rfl
    have hnone := (calcTag_eq_none_iff u.tmp (-60) 5 0 0 0).mpr ⟨by decide, by decide⟩
    rw [hpx, hpy, hclas, Colony.calcTag, hnone]
    rfl
  have hnone : ant (fun _ => 0) 1 1 (1 : ℕ) 1 0 2 s₁ = none := by
    have hselect : selectIter 2 1 0 (u, inf, 0) = none := by
      simp [selectIter, closing, hlast, hzero]
    have hrun : ant (fun _ => 0) 1 1 (1 : ℕ) 1 0 2 s₁ = selectTour 1 1 0 2 u := by
      rw [ant, hu]
      rfl
    rw [hrun]
    simp [selectTour, modeStart, forLoop, loopFrom, hselect]
  rw [hnone] at hant
  exact absurd hant (by simp)

/-- A run of 50 ants over 20 iterations, from the second of two points. -/
theorem ant_routes_ofPair :
    ∃ s₁, initTag 0 (Colony.ofPair (310, 155) (0, 0)) = some s₁ ∧
      ∃ s₂ len, ant (fun k => 7 * k) 20 50 1 1 0 0 s₁ = some (s₂, len) ∧
        IsTour 2 1 (s₂.path 0) := by
  obtain ⟨s₁, hinit, -, hmodes⟩ := ant_routes (fun k => 7 * k) (Colony.ofPair (310, 155) (0, 0))
    50 20 1 0 (by decide) (Colony.ofPair_distinct (by decide))
    (by decide) (by decide) (by decide)
  refine ⟨s₁, hinit, hmodes 0 1 (by decide) fun k _ _ => ?_⟩
  exact Or.inr ⟨fun h => absurd h.1 (by decide), fun h => absurd h.1 (by decide)⟩

end HandlingRobot
