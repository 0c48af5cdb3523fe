import Mathlib.Algebra.BigOperators.Group.Finset.Basic
import Mathlib.Algebra.Order.BigOperators.Group.Finset
import Mathlib.Data.Multiset.AddSub
import Mathlib.Data.Multiset.MapFold
import Mathlib.Data.Prod.Lex
import Mathlib.Logic.Function.Basic
import Mathlib.Order.WellFounded

/-! # Best-first search

Search for a cheapest walk from `start` to `goal` in a graph whose moves have positive costs, with a
frontier that may hold outdated entries. Which entry is taken from the frontier is left open; it has
the least sum of its cost and an estimate `h` of the rest.

* **`Walk`**, **`Route`** — walks with their cost, and the lists of their vertices.
* **`wayTotal`**, **`Route.potential_le`** — the length of a list of vertices, and a lower bound on
  that of a route.
* **`Search`**, **`relax`**, **`expand`** — the state: the frontier, the best known cost and the
  predecessor of every vertex. The cost of `start` need not be recorded.
* **`Search.Inv`**, **`Search.Between`** — the invariant, kept by every turn
  (`Search.Between.turn`).
* **`Search.card_expand`** — how many entries an expansion adds.
* **`Search.Between.optimal`**, **`Search.Between.not_walk`** — what a taken goal and an empty
  frontier say.
* **`walkBack`**, **`walkBack_nodup`**, **`Search.Between.walkBack`** — the walk along the
  predecessors visits no vertex twice and is a route of at most the known cost. -/

namespace HandlingRobot

variable {V : Type*}

/-! ## Walks -/

/-- A walk with its cost. -/
inductive Walk (moves : V → List (V × ℕ)) : V → V → ℕ → Prop
  | refl (v : V) : Walk moves v v 0
  | step {v w u : V} {c d : ℕ} : (w, c) ∈ moves v → Walk moves w u d → Walk moves v u (c + d)

/-- The vertices of a walk, from its start to its end, with its cost. -/
inductive Route (moves : V → List (V × ℕ)) : List V → ℕ → Prop
  | single (v : V) : Route moves [v] 0
  | cons {v w : V} {c d : ℕ} {l : List V} :
      (w, c) ∈ moves v → Route moves (w :: l) d → Route moves (v :: w :: l) (c + d)

variable {moves : V → List (V × ℕ)}

theorem Walk.trans {v w u : V} {c d : ℕ} (h : Walk moves v w c) (h' : Walk moves w u d) :
    Walk moves v u (c + d) := by
  induction h with
  | refl v => rwa [Nat.zero_add]
  | step hmove _ ih =>
      rw [Nat.add_assoc]
      exact .step hmove (ih h')

/-- A walk with one more move. -/
theorem Walk.concat {v w u : V} {c d : ℕ} (h : Walk moves v w d) (hmove : (u, c) ∈ moves w) :
    Walk moves v u (d + c) :=
  h.trans (.step hmove (.refl u))

/-- A route is a walk from its first vertex to its last one. -/
theorem Route.walk {l : List V} {c : ℕ} (h : Route moves l c) {v u : V} (hv : l.head? = some v)
    (hu : l.getLast? = some u) : Walk moves v u c := by
  induction h generalizing v with
  | single w =>
      obtain rfl := Option.some.inj hv
      obtain rfl := Option.some.inj hu
      exact .refl _
  | @cons x w c d l hmove hroute ih =>
      obtain rfl := Option.some.inj hv
      rw [List.getLast?_cons_cons] at hu
      exact .step hmove (ih rfl hu)

/-- A route with one more vertex at its end. -/
theorem Route.concat {l : List V} {c d : ℕ} {v w : V} (h : Route moves l d)
    (hlast : l.getLast? = some v) (hmove : (w, c) ∈ moves v) : Route moves (l ++ [w]) (d + c) := by
  induction h with
  | single u =>
      obtain rfl := Option.some.inj hlast
      rw [Nat.zero_add]
      exact .cons hmove (.single w)
  | @cons x y a b l hstep hroute ih =>
      rw [List.getLast?_cons_cons] at hlast
      rw [Nat.add_assoc]
      exact .cons hstep (ih hlast)

/-- A route has no more moves than its cost, if every move costs something. -/
theorem Route.length_le {l : List V} {c : ℕ} (h : Route moves l c)
    (hpos : ∀ v, ∀ m ∈ moves v, 0 < m.2) : l.length ≤ c + 1 := by
  induction h with
  | single v => simp
  | @cons v w c d l hmove hroute ih =>
      have hc : 0 < c := hpos v _ hmove
      rw [List.length_cons]
      omega

/-! ## Lengths -/

/-- The sum of the lengths `p` of the moves along a list of vertices. -/
def wayTotal (p : V → V → ℕ) : List V → ℕ
  | v :: w :: l => p v w + wayTotal p (w :: l)
  | _ => 0

@[simp] theorem wayTotal_cons_cons (p : V → V → ℕ) (v w : V) (l : List V) :
    wayTotal p (v :: w :: l) = p v w + wayTotal p (w :: l) := rfl

/-- Counting the moves. -/
theorem wayTotal_one {l : List V} (hl : l ≠ []) : wayTotal (fun _ _ => 1) l + 1 = l.length := by
  induction l with
  | nil => exact absurd rfl hl
  | cons v l ih =>
      cases l with
      | nil => rfl
      | cons w l =>
          have hrest := ih (List.cons_ne_nil w l)
          rw [List.length_cons, ← hrest, wayTotal_cons_cons, Nat.add_comm 1]

/-- One more vertex at the end. -/
theorem wayTotal_concat (p : V → V → ℕ) {l : List V} {v : V} (hlast : l.getLast? = some v) (w : V) :
    wayTotal p (l ++ [w]) = wayTotal p l + p v w := by
  induction l with
  | nil => exact absurd hlast (by simp)
  | cons x l ih =>
      cases l with
      | nil =>
          obtain rfl := Option.some.inj hlast
          simp [wayTotal]
      | cons y l =>
          rw [List.getLast?_cons_cons] at hlast
          have hrest := ih hlast
          rw [List.cons_append] at hrest
          rw [List.cons_append, List.cons_append, wayTotal_cons_cons, wayTotal_cons_cons, hrest,
            Nat.add_assoc]

/-- A way has the same length in both directions, if every move has. -/
theorem wayTotal_reverse {p : V → V → ℕ} (hp : ∀ v w, p v w = p w v) (l : List V) :
    wayTotal p l.reverse = wayTotal p l := by
  induction l with
  | nil => rfl
  | cons v l ih =>
      cases l with
      | nil => rfl
      | cons w l =>
          have hlast : (w :: l).reverse.getLast? = some w := by
            rw [List.getLast?_reverse, List.head?_cons]
          rw [List.reverse_cons, wayTotal_concat p hlast, ih, wayTotal_cons_cons, hp w v,
            Nat.add_comm]

/-- Lengths that are the same for all moves give the same total along a route. -/
theorem Route.wayTotal_congr {p q : V → V → ℕ} {l : List V} {c : ℕ} (h : Route moves l c)
    (hpq : ∀ v, ∀ m ∈ moves v, p v m.1 = q v m.1) : wayTotal p l = wayTotal q l := by
  induction h with
  | single v => rfl
  | @cons v w c d l hmove hroute ih =>
      rw [wayTotal_cons_cons, wayTotal_cons_cons, ih, hpq v _ hmove]

/-- **A potential** that no move raises by more than its length is raised along a route by no more
than the length of the route. It may be meant for the vertices with a property `P` only, which the
moves keep. -/
theorem Route.potential_le {P : V → Prop} {φ : V → ℤ} {p : V → V → ℕ}
    (hstep : ∀ v, P v → ∀ m ∈ moves v, P m.1 ∧ φ m.1 ≤ φ v + p v m.1) {l : List V} {c : ℕ}
    (h : Route moves l c) {v u : V} (hv : l.head? = some v) (hu : l.getLast? = some u) (hP : P v) :
    φ u ≤ φ v + wayTotal p l := by
  induction h generalizing v with
  | single w =>
      obtain rfl := Option.some.inj hv
      obtain rfl := Option.some.inj hu
      simp [wayTotal]
  | @cons x w c d l hmove hroute ih =>
      obtain rfl := Option.some.inj hv
      rw [List.getLast?_cons_cons] at hu
      obtain ⟨hP', hle⟩ := hstep _ hP _ hmove
      have hrest := ih rfl hu hP'
      rw [wayTotal_cons_cons]
      dsimp only at hle
      omega

/-- The total of a bound on the moves is a bound on the cost. -/
theorem Route.wayTotal_le {p : V → V → ℕ} {k : ℕ} {l : List V} {c : ℕ} (h : Route moves l c)
    (hp : ∀ v, ∀ m ∈ moves v, k * p v m.1 ≤ m.2) : k * wayTotal p l ≤ c := by
  induction h with
  | single v => simp [wayTotal]
  | @cons v w c d l hmove hroute ih =>
      rw [wayTotal_cons_cons, Nat.mul_add]
      exact Nat.add_le_add (hp v _ hmove) ih

/-- A route has no more moves than its length, if every move has a length. -/
theorem Route.length_le_wayTotal {p : V → V → ℕ} {l : List V} {c : ℕ} (h : Route moves l c)
    (hp : ∀ v, ∀ m ∈ moves v, 0 < p v m.1) : l.length ≤ wayTotal p l + 1 := by
  induction h with
  | single v => simp
  | @cons v w c d l hmove hroute ih =>
      have hpos : 0 < p v w := hp v _ hmove
      rw [List.length_cons, wayTotal_cons_cons]
      omega

/-! ## The search -/

/-- **The state of a search**: entries of the frontier with the cost of their walk, and for every
vertex the best cost recorded and its predecessor. -/
structure Search (V : Type*) where
  frontier : Multiset (V × ℕ)
  best : V → Option ℕ
  parent : V → V

variable [DecidableEq V]

/-- A walk of cost `d` to `w` that comes from `u` is recorded if it is better than the best one. -/
def Search.relax (s : Search V) (u w : V) (d : ℕ) : Search V :=
  if ∀ b ∈ s.best w, d < b then
    { frontier := (w, d) ::ₘ s.frontier
      best := Function.update s.best w (some d)
      parent := Function.update s.parent w u }
  else s

/-- The moves `ms` from an entry `(u, g)`. -/
def Search.expand (s : Search V) (u : V) (g : ℕ) (ms : List (V × ℕ)) : Search V :=
  ms.foldl (fun s m => s.relax u m.1 (g + m.2)) s

theorem Search.expand_append (s : Search V) (u : V) (g : ℕ) (ms ms' : List (V × ℕ)) :
    s.expand u g (ms ++ ms') = (s.expand u g ms).expand u g ms' := List.foldl_append

/-- The search at its start; the predecessors are not set yet. -/
def Search.init (start : V) (parent : V → V) : Search V where
  frontier := {(start, 0)}
  best := fun _ => none
  parent := parent

/-- The cost known for a vertex; that of the start is 0, whatever is recorded. -/
def Search.cost (s : Search V) (start v : V) : Option ℕ := if v = start then some 0 else s.best v

/-- All moves of `ms` from a vertex of cost `d` lead to vertices of at most the sum of the costs. -/
def Search.Closed (s : Search V) (start : V) (d : ℕ) (ms : List (V × ℕ)) : Prop :=
  ∀ m ∈ ms, ∃ dw, s.cost start m.1 = some dw ∧ dw ≤ d + m.2

/-- **The invariant**, while an entry `entry` taken from the frontier has been expanded by the moves
`done`. -/
structure Search.Inv (moves : V → List (V × ℕ)) (start goal : V) (s : Search V) (entry : V × ℕ)
    (done : List (V × ℕ)) : Prop where
  /-- Every entry stands for a walk. -/
  walk : ∀ e ∈ s.frontier, Walk moves start e.1 e.2
  /-- No entry is better than what is known of its vertex. -/
  le : ∀ e ∈ s.frontier, ∃ d, s.cost start e.1 = some d ∧ d ≤ e.2
  /-- A recorded vertex is reached from its predecessor at no more than its cost. -/
  parent : ∀ v d, v ≠ start → s.best v = some d →
    ∃ c dp, (v, c) ∈ moves (s.parent v) ∧ s.cost start (s.parent v) = some dp ∧ dp + c ≤ d
  /-- A known vertex is in the frontier at its cost, or all its moves are accounted for. -/
  settled : ∀ v d, s.cost start v = some d → (v, d) ∈ s.frontier ∨
    (v ≠ goal ∧ s.Closed start d (if (v, d) = entry then done else moves v))

variable {start goal : V} {s : Search V}

@[simp] theorem Search.cost_start : s.cost start start = some 0 := if_pos rfl

theorem Search.cost_of_ne {v : V} (h : v ≠ start) : s.cost start v = s.best v := if_neg h

/-- What a relaxation leaves in the frontier. -/
theorem Search.mem_relax_frontier {u w : V} {d : ℕ} {e : V × ℕ}
    (h : e ∈ (s.relax u w d).frontier) : e = (w, d) ∨ e ∈ s.frontier := by
  unfold Search.relax at h
  split_ifs at h
  · exact Multiset.mem_cons.mp h
  · exact Or.inr h

theorem Search.mem_relax_frontier_of_mem {e : V × ℕ} (h : e ∈ s.frontier) (u w : V) (d : ℕ) :
    e ∈ (s.relax u w d).frontier := by
  unfold Search.relax
  split_ifs
  · exact Multiset.mem_cons_of_mem h
  · exact h

/-- **What a relaxation records** of a vertex: nothing new, or the walk it is about. -/
theorem Search.relax_best (s : Search V) (u w : V) (d : ℕ) (v : V) :
    ((s.relax u w d).best v = s.best v ∧ (s.relax u w d).parent v = s.parent v) ∨
      (v = w ∧ (s.relax u w d).best v = some d ∧ (s.relax u w d).parent v = u ∧
        (v, d) ∈ (s.relax u w d).frontier) := by
  unfold Search.relax
  split_ifs
  · by_cases hv : v = w
    · subst hv
      exact Or.inr ⟨rfl, Function.update_self _ _ _, Function.update_self _ _ _,
        Multiset.mem_cons_self _ _⟩
    · exact Or.inl ⟨Function.update_of_ne hv _ _, Function.update_of_ne hv _ _⟩
  · exact Or.inl ⟨rfl, rfl⟩

/-- A cost is the one known before, or that of a new entry. -/
theorem Search.relax_cost_cases {u v w : V} {b d : ℕ}
    (h : (s.relax u w d).cost start v = some b) :
    s.cost start v = some b ∨ (v, b) ∈ (s.relax u w d).frontier := by
  by_cases hv : v = start
  · subst hv
    rw [Search.cost_start] at h ⊢
    exact Or.inl h
  · rw [Search.cost_of_ne hv] at h ⊢
    rcases s.relax_best u w d v with ⟨hbest, -⟩ | ⟨-, hbest, -, hmem⟩
    · exact Or.inl (hbest.symm.trans h)
    · obtain rfl := Option.some.inj (hbest.symm.trans h)
      exact Or.inr hmem

/-- Known costs only get better. -/
theorem Search.relax_cost (s : Search V) (start u w : V) (d : ℕ) {v : V} {b : ℕ}
    (h : s.cost start v = some b) : ∃ b', (s.relax u w d).cost start v = some b' ∧ b' ≤ b := by
  unfold Search.relax
  by_cases hbetter : ∀ b ∈ s.best w, d < b
  · rw [if_pos hbetter]
    by_cases hv : v = start
    · subst hv
      rw [Search.cost_start] at h ⊢
      exact ⟨0, rfl, Nat.zero_le b⟩
    · rw [Search.cost_of_ne hv] at h ⊢
      by_cases hvw : v = w
      · subst hvw
        exact ⟨d, Function.update_self _ _ _, Nat.le_of_lt (hbetter b h)⟩
      · exact ⟨b, (Function.update_of_ne hvw _ _).trans h, Nat.le_refl b⟩
  · rw [if_neg hbetter]
    exact ⟨b, h, Nat.le_refl b⟩

/-- After `relax` the vertex is known at no more than the cost of the walk. -/
theorem Search.relax_le (s : Search V) (start u w : V) (d : ℕ) :
    ∃ b, (s.relax u w d).cost start w = some b ∧ b ≤ d := by
  by_cases hw : w = start
  · subst hw
    exact ⟨0, Search.cost_start, Nat.zero_le d⟩
  · unfold Search.relax
    by_cases hbetter : ∀ b ∈ s.best w, d < b
    · rw [if_pos hbetter, Search.cost_of_ne hw]
      exact ⟨d, Function.update_self _ _ _, Nat.le_refl d⟩
    · rw [if_neg hbetter, Search.cost_of_ne hw]
      simp only [not_forall, Nat.not_lt] at hbetter
      obtain ⟨b, hb, hle⟩ := hbetter
      exact ⟨b, hb, hle⟩

theorem Search.Closed.relax {d : ℕ} {ms : List (V × ℕ)} (h : s.Closed start d ms) (u w : V)
    (dw : ℕ) : (s.relax u w dw).Closed start d ms := by
  intro m hm
  obtain ⟨b, hb, hle⟩ := h m hm
  obtain ⟨b', hb', hle'⟩ := s.relax_cost start u w dw hb
  exact ⟨b', hb', hle'.trans hle⟩

/-- **One move keeps the invariant.** -/
theorem Search.Inv.relax {u w : V} {g c : ℕ} {done : List (V × ℕ)}
    (h : s.Inv moves start goal (u, g) done) (hwalk : Walk moves start u g)
    (hcost : ∃ d, s.cost start u = some d ∧ d ≤ g) (hmove : (w, c) ∈ moves u) :
    (s.relax u w (g + c)).Inv moves start goal (u, g) (done ++ [(w, c)]) := by
  obtain ⟨du, hdu, hdug⟩ := hcost
  -- the new entry closes its own move
  have hlast : ∀ d, d = g → (s.relax u w (g + c)).Closed start d [(w, c)] := by
    rintro d rfl m hm
    obtain rfl := List.mem_singleton.mp hm
    exact s.relax_le start u w (d + c)
  have hclosed : ∀ v d, s.Closed start d (if (v, d) = (u, g) then done else moves v) →
      (s.relax u w (g + c)).Closed start d
        (if (v, d) = (u, g) then done ++ [(w, c)] else moves v) := by
    intro v d hc
    by_cases hentry : (v, d) = (u, g)
    · rw [if_pos hentry] at hc ⊢
      intro m hm
      rcases List.mem_append.mp hm with hm | hm
      · exact hc.relax u w (g + c) m hm
      · exact hlast d (Prod.mk.inj hentry).2 m hm
    · rw [if_neg hentry] at hc ⊢
      exact hc.relax u w (g + c)
  refine ⟨fun e he => ?_, fun e he => ?_, fun v d hv hd => ?_, fun v d hd => ?_⟩
  · rcases Search.mem_relax_frontier he with rfl | he
    · exact hwalk.concat hmove
    · exact h.walk e he
  · rcases Search.mem_relax_frontier he with rfl | he
    · exact s.relax_le start u w (g + c)
    · obtain ⟨b, hb, hle⟩ := h.le e he
      obtain ⟨b', hb', hle'⟩ := s.relax_cost start u w (g + c) hb
      exact ⟨b', hb', hle'.trans hle⟩
  · rcases s.relax_best u w (g + c) v with ⟨hbest, hparent⟩ | ⟨rfl, hbest, hparent, -⟩
    -- the other parents stay, and their costs can only go down
    · rw [hbest] at hd
      obtain ⟨a, dp, hm, hdp, hle⟩ := h.parent v d hv hd
      obtain ⟨b', hb', hle'⟩ := s.relax_cost start u w (g + c) hdp
      rw [hparent]
      exact ⟨a, b', hm, hb', by omega⟩
    · obtain rfl := Option.some.inj (hbest.symm.trans hd)
      obtain ⟨b', hb', hle'⟩ := s.relax_cost start u v (g + c) hdu
      rw [hparent]
      exact ⟨c, b', hmove, hb', by omega⟩
  · rcases Search.relax_cost_cases hd with hold | hmem
    · rcases h.settled v d hold with hmem | ⟨hgoal, hc⟩
      · exact Or.inl (Search.mem_relax_frontier_of_mem hmem u w (g + c))
      · exact Or.inr ⟨hgoal, hclosed v d hc⟩
    · exact Or.inl hmem

/-- Expanding an entry by a list of its moves. -/
theorem Search.Inv.expand {u : V} {g : ℕ} (ms : List (V × ℕ)) :
    ∀ {s : Search V} {done : List (V × ℕ)}, s.Inv moves start goal (u, g) done →
      Walk moves start u g → (∃ d, s.cost start u = some d ∧ d ≤ g) → ms ⊆ moves u →
      (s.expand u g ms).Inv moves start goal (u, g) (done ++ ms) := by
  induction ms with
  | nil =>
      intro s done h _ _ _
      rwa [List.append_nil]
  | cons m ms ih =>
      intro s done h hwalk hcost hsub
      obtain ⟨d, hd, hle⟩ := hcost
      obtain ⟨d', hd', hle'⟩ := s.relax_cost start u m.1 (g + m.2) hd
      have hstep := h.relax hwalk ⟨d, hd, hle⟩ (hsub List.mem_cons_self)
      have hrest := ih hstep hwalk ⟨d', hd', hle'.trans hle⟩
        fun m' hm' => hsub (List.mem_cons_of_mem m hm')
      rwa [List.append_assoc] at hrest

/-- The state after an entry is taken. -/
def Search.take (s : Search V) (e : V × ℕ) : Search V := { s with frontier := s.frontier.erase e }

/-- The invariant between two turns of the search: no entry is half expanded. -/
def Search.Between (moves : V → List (V × ℕ)) (start goal : V) (s : Search V) : Prop :=
  ∀ entry, s.Inv moves start goal entry (moves entry.1)

theorem Search.between_init (moves : V → List (V × ℕ)) (start goal : V) (parent : V → V) :
    (Search.init start parent).Between moves start goal := by
  intro entry
  refine ⟨fun e he => ?_, fun e he => ?_, fun v d _ hd => ?_, fun v d hd => ?_⟩
  · obtain rfl := Multiset.mem_singleton.mp he
    exact .refl start
  · obtain rfl := Multiset.mem_singleton.mp he
    exact ⟨0, Search.cost_start, Nat.le_refl 0⟩
  · exact absurd hd (by simp [Search.init])
  · left
    by_cases hv : v = start
    · subst hv
      rw [Search.cost_start] at hd
      obtain rfl := Option.some.inj hd
      exact Multiset.mem_singleton_self _
    · rw [Search.cost_of_ne hv] at hd
      exact absurd hd (by simp [Search.init])

/-- **A turn of the search**: an entry other than the goal is taken and all its moves are made. -/
theorem Search.Between.turn (h : s.Between moves start goal) {u : V} {g : ℕ}
    (hmem : (u, g) ∈ s.frontier) (hgoal : u ≠ goal) :
    ((s.take (u, g)).expand u g (moves u)).Between moves start goal := by
  have hinv := h (u, g)
  -- without the entry the invariant holds with none of its moves done
  have htaken : (s.take (u, g)).Inv moves start goal (u, g) [] := by
    refine ⟨fun e he => hinv.walk e (Multiset.mem_of_mem_erase he),
      fun e he => hinv.le e (Multiset.mem_of_mem_erase he), hinv.parent, fun v d hd => ?_⟩
    by_cases hentry : (v, d) = (u, g)
    · obtain ⟨rfl, rfl⟩ := Prod.mk.inj hentry
      right
      rw [if_pos rfl]
      exact ⟨hgoal, fun m hm => absurd hm List.not_mem_nil⟩
    · rw [if_neg hentry]
      rcases hinv.settled v d hd with hin | ⟨hv, hc⟩
      · exact Or.inl ((Multiset.mem_erase_of_ne hentry).mpr hin)
      · rw [if_neg hentry] at hc
        exact Or.inr ⟨hv, hc⟩
  have hdone := htaken.expand (moves u) (hinv.walk _ hmem) (hinv.le _ hmem) (List.Subset.refl _)
  rw [List.nil_append] at hdone
  -- now all its moves are done, so it may be any other entry
  intro entry
  refine ⟨hdone.walk, hdone.le, hdone.parent, fun v d hd => ?_⟩
  rcases hdone.settled v d hd with hin | ⟨hv, hc⟩
  · exact Or.inl hin
  · refine Or.inr ⟨hv, ?_⟩
    have hall : (if (v, d) = (u, g) then moves u else moves v) = moves v := by
      split_ifs with hentry
      · rw [(Prod.mk.inj hentry).1]
      · rfl
    rw [hall] at hc
    split_ifs with hentry
    · rwa [← hentry]
    · exact hc

/-! ## What the search finds -/

/-- A walk to the goal passes an entry of the frontier, at no more than its cost. -/
theorem Search.Between.exists_entry (h : s.Between moves start goal) {v : V} {c : ℕ}
    (hwalk : Walk moves v goal c) :
    ∀ d, s.cost start v = some d →
      ∃ u g r, (u, g) ∈ s.frontier ∧ Walk moves u goal r ∧ g + r ≤ d + c := by
  induction hwalk with
  | refl v =>
      intro d hd
      rcases (h (v, d)).settled v d hd with hin | ⟨hv, -⟩
      · exact ⟨v, d, 0, hin, .refl v, Nat.le_refl _⟩
      · exact absurd rfl hv
  | @step v w u c r hmove hrest ih =>
      intro d hd
      rcases (h (v, d)).settled v d hd with hin | ⟨-, hc⟩
      · exact ⟨v, d, c + r, hin, .step hmove hrest, Nat.le_refl _⟩
      · rw [if_pos rfl] at hc
        obtain ⟨dw, hdw, hle⟩ := hc _ hmove
        obtain ⟨x, g, r', hin, hx, hle'⟩ := ih h dw hdw
        exact ⟨x, g, r', hin, hx, by simp only at hle; omega⟩

/-- **An empty frontier** means that the goal cannot be reached. -/
theorem Search.Between.not_walk (h : s.Between moves start goal) (hempty : s.frontier = 0) (c : ℕ) :
    ¬ Walk moves start goal c := by
  intro hwalk
  obtain ⟨u, g, r, hin, -⟩ := h.exists_entry hwalk 0 Search.cost_start
  rw [hempty] at hin
  exact Multiset.notMem_zero _ hin

/-- **A goal taken with the least estimate** is reached at the least cost, if the estimate is never
above the cost of the rest and zero at the goal. -/
theorem Search.Between.optimal (h : s.Between moves start goal) (est : V → ℕ)
    (hest : ∀ v c, Walk moves v goal c → est v ≤ c) (hgoal : est goal = 0) {g : ℕ}
    (hmin : ∀ e ∈ s.frontier, g + est goal ≤ e.2 + est e.1) {c : ℕ}
    (hwalk : Walk moves start goal c) : g ≤ c := by
  obtain ⟨u, g', r, hin, hr, hle⟩ := h.exists_entry hwalk 0 Search.cost_start
  have hu : g + est goal ≤ g' + est u := hmin _ hin
  have hrest := hest u r hr
  omega

/-! ## The size of the frontier -/

/-- A walk that is taken up is one entry more. -/
theorem Search.card_relax (s : Search V) (u w : V) (d : ℕ) :
    (s.relax u w d).frontier.card =
      s.frontier.card + if ∀ b ∈ s.best w, d < b then 1 else 0 := by
  unfold Search.relax
  split_ifs
  · exact Multiset.card_cons _ _
  · rfl

/-- What is known of the other vertices stays. -/
theorem Search.relax_best_of_ne (s : Search V) (u : V) {v w : V} (hv : v ≠ w) (d : ℕ) :
    (s.relax u w d).best v = s.best v := by
  rcases s.relax_best u w d v with ⟨hbest, -⟩ | ⟨heq, -⟩
  · exact hbest
  · exact absurd heq hv

/-- **An expansion adds one entry for every move that improves its vertex**, if no two of its moves
lead to the same one. -/
theorem Search.card_expand (u : V) (g : ℕ) (ms : List (V × ℕ)) :
    ∀ s : Search V, (ms.map Prod.fst).Nodup → (s.expand u g ms).frontier.card =
      s.frontier.card + (ms.filter fun m => ∀ b ∈ s.best m.1, g + m.2 < b).length := by
  induction ms with
  | nil => exact fun s _ => rfl
  | cons m ms ih =>
      intro s hnodup
      rw [List.map_cons, List.nodup_cons] at hnodup
      -- the move does not change what is known of the vertices of the others
      have hsame : (ms.filter fun m' => ∀ b ∈ (s.relax u m.1 (g + m.2)).best m'.1, g + m'.2 < b) =
          ms.filter fun m' => ∀ b ∈ s.best m'.1, g + m'.2 < b := by
        refine List.filter_congr fun m' hm' => ?_
        have hne : m'.1 ≠ m.1 := by
          intro h
          apply hnodup.1
          rw [← h]
          exact List.mem_map_of_mem hm'
        rw [s.relax_best_of_ne u hne]
      have hrest := ih (s.relax u m.1 (g + m.2)) hnodup.2
      rw [hsame, s.card_relax] at hrest
      show ((s.relax u m.1 (g + m.2)).expand u g ms).frontier.card = _
      rw [hrest, List.filter_cons]
      by_cases hbetter : ∀ b ∈ s.best m.1, g + m.2 < b
      · rw [if_pos hbetter, if_pos (decide_eq_true hbetter), List.length_cons]
        omega
      · rw [if_neg hbetter, if_neg (by simpa using hbetter)]
        rfl

/-! ## Termination -/

/-- What is left to improve on the vertices `U`: the unrecorded ones, and the recorded costs. -/
def Search.rank (U : Finset V) (s : Search V) : ℕ ×ₗ ℕ :=
  toLex ((U.filter fun v => s.best v = none).card, ∑ v ∈ U, (s.best v).getD 0)

/-- **A better walk lowers the rank.** -/
theorem Search.relax_rank (s : Search V) {U : Finset V} (u : V) {w : V} (hw : w ∈ U) (d : ℕ) :
    s.relax u w d = s ∨ (s.relax u w d).rank U < s.rank U := by
  by_cases hbetter : ∀ b ∈ s.best w, d < b
  · right
    have heq : (s.relax u w d).best = Function.update s.best w (some d) := by
      rw [Search.relax, if_pos hbetter]
    rw [Search.rank, Search.rank, heq, Prod.Lex.toLex_lt_toLex]
    -- a new vertex has one more cost; a better cost lowers the sum
    by_cases hnone : s.best w = none
    · left
      refine Finset.card_lt_card (Finset.ssubset_iff_of_subset ?_ |>.mpr ⟨w, ?_, ?_⟩)
      · intro v hv
        obtain ⟨hvU, hv⟩ := Finset.mem_filter.mp hv
        have hvw : v ≠ w := by
          rintro rfl
          rw [Function.update_self] at hv
          exact absurd hv (by simp)
        rw [Function.update_of_ne hvw] at hv
        exact Finset.mem_filter.mpr ⟨hvU, hv⟩
      · exact Finset.mem_filter.mpr ⟨hw, hnone⟩
      · simp
    · obtain ⟨b, hb⟩ := Option.ne_none_iff_exists'.mp hnone
      right
      constructor
      · refine congrArg Finset.card (Finset.filter_congr fun v _ => ?_)
        by_cases hvw : v = w
        · simp [hvw, hb]
        · rw [Function.update_of_ne hvw]
      · refine Finset.sum_lt_sum (fun v _ => ?_) ⟨w, hw, ?_⟩
        · by_cases hvw : v = w
          · subst hvw
            rw [Function.update_self, hb]
            exact Nat.le_of_lt (hbetter b hb)
          · rw [Function.update_of_ne hvw]
        · rw [Function.update_self, hb]
          exact hbetter b hb
  · exact Or.inl (if_neg hbetter)

/-- An expansion improves something, or it changes nothing. -/
theorem Search.expand_rank {U : Finset V} (u : V) (g : ℕ) (ms : List (V × ℕ))
    (hU : ∀ m ∈ ms, m.1 ∈ U) :
    ∀ s : Search V, s.expand u g ms = s ∨ (s.expand u g ms).rank U < s.rank U := by
  induction ms with
  | nil => exact fun s => Or.inl rfl
  | cons m ms ih =>
      intro s
      have hfold : s.expand u g (m :: ms) = (s.relax u m.1 (g + m.2)).expand u g ms := rfl
      have hrest := ih (fun m' hm' => hU m' (List.mem_cons_of_mem m hm')) (s.relax u m.1 (g + m.2))
      rw [hfold]
      rcases s.relax_rank u (hU m List.mem_cons_self) (g + m.2) with hsame | hlt
      · rw [hsame] at hrest ⊢
        exact hrest
      · rcases hrest with hsame | hlt'
        · exact Or.inr (by rw [hsame]; exact hlt)
        · exact Or.inr (lt_trans hlt' hlt)

/-- **Every turn comes closer to the end**: it improves something, or it leaves one entry less. -/
theorem Search.turn_rank (s : Search V) {U : Finset V} {u : V} {g : ℕ} {ms : List (V × ℕ)}
    (hU : ∀ m ∈ ms, m.1 ∈ U) (hmem : (u, g) ∈ s.frontier) :
    ((s.take (u, g)).expand u g ms).rank U < s.rank U ∨
      ((s.take (u, g)).expand u g ms).rank U = s.rank U ∧
        ((s.take (u, g)).expand u g ms).frontier.card < s.frontier.card := by
  rcases Search.expand_rank u g ms hU (s.take (u, g)) with hsame | hlt
  · right
    rw [hsame]
    exact ⟨rfl, Multiset.card_erase_lt_of_mem hmem⟩
  · exact Or.inl hlt

/-! ## The walk back -/

/-- The walk along the predecessors, in an array with `room` cells: `none` when it has more
vertices. -/
def walkBack (parent : V → V) (start : V) : ℕ → V → Option (List V)
  | 0, _ => none
  | room + 1, v =>
      if v = start then some [v] else (walkBack parent start room (parent v)).map (v :: ·)

/-- With more room the walk is the same. -/
theorem walkBack_mono (parent : V → V) (start : V) {room : ℕ} :
    ∀ {room' : ℕ} {v : V} {l : List V}, room ≤ room' → walkBack parent start room v = some l →
      walkBack parent start room' v = some l := by
  induction room with
  | zero =>
      intro room' v l _ h
      exact absurd h (by simp [walkBack])
  | succ room ih =>
      intro room' v l hle h
      obtain ⟨k, rfl⟩ := Nat.exists_eq_add_of_le' (Nat.le_trans (Nat.le_add_left 1 room) hle)
      unfold walkBack at h ⊢
      by_cases hv : v = start
      · rwa [if_pos hv] at h ⊢
      · rw [if_neg hv] at h ⊢
        obtain ⟨l', hl', rfl⟩ := Option.map_eq_some_iff.mp h
        rw [ih (by omega) hl']
        rfl

/-- The walk is the same in every array it fits in. -/
theorem walkBack_agree (parent : V → V) (start : V) {room room' : ℕ} {v : V} {l l' : List V}
    (h : walkBack parent start room v = some l) (h' : walkBack parent start room' v = some l') :
    l = l' := by
  have hmax := walkBack_mono parent start (Nat.le_max_left room room') h
  rw [walkBack_mono parent start (Nat.le_max_right room room') h'] at hmax
  exact (Option.some.inj hmax).symm

/-- The walk fits exactly when there is room for its vertices. -/
theorem walkBack_length (parent : V → V) (start : V) {room : ℕ} :
    ∀ {v : V} {l : List V}, walkBack parent start room v = some l →
      l.length ≤ room ∧ walkBack parent start l.length v = some l := by
  induction room with
  | zero =>
      intro v l h
      exact absurd h (by simp [walkBack])
  | succ room ih =>
      intro v l h
      unfold walkBack at h
      by_cases hv : v = start
      · rw [if_pos hv] at h
        obtain rfl := Option.some.inj h
        exact ⟨by simp, by simp [walkBack, hv]⟩
      · rw [if_neg hv] at h
        obtain ⟨l', hl', rfl⟩ := Option.map_eq_some_iff.mp h
        obtain ⟨hlen, hfit⟩ := ih hl'
        refine ⟨by rw [List.length_cons]; omega, ?_⟩
        rw [List.length_cons, walkBack, if_neg hv, hfit]
        rfl

/-- From a vertex it passes, the walk goes on as it does there. -/
theorem walkBack_of_mem (parent : V → V) (start : V) {room : ℕ} :
    ∀ {v w : V} {l : List V}, walkBack parent start room v = some l → w ∈ l →
      ∃ l', walkBack parent start room w = some l' ∧ l'.length ≤ l.length := by
  induction room with
  | zero =>
      intro v w l h
      exact absurd h (by simp [walkBack])
  | succ room ih =>
      intro v w l h hw
      by_cases hwv : w = v
      · subst hwv
        exact ⟨l, h, Nat.le_refl _⟩
      -- `w` lies behind `v`, on the walk from the predecessor of `v`
      unfold walkBack at h
      by_cases hv : v = start
      · rw [if_pos hv] at h
        obtain rfl := Option.some.inj h
        exact absurd (List.mem_singleton.mp hw) hwv
      · rw [if_neg hv] at h
        obtain ⟨l₁, hl₁, rfl⟩ := Option.map_eq_some_iff.mp h
        obtain ⟨l', hl', hle⟩ := ih hl₁ ((List.mem_cons.mp hw).resolve_left hwv)
        exact ⟨l', walkBack_mono parent start (Nat.le_succ room) hl', Nat.le_succ_of_le hle⟩

/-- **The walk back visits no vertex twice**: from its second visit it would never end. -/
theorem walkBack_nodup (parent : V → V) (start : V) {room : ℕ} :
    ∀ {v : V} {l : List V}, walkBack parent start room v = some l → l.Nodup := by
  induction room with
  | zero =>
      intro v l h
      exact absurd h (by simp [walkBack])
  | succ room ih =>
      intro v l h
      have hwhole := h
      unfold walkBack at h
      by_cases hv : v = start
      · rw [if_pos hv] at h
        obtain rfl := Option.some.inj h
        exact List.nodup_singleton v
      · rw [if_neg hv] at h
        obtain ⟨l₁, hl₁, rfl⟩ := Option.map_eq_some_iff.mp h
        refine List.nodup_cons.mpr ⟨fun hmem => ?_, ih hl₁⟩
        -- the walk from the second visit would be the whole walk, which is longer
        obtain ⟨l', hl', hle⟩ := walkBack_of_mem parent start hl₁ hmem
        have hsame := walkBack_mono parent start (Nat.le_succ room) hl'
        rw [hwhole] at hsame
        obtain rfl := Option.some.inj hsame
        rw [List.length_cons] at hle
        omega

/-- **The walk back from a known vertex** ends at the start; read backwards it is a route of at most
the known cost. -/
theorem Search.Between.walkBack (h : s.Between moves start goal)
    (hpos : ∀ v, ∀ m ∈ moves v, 0 < m.2) (d : ℕ) :
    ∀ v, s.cost start v = some d →
      ∃ room l c, walkBack s.parent start room v = some l ∧ l.head? = some v ∧
        l.getLast? = some start ∧ Route moves l.reverse c ∧ c ≤ d := by
  -- by induction on the walk back
  induction d using Nat.strongRecOn with
  | ind d ih =>
      intro v hd
      by_cases hv : v = start
      · subst hv
        exact ⟨1, [v], 0, by simp [HandlingRobot.walkBack], rfl, rfl, .single v, Nat.zero_le d⟩
      · rw [Search.cost_of_ne hv] at hd
        obtain ⟨c, dp, hmove, hdp, hle⟩ := (h (v, d)).parent v d hv hd
        have hc : 0 < c := hpos _ _ hmove
        obtain ⟨room, l, c', hl, hhead, hlast, hroute, hle'⟩ := ih dp (by omega) _ hdp
        refine ⟨room + 1, v :: l, c' + c, ?_, rfl, ?_, ?_, by omega⟩
        · rw [HandlingRobot.walkBack, if_neg hv, hl]
          rfl
        · cases l with
          | nil => exact absurd hhead (by simp)
          | cons x l => rwa [List.getLast?_cons_cons]
        · rw [List.reverse_cons]
          exact hroute.concat (by rw [List.getLast?_reverse, hhead]) hmove

end HandlingRobot
