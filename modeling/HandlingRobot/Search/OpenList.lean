import HandlingRobot.Library.BinaryHeap
import Mathlib.Algebra.Order.Group.Multiset

/-! # The open list of the path search

The open list is a binary heap of nodes with the estimate `F` as its first key and `H` as its second
one. `push` and `pop` sift with tests that respect `F`; the second key only breaks ties along the
way.

* **`Nodee`**, **`OpenList`** — a node, and the array with its size.
* **`OpenList.push`**, **`OpenList.pop`**.
* **`OpenList.push_spec`**, **`OpenList.pop_spec`** — the heap order on `F` is kept, the contents
  change by the one node, and a popped node has the least `F`. -/

namespace HandlingRobot

/-- `nodee`, without the field `id` that nothing reads. -/
structure Nodee where
  /-- `x` and `y`, of type `uint8_t`. -/
  x : ℕ
  y : ℕ
  F : ℕ
  G : ℕ
  H : ℕ
  deriving Repr, DecidableEq

/-- `heap` and `sz`. -/
structure OpenList where
  heap : ℕ → Nodee
  sz : ℕ

/-- The tests that leave the loop of `push`. -/
def pushStops (ps fa : Nodee) : Bool := fa.F < ps.F || (fa.F == ps.F && fa.H < ps.H)

/-- The right child is taken: it has the smaller `F`, or the same `F` and the smaller `H`. -/
def popPicks (r l : Nodee) : Bool := r.F < l.F || (r.F == l.F && r.H < l.H)

/-- The tests that leave the loop of `pop`; the second one never adds to the first. -/
def popStops (x child : Nodee) : Bool := child.F ≥ x.F || (child.F == x.F && child.H > x.H)

/-- **`push(ps)`.** -/
def OpenList.push (ps : Nodee) (o : OpenList) : OpenList where
  heap := siftUp (pushStops ps) ps o.sz o.heap
  sz := o.sz + 1

/-- **`pop()`**: the first node, and the list without it. -/
def OpenList.pop (o : OpenList) : Nodee × OpenList :=
  (o.heap 0, { heap := siftDown popPicks (popStops (o.heap (o.sz - 1))) (o.sz - 1)
                 (o.heap (o.sz - 1)) 0 o.heap
               sz := o.sz - 1 })

/-- The nodes of the list. -/
def OpenList.nodes (o : OpenList) : Multiset Nodee := contents o.sz o.heap

/-- The list is ordered by `F`. -/
def OpenList.Ordered (o : OpenList) : Prop := IsHeap Nodee.F o.sz o.heap

theorem OpenList.card_nodes (o : OpenList) : o.nodes.card = o.sz := by
  rw [nodes, contents, Multiset.card_map, Multiset.card_range]

theorem OpenList.nodes_eq_zero {o : OpenList} (h : o.sz = 0) : o.nodes = 0 := by
  rw [← Multiset.card_eq_zero, o.card_nodes, h]

/-! ## The tests respect the first key -/

theorem le_of_pushStops {ps fa : Nodee} (h : pushStops ps fa = true) : fa.F ≤ ps.F := by
  simp only [pushStops, Bool.or_eq_true, Bool.and_eq_true, decide_eq_true_eq, beq_iff_eq] at h
  omega

theorem le_of_not_pushStops {ps fa : Nodee} (h : pushStops ps fa = false) : ps.F ≤ fa.F := by
  simp only [pushStops, Bool.or_eq_false_iff, decide_eq_false_iff_not] at h
  omega

theorem le_of_popPicks {r l : Nodee} (h : popPicks r l = true) : r.F ≤ l.F := by
  simp only [popPicks, Bool.or_eq_true, Bool.and_eq_true, decide_eq_true_eq, beq_iff_eq] at h
  omega

theorem le_of_not_popPicks {r l : Nodee} (h : popPicks r l = false) : l.F ≤ r.F := by
  simp only [popPicks, Bool.or_eq_false_iff, decide_eq_false_iff_not] at h
  omega

theorem le_of_popStops {x c : Nodee} (h : popStops x c = true) : x.F ≤ c.F := by
  simp only [popStops, Bool.or_eq_true, Bool.and_eq_true, decide_eq_true_eq, beq_iff_eq] at h
  omega

theorem le_of_not_popStops {x c : Nodee} (h : popStops x c = false) : c.F ≤ x.F := by
  simp only [popStops, Bool.or_eq_false_iff, decide_eq_false_iff_not] at h
  omega

/-! ## The operations -/

/-- **`push` adds its node** and keeps the order. -/
theorem OpenList.push_spec {o : OpenList} (h : o.Ordered) (ps : Nodee) :
    (o.push ps).Ordered ∧ (o.push ps).nodes = ps ::ₘ o.nodes :=
  IsHeap.push h (fun _ => le_of_pushStops) fun _ => le_of_not_pushStops

/-- **`pop` takes a node with the least `F`** and keeps the order of the others. -/
theorem OpenList.pop_spec {o : OpenList} (h : o.Ordered) (hsz : 0 < o.sz) :
    o.pop.2.Ordered ∧ o.nodes = o.pop.1 ::ₘ o.pop.2.nodes ∧ ∀ nd ∈ o.nodes, o.pop.1.F ≤ nd.F := by
  obtain ⟨n, hn⟩ := Nat.exists_eq_succ_of_ne_zero (Nat.ne_of_gt hsz)
  obtain ⟨heap, sz⟩ := o
  obtain rfl : sz = n + 1 := hn
  have hmin : ∀ nd ∈ contents (n + 1) heap, (heap 0).F ≤ nd.F := by
    intro nd hnd
    obtain ⟨i, hi, rfl⟩ := Multiset.mem_map.mp hnd
    exact h.root_le i (Multiset.mem_range.mp hi)
  obtain ⟨hheap, hcontents⟩ := IsHeap.pop h (fun _ _ => le_of_popPicks)
    (fun _ _ => le_of_not_popPicks) (fun _ => le_of_not_popStops)
    fun y hy => le_of_popStops (stop_of_siftDownStop n 0 heap rfl hy)
  exact ⟨hheap, hcontents, hmin⟩

end HandlingRobot
