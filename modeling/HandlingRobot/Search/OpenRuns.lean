import HandlingRobot.Search.OpenList
import Mathlib.Algebra.Order.Ring.Int
import Mathlib.Data.Int.ConditionallyCompleteOrder
import Mathlib.Data.Prod.Lex
import Mathlib.Order.ConditionallyCompleteLattice.Basic

/-! # Runs of the open list

What `push` and `pop` do over whole runs, for nodes whose keys are any values of type `int`. The
first key is honoured in every run. The second one is honoured as long as `pop` never stops its hole
in front of a child with the same `F` and a smaller `H`: its loop leaves at equal `F`, whatever `H`.

* **`SignedNodee`**, **`SignedList`** — the nodes and the array, with `push` and `pop`.
* **`push_signed`**, **`pop_signed`** — on nodes of the search these are the operations it uses.
* **`OpenRun`** — the runs, with the nodes pushed and popped so far.
* **`openRun_conserves`** — no node is lost or duplicated, and a popped node has the least `F`.
* **`openRun_pops_least`** — the runs that honour the second key as well. -/

namespace HandlingRobot

/-! ## Nodes with keys of type `int` -/

/-- `nodee`, without the field `id` that nothing reads. -/
structure SignedNodee where
  x : ℕ
  y : ℕ
  F : ℤ
  G : ℤ
  H : ℤ
  deriving DecidableEq

/-- `heap` and `sz`. -/
structure SignedList where
  heap : ℕ → SignedNodee
  sz : ℕ

namespace SignedNodee

/-- The tests that leave the loop of `push`. -/
def pushStops (ps fa : SignedNodee) : Bool := fa.F < ps.F || (fa.F == ps.F && fa.H < ps.H)

/-- The tests that take the right child. -/
def popPicks (r l : SignedNodee) : Bool := r.F < l.F || (r.F == l.F && r.H < l.H)

/-- The tests that leave the loop of `pop`. -/
def popStops (x child : SignedNodee) : Bool :=
  child.F ≥ x.F || (child.F == x.F && child.H > x.H)

/-- Both keys, the first one first. -/
def keys (nd : SignedNodee) : ℤ ×ₗ ℤ := toLex (nd.F, nd.H)

theorem keys_le {a b : SignedNodee} : a.keys ≤ b.keys ↔ a.F < b.F ∨ a.F = b.F ∧ a.H ≤ b.H :=
  Prod.Lex.toLex_le_toLex

end SignedNodee

/-- **`push(ps)`.** -/
def SignedList.push (ps : SignedNodee) (o : SignedList) : SignedList where
  heap := siftUp ps.pushStops ps o.sz o.heap
  sz := o.sz + 1

/-- The last node, which `pop` moves into the hole at the root. -/
def SignedList.last (o : SignedList) : SignedNodee := o.heap (o.sz - 1)

/-- **`pop()`**: the first node, and the list without it. -/
def SignedList.pop (o : SignedList) : SignedNodee × SignedList :=
  (o.heap 0, { heap := siftDown SignedNodee.popPicks o.last.popStops (o.sz - 1) o.last 0 o.heap
               sz := o.sz - 1 })

/-- The nodes of the list. -/
def SignedList.nodes (o : SignedList) : Multiset SignedNodee := contents o.sz o.heap

theorem SignedList.mem_nodes {o : SignedList} {nd : SignedNodee} :
    nd ∈ o.nodes ↔ ∃ i < o.sz, o.heap i = nd := by
  simp [nodes, contents]

/-! ## The nodes of the search -/

/-- A node of the search. -/
def Nodee.signed (nd : Nodee) : SignedNodee := ⟨nd.x, nd.y, nd.F, nd.G, nd.H⟩

/-- The open list of the search. -/
def OpenList.signed (o : OpenList) : SignedList := ⟨Nodee.signed ∘ o.heap, o.sz⟩

theorem pushStops_signed (ps fa : Nodee) : ps.signed.pushStops fa.signed = pushStops ps fa := by
  rw [Bool.eq_iff_iff]
  simp [SignedNodee.pushStops, pushStops, Nodee.signed]

theorem popPicks_signed (r l : Nodee) :
    SignedNodee.popPicks r.signed l.signed = popPicks r l := by
  rw [Bool.eq_iff_iff]
  simp [SignedNodee.popPicks, popPicks, Nodee.signed]

theorem popStops_signed (x c : Nodee) : x.signed.popStops c.signed = popStops x c := by
  rw [Bool.eq_iff_iff]
  simp [SignedNodee.popStops, popStops, Nodee.signed]

/-- **`push` is the one of the search** on its nodes. -/
theorem push_signed (ps : Nodee) (o : OpenList) :
    (o.push ps).signed = o.signed.push ps.signed := by
  have hheap : (o.push ps).signed.heap = (o.signed.push ps.signed).heap :=
    (siftUp_map Nodee.signed (pushStops_signed ps) ps o.sz o.heap).symm
  exact congrArg (fun heap => SignedList.mk heap (o.sz + 1)) hheap

/-- **`pop` is the one of the search** on its nodes. -/
theorem pop_signed (o : OpenList) :
    o.signed.pop = (o.pop.1.signed, o.pop.2.signed) := by
  have hheap : o.signed.pop.2.heap = o.pop.2.signed.heap :=
    siftDown_map Nodee.signed popPicks_signed (popStops_signed (o.heap (o.sz - 1))) (o.sz - 1)
      (o.heap (o.sz - 1)) _ 0 o.heap rfl
  exact congrArg (fun heap => (o.pop.1.signed, SignedList.mk heap (o.sz - 1))) hheap

/-! ## The tests respect the keys -/

namespace SignedNodee

theorem le_of_pushStops {ps fa : SignedNodee} (h : ps.pushStops fa = true) : fa.keys ≤ ps.keys := by
  simp only [pushStops, Bool.or_eq_true, Bool.and_eq_true, decide_eq_true_eq, beq_iff_eq] at h
  rw [keys_le]
  omega

theorem le_of_not_pushStops {ps fa : SignedNodee} (h : ps.pushStops fa = false) :
    ps.keys ≤ fa.keys := by
  simp only [pushStops, Bool.or_eq_false_iff, Bool.and_eq_false_iff, decide_eq_false_iff_not,
    beq_eq_false_iff_ne] at h
  rw [keys_le]
  omega

theorem le_of_popPicks {r l : SignedNodee} (h : popPicks r l = true) : r.keys ≤ l.keys := by
  simp only [popPicks, Bool.or_eq_true, Bool.and_eq_true, decide_eq_true_eq, beq_iff_eq] at h
  rw [keys_le]
  omega

theorem le_of_not_popPicks {r l : SignedNodee} (h : popPicks r l = false) : l.keys ≤ r.keys := by
  simp only [popPicks, Bool.or_eq_false_iff, Bool.and_eq_false_iff, decide_eq_false_iff_not,
    beq_eq_false_iff_ne] at h
  rw [keys_le]
  omega

/-- At a child that does not stop the loop of `pop` the first key decides. -/
theorem lt_of_not_popStops {x c : SignedNodee} (h : x.popStops c = false) : c.F < x.F := by
  simp only [popStops, Bool.or_eq_false_iff, decide_eq_false_iff_not] at h
  omega

/-- At a child that stops the loop the first key is respected, and that is all. -/
theorem le_of_popStops {x c : SignedNodee} (h : x.popStops c = true) : x.F ≤ c.F := by
  simp only [popStops, Bool.or_eq_true, Bool.and_eq_true, decide_eq_true_eq, beq_iff_eq] at h
  omega

/-- The first key follows from both. -/
theorem F_le_of_keys_le {a b : SignedNodee} (h : a.keys ≤ b.keys) : a.F ≤ b.F := by
  rw [keys_le] at h
  omega

end SignedNodee

/-! ## Runs -/

/-- `MAX_N`, the size of `heap`. -/
def maxN : ℕ := 1000

/-- **The runs of `push` and `pop`** from an empty list: `pushed` and `popped` are the nodes pushed
and popped so far. `pop` is called on lists that satisfy `ok` only. -/
inductive OpenRun (ok : SignedList → Prop) (heap : ℕ → SignedNodee) :
    Multiset SignedNodee → Multiset SignedNodee → SignedList → Prop
  | start : OpenRun ok heap 0 0 ⟨heap, 0⟩
  | push {pushed popped : Multiset SignedNodee} {o : SignedList} (ps : SignedNodee) :
      OpenRun ok heap pushed popped o → o.sz < maxN →
        OpenRun ok heap (ps ::ₘ pushed) popped (o.push ps)
  | pop {pushed popped : Multiset SignedNodee} {o : SignedList} :
      OpenRun ok heap pushed popped o → 0 < o.sz → ok o →
        OpenRun ok heap pushed (o.pop.1 ::ₘ popped) o.pop.2

/-- One `pop`, for any key that its tests respect. -/
theorem SignedList.pop_spec {β : Type*} [Preorder β] {key : SignedNodee → β} {o : SignedList}
    (h : IsHeap key o.sz o.heap) (hsz : 0 < o.sz)
    (hpick : ∀ r l, SignedNodee.popPicks r l = true → key r ≤ key l)
    (hkeep : ∀ r l, SignedNodee.popPicks r l = false → key l ≤ key r)
    (hgo : ∀ c, o.last.popStops c = false → key c ≤ key o.last)
    (hstop : ∀ c ∈ siftDownStop SignedNodee.popPicks o.last.popStops (o.sz - 1) 0 o.heap,
      key o.last ≤ key c) :
    IsHeap key o.pop.2.sz o.pop.2.heap ∧ o.nodes = o.pop.1 ::ₘ o.pop.2.nodes ∧
      ∀ nd ∈ o.nodes, key o.pop.1 ≤ key nd := by
  obtain ⟨n, hn⟩ := Nat.exists_eq_succ_of_ne_zero (Nat.ne_of_gt hsz)
  obtain ⟨heap, sz⟩ := o
  obtain rfl : sz = n + 1 := hn
  have hmin : ∀ nd ∈ contents (n + 1) heap, key (heap 0) ≤ key nd := by
    intro nd hnd
    obtain ⟨i, hi, rfl⟩ := Multiset.mem_map.mp hnd
    exact h.root_le i (Multiset.mem_range.mp hi)
  obtain ⟨hheap, hcontents⟩ := IsHeap.pop h hpick hkeep hgo hstop
  exact ⟨hheap, hcontents, hmin⟩

/-! ## The first key -/

/-- The list is ordered by `F`. -/
def SignedList.Ordered (o : SignedList) : Prop := IsHeap SignedNodee.F o.sz o.heap

theorem SignedList.Ordered.push {o : SignedList} (h : o.Ordered) (ps : SignedNodee) :
    (o.push ps).Ordered ∧ (o.push ps).nodes = ps ::ₘ o.nodes :=
  IsHeap.push h (fun _ hs => SignedNodee.F_le_of_keys_le (SignedNodee.le_of_pushStops hs))
    fun _ hs => SignedNodee.F_le_of_keys_le (SignedNodee.le_of_not_pushStops hs)

theorem SignedList.Ordered.pop {o : SignedList} (h : o.Ordered) (hsz : 0 < o.sz) :
    o.pop.2.Ordered ∧ o.nodes = o.pop.1 ::ₘ o.pop.2.nodes ∧ ∀ nd ∈ o.nodes, o.pop.1.F ≤ nd.F :=
  SignedList.pop_spec h hsz
    (fun _ _ hs => SignedNodee.F_le_of_keys_le (SignedNodee.le_of_popPicks hs))
    (fun _ _ hs => SignedNodee.F_le_of_keys_le (SignedNodee.le_of_not_popPicks hs))
    (fun _ hs => (SignedNodee.lt_of_not_popStops hs).le)
    fun _ hc => SignedNodee.le_of_popStops (stop_of_siftDownStop _ 0 o.heap rfl hc)

/-- **Every list of a run is ordered by `F`**, and what was pushed is in it or was popped. -/
theorem OpenRun.ordered {ok : SignedList → Prop} {heap : ℕ → SignedNodee}
    {pushed popped : Multiset SignedNodee} {o : SignedList} (h : OpenRun ok heap pushed popped o) :
    o.Ordered ∧ o.nodes + popped = pushed := by
  induction h with
  | start => exact ⟨fun i _ hi => absurd hi (Nat.not_lt_zero i), rfl⟩
  | push ps _ _ ih =>
      obtain ⟨hordered, hnodes⟩ := ih.1.push ps
      refine ⟨hordered, ?_⟩
      rw [hnodes, Multiset.cons_add, ih.2]
  | pop _ hsz _ ih =>
      obtain ⟨hordered, hnodes, -⟩ := ih.1.pop hsz
      refine ⟨hordered, ?_⟩
      rw [Multiset.add_cons, ← Multiset.cons_add, ← hnodes, ih.2]

/-- **The list holds what was pushed and not popped**, each node as often, and `pop` takes a node
whose `F` is not greater than that of any node that stays. -/
theorem openRun_conserves {heap : ℕ → SignedNodee} {pushed popped : Multiset SignedNodee}
    {o : SignedList} (h : OpenRun (fun _ => True) heap pushed popped o) :
    (popped ≤ pushed ∧ o.nodes = pushed - popped) ∧
      (0 < o.sz → o.nodes = o.pop.1 ::ₘ o.pop.2.nodes ∧
        ∀ nd ∈ o.pop.2.nodes, o.pop.1.F ≤ nd.F) := by
  obtain ⟨hordered, hnodes⟩ := h.ordered
  refine ⟨⟨?_, ?_⟩, fun hsz => ?_⟩
  · rw [← hnodes]
    exact Multiset.le_add_left _ _
  · rw [← hnodes, Multiset.add_sub_cancel_right]
  · obtain ⟨-, hpopped, hmin⟩ := hordered.pop hsz
    refine ⟨hpopped, fun nd hnd => hmin nd ?_⟩
    rw [hpopped]
    exact Multiset.mem_cons_of_mem hnd

/-- The nodes of the runs below: all at the origin, with these keys. -/
def nodeeOfKeys (F H : ℤ) : SignedNodee := ⟨0, 0, F, F - H, H⟩

/-- The list after a node with `F = 3` and two nodes with `F = 5`. -/
def threePushed (H₁ H₂ : ℤ) : SignedList :=
  (((⟨fun _ => nodeeOfKeys 0 0, 0⟩ : SignedList).push (nodeeOfKeys 3 0)).push
    (nodeeOfKeys 5 H₁)).push (nodeeOfKeys 5 H₂)

/-- The run that leads to it. -/
theorem threePushed_run (ok : SignedList → Prop) (H₁ H₂ : ℤ) :
    OpenRun ok (fun _ => nodeeOfKeys 0 0)
      (nodeeOfKeys 5 H₂ ::ₘ nodeeOfKeys 5 H₁ ::ₘ nodeeOfKeys 3 0 ::ₘ 0) 0 (threePushed H₁ H₂) := by
  have h0 : OpenRun ok (fun _ => nodeeOfKeys 0 0) 0 0 ⟨fun _ => nodeeOfKeys 0 0, 0⟩ := .start
  have h1 := OpenRun.push (nodeeOfKeys 3 0) h0 (by decide)
  have h2 := OpenRun.push (nodeeOfKeys 5 H₁) h1 (by decide)
  exact OpenRun.push (nodeeOfKeys 5 H₂) h2 (show 2 < maxN by decide)

/-- Three nodes pushed, and one popped. -/
theorem openRun_conserves_threePushed :
    ((threePushed 1 9).pop.1 ::ₘ 0 ≤
        nodeeOfKeys 5 9 ::ₘ nodeeOfKeys 5 1 ::ₘ nodeeOfKeys 3 0 ::ₘ 0 ∧
      (threePushed 1 9).pop.2.nodes =
        (nodeeOfKeys 5 9 ::ₘ nodeeOfKeys 5 1 ::ₘ nodeeOfKeys 3 0 ::ₘ 0) -
          ((threePushed 1 9).pop.1 ::ₘ 0)) ∧
      (0 < (threePushed 1 9).pop.2.sz → (threePushed 1 9).pop.2.nodes =
          (threePushed 1 9).pop.2.pop.1 ::ₘ (threePushed 1 9).pop.2.pop.2.nodes ∧
        ∀ nd ∈ (threePushed 1 9).pop.2.pop.2.nodes, (threePushed 1 9).pop.2.pop.1.F ≤ nd.F) :=
  openRun_conserves ((threePushed_run _ 1 9).pop (by decide) trivial)

/-! ## The second key -/

/-- **`pop` does not pass over the second key**: its hole does not stop in front of a child with the
`F` of the last node and a smaller `H`. -/
def SignedList.Tidy (o : SignedList) : Prop :=
  ∀ c ∈ siftDownStop SignedNodee.popPicks o.last.popStops (o.sz - 1) 0 o.heap,
    ¬ (c.F = o.last.F ∧ c.H < o.last.H)

/-- The list is ordered by both keys. -/
def SignedList.OrderedByKeys (o : SignedList) : Prop := IsHeap SignedNodee.keys o.sz o.heap

theorem SignedList.OrderedByKeys.push {o : SignedList} (h : o.OrderedByKeys) (ps : SignedNodee) :
    (o.push ps).OrderedByKeys :=
  (IsHeap.push h (fun _ => SignedNodee.le_of_pushStops)
    fun _ => SignedNodee.le_of_not_pushStops).1

theorem SignedList.OrderedByKeys.pop {o : SignedList} (h : o.OrderedByKeys) (hsz : 0 < o.sz)
    (htidy : o.Tidy) : o.pop.2.OrderedByKeys := by
  refine (SignedList.pop_spec h hsz (fun _ _ => SignedNodee.le_of_popPicks)
    (fun _ _ => SignedNodee.le_of_not_popPicks) (fun c hc => ?_) fun c hc => ?_).1
  · rw [SignedNodee.keys_le]
    exact Or.inl (SignedNodee.lt_of_not_popStops hc)
  · -- the hole stops at an `F` that is not smaller, and then the second key is in order too
    have hF := SignedNodee.le_of_popStops (stop_of_siftDownStop _ 0 o.heap rfl hc)
    have hH := htidy c hc
    rw [SignedNodee.keys_le]
    omega

/-- **Every list of a tidy run is ordered by both keys.** -/
theorem OpenRun.orderedByKeys {heap : ℕ → SignedNodee} {pushed popped : Multiset SignedNodee}
    {o : SignedList} (h : OpenRun SignedList.Tidy heap pushed popped o) : o.OrderedByKeys := by
  induction h with
  | start => exact fun i _ hi => absurd hi (Nat.not_lt_zero i)
  | push ps _ _ ih => exact ih.push ps
  | pop _ hsz htidy ih => exact ih.pop hsz htidy

/-- **In a run whose calls of `pop` do not pass over the second key, every `pop` takes a node with
the least `H` among those with the least `F`.** -/
theorem openRun_pops_least {heap : ℕ → SignedNodee} {pushed popped : Multiset SignedNodee}
    {o : SignedList} (h : OpenRun SignedList.Tidy heap pushed popped o) :
    ∀ nd ∈ o.nodes, o.pop.1.F < nd.F ∨ o.pop.1.F = nd.F ∧ o.pop.1.H ≤ nd.H := by
  intro nd hnd
  obtain ⟨i, hi, rfl⟩ := SignedList.mem_nodes.mp hnd
  exact SignedNodee.keys_le.mp (h.orderedByKeys.root_le i hi)

/-- The array after the three nodes, the first of which stays on top. -/
theorem threePushed_heap (H₁ H₂ : ℤ) : (threePushed H₁ H₂).heap 0 = nodeeOfKeys 3 0 ∧
    (threePushed H₁ H₂).heap 1 = nodeeOfKeys 5 H₁ ∧
    (threePushed H₁ H₂).heap 2 = nodeeOfKeys 5 H₂ := by
  simp [threePushed, SignedList.push, siftUp, nodeeOfKeys, SignedNodee.pushStops]

/-- The hole of the first `pop` stops at the root, in front of the first node with `F = 5`. -/
theorem threePushed_stop (H₁ H₂ : ℤ) :
    siftDownStop SignedNodee.popPicks (threePushed H₁ H₂).last.popStops
      ((threePushed H₁ H₂).sz - 1) 0 (threePushed H₁ H₂).heap = some (nodeeOfKeys 5 H₁) := by
  obtain ⟨h0, h1, h2⟩ := threePushed_heap H₁ H₂
  have hsz : (threePushed H₁ H₂).sz = 3 := rfl
  simp [SignedList.last, hsz, h1, h2, siftDownStop, pickChild, SignedNodee.popStops, nodeeOfKeys]

theorem threePushed_pop (H₁ H₂ : ℤ) : (threePushed H₁ H₂).pop.2.heap 0 = nodeeOfKeys 5 H₂ ∧
    (threePushed H₁ H₂).pop.2.heap 1 = nodeeOfKeys 5 H₁ := by
  obtain ⟨h0, h1, h2⟩ := threePushed_heap H₁ H₂
  have hsz : (threePushed H₁ H₂).sz = 3 := rfl
  simp [SignedList.pop, SignedList.last, hsz, h1, h2, siftDown, pickChild, SignedNodee.popStops,
    nodeeOfKeys]

/-- A tidy run: the last node has the smaller `H`. -/
theorem openRun_pops_least_threePushed :
    nodeeOfKeys 5 9 ∈ (threePushed 9 1).pop.2.nodes ∧
      ((threePushed 9 1).pop.2.pop.1.F < 5 ∨
        (threePushed 9 1).pop.2.pop.1.F = 5 ∧ (threePushed 9 1).pop.2.pop.1.H ≤ 9) := by
  have hmem : nodeeOfKeys 5 9 ∈ (threePushed 9 1).pop.2.nodes :=
    SignedList.mem_nodes.mpr ⟨1, by decide, (threePushed_pop 9 1).2⟩
  refine ⟨hmem, openRun_pops_least ((threePushed_run _ 9 1).pop (by decide) fun c hc => ?_) _ hmem⟩
  rw [threePushed_stop] at hc
  obtain rfl := Option.mem_some.mp hc
  have hlast : (threePushed 9 1).last = nodeeOfKeys 5 1 := (threePushed_heap 9 1).2.2
  rw [hlast]
  decide

/-- **A tie that `pop` passes over**: of the nodes with `F = 5` and `H = 1` or `H = 9` the second
call returns the one with `H = 9`. -/
theorem openRun_passes_over_tie :
    ∃ pushed popped o, OpenRun (fun _ => True) (fun _ => nodeeOfKeys 0 0) pushed popped o ∧
      0 < o.sz ∧ ∃ nd ∈ o.nodes, o.pop.1.F = nd.F ∧ nd.H < o.pop.1.H ∧
        ∀ nd ∈ o.nodes, o.pop.1.F ≤ nd.F := by
  have hrun := (threePushed_run (fun _ => True) 1 9).pop (by decide) trivial
  obtain ⟨h0, h1⟩ := threePushed_pop 1 9
  refine ⟨_, _, _, hrun, by decide, nodeeOfKeys 5 1, ?_, ?_, ?_, ?_⟩
  · exact SignedList.mem_nodes.mpr ⟨1, by decide, h1⟩
  · exact (congrArg SignedNodee.F h0 : _ = (5 : ℤ))
  · have hH : (threePushed 1 9).pop.2.pop.1.H = 9 := congrArg SignedNodee.H h0
    rw [hH]
    decide
  · exact (hrun.ordered.1.pop (by decide)).2.2

end HandlingRobot
