import Mathlib.Data.Multiset.MapFold
import Mathlib.Data.Multiset.Range
import Mathlib.Logic.Function.Basic
import Mathlib.Order.Basic

/-! # Binary heaps in an array

A heap of `n` elements in an array, ordered by a key, with the father of position `i` at
`(i - 1) / 2`. An element is sifted through a *hole*: a position that counts as free.

* **`IsHeap`**, **`contents`** — the order, and the elements as a multiset.
* **`siftUp`**, **`siftDown`** — the hole moves towards the root, or away from it. The tests that
  stop it are parameters, so that ties can be broken in any way.
* **`siftDownStop`** — the child in front of which the hole stops on its way down.
* **`siftUp_spec`**, **`siftDown_spec_of_stop`** — with tests that respect the key, the result is a
  heap, and its elements are those of the array with the new element in the hole.
* **`IsHeap.push`**, **`IsHeap.pop`** — adding an element, and taking the root.
* **`siftUp_map`**, **`siftDown_map`** — a map that respects the tests commutes with sifting.
* **`IsHeap.root_le`** — the root has the least key. -/

namespace HandlingRobot

variable {α β : Type*} [Preorder β]

/-- The first `n` elements of an array. -/
def contents (n : ℕ) (a : ℕ → α) : Multiset α := (Multiset.range n).map a

/-- **No element has a smaller key than its father.** -/
def IsHeap (key : α → β) (n : ℕ) (a : ℕ → α) : Prop :=
  ∀ i, 0 < i → i < n → key (a ((i - 1) / 2)) ≤ key (a i)

/-- The element `x` goes into the hole at `now`, or the father of the hole moves down into it. -/
def siftUp (stop : α → Bool) (x : α) (now : ℕ) (a : ℕ → α) : ℕ → α :=
  if _ : 0 < now then
    if stop (a ((now - 1) / 2)) then Function.update a now x
    else siftUp stop x ((now - 1) / 2) (Function.update a now (a ((now - 1) / 2)))
  else Function.update a now x
termination_by now

/-- The child of `rt` to compare with: the right one if there is one and it is picked. -/
def pickChild (pick : α → α → Bool) (n rt : ℕ) (a : ℕ → α) : ℕ :=
  if 2 * rt + 2 < n ∧ pick (a (2 * rt + 2)) (a (2 * rt + 1)) = true then 2 * rt + 2 else 2 * rt + 1

theorem lt_pickChild (pick : α → α → Bool) (n rt : ℕ) (a : ℕ → α) : rt < pickChild pick n rt a := by
  unfold pickChild
  split_ifs <;> omega

theorem pickChild_lt {pick : α → α → Bool} {n rt : ℕ} {a : ℕ → α} (h : 2 * rt + 1 < n) :
    pickChild pick n rt a < n := by
  unfold pickChild
  split_ifs with hright
  · exact hright.1
  · exact h

theorem father_pickChild (pick : α → α → Bool) (n rt : ℕ) (a : ℕ → α) :
    (pickChild pick n rt a - 1) / 2 = rt := by
  unfold pickChild
  split_ifs <;> omega

/-- The element `x` goes into the hole at `rt`, or a child of the hole moves up into it. -/
def siftDown (pick : α → α → Bool) (stop : α → Bool) (n : ℕ) (x : α) (rt : ℕ) (a : ℕ → α) : ℕ → α :=
  if _ : 2 * rt + 1 < n then
    if stop (a (pickChild pick n rt a)) then Function.update a rt x
    else siftDown pick stop n x (pickChild pick n rt a)
      (Function.update a rt (a (pickChild pick n rt a)))
  else Function.update a rt x
termination_by n - rt
decreasing_by
  have := lt_pickChild pick n rt a
  omega

/-! ## Contents -/

theorem contents_succ (n : ℕ) (a : ℕ → α) : contents (n + 1) a = a n ::ₘ contents n a := by
  rw [contents, Multiset.range_succ, Multiset.map_cons, contents]

/-- Overwriting one element. -/
theorem contents_update {n i : ℕ} (h : i < n) (a : ℕ → α) (y : α) :
    a i ::ₘ contents n (Function.update a i y) = y ::ₘ contents n a := by
  have hsplit := Multiset.cons_erase (Multiset.mem_range.mpr h)
  have hrest : ((Multiset.range n).erase i).map (Function.update a i y) =
      ((Multiset.range n).erase i).map a := by
    refine Multiset.map_congr rfl fun j hj => Function.update_of_ne ?_ y a
    rintro rfl
    exact (Multiset.nodup_range n).notMem_erase hj
  unfold contents
  rw [← hsplit, Multiset.map_cons, Multiset.map_cons, hrest, Function.update_self,
    Multiset.cons_swap]

/-- Overwriting beyond the first `n` elements. -/
theorem contents_update_of_le {n i : ℕ} (h : n ≤ i) (a : ℕ → α) (y : α) :
    contents n (Function.update a i y) = contents n a := by
  refine Multiset.map_congr rfl fun j hj => Function.update_of_ne ?_ y a
  rw [Multiset.mem_range] at hj
  omega

/-- A hole moves from `i` to `j`. -/
theorem contents_move {n i j : ℕ} (hi : i < n) (hj : j < n) (hij : i ≠ j) (a : ℕ → α) (x : α) :
    contents n (Function.update (Function.update a i (a j)) j x) =
      contents n (Function.update a i x) := by
  have hmoved := contents_update hj (Function.update a i (a j)) x
  rw [Function.update_of_ne hij.symm] at hmoved
  have hfilled := contents_update hi a (a j)
  have hplain := contents_update hi a x
  apply (Multiset.cons_inj_right (a j)).mp
  apply (Multiset.cons_inj_right (a i)).mp
  calc a i ::ₘ a j ::ₘ contents n (Function.update (Function.update a i (a j)) j x)
      = a i ::ₘ x ::ₘ contents n (Function.update a i (a j)) := by rw [hmoved]
    _ = x ::ₘ a j ::ₘ contents n a := by rw [Multiset.cons_swap, hfilled]
    _ = a i ::ₘ a j ::ₘ contents n (Function.update a i x) := by
        rw [Multiset.cons_swap (a i), hplain, Multiset.cons_swap]

/-! ## Order -/

/-- The root has the least key. -/
theorem IsHeap.root_le {key : α → β} {n : ℕ} {a : ℕ → α} (h : IsHeap key n a) :
    ∀ i < n, key (a 0) ≤ key (a i) := by
  intro i
  induction i using Nat.strongRecOn with
  | ind i ih =>
      intro hi
      rcases Nat.eq_zero_or_pos i with rfl | hpos
      · exact le_rfl
      · exact le_trans (ih ((i - 1) / 2) (by omega) (by omega)) (h i hpos hi)

/-- Elements that do not touch the hole are in order, and the father of the hole may stay above its
children. -/
structure HoleOrder (key : α → β) (n : ℕ) (a : ℕ → α) (hole : ℕ) : Prop where
  except : ∀ i, 0 < i → i < n → i ≠ hole → (i - 1) / 2 ≠ hole → key (a ((i - 1) / 2)) ≤ key (a i)
  grand : 0 < hole → ∀ c, 0 < c → c < n → (c - 1) / 2 = hole →
    key (a ((hole - 1) / 2)) ≤ key (a c)

/-- An element that fits between the father and the children of the hole makes a heap. -/
theorem HoleOrder.fill {key : α → β} {n hole : ℕ} {a : ℕ → α} {x : α} (h : HoleOrder key n a hole)
    (habove : 0 < hole → key (a ((hole - 1) / 2)) ≤ key x)
    (hbelow : ∀ c, 0 < c → c < n → (c - 1) / 2 = hole → key x ≤ key (a c)) :
    IsHeap key n (Function.update a hole x) := by
  intro i hi hin
  by_cases hih : i = hole
  · subst hih
    rw [Function.update_self, Function.update_of_ne (by omega : (i - 1) / 2 ≠ i)]
    exact habove hi
  · rw [Function.update_of_ne hih]
    by_cases hfather : (i - 1) / 2 = hole
    · rw [hfather, Function.update_self]
      exact hbelow i hi hin hfather
    · rw [Function.update_of_ne hfather]
      exact h.except i hi hin hih hfather

/-- The father of the hole moves down into it. -/
theorem HoleOrder.move_up {key : α → β} {n hole : ℕ} {a : ℕ → α} (h : HoleOrder key n a hole)
    (hpos : 0 < hole) (hn : hole < n) :
    HoleOrder key n (Function.update a hole (a ((hole - 1) / 2))) ((hole - 1) / 2) := by
  have hne : (hole - 1) / 2 ≠ hole := by omega
  refine ⟨fun i hi hin hif hff => ?_, fun hfpos c hc hcn hcf => ?_⟩
  · have hih : i ≠ hole := fun heq => hff (by rw [heq])
    rw [Function.update_of_ne hih]
    by_cases hfather : (i - 1) / 2 = hole
    · rw [hfather, Function.update_self]
      exact h.grand hpos i hi hin hfather
    · rw [Function.update_of_ne hfather]
      exact h.except i hi hin hih hfather
  · have hgrand : key (a (((hole - 1) / 2 - 1) / 2)) ≤ key (a ((hole - 1) / 2)) :=
      h.except ((hole - 1) / 2) hfpos (Nat.lt_of_le_of_lt (by omega) hn) hne (by omega)
    rw [Function.update_of_ne (by omega : ((hole - 1) / 2 - 1) / 2 ≠ hole)]
    by_cases hch : c = hole
    · rw [hch, Function.update_self]
      exact hgrand
    · rw [Function.update_of_ne hch]
      have hchild := h.except c hc hcn hch (by omega)
      rw [hcf] at hchild
      exact le_trans hgrand hchild

/-- A least child of the hole moves up into it. -/
theorem HoleOrder.move_down {key : α → β} {n hole c : ℕ} {a : ℕ → α} (h : HoleOrder key n a hole)
    (hc : 0 < c) (hcn : c < n) (hch : (c - 1) / 2 = hole)
    (hleast : ∀ d, 0 < d → d < n → (d - 1) / 2 = hole → key (a c) ≤ key (a d)) :
    HoleOrder key n (Function.update a hole (a c)) c := by
  have hne : c ≠ hole := by omega
  refine ⟨fun i hi hin hic hfc => ?_, fun _ d hd hdn hdc => ?_⟩
  · by_cases hih : i = hole
    · subst hih
      rw [Function.update_self, Function.update_of_ne (by omega : (i - 1) / 2 ≠ i)]
      exact h.grand hi c hc hcn hch
    · rw [Function.update_of_ne hih]
      by_cases hfather : (i - 1) / 2 = hole
      · rw [hfather, Function.update_self]
        exact hleast i hi hin hfather
      · rw [Function.update_of_ne hfather]
        exact h.except i hi hin hih hfather
  · rw [hch, Function.update_self, Function.update_of_ne (by omega : d ≠ hole)]
    have hchild := h.except d hd hdn (by omega) (by omega)
    rwa [hdc] at hchild

/-- **Sifting up** with a test that respects the key. -/
theorem siftUp_spec (key : α → β) {stop : α → Bool} {x : α}
    (hstop : ∀ y, stop y = true → key y ≤ key x) (hgo : ∀ y, stop y = false → key x ≤ key y)
    {n : ℕ} (now : ℕ) :
    ∀ a : ℕ → α, now < n → HoleOrder key n a now →
      (∀ c, 0 < c → c < n → (c - 1) / 2 = now → key x ≤ key (a c)) →
      IsHeap key n (siftUp stop x now a) ∧
        contents n (siftUp stop x now a) = contents n (Function.update a now x) := by
  -- by induction on the hole, which moves to its father
  induction now using Nat.strongRecOn with
  | ind now ih =>
      intro a hnow h hbelow
      by_cases hpos : 0 < now
      · by_cases hs : stop (a ((now - 1) / 2)) = true
        · have heq : siftUp stop x now a = Function.update a now x := by
            rw [siftUp, dif_pos hpos, if_pos hs]
          rw [heq]
          exact ⟨h.fill (fun _ => hstop _ hs) hbelow, rfl⟩
        · have heq : siftUp stop x now a =
              siftUp stop x ((now - 1) / 2) (Function.update a now (a ((now - 1) / 2))) := by
            rw [siftUp, dif_pos hpos, if_neg hs]
          have hx : key x ≤ key (a ((now - 1) / 2)) := hgo _ (Bool.eq_false_iff.mpr hs)
          rw [heq, ← contents_move hnow (by omega : (now - 1) / 2 < n) (by omega) a x]
          refine ih _ (by omega) _ (by omega) (h.move_up hpos hnow) fun c hc hcn hcf => ?_
          by_cases hcnow : c = now
          · rw [hcnow, Function.update_self]
            exact hx
          · rw [Function.update_of_ne hcnow]
            have hchild := h.except c hc hcn hcnow (by omega)
            rw [hcf] at hchild
            exact le_trans hx hchild
      · have heq : siftUp stop x now a = Function.update a now x := by
          rw [siftUp, dif_neg hpos]
        rw [heq]
        exact ⟨h.fill (fun h => absurd h hpos) hbelow, rfl⟩

/-- The child in front of which the hole stops, if it does not come to a leaf. -/
def siftDownStop (pick : α → α → Bool) (stop : α → Bool) (n rt : ℕ) (a : ℕ → α) : Option α :=
  if _ : 2 * rt + 1 < n then
    if stop (a (pickChild pick n rt a)) then some (a (pickChild pick n rt a))
    else siftDownStop pick stop n (pickChild pick n rt a)
      (Function.update a rt (a (pickChild pick n rt a)))
  else none
termination_by n - rt
decreasing_by
  have := lt_pickChild pick n rt a
  omega

/-- The hole stops in front of a child that passes the test. -/
theorem stop_of_siftDownStop {pick : α → α → Bool} {stop : α → Bool} {n : ℕ} {y : α} (m : ℕ) :
    ∀ (rt : ℕ) (a : ℕ → α), n - rt = m → y ∈ siftDownStop pick stop n rt a → stop y = true := by
  induction m using Nat.strongRecOn with
  | ind m ih =>
      intro rt a hm hy
      rw [siftDownStop] at hy
      split_ifs at hy with hchild hs
      · obtain rfl := Option.mem_some.mp hy
        exact hs
      · have hlt := lt_pickChild pick n rt a
        exact ih _ (by omega) _ _ rfl hy
      · exact absurd hy (by simp)

/-- **The picked child is a least one**, if the choice respects the key. -/
theorem key_pickChild_le {key : α → β} {pick : α → α → Bool}
    (hpick : ∀ r l, pick r l = true → key r ≤ key l)
    (hkeep : ∀ r l, pick r l = false → key l ≤ key r) {n rt d : ℕ} {a : ℕ → α} (hd : 0 < d)
    (hdn : d < n) (hfather : (d - 1) / 2 = rt) : key (a (pickChild pick n rt a)) ≤ key (a d) := by
  rw [pickChild]
  rcases (by omega : d = 2 * rt + 1 ∨ d = 2 * rt + 2) with rfl | rfl
  · by_cases hp : 2 * rt + 2 < n ∧ pick (a (2 * rt + 2)) (a (2 * rt + 1)) = true
    · rw [if_pos hp]
      exact hpick _ _ hp.2
    · rw [if_neg hp]
  · by_cases hp : 2 * rt + 2 < n ∧ pick (a (2 * rt + 2)) (a (2 * rt + 1)) = true
    · rw [if_pos hp]
    · rw [if_neg hp]
      exact hkeep _ _ (Bool.eq_false_iff.mpr fun h => hp ⟨hdn, h⟩)

/-- **Sifting down** with a choice that respects the key, and a hole that stops only in front of a
child that does so. -/
theorem siftDown_spec_of_stop (key : α → β) {pick : α → α → Bool} {stop : α → Bool} {x : α}
    (hpick : ∀ r l, pick r l = true → key r ≤ key l)
    (hkeep : ∀ r l, pick r l = false → key l ≤ key r)
    (hgo : ∀ y, stop y = false → key y ≤ key x) {n : ℕ} (m : ℕ) :
    ∀ (rt : ℕ) (a : ℕ → α), n - rt = m → rt < n → HoleOrder key n a rt →
      (0 < rt → key (a ((rt - 1) / 2)) ≤ key x) →
      (∀ y ∈ siftDownStop pick stop n rt a, key x ≤ key y) →
      IsHeap key n (siftDown pick stop n x rt a) ∧
        contents n (siftDown pick stop n x rt a) = contents n (Function.update a rt x) := by
  -- by induction on the distance of the hole from the end
  induction m using Nat.strongRecOn with
  | ind m ih =>
      intro rt a hm hrt h habove hstop
      by_cases hchild : 2 * rt + 1 < n
      · generalize hc : pickChild pick n rt a = c
        have hlt : rt < c := hc ▸ lt_pickChild pick n rt a
        have hcn : c < n := hc ▸ pickChild_lt hchild
        have hfather : (c - 1) / 2 = rt := hc ▸ father_pickChild pick n rt a
        have hleast : ∀ d, 0 < d → d < n → (d - 1) / 2 = rt → key (a c) ≤ key (a d) :=
          fun d hd hdn hdf => hc ▸ key_pickChild_le hpick hkeep hd hdn hdf
        by_cases hs : stop (a c) = true
        · have heq : siftDown pick stop n x rt a = Function.update a rt x := by
            rw [siftDown, dif_pos hchild, hc, if_pos hs]
          have hlast : siftDownStop pick stop n rt a = some (a c) := by
            rw [siftDownStop, dif_pos hchild, hc, if_pos hs]
          rw [heq]
          refine ⟨h.fill habove fun d hd hdn hdf => ?_, rfl⟩
          exact le_trans (hstop _ hlast) (hleast d hd hdn hdf)
        · have heq : siftDown pick stop n x rt a =
              siftDown pick stop n x c (Function.update a rt (a c)) := by
            rw [siftDown, dif_pos hchild, hc, if_neg hs]
          -- the hole goes on with the picked child, and stops where it stopped
          have hrest : siftDownStop pick stop n rt a =
              siftDownStop pick stop n c (Function.update a rt (a c)) := by
            rw [siftDownStop, dif_pos hchild, hc, if_neg hs]
          rw [heq, ← contents_move hrt hcn (by omega) a x]
          refine ih (n - c) (by omega) c _ rfl hcn (h.move_down (by omega) hcn hfather hleast) ?_
            (hrest ▸ hstop)
          intro _
          rw [hfather, Function.update_self]
          exact hgo _ (Bool.eq_false_iff.mpr hs)
      · have heq : siftDown pick stop n x rt a = Function.update a rt x := by
          rw [siftDown, dif_neg hchild]
        rw [heq]
        exact ⟨h.fill habove fun c _ _ _ => by omega, rfl⟩

/-! ## Adding and taking an element -/

/-- **An element is added** behind the last one and sifted up. -/
theorem IsHeap.push {key : α → β} {n : ℕ} {a : ℕ → α} (h : IsHeap key n a) {stop : α → Bool} {x : α}
    (hstop : ∀ y, stop y = true → key y ≤ key x) (hgo : ∀ y, stop y = false → key x ≤ key y) :
    IsHeap key (n + 1) (siftUp stop x n a) ∧
      contents (n + 1) (siftUp stop x n a) = x ::ₘ contents n a := by
  have hole : HoleOrder key (n + 1) a n := by
    refine ⟨fun i hi hin hne _ => h i hi (by omega), fun _ c _ hcn hcf => ?_⟩
    omega
  obtain ⟨hheap, hcontents⟩ := siftUp_spec key hstop hgo (n := n + 1) n a (by omega) hole
    fun c _ hcn hcf => by omega
  refine ⟨hheap, ?_⟩
  rw [hcontents, contents_succ, Function.update_self, contents_update_of_le (Nat.le_refl n)]

/-- **The root is taken**, and the last element sifted down from there. -/
theorem IsHeap.pop {key : α → β} {n : ℕ} {a : ℕ → α} (h : IsHeap key (n + 1) a)
    {pick : α → α → Bool} {stop : α → Bool}
    (hpick : ∀ r l, pick r l = true → key r ≤ key l)
    (hkeep : ∀ r l, pick r l = false → key l ≤ key r)
    (hgo : ∀ y, stop y = false → key y ≤ key (a n))
    (hstop : ∀ y ∈ siftDownStop pick stop n 0 a, key (a n) ≤ key y) :
    IsHeap key n (siftDown pick stop n (a n) 0 a) ∧
      contents (n + 1) a = a 0 ::ₘ contents n (siftDown pick stop n (a n) 0 a) := by
  rcases Nat.eq_zero_or_pos n with rfl | hpos
  · -- the last element
    refine ⟨fun i hi hin => absurd hin (Nat.not_lt_zero i), ?_⟩
    rw [contents_succ]
    rfl
  · have hole : HoleOrder key n a 0 :=
      ⟨fun i hi hin _ _ => h i hi (by omega), fun h0 => absurd h0 (Nat.lt_irrefl 0)⟩
    obtain ⟨hheap, hcontents⟩ := siftDown_spec_of_stop key hpick hkeep hgo n 0 a rfl hpos hole
      (fun h0 => absurd h0 (Nat.lt_irrefl 0)) hstop
    refine ⟨hheap, ?_⟩
    rw [hcontents, contents_update hpos, contents_succ]

/-! ## Other elements -/

section Map

variable {γ : Type*} (g : α → γ)

/-- **Sifting up commutes with a map** that respects the test. -/
theorem siftUp_map {stop : α → Bool} {stop' : γ → Bool} (hstop : ∀ y, stop' (g y) = stop y) (x : α)
    (now : ℕ) : ∀ a : ℕ → α, siftUp stop' (g x) now (g ∘ a) = g ∘ siftUp stop x now a := by
  induction now using Nat.strongRecOn with
  | ind now ih =>
      intro a
      conv_lhs => rw [siftUp]
      conv_rhs => rw [siftUp]
      by_cases hpos : 0 < now
      · rw [dif_pos hpos, dif_pos hpos, Function.comp_apply, hstop]
        split_ifs
        · exact (Function.comp_update g a now x).symm
        · rw [← Function.comp_update]
          exact ih _ (by omega) _
      · rw [dif_neg hpos, dif_neg hpos]
        exact (Function.comp_update g a now x).symm

/-- **Sifting down commutes with a map** that respects the tests. -/
theorem siftDown_map {pick : α → α → Bool} {pick' : γ → γ → Bool} {stop : α → Bool}
    {stop' : γ → Bool} (hpick : ∀ r l, pick' (g r) (g l) = pick r l)
    (hstop : ∀ y, stop' (g y) = stop y) (n : ℕ) (x : α) (m : ℕ) :
    ∀ (rt : ℕ) (a : ℕ → α), n - rt = m →
      siftDown pick' stop' n (g x) rt (g ∘ a) = g ∘ siftDown pick stop n x rt a := by
  induction m using Nat.strongRecOn with
  | ind m ih =>
      intro rt a hm
      have hchild : pickChild pick' n rt (g ∘ a) = pickChild pick n rt a := by
        simp only [pickChild, Function.comp_apply, hpick]
      conv_lhs => rw [siftDown, hchild]
      conv_rhs => rw [siftDown]
      by_cases hleaf : 2 * rt + 1 < n
      · rw [dif_pos hleaf, dif_pos hleaf, Function.comp_apply, hstop]
        have hlt := lt_pickChild pick n rt a
        split_ifs
        · exact (Function.comp_update g a rt x).symm
        · rw [← Function.comp_update]
          exact ih _ (by omega) _ _ rfl
      · rw [dif_neg hleaf, dif_neg hleaf]
        exact (Function.comp_update g a rt x).symm

end Map

end HandlingRobot
