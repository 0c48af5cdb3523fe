import Mathlib.Data.List.Nodup
import Mathlib.Logic.Function.Basic

/-! # Queues as linked lists

A queue of nodes in a memory, with a pointer to its first node and one to its last node. Several
queues share one memory.

* **`Memory`**, **`Memory.malloc`**, **`Memory.free`** — the nodes; an address is given out once.
* **`LinkedQueue.enqueue`**, **`LinkedQueue.dequeue`** — the operations, which fail when they follow
  a null pointer or one to a node that has been freed.
* **`Represents`** — the queue consists of these nodes, first to last.
* **`Represents.enqueue`**, **`Represents.dequeue`** — the operations do not fail, and append a node
  or take the first one.
* **`Represents.frame`** — a queue does not notice what happens to the nodes of another one. -/

namespace HandlingRobot

variable {α : Type}

/-! ## Memory -/

/-- A node; `none` is the null pointer. -/
structure QNode (α : Type) where
  data : α
  next : Option ℕ

/-- The nodes by address, `none` where there is no live one, and the next address to be given out.
-/
structure Memory (α : Type) where
  cell : ℕ → Option (QNode α)
  brk : ℕ

/-- A new node without a successor is written to the address `m.brk`. -/
def Memory.malloc (m : Memory α) (d : α) : Memory α where
  cell := Function.update m.cell m.brk (some ⟨d, none⟩)
  brk := m.brk + 1

/-- A node is overwritten. -/
def Memory.write (m : Memory α) (a : ℕ) (n : QNode α) : Memory α :=
  { m with cell := Function.update m.cell a (some n) }

/-- A node is given back. -/
def Memory.free (m : Memory α) (a : ℕ) : Memory α :=
  { m with cell := Function.update m.cell a none }

/-! ## Operations -/

/-- `head` and `tail`. -/
structure LinkedQueue where
  head : Option ℕ
  tail : Option ℕ

/-- The empty queue. -/
def LinkedQueue.create : LinkedQueue := ⟨none, none⟩

/-- The queue has no first node. -/
def LinkedQueue.isEmpty (q : LinkedQueue) : Bool := q.head.isNone

/-- A new node becomes the last one. -/
def LinkedQueue.enqueue (q : LinkedQueue) (m : Memory α) (d : α) :
    Option (LinkedQueue × Memory α) := do
  let a := m.brk
  let m := m.malloc d
  let head := if q.head = none then some a else q.head
  match q.tail with
  | none => some (⟨head, some a⟩, m)
  | some t => do
      let n ← m.cell t
      some (⟨head, some a⟩, m.write t { n with next := some a })

/-- The first node is taken and freed. -/
def LinkedQueue.dequeue (q : LinkedQueue) (m : Memory α) :
    Option (α × LinkedQueue × Memory α) := do
  let temp ← q.head
  let n ← m.cell temp
  let q := if q.head = q.tail then ⟨none, none⟩ else ⟨n.next, q.tail⟩
  some (n.data, q, m.free temp)

/-! ## The nodes of a queue -/

/-- Every node points to the one behind it, and the last one nowhere. -/
def Linked (cell : ℕ → Option (QNode α)) : List (ℕ × α) → Prop
  | [] => True
  | node :: nodes =>
      cell node.1 = some ⟨node.2, nodes.head?.map Prod.fst⟩ ∧ Linked cell nodes

/-- **The queue consists of these nodes**, given by their addresses and data. -/
structure Represents (m : Memory α) (q : LinkedQueue) (nodes : List (ℕ × α)) : Prop where
  linked : Linked m.cell nodes
  nodup : (nodes.map Prod.fst).Nodup
  below : ∀ a ∈ nodes.map Prod.fst, a < m.brk
  head : q.head = nodes.head?.map Prod.fst
  tail : q.tail = nodes.getLast?.map Prod.fst

theorem represents_create (m : Memory α) : Represents m .create [] :=
  ⟨trivial, List.nodup_nil, fun _ h => absurd h List.not_mem_nil, rfl, rfl⟩

/-- A chain of nodes that are not overwritten. -/
theorem Linked.congr {cell cell' : ℕ → Option (QNode α)} {nodes : List (ℕ × α)}
    (h : Linked cell nodes) (hsame : ∀ a ∈ nodes.map Prod.fst, cell' a = cell a) :
    Linked cell' nodes := by
  induction nodes with
  | nil => trivial
  | cons node nodes ih =>
      refine ⟨?_, ih h.2 fun a ha => hsame a (List.mem_cons_of_mem _ ha)⟩
      rw [hsame node.1 List.mem_cons_self]
      exact h.1

/-- **A queue does not notice** what happens to other nodes. -/
theorem Represents.frame {m m' : Memory α} {q : LinkedQueue} {nodes : List (ℕ × α)}
    (h : Represents m q nodes) (hbrk : m.brk ≤ m'.brk)
    (hsame : ∀ a ∈ nodes.map Prod.fst, m'.cell a = m.cell a) : Represents m' q nodes :=
  ⟨h.linked.congr hsame, h.nodup, fun a ha => Nat.lt_of_lt_of_le (h.below a ha) hbrk, h.head,
    h.tail⟩

/-- The queue is empty exactly when it has no nodes. -/
theorem Represents.isEmpty_iff {m : Memory α} {q : LinkedQueue} {nodes : List (ℕ × α)}
    (h : Represents m q nodes) : q.isEmpty = true ↔ nodes = [] := by
  rw [LinkedQueue.isEmpty, h.head]
  cases nodes with
  | nil => simp
  | cons node nodes => simp

/-- **A new node behind the last one.** -/
theorem Linked.snoc {cell : ℕ → Option (QNode α)} {nodes : List (ℕ × α)} {t a : ℕ} {e d : α}
    (h : Linked cell nodes) (hnodup : (nodes.map Prod.fst).Nodup) (ha : a ∉ nodes.map Prod.fst)
    (hlast : nodes.getLast? = some (t, e)) :
    Linked (Function.update (Function.update cell a (some ⟨d, none⟩)) t (some ⟨e, some a⟩))
      (nodes ++ [(a, d)]) := by
  induction nodes with
  | nil => exact absurd hlast (by simp)
  | cons node nodes ih =>
      rw [List.map_cons, List.nodup_cons] at hnodup
      rw [List.map_cons, List.mem_cons, not_or] at ha
      cases nodes with
      | nil =>
          -- the one node is the last one
          obtain rfl : node = (t, e) := by simpa using hlast
          refine ⟨?_, ?_, trivial⟩
          · simp
          · rw [Function.update_of_ne ha.1, Function.update_self]
            rfl
      | cons next nodes =>
          have hlast' : (next :: nodes).getLast? = some (t, e) := by
            rwa [List.getLast?_cons_cons] at hlast
          have ht : t ∈ (next :: nodes).map Prod.fst :=
            List.mem_map.mpr ⟨(t, e), List.mem_of_getLast? hlast', rfl⟩
          have hne : node.1 ≠ t := fun heq => hnodup.1 (heq ▸ ht)
          refine ⟨?_, ih h.2 hnodup.2 ha.2 hlast'⟩
          rw [Function.update_of_ne hne, Function.update_of_ne (Ne.symm ha.1)]
          exact h.1

/-- The last node points nowhere. -/
theorem Linked.last {cell : ℕ → Option (QNode α)} {nodes : List (ℕ × α)} {t : ℕ} {e : α}
    (h : Linked cell nodes) (hlast : nodes.getLast? = some (t, e)) : cell t = some ⟨e, none⟩ := by
  induction nodes with
  | nil => exact absurd hlast (by simp)
  | cons node nodes ih =>
      cases nodes with
      | nil =>
          obtain rfl : node = (t, e) := by simpa using hlast
          exact h.1
      | cons next nodes =>
          rw [List.getLast?_cons_cons] at hlast
          exact ih h.2 hlast

/-! ## What the operations do -/

/-- **`enqueue` appends a node**, and touches no node of another queue. -/
theorem Represents.enqueue {m : Memory α} {q : LinkedQueue} {nodes : List (ℕ × α)}
    (h : Represents m q nodes) (d : α) :
    ∃ q' m', q.enqueue m d = some (q', m') ∧ Represents m' q' (nodes ++ [(m.brk, d)]) ∧
      m'.brk = m.brk + 1 ∧ ∀ a, a ∉ nodes.map Prod.fst → a ≠ m.brk → m'.cell a = m.cell a := by
  have hbrk : m.brk ∉ nodes.map Prod.fst := fun hmem => absurd (h.below _ hmem) (Nat.lt_irrefl _)
  have hnodup : ((nodes ++ [(m.brk, d)]).map Prod.fst).Nodup := by
    rw [List.map_append, List.map_singleton, ← List.concat_eq_append]
    exact h.nodup.concat hbrk
  have hbelow : ∀ a ∈ (nodes ++ [(m.brk, d)]).map Prod.fst, a < m.brk + 1 := by
    intro a ha
    rw [List.map_append, List.mem_append] at ha
    rcases ha with ha | ha
    · exact Nat.lt_succ_of_lt (h.below a ha)
    · rw [List.mem_singleton.mp ha]
      exact Nat.lt_succ_self _
  have htail : (nodes ++ [(m.brk, d)]).getLast?.map Prod.fst = some m.brk := by simp
  -- the new node is the first one, or hangs on the last one
  cases hlast : nodes.getLast? with
  | none =>
      obtain rfl := List.getLast?_eq_none_iff.mp hlast
      refine ⟨⟨some m.brk, some m.brk⟩, m.malloc d, ?_, ⟨⟨?_, trivial⟩, hnodup, hbelow, rfl, rfl⟩,
        rfl, fun a _ ha => Function.update_of_ne ha _ _⟩
      · obtain ⟨head, tail⟩ := q
        obtain rfl : head = none := h.head
        obtain rfl : tail = none := h.tail
        rfl
      · exact Function.update_self _ _ _
  | some node =>
      obtain ⟨t, e⟩ := node
      have ht : t ∈ nodes.map Prod.fst :=
        List.mem_map.mpr ⟨(t, e), List.mem_of_getLast? hlast, rfl⟩
      have hne : t ≠ m.brk := fun heq => hbrk (heq ▸ ht)
      have hcell : (m.malloc d).cell t = some ⟨e, none⟩ := by
        exact (Function.update_of_ne hne _ _).trans (h.linked.last hlast)
      have hnodes : nodes ≠ [] := by
        rintro rfl
        exact absurd ht List.not_mem_nil
      refine ⟨⟨q.head, some m.brk⟩, (m.malloc d).write t ⟨e, some m.brk⟩, ?_,
        ⟨h.linked.snoc h.nodup hbrk hlast, hnodup, hbelow, ?_, htail.symm⟩, rfl, ?_⟩
      · have hhead : q.head ≠ none := by
          rw [h.head]
          cases nodes with
          | nil => exact absurd rfl hnodes
          | cons node nodes => simp
        rw [LinkedQueue.enqueue, h.tail, hlast, if_neg hhead]
        simp only [Option.map_some, hcell, Option.bind_eq_bind, Option.bind_some]
      · cases nodes with
        | nil => exact absurd rfl hnodes
        | cons node nodes => exact h.head
      · intro a ha ha'
        have hat : a ≠ t := fun heq => ha (heq ▸ ht)
        exact (Function.update_of_ne hat _ _).trans (Function.update_of_ne ha' _ _)

/-- **`dequeue` takes the first node**, and touches no other one. -/
theorem Represents.dequeue {m : Memory α} {q : LinkedQueue} {a : ℕ} {d : α}
    {nodes : List (ℕ × α)} (h : Represents m q ((a, d) :: nodes)) :
    ∃ q' m', q.dequeue m = some (d, q', m') ∧ Represents m' q' nodes ∧ m'.brk = m.brk ∧
      ∀ b, b ≠ a → m'.cell b = m.cell b := by
  obtain ⟨head, tail⟩ := q
  obtain rfl : head = some a := h.head
  have hcell : m.cell a = some ⟨d, nodes.head?.map Prod.fst⟩ := h.linked.1
  have hnotin : a ∉ nodes.map Prod.fst := (List.nodup_cons.mp h.nodup).1
  have hlinked : Linked (m.free a).cell nodes := h.linked.2.congr fun b hb => by
    have hne : b ≠ a := by
      rintro rfl
      exact hnotin hb
    exact Function.update_of_ne hne _ _
  have hbelow : ∀ b ∈ nodes.map Prod.fst, b < (m.free a).brk := fun b hb =>
    h.below b (List.mem_cons_of_mem a hb)
  have htail : tail = ((a, d) :: nodes).getLast?.map Prod.fst := h.tail
  cases nodes with
  | nil =>
      obtain rfl : tail = some a := htail
      refine ⟨⟨none, none⟩, m.free a, ?_, ⟨hlinked, List.nodup_nil, hbelow, rfl, rfl⟩, rfl,
        fun b hb => Function.update_of_ne hb _ _⟩
      simp [LinkedQueue.dequeue, hcell]
  | cons node nodes =>
      have hne : some a ≠ tail := by
        -- the last node is behind the first one
        rw [htail, List.getLast?_cons_cons]
        intro heq
        obtain ⟨last, hlast, hfst⟩ := Option.map_eq_some_iff.mp heq.symm
        exact hnotin (List.mem_map.mpr ⟨last, List.mem_of_getLast? hlast, hfst⟩)
      refine ⟨⟨(node :: nodes).head?.map Prod.fst, tail⟩, m.free a, ?_,
        ⟨hlinked, (List.nodup_cons.mp h.nodup).2, hbelow, rfl, ?_⟩, rfl,
        fun b hb => Function.update_of_ne hb _ _⟩
      · simp [LinkedQueue.dequeue, hcell, hne]
      · rw [htail, List.getLast?_cons_cons]

end HandlingRobot
