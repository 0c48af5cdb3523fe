import HandlingRobot.Library.CountingLoop
import HandlingRobot.Library.LinkedQueue
import Mathlib.Data.List.Basic
import Mathlib.Order.Nat

/-! # Queues on a heap

The headers of the queues lie on the heap too, next to the nodes, and are reached through pointers.
A block that has been freed stays out of use. The heap has room for so many blocks at a time, and a
request for one more fails.

* **`YieldsUnless`** — a computation that fails only for want of something.
* **`Block`**, **`Heap`** — the blocks by address, `none` where one has been freed.
* **`Heap.createQueue`**, **`Heap.enqueue`**, **`Heap.dequeue`** — the operations, which fail when
  there is no room, and when they follow a pointer that leads to no block, or to one of the other
  kind.
* **`Owns`** — the pointer leads to a queue of these nodes.
* **`yieldsUnless_createQueue`**, **`Owns.enqueue`**, **`Owns.dequeue`** — the operations fail for
  want of room only, and change only blocks that the queue owns.
* **`Heap.live`** — the blocks in use. -/

namespace HandlingRobot

variable {α : Type}

/-! ## Failing for want of something -/

/-- The computation succeeds with a result that satisfies `Q`, or it fails, and then `short`. -/
def YieldsUnless {β : Type*} (short : Prop) (o : Option β) (Q : β → Prop) : Prop :=
  (o = none ∧ short) ∨ Yields o Q

namespace YieldsUnless

variable {β γ : Type*} {short : Prop} {o : Option β} {Q : β → Prop}

theorem of_some {b : β} (h : Q b) : YieldsUnless short (some b) Q := Or.inr (yields_some h)

/-- Sequencing. -/
theorem bind {f : β → Option γ} {R : γ → Prop} (h : YieldsUnless short o Q)
    (hf : ∀ b, Q b → YieldsUnless short (f b) R) : YieldsUnless short (o.bind f) R := by
  obtain ⟨rfl, hshort⟩ | ⟨b, rfl, hb⟩ := h
  · exact Or.inl ⟨rfl, hshort⟩
  · exact hf b hb

/-- Consequence. -/
theorem imp {short' : Prop} {R : β → Prop} (h : YieldsUnless short o Q) (hshort : short → short')
    (hQR : ∀ b, Q b → R b) : YieldsUnless short' o R := by
  obtain ⟨hnone, hs⟩ | hsome := h
  · exact Or.inl ⟨hnone, hshort hs⟩
  · exact Or.inr (hsome.imp hQR)

/-- A loop that does what another one does, as long as it does not fail. -/
theorem foldlM {δ : Type*} {f : β → δ → Option β} {g : γ → δ → γ} {R : β → γ → Prop}
    (hstep : ∀ b c d, R b c → YieldsUnless short (f b d) (R · (g c d))) (l : List δ) :
    ∀ {b c}, R b c → YieldsUnless short (l.foldlM f b) (R · (l.foldl g c)) := by
  induction l with
  | nil => exact fun h => of_some h
  | cons d l ih =>
      intro b c h
      rw [List.foldlM_cons]
      exact (hstep b c d h).bind fun b' hb' => ih hb'

end YieldsUnless

/-! ## The heap -/

/-- A node or a header. -/
inductive Block (α : Type)
  | node (n : QNode α)
  | queue (q : LinkedQueue)

/-- The blocks by address, of which no more than `size` are in use. -/
structure Heap (α : Type) where
  size : ℕ
  cells : List (Option (Block α))
  fits : cells.countP Option.isSome ≤ size

/-- A list in which an entry is overwritten holds as many as before. -/
theorem countP_isSome_modify (b : Block α) (l : List (Option (Block α))) (a : ℕ) :
    (l.modify a (Option.map fun _ => b)).countP Option.isSome = l.countP Option.isSome := by
  induction l generalizing a with
  | nil => cases a <;> rfl
  | cons c l ih =>
      cases a with
      | zero => cases c <;> simp
      | succ a => rw [List.modify_succ_cons, List.countP_cons, List.countP_cons, ih]

/-- A list without one of its entries. -/
theorem countP_isSome_set_none (l : List (Option (Block α))) (a : ℕ) :
    (l.set a none).countP Option.isSome + ((l[a]?).join.toList.length) =
      l.countP Option.isSome := by
  induction l generalizing a with
  | nil => rfl
  | cons c l ih =>
      cases a with
      | zero => cases c <;> simp
      | succ a =>
          rw [List.set_cons_succ, List.countP_cons, List.countP_cons, List.getElem?_cons_succ,
            ← ih a]
          omega

namespace Heap

/-- The next address to be given out. -/
def brk (h : Heap α) : ℕ := h.cells.length

/-- How many blocks are in use. -/
def used (h : Heap α) : ℕ := h.cells.countP Option.isSome

/-- The block at an address. -/
def block (h : Heap α) (a : ℕ) : Option (Block α) := (h.cells[a]?).join

/-- The header at an address. -/
def queue (h : Heap α) (a : ℕ) : Option LinkedQueue :=
  match h.block a with
  | some (.queue q) => some q
  | _ => none

/-- The node at an address. -/
def node (h : Heap α) (a : ℕ) : Option (QNode α) :=
  match h.block a with
  | some (.node n) => some n
  | _ => none

/-- A new block at the address `h.brk`; `none` where there is no room for it. -/
def malloc (h : Heap α) (b : Block α) : Option (Heap α) :=
  if room : h.used < h.size then
    some ⟨h.size, h.cells ++ [some b], by simpa [used] using Nat.succ_le_of_lt room⟩
  else none

/-- A block in use is overwritten. -/
def write (h : Heap α) (a : ℕ) (b : Block α) : Heap α :=
  ⟨h.size, h.cells.modify a (Option.map fun _ => b), (countP_isSome_modify b _ a).le.trans h.fits⟩

/-- A block is given back. -/
def free (h : Heap α) (a : ℕ) : Heap α :=
  ⟨h.size, h.cells.set a none,
    ((Nat.le_add_right _ _).trans (countP_isSome_set_none _ a).le).trans h.fits⟩

/-- The blocks in use. -/
def live (h : Heap α) : List (Block α) := h.cells.filterMap id

theorem length_live (h : Heap α) : h.live.length = h.used := List.length_filterMap_eq_countP

theorem used_le (h : Heap α) : h.used ≤ h.size := h.fits

/-! ## Operations -/

/-- `CreateQueue`. -/
def createQueue (h : Heap α) : Option (ℕ × Heap α) := do
  let q := h.brk
  let h ← h.malloc (.queue .create)
  some (q, h)

/-- `enqueue` on the queue at `p`. -/
def enqueue (h : Heap α) (p : ℕ) (d : α) : Option (Heap α) := do
  let qNode := h.brk
  let h ← h.malloc (.node ⟨d, none⟩)
  let q ← h.queue p
  let head := if q.head = none then some qNode else q.head
  match q.tail with
  | none => some (h.write p (.queue ⟨head, some qNode⟩))
  | some t => do
      let n ← h.node t
      some ((h.write t (.node { n with next := some qNode })).write p
        (.queue ⟨head, some qNode⟩))

/-- `dequeue` on the queue at `p`. -/
def dequeue (h : Heap α) (p : ℕ) : Option (α × Heap α) := do
  let q ← h.queue p
  let temp ← q.head
  let n ← h.node temp
  let q := if q.head = q.tail then ⟨none, none⟩ else { q with head := n.next }
  some (n.data, (h.write p (.queue q)).free temp)

/-! ## Reading after writing -/

@[simp] theorem used_write (h : Heap α) (a : ℕ) (b : Block α) : (h.write a b).used = h.used :=
  countP_isSome_modify b _ a

/-- A block in use that is given back makes room for another one. -/
theorem used_free {h : Heap α} {a : ℕ} (ha : h.block a ≠ none) :
    (h.free a).used + 1 = h.used := by
  obtain ⟨b, hb⟩ := Option.ne_none_iff_exists'.mp ha
  have hcount := countP_isSome_set_none h.cells a
  rwa [show (h.cells[a]?).join = some b from hb] at hcount

@[simp] theorem brk_write (h : Heap α) (a : ℕ) (b : Block α) : (h.write a b).brk = h.brk :=
  List.length_modify _ _ _

@[simp] theorem brk_free (h : Heap α) (a : ℕ) : (h.free a).brk = h.brk := List.length_set

/-- **What `malloc` does**: it makes a block where there is room. -/
structure Grows (h : Heap α) (b : Block α) (h' : Heap α) : Prop where
  size : h'.size = h.size
  brk : h'.brk = h.brk + 1
  used : h'.used = h.used + 1
  block : ∀ a, h'.block a = if a = h.brk then some b else h.block a

theorem yieldsUnless_malloc (h : Heap α) (b : Block α) :
    YieldsUnless (h.size ≤ h.used) (h.malloc b) (h.Grows b) := by
  unfold malloc
  split_ifs with hroom
  · refine .of_some ⟨rfl, by simp [Heap.brk], by simp [Heap.used], fun a => ?_⟩
    unfold Heap.block Heap.brk
    rcases Nat.lt_trichotomy a h.cells.length with hlt | rfl | hgt
    · rw [if_neg (Nat.ne_of_lt hlt), List.getElem?_append_left hlt]
    · rw [if_pos rfl, List.getElem?_concat_length]
      rfl
    · rw [if_neg (Nat.ne_of_gt hgt), List.getElem?_append_right (Nat.le_of_lt hgt),
        List.getElem?_eq_none (Nat.le_of_lt hgt), List.getElem?_eq_none]
      rw [List.length_singleton]
      omega
  · exact Or.inl ⟨rfl, Nat.not_lt.mp hroom⟩

/-- No block has been given out from `brk` on. -/
theorem block_eq_none {h : Heap α} {a : ℕ} (ha : h.brk ≤ a) : h.block a = none := by
  rw [block, List.getElem?_eq_none ha]
  rfl

/-- A block that is in use has an address below `brk`. -/
theorem lt_brk {h : Heap α} {a : ℕ} (ha : h.block a ≠ none) : a < h.brk :=
  Nat.lt_of_not_le fun hge => ha (block_eq_none hge)

theorem block_write {h : Heap α} {a : ℕ} (ha : h.block a ≠ none) (b : Block α) (c : ℕ) :
    (h.write a b).block c = if c = a then some b else h.block c := by
  obtain ⟨b', hb⟩ := Option.ne_none_iff_exists'.mp ha
  have hcell : h.cells[a]? = some (some b') := by
    unfold block at hb
    rwa [Option.join_eq_some_iff] at hb
  unfold block write
  rw [List.getElem?_modify]
  by_cases heq : a = c
  · rw [if_pos heq.symm, ← heq, hcell]
    simp
  · simp [heq, Ne.symm heq]

theorem block_free (h : Heap α) (a c : ℕ) :
    (h.free a).block c = if c = a then none else h.block c := by
  unfold block free
  rw [List.getElem?_set]
  by_cases heq : a = c
  · rw [if_pos heq, if_pos heq.symm]
    split_ifs <;> rfl
  · rw [if_neg heq, if_neg (Ne.symm heq)]

/-- A header is a block. -/
theorem queue_eq_some {h : Heap α} {p : ℕ} {q : LinkedQueue} :
    h.queue p = some q ↔ h.block p = some (.queue q) := by
  unfold queue
  cases h.block p with
  | none => simp
  | some b => cases b <;> simp

theorem node_eq_some {h : Heap α} {a : ℕ} {n : QNode α} :
    h.node a = some n ↔ h.block a = some (.node n) := by
  unfold node
  cases h.block a with
  | none => simp
  | some b => cases b <;> simp

theorem block_ne_none_of_queue {h : Heap α} {p : ℕ} {q : LinkedQueue} (hq : h.queue p = some q) :
    h.block p ≠ none := by
  rw [queue_eq_some.mp hq]
  exact Option.some_ne_none _

theorem block_ne_none_of_node {h : Heap α} {a : ℕ} {n : QNode α} (hn : h.node a = some n) :
    h.block a ≠ none := by
  rw [node_eq_some.mp hn]
  exact Option.some_ne_none _

theorem queue_write {h : Heap α} {p : ℕ} (hp : h.block p ≠ none) (q : LinkedQueue) :
    (h.write p (.queue q)).queue p = some q := by
  rw [queue, block_write hp, if_pos rfl]

/-! ## The nodes as a memory -/

/-- The nodes alone. -/
def memory (h : Heap α) : Memory α := ⟨h.node, h.brk⟩

theorem Grows.memory {h h' : Heap α} {d : α} (hnew : h.Grows (.node ⟨d, none⟩) h') :
    h'.memory = h.memory.malloc d := by
  have hcell : h'.node = Function.update h.node h.brk (some ⟨d, none⟩) := by
    funext a
    rw [node, hnew.block, Function.update_apply]
    split_ifs <;> rfl
  rw [Heap.memory, hcell, hnew.brk]
  rfl

theorem memory_write_node {h : Heap α} {a : ℕ} (ha : h.block a ≠ none) (n : QNode α) :
    (h.write a (.node n)).memory = h.memory.write a n := by
  have hcell : (h.write a (.node n)).node = Function.update h.node a (some n) := by
    funext c
    rw [node, block_write ha, Function.update_apply]
    split_ifs <;> rfl
  rw [memory, hcell, brk_write]
  rfl

/-- A header is no node. -/
theorem memory_write_queue {h : Heap α} {p : ℕ} {q : LinkedQueue} (hq : h.queue p = some q)
    (q' : LinkedQueue) : (h.write p (.queue q')).memory = h.memory := by
  have hcell : (h.write p (.queue q')).node = h.node := by
    funext c
    rw [node, block_write (block_ne_none_of_queue hq)]
    split_ifs with hc
    · rw [hc, node, queue_eq_some.mp hq]
    · rfl
  rw [memory, hcell, brk_write]
  rfl

theorem memory_free (h : Heap α) (a : ℕ) : (h.free a).memory = h.memory.free a := by
  have hcell : (h.free a).node = Function.update h.node a none := by
    funext c
    rw [node, block_free, Function.update_apply]
    split_ifs <;> rfl
  rw [memory, hcell, brk_free]
  rfl

end Heap

/-! ## The blocks in use -/

theorem Heap.getElem?_cells {h : Heap α} {a : ℕ} (ha : a < h.brk) :
    h.cells[a]? = some (h.block a) := by
  have hlt : a < h.cells.length := ha
  rw [block, List.getElem?_eq_getElem hlt]
  rfl

/-- **What a change leaves in use**: the old blocks as they were, and the new ones that have not
been freed. -/
theorem Heap.live_eq_append {h h' : Heap α} {new : List (Block α)}
    (hbrk : h.brk + new.length ≤ h'.brk) (hold : ∀ a < h.brk, h'.block a = h.block a)
    (hnew : ∀ i, h'.block (h.brk + i) = new[i]?) : h'.live = h.live ++ new := by
  have hcells : h'.cells = h.cells ++ (new.map some ++
      List.replicate (h'.brk - (h.brk + new.length)) none) := by
    refine List.ext_getElem? fun a => ?_
    rcases Nat.lt_or_ge a h.brk with hlt | hge
    · rw [getElem?_cells (Nat.lt_of_lt_of_le hlt (Nat.le_of_add_right_le hbrk)), hold a hlt,
        List.getElem?_append_left hlt, getElem?_cells hlt]
    · obtain ⟨i, rfl⟩ := Nat.exists_eq_add_of_le hge
      have htail : ∀ r : List (Option (Block α)), (h.cells ++ r)[h.brk + i]? = r[i]? := fun r => by
        rw [List.getElem?_append_right hge, brk, Nat.add_sub_cancel_left]
      rw [htail]
      rcases Nat.lt_or_ge (h.brk + i) h'.brk with hin | hout
      · rw [getElem?_cells hin, hnew]
        rcases Nat.lt_or_ge i new.length with hi | hi
        · rw [List.getElem?_append_left (by rwa [List.length_map]), List.getElem?_map,
            List.getElem?_eq_getElem hi]
          rfl
        · rw [List.getElem?_append_right (by rwa [List.length_map]), List.getElem?_eq_none hi,
            List.length_map, List.getElem?_replicate, if_pos (by omega)]
      · rw [List.getElem?_eq_none hout, List.getElem?_eq_none]
        rw [List.length_append, List.length_map, List.length_replicate]
        omega
  rw [live, hcells, List.filterMap_append, List.filterMap_append]
  simp [live]

/-! ## Queues -/

/-- **The pointer leads to a queue of these nodes.** -/
def Owns (h : Heap α) (p : ℕ) (nodes : List (ℕ × α)) : Prop :=
  ∃ q, h.queue p = some q ∧ Represents h.memory q nodes

/-- **A new queue** is empty, and lies in a new block. -/
theorem yieldsUnless_createQueue (h : Heap α) :
    YieldsUnless (h.size ≤ h.used) h.createQueue fun r =>
      r.1 = h.brk ∧ Owns r.2 h.brk [] ∧ h.Grows (.queue .create) r.2 := by
  refine (h.yieldsUnless_malloc _).bind fun h' hnew => .of_some ⟨rfl, ?_, hnew⟩
  refine ⟨.create, Heap.queue_eq_some.mpr ?_, represents_create _⟩
  rw [hnew.block, if_pos rfl]

namespace Owns

variable {h h' : Heap α} {p : ℕ} {nodes : List (ℕ × α)}

theorem header_lt (howns : Owns h p nodes) : p < h.brk := by
  obtain ⟨q, hq, -⟩ := howns
  exact Heap.lt_brk (Heap.block_ne_none_of_queue hq)

theorem below (howns : Owns h p nodes) : ∀ a ∈ nodes.map Prod.fst, a < h.brk := by
  obtain ⟨q, -, hrep⟩ := howns
  exact hrep.below

/-- **A queue does not notice** what happens to blocks that it does not own. -/
theorem frame (howns : Owns h p nodes) (hbrk : h.brk ≤ h'.brk) (hp : h'.block p = h.block p)
    (hnodes : ∀ a ∈ nodes.map Prod.fst, h'.block a = h.block a) : Owns h' p nodes := by
  obtain ⟨q, hq, hrep⟩ := howns
  refine ⟨q, ?_, hrep.frame hbrk fun a ha => ?_⟩
  · rw [Heap.queue_eq_some] at hq ⊢
    rw [hp, hq]
  · show h'.node a = h.node a
    rw [Heap.node, Heap.node, hnodes a ha]

/-- What `enqueue` leaves of a heap. -/
structure Appends (h : Heap α) (p : ℕ) (nodes : List (ℕ × α)) (d : α) (h' : Heap α) : Prop where
  owns : Owns h' p (nodes ++ [(h.brk, d)])
  size : h'.size = h.size
  brk : h'.brk = h.brk + 1
  used : h'.used = h.used + 1
  block : ∀ a, a ≠ p → a ∉ nodes.map Prod.fst → a ≠ h.brk → h'.block a = h.block a

/-- **`enqueue` appends a node**, and changes no block that the queue does not own. -/
theorem enqueue (howns : Owns h p nodes) (d : α) :
    YieldsUnless (h.size ≤ h.used) (h.enqueue p d) (Appends h p nodes d) := by
  obtain ⟨q, hq, hrep⟩ := howns
  obtain ⟨q', m', hrun, hrep', hbrk, -⟩ := hrep.enqueue d
  have hpne : p ≠ h.brk := Nat.ne_of_lt (Heap.lt_brk (Heap.block_ne_none_of_queue hq))
  refine (h.yieldsUnless_malloc _).bind fun g hnew => ?_
  -- the header is where it was before the node was made
  have hq' : g.queue p = some q := by
    rw [Heap.queue_eq_some] at hq ⊢
    rw [hnew.block, if_neg hpne, hq]
  have hlt := Heap.block_ne_none_of_queue hq'
  have hmemory := hnew.memory
  unfold LinkedQueue.enqueue at hrun
  cases htail : q.tail with
  | none =>
      rw [htail] at hrun
      obtain ⟨rfl, rfl⟩ := Prod.mk.inj (Option.some.inj hrun)
      simp only [hq', htail, Option.bind_eq_bind, Option.bind_some]
      refine .of_some ⟨⟨_, Heap.queue_write hlt _, ?_⟩, hnew.size, ?_, ?_, fun a hap _ hab => ?_⟩
      · rw [Heap.memory_write_queue hq', hmemory]
        exact hrep'
      · rw [Heap.brk_write, hnew.brk]
      · rw [Heap.used_write, hnew.used]
      · rw [Heap.block_write hlt, if_neg hap, hnew.block, if_neg hab]
  | some t =>
      rw [htail] at hrun
      obtain ⟨n, hn, hrun⟩ := Option.bind_eq_some_iff.mp hrun
      obtain ⟨rfl, rfl⟩ := Prod.mk.inj (Option.some.inj hrun)
      have hn' : g.node t = some n := by
        rw [← hn, ← hmemory]
        rfl
      have ht := Heap.block_ne_none_of_node hn'
      have hq'' : (g.write t (.node { n with next := some h.brk })).queue p = some q := by
        rw [Heap.queue_eq_some] at hq' ⊢
        rw [Heap.block_write ht, if_neg, hq']
        rintro rfl
        rw [Heap.node_eq_some, hq'] at hn'
        exact absurd hn' (by simp)
      have hlt' := Heap.block_ne_none_of_queue hq''
      simp only [hq', htail, hn', Option.bind_eq_bind, Option.bind_some]
      refine .of_some ⟨⟨_, Heap.queue_write hlt' _, ?_⟩, hnew.size, ?_, ?_,
        fun a hap hanodes hab => ?_⟩
      · rw [Heap.memory_write_queue hq'', Heap.memory_write_node ht, hmemory]
        exact hrep'
      · rw [Heap.brk_write, Heap.brk_write, hnew.brk]
      · rw [Heap.used_write, Heap.used_write, hnew.used]
      · have hat : a ≠ t := by
          rintro rfl
          rw [hrep.tail, Option.map_eq_some_iff] at htail
          obtain ⟨node, hlast, rfl⟩ := htail
          exact hanodes (List.mem_map_of_mem (List.mem_of_getLast? hlast))
        rw [Heap.block_write hlt', if_neg hap, Heap.block_write ht, if_neg hat,
          hnew.block, if_neg hab]

/-- What `dequeue` leaves of a heap. -/
structure Removes (h : Heap α) (p : ℕ) (nodes : List (ℕ × α)) (a : ℕ) (h' : Heap α) : Prop where
  owns : Owns h' p nodes
  size : h'.size = h.size
  brk : h'.brk = h.brk
  used : h'.used + 1 = h.used
  freed : h'.block a = none
  block : ∀ b, b ≠ p → b ≠ a → h'.block b = h.block b

/-- **`dequeue` takes the first node** and frees its block; of the others it changes the header
only. -/
theorem dequeue {a : ℕ} {d : α} (howns : Owns h p ((a, d) :: nodes)) :
    ∃ h', h.dequeue p = some (d, h') ∧ Removes h p nodes a h' := by
  obtain ⟨q, hq, hrep⟩ := howns
  obtain ⟨q', m', hrun, hrep', -, -⟩ := hrep.dequeue
  have hlt := Heap.block_ne_none_of_queue hq
  unfold LinkedQueue.dequeue at hrun
  obtain ⟨temp, htemp, hrun⟩ := Option.bind_eq_some_iff.mp hrun
  obtain ⟨n, hn, hrun⟩ := Option.bind_eq_some_iff.mp hrun
  obtain ⟨hdata, hrun⟩ := Prod.mk.inj (Option.some.inj hrun)
  obtain ⟨hq', rfl⟩ := Prod.mk.inj hrun
  obtain rfl : temp = a := Option.some.inj (htemp.symm.trans hrep.head)
  have hn' : h.node temp = some n := hn
  have hne : p ≠ temp := by
    rintro rfl
    rw [Heap.queue_eq_some] at hq
    rw [Heap.node_eq_some, hq] at hn'
    exact absurd hn' (by simp)
  have hval : h.dequeue p = some (d, (h.write p (.queue q')).free temp) := by
    rw [← hq']
    simp only [Heap.dequeue, hq, htemp, hn', Option.bind_eq_bind, Option.bind_some, hdata]
  refine ⟨_, hval, ⟨q', ?_, ?_⟩, rfl, ?_, ?_, ?_, fun b hbp hbt => ?_⟩
  · rw [Heap.queue_eq_some, Heap.block_free, if_neg hne, Heap.block_write hlt, if_pos rfl]
  · rw [Heap.memory_free, Heap.memory_write_queue hq]
    exact hrep'
  · rw [Heap.brk_free, Heap.brk_write]
  · rw [Heap.used_free, Heap.used_write]
    rw [Heap.block_write hlt, if_neg hne.symm]
    exact Heap.block_ne_none_of_node hn'
  · rw [Heap.block_free, if_pos rfl]
  · rw [Heap.block_free, if_neg hbt, Heap.block_write hlt, if_neg hbp]

end Owns

end HandlingRobot
