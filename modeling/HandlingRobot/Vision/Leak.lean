import HandlingRobot.Library.QueueHeap
import HandlingRobot.Vision.Queues
import HandlingRobot.Vision.Repeat
import HandlingRobot.Vision.Tables

/-! # What the floods leave on the heap

`BFS` allocates the headers of its two queues with `CreateQueue` and a node for each item, and frees
the nodes in `dequeue`. Nobody frees the headers. All these blocks are of one size, so that the room
on the heap is a number of blocks; where there is none left, the null pointer of `rt_malloc` is
followed unchecked.

* **`bfsHeap`** — `BFS` with its queues on the heap, headers and nodes; **`findPicHeap`** — the
  function `find_pic` on top of it.
* **`Flooding`** — the blocks of a flood: two headers, the nodes of its queues, and all other blocks
  as before.
* **`yieldsUnless_bfsHeap`** — a flood computes what `bfs` does and leaves its two empty headers,
  unless there is too little room.
* **`findPics_leak`** — what any number of calls of `find_pic` leaves, and when they use up the
  heap. -/

namespace HandlingRobot

/-! ## The functions -/

/-- `qx = CreateQueue()`, `qy = CreateQueue()`. -/
def createQueues (h : Heap ℕ) : Option (ℕ × ℕ × Heap ℕ) := do
  let (qx, h) ← h.createQueue
  let (qy, h) ← h.createQueue
  some (qx, qy, h)

/-- `enqueue(qx, x), enqueue(qy, y)`. -/
def enqueuePixel (qx qy : ℕ) (q : Pixel) (h : Heap ℕ) : Option (Heap ℕ) := do
  let h ← h.enqueue qx (toItem q.1)
  h.enqueue qy (toItem q.2)

/-- `nx = dequeue(qx), ny = dequeue(qy)`. -/
def dequeuePixel (qx qy : ℕ) (h : Heap ℕ) : Option (Pixel × Heap ℕ) := do
  let (nx, h) ← h.dequeue qx
  let (ny, h) ← h.dequeue qy
  some (((nx : ℤ), (ny : ℤ)), h)

/-- The neighbour of `n` in the direction `d`. -/
def bfsHeapVisit (f : Frame) (cnt : ℕ) (tag : Bool) (qx qy : ℕ) (n : Pixel) (t : Labels × Heap ℕ)
    (d : ℤ × ℤ) : Option (Labels × Heap ℕ) :=
  let q := (n.1 + d.1, n.2 + d.2)
  if ¬ OnFrame q ∨ t.1.img q ≠ -1 then some t
  else if xor (isWhite f n) (isWhite f q) then
    some (if tag then { t.1 with edge := t.1.edge ++ [q] } else t.1, t.2)
  else do
    let h ← enqueuePixel qx qy q t.2
    some (t.1.mark cnt q, h)

/-- The loop `while (!is_empty(qx))`. -/
def bfsHeapLoop (f : Frame) (cnt : ℕ) (dirs : List (ℤ × ℤ)) (tag : Bool) (qx qy : ℕ) :
    ℕ → Labels × Heap ℕ → Option (Labels × Heap ℕ)
  | 0, _ => none
  | fuel + 1, t => do
      let q ← t.2.queue qx
      if q.isEmpty then some t
      else do
        let (n, h) ← dequeuePixel qx qy t.2
        let t ← dirs.foldlM (bfsHeapVisit f cnt tag qx qy n) (t.1, h)
        bfsHeapLoop f cnt dirs tag qx qy fuel t

/-- **`BFS(x, y, cnt, _4or_8, tag)`** on the heap. -/
def bfsHeap (f : Frame) (fuel : ℕ) (x : Pixel) (cnt four_or_8 : ℕ) (tag : Bool) (h : Heap ℕ)
    (s : Labels) : Option (Labels × Heap ℕ) := do
  let (qx, qy, h) ← createQueues h
  let h ← enqueuePixel qx qy x h
  bfsHeapLoop f cnt (dir.take four_or_8) tag qx qy fuel (s.mark cnt x, h)

/-- A flood from `q` with the next label, if `q` has no label and passes `test`. -/
def startFloodHeap (f : Frame) (fuel four_or_8 : ℕ) (tag : Bool) (test : Pixel → Bool)
    (t : (Labels × ℕ) × Heap ℕ) (q : Pixel) : Option ((Labels × ℕ) × Heap ℕ) :=
  if t.1.1.img q = -1 ∧ test q = true then do
    let (s, h) ← bfsHeap f fuel q t.1.2 four_or_8 tag t.2 t.1.1
    some ((s, t.1.2 + 1), h)
  else some t

/-- The floods of the window, and those of the pixels they met. -/
def floodsHeap (f : Frame) (fuel : ℕ) (t : (Labels × ℕ) × Heap ℕ) :
    Option ((Labels × ℕ) × Heap ℕ) := do
  let t ← window.foldlM (startFloodHeap f fuel 4 true (isSeed f)) t
  t.1.1.edge.foldlM (startFloodHeap f fuel 8 false (isWhite f)) t

/-- **`find_pic`** on the heap. -/
def findPicHeap (fuel : ℕ) (images : List Camera) (s : Vision × Heap ℕ) :
    Option ((Vision × Heap ℕ) × List Camera) := do
  let ((f, c), rest) ← a4Loop fuel images
  let (t, h) ← floodsHeap f fuel ((⟨fun _ => -1, s.1.labels.block, []⟩, 0), s.2)
  some (((s.1.list t).place c, h), rest)

/-- One call of `find_pic` after the other, each with the frames the camera takes for it. -/
def findPicRun (fuel : ℕ) : List (List Camera) → Vision → Option Vision
  | [], s => some s
  | images :: calls, s => do
      let (s, _) ← findPic fuel images s
      findPicRun fuel calls s

/-- The same on the heap. -/
def findPics (fuel : ℕ) :
    List (List Camera) → Vision × Heap ℕ → Option (Vision × Heap ℕ)
  | [], s => some s
  | images :: calls, s => do
      let (s, _) ← findPicHeap fuel images s
      findPics fuel calls s

/-! ## The blocks of a flood -/

/-- **The heap during a flood** that began on `h₀`: its two headers, the nodes of its queues, and
all other blocks as they were. -/
structure Flooding (h₀ h : Heap ℕ) (queue : List Pixel) (xs ys : List (ℕ × ℕ)) : Prop where
  qx : Owns h h₀.brk xs
  qy : Owns h (h₀.brk + 1) ys
  apart : ∀ a ∈ xs.map Prod.fst, a ∉ ys.map Prod.fst
  aboveX : ∀ a ∈ xs.map Prod.fst, h₀.brk + 1 < a
  aboveY : ∀ a ∈ ys.map Prod.fst, h₀.brk + 1 < a
  columns : xs.map Prod.snd = queue.map fun p => toItem p.1
  rows : ys.map Prod.snd = queue.map fun p => toItem p.2
  onFrame : ∀ p ∈ queue, OnFrame p
  nodup : queue.Nodup
  size : h.size = h₀.size
  used : h.used = h₀.used + 2 + 2 * queue.length
  others : ∀ a, a ≠ h₀.brk → a ≠ h₀.brk + 1 → a ∉ xs.map Prod.fst → a ∉ ys.map Prod.fst →
    h.block a = h₀.block a

variable {h₀ h : Heap ℕ} {queue : List Pixel} {xs ys : List (ℕ × ℕ)}

/-- There is too little room for a flood: for its headers, and two nodes for each pixel. -/
def ShortFor (h : Heap ℕ) : Prop := h.size < h.used + 2 + 2 * framePixels.length

/-- The two queues just created. -/
theorem yieldsUnless_createQueues (h : Heap ℕ) :
    YieldsUnless (ShortFor h) (createQueues h) fun r =>
      r.1 = h.brk ∧ r.2.1 = h.brk + 1 ∧ Flooding h r.2.2 [] [] [] := by
  refine (yieldsUnless_createQueue h).imp (fun hfull => ?_) (fun _ => id) |>.bind ?_
  · unfold ShortFor
    omega
  rintro ⟨qx, h₁⟩ ⟨hqx, hx, hnew⟩
  dsimp only at hqx hx hnew
  subst hqx
  refine (yieldsUnless_createQueue h₁).imp (fun hfull => ?_) (fun _ => id) |>.bind ?_
  · have hsize := hnew.size
    have hused := hnew.used
    unfold ShortFor
    omega
  rintro ⟨qy, h₂⟩ ⟨hqy, hy, hnew'⟩
  dsimp only at hqy hy hnew'
  subst hqy
  have hbrk := hnew.brk
  have hbrk' := hnew'.brk
  refine .of_some ⟨rfl, hbrk, ?_, hbrk ▸ hy, by simp, by simp, by simp, rfl, rfl, by simp, .nil,
    hnew'.size.trans hnew.size, ?_, fun a ha ha' _ _ => ?_⟩
  · refine hx.frame (hnew'.brk.ge.trans' (Nat.le_succ _)) ?_ fun a ha => absurd ha List.not_mem_nil
    rw [hnew'.block, if_neg (by omega)]
  · have hused := hnew.used
    have hused' := hnew'.used
    dsimp only
    rw [List.length_nil]
    omega
  · rw [hnew'.block, if_neg (by omega), hnew.block, if_neg ha]

/-- A pixel that is not in the queue leaves room in it. -/
theorem Flooding.length_lt (hf : Flooding h₀ h queue xs ys) {q : Pixel} (hq : OnFrame q)
    (hnew : q ∉ queue) : queue.length < framePixels.length := by
  have hsub : (q :: queue) ⊆ framePixels := by
    intro p hp
    rcases List.mem_cons.mp hp with rfl | hp
    · exact mem_framePixels.mpr hq
    · exact mem_framePixels.mpr (hf.onFrame p hp)
  exact (List.subperm_of_subset (List.nodup_cons.mpr ⟨hnew, hf.nodup⟩) hsub).length_le

/-- **A pixel is appended.** -/
theorem Flooding.enqueue (hf : Flooding h₀ h queue xs ys) {q : Pixel} (hq : OnFrame q)
    (hnew : q ∉ queue) :
    YieldsUnless (ShortFor h₀) (enqueuePixel h₀.brk (h₀.brk + 1) q h) fun h' =>
      ∃ xs' ys', Flooding h₀ h' (queue ++ [q]) xs' ys' := by
  have hroom := hf.length_lt hq hnew
  have hsize := hf.size
  have hused := hf.used
  refine (hf.qx.enqueue (toItem q.1)).imp (fun hfull => ?_) (fun _ => id) |>.bind ?_
  · unfold ShortFor
    omega
  intro h₁ hrun
  have hbrk := hrun.brk
  have hlt := hf.qy.header_lt
  -- the queue of the rows has been left alone
  have hqy : Owns h₁ (h₀.brk + 1) ys := by
    refine hf.qy.frame (by omega) (hrun.block _ (by omega) (fun hmem => ?_) (by omega))
      fun a ha => hrun.block a ?_ (fun hax => hf.apart a hax ha) (hf.qy.below a ha).ne
    · exact absurd (hf.aboveX _ hmem) (Nat.lt_irrefl _)
    · have habove := hf.aboveY a ha
      omega
  refine (hqy.enqueue (toItem q.2)).imp (fun hfull => ?_) fun h₂ hrun' => ?_
  · have hsize₁ := hrun.size
    have hused₁ := hrun.used
    unfold ShortFor
    omega
  have hbrk' := hrun'.brk
  have hmem : ∀ {a : ℕ} {l : List (ℕ × ℕ)} {b d : ℕ}, a ∈ (l ++ [(b, d)]).map Prod.fst ↔
      a ∈ l.map Prod.fst ∨ a = b := by
    intro a l b d
    rw [List.map_append, List.mem_append, List.map_singleton, List.mem_singleton]
  -- and so has that of the columns since
  have hqx' : Owns h₂ h₀.brk (xs ++ [(h.brk, toItem q.1)]) := by
    refine hrun.owns.frame (by omega) (hrun'.block _ (by omega) (fun hy => ?_) (by omega))
      fun a ha => hrun'.block a ?_ (fun hay => ?_) (hrun.owns.below a ha).ne
    · have habove := hf.aboveY _ hy
      omega
    · rcases hmem.mp ha with ha | rfl
      · have habove := hf.aboveX a ha
        omega
      · omega
    · rcases hmem.mp ha with ha | rfl
      · exact hf.apart a ha hay
      · exact absurd (hf.qy.below _ hay) (Nat.lt_irrefl _)
  refine ⟨_, _, hqx', hrun'.owns, fun a ha hay => ?_, fun a ha => ?_, fun a ha => ?_, ?_, ?_,
    fun p hp => ?_, ?_, ?_, ?_, fun a hax hay hxs hys => ?_⟩
  · rcases hmem.mp ha with ha | rfl
    · rcases hmem.mp hay with hay | rfl
      · exact hf.apart a ha hay
      · have hbelow := hf.qx.below _ ha
        omega
    · rcases hmem.mp hay with hay | heq
      · exact absurd (hf.qy.below _ hay) (Nat.lt_irrefl _)
      · omega
  · rcases hmem.mp ha with ha | rfl
    · exact hf.aboveX a ha
    · exact hlt
  · rcases hmem.mp ha with ha | rfl
    · exact hf.aboveY a ha
    · omega
  · rw [List.map_append, List.map_append, hf.columns]
    rfl
  · rw [List.map_append, List.map_append, hf.rows]
    rfl
  · rcases List.mem_append.mp hp with hp | hp
    · exact hf.onFrame p hp
    · rw [List.mem_singleton.mp hp]
      exact hq
  · rw [← List.concat_eq_append]
    exact hf.nodup.concat hnew
  · exact (hrun'.size.trans hrun.size).trans hf.size
  · have hused₁ := hrun.used
    have hused₂ := hrun'.used
    rw [List.length_append, List.length_singleton]
    omega
  · rw [hmem, not_or] at hxs hys
    rw [hrun'.block a hay hys.1 hys.2, hrun.block a hax hxs.1 hxs.2]
    exact hf.others a hax hay hxs.1 hys.1

/-- **The first pixel is taken**, and the blocks of its nodes are freed. -/
theorem Flooding.dequeue {n : Pixel} (hf : Flooding h₀ h (n :: queue) xs ys) :
    ∃ h' xs' ys', dequeuePixel h₀.brk (h₀.brk + 1) h = some (n, h') ∧
      Flooding h₀ h' queue xs' ys' := by
  obtain ⟨⟨a, d⟩, xs, rfl⟩ := List.exists_cons_of_ne_nil (l := xs) (by
    rintro rfl
    exact absurd hf.columns (by simp))
  obtain ⟨⟨b, e⟩, ys, rfl⟩ := List.exists_cons_of_ne_nil (l := ys) (by
    rintro rfl
    exact absurd hf.rows (by simp))
  obtain ⟨hd, hcolumns⟩ := List.cons.inj hf.columns
  obtain ⟨he, hrows⟩ := List.cons.inj hf.rows
  dsimp only at hd he
  have hax : h₀.brk + 1 < a := hf.aboveX a List.mem_cons_self
  have hby : h₀.brk + 1 < b := hf.aboveY b List.mem_cons_self
  obtain ⟨h₁, hrun, hleft⟩ := hf.qx.dequeue
  have hqy : Owns h₁ (h₀.brk + 1) ((b, e) :: ys) := by
    refine hf.qy.frame hleft.brk.ge (hleft.block _ (by omega) (by omega)) fun c hc =>
      hleft.block c ?_ ?_
    · have habove := hf.aboveY c hc
      omega
    · rintro rfl
      exact hf.apart c List.mem_cons_self hc
  obtain ⟨h₂, hrun', hleft'⟩ := hqy.dequeue
  have hqx' : Owns h₂ h₀.brk xs := by
    refine hleft.owns.frame hleft'.brk.ge (hleft'.block _ (by omega) (by omega)) fun c hc =>
      hleft'.block c ?_ ?_
    · have habove := hf.aboveX c (List.mem_cons_of_mem _ hc)
      omega
    · rintro rfl
      exact hf.apart c (List.mem_cons_of_mem _ hc) List.mem_cons_self
  refine ⟨h₂, xs, ys, ?_, hqx', hleft'.owns,
    fun c hc hcy => hf.apart c (List.mem_cons_of_mem _ hc) (List.mem_cons_of_mem _ hcy),
    fun c hc => hf.aboveX c (List.mem_cons_of_mem _ hc),
    fun c hc => hf.aboveY c (List.mem_cons_of_mem _ hc), hcolumns, hrows,
    fun p hp => hf.onFrame p (List.mem_cons_of_mem n hp), (List.nodup_cons.mp hf.nodup).2,
    (hleft'.size.trans hleft.size).trans hf.size, ?_, fun c hcx hcy hxs hys => ?_⟩
  · rw [dequeuePixel, hrun, Option.bind_eq_bind, Option.bind_some]
    dsimp only
    rw [hrun', Option.bind_some, hd, he]
    exact congrArg (fun p => some (p, _)) (toItem_pixel (hf.onFrame n List.mem_cons_self))
  · have hused := hf.used
    have hused₁ := hleft.used
    have hused₂ := hleft'.used
    rw [List.length_cons] at hused
    omega
  · -- the two blocks freed were not in use on `h₀`
    by_cases hcb : c = b
    · rw [hcb, hleft'.freed, Heap.block_eq_none (by omega)]
    · rw [hleft'.block c hcy hcb]
      by_cases hca : c = a
      · rw [hca, hleft.freed, Heap.block_eq_none (by omega)]
      · rw [hleft.block c hcx hca]
        refine hf.others c hcx hcy ?_ ?_
        · rw [List.map_cons, List.mem_cons, not_or]
          exact ⟨hca, hxs⟩
        · rw [List.map_cons, List.mem_cons, not_or]
          exact ⟨hcb, hys⟩

/-! ## A flood -/

/-- The state agrees with the tables and the queue of `bfs`, in which all pixels have a label. -/
def AgreesOn (h₀ : Heap ℕ) (t : Labels × Heap ℕ) (u : Labels × List Pixel) : Prop :=
  t.1 = u.1 ∧ (∀ p ∈ u.2, u.1.img p ≠ -1) ∧ ∃ xs ys, Flooding h₀ t.2 u.2 xs ys

/-- A label is not -1. -/
theorem Labels.mark_img_ne (cnt : ℕ) (q : Pixel) (s : Labels) {p : Pixel}
    (hp : p = q ∨ s.img p ≠ -1) : (s.mark cnt q).img p ≠ -1 := by
  have hcnt : (cnt : ℤ) ≠ -1 := by omega
  show Function.update s.img q (cnt : ℤ) p ≠ -1
  rw [Function.update_apply]
  split_ifs with heq
  · exact hcnt
  · exact hp.resolve_left heq

/-- **One neighbour.** -/
theorem AgreesOn.visit {t : Labels × Heap ℕ} {u : Labels × List Pixel} (ha : AgreesOn h₀ t u)
    (f : Frame) (cnt : ℕ) (tag : Bool) (n : Pixel) (d : ℤ × ℤ) :
    YieldsUnless (ShortFor h₀) (bfsHeapVisit f cnt tag h₀.brk (h₀.brk + 1) n t d)
      (AgreesOn h₀ · (bfsVisit f cnt tag n u d)) := by
  obtain ⟨s, h⟩ := t
  obtain ⟨s', queue⟩ := u
  obtain ⟨rfl, hlabels, xs, ys, hf⟩ := ha
  dsimp only at hf hlabels
  unfold bfsHeapVisit bfsVisit
  dsimp only
  split_ifs with hskip hother htag
  · exact .of_some ⟨rfl, hlabels, xs, ys, hf⟩
  · exact .of_some ⟨rfl, hlabels, xs, ys, hf⟩
  · exact .of_some ⟨rfl, hlabels, xs, ys, hf⟩
  · obtain ⟨hframe, hfree⟩ := not_or.mp hskip
    refine (hf.enqueue (not_not.mp hframe) fun hmem => hlabels _ hmem (not_not.mp hfree)).bind ?_
    rintro h' ⟨xs', ys', hf'⟩
    refine .of_some ⟨rfl, fun p hp => Labels.mark_img_ne _ _ _ ?_, xs', ys', hf'⟩
    rcases List.mem_append.mp hp with hp | hp
    · exact Or.inr (hlabels p hp)
    · exact Or.inl (List.mem_singleton.mp hp)

/-- **The loop ends with both queues empty**, by induction on the fuel. -/
theorem AgreesOn.loop (f : Frame) (cnt : ℕ) (dirs : List (ℤ × ℤ)) (tag : Bool) (fuel : ℕ) :
    ∀ {t : Labels × Heap ℕ} {u r : Labels × List Pixel}, AgreesOn h₀ t u →
      bfsLoop f cnt dirs tag fuel u = some r →
      YieldsUnless (ShortFor h₀) (bfsHeapLoop f cnt dirs tag h₀.brk (h₀.brk + 1) fuel t) fun t' =>
        t'.1 = r.1 ∧ Flooding h₀ t'.2 [] [] [] := by
  induction fuel with
  | zero => exact fun _ hrun => absurd hrun (by simp [bfsLoop])
  | succ fuel ih =>
      rintro ⟨s, h⟩ ⟨s', queue⟩ r ⟨heq, hlabels, xs, ys, hf⟩ hrun
      obtain rfl : s = s' := heq
      dsimp only at hf hlabels
      obtain ⟨q, hq, hrep⟩ := hf.qx
      cases queue with
      | nil =>
          obtain rfl := List.map_eq_nil_iff.mp hf.columns
          obtain rfl := List.map_eq_nil_iff.mp hf.rows
          have hempty : q.isEmpty = true := hrep.isEmpty_iff.mpr rfl
          obtain rfl := Option.some.inj hrun
          rw [bfsHeapLoop, hq, Option.bind_eq_bind, Option.bind_some, if_pos hempty]
          exact .of_some ⟨rfl, hf⟩
      | cons n queue =>
          have hsome : ¬ q.isEmpty = true := by
            rw [hrep.isEmpty_iff]
            rintro rfl
            exact absurd hf.columns (by simp)
          obtain ⟨h', xs', ys', hdequeue, hf'⟩ := hf.dequeue
          rw [bfsHeapLoop, hq, Option.bind_eq_bind, Option.bind_some, if_neg hsome, hdequeue]
          have hstart : AgreesOn h₀ (s, h') (s, queue) :=
            ⟨rfl, fun p hp => hlabels p (List.mem_cons_of_mem n hp), xs', ys', hf'⟩
          exact (YieldsUnless.foldlM (fun t u d ha => ha.visit f cnt tag n d) dirs hstart).bind
            fun t' ha' => ih ha' hrun

/-- Two empty queues, and nothing else new. -/
theorem Flooding.live (hf : Flooding h₀ h [] [] []) :
    h.live = h₀.live ++ List.replicate 2 (.queue .create) := by
  have hheader : ∀ {p : ℕ}, Owns h p [] → h.block p = some (.queue .create) := by
    rintro p ⟨⟨head, tail⟩, hq, hrep⟩
    obtain rfl : head = none := hrep.head
    obtain rfl : tail = none := hrep.tail
    exact Heap.queue_eq_some.mp hq
  refine Heap.live_eq_append ?_ (fun a ha => ?_) (fun i => ?_)
  · have hlt := hf.qy.header_lt
    rw [List.length_replicate]
    omega
  · exact hf.others a (by omega) (by omega) List.not_mem_nil List.not_mem_nil
  · rcases i with _ | _ | i
    · exact hheader hf.qx
    · exact hheader hf.qy
    · rw [hf.others _ (by omega) (by omega) List.not_mem_nil List.not_mem_nil,
        Heap.block_eq_none (by omega)]
      rfl

/-- **What floods leave** of a heap: the headers of the queues of `k` of them. -/
structure Leaks (h : Heap ℕ) (k : ℕ) (h' : Heap ℕ) : Prop where
  size : h'.size = h.size
  live : h'.live = h.live ++ List.replicate (2 * k) (.queue .create)

theorem leaks_zero (h : Heap ℕ) : Leaks h 0 h := ⟨rfl, (List.append_nil _).symm⟩

theorem Leaks.trans {h h' h'' : Heap ℕ} {k l : ℕ} (hl : Leaks h k h') (hl' : Leaks h' l h'') :
    Leaks h (k + l) h'' := by
  refine ⟨hl'.size.trans hl.size, ?_⟩
  rw [hl'.live, hl.live, List.append_assoc, ← List.replicate_add, Nat.mul_add]

/-- How much more is in use. -/
theorem Leaks.used {h h' : Heap ℕ} {k : ℕ} (hl : Leaks h k h') : h'.used = h.used + 2 * k := by
  rw [← Heap.length_live, hl.live, List.length_append, List.length_replicate, Heap.length_live]

/-- **A flood on the heap** computes what `bfs` does and leaves its two headers. -/
theorem yieldsUnless_bfsHeap {f : Frame} {fuel : ℕ} {x : Pixel} (hx : OnFrame x)
    {cnt four_or_8 : ℕ} {tag : Bool} {s s' : Labels}
    (hrun : bfs f fuel x cnt four_or_8 tag s = some s') (h : Heap ℕ) :
    YieldsUnless (ShortFor h) (bfsHeap f fuel x cnt four_or_8 tag h s) fun t =>
      t.1 = s' ∧ Leaks h 1 t.2 := by
  obtain ⟨r, hloop, rfl⟩ := Option.map_eq_some_iff.mp hrun
  refine (yieldsUnless_createQueues h).bind ?_
  rintro ⟨qx, qy, h₁⟩ ⟨hqx, hqy, hf⟩
  dsimp only at hqx hqy hf
  subst hqx hqy
  refine (hf.enqueue hx List.not_mem_nil).bind ?_
  rintro h₂ ⟨xs, ys, hf'⟩
  have hstart : AgreesOn h (s.mark cnt x, h₂) (s.mark cnt x, [x]) :=
    ⟨rfl, fun p hp => Labels.mark_img_ne _ _ _ (Or.inl (List.mem_singleton.mp hp)), xs, ys, hf'⟩
  exact (hstart.loop f cnt (dir.take four_or_8) tag fuel hloop).imp id fun t ht =>
    ⟨ht.1, ht.2.size, ht.2.live⟩

/-! ## All floods -/

/-- There is too little room for `k` floods, the last of them with its two nodes for each pixel. -/
def ShortForAll (h : Heap ℕ) (k : ℕ) : Prop := h.size < h.used + 2 * k + 2 * framePixels.length

theorem ShortForAll.mono {h : Heap ℕ} {k l : ℕ} (hshort : ShortForAll h k) (hkl : k ≤ l) :
    ShortForAll h l := by
  unfold ShortForAll at hshort ⊢
  omega

/-- Too little room is left for more floods. -/
theorem Leaks.short {h h' : Heap ℕ} {k l : ℕ} (hl : Leaks h k h') (hshort : ShortForAll h' l) :
    ShortForAll h (k + l) := by
  have hsize := hl.size
  have hused := hl.used
  unfold ShortForAll at hshort ⊢
  omega

/-- **The floods that are started** go on, each with its two headers. -/
theorem yieldsUnless_startFloodHeap {f : Frame} {fuel four_or_8 : ℕ} {tag : Bool}
    {test : Pixel → Bool} {t t' : Labels × ℕ} {q : Pixel} (hq : OnFrame q)
    (hrun : startFlood f fuel four_or_8 tag test t q = some t') (h : Heap ℕ) :
    t.2 ≤ t'.2 ∧ YieldsUnless (ShortForAll h (t'.2 - t.2))
      (startFloodHeap f fuel four_or_8 tag test (t, h) q) fun r =>
        r.1 = t' ∧ Leaks h (t'.2 - t.2) r.2 := by
  unfold startFlood at hrun
  unfold startFloodHeap
  split_ifs at hrun ⊢ with htest
  · obtain ⟨s, hs, heq⟩ := Option.bind_eq_some_iff.mp hrun
    obtain rfl := Option.some.inj heq
    refine ⟨t.2.le_succ, ?_⟩
    dsimp only
    rw [Nat.add_sub_cancel_left]
    refine ((yieldsUnless_bfsHeap hq hs h).imp id fun _ => id).bind ?_
    rintro ⟨s', h'⟩ ⟨rfl, hleaks⟩
    exact .of_some ⟨rfl, hleaks⟩
  · obtain rfl := Option.some.inj hrun
    refine ⟨le_rfl, ?_⟩
    rw [Nat.sub_self]
    exact .of_some ⟨rfl, leaks_zero h⟩

/-- The loop over the seeds. -/
theorem yieldsUnless_startFloodsHeap {f : Frame} {fuel four_or_8 : ℕ} {tag : Bool}
    {test : Pixel → Bool} (l : List Pixel) : ∀ {t t' : Labels × ℕ}, (∀ q ∈ l, OnFrame q) →
      l.foldlM (startFlood f fuel four_or_8 tag test) t = some t' → ∀ h : Heap ℕ,
      t.2 ≤ t'.2 ∧ YieldsUnless (ShortForAll h (t'.2 - t.2))
        (l.foldlM (startFloodHeap f fuel four_or_8 tag test) (t, h)) fun r =>
          r.1 = t' ∧ Leaks h (t'.2 - t.2) r.2 := by
  induction l with
  | nil =>
      intro t t' _ hrun h
      obtain rfl := Option.some.inj hrun
      refine ⟨le_rfl, ?_⟩
      rw [Nat.sub_self]
      exact .of_some ⟨rfl, leaks_zero h⟩
  | cons q l ih =>
      intro t t' hl hrun h
      rw [List.foldlM_cons] at hrun
      obtain ⟨u, hu, hrun⟩ := Option.bind_eq_some_iff.mp hrun
      obtain ⟨hle₁, hfirst⟩ := yieldsUnless_startFloodHeap (hl q List.mem_cons_self) hu h
      have hle₂ : u.2 ≤ t'.2 := (ih (fun p hp => hl p (List.mem_cons_of_mem q hp)) hrun h).1
      have hsum : t'.2 - t.2 = (u.2 - t.2) + (t'.2 - u.2) := by omega
      refine ⟨hle₁.trans hle₂, ?_⟩
      rw [List.foldlM_cons, hsum]
      refine (hfirst.imp (fun hshort => hshort.mono (Nat.le_add_right _ _)) fun _ => id).bind ?_
      rintro ⟨u', h₁⟩ ⟨hu', hleaks⟩
      dsimp only at hu' hleaks
      subst hu'
      exact (ih (fun p hp => hl p (List.mem_cons_of_mem q hp)) hrun h₁).2.imp hleaks.short
        fun r hr => ⟨hr.1, hleaks.trans hr.2⟩

/-- **All floods of a frame** on the heap: they compute what `floods` does, and leave two headers
for each region. -/
theorem yieldsUnless_floodsHeap (f : Frame) (block : ℕ → Blob) :
    ∃ N t, t.2 = (regionSets f).ncard + (whiteSets f).ncard ∧ ∀ fuel, N ≤ fuel →
      floods f fuel (⟨fun _ => -1, block, []⟩, 0) = some t ∧ ∀ h : Heap ℕ,
        YieldsUnless (ShortForAll h t.2)
          (floodsHeap f fuel ((⟨fun _ => -1, block, []⟩, 0), h)) fun r =>
            r.1 = t ∧ Leaks h t.2 r.2 := by
  obtain ⟨N, t, rs, hregions, hrun⟩ := regions_ends f
  obtain ⟨M, t', ps, hpictures, hrun'⟩ := hregions.pictures_ends
  have hstart : (⟨fun _ => -1, block, []⟩, 0) =
      overFst block ((⟨fun _ => -1, fun _ => ⟨0, 0, 0⟩, []⟩, 0) : Labels × ℕ) := by
    simp [overFst, Labels.over, Blob.plus]
  refine ⟨max N M, overFst block t', ?_, fun fuel hfuel => ?_⟩
  · show t'.2 = _
    rw [hpictures.tally.cnt, hregions.ncard, (PicturesFound.ncard hregions hpictures).2,
      List.length_append]
  · have hwindow : window.foldlM (startRegion f fuel) (⟨fun _ => -1, block, []⟩, 0) =
        some (overFst block t) := by
      have hom := foldlM_hom (overFst block) (startFlood_over block f fuel 4 true (isSeed f)) window
        (⟨fun _ => -1, fun _ => ⟨0, 0, 0⟩, []⟩, 0)
      rw [hstart]
      refine hom.trans ?_
      rw [← startRegion, hrun fuel ((le_max_left N M).trans hfuel)]
      rfl
    have hedge : t.1.edge.foldlM (startPicture f fuel) (overFst block t) =
        some (overFst block t') := by
      refine (foldlM_hom (overFst block) (startFlood_over block f fuel 8 false (isWhite f))
        t.1.edge t).trans ?_
      rw [← startPicture, hrun' fuel ((le_max_right N M).trans hfuel)]
      rfl
    constructor
    · rw [floods, hwindow]
      exact hedge
    · intro h
      have hframe : ∀ q ∈ (overFst block t).1.edge, OnFrame q := fun q hq => by
        obtain ⟨l, -, p, -, hnext⟩ := (hregions.edge q).mp hq
        exact hnext.2.1
      obtain ⟨hle, hfirst⟩ := yieldsUnless_startFloodsHeap window window_onFrame hwindow h
      have hle' := (yieldsUnless_startFloodsHeap _ hframe hedge h).1
      rw [floodsHeap, ← Nat.add_sub_of_le hle']
      refine (hfirst.imp (fun hshort => hshort.mono (Nat.le_add_right _ _)) fun _ => id).bind ?_
      rintro ⟨u, h₁⟩ ⟨rfl, hleaks⟩
      dsimp only at hleaks
      exact (yieldsUnless_startFloodsHeap _ hframe hedge h₁).2.imp hleaks.short
        fun r hr => ⟨hr.1, hleaks.trans hr.2⟩

/-! ## Calls of `find_pic` -/

/-- The camera takes a frame that is accepted, with `g` in it, after some that are not. -/
def Accepts (images : List Camera) (g : Frame) : Prop :=
  ∃ rejected image rest, images = rejected ++ image :: rest ∧
    (∀ other ∈ rejected, Rejected other) ∧ AcceptedAs image g

/-- The regions flooded in a frame: those from the window, and the white ones. -/
noncomputable def floodCount (g : Frame) : ℕ := (regionSets g).ncard + (whiteSets g).ncard

/-- **One call** computes what `find_pic` does, and leaves two headers for each region. -/
theorem yieldsUnless_findPicHeap {images : List Camera} {g : Frame} (himages : Accepts images g)
    (s : Vision) :
    ∃ N s' rest, ∀ fuel, N ≤ fuel → findPic fuel images s = some (s', rest) ∧ ∀ h : Heap ℕ,
      YieldsUnless (ShortForAll h (floodCount g)) (findPicHeap fuel images (s, h)) fun r =>
        r.1.1 = s' ∧ Leaks h (floodCount g) r.1.2 := by
  obtain ⟨rejected, image, rest, rfl, hrejected, himage⟩ := himages
  obtain ⟨N, hloop⟩ := a4Loop_of_rejected himage rejected rest hrejected
  obtain ⟨M, t, hcnt, hfloods⟩ := yieldsUnless_floodsHeap g s.labels.block
  refine ⟨max N M, (s.list t).place (seenCorners image), rest, fun fuel hfuel => ?_⟩
  obtain ⟨hrun, hheap⟩ := hfloods fuel ((le_max_right N M).trans hfuel)
  have hseen := hloop fuel ((le_max_left N M).trans hfuel)
  constructor
  · rw [findPic, hseen, Option.bind_eq_bind, Option.bind_some]
    dsimp only
    rw [initVision, hrun]
    rfl
  · intro h
    rw [findPicHeap, hseen, Option.bind_eq_bind, Option.bind_some]
    dsimp only
    have hend := hheap h
    rw [hcnt] at hend
    refine hend.bind ?_
    rintro ⟨t', h'⟩ ⟨rfl, hleaks⟩
    exact .of_some ⟨rfl, hleaks⟩

/-- The regions flooded in all calls. -/
noncomputable def floodTotal (calls : List (List Camera × Frame)) : ℕ :=
  (calls.map fun call => floodCount call.2).sum

/-- Calls, one after the other. -/
theorem yieldsUnless_findPics (calls : List (List Camera × Frame))
    (hcalls : ∀ call ∈ calls, Accepts call.1 call.2) (s : Vision) :
    ∃ N s', ∀ fuel, N ≤ fuel → findPicRun fuel (calls.map Prod.fst) s = some s' ∧
      ∀ h : Heap ℕ, YieldsUnless (ShortForAll h (floodTotal calls))
        (findPics fuel (calls.map Prod.fst) (s, h)) fun r =>
          r.1 = s' ∧ Leaks h (floodTotal calls) r.2 := by
  induction calls generalizing s with
  | nil => exact ⟨0, s, fun _ _ => ⟨rfl, fun h => .of_some ⟨rfl, leaks_zero h⟩⟩⟩
  | cons call calls ih =>
      obtain ⟨N, s₁, rest, hcall⟩ := yieldsUnless_findPicHeap (hcalls call List.mem_cons_self) s
      obtain ⟨M, s₂, hrest⟩ := ih (fun c hc => hcalls c (List.mem_cons_of_mem call hc)) s₁
      refine ⟨max N M, s₂, fun fuel hfuel => ?_⟩
      obtain ⟨hrun₁, hheap₁⟩ := hcall fuel ((le_max_left N M).trans hfuel)
      obtain ⟨hrun₂, hheap₂⟩ := hrest fuel ((le_max_right N M).trans hfuel)
      have htotal : floodTotal (call :: calls) = floodCount call.2 + floodTotal calls := by
        rw [floodTotal, List.map_cons, List.sum_cons, floodTotal]
      rw [htotal]
      constructor
      · rw [List.map_cons, findPicRun, hrun₁]
        exact hrun₂
      · intro h
        rw [List.map_cons, findPics]
        refine ((hheap₁ h).imp (fun hshort => hshort.mono (Nat.le_add_right _ _))
          fun _ => id).bind ?_
        rintro ⟨⟨s', h₁⟩, rest'⟩ ⟨rfl, hleaks⟩
        dsimp only at hleaks
        exact (hheap₂ h₁).imp hleaks.short fun r hr => ⟨hr.1, hleaks.trans hr.2⟩

/-- **Any number of calls**, on any heap. With room for two headers for each region flooded, in all
frames accepted, and two nodes for each pixel of a frame, they compute what `find_pic` does without
a heap, all nodes are given back, and in use there remain exactly these headers. With less room
they do just the same, unless a request fails and a null pointer is followed; and one does fail
once there is no room for the headers. -/
theorem findPics_leak (calls : List (List Camera × Frame))
    (hcalls : ∀ call ∈ calls, Accepts call.1 call.2) (s : Vision) :
    ∃ N s', ∀ fuel, N ≤ fuel → findPicRun fuel (calls.map Prod.fst) s = some s' ∧
      ∀ h : Heap ℕ,
        (h.live.length + 2 * floodTotal calls + 2 * 22560 ≤ h.size →
          findPics fuel (calls.map Prod.fst) (s, h) ≠ none) ∧
        (∀ r, findPics fuel (calls.map Prod.fst) (s, h) = some r → r.1 = s' ∧
          r.2.live = h.live ++ List.replicate (2 * floodTotal calls) (.queue .create)) ∧
        (h.size < h.live.length + 2 * floodTotal calls →
          findPics fuel (calls.map Prod.fst) (s, h) = none) := by
  obtain ⟨N, s', hrun⟩ := yieldsUnless_findPics calls hcalls s
  refine ⟨N, s', fun fuel hfuel => ⟨(hrun fuel hfuel).1, fun h => ?_⟩⟩
  obtain ⟨hnone, hshort⟩ | ⟨r, hsome, hr, hleaks⟩ := (hrun fuel hfuel).2 h
  · refine ⟨fun hroom => ?_, fun r hsome => ?_, fun _ => hnone⟩
    · rw [ShortForAll, length_framePixels] at hshort
      rw [Heap.length_live] at hroom
      exact absurd hroom (Nat.not_le.mpr hshort)
    · exact absurd (hnone.symm.trans hsome) (by simp)
  · refine ⟨fun _ => hsome.symm ▸ Option.some_ne_none r, fun r' hsome' => ?_, fun hfull => ?_⟩
    · obtain rfl := Option.some.inj (hsome.symm.trans hsome')
      exact ⟨hr, hleaks.live⟩
    · have hfits := r.2.used_le
      rw [hleaks.used, hleaks.size] at hfits
      rw [Heap.length_live] at hfull
      exact absurd hfits (Nat.not_le.mpr hfull)

/-- Two calls on the frame with the dash, on an empty heap of 60000 blocks. -/
theorem findPics_leak_dash : ∃ N s', ∀ fuel, N ≤ fuel →
    findPicRun fuel [[dash.image], [dash.image]] Vision.boot = some s' ∧
      ∃ h', findPics fuel [[dash.image], [dash.image]] (Vision.boot, ⟨60000, [], Nat.zero_le _⟩) =
          some (s', h') ∧
        h'.live = List.replicate (2 * floodTotal [([dash.image], dash.field),
          ([dash.image], dash.field)]) (.queue .create) := by
  have haccepts : Accepts [dash.image] dash.field :=
    ⟨[], dash.image, [], rfl, fun _ h => absurd h List.not_mem_nil, dash.acceptedAs⟩
  obtain ⟨N, s', hrun⟩ := findPics_leak [([dash.image], dash.field), ([dash.image], dash.field)]
    (fun call hcall => by
      have heq : call = ([dash.image], dash.field) := by simpa using hcall
      rw [heq]
      exact haccepts) Vision.boot
  refine ⟨N, s', fun fuel hfuel => ⟨(hrun fuel hfuel).1, ?_⟩⟩
  obtain ⟨hroom, hsome, -⟩ := (hrun fuel hfuel).2 ⟨60000, [], Nat.zero_le _⟩
  have hcount : floodTotal [([dash.image], dash.field), ([dash.image], dash.field)] ≤ 50 := by
    have hdash : floodCount dash.field ≤ 25 := dash_fits.1
    simp only [floodTotal, List.map_cons, List.map_nil, List.sum_cons, List.sum_nil]
    omega
  have hlength : (⟨60000, [], Nat.zero_le _⟩ : Heap ℕ).live.length = 0 := rfl
  generalize floodTotal [([dash.image], dash.field), ([dash.image], dash.field)] = total at *
  rw [hlength] at hroom
  obtain ⟨⟨s'', h'⟩, heq⟩ := Option.ne_none_iff_exists'.mp (hroom (by dsimp only; omega))
  obtain ⟨rfl, hlive⟩ := hsome _ heq
  exact ⟨h', heq, hlive⟩

end HandlingRobot
