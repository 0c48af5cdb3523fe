import HandlingRobot.Library.Exploration
import Mathlib.Data.Finset.Prod
import Mathlib.Data.Int.Interval
import Mathlib.Order.Interval.Finset.Nat

/-! # Flooding a region of the frame

`BFS` labels the pixels that are connected with its seed and have its colour. It counts them and
adds up their coordinates in an entry of `block`, and on demand it records the pixels of the other
colour it meets in `edge`.

* **`Frame`**, **`Labels`** — `img_origin`, and the tables that a flood writes.
* **`bfs`** — the flood.
* **`Labels.flooded`** — what the tables hold afterwards, as a specification.
* **`bfs_ends`** — every flood ends, and with these tables. -/

namespace HandlingRobot

/-! ## The frame -/

/-- A pixel, column and row. Those of the frame fit the `uint8_t` of the queue and of `edge`. -/
abbrev Pixel := ℤ × ℤ

/-- `img_origin`. -/
abbrev Frame := ℤ → ℤ → ℕ

/-- `img_width` and `img_height`. -/
def imgWidth : ℤ := 188
@[inherit_doc imgWidth] def imgHeight : ℤ := 120

/-- The pixel lies on the frame. -/
def OnFrame (q : Pixel) : Prop := 0 ≤ q.1 ∧ q.1 < imgWidth ∧ 0 ≤ q.2 ∧ q.2 < imgHeight

instance (q : Pixel) : Decidable (OnFrame q) := inferInstanceAs (Decidable (_ ∧ _ ∧ _ ∧ _))

/-- The pixel is 255. -/
def isWhite (f : Frame) (q : Pixel) : Bool := f q.1 q.2 == 255

/-- `dir`, the four neighbours first. -/
def dir : List (ℤ × ℤ) := [(-1, 0), (0, -1), (1, 0), (0, 1), (-1, 1), (1, -1), (-1, -1), (1, 1)]

/-- The directions lead to different pixels. -/
theorem dir_map_nodup (k : ℕ) (p : Pixel) :
    ((dir.take k).map fun d => (p.1 + d.1, p.2 + d.2)).Nodup := by
  have hdir : dir.Nodup := by decide
  refine (hdir.sublist (List.take_sublist k dir)).map ?_
  intro d e hde
  obtain ⟨h1, h2⟩ := Prod.mk.inj hde
  exact Prod.ext (by omega) (by omega)

/-! ## The flood -/

/-- `blob`, without the fields that this part does not set. -/
structure Blob where
  num : ℤ
  sumX : ℤ
  sumY : ℤ
  deriving Repr, DecidableEq

/-- One more pixel. -/
def Blob.add (b : Blob) (q : Pixel) : Blob := ⟨b.num + 1, b.sumX + q.1, b.sumY + q.2⟩

/-- The tables `img`, `block` and `edge`, the last one up to `tot`. -/
structure Labels where
  img : Pixel → ℤ
  block : ℕ → Blob
  edge : List Pixel

/-- The pixel `q` gets the label `cnt`. -/
def Labels.mark (cnt : ℕ) (q : Pixel) (s : Labels) : Labels :=
  { s with
    img := Function.update s.img q cnt
    block := Function.update s.block cnt ((s.block cnt).add q) }

/-- The neighbour of `n` in the direction `d`. -/
def bfsVisit (f : Frame) (cnt : ℕ) (tag : Bool) (n : Pixel) (t : Labels × List Pixel) (d : ℤ × ℤ) :
    Labels × List Pixel :=
  let q := (n.1 + d.1, n.2 + d.2)
  if ¬ OnFrame q ∨ t.1.img q ≠ -1 then t
  else if xor (isWhite f n) (isWhite f q) then
    (if tag then { t.1 with edge := t.1.edge ++ [q] } else t.1, t.2)
  else (t.1.mark cnt q, t.2 ++ [q])

/-- The loop `while (!is_empty(qx))`. -/
def bfsLoop (f : Frame) (cnt : ℕ) (dirs : List (ℤ × ℤ)) (tag : Bool) :
    ℕ → Labels × List Pixel → Option (Labels × List Pixel)
  | 0, _ => none
  | _ + 1, (s, []) => some (s, [])
  | fuel + 1, (s, n :: queue) =>
      bfsLoop f cnt dirs tag fuel (dirs.foldl (bfsVisit f cnt tag n) (s, queue))

/-- **`BFS(x, y, cnt, _4or_8, tag)`**; `none` when the fuel does not last. -/
def bfs (f : Frame) (fuel : ℕ) (x : Pixel) (cnt four_or_8 : ℕ) (tag : Bool) (s : Labels) :
    Option Labels :=
  (bfsLoop f cnt (dir.take four_or_8) tag fuel (s.mark cnt x, [x])).map Prod.fst

/-! ## What a flood does -/

/-- The pixels next to `p` that have no label in `s` yet, those of the colour of `p` and those of
the other one. -/
def spread (f : Frame) (s : Labels) (dirs : List (ℤ × ℤ)) (p : Pixel) : List Pixel :=
  (dirs.map fun d => (p.1 + d.1, p.2 + d.2)).filter fun q =>
    OnFrame q ∧ s.img q = -1 ∧ isWhite f q = isWhite f p
@[inherit_doc spread] def border (f : Frame) (s : Labels) (dirs : List (ℤ × ℤ)) (p : Pixel) :
    List Pixel :=
  (dirs.map fun d => (p.1 + d.1, p.2 + d.2)).filter fun q =>
    OnFrame q ∧ s.img q = -1 ∧ isWhite f q ≠ isWhite f p

/-- **The tables after a flood** of the pixels `l` that met the pixels `es`. -/
def Labels.flooded (s : Labels) (cnt : ℕ) (l es : List Pixel) : Labels where
  img q := if q ∈ l then cnt else s.img q
  block := Function.update s.block cnt (l.foldl Blob.add (s.block cnt))
  edge := s.edge ++ es

theorem mem_spread {f : Frame} {s : Labels} {dirs : List (ℤ × ℤ)} {p q : Pixel} :
    q ∈ spread f s dirs p ↔ (∃ d ∈ dirs, (p.1 + d.1, p.2 + d.2) = q) ∧
      OnFrame q ∧ s.img q = -1 ∧ isWhite f q = isWhite f p := by
  rw [spread, List.mem_filter, List.mem_map, decide_eq_true_eq]

theorem mem_border {f : Frame} {s : Labels} {dirs : List (ℤ × ℤ)} {p q : Pixel} :
    q ∈ border f s dirs p ↔ (∃ d ∈ dirs, (p.1 + d.1, p.2 + d.2) = q) ∧
      OnFrame q ∧ s.img q = -1 ∧ isWhite f q ≠ isWhite f p := by
  rw [border, List.mem_filter, List.mem_map, decide_eq_true_eq]

section Simulation

variable {f : Frame} {s : Labels} {cnt : ℕ} {white : Bool}

/-- **The exploration behind a flood** of colour `white`: the tables are those of the pixels found,
and `es` are the pixels met. -/
structure Floods (f : Frame) (s : Labels) (cnt : ℕ) (white : Bool) (t : Labels × List Pixel)
    (e : Exploration Pixel) (es : List Pixel) : Prop where
  queue : t.2 = e.queue
  tables : t.1 = s.flooded cnt e.found es
  colour : ∀ q ∈ e.found, isWhite f q = white

/-- One more pixel found. -/
theorem Labels.mark_flooded (s : Labels) (cnt : ℕ) (l es : List Pixel) (q : Pixel) :
    (s.flooded cnt l es).mark cnt q = s.flooded cnt (l ++ [q]) es := by
  have himg : ((s.flooded cnt l es).mark cnt q).img = (s.flooded cnt (l ++ [q]) es).img := by
    funext r
    simp only [Labels.mark, Labels.flooded, Function.update_apply, List.mem_append,
      List.mem_singleton]
    by_cases hr : r = q <;> simp [hr]
  have hblock : ((s.flooded cnt l es).mark cnt q).block =
      (s.flooded cnt (l ++ [q]) es).block := by
    simp only [Labels.mark, Labels.flooded, Function.update_self, Function.update_idem,
      List.foldl_append, List.foldl_cons, List.foldl_nil]
  calc (s.flooded cnt l es).mark cnt q
      = ⟨((s.flooded cnt l es).mark cnt q).img, ((s.flooded cnt l es).mark cnt q).block,
          s.edge ++ es⟩ := rfl
    _ = s.flooded cnt (l ++ [q]) es := by rw [himg, hblock]; rfl

/-- One more pixel met. -/
theorem Labels.flooded_edge {l es : List Pixel} (q : Pixel) :
    { s.flooded cnt l es with edge := (s.flooded cnt l es).edge ++ [q] } =
      s.flooded cnt l (es ++ [q]) := by
  unfold Labels.flooded
  rw [List.append_assoc]

theorem spread_single {d : ℤ × ℤ} {p q : Pixel} (hq : (p.1 + d.1, p.2 + d.2) = q) :
    spread f s [d] p =
      if OnFrame q ∧ s.img q = -1 ∧ isWhite f q = isWhite f p then [q] else [] := by
  simp only [spread, List.map_cons, List.map_nil, hq, List.filter_cons, List.filter_nil,
    decide_eq_true_eq]

theorem border_single {d : ℤ × ℤ} {p q : Pixel} (hq : (p.1 + d.1, p.2 + d.2) = q) :
    border f s [d] p =
      if OnFrame q ∧ s.img q = -1 ∧ isWhite f q ≠ isWhite f p then [q] else [] := by
  simp only [border, List.map_cons, List.map_nil, hq, List.filter_cons, List.filter_nil,
    decide_eq_true_eq]

theorem bfsVisit_eq {tag : Bool} {t : Labels × List Pixel} {d : ℤ × ℤ} {p q : Pixel}
    (hq : (p.1 + d.1, p.2 + d.2) = q) : bfsVisit f cnt tag p t d =
      if ¬ OnFrame q ∨ t.1.img q ≠ -1 then t
      else if xor (isWhite f p) (isWhite f q) then
        (if tag then { t.1 with edge := t.1.edge ++ [q] } else t.1, t.2)
      else (t.1.mark cnt q, t.2 ++ [q]) := by
  rw [← hq]
  rfl

theorem Floods.img_eq {t : Labels × List Pixel} {e : Exploration Pixel} {es : List Pixel}
    (h : Floods f s cnt white t e es) (q : Pixel) :
    t.1.img q = if q ∈ e.found then (cnt : ℤ) else s.img q := by
  rw [h.tables]
  rfl

section Visit

variable {t : Labels × List Pixel} {e : Exploration Pixel} {es : List Pixel} {tag : Bool}
  {d : ℤ × ℤ} {p q : Pixel}

/-- A free neighbour of the same colour is found. -/
theorem Floods.visit_same (h : Floods f s cnt white t e es) (hp : isWhite f p = white)
    (hq : (p.1 + d.1, p.2 + d.2) = q) (hframe : OnFrame q) (hnew : s.img q = -1)
    (hsame : isWhite f q = isWhite f p) :
    Floods f s cnt white (bfsVisit f cnt tag p t d) (e.visit q) es := by
  have himg := h.img_eq q
  rw [bfsVisit_eq hq]
  by_cases hfound : q ∈ e.found
  · -- labelled by this flood already
    rw [if_pos hfound] at himg
    rw [if_pos (Or.inr (by omega)), Exploration.visit, if_pos hfound]
    exact h
  · rw [if_neg hfound, hnew] at himg
    rw [if_neg (by simp [hframe, himg]), hsame, Bool.xor_self, if_neg Bool.false_ne_true]
    have hgrown : (e.visit q).found = e.found ++ [q] := by
      rw [Exploration.visit_found, if_neg hfound]
    refine ⟨?_, ?_, fun r hr => ?_⟩
    · rw [Exploration.visit, if_neg hfound, h.queue]
    · rw [hgrown, h.tables, Labels.mark_flooded]
    · rcases Exploration.mem_visit_found.mp hr with hr | rfl
      · exact h.colour r hr
      · rw [hsame, hp]

/-- A free neighbour of the other colour is met. -/
theorem Floods.visit_other (h : Floods f s cnt white t e es) (hp : isWhite f p = white)
    (hq : (p.1 + d.1, p.2 + d.2) = q) (hframe : OnFrame q) (hnew : s.img q = -1)
    (hother : isWhite f q ≠ isWhite f p) :
    Floods f s cnt white (bfsVisit f cnt tag p t d) e (es ++ if tag then [q] else []) := by
  -- no pixel found has the other colour
  have hfound : q ∉ e.found := fun hmem => hother ((h.colour q hmem).trans hp.symm)
  have himg := h.img_eq q
  rw [if_neg hfound, hnew] at himg
  have hxor : xor (isWhite f p) (isWhite f q) = true :=
    bne_iff_ne.mpr fun heq => hother heq.symm
  rw [bfsVisit_eq hq, if_neg (by simp [hframe, himg]), if_pos hxor]
  refine ⟨h.queue, ?_, h.colour⟩
  cases tag with
  | false => exact h.tables.trans (by simp)
  | true =>
      dsimp only
      rw [if_pos rfl, if_pos rfl, h.tables]
      exact Labels.flooded_edge q

/-- A neighbour off the frame, or labelled before this flood, is passed over. -/
theorem Floods.visit_skip (h : Floods f s cnt white t e es) (hq : (p.1 + d.1, p.2 + d.2) = q)
    (hfree : ¬ (OnFrame q ∧ s.img q = -1)) : bfsVisit f cnt tag p t d = t := by
  rw [bfsVisit_eq hq]
  refine if_pos ?_
  by_cases hframe : OnFrame q
  · right
    rw [h.img_eq q]
    split_ifs with hfound
    · omega
    · exact fun hnew => hfree ⟨hframe, hnew⟩
  · exact Or.inl hframe

end Visit

/-- **One neighbour**: it is found, or met, or passed over. -/
theorem Floods.visit (tag : Bool) {t : Labels × List Pixel} {e : Exploration Pixel}
    {es : List Pixel} (h : Floods f s cnt white t e es) {p : Pixel} (hp : isWhite f p = white)
    (d : ℤ × ℤ) :
    Floods f s cnt white (bfsVisit f cnt tag p t d)
      ((spread f s [d] p).foldl Exploration.visit e)
      (es ++ if tag then border f s [d] p else []) := by
  obtain ⟨q, hq⟩ : ∃ q, (p.1 + d.1, p.2 + d.2) = q := ⟨_, rfl⟩
  have hspread := spread_single (f := f) (s := s) hq
  have hborder := border_single (f := f) (s := s) hq
  by_cases hfree : OnFrame q ∧ s.img q = -1
  · obtain ⟨hframe, hnew⟩ := hfree
    by_cases hsame : isWhite f q = isWhite f p
    · rw [if_pos ⟨hframe, hnew, hsame⟩] at hspread
      rw [if_neg fun hno => hno.2.2 hsame] at hborder
      rw [hspread, hborder, ite_self, List.append_nil]
      exact h.visit_same hp hq hframe hnew hsame
    · rw [if_neg fun hno => hsame hno.2.2] at hspread
      rw [if_pos ⟨hframe, hnew, hsame⟩] at hborder
      rw [hspread, hborder]
      exact h.visit_other hp hq hframe hnew hsame
  · rw [if_neg fun hno => hfree ⟨hno.1, hno.2.1⟩] at hspread hborder
    rw [hspread, hborder, h.visit_skip hq hfree, ite_self, List.append_nil]
    exact h

/-- **A turn of the loop** is one of the exploration. -/
theorem Floods.turn (tag : Bool) {p : Pixel} (hp : isWhite f p = white) (dirs : List (ℤ × ℤ)) :
    ∀ {t : Labels × List Pixel} {e : Exploration Pixel} {es : List Pixel},
      Floods f s cnt white t e es →
        Floods f s cnt white (dirs.foldl (bfsVisit f cnt tag p) t)
          ((spread f s dirs p).foldl Exploration.visit e)
          (es ++ if tag then border f s dirs p else []) := by
  -- neighbour after neighbour
  induction dirs with
  | nil =>
      intro t e es h
      simpa [spread, border] using h
  | cons d dirs ih =>
      intro t e es h
      have hstep := ih (h.visit tag hp d)
      have hspread : spread f s (d :: dirs) p = spread f s [d] p ++ spread f s dirs p := by
        unfold spread
        rw [← List.filter_append, ← List.map_append, List.singleton_append]
      have hborder : border f s (d :: dirs) p = border f s [d] p ++ border f s dirs p := by
        unfold border
        rw [← List.filter_append, ← List.map_append, List.singleton_append]
      rw [hspread, List.foldl_append, hborder]
      cases tag with
      | false => simpa using hstep
      | true => simpa using hstep

/-- The pixels met by the pixels that were looked at. -/
def metBy (f : Frame) (s : Labels) (tag : Bool) (dirs : List (ℤ × ℤ)) (l : List Pixel) :
    List Pixel :=
  if tag then l.flatMap (border f s dirs) else []

theorem Floods.loop_turn {tag : Bool} {dirs : List (ℤ × ℤ)} {t : Labels × List Pixel}
    {e : Exploration Pixel} (h : Floods f s cnt white t e (metBy f s tag dirs e.done))
    (hqueue : e.queue ≠ []) :
    ∃ t', Floods f s cnt white t' (e.turn (spread f s dirs))
        (metBy f s tag dirs (e.turn (spread f s dirs)).done) ∧
      ∀ fuel, bfsLoop f cnt dirs tag (fuel + 1) t = bfsLoop f cnt dirs tag fuel t' := by
  obtain ⟨t1, t2⟩ := t
  obtain ⟨done, queue⟩ := e
  obtain ⟨p, rest, rfl⟩ := List.exists_cons_of_ne_nil hqueue
  obtain rfl : t2 = p :: rest := h.queue
  have hfound : (Exploration.mk (done ++ [p]) rest).found =
      (Exploration.mk done (p :: rest)).found := by
    rw [Exploration.found, Exploration.found, List.append_assoc, List.singleton_append]
  -- the pixel taken out of the queue is done, and its neighbours come next
  have hstart : Floods f s cnt white (t1, rest) ⟨done ++ [p], rest⟩ (metBy f s tag dirs done) :=
    ⟨rfl, hfound ▸ h.tables, hfound ▸ h.colour⟩
  have hp : isWhite f p = white :=
    h.colour p (List.mem_append_right _ List.mem_cons_self)
  have hmet : metBy f s tag dirs (done ++ [p]) =
      metBy f s tag dirs done ++ if tag then border f s dirs p else [] := by
    unfold metBy
    cases tag with
    | false => simp
    | true => simp
  refine ⟨dirs.foldl (bfsVisit f cnt tag p) (t1, rest), ?_, fun fuel => rfl⟩
  have hturned := hstart.turn tag hp dirs
  rw [← hmet] at hturned
  have hdone : ((Exploration.mk done (p :: rest)).turn (spread f s dirs)).done = done ++ [p] :=
    Exploration.foldl_visit_done _ _
  rw [hdone]
  exact hturned

end Simulation

/-- The pixels a flood can reach are finite in number. -/
theorem exists_pixels (f : Frame) (s : Labels) (dirs : List (ℤ × ℤ)) (x : Pixel) :
    ∃ U : Finset Pixel, ∀ q, Reach (spread f s dirs) x q → q ∈ U := by
  refine ⟨insert x (Finset.Ico 0 imgWidth ×ˢ Finset.Ico 0 imgHeight), fun q hq => ?_⟩
  rw [Finset.mem_insert]
  cases hq with
  | refl => exact Or.inl rfl
  | tail _ hstep =>
      obtain ⟨-, ⟨h1, h2, h3, h4⟩, -⟩ := mem_spread.mp hstep
      right
      simp only [Finset.mem_product, Finset.mem_Ico]
      exact ⟨⟨h1, h2⟩, h3, h4⟩

/-- **Every flood ends**: it has labelled, each once, exactly the pixels its seed spreads to. -/
theorem bfs_ends (f : Frame) (x : Pixel) (cnt four_or_8 : ℕ) (tag : Bool) (s : Labels) :
    ∃ N l, l.Nodup ∧ (∀ q, q ∈ l ↔ Reach (spread f s (dir.take four_or_8)) x q) ∧
      ∀ fuel, N ≤ fuel → bfs f fuel x cnt four_or_8 tag s =
        some (s.flooded cnt l (metBy f s tag (dir.take four_or_8) l)) := by
  obtain ⟨U, hU⟩ := exists_pixels f s (dir.take four_or_8) x
  have hstart : Floods f s cnt (isWhite f x) (s.mark cnt x, [x]) (Exploration.init x)
      (metBy f s tag (dir.take four_or_8) (Exploration.init x).done) := by
    -- before the first turn the seed is marked, and nothing has been met
    have hnil : s.flooded cnt [] [] = s := by
      simp [Labels.flooded, Function.update_eq_self]
    have hmet : metBy f s tag (dir.take four_or_8) (Exploration.init x).done = [] := by
      cases tag <;> rfl
    refine ⟨rfl, ?_, fun q hq => ?_⟩
    · rw [hmet]
      have hmark := s.mark_flooded cnt [] [] x
      rwa [hnil] at hmark
    · rw [List.mem_singleton.mp hq]
  obtain ⟨⟨t, queue⟩, e, hflood, hinv, hqueue, hloop⟩ := explore_ends
    (bfsLoop f cnt (dir.take four_or_8) tag)
    (R := fun t e => Floods f s cnt (isWhite f x) t e (metBy f s tag (dir.take four_or_8) e.done))
    (fun fuel t e hR hqueue => by
      obtain ⟨t1, t2⟩ := t
      obtain rfl : t2 = [] := hR.queue.trans hqueue
      rfl)
    (fun t e hR _ hne => hR.loop_turn hne)
    hU U.card _ _ hstart (Exploration.inv_init _ _) (by omega)
  have hfound : e.found = e.done := by rw [Exploration.found, hqueue, List.append_nil]
  refine ⟨U.card + 1, e.done, hfound ▸ hinv.nodup, fun q => hinv.mem_iff hqueue,
    fun fuel hfuel => ?_⟩
  rw [bfs, hloop fuel hfuel, ← hfound]
  exact congrArg some (hfound ▸ hflood.tables)

end HandlingRobot
