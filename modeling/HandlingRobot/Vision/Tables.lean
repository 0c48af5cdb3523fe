import HandlingRobot.Vision.FindPic
import HandlingRobot.Vision.Photo
import Mathlib.Data.Set.Card

/-! # The tables of `init`

`block` and `PIC` have `PIC_NUM` entries and `edge` has 188 * 16. No counter is checked, so the
frame decides whether `init` stays inside.

* **`initIn`** — `init` with the bounds of its tables.
* **`floodsIn_eq`** — the bounds matter at the end only.
* **`regionSets`**, **`whiteSets`**, **`metPairs`** — the regions that are flooded, and the pixels
  met.
* **`floods_counts`** — the counters after the floods.
* **`initIn_ends_iff`** — when `init` stays inside its tables. -/

namespace HandlingRobot

/-! ## The function with its bounds -/

/-- `PIC_NUM`, and the length of `edge`. -/
def picCapacity : ℕ := 25
@[inherit_doc picCapacity] def edgeCapacity : ℕ := 188 * 16

/-- `startFlood`, where a flood needs an entry of `block` for its label and room in `edge`. -/
def startFloodIn (f : Frame) (fuel four_or_8 : ℕ) (tag : Bool) (test : Pixel → Bool)
    (t : Labels × ℕ) (q : Pixel) : Option (Labels × ℕ) :=
  if t.1.img q = -1 ∧ test q = true then
    if t.2 < picCapacity then do
      let s ← bfs f fuel q t.2 four_or_8 tag t.1
      -- `tot` only grows, so no entry has been written beyond the table
      if s.edge.length ≤ edgeCapacity then some (s, t.2 + 1) else none
    else none
  else some t

/-- The floods of `init` within the tables. -/
def floodsIn (f : Frame) (fuel : ℕ) (t : Labels × ℕ) : Option (Labels × ℕ) := do
  let t ← window.foldlM (startFloodIn f fuel 4 true (isSeed f)) t
  t.1.edge.foldlM (startFloodIn f fuel 8 false (isWhite f)) t

/-- **`init` within its tables**; `none` as soon as it leaves one of them, or when the fuel does not
last. -/
def initIn (f : Frame) (fuel : ℕ) (c : Corners) (block : ℕ → Blob) : Option Pictures := do
  let t ← floodsIn f fuel (⟨fun _ => -1, block, []⟩, 0)
  let pic := pictureNodes t
  if pic.length ≤ picCapacity then some ⟨pic, recGrid c⟩ else none

/-! ## What a flood does to `edge` -/

/-- One list continues the other, and is the same without `tag`. -/
def Continues (tag : Bool) (a b : List Pixel) : Prop := ∃ es, b = a ++ es ∧ (tag = false → es = [])

theorem Continues.refl (tag : Bool) (a : List Pixel) : Continues tag a a := ⟨[], by simp⟩

theorem Continues.trans {tag : Bool} {a b c : List Pixel} (h : Continues tag a b)
    (h' : Continues tag b c) : Continues tag a c := by
  obtain ⟨es, rfl, hes⟩ := h
  obtain ⟨es', rfl, hes'⟩ := h'
  refine ⟨es ++ es', List.append_assoc _ _ _, fun htag => ?_⟩
  rw [hes htag, hes' htag, List.append_nil]

theorem Continues.length_le {tag : Bool} {a b : List Pixel} (h : Continues tag a b) :
    a.length ≤ b.length := by
  obtain ⟨es, rfl, -⟩ := h
  rw [List.length_append]
  exact Nat.le_add_right _ _

section Edge

variable (f : Frame) (cnt : ℕ) (tag : Bool)

theorem bfsVisit_edge (n : Pixel) (t : Labels × List Pixel) (d : ℤ × ℤ) :
    Continues tag t.1.edge (bfsVisit f cnt tag n t d).1.edge := by
  unfold bfsVisit
  dsimp only
  split_ifs with hskip hother htag
  · exact .refl tag _
  · exact ⟨_, rfl, fun hno => absurd htag (by simp [hno])⟩
  · exact .refl tag _
  · exact .refl tag _

theorem bfsVisits_edge (n : Pixel) (dirs : List (ℤ × ℤ)) : ∀ t : Labels × List Pixel,
    Continues tag t.1.edge (dirs.foldl (bfsVisit f cnt tag n) t).1.edge := by
  induction dirs with
  | nil => exact fun t => .refl tag _
  | cons d dirs ih => exact fun t => (bfsVisit_edge f cnt tag n t d).trans (ih _)

theorem bfsLoop_edge (dirs : List (ℤ × ℤ)) (fuel : ℕ) : ∀ {t r : Labels × List Pixel},
    bfsLoop f cnt dirs tag fuel t = some r → Continues tag t.1.edge r.1.edge := by
  induction fuel with
  | zero => exact fun h => absurd h (by simp [bfsLoop])
  | succ fuel ih =>
      rintro ⟨s, queue⟩ r h
      cases queue with
      | nil =>
          rw [bfsLoop, Option.some.injEq] at h
          exact h ▸ .refl tag _
      | cons n queue => exact (bfsVisits_edge f cnt tag n dirs (s, queue)).trans (ih h)

/-- **A flood only adds to `edge`**, and without `tag` it leaves it alone. -/
theorem bfs_edge {fuel four_or_8 : ℕ} {x : Pixel} {s s' : Labels}
    (h : bfs f fuel x cnt four_or_8 tag s = some s') : Continues tag s.edge s'.edge := by
  obtain ⟨r, hr, rfl⟩ := Option.map_eq_some_iff.mp h
  exact bfsLoop_edge f cnt tag _ fuel hr

end Edge

/-! ## The bounds matter at the end only -/

/-- The counters are within the tables. -/
def fits (t : Labels × ℕ) : Bool := t.2 ≤ picCapacity && t.1.edge.length ≤ edgeCapacity

theorem fits_iff {t : Labels × ℕ} :
    fits t = true ↔ t.2 ≤ picCapacity ∧ t.1.edge.length ≤ edgeCapacity := by
  simp [fits]

section Floods

variable {f : Frame} {fuel four_or_8 : ℕ} {tag : Bool} {test : Pixel → Bool}

/-- What a pixel of a loop does. -/
theorem startFlood_cases {t t' : Labels × ℕ} {q : Pixel}
    (h : startFlood f fuel four_or_8 tag test t q = some t') :
    t' = t ∨ t'.2 = t.2 + 1 ∧ Continues tag t.1.edge t'.1.edge := by
  unfold startFlood at h
  split_ifs at h with hstart
  · obtain ⟨s, hs, hr⟩ := Option.bind_eq_some_iff.mp h
    obtain rfl := Option.some.inj hr
    exact Or.inr ⟨rfl, bfs_edge f t.2 tag hs⟩
  · exact Or.inl (Option.some.inj h).symm

/-- **The counters only grow.** -/
theorem startFlood_back (t : Labels × ℕ) (q : Pixel) (t' : Labels × ℕ)
    (h : startFlood f fuel four_or_8 tag test t q = some t') (hfits : fits t' = true) :
    fits t = true := by
  rw [fits_iff] at hfits ⊢
  rcases startFlood_cases h with rfl | ⟨hcnt, hedge⟩
  · exact hfits
  · have hle := hedge.length_le
    omega

theorem startFloodIn_eq (t : Labels × ℕ) (q : Pixel) (hfits : fits t = true) :
    startFloodIn f fuel four_or_8 tag test t q =
      (startFlood f fuel four_or_8 tag test t q).filter fits := by
  unfold startFloodIn startFlood
  split_ifs with hstart hcnt
  · cases bfs f fuel q t.2 four_or_8 tag t.1 with
    | none => rfl
    | some s =>
        simp only [Option.bind_eq_bind, Option.bind_some, Option.filter_some, fits_iff]
        exact if_congr (by omega) rfl rfl
  · cases bfs f fuel q t.2 four_or_8 tag t.1 with
    | none => rfl
    | some s =>
        simp only [Option.bind_eq_bind, Option.bind_some, Option.filter_some, fits_iff]
        exact (if_neg (by omega)).symm
  · rw [Option.filter_some_pos hfits]

/-- **The floods within the tables** are the floods, if their counters fit at the end. -/
theorem floodsIn_eq {t : Labels × ℕ} (hfits : fits t = true) :
    floodsIn f fuel t = (floods f fuel t).filter fits := by
  have hregions : window.foldlM (startFloodIn f fuel 4 true (isSeed f)) t =
      (window.foldlM (startRegion f fuel) t).filter fits :=
    foldlM_filter startFloodIn_eq startFlood_back window hfits
  unfold floodsIn floods
  rw [hregions]
  cases window.foldlM (startRegion f fuel) t with
  | none => rfl
  | some r =>
      simp only [Option.bind_eq_bind, Option.bind_some]
      by_cases hr : fits r = true
      · rw [Option.filter_some_pos hr, Option.bind_some]
        exact foldlM_filter startFloodIn_eq startFlood_back r.1.edge hr
      · rw [Option.filter_some_neg (Bool.of_not_eq_true hr), Option.bind_none]
        cases hrest : r.1.edge.foldlM (startPicture f fuel) r with
        | none => rfl
        | some u =>
            have hu : fits u = false :=
              Bool.of_not_eq_true fun hu => hr (foldlM_back startFlood_back r.1.edge hrest hu)
            rw [Option.filter_some_neg hu]

end Floods

/-- There are fewer pictures than labels. -/
theorem pictureNodes_length_le {t : Labels × ℕ} (hfits : fits t = true) :
    (pictureNodes t).length ≤ picCapacity := by
  rw [fits_iff] at hfits
  have hle := List.length_filter_le isPicture ((List.range' 1 (t.2 - 1)).map t.1.block)
  rw [List.length_map, List.length_range'] at hle
  unfold pictureNodes
  rw [List.length_map]
  omega

/-- **`init` stays inside its tables** when the counters fit at the end. -/
theorem initIn_isSome_iff {f : Frame} {block : ℕ → Blob} {N : ℕ} {t : Labels × ℕ}
    (hrun : ∀ fuel, N ≤ fuel → floods f fuel (⟨fun _ => -1, block, []⟩, 0) = some t) (c : Corners) :
    (∃ M, ∀ fuel, M ≤ fuel → (initIn f fuel c block).isSome = true) ↔ fits t = true := by
  have hstart : fits (⟨fun _ => -1, block, []⟩, 0) = true := rfl
  -- the counters never go down, so the comparison at the end decides
  have hinit : ∀ fuel, N ≤ fuel → ((initIn f fuel c block).isSome = true ↔ fits t = true) := by
    intro fuel hfuel
    rw [initIn, floodsIn_eq hstart, hrun fuel hfuel]
    by_cases hfits : fits t = true
    · rw [Option.filter_some_pos hfits, Option.bind_eq_bind, Option.bind_some]
      dsimp only
      rw [if_pos (pictureNodes_length_le hfits)]
      exact iff_of_true rfl hfits
    · rw [Option.filter_some_neg (Bool.of_not_eq_true hfits)]
      exact iff_of_false Bool.false_ne_true hfits
  exact ⟨fun ⟨M, hM⟩ => (hinit _ (le_max_right M N)).mp (hM _ (le_max_left M N)),
    fun hfits => ⟨N, fun fuel hfuel => (hinit fuel hfuel).mpr hfits⟩⟩

/-! ## The counters of a frame -/

/-- **A region of 0 flooded from the window.** -/
def IsFloodedRegion (f : Frame) (c : Finset Pixel) : Prop :=
  ∃ x ∈ window, isSeed f x = true ∧ ∀ q, q ∈ c ↔ Connected f 4 x q

/-- The regions flooded from the window, and the regions of 255 next to them. -/
def regionSets (f : Frame) : Set (Finset Pixel) := {c | IsFloodedRegion f c}
@[inherit_doc regionSets] def whiteSets (f : Frame) : Set (Finset Pixel) := {c | IsWhiteRegion f c}

/-- A flooded pixel with a pixel of 255 next to it. -/
def metPairs (f : Frame) : Set (Pixel × Pixel) := {pq | Flooded f pq.1 ∧ WhiteNext f pq.1 pq.2}

/-- A list without repetition counts its elements. -/
theorem ncard_of_list {α : Type*} [DecidableEq α] {S : Set α} {l : List α} (hl : l.Nodup)
    (hmem : ∀ x, x ∈ l ↔ x ∈ S) : S.Finite ∧ S.ncard = l.length := by
  have hS : S = (l.toFinset : Set α) := by
    ext x
    rw [Finset.mem_coe, List.mem_toFinset, hmem]
  rw [hS, Set.ncard_coe_finset, List.toFinset_card_of_nodup hl]
  exact ⟨l.toFinset.finite_toSet, rfl⟩

section Found

variable {f : Frame} {t t' : Labels × ℕ} {rs ps : List (List Pixel)}

/-- **The regions found are those flooded from the window.** -/
theorem RegionsFound.ncard (h : RegionsFound f window t rs) :
    (regionSets f).ncard = rs.length := by
  have hnodup : (rs.map List.toFinset).Nodup := by
    refine nodup_map_toFinset h.tally.disjoint fun l hl => ?_
    obtain ⟨x, -, -, -, hcomp⟩ := h.region l hl
    exact List.ne_nil_of_mem hcomp.self_mem
  rw [(ncard_of_list hnodup fun c => ?_).2, List.length_map]
  rw [List.mem_map]
  constructor
  · rintro ⟨l, hl, rfl⟩
    obtain ⟨x, hx, -, hseed, hcomp⟩ := h.region l hl
    exact ⟨x, hx, hseed, hcomp.mem_toFinset⟩
  · rintro ⟨x, hx, hseed, hc⟩
    obtain ⟨l, hl, hxl⟩ := h.tally.labelled.mp (h.seed x hx hseed)
    obtain ⟨y, -, hy, -, hcomp⟩ := h.region l hl
    have hfromx := hcomp.of_connected (Or.inl rfl) hy ((hcomp.mem_iff x).mp hxl)
    refine ⟨l, hl, ?_⟩
    ext q
    rw [hfromx.mem_toFinset, hc]

theorem PicturesFound.ncard (hregions : RegionsFound f window t rs)
    (h : PicturesFound f rs t.1.edge t' ps) :
    (whiteSets f).Finite ∧ (whiteSets f).ncard = ps.length := by
  obtain ⟨hfinite, hcard⟩ := ncard_of_list h.nodup_map (h.mem_map_iff hregions)
  exact ⟨hfinite, hcard.trans (List.length_map _)⟩

/-! ## The pixels met -/

/-- The pixels of 255 next to `p`. -/
def whites (f : Frame) (p : Pixel) : List Pixel :=
  ((dir.take 4).map fun d => (p.1 + d.1, p.2 + d.2)).filter fun q =>
    OnFrame q ∧ isWhite f q = true

theorem mem_whites {p q : Pixel} : q ∈ whites f p ↔ WhiteNext f p q := by
  rw [whites, List.mem_filter, List.mem_map, decide_eq_true_eq, mem_dir_iff_neighbour, WhiteNext]

theorem whites_nodup (f : Frame) (p : Pixel) : (whites f p).Nodup := (dir_map_nodup 4 p).filter _

/-- No pixel of 255 has a label while the regions of 0 are flooded. -/
theorem RegionsFound.border_eq {done : List Pixel} (h : RegionsFound f done t rs) {p : Pixel}
    (hp : isWhite f p = false) : border f t.1 (dir.take 4) p = whites f p := by
  refine List.filter_congr fun q hq => decide_eq_decide.mpr ?_
  have hdir : ∃ d ∈ dir.take 4, (p.1 + d.1, p.2 + d.2) = q := List.mem_map.mp hq
  have hmem := h.mem_border (q := q) hp
  rw [HandlingRobot.mem_border, WhiteNext] at hmem
  exact ⟨fun ha => (hmem.mp ⟨hdir, ha⟩).2,
    fun hb => (hmem.mpr ⟨mem_dir_iff_neighbour.mp hdir, hb⟩).2⟩

/-- `edge` holds the pixels met by the regions, pixel by pixel. -/
def EdgeListed (f : Frame) (t : Labels × ℕ) (rs : List (List Pixel)) : Prop :=
  t.1.edge = rs.flatten.flatMap (whites f)

/-- **A pixel of the window**, with what it adds to `edge`. -/
theorem RegionsFound.step_edge {done : List Pixel} (h : RegionsFound f done t rs)
    (hedge : EdgeListed f t rs) {x : Pixel} (hx : OnFrame x) :
    ∃ N t', (∃ rs', RegionsFound f (done ++ [x]) t' rs' ∧ EdgeListed f t' rs') ∧
      ∀ fuel, N ≤ fuel → startRegion f fuel t x = some t' := by
  by_cases hstart : t.1.img x = -1 ∧ isSeed f x = true
  · obtain ⟨N, l, hfound, hrun⟩ := h.flood hx hstart.1 hstart.2
    refine ⟨N, _, ⟨_, hfound, ?_⟩, hrun⟩
    have hmet : l.flatMap (border f t.1 (dir.take 4)) = l.flatMap (whites f) :=
      List.flatMap_congr fun p hp => h.border_eq (hfound.black (by simp) hp)
    show t.1.edge ++ l.flatMap (border f t.1 (dir.take 4)) = _
    rw [hmet, hedge, List.flatten_append, List.flatMap_append, List.flatten_singleton]
  · exact ⟨0, t, ⟨rs, h.skip hstart, hedge⟩, fun _ _ => if_neg hstart⟩

/-- The loop over the window, with the entries of `edge`. -/
theorem regions_ends_edge (f : Frame) :
    ∃ N t rs, RegionsFound f window t rs ∧ EdgeListed f t rs ∧ ∀ fuel, N ≤ fuel →
      window.foldlM (startRegion f fuel) (⟨fun _ => -1, fun _ => ⟨0, 0, 0⟩, []⟩, 0) = some t := by
  obtain ⟨N, t, ⟨rs, hfound, hedge⟩, hrun⟩ := foldlM_ends (startRegion f)
    (fun done t => ∃ rs, RegionsFound f done t rs ∧ EdgeListed f t rs) OnFrame
    (fun done t x ⟨rs, h, hedge⟩ hx => h.step_edge hedge hx) window [] _
    ⟨[], regionsFound_nil, rfl⟩ window_onFrame
  exact ⟨N, t, rs, hfound, hedge, hrun⟩

/-- The pixels met are as many as the pairs. -/
theorem RegionsFound.length_edge (h : RegionsFound f window t rs) (hedge : EdgeListed f t rs) :
    t.1.edge.length = (metPairs f).ncard := by
  -- the pairs are listed once, since no pixel lies in two regions
  have hnodup : (rs.flatten.flatMap fun p => (whites f p).map fun q => (p, q)).Nodup := by
    rw [List.nodup_flatMap]
    refine ⟨fun p _ => (whites_nodup f p).map fun q q' hqq => (Prod.mk.inj hqq).2, ?_⟩
    have hflat : rs.flatten.Nodup := by
      rw [List.nodup_flatten]
      refine ⟨fun l hl => ?_, h.tally.disjoint⟩
      obtain ⟨x, -, -, -, hcomp⟩ := h.region l hl
      exact hcomp.nodup
    refine hflat.imp fun {p p'} hne => ?_
    intro pq hp hp'
    obtain ⟨q, -, rfl⟩ := List.mem_map.mp hp
    obtain ⟨q', -, heq⟩ := List.mem_map.mp hp'
    exact hne (Prod.mk.inj heq).1.symm
  have hmem : ∀ pq, (pq ∈ rs.flatten.flatMap fun p => (whites f p).map fun q => (p, q)) ↔
      pq ∈ metPairs f := by
    rintro ⟨p, q⟩
    simp only [List.mem_flatMap, List.mem_flatten, List.mem_map, Prod.mk.injEq, mem_whites]
    constructor
    · rintro ⟨p', ⟨l, hl, hp⟩, q', hnext, rfl, rfl⟩
      obtain ⟨x, hx, -, hseed, hcomp⟩ := h.region l hl
      exact ⟨⟨x, hx, hseed, (hcomp.mem_iff p').mp hp⟩, hnext⟩
    · rintro ⟨⟨x, hx, hseed, hp⟩, hnext⟩
      obtain ⟨l, hl, hxl⟩ := h.tally.labelled.mp (h.seed x hx hseed)
      obtain ⟨y, -, -, -, hcomp⟩ := h.region l hl
      exact ⟨p, ⟨l, hl, (hcomp.mem_iff p).mpr (((hcomp.mem_iff x).mp hxl).trans hp)⟩, q, hnext,
        rfl, rfl⟩
  rw [(ncard_of_list hnodup hmem).2, hedge, List.length_flatMap, List.length_flatMap]
  simp only [List.length_map]

end Found

/-- The second loop leaves `edge` as it is. -/
theorem startPictures_edge {f : Frame} {fuel : ℕ} {l : List Pixel} {t t' : Labels × ℕ}
    (h : l.foldlM (startPicture f fuel) t = some t') : t.1.edge = t'.1.edge := by
  refine foldlM_back (P := fun u => u.1.edge = t'.1.edge) (fun u x u' hu hedge => ?_) l h rfl
  rcases startFlood_cases hu with rfl | ⟨-, es, hes, hnil⟩
  · exact hedge
  · rwa [hes, hnil rfl, List.append_nil] at hedge

/-- **The counters after the floods**: `cnt` is the number of the regions, and `tot` the number of
the pixels met, each counted once for every flooded pixel next to it. -/
theorem floods_counts (f : Frame) (block : ℕ → Blob) :
    ∃ N t, (∀ fuel, N ≤ fuel → floods f fuel (⟨fun _ => -1, block, []⟩, 0) = some t) ∧
      t.2 = (regionSets f).ncard + (whiteSets f).ncard ∧ t.1.edge.length = (metPairs f).ncard ∧
      (whiteSets f).Finite := by
  obtain ⟨N, t, rs, hregions, hedge, hrun⟩ := regions_ends_edge f
  obtain ⟨M, t', ps, hpictures, hrun'⟩ := hregions.pictures_ends
  obtain ⟨hfinite, hwhite⟩ := PicturesFound.ncard hregions hpictures
  have hstart : (⟨fun _ => -1, block, []⟩, 0) =
      overFst block ((⟨fun _ => -1, fun _ => ⟨0, 0, 0⟩, []⟩, 0) : Labels × ℕ) := by
    simp [overFst, Labels.over, Blob.plus]
  refine ⟨max N M, overFst block t', fun fuel hfuel => ?_, ?_, ?_, hfinite⟩
  · rw [hstart, floods_over, floods_of_loops hrun hrun' fuel hfuel]
    rfl
  · show t'.2 = _
    rw [hpictures.tally.cnt, hregions.ncard, hwhite, List.length_append]
  · show t'.1.edge.length = _
    rw [← startPictures_edge (hrun' M le_rfl), hregions.length_edge hedge]

/-- **`init` stays inside its tables** exactly when the regions flooded and the regions of 255 next
to them are at most 25, and at most 188 * 16 pixels are met. -/
theorem initIn_ends_iff (f : Frame) (c : Corners) (block : ℕ → Blob) :
    (∃ N, ∀ fuel, N ≤ fuel → (initIn f fuel c block).isSome = true) ↔
      (regionSets f).ncard + (whiteSets f).ncard ≤ 25 ∧ (metPairs f).ncard ≤ 188 * 16 := by
  obtain ⟨N, t, hrun, hcnt, htot, -⟩ := floods_counts f block
  rw [initIn_isSome_iff hrun c, fits_iff, hcnt, htot]
  rfl

/-! ## A photograph with few regions -/

/-- A family of sets without a common pixel is no larger than a list that meets each of them. -/
theorem ncard_le_of_meets {S : Set (Finset Pixel)} {reps : List Pixel}
    (hdisjoint : ∀ c ∈ S, ∀ c' ∈ S, ∀ q, q ∈ c → q ∈ c' → c = c')
    (hmeets : ∀ c ∈ S, ∃ q ∈ reps, q ∈ c) : S.ncard ≤ reps.length := by
  choose! rep hrep hmem using hmeets
  have hle := Set.ncard_le_ncard_of_injOn rep (t := (reps.toFinset : Set Pixel))
    (fun c hc => Finset.mem_coe.mpr (List.mem_toFinset.mpr (hrep c hc)))
    (fun c hc c' hc' heq => hdisjoint c hc c' hc' (rep c) (hmem c hc) (heq ▸ hmem c' hc'))
    reps.toFinset.finite_toSet
  rw [Set.ncard_coe_finset] at hle
  exact hle.trans (List.toFinset_card_le reps)

/-- Regions with a common pixel are the same. -/
theorem region_eq_of_mem {f : Frame} {k : ℕ} (hk : k = 4 ∨ k = 8) {x x' q : Pixel}
    {c c' : Finset Pixel} (hx : OnFrame x) (hx' : OnFrame x')
    (hc : ∀ p, p ∈ c ↔ Connected f k x p) (hc' : ∀ p, p ∈ c' ↔ Connected f k x' p)
    (hq : q ∈ c) (hq' : q ∈ c') : c = c' := by
  have hstep := ((hc q).mp hq).trans (((hc' q).mp hq').symm hk hx')
  have hback := ((hc' q).mp hq').trans (((hc q).mp hq).symm hk hx)
  ext p
  rw [hc, hc']
  exact ⟨fun h => hback.trans h, fun h => hstep.trans h⟩

/-- Pixels that meet every region of 255 bound their number. -/
theorem whiteSets_ncard_le {f : Frame} {reps : List Pixel}
    (h : ∀ q, OnFrame q → isWhite f q = true → ∃ r ∈ reps, Connected f 8 q r) :
    (whiteSets f).ncard ≤ reps.length := by
  refine ncard_le_of_meets ?_ fun c hc => ?_
  · rintro c ⟨⟨x, hx, -, hc⟩, -⟩ c' ⟨⟨x', hx', -, hc'⟩, -⟩ q hq hq'
    exact region_eq_of_mem (Or.inr rfl) hx hx' hc hc' hq hq'
  · obtain ⟨⟨x, hx, hwhite, hmem⟩, -⟩ := hc
    obtain ⟨r, hr, hconn⟩ := h x hx hwhite
    exact ⟨r, hr, (hmem r).mpr hconn⟩

/-- Pixels that meet every flooded region bound their number. -/
theorem regionSets_ncard_le {f : Frame} {reps : List Pixel}
    (h : ∀ x ∈ window, isSeed f x = true → ∃ r ∈ reps, Connected f 4 x r) :
    (regionSets f).ncard ≤ reps.length := by
  refine ncard_le_of_meets ?_ fun c hc => ?_
  · rintro c ⟨x, hx, -, hc⟩ c' ⟨x', hx', -, hc'⟩ q hq hq'
    exact region_eq_of_mem (Or.inl rfl) (window_onFrame x hx) (window_onFrame x' hx') hc hc' hq hq'
  · obtain ⟨x, hx, hseed, hmem⟩ := hc
    obtain ⟨r, hr, hconn⟩ := h x hx hseed
    exact ⟨r, hr, (hmem r).mpr hconn⟩

/-- **A photograph of marks meets at most 2048 pixels**, the four neighbours of each dark one. -/
theorem Marks.metPairs_le (m : Marks) : (metPairs m.field).ncard ≤ 2048 := by
  have hsub : metPairs m.field ⊆ ((m.dark.flatMap fun q => (dir.take 4).map fun d =>
      ((q.1 + d.1, q.2 + d.2), q)).toFinset : Set (Pixel × Pixel)) := by
    rintro ⟨p, q⟩ ⟨-, hnear, hframe, hwhite⟩
    rw [Finset.mem_coe, List.mem_toFinset, List.mem_flatMap]
    refine ⟨q, m.mem_dark.mpr ((m.isWhite_field hframe).mp hwhite), List.mem_map.mpr ?_⟩
    obtain ⟨d, hd, hq⟩ := mem_dir_iff_neighbour.mpr hnear
    obtain rfl : (p.1 + d.1, p.2 + d.2) = q := hq
    refine ⟨(-d.1, -d.2), neg_mem_dir (Or.inl rfl) hd, ?_⟩
    exact Prod.ext (Prod.ext (by dsimp only; omega) (by dsimp only; omega)) rfl
  have hle := Set.ncard_le_ncard hsub (Finset.finite_toSet _)
  rw [Set.ncard_coe_finset] at hle
  refine hle.trans ((List.toFinset_card_le _).trans ?_)
  rw [List.length_flatMap]
  have hfour : ∀ q : Pixel, ((dir.take 4).map fun d => (((q.1 + d.1, q.2 + d.2) : Pixel), q)).length
      = 4 := fun q => List.length_map _
  simp only [hfour]
  rw [List.map_const', List.sum_replicate, m.length_dark]
  decide

/-! ## A photograph with too many dots -/

/-- Dots around the window, 4 pixels apart. -/
def dots : Marks where
  pixels := (List.range 6).flatMap fun (a : ℕ) => (List.range 5).map fun (b : ℕ) =>
    (82 + 4 * (a : ℤ), 52 + 4 * (b : ℤ))
  nodup := by decide +kernel
  inside := by decide +kernel
  length_le := by decide

/-- The 30 dots, each with a pixel next to it and a seed next to that. -/
def dotPixels : List (Pixel × Pixel × Pixel) :=
  (List.range 5).flatMap fun (b : ℕ) =>
    ((102, 52 + 4 * (b : ℤ)), (101, 52 + 4 * (b : ℤ)), (100, 52 + 4 * (b : ℤ))) ::
      (List.range 5).map fun (a : ℕ) => ((82 + 4 * (a : ℤ), 52 + 4 * (b : ℤ)),
        (83 + 4 * (a : ℤ), 52 + 4 * (b : ℤ)), (84 + 4 * (a : ℤ), 52 + 4 * (b : ℤ)))

/-- **Every dot is a region of its own** next to the black around it. -/
theorem dot_mem_whiteSets {d p s : Pixel} (h : (d, p, s) ∈ dotPixels) :
    {d} ∈ whiteSets dots.field := by
  have hall : ∀ e ∈ dotPixels, OnFrame e.1 ∧ isWhite dots.field e.1 = true ∧
      linked dots.field 8 e.1 = [] ∧ e.2.2 ∈ window ∧ isSeed dots.field e.2.2 = true ∧
      e.2.1 ∈ linked dots.field 4 e.2.2 ∧
      ∃ n ∈ dir.take 4, (e.2.1.1 + n.1, e.2.1.2 + n.2) = e.1 := by
    decide +kernel
  obtain ⟨hframe, hwhite, hlinked, hs, hseed, hp, hnear⟩ := hall _ h
  refine ⟨⟨d, hframe, hwhite, fun q => ?_⟩, d, Finset.mem_singleton_self d, p,
    ⟨s, hs, hseed, Relation.ReflTransGen.single hp⟩, mem_dir_iff_neighbour.mp hnear⟩
  rw [Finset.mem_singleton]
  constructor
  · rintro rfl
    exact .refl
  · intro hq
    cases Relation.ReflTransGen.cases_head hq with
    | inl heq => exact heq.symm
    | inr hstep =>
        obtain ⟨r, hr, -⟩ := hstep
        rw [hlinked] at hr
        exact absurd hr List.not_mem_nil

/-- **With 30 dots `init` leaves its tables**, on a photograph that `get_a4` accepts. -/
theorem initIn_leaves_tables : AcceptedAs dots.image dots.field ∧
    ¬ ∃ N, ∀ fuel, N ≤ fuel →
      (initIn dots.field fuel (seenCorners dots.image) fun _ => ⟨0, 0, 0⟩).isSome = true := by
  refine ⟨dots.acceptedAs, ?_⟩
  obtain ⟨N, t, hrun, hcnt, -, hfinite⟩ := floods_counts dots.field fun _ => ⟨0, 0, 0⟩
  rw [initIn_isSome_iff hrun, fits_iff]
  have hsub : ((dotPixels.map fun e => ({e.1} : Finset Pixel)).toFinset : Set (Finset Pixel)) ⊆
      whiteSets dots.field := by
    intro c hc
    obtain ⟨⟨d, p, s⟩, he, rfl⟩ := List.mem_map.mp (List.mem_toFinset.mp (Finset.mem_coe.mp hc))
    exact dot_mem_whiteSets he
  have hle := Set.ncard_le_ncard hsub hfinite
  have hnodup : (dotPixels.map fun e => ({e.1} : Finset Pixel)).Nodup := by
    have hdots : (dotPixels.map Prod.fst).Nodup := by decide +kernel
    have hsets := hdots.map Finset.singleton_injective
    rwa [List.map_map] at hsets
  have hlength : (dotPixels.map fun e => ({e.1} : Finset Pixel)).length = 30 := by
    rw [List.length_map]
    rfl
  rw [Set.ncard_coe_finset, List.toFinset_card_of_nodup hnodup, hlength] at hle
  unfold picCapacity
  omega

end HandlingRobot
