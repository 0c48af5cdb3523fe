import HandlingRobot.Library.CountingLoop
import HandlingRobot.Vision.Components
import Mathlib.Algebra.BigOperators.Group.Finset.Basic

/-! # The pictures found are those of the frame, and small regions

Every entry of `block` from 1 on counts as a picture if it is small enough. The first entries belong
to the regions flooded from the centre window, which may be more than one: a region of 0 enclosed by
a picture is flooded on its own.

* **`RegionsFound`**, **`PicturesFound`** — the invariants of the two loops.
* **`init_ends`** — the list `PIC` in terms of the regions found.
* **`PicturesListed`** — `PIC` is the list of the pictures.
* **`init_pictures_iff`** — it is, exactly when no region after the first one is small. -/

namespace HandlingRobot

variable {f : Frame}

/-! ## The loop over the window -/

theorem window_onFrame : ∀ x ∈ window, OnFrame x := by
  intro x hx
  obtain ⟨i, hi, hx⟩ := List.mem_flatMap.mp hx
  obtain ⟨j, hj, rfl⟩ := List.mem_map.mp hx
  rw [List.mem_range] at hi hj
  simp only [OnFrame, imgWidth, imgHeight]
  omega

theorem isWhite_of_isSeed {x : Pixel} (h : isSeed f x = true) : isWhite f x = false := by
  simp only [isSeed, Bool.and_eq_true, beq_iff_eq] at h
  simp [isWhite, h.1]

/-- A pixel of 255 next to `p`. -/
def WhiteNext (f : Frame) (p q : Pixel) : Prop :=
  Neighbour p q ∧ OnFrame q ∧ isWhite f q = true

/-- **The invariant of the loop over the window**: the regions of the seeds among the pixels `done`
are labelled, and their borders recorded. -/
structure RegionsFound (f : Frame) (done : List Pixel) (t : Labels × ℕ) (rs : List (List Pixel)) :
    Prop where
  tally : Tally t rs
  region : ∀ l ∈ rs, ∃ x, x ∈ done ∧ OnFrame x ∧ isSeed f x = true ∧ IsComponent f 4 x l
  seed : ∀ x ∈ done, isSeed f x = true → t.1.img x ≠ -1
  first : ∀ l ∈ rs.head?, ∃ x ∈ done.find? (isSeed f), IsComponent f 4 x l
  edge : ∀ q, q ∈ t.1.edge ↔ ∃ l ∈ rs, ∃ p ∈ l, WhiteNext f p q

theorem regionsFound_nil : RegionsFound f [] (⟨fun _ => -1, fun _ => ⟨0, 0, 0⟩, []⟩, 0) [] :=
  ⟨tally_nil, by simp, by simp, by simp, by simp⟩

/-- All pixels labelled so far are 0. -/
theorem RegionsFound.black {done : List Pixel} {t : Labels × ℕ} {rs : List (List Pixel)}
    (h : RegionsFound f done t rs) {l : List Pixel} (hl : l ∈ rs) {p : Pixel} (hp : p ∈ l) :
    isWhite f p = false := by
  obtain ⟨x, -, -, hseed, hcomp⟩ := h.region l hl
  exact (Connected.colour ((hcomp.mem_iff p).mp hp)).trans (isWhite_of_isSeed hseed)

/-- The pixels met by a region of 0. -/
theorem RegionsFound.mem_border {done : List Pixel} {t : Labels × ℕ} {rs : List (List Pixel)}
    (h : RegionsFound f done t rs) {p q : Pixel} (hp : isWhite f p = false) :
    q ∈ border f t.1 (dir.take 4) p ↔ WhiteNext f p q := by
  rw [HandlingRobot.mem_border, mem_dir_iff_neighbour, hp, WhiteNext]
  constructor
  · rintro ⟨hnear, hframe, -, hcolour⟩
    exact ⟨hnear, hframe, Bool.eq_true_of_not_eq_false hcolour⟩
  · rintro ⟨hnear, hframe, hwhite⟩
    refine ⟨hnear, hframe, (h.tally.img q).mpr fun l hl hq => ?_, by rw [hwhite]; decide⟩
    exact absurd (h.black hl hq) (by rw [hwhite]; decide)

/-- A pixel of the window where no flood starts. -/
theorem RegionsFound.skip {done : List Pixel} {t : Labels × ℕ} {rs : List (List Pixel)}
    (h : RegionsFound f done t rs) {x : Pixel} (hno : ¬ (t.1.img x = -1 ∧ isSeed f x = true)) :
    RegionsFound f (done ++ [x]) t rs := by
  refine ⟨h.tally, fun l hl => ?_, fun y hy hys => ?_, fun l hl => ?_, h.edge⟩
  · obtain ⟨y, hy, hrest⟩ := h.region l hl
    exact ⟨y, List.mem_append_left _ hy, hrest⟩
  · rcases List.mem_append.mp hy with hy | hy
    · exact h.seed y hy hys
    · obtain rfl := List.mem_singleton.mp hy
      exact fun hnew => hno ⟨hnew, hys⟩
  · obtain ⟨y, hy, hcomp⟩ := h.first l hl
    refine ⟨y, ?_, hcomp⟩
    rw [List.find?_append, Option.mem_def.mp hy]
    rfl

section Flood

variable {done : List Pixel} {t : Labels × ℕ} {rs : List (List Pixel)} {x : Pixel} {l : List Pixel}

/-- The first region stays that of the first seed. -/
theorem RegionsFound.first_grow (h : RegionsFound f done t rs) (hseed : isSeed f x = true)
    (hcomp : IsComponent f 4 x l) {m : List Pixel} (hm : m ∈ (rs ++ [l]).head?) :
    ∃ y ∈ (done ++ [x]).find? (isSeed f), IsComponent f 4 y m := by
  rw [List.find?_append]
  cases rs with
  | nil =>
      -- no seed has been seen so far
      have hnone : done.find? (isSeed f) = none := by
        rw [List.find?_eq_none]
        intro y hy hys
        obtain ⟨m, hm, -⟩ := h.tally.labelled.mp (h.seed y hy hys)
        exact absurd hm List.not_mem_nil
      obtain rfl := Option.some.inj hm
      exact ⟨x, by simp [hnone, hseed], hcomp⟩
  | cons m' rs =>
      obtain ⟨y, hy, hm'⟩ := h.first m hm
      exact ⟨y, by rw [Option.mem_def.mp hy]; rfl, hm'⟩

/-- The pixels met by the new region are added to `edge`. -/
theorem RegionsFound.edge_grow (h : RegionsFound f done t rs)
    (hblack : ∀ p ∈ l, isWhite f p = false) (q : Pixel) :
    q ∈ (t.1.flooded t.2 l (metBy f t.1 true (dir.take 4) l)).edge ↔
      ∃ m ∈ rs ++ [l], ∃ p ∈ m, WhiteNext f p q := by
  show q ∈ t.1.edge ++ l.flatMap (border f t.1 (dir.take 4)) ↔ _
  rw [List.mem_append, h.edge, List.mem_flatMap]
  constructor
  · rintro (⟨m, hm, hrest⟩ | ⟨p, hp, hq⟩)
    · exact ⟨m, List.mem_append_left _ hm, hrest⟩
    · exact ⟨l, List.mem_append_right _ (List.mem_singleton_self l), p, hp,
        (h.mem_border (hblack p hp)).mp hq⟩
  · rintro ⟨m, hm, p, hp, hq⟩
    rcases List.mem_append.mp hm with hm | hm
    · exact Or.inl ⟨m, hm, p, hp, hq⟩
    · obtain rfl := List.mem_singleton.mp hm
      exact Or.inr ⟨p, hp, (h.mem_border (hblack p hp)).mpr hq⟩

/-- One more region. -/
theorem RegionsFound.grow (h : RegionsFound f done t rs) (hx : OnFrame x)
    (hseed : isSeed f x = true) (hcomp : IsComponent f 4 x l) (hfree : ∀ q ∈ l, t.1.img q = -1) :
    RegionsFound f (done ++ [x]) (t.1.flooded t.2 l (metBy f t.1 true (dir.take 4) l), t.2 + 1)
      (rs ++ [l]) := by
  have hgrown := h.tally.grow (metBy f t.1 true (dir.take 4) l) hfree
  have hblack : ∀ p ∈ l, isWhite f p = false := fun p hp =>
    (Connected.colour ((hcomp.mem_iff p).mp hp)).trans (isWhite_of_isSeed hseed)
  refine ⟨hgrown, fun m hm => ?_, fun y hy hys => ?_, fun m hm => h.first_grow hseed hcomp hm,
    h.edge_grow hblack⟩
  · rcases List.mem_append.mp hm with hm | hm
    · obtain ⟨y, hy, hrest⟩ := h.region m hm
      exact ⟨y, List.mem_append_left _ hy, hrest⟩
    · obtain rfl := List.mem_singleton.mp hm
      exact ⟨x, List.mem_append_right _ (List.mem_singleton_self x), hx, hseed, hcomp⟩
  · rw [hgrown.labelled]
    rcases List.mem_append.mp hy with hy | hy
    · obtain ⟨m, hm, hym⟩ := h.tally.labelled.mp (h.seed y hy hys)
      exact ⟨m, List.mem_append_left _ hm, hym⟩
    · obtain rfl := List.mem_singleton.mp hy
      exact ⟨l, List.mem_append_right _ (List.mem_singleton_self l), hcomp.self_mem⟩

/-- **A pixel of the window where a flood starts.** -/
theorem RegionsFound.flood (h : RegionsFound f done t rs) (hx : OnFrame x) (hnew : t.1.img x = -1)
    (hseed : isSeed f x = true) :
    ∃ N l, RegionsFound f (done ++ [x])
        (t.1.flooded t.2 l (metBy f t.1 true (dir.take 4) l), t.2 + 1) (rs ++ [l]) ∧
      ∀ fuel, N ≤ fuel → startRegion f fuel t x =
        some (t.1.flooded t.2 l (metBy f t.1 true (dir.take 4) l), t.2 + 1) := by
  have hclosed : ClosedLabels f 4 (isWhite f x) t.1 := by
    intro p q _ hp hq
    obtain ⟨l, hl, hpl⟩ := h.tally.labelled.mp hp
    obtain ⟨y, -, -, -, hcomp⟩ := h.region l hl
    exact h.tally.labelled.mpr ⟨l, hl, hcomp.closed hpl hq⟩
  obtain ⟨N, l, hcomp, hfree, hrun⟩ := bfs_component (Or.inl rfl) hx hnew hclosed t.2 true
  refine ⟨N, l, h.grow hx hseed hcomp hfree, fun fuel hfuel => ?_⟩
  rw [startRegion, startFlood, if_pos ⟨hnew, hseed⟩, hrun fuel hfuel]
  rfl

end Flood

/-- **A pixel of the window.** -/
theorem RegionsFound.step {done : List Pixel} {t : Labels × ℕ} {rs : List (List Pixel)}
    (h : RegionsFound f done t rs) {x : Pixel} (hx : OnFrame x) :
    ∃ N t', (∃ rs', RegionsFound f (done ++ [x]) t' rs') ∧
      ∀ fuel, N ≤ fuel → startRegion f fuel t x = some t' := by
  by_cases hstart : t.1.img x = -1 ∧ isSeed f x = true
  · obtain ⟨N, l, hfound, hrun⟩ := h.flood hx hstart.1 hstart.2
    exact ⟨N, _, ⟨_, hfound⟩, hrun⟩
  · exact ⟨0, t, ⟨rs, h.skip hstart⟩, fun _ _ => if_neg hstart⟩

/-- **The loop over the window ends.** -/
theorem regions_ends (f : Frame) :
    ∃ N t rs, RegionsFound f window t rs ∧ ∀ fuel, N ≤ fuel →
      window.foldlM (startRegion f fuel) (⟨fun _ => -1, fun _ => ⟨0, 0, 0⟩, []⟩, 0) = some t := by
  obtain ⟨N, t, ⟨rs, hfound⟩, hrun⟩ := foldlM_ends (startRegion f)
    (fun done t => ∃ rs, RegionsFound f done t rs) OnFrame
    (fun done t x ⟨rs, h⟩ hx => h.step hx) window [] _ ⟨[], regionsFound_nil⟩ window_onFrame
  exact ⟨N, t, rs, hfound, hrun⟩

/-! ## The loop over the borders -/

/-- **The invariant of the loop over `edge`**, behind the regions `rs` of the other loop. -/
structure PicturesFound (f : Frame) (rs : List (List Pixel)) (done : List Pixel) (t : Labels × ℕ)
    (ps : List (List Pixel)) : Prop where
  tally : Tally t (rs ++ ps)
  picture : ∀ l ∈ ps, ∃ x ∈ done, OnFrame x ∧ isWhite f x = true ∧ IsComponent f 8 x l
  labelled : ∀ x ∈ done, t.1.img x ≠ -1

/-- All pixels labelled by this loop are 255. -/
theorem PicturesFound.white {rs ps : List (List Pixel)} {done : List Pixel} {t : Labels × ℕ}
    (h : PicturesFound f rs done t ps) {l : List Pixel} (hl : l ∈ ps) {p : Pixel} (hp : p ∈ l) :
    isWhite f p = true := by
  obtain ⟨x, -, -, hwhite, hcomp⟩ := h.picture l hl
  exact (Connected.colour ((hcomp.mem_iff p).mp hp)).trans hwhite

/-- A pixel of 255 with a label lies in one of the regions of this loop. -/
theorem PicturesFound.mem {rs ps : List (List Pixel)} {done : List Pixel} {t : Labels × ℕ}
    (h : PicturesFound f rs done t ps) (hblack : ∀ l ∈ rs, ∀ p ∈ l, isWhite f p = false) {p : Pixel}
    (hp : isWhite f p = true) (hlabel : t.1.img p ≠ -1) : ∃ l ∈ ps, p ∈ l := by
  obtain ⟨l, hl, hpl⟩ := h.tally.labelled.mp hlabel
  rcases List.mem_append.mp hl with hl | hl
  · rw [hblack l hl p hpl] at hp
    exact Bool.noConfusion hp
  · exact ⟨l, hl, hpl⟩

/-- **An entry of `edge`.** -/
theorem PicturesFound.step {rs ps : List (List Pixel)} {done : List Pixel} {t : Labels × ℕ}
    (h : PicturesFound f rs done t ps) (hblack : ∀ l ∈ rs, ∀ p ∈ l, isWhite f p = false) {x : Pixel}
    (hx : OnFrame x ∧ isWhite f x = true) :
    ∃ N t', (∃ ps', PicturesFound f rs (done ++ [x]) t' ps') ∧
      ∀ fuel, N ≤ fuel → startPicture f fuel t x = some t' := by
  obtain ⟨hframe, hwhite⟩ := hx
  by_cases hnew : t.1.img x = -1
  · have hclosed : ClosedLabels f 8 (isWhite f x) t.1 := by
      intro p q hp hlabel hq
      rw [hwhite] at hp
      obtain ⟨l, hl, hpl⟩ := h.mem hblack hp hlabel
      obtain ⟨y, -, -, -, hcomp⟩ := h.picture l hl
      exact h.tally.labelled.mpr ⟨l, List.mem_append_right _ hl, hcomp.closed hpl hq⟩
    obtain ⟨N, l, hcomp, hfree, hrun⟩ := bfs_component (Or.inr rfl) hframe hnew hclosed t.2 false
    have hgrown := h.tally.grow (metBy f t.1 false (dir.take 8) l) hfree
    rw [List.append_assoc] at hgrown
    refine ⟨N, _, ⟨ps ++ [l], hgrown, fun m hm => ?_, fun y hy => ?_⟩, fun fuel hfuel => ?_⟩
    · rcases List.mem_append.mp hm with hm | hm
      · obtain ⟨y, hy, hrest⟩ := h.picture m hm
        exact ⟨y, List.mem_append_left _ hy, hrest⟩
      · obtain rfl := List.mem_singleton.mp hm
        exact ⟨x, List.mem_append_right _ (List.mem_singleton_self x), hframe, hwhite, hcomp⟩
    · rw [hgrown.labelled]
      rcases List.mem_append.mp hy with hy | hy
      · obtain ⟨m, hm, hym⟩ := h.tally.labelled.mp (h.labelled y hy)
        refine ⟨m, ?_, hym⟩
        rw [← List.append_assoc]
        exact List.mem_append_left _ hm
      · obtain rfl := List.mem_singleton.mp hy
        exact ⟨l, List.mem_append_right _ (List.mem_append_right _ (List.mem_singleton_self l)),
          hcomp.self_mem⟩
    · rw [startPicture, startFlood, if_pos ⟨hnew, hwhite⟩, hrun fuel hfuel]
      rfl
  · refine ⟨0, t, ⟨ps, h.tally, fun l hl => ?_, fun y hy => ?_⟩,
      fun _ _ => if_neg fun hstart => hnew hstart.1⟩
    · obtain ⟨y, hy, hrest⟩ := h.picture l hl
      exact ⟨y, List.mem_append_left _ hy, hrest⟩
    · rcases List.mem_append.mp hy with hy | hy
      · exact h.labelled y hy
      · rwa [List.mem_singleton.mp hy]

/-- The entries of `PIC` that regions of these pixels lead to. -/
def entries (rs : List (List Pixel)) : List Node :=
  ((rs.map tally).filter isPicture).map Blob.aver

/-- **The loop over `edge` ends.** -/
theorem RegionsFound.pictures_ends {t : Labels × ℕ} {rs : List (List Pixel)}
    (h : RegionsFound f window t rs) :
    ∃ N t' ps, PicturesFound f rs t.1.edge t' ps ∧ ∀ fuel, N ≤ fuel →
      t.1.edge.foldlM (startPicture f fuel) t = some t' := by
  have hblack : ∀ l ∈ rs, ∀ p ∈ l, isWhite f p = false := fun l hl p hp => h.black hl hp
  have hedge : ∀ x ∈ t.1.edge, OnFrame x ∧ isWhite f x = true := by
    intro x hx
    obtain ⟨l, -, p, -, hnext⟩ := (h.edge x).mp hx
    exact hnext.2
  have hstart : PicturesFound f rs [] t [] :=
    ⟨by rw [List.append_nil]; exact h.tally, by simp, by simp⟩
  obtain ⟨N, t', ⟨ps, hpictures⟩, hrun⟩ := foldlM_ends (startPicture f)
    (fun done t => ∃ ps, PicturesFound f rs done t ps) (fun x => OnFrame x ∧ isWhite f x = true)
    (fun done t x ⟨ps, h⟩ hx => h.step hblack hx) t.1.edge [] t ⟨[], hstart⟩ hedge
  exact ⟨N, t', ps, hpictures, hrun⟩

/-- The two loops make up the floods. -/
theorem floods_of_loops {N M : ℕ} {t₀ t t' : Labels × ℕ}
    (hrun : ∀ fuel, N ≤ fuel → window.foldlM (startRegion f fuel) t₀ = some t)
    (hrun' : ∀ fuel, M ≤ fuel → t.1.edge.foldlM (startPicture f fuel) t = some t') (fuel : ℕ)
    (hfuel : max N M ≤ fuel) : floods f fuel t₀ = some t' := by
  rw [floods, hrun fuel ((le_max_left N M).trans hfuel), Option.bind_eq_bind, Option.bind_some]
  exact hrun' fuel ((le_max_right N M).trans hfuel)

/-- **All floods end**, and have labelled the regions found. -/
theorem floods_ends (f : Frame) :
    ∃ N t t' rs ps, RegionsFound f window t rs ∧ PicturesFound f rs t.1.edge t' ps ∧
      ∀ fuel, N ≤ fuel → floods f fuel (⟨fun _ => -1, fun _ => ⟨0, 0, 0⟩, []⟩, 0) = some t' := by
  obtain ⟨N, t, rs, hregions, hrun⟩ := regions_ends f
  obtain ⟨M, t', ps, hpictures, hrun'⟩ := hregions.pictures_ends
  exact ⟨max N M, t, t', rs, ps, hregions, hpictures, floods_of_loops hrun hrun'⟩

/-- **`init` ends**, and `PIC` holds the small ones of all regions found but the first. -/
theorem init_ends (f : Frame) (c : Corners) :
    ∃ N t t' rs ps r, RegionsFound f window t rs ∧ PicturesFound f rs t.1.edge t' ps ∧
      r.pic = entries ((rs ++ ps).drop 1) ∧
      ∀ fuel, N ≤ fuel → init f fuel c (fun _ => ⟨0, 0, 0⟩) = some r := by
  obtain ⟨N, t, t', rs, ps, hregions, hpictures, hrun⟩ := floods_ends f
  refine ⟨N, t, t', rs, ps, ⟨pictureNodes t', recGrid c⟩, hregions, hpictures, ?_,
    fun fuel hfuel => ?_⟩
  · rw [entries, ← hpictures.tally.blocks]
    rfl
  · rw [init_eq_floods, hrun fuel hfuel]
    rfl

/-! ## The pictures of a frame -/

/-- A pixel of a region of 0 flooded from the window. -/
def Flooded (f : Frame) (p : Pixel) : Prop :=
  ∃ x ∈ window, isSeed f x = true ∧ Connected f 4 x p

/-- **A picture of the frame**: a region of 255 with at most 25 pixels, one of them next to a
flooded region. -/
structure IsPictureRegion (f : Frame) (c : Finset Pixel) : Prop where
  region : ∃ x, OnFrame x ∧ isWhite f x = true ∧ ∀ q, q ∈ c ↔ Connected f 8 x q
  small : 1 ≤ c.card ∧ c.card ≤ 25
  near : ∃ q ∈ c, ∃ p, Flooded f p ∧ Neighbour p q

/-- A region of 255 of any size, one of its pixels next to a flooded region. -/
structure IsWhiteRegion (f : Frame) (c : Finset Pixel) : Prop where
  region : ∃ x, OnFrame x ∧ isWhite f x = true ∧ ∀ q, q ∈ c ↔ Connected f 8 x q
  near : ∃ q ∈ c, ∃ p, Flooded f p ∧ Neighbour p q

/-- The centroid of a set of pixels. -/
def centroid (c : Finset Pixel) : Node :=
  ⟨((∑ q ∈ c, q.1 : ℤ) : ℚ) / c.card, ((∑ q ∈ c, q.2 : ℤ) : ℚ) / c.card⟩

/-- **The list consists of the centroids of the pictures**, one entry for each of them. -/
def PicturesListed (f : Frame) (pic : List Node) : Prop :=
  ∃ cs : List (Finset Pixel), cs.Nodup ∧ (∀ c, c ∈ cs ↔ IsPictureRegion f c) ∧
    pic.Perm (cs.map centroid)

/-- **Every region of 0 flooded after the first one has more than 25 pixels.** -/
def LaterRegionsLarge (f : Frame) : Prop :=
  ∀ x₀ ∈ window.find? (isSeed f), ∀ x ∈ window, isSeed f x = true → ¬ Connected f 4 x₀ x →
    ∀ c : Finset Pixel, (∀ q, q ∈ c ↔ Connected f 4 x q) → 25 < c.card

theorem isPicture_iff {b : Blob} : isPicture b = true ↔ 1 ≤ b.num ∧ b.num ≤ 25 := by
  simp only [isPicture, Bool.not_eq_true', Bool.or_eq_false_iff, decide_eq_false_iff_not]
  omega

theorem isPicture_tally {l : List Pixel} :
    isPicture (tally l) = true ↔ 1 ≤ l.length ∧ l.length ≤ 25 := by
  rw [tally_eq, isPicture_iff]
  dsimp only
  omega

theorem aver_tally {l : List Pixel} (h : l.Nodup) : (tally l).aver = centroid l.toFinset := by
  rw [tally_eq, Blob.aver, centroid, List.sum_toFinset _ h, List.sum_toFinset _ h,
    List.toFinset_card_of_nodup h]
  rfl

/-- **The pixels next to flooded ones are those recorded.** -/
theorem RegionsFound.mem_edge {t : Labels × ℕ} {rs : List (List Pixel)}
    (h : RegionsFound f window t rs) {q : Pixel} :
    q ∈ t.1.edge ↔ ∃ p, Flooded f p ∧ WhiteNext f p q := by
  rw [h.edge]
  constructor
  · rintro ⟨l, hl, p, hp, hnext⟩
    obtain ⟨x, hx, -, hseed, hcomp⟩ := h.region l hl
    exact ⟨p, ⟨x, hx, hseed, (hcomp.mem_iff p).mp hp⟩, hnext⟩
  · rintro ⟨p, ⟨x, hx, hseed, hp⟩, hnext⟩
    obtain ⟨l, hl, hxl⟩ := h.tally.labelled.mp (h.seed x hx hseed)
    obtain ⟨y, -, -, -, hcomp⟩ := h.region l hl
    exact ⟨l, hl, p, (hcomp.mem_iff p).mpr (((hcomp.mem_iff x).mp hxl).trans hp), hnext⟩

/-- The pictures found, as sets. -/
def pictureSets (ps : List (List Pixel)) : List (Finset Pixel) :=
  (ps.filter fun l => isPicture (tally l)).map List.toFinset

section Found

variable {t t' : Labels × ℕ} {rs ps : List (List Pixel)}

theorem PicturesFound.entries_eq (h : PicturesFound f rs t.1.edge t' ps) :
    entries ps = (pictureSets ps).map centroid := by
  rw [entries, pictureSets, List.filter_map, List.map_map, List.map_map]
  refine List.map_congr_left fun l hl => ?_
  obtain ⟨x, -, -, -, hcomp⟩ := h.picture l (List.mem_of_mem_filter hl)
  exact aver_tally hcomp.nodup

/-- No region is found twice. -/
theorem PicturesFound.nodup_map (h : PicturesFound f rs t.1.edge t' ps) :
    (ps.map List.toFinset).Nodup := by
  refine nodup_map_toFinset (List.pairwise_append.mp h.tally.disjoint).2.1 fun l hl => ?_
  obtain ⟨x, -, -, -, hcomp⟩ := h.picture l hl
  exact List.ne_nil_of_mem hcomp.self_mem

/-- **The regions of 255 found** are those next to a flooded region. -/
theorem PicturesFound.mem_map_iff (h : PicturesFound f rs t.1.edge t' ps)
    (hregions : RegionsFound f window t rs) (c : Finset Pixel) :
    c ∈ ps.map List.toFinset ↔ IsWhiteRegion f c := by
  rw [List.mem_map]
  -- a region is flooded from a pixel that was met, and every pixel met has a region
  constructor
  · rintro ⟨l, hl, rfl⟩
    obtain ⟨x, hx, hframe, hwhite, hcomp⟩ := h.picture l hl
    obtain ⟨p, hp, hnear, -⟩ := hregions.mem_edge.mp hx
    exact ⟨⟨x, hframe, hwhite, hcomp.mem_toFinset⟩,
      x, List.mem_toFinset.mpr hcomp.self_mem, p, hp, hnear⟩
  · rintro ⟨⟨x, hframe, hwhite, hmem⟩, q, hq, p, hp, hnear⟩
    have hxq := (hmem q).mp hq
    have hqwhite : isWhite f q = true := (Connected.colour hxq).trans hwhite
    have hedge : q ∈ t.1.edge :=
      hregions.mem_edge.mpr ⟨p, hp, hnear, Connected.onFrame hframe hxq, hqwhite⟩
    obtain ⟨l, hl, hql⟩ := h.mem (fun l hl p hp => hregions.black hl hp) hqwhite
      (h.labelled q hedge)
    obtain ⟨y, -, hyframe, -, hcomp⟩ := h.picture l hl
    have hfromq := hcomp.of_connected (Or.inr rfl) hyframe ((hcomp.mem_iff q).mp hql)
    refine ⟨l, hl, ?_⟩
    ext r
    rw [hfromq.mem_toFinset, hmem]
    exact ⟨fun hr => hxq.trans hr, fun hr => (hxq.symm (Or.inr rfl) hframe).trans hr⟩

/-- The pictures found are the small ones of these regions. -/
theorem PicturesFound.pictureSets_eq (h : PicturesFound f rs t.1.edge t' ps) :
    pictureSets ps = (ps.map List.toFinset).filter fun c => 1 ≤ c.card ∧ c.card ≤ 25 := by
  rw [pictureSets, List.filter_map]
  refine congrArg _ (List.filter_congr fun l hl => ?_)
  obtain ⟨x, -, -, -, hcomp⟩ := h.picture l hl
  rw [Bool.eq_iff_iff, isPicture_tally, Function.comp_apply, decide_eq_true_eq,
    List.toFinset_card_of_nodup hcomp.nodup]

/-- No picture is found twice. -/
theorem PicturesFound.nodup (h : PicturesFound f rs t.1.edge t' ps) : (pictureSets ps).Nodup :=
  h.pictureSets_eq ▸ h.nodup_map.filter _

/-- **The pictures found are the pictures of the frame.** -/
theorem PicturesFound.mem_iff (h : PicturesFound f rs t.1.edge t' ps)
    (hregions : RegionsFound f window t rs) (c : Finset Pixel) :
    c ∈ pictureSets ps ↔ IsPictureRegion f c := by
  rw [h.pictureSets_eq, List.mem_filter, h.mem_map_iff hregions, decide_eq_true_eq]
  exact ⟨fun ⟨hregion, hsmall⟩ => ⟨hregion.region, hsmall, hregion.near⟩,
    fun hpic => ⟨⟨hpic.region, hpic.near⟩, hpic.small⟩⟩

/-- The entries of `PIC` are those of the later regions, and then the pictures. -/
theorem entries_drop (hregions : RegionsFound f window t rs)
    (h : PicturesFound f rs t.1.edge t' ps) :
    entries ((rs ++ ps).drop 1) = entries (rs.drop 1) ++ (pictureSets ps).map centroid := by
  rw [← h.entries_eq]
  cases rs with
  | nil =>
      -- nothing was flooded, and so nothing was met
      have hps : ps = [] := by
        rw [List.eq_nil_iff_forall_not_mem]
        intro l hl
        obtain ⟨x, hx, -⟩ := h.picture l hl
        obtain ⟨m, hm, -⟩ := (hregions.edge x).mp hx
        exact absurd hm List.not_mem_nil
      rw [hps]
      rfl
  | cons l rs =>
      show entries (rs ++ ps) = entries rs ++ entries ps
      simp only [entries, List.map_append, List.filter_append]

/-- **No later region is small**, in terms of the regions found. -/
theorem RegionsFound.entries_eq_nil_iff (h : RegionsFound f window t rs) :
    entries (rs.drop 1) = [] ↔ LaterRegionsLarge f := by
  have hsmall : entries (rs.drop 1) = [] ↔ ∀ l ∈ rs.drop 1, 25 < l.length := by
    rw [entries, List.map_eq_nil_iff, List.filter_eq_nil_iff]
    simp only [List.forall_mem_map, isPicture_tally]
    refine forall₂_congr fun l hl => ?_
    obtain ⟨x, -, -, -, hcomp⟩ := h.region l (List.mem_of_mem_drop hl)
    have hpos : 0 < l.length := List.length_pos_of_mem hcomp.self_mem
    omega
  rw [hsmall]
  constructor
  · intro hlarge x₀ hx₀ x hx hseed hno c hc
    obtain ⟨l, hl, hxl⟩ := h.tally.labelled.mp (h.seed x hx hseed)
    obtain ⟨y, -, hyframe, -, hcomp⟩ := h.region l hl
    have hfromx := hcomp.of_connected (Or.inl rfl) hyframe ((hcomp.mem_iff x).mp hxl)
    have hcard : c.card = l.length := by
      rw [← List.toFinset_card_of_nodup hfromx.nodup]
      congr 1
      ext q
      rw [hfromx.mem_toFinset, hc]
    rw [hcard]
    cases rs with
    | nil => exact absurd hl List.not_mem_nil
    | cons m rs =>
        rcases List.mem_cons.mp hl with rfl | hl
        · -- the first region is that of the first seed
          obtain ⟨z, hz, hfirst⟩ := h.first l rfl
          obtain rfl := Option.some.inj (hx₀.symm.trans hz)
          exact absurd ((hfirst.mem_iff x).mp hxl) hno
        · exact hlarge l hl
  · intro hlarge l hl
    obtain ⟨x, hx, hframe, hseed, hcomp⟩ := h.region l (List.mem_of_mem_drop hl)
    rw [← List.toFinset_card_of_nodup hcomp.nodup]
    cases rs with
    | nil => exact absurd hl List.not_mem_nil
    | cons m rs =>
        obtain ⟨x₀, hx₀, hfirst⟩ := h.first m rfl
        refine hlarge x₀ hx₀ x hx hseed (fun hconn => ?_) _ hcomp.mem_toFinset
        -- the seed would lie in two regions
        exact (List.pairwise_cons.mp h.tally.disjoint).1 l hl ((hfirst.mem_iff x).mpr hconn)
          hcomp.self_mem

/-- **`PIC` is the list of the pictures** exactly when there are no entries of later regions. -/
theorem picturesListed_iff (hregions : RegionsFound f window t rs)
    (h : PicturesFound f rs t.1.edge t' ps) :
    PicturesListed f (entries ((rs ++ ps).drop 1)) ↔ LaterRegionsLarge f := by
  rw [entries_drop hregions h, ← hregions.entries_eq_nil_iff]
  constructor
  · rintro ⟨cs, hnodup, hmem, hperm⟩
    have hsame : cs.Perm (pictureSets ps) :=
      (List.perm_ext_iff_of_nodup hnodup h.nodup).mpr fun c =>
        (hmem c).trans (h.mem_iff hregions c).symm
    have hlength := hperm.length_eq
    rw [List.length_append, List.length_map, List.length_map, hsame.length_eq] at hlength
    exact List.eq_nil_of_length_eq_zero (by omega)
  · intro hnil
    exact ⟨pictureSets ps, h.nodup, h.mem_iff hregions, by rw [hnil, List.nil_append]⟩

end Found

/-- **The pictures found by `init` are the pictures of the frame, each once, exactly when every
region of 0 flooded after the first one has more than 25 pixels.** -/
theorem init_pictures_iff (f : Frame) (c : Corners) :
    ∃ N r, (∀ fuel, N ≤ fuel → init f fuel c (fun _ => ⟨0, 0, 0⟩) = some r) ∧
      (PicturesListed f r.pic ↔ LaterRegionsLarge f) := by
  obtain ⟨N, t, t', rs, ps, r, hregions, hpictures, hpic, hrun⟩ := init_ends f c
  exact ⟨N, r, hrun, hpic ▸ picturesListed_iff hregions hpictures⟩

/-! ## A picture with a hole -/

/-- The corners of an upright field. -/
def upright : Corners := ⟨(44, 96), (144, 96), (44, 24), (144, 24)⟩

/-- The field with its outline drawn and one picture in its centre, a ring around a hole of nine
pixels. -/
def ringFrame : Frame := fun x y =>
  if (44 ≤ x ∧ x ≤ 144 ∧ 24 ≤ y ∧ y ≤ 96) ∧ (x = 44 ∨ x = 144 ∨ y = 24 ∨ y = 96) ∨
      (92 ≤ x ∧ x ≤ 96 ∧ 58 ≤ y ∧ y ≤ 62) ∧ (x = 92 ∨ x = 96 ∨ y = 58 ∨ y = 62) then 255
  else 0

/-- The pixels of the hole. -/
def hole : List Pixel :=
  [(94, 60), (93, 60), (94, 59), (95, 60), (94, 61), (93, 59), (93, 61), (95, 59), (95, 61)]

/-- The hole is a region of its own. -/
theorem hole_component : IsComponent ringFrame 4 (94, 60) hole := by
  refine ⟨by decide, fun q => ⟨fun hq => ?_, fun hq => ?_⟩⟩
  · have hnear : ∀ q ∈ hole, q = (94, 60) ∨ q ∈ linked ringFrame 4 (94, 60) ∨
        ∃ p ∈ linked ringFrame 4 (94, 60), q ∈ linked ringFrame 4 p := by decide
    rcases hnear q hq with rfl | hq | ⟨p, hp, hq⟩
    · exact .refl
    · exact .single hq
    · exact (Relation.ReflTransGen.single hp).tail hq
  · have hclosed : ∀ p ∈ hole, ∀ q ∈ linked ringFrame 4 p, q ∈ hole := by decide
    induction hq with
    | refl => decide
    | tail _ hstep ih => exact hclosed _ ih _ hstep

/-- **The hole of a ring counts as a picture.** -/
theorem ringFrame_lists_hole :
    ∃ N r, (∀ fuel, N ≤ fuel → init ringFrame fuel upright (fun _ => ⟨0, 0, 0⟩) = some r) ∧
      ¬ PicturesListed ringFrame r.pic := by
  obtain ⟨N, t, t', rs, ps, r, hregions, hpictures, hpic, hrun⟩ := init_ends ringFrame upright
  refine ⟨N, r, hrun, ?_⟩
  rw [hpic, picturesListed_iff hregions hpictures]
  intro hlarge
  have hfirst : window.find? (isSeed ringFrame) = some (84, 50) := by rfl
  have hmem : (94, 60) ∈ window :=
    List.mem_flatMap.mpr ⟨10, by decide, List.mem_map.mpr ⟨10, by decide, by decide⟩⟩
  have hapart : ¬ Connected ringFrame 4 (84, 50) (94, 60) := by
    intro hconn
    have hback := hconn.symm (Or.inl rfl) (by decide)
    exact absurd ((hole_component.mem_iff _).mpr hback) (by decide)
  have hcard := hlarge _ hfirst _ hmem (by decide) hapart hole.toFinset hole_component.mem_toFinset
  rw [List.toFinset_card_of_nodup hole_component.nodup] at hcard
  exact absurd hcard (by decide)

end HandlingRobot
