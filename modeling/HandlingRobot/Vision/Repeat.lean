import HandlingRobot.Vision.Tables

/-! # Two calls on the same frame

`init` does not clear `block`, so a call of `find_pic` adds the pixels of every region to what the
calls before have left there. Two calls on the same frame agree when the frame does not lead out of
the tables, the regions that count as pictures in the first call are still small enough in the
second one, and their mean points, which move, stay in their cells of the grid.

* **`FloodsTo`**, **`Regions`** — the tables after the floods of a frame, and the regions in the
  order of the floods.
* **`Vision.after`** — the buffers after a call, in terms of these tables.
* **`findPic_returns`** — every call on frames of which one is accepted returns, with these buffers.
* **`findPicIn`** — the function with the bounds of its tables; **`findPicIn_eq`** — they matter at
  the end of the floods only.
* **`Blob.Keeps`** — an entry of `block` leads to the same picture when its region is added again.
* **`findPic_same_iff`** — two calls agree exactly when the tables suffice and all entries do so.
* **`dash`** — a picture of 13 pixels is found once, and not again. -/

namespace HandlingRobot

/-! ## A call -/

/-- The buffers after a call whose floods fill the blocks of `t`, beginning with empty ones. -/
def Vision.after (c : Corners) (t : Labels × ℕ) (s : Vision) : Vision :=
  (s.list (overFst s.labels.block t)).place c

/-- The regions flooded in the frame `g`, and the tables after these floods. -/
def Regions (g : Frame) (t : Labels × ℕ) (regions : List (List Pixel)) : Prop :=
  ∃ r rs ps, RegionsFound g window r rs ∧ PicturesFound g rs r.1.edge t ps ∧ regions = rs ++ ps

theorem Regions.tally {g : Frame} {t : Labels × ℕ} {regions : List (List Pixel)}
    (h : Regions g t regions) : Tally t regions := by
  obtain ⟨r, rs, ps, -, hps, rfl⟩ := h
  exact hps.tally

/-- No region is empty. -/
theorem Regions.ne_nil {g : Frame} {t : Labels × ℕ} {regions : List (List Pixel)}
    (h : Regions g t regions) {l : List Pixel} (hl : l ∈ regions) : 0 < l.length := by
  obtain ⟨r, rs, ps, hrs, hps, rfl⟩ := h
  rcases List.mem_append.mp hl with hl | hl
  · obtain ⟨x, -, -, -, hcomp⟩ := hrs.region l hl
    exact List.length_pos_of_mem hcomp.self_mem
  · obtain ⟨x, -, -, -, hcomp⟩ := hps.picture l hl
    exact List.length_pos_of_mem hcomp.self_mem

/-- The floods of the frame `g` end with the tables `t`, begun with empty ones. -/
def FloodsTo (g : Frame) (t : Labels × ℕ) : Prop :=
  ∃ N, ∀ fuel, N ≤ fuel → floods g fuel (⟨fun _ => -1, fun _ => ⟨0, 0, 0⟩, []⟩, 0) = some t

/-- **The floods of every frame end.** -/
theorem floods_regions (g : Frame) : ∃ t regions, FloodsTo g t ∧ Regions g t regions := by
  obtain ⟨N, r, t, rs, ps, hrs, hps, hfloods⟩ := floods_ends g
  exact ⟨t, rs ++ ps, ⟨N, hfloods⟩, r, rs, ps, hrs, hps, rfl⟩

/-- Begun with other blocks, they end with these blocks below. -/
theorem FloodsTo.over {g : Frame} {t : Labels × ℕ} (h : FloodsTo g t) (B : ℕ → Blob) :
    ∃ N, ∀ fuel, N ≤ fuel → floods g fuel (⟨fun _ => -1, B, []⟩, 0) = some (overFst B t) := by
  obtain ⟨N, h⟩ := h
  refine ⟨N, fun fuel hfuel => ?_⟩
  have hstart : overFst B (⟨fun _ => -1, fun _ => ⟨0, 0, 0⟩, []⟩, 0) =
      ((⟨fun _ => -1, B, []⟩, 0) : Labels × ℕ) := by
    simp [overFst, Labels.over]
  rw [← hstart, floods_over, h fuel hfuel]
  rfl

/-- **A call returns** when one of the frames is accepted. -/
theorem FloodsTo.returns {image : Camera} {g : Frame} {t : Labels × ℕ} (h : FloodsTo g t)
    (himage : AcceptedAs image g) (s : Vision) (rejected rest : List Camera)
    (hrejected : ∀ other ∈ rejected, Rejected other) :
    Returns (rejected ++ image :: rest) s (s.after (seenCorners image) t) rest := by
  obtain ⟨N, hfloods⟩ := h.over s.labels.block
  obtain ⟨M, hloop⟩ := a4Loop_of_rejected himage rejected rest hrejected
  refine ⟨max M N, fun fuel hfuel => ?_⟩
  rw [findPic, hloop fuel ((le_max_left M N).trans hfuel), Option.bind_eq_bind, Option.bind_some]
  dsimp only
  rw [initVision, hfloods fuel ((le_max_right M N).trans hfuel)]
  rfl

/-- **Every call returns** when one of the frames is accepted. -/
theorem findPic_returns {image : Camera} {g : Frame} (himage : AcceptedAs image g) :
    ∃ t regions, Regions g t regions ∧
      ∀ (s : Vision) (rejected rest : List Camera), (∀ other ∈ rejected, Rejected other) →
        Returns (rejected ++ image :: rest) s (s.after (seenCorners image) t) rest := by
  obtain ⟨t, regions, hfloods, hregions⟩ := floods_regions g
  exact ⟨t, regions, hregions, hfloods.returns himage⟩

/-- No two results of one call. -/
theorem Returns.unique {images : List Camera} {s s₁ s₂ : Vision} {rest₁ rest₂ : List Camera}
    (h₁ : Returns images s s₁ rest₁) (h₂ : Returns images s s₂ rest₂) : s₁ = s₂ := by
  obtain ⟨N, h₁⟩ := h₁
  obtain ⟨M, h₂⟩ := h₂
  have heq := (h₁ _ (le_max_left N M)).symm.trans (h₂ _ (le_max_right N M))
  exact congrArg Prod.fst (Option.some.inj heq)

/-- **Every call that returns has accepted a frame.** -/
theorem Returns.exists_after {images : List Camera} {s s' : Vision} {rest : List Camera}
    (h : Returns images s s' rest) :
    ∃ g t regions c, Regions g t regions ∧ s' = s.after c t := by
  cases himages : images.find? fun image => decide (¬ Rejected image) with
  | none =>
      -- all frames are rejected, and the loop goes on
      have hrejected : ∀ other ∈ images, Rejected other := fun other hother => by
        simpa using List.find?_eq_none.mp himages other hother
      obtain ⟨N, hloop⟩ := a4Loop_of_all_rejected images hrejected
      obtain ⟨M, h⟩ := h
      have hrun := h (max N M) (le_max_right N M)
      rw [findPic, hloop _ (le_max_left N M)] at hrun
      exact absurd hrun (by simp)
  | some image =>
      obtain ⟨himage, pre, post, rfl, hpre⟩ := List.find?_eq_some_iff_append.mp himages
      obtain ⟨g, hg⟩ := exists_acceptedAs (of_decide_eq_true himage)
      obtain ⟨t, regions, hregions, hreturns⟩ := findPic_returns hg
      refine ⟨g, t, regions, seenCorners image, hregions, h.unique (hreturns s pre post ?_)⟩
      exact fun other hother => by simpa using hpre other hother

@[simp] theorem Vision.after_block (c : Corners) (t : Labels × ℕ) (s : Vision) (i : ℕ) :
    (s.after c t).labels.block i = (s.labels.block i).plus (t.1.block i) := rfl

/-- **No entry of `block` counts less than nothing.** -/
theorem Vision.Reachable.nonneg {s : Vision} (h : s.Reachable) (i : ℕ) :
    0 ≤ (s.labels.block i).num := by
  induction h with
  | boot => exact le_refl 0
  | call _ hcall ih =>
      obtain ⟨g, t, regions, c, hregions, rfl⟩ := hcall.exists_after
      rw [Vision.after_block, hregions.tally.block, tally_eq]
      exact add_nonneg ih (Int.natCast_nonneg _)

/-! ## A call within the tables -/

/-- **`find_pic` within the tables** of `init`; `none` as soon as it leaves one of them. -/
def findPicIn (fuel : ℕ) (images : List Camera) (s : Vision) : Option (Vision × List Camera) := do
  let ((f, c), rest) ← a4Loop fuel images
  let t ← floodsIn f fuel (⟨fun _ => -1, s.labels.block, []⟩, 0)
  if (pictureNodes t).length ≤ picCapacity then some ((s.list t).place c, rest) else none

/-- A call within the tables returns, with these buffers and these frames left. -/
def ReturnsIn (images : List Camera) (s s' : Vision) (rest : List Camera) : Prop :=
  ∃ N, ∀ fuel, N ≤ fuel → findPicIn fuel images s = some (s', rest)

/-- **The tables decide at the end of the floods only.** -/
theorem FloodsTo.findPicIn_eq {image : Camera} {g : Frame} {t : Labels × ℕ} (h : FloodsTo g t)
    (himage : AcceptedAs image g) (s : Vision) (rejected rest : List Camera)
    (hrejected : ∀ other ∈ rejected, Rejected other) :
    ∃ N, ∀ fuel, N ≤ fuel → findPicIn fuel (rejected ++ image :: rest) s =
      if fits t = true then some (s.after (seenCorners image) t, rest) else none := by
  obtain ⟨N, hfloods⟩ := h.over s.labels.block
  obtain ⟨M, hloop⟩ := a4Loop_of_rejected himage rejected rest hrejected
  refine ⟨max M N, fun fuel hfuel => ?_⟩
  have hstart : fits (⟨fun _ => -1, s.labels.block, []⟩, 0) = true := rfl
  have hover : fits (overFst s.labels.block t) = fits t := rfl
  rw [findPicIn, hloop fuel ((le_max_left M N).trans hfuel), Option.bind_eq_bind, Option.bind_some]
  dsimp only
  rw [floodsIn_eq hstart, hfloods fuel ((le_max_right M N).trans hfuel)]
  split_ifs with hfits
  · rw [Option.filter_some_pos (hover.trans hfits), Option.bind_eq_bind, Option.bind_some,
      if_pos (pictureNodes_length_le (hover.trans hfits))]
    rfl
  · rw [Option.filter_some_neg (hover.trans (Bool.of_not_eq_true hfits))]
    rfl

/-- A call within the tables is a call, and the tables have room for it. -/
theorem FloodsTo.returnsIn_iff {image : Camera} {g : Frame} {t : Labels × ℕ} (h : FloodsTo g t)
    (himage : AcceptedAs image g) {s s' : Vision} {rejected rest : List Camera}
    (hrejected : ∀ other ∈ rejected, Rejected other) :
    ReturnsIn (rejected ++ image :: rest) s s' rest ↔
      fits t = true ∧ s' = s.after (seenCorners image) t := by
  obtain ⟨N, hcall⟩ := h.findPicIn_eq himage s rejected rest hrejected
  constructor
  · rintro ⟨M, hreturn⟩
    have heq := (hcall _ (le_max_left N M)).symm.trans (hreturn _ (le_max_right N M))
    split_ifs at heq with hfits
    exact ⟨hfits, (congrArg Prod.fst (Option.some.inj heq)).symm⟩
  · rintro ⟨hfits, rfl⟩
    exact ⟨N, fun fuel hfuel => (hcall fuel hfuel).trans (if_pos hfits)⟩

/-- **When the tables have room**, by the regions and the pixels met. -/
theorem FloodsTo.fits_iff {g : Frame} {t : Labels × ℕ} (h : FloodsTo g t) : fits t = true ↔
    (regionSets g).ncard + (whiteSets g).ncard ≤ 25 ∧ (metPairs g).ncard ≤ 188 * 16 := by
  obtain ⟨N, h⟩ := h
  obtain ⟨M, t', hrun, hcnt, htot, -⟩ := floods_counts g fun _ => ⟨0, 0, 0⟩
  obtain rfl : t = t' :=
    Option.some.inj ((h _ (le_max_left N M)).symm.trans (hrun _ (le_max_right N M)))
  rw [HandlingRobot.fits_iff, hcnt, htot]
  rfl

/-! ## What a call leaves -/

/-- The blocks that count as pictures. -/
def pictureBlocks (block : ℕ → Blob) (cnt : ℕ) : List ℕ :=
  (List.range' 1 (cnt - 1)).filter fun i => isPicture (block i)

theorem pictureNodes_eq (t : Labels × ℕ) :
    pictureNodes t = (pictureBlocks t.1.block t.2).map fun i => (t.1.block i).aver := by
  rw [pictureNodes, List.filter_map, List.map_map]
  rfl

theorem mem_pictureBlocks {block : ℕ → Blob} {cnt i : ℕ} :
    i ∈ pictureBlocks block cnt ↔ (1 ≤ i ∧ i < cnt) ∧ isPicture (block i) = true := by
  rw [pictureBlocks, List.mem_filter, List.mem_range'_1]
  refine and_congr_left fun _ => ?_
  omega

/-- The cell of the grid for the mean point of an entry. -/
def Blob.cell (c : Corners) (b : Blob) : ℕ × ℕ := gridCell (locate c b.aver)

/-- The blocks after a call that adds those of `t`. -/
def sumBlocks (B : ℕ → Blob) (t : Labels × ℕ) (i : ℕ) : Blob := (B i).plus (t.1.block i)

theorem Vision.after_picNum (c : Corners) (t : Labels × ℕ) (s : Vision) :
    (s.after c t).picNum = (pictureBlocks (sumBlocks s.labels.block t) t.2).length := by
  show (pictureNodes (overFst s.labels.block t)).length = _
  rw [pictureNodes_eq, List.length_map]
  rfl

/-- **`pos_int` after a call**: the cells of the pictures. -/
theorem Vision.after_posInt (c : Corners) (t : Labels × ℕ) (s : Vision) {k i : ℕ}
    (hk : (pictureBlocks (sumBlocks s.labels.block t) t.2)[k]? = some i) :
    (s.after c t).posInt k = (sumBlocks s.labels.block t i).cell c := by
  have hlt : k < (s.after c t).picNum := by
    rw [Vision.after_picNum]
    exact (List.getElem?_eq_some_iff.mp hk).1
  have hnode : (pictureNodes (overFst s.labels.block t))[k]? =
      some (sumBlocks s.labels.block t i).aver := by
    rw [pictureNodes_eq, List.getElem?_map]
    exact congrArg (Option.map fun j => (sumBlocks s.labels.block t j).aver) hk
  have hpic : (s.after c t).pic k = (sumBlocks s.labels.block t i).aver := by
    show (pictureNodes (overFst s.labels.block t)).getD k (s.pic k) = _
    rw [List.getD_eq_getElem?_getD, hnode]
    rfl
  calc (s.after c t).posInt k
      = gridCell (if k < (s.after c t).picNum then locate c ((s.after c t).pic k) else s.pos k) :=
        if_pos hlt
    _ = (sumBlocks s.labels.block t i).cell c := by rw [if_pos hlt, hpic]; rfl

/-! ## Two calls -/

/-- **An entry `b` leads to the same picture** when `d` is added to it once and when it is added
twice: it is still small enough, and its mean point lies in the same cell. -/
def Blob.Keeps (c : Corners) (b d : Blob) : Prop :=
  isPicture (b.plus d) = true →
    isPicture ((b.plus d).plus d) = true ∧ (b.plus d).cell c = ((b.plus d).plus d).cell c

/-- `pic_num` is the same, and so is `pos_int` up to it. -/
def SamePictures (s₁ s₂ : Vision) : Prop :=
  s₁.picNum = s₂.picNum ∧ ∀ i < s₂.picNum, s₁.posInt i = s₂.posInt i

/-- What is small after a region was added twice was small after it was added once. -/
theorem isPicture_of_twice {b : Blob} (hb : 0 ≤ b.num) {l : List Pixel} (hl : 0 < l.length)
    (h : isPicture ((b.plus (tally l)).plus (tally l)) = true) :
    isPicture (b.plus (tally l)) = true := by
  rw [tally_eq, isPicture_iff] at h ⊢
  simp only [Blob.plus] at h ⊢
  omega

/-- **No picture of the second call is new.** -/
theorem Regions.pictureBlocks_twice {g : Frame} {t : Labels × ℕ} {regions : List (List Pixel)}
    (h : Regions g t regions) {B : ℕ → Blob} (hB : ∀ i, 0 ≤ (B i).num) :
    pictureBlocks (sumBlocks (sumBlocks B t) t) t.2 =
      (pictureBlocks (sumBlocks B t) t.2).filter fun i =>
        isPicture (sumBlocks (sumBlocks B t) t i) := by
  rw [pictureBlocks, pictureBlocks, List.filter_filter]
  refine List.filter_congr fun i hi => ?_
  have hlt : i < t.2 := by
    have hbounds := List.mem_range'_1.mp hi
    omega
  have hmem : regions.getD i [] ∈ regions := by
    rw [List.getD_eq_getElem _ _ (h.tally.cnt ▸ hlt)]
    exact List.getElem_mem _
  have hmono : isPicture (sumBlocks (sumBlocks B t) t i) = true →
      isPicture (sumBlocks B t i) = true := by
    simp only [sumBlocks, h.tally.block]
    apply isPicture_of_twice (hB i) (h.ne_nil hmem)
  cases hpic : isPicture (sumBlocks (sumBlocks B t) t i) with
  | false => rfl
  | true => rw [hmono hpic]; rfl

/-- **Two calls that flood the same regions agree exactly when all entries keep their pictures.** -/
theorem Vision.after_same_iff {c : Corners} {g : Frame} {t : Labels × ℕ}
    {regions : List (List Pixel)} (hregions : Regions g t regions) {s : Vision}
    (hs : ∀ i, 0 ≤ (s.labels.block i).num) :
    SamePictures (s.after c t) ((s.after c t).after c t) ↔
      ∀ i, 1 ≤ i → i < t.2 → (s.labels.block i).Keeps c (t.1.block i) := by
  generalize hB : sumBlocks s.labels.block t = B
  have hB' : sumBlocks (s.after c t).labels.block t = sumBlocks B t := by
    rw [← hB]
    rfl
  have hnum : (s.after c t).picNum = (pictureBlocks B t.2).length := by
    rw [Vision.after_picNum, hB]
  have hnum' : ((s.after c t).after c t).picNum = (pictureBlocks (sumBlocks B t) t.2).length := by
    rw [Vision.after_picNum, hB']
  -- both calls in terms of the blocks after the first one
  have hposInt : ∀ {k i : ℕ}, (pictureBlocks B t.2)[k]? = some i →
      (s.after c t).posInt k = (B i).cell c := fun hk => by
    rw [Vision.after_posInt c t s (hB ▸ hk), hB]
  have hposInt' : ∀ {k i : ℕ}, (pictureBlocks (sumBlocks B t) t.2)[k]? = some i →
      ((s.after c t).after c t).posInt k = (sumBlocks B t i).cell c := fun hk => by
    rw [Vision.after_posInt c t _ (hB' ▸ hk), hB']
  have hkeeps : ∀ i, (s.labels.block i).Keeps c (t.1.block i) ↔ (isPicture (B i) = true →
      isPicture (sumBlocks B t i) = true ∧ (B i).cell c = (sumBlocks B t i).cell c) := by
    intro i
    rw [← hB]
    rfl
  have hfilter : pictureBlocks (sumBlocks B t) t.2 =
      (pictureBlocks B t.2).filter fun i => isPicture (sumBlocks B t i) :=
    hB ▸ hregions.pictureBlocks_twice hs
  simp only [SamePictures, hnum, hnum', hkeeps]
  constructor
  · rintro ⟨hlength, hcells⟩ i hi hlt hpic
    -- the second list is a part of the first one, so as many pictures are the same ones
    have hall : ∀ i ∈ pictureBlocks B t.2, isPicture (sumBlocks B t i) = true := by
      rw [← List.length_filter_eq_length_iff, ← hfilter]
      exact hlength.symm
    have hsame : pictureBlocks (sumBlocks B t) t.2 = pictureBlocks B t.2 := by
      rw [hfilter, List.filter_eq_self.mpr hall]
    have hmem : i ∈ pictureBlocks B t.2 := mem_pictureBlocks.mpr ⟨⟨hi, hlt⟩, hpic⟩
    refine ⟨hall i hmem, ?_⟩
    obtain ⟨k, hk⟩ := List.getElem?_of_mem hmem
    have hklt := (List.getElem?_eq_some_iff.mp hk).1
    rw [← hposInt hk, ← hposInt' (hsame.symm ▸ hk)]
    exact hcells k (hlength ▸ hklt)
  · intro hall
    have hsame : pictureBlocks (sumBlocks B t) t.2 = pictureBlocks B t.2 := by
      rw [hfilter, List.filter_eq_self]
      intro i hi
      obtain ⟨⟨hi, hlt⟩, hpic⟩ := mem_pictureBlocks.mp hi
      exact (hall i hi hlt hpic).1
    rw [hsame]
    refine ⟨rfl, fun k hk => ?_⟩
    have hget := List.getElem?_eq_getElem hk
    obtain ⟨⟨hi, hlt⟩, hpic⟩ := mem_pictureBlocks.mp (List.getElem_mem hk)
    have hget' : (pictureBlocks (sumBlocks B t) t.2)[k]? = some (pictureBlocks B t.2)[k] := by
      rw [hsame, hget]
    rw [hposInt hget, hposInt' hget']
    exact (hall _ hi hlt hpic).2

/-- **Two successive calls on the same accepted frame** stay inside the tables and find the same
pictures exactly when the tables have room for its regions, and every region after the first one,
in the order of the floods, keeps the picture of its entry of `block`. -/
theorem findPic_same_iff {s : Vision} (hs : s.Reachable) {image : Camera}
    (himage : ¬ Rejected image) (rejected rejected' rest : List Camera)
    (hrejected : ∀ other ∈ rejected, Rejected other)
    (hrejected' : ∀ other ∈ rejected', Rejected other) :
    ∃ g t regions, AcceptedAs image g ∧ FloodsTo g t ∧ Regions g t regions ∧
      ((∃ s₁ s₂, ReturnsIn (rejected ++ image :: (rejected' ++ image :: rest)) s s₁
          (rejected' ++ image :: rest) ∧
        ReturnsIn (rejected' ++ image :: rest) s₁ s₂ rest ∧ SamePictures s₁ s₂) ↔
        ((regionSets g).ncard + (whiteSets g).ncard ≤ 25 ∧ (metPairs g).ncard ≤ 188 * 16) ∧
          ∀ i, 1 ≤ i → i < regions.length →
            (s.labels.block i).Keeps (seenCorners image) (tally (regions.getD i []))) := by
  obtain ⟨g, hg⟩ := exists_acceptedAs himage
  obtain ⟨t, regions, hfloods, hregions⟩ := floods_regions g
  refine ⟨g, t, regions, hg, hfloods, hregions, ?_⟩
  simp only [hfloods.returnsIn_iff hg hrejected, hfloods.returnsIn_iff hg hrejected',
    ← hfloods.fits_iff]
  have hsame := Vision.after_same_iff (c := seenCorners image) hregions hs.nonneg
  rw [hregions.tally.cnt] at hsame
  simp only [hregions.tally.block] at hsame
  constructor
  · rintro ⟨_, _, ⟨hfits, rfl⟩, ⟨-, rfl⟩, hpictures⟩
    exact ⟨hfits, hsame.mp hpictures⟩
  · rintro ⟨hfits, hkeeps⟩
    exact ⟨_, _, ⟨hfits, rfl⟩, ⟨hfits, rfl⟩, hsame.mpr hkeeps⟩

/-! ## A picture that is found once -/

/-- A dash of 13 pixels. -/
def dash : Marks where
  pixels := (List.range 13).map fun (i : ℕ) => (84 + (i : ℤ), 71)
  nodup := by decide
  inside := by decide
  length_le := by decide

/-- The dark pixels of the photograph. -/
theorem isDark_dash {x y : ℤ} : dash.IsDark x y ↔
    (44 ≤ x ∧ x ≤ 144 ∧ 24 ≤ y ∧ y ≤ 96) ∧ (x = 44 ∨ x = 144 ∨ y = 24 ∨ y = 96) ∨
      (84 ≤ x ∧ x ≤ 96) ∧ y = 71 ∨ (0 ≤ x ∧ x ≤ 154) ∧ y = 0 := by
  have hpixels : (x, y) ∈ dash.pixels ↔ (84 ≤ x ∧ x ≤ 96) ∧ y = 71 := by
    simp only [dash, List.mem_map, List.mem_range, Prod.mk.injEq]
    constructor
    · rintro ⟨i, hi, rfl, rfl⟩
      omega
    · intro h
      exact ⟨(x - 84).toNat, by omega, by omega, h.2.symm⟩
  have hlength : dash.pixels.length = 13 := rfl
  rw [Marks.IsDark, hpixels, hlength]
  omega

theorem dash_component : IsComponent dash.field 8 (84, 71) dash.pixels := by
  have hclosed : ∀ p ∈ dash.pixels, ∀ q ∈ linked dash.field 8 p, q ∈ dash.pixels := by
    decide +kernel
  have hgrow : ∀ i < 12,
      (84 + ((i + 1 : ℕ) : ℤ), 71) ∈ linked dash.field 8 (84 + ((i : ℕ) : ℤ), 71) := by
    decide +kernel
  have hconn : ∀ i < 13, Connected dash.field 8 (84, 71) (84 + ((i : ℕ) : ℤ), 71) := by
    intro i
    induction i with
    | zero => exact fun _ => .refl
    | succ i ih => exact fun hi => (ih (by omega)).tail (hgrow i (by omega))
  refine ⟨dash.nodup, fun q => ⟨fun hq => ?_, fun hq => ?_⟩⟩
  · obtain ⟨i, hi, rfl⟩ := List.mem_map.mp hq
    exact hconn i (List.mem_range.mp hi)
  · induction hq with
    | refl => decide
    | tail _ hstep ih => exact hclosed _ ih _ hstep

/-- **The dash is one of the later regions.** -/
theorem Regions.exists_dash {t : Labels × ℕ} {regions : List (List Pixel)}
    (h : Regions dash.field t regions) :
    ∃ i, 1 ≤ i ∧ i < regions.length ∧ (regions.getD i []).length = 13 := by
  obtain ⟨r, rs, ps, hrs, hps, rfl⟩ := h
  have hseed : (84, 69) ∈ window :=
    List.mem_flatMap.mpr ⟨0, by decide, List.mem_map.mpr ⟨19, by decide, by decide⟩⟩
  have hflooded : Flooded dash.field (84, 70) :=
    ⟨(84, 69), hseed, by decide +kernel, .single (by decide +kernel)⟩
  have hwhite : isWhite dash.field (84, 71) = true := by decide +kernel
  have hedge : (84, 71) ∈ r.1.edge := by
    rw [hrs.mem_edge]
    exact ⟨(84, 70), hflooded, Or.inr ⟨rfl, Or.inl rfl⟩, by decide, hwhite⟩
  -- the pixel above the seed is met, so its region is flooded
  obtain ⟨l, hl, hmem⟩ := hps.mem (fun l hl p hp => hrs.black hl hp) hwhite (hps.labelled _ hedge)
  obtain ⟨m, hm, -⟩ := (hrs.edge _).mp hedge
  obtain ⟨x, -, hx, -, hcomp⟩ := hps.picture l hl
  have hdash := hcomp.of_connected (Or.inr rfl) hx ((hcomp.mem_iff _).mp hmem)
  have hperm : l.Perm dash.pixels :=
    (List.perm_ext_iff_of_nodup hcomp.nodup dash_component.nodup).mpr
      fun q => (hdash.mem_iff q).trans (dash_component.mem_iff q).symm
  obtain ⟨k, hk, rfl⟩ := List.mem_iff_getElem.mp hl
  have hpos := List.length_pos_of_mem hm
  refine ⟨rs.length + k, by omega, by rw [List.length_append]; omega, ?_⟩
  rw [List.getD_append_right _ _ _ _ (Nat.le_add_right _ _), Nat.add_sub_cancel_left,
    List.getD_eq_getElem _ _ hk, hperm.length_eq]
  rfl

/-- The tables have room for the photograph: one region is flooded, and the dark pixels are those of
the outline, of the dash and of the lowest row. -/
theorem dash_fits :
    (regionSets dash.field).ncard + (whiteSets dash.field).ncard ≤ 25 ∧
      (metPairs dash.field).ncard ≤ 188 * 16 := by
  have hblack : ∀ x y : ℤ, 84 ≤ x → x ≤ 103 → 50 ≤ y → y ≤ 69 →
      OnFrame (x, y) ∧ isWhite dash.field (x, y) = false := by
    intro x y hx hx' hy hy'
    have hframe : OnFrame (x, y) := by
      simp only [OnFrame, imgWidth, imgHeight]
      omega
    refine ⟨hframe, Bool.eq_false_iff.mpr fun hwhite => ?_⟩
    have hdark := isDark_dash.mp ((dash.isWhite_field hframe).mp hwhite)
    dsimp only at hdark
    omega
  have hregions : (regionSets dash.field).ncard ≤ [((84, 50) : Pixel)].length := by
    refine regionSets_ncard_le fun q hq _ => ⟨_, List.mem_singleton_self _, ?_⟩
    obtain ⟨i, hi, hq⟩ := List.mem_flatMap.mp hq
    obtain ⟨j, hj, rfl⟩ := List.mem_map.mp hq
    rw [List.mem_range] at hi hj
    simp only [imgWidth, imgHeight]
    -- along the column to the first row of the window, then along this row
    have hdown : Connected dash.field 4 (84 + (i : ℤ), 50) (84 + (i : ℤ), 50 + (j : ℤ)) :=
      connected_column (Or.inl rfl) (by omega) fun a ha ha' =>
        ⟨(hblack _ a (by omega) (by omega) ha (by omega)).1,
          (hblack _ a (by omega) (by omega) ha (by omega)).2.trans
            (hblack _ 50 (by omega) (by omega) le_rfl (by omega)).2.symm⟩
    have hback : Connected dash.field 4 (84, 50) (84 + (i : ℤ), 50) :=
      connected_row (Or.inl rfl) (by omega) fun a ha ha' =>
        ⟨(hblack a 50 ha (by omega) le_rfl (by omega)).1,
          (hblack a 50 ha (by omega) le_rfl (by omega)).2.trans
            (hblack 84 50 le_rfl (by omega) le_rfl (by omega)).2.symm⟩
    exact (hback.trans hdown).symm (Or.inl rfl) (hblack 84 50 le_rfl (by omega) le_rfl (by omega)).1
  have hdark : ∀ x y : ℤ, dash.IsDark x y → OnFrame (x, y) ∧ isWhite dash.field (x, y) = true :=
    fun x y h => ⟨h.onFrame, (dash.isWhite_field h.onFrame).mpr h⟩
  have hrow : ∀ x x' y : ℤ, x ≤ x' → (∀ a, x ≤ a → a ≤ x' → dash.IsDark a y) →
      Connected dash.field 8 (x', y) (x, y) := fun x x' y hle h =>
    (connected_row (Or.inr rfl) hle fun a ha ha' => ⟨(hdark a y (h a ha ha')).1,
      (hdark a y (h a ha ha')).2.trans (hdark x y (h x le_rfl hle)).2.symm⟩).symm (Or.inr rfl)
      (hdark x y (h x le_rfl hle)).1
  have hcolumn : ∀ x y y' : ℤ, y ≤ y' → (∀ a, y ≤ a → a ≤ y' → dash.IsDark x a) →
      Connected dash.field 8 (x, y') (x, y) := fun x y y' hle h =>
    (connected_column (Or.inr rfl) hle fun a ha ha' => ⟨(hdark x a (h a ha ha')).1,
      (hdark x a (h a ha ha')).2.trans (hdark x y (h y le_rfl hle)).2.symm⟩).symm (Or.inr rfl)
      (hdark x y (h y le_rfl hle)).1
  have hwhites : (whiteSets dash.field).ncard ≤
      [((44, 24) : Pixel), (144, 24), (44, 96), (84, 71), (0, 0)].length := by
    refine whiteSets_ncard_le fun q hq hwhite => ?_
    obtain ⟨x, y⟩ := q
    have hin := isDark_dash.mp ((dash.isWhite_field hq).mp hwhite)
    dsimp only at hin
    obtain ⟨hbox, rfl | rfl | rfl | rfl⟩ | ⟨hx, rfl⟩ | ⟨hx, rfl⟩ := hin
    · exact ⟨(44, 24), by simp, hcolumn 44 24 y (by omega) fun a _ _ =>
        isDark_dash.mpr (by omega)⟩
    · exact ⟨(144, 24), by simp, hcolumn 144 24 y (by omega) fun a _ _ =>
        isDark_dash.mpr (by omega)⟩
    · exact ⟨(44, 24), by simp, hrow 44 x 24 (by omega) fun a _ _ => isDark_dash.mpr (by omega)⟩
    · exact ⟨(44, 96), by simp, hrow 44 x 96 (by omega) fun a _ _ => isDark_dash.mpr (by omega)⟩
    · exact ⟨(84, 71), by simp, hrow 84 x 71 (by omega) fun a _ _ => isDark_dash.mpr (by omega)⟩
    · exact ⟨(0, 0), by simp, hrow 0 x 0 (by omega) fun a _ _ => isDark_dash.mpr (by omega)⟩
  have hmet := dash.metPairs_le
  simp only [List.length_cons, List.length_nil] at hregions hwhites
  omega

/-- **The second of two calls after the start does not find the dash any more**, which counts 26
pixels by then. -/
theorem findPic_dash_differs :
    ∃ s₁ s₂, ReturnsIn [dash.image, dash.image] Vision.boot s₁ [dash.image] ∧
      ReturnsIn [dash.image] s₁ s₂ [] ∧ ¬ SamePictures s₁ s₂ := by
  obtain ⟨t, regions, hfloods, hregions⟩ := floods_regions dash.field
  have hfits : fits t = true := hfloods.fits_iff.mpr dash_fits
  have hnone : ∀ other ∈ ([] : List Camera), Rejected other := by simp
  have hcall : ∀ s rest, ReturnsIn (dash.image :: rest) s (s.after (seenCorners dash.image) t)
      rest := fun s rest => (hfloods.returnsIn_iff dash.acceptedAs hnone).mpr ⟨hfits, rfl⟩
  refine ⟨_, _, hcall Vision.boot [dash.image], hcall _ [], ?_⟩
  rw [Vision.after_same_iff hregions Vision.Reachable.boot.nonneg]
  intro hkeeps
  obtain ⟨i, hi, hlt, hlength⟩ := hregions.exists_dash
  have hnum : (t.1.block i).num = 13 := by
    rw [hregions.tally.block, tally_eq, hlength]
    rfl
  have hboot : (Vision.boot.labels.block i).num = 0 := rfl
  have honce : isPicture ((Vision.boot.labels.block i).plus (t.1.block i)) = true := by
    rw [isPicture_iff, Blob.plus_num, hnum, hboot]
    decide
  have htwice := (hkeeps i hi (hregions.tally.cnt ▸ hlt) honce).1
  rw [isPicture_iff, Blob.plus_num, Blob.plus_num, hnum, hboot] at htwice
  exact absurd htwice.2 (by decide)

/-- The same two calls. -/
theorem findPic_same_iff_dash :
    ∃ g t regions, AcceptedAs dash.image g ∧ FloodsTo g t ∧ Regions g t regions ∧
      ((∃ s₁ s₂, ReturnsIn [dash.image, dash.image] Vision.boot s₁ [dash.image] ∧
        ReturnsIn [dash.image] s₁ s₂ [] ∧ SamePictures s₁ s₂) ↔
        ((regionSets g).ncard + (whiteSets g).ncard ≤ 25 ∧ (metPairs g).ncard ≤ 188 * 16) ∧
          ∀ i, 1 ≤ i → i < regions.length →
            (Vision.boot.labels.block i).Keeps (seenCorners dash.image)
              (tally (regions.getD i []))) :=
  findPic_same_iff .boot dash.not_rejected [] [] [] (by simp) (by simp)

end HandlingRobot
