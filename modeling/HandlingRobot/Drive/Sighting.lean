import HandlingRobot.Drive.Approach
import HandlingRobot.Vision.Card

/-! # From the photograph to the card

The main loop takes a photograph, and where `get_pic` has found a card it starts the approach from
there. Here the two are put together: the card in the photograph, and the car in the plane.

* **`Card.place`** — where the centre of a card lies, on the scale of `to_pic`.
* **`place_target`** — the place that `to_pic` heads for is half a centimetre off.
* **`photo_reaches_card`** — a steady car ends at the card that the photograph shows. -/

namespace HandlingRobot

open Real

/-- **The place of a card**, from that of the car when the photograph was taken. -/
def Card.place (c : Card) : ℚ × ℚ :=
  ((c.left + (c.width - 1) / 2 - 94) * (2585 / 10000) + 1,
    (c.bottom + (c.height - 1) / 2 - 60) * (254 / 1000) + 10)

/-- A car that has just been told to go to its card. -/
structure ToPic.Told (s : ToPic ℝ) : Prop where
  motion : s.motion = 5
  rest : s.x = 0 ∧ s.y = 0
  origin : s.xPos1 = 0 ∧ s.yPos1 = 0

/-- The halves that `get_center` cuts off. -/
theorem half_bounds (n : ℤ) : (n : ℝ) - 1 ≤ 2 * ((n / 2 : ℤ) : ℝ) ∧ 2 * ((n / 2 : ℤ) : ℝ) ≤ n := by
  have hcut : n - 1 ≤ 2 * (n / 2) ∧ 2 * (n / 2) ≤ n := by omega
  exact_mod_cast hcut

/-- The place that `to_pic` heads for and that of the card differ by the halves, and by the two
pixels that `pic_i` is off. -/
theorem place_target_sub (c : Card) :
    (toPicTarget (c.left + (c.width + 3) / 2) (c.bottom + (c.height - 1) / 2)).1 - (c.place.1 : ℝ) =
        (((c.width + 3) / 2 : ℤ) - ((c.width : ℝ) - 1) / 2) * (2585 / 10000) ∧
      (toPicTarget (c.left + (c.width + 3) / 2) (c.bottom + (c.height - 1) / 2)).2 -
          (c.place.2 : ℝ) =
        (((c.height - 1) / 2 : ℤ) - ((c.height : ℝ) - 1) / 2) * (254 / 1000) := by
  unfold toPicTarget Card.place
  constructor
  · push_cast
    ring
  · push_cast
    ring

/-- **The place that `to_pic` heads for** is within 0.54 cm of that of the card. -/
theorem place_target (c : Card) :
    ((toPicTarget (c.left + (c.width + 3) / 2) (c.bottom + (c.height - 1) / 2)).1 -
        (c.place.1 : ℝ)) ^ 2 +
      ((toPicTarget (c.left + (c.width + 3) / 2) (c.bottom + (c.height - 1) / 2)).2 -
        (c.place.2 : ℝ)) ^ 2 ≤ (54 / 100) ^ 2 := by
  obtain ⟨hx, hx'⟩ := half_bounds (c.width + 3)
  obtain ⟨hy, hy'⟩ := half_bounds (c.height - 1)
  rw [(place_target_sub c).1, (place_target_sub c).2]
  push_cast at hx hx' hy hy'
  calc _ ≤ (517 / 1000 : ℝ) ^ 2 + (127 / 1000) ^ 2 :=
        add_le_add (sq_le_sq' (by linarith) (by linarith)) (sq_le_sq' (by linarith) (by linarith))
    _ ≤ (54 / 100) ^ 2 := by norm_num

/-- **A card in the photograph is close**: the callbacks to get there are bounded. -/
theorem dist_target {c : Card} (hfits : c.Fits) {s : ToPic ℝ} (hs : s.Told) :
    8 * s.dist (c.left + (c.width + 3) / 2) (c.bottom + (c.height - 1) / 2) + 1 ≤ 255 := by
  obtain ⟨hleft, hbottom, hright, htop, hwidth, hheight⟩ := hfits
  have hx : -80 ≤ c.left + (c.width + 3) / 2 - 94 ∧ c.left + (c.width + 3) / 2 - 94 ≤ 82 := by omega
  have hy : -48 ≤ c.bottom + (c.height - 1) / 2 - 60 ∧
      c.bottom + (c.height - 1) / 2 - 60 ≤ 47 := by omega
  have hx' : (-80 : ℝ) ≤ (c.left + (c.width + 3) / 2 - 94 : ℤ) ∧
      ((c.left + (c.width + 3) / 2 - 94 : ℤ) : ℝ) ≤ 82 := by exact_mod_cast hx
  have hy' : (-48 : ℝ) ≤ (c.bottom + (c.height - 1) / 2 - 60 : ℤ) ∧
      ((c.bottom + (c.height - 1) / 2 - 60 : ℤ) : ℝ) ≤ 47 := by exact_mod_cast hy
  have hdist : s.dist (c.left + (c.width + 3) / 2) (c.bottom + (c.height - 1) / 2) ≤ 127 / 4 := by
    rw [ToPic.dist, hs.origin.1, hs.origin.2, sub_zero, sub_zero, toPicTarget]
    generalize ((c.left + (c.width + 3) / 2 - 94 : ℤ) : ℝ) = dx at hx' ⊢
    generalize ((c.bottom + (c.height - 1) / 2 - 60 : ℤ) : ℝ) = dy at hy' ⊢
    refine sqrt_le_iff.mpr ⟨by norm_num, ?_⟩
    dsimp only
    calc _ ≤ (222 / 10 : ℝ) ^ 2 + (22 : ℝ) ^ 2 :=
          add_le_add (sq_le_sq' (by linarith) (by linarith)) (sq_le_sq' (by linarith) (by linarith))
      _ ≤ (127 / 4) ^ 2 := by norm_num
  linarith

/-- **A steady car ends at the card that the photograph shows**: `get_pic` tells the main loop where
it is, and within 255 callbacks from there the car stands 1.54 cm or less from its centre, with its
message sent once. -/
theorem photo_reaches_card (outside : (Pixel → ℤ) → Pixel → ℤ) (image : Camera) (img : Pixel → ℤ)
    (c : Card) (picture : Set Pixel) (hfits : c.Fits) (hholds : c.Holds picture)
    (hshown : c.Shown picture image)
    (hinside : (searchBox (photoEdges outside image img)).WindowsInside)
    (hplain : Plain picture (photoEdges outside image img)) :
    ∃ p, (getPic outside image img).1 = some p ∧
      ∀ (stop : ℝ × ℝ) (s : ToPic ℝ) (is : List Sense), s.Told →
        StepsSatisfy (approachStep realTrig p.1 p.2 stop) (fun s i => s.motion = 5 → Steady s i) s
          is → 255 ≤ is.length →
        ∃ t, runSteps (approachStep realTrig p.1 p.2 stop) s is = some t ∧
          t.Arrived p.1 p.2 stop ∧ t.sent = s.sent ++ ['3'] ∧
          hypot ((c.place.1 : ℝ) - t.xPos1) ((c.place.2 : ℝ) - t.yPos1) ≤ 154 / 100 := by
  refine ⟨_, photo_center outside img hfits hholds hshown hinside hplain,
    fun stop s is hs hsteady hlen => ?_⟩
  obtain ⟨t, ht, happroaching⟩ := approaching_run hs.motion hs.rest hsteady
  have hlen' : (255 : ℝ) ≤ is.length := by exact_mod_cast hlen
  obtain ⟨harrived, hsent⟩ := happroaching.arrived_of_le ((dist_target hfits hs).trans hlen')
  refine ⟨t, ht, harrived, hsent, ?_⟩
  have hclose := hypot_sub_le_add (x := (toPicTarget (c.left + (c.width + 3) / 2)
    (c.bottom + (c.height - 1) / 2)).1 - t.xPos1) (y := (toPicTarget (c.left + (c.width + 3) / 2)
    (c.bottom + (c.height - 1) / 2)).2 - t.yPos1) (by norm_num) (place_target c)
  rw [sub_sub_sub_cancel_left, sub_sub_sub_cancel_left] at hclose
  have hnear : hypot ((toPicTarget (c.left + (c.width + 3) / 2)
      (c.bottom + (c.height - 1) / 2)).1 - t.xPos1) ((toPicTarget (c.left + (c.width + 3) / 2)
      (c.bottom + (c.height - 1) / 2)).2 - t.yPos1) ≤ 1 := harrived.near
  linarith

/-- There are steady runs of any length: the wheels turn as commanded, rounded to counts. -/
theorem exists_steady (picI picJ : ℤ) (stop : ℝ × ℝ) (n : ℕ) : ∀ s : ToPic ℝ,
    ∃ is : List Sense, is.length = n ∧ StepsSatisfy (approachStep realTrig picI picJ stop)
      (fun s i => s.motion = 5 → Steady s i) s is := by
  induction n with
  | zero => exact fun s => ⟨[], rfl, trivial⟩
  | succ n ih =>
      intro s
      have hsteady : Steady s ⟨fun k => round (mix s.x s.y (s.z : ℝ) k), 0⟩ := by
        refine ⟨fun k => ?_, Or.inl ⟨le_rfl, by norm_num⟩⟩
        rw [abs_sub_comm]
        exact (abs_sub_round _).trans (by norm_num)
      obtain ⟨is, hlen, hsteps⟩ := ih (if s.motion = 5 then toPic realTrig picI picJ stop s
        ⟨fun k => round (mix s.x s.y (s.z : ℝ) k), 0⟩ else s)
      refine ⟨_ :: is, congrArg Nat.succ hlen, fun _ => hsteady, fun t ht => ?_⟩
      obtain rfl := Option.some.inj ht
      exact hsteps

/-- The white card, from rest. -/
theorem photo_reaches_card_white : ∃ p is t,
    (getPic (fun _ _ => 0) cardImage fun _ => 0).1 = some p ∧
      runSteps (approachStep realTrig p.1 p.2 (0, 0)) ⟨0, 0, 0, 0, 0, 5, false, 0, 0, []⟩ is =
        some t ∧ t.Arrived p.1 p.2 (0, 0) ∧ t.sent = ['3'] ∧
      hypot ((whiteCard.place.1 : ℝ) - t.xPos1) ((whiteCard.place.2 : ℝ) - t.yPos1) ≤
        154 / 100 := by
  obtain ⟨p, hp, hrun⟩ := photo_reaches_card (fun _ _ => 0) cardImage (fun _ => 0) whiteCard ∅
    whiteCard_photographed.fits whiteCard_photographed.holds whiteCard_shown
    (whiteCard_photographed.inside_iff.mpr whiteCard_boxFits) whiteCard_photographed.plain
  obtain ⟨is, hlen, hsteady⟩ := exists_steady p.1 p.2 (0, 0) 255
    ⟨0, 0, 0, 0, 0, 5, false, 0, 0, []⟩
  obtain ⟨t, ht⟩ := hrun (0, 0) _ is ⟨rfl, ⟨rfl, rfl⟩, rfl, rfl⟩ hsteady hlen.ge
  exact ⟨p, is, t, hp, ht⟩

end HandlingRobot
