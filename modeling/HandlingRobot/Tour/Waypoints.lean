import HandlingRobot.Tour.Legs
import Mathlib.Data.List.Chain

/-! # The waypoints of joined legs

`make_path` starts a path at the start of its leg only when the path is empty. Every further leg is
laid from the last waypoint that is there, whatever its start; so the waypoints are those of the
legs when each leg starts where the one before it ends.

* **`LegCall`**, **`makePaths`** — calls of `make_path` on one path.
* **`LegCall.waypoint`** — the points that cut a leg into equal pieces, each shorter than `dis_step`
  (`LegCall.piece_lt`).
* **`Planner.Laid`** — the path holds the waypoints of the legs, one leg after the other.
* **`makePaths_lays`** — it does so after any calls whose legs are joined. -/

namespace HandlingRobot

/-! ## One leg -/

/-- **A call of `make_path`**, but for the number of its path. -/
structure LegCall where
  x0 : ℤ
  y0 : ℤ
  x1 : ℤ
  y1 : ℤ
  disStep : ℚ

namespace LegCall

/-- The number of pieces of the leg. -/
def pieces (l : LegCall) : ℕ := pieceCount (l.x1 - l.x0) (l.y1 - l.y0) l.disStep

/-- **Point `i` of the leg**, of those that cut it into equal pieces. -/
def waypoint (l : LegCall) (i : ℕ) : ℚ × ℚ :=
  (l.x0 + i * ((l.x1 - l.x0) / l.pieces), l.y0 + i * ((l.y1 - l.y0) / l.pieces))

/-- The leg `m` starts where the leg `l` ends. -/
def Joined (l m : LegCall) : Prop := l.x1 = m.x0 ∧ l.y1 = m.y0

theorem pieces_pos (l : LegCall) : 0 < l.pieces := Nat.succ_pos _

theorem waypoint_zero (l : LegCall) : l.waypoint 0 = (↑l.x0, ↑l.y0) := by
  simp [waypoint]

theorem waypoint_pieces (l : LegCall) : l.waypoint l.pieces = (↑l.x1, ↑l.y1) := by
  have hne : (l.pieces : ℚ) ≠ 0 := Nat.cast_ne_zero.mpr l.pieces_pos.ne'
  rw [waypoint, mul_div_cancel₀ _ hne, mul_div_cancel₀ _ hne, add_sub_cancel, add_sub_cancel]

/-- The square of the distance of two points. -/
def distSq (p q : ℚ × ℚ) : ℚ := (p.1 - q.1) ^ 2 + (p.2 - q.2) ^ 2

/-- **A piece is shorter than `dis_step`**: the count is the quotient cut off, and one more. -/
theorem piece_lt (l : LegCall) (h : 0 < l.disStep) (i : ℕ) :
    distSq (l.waypoint i) (l.waypoint (i + 1)) < l.disStep ^ 2 := by
  have hpos : (0 : ℚ) < l.pieces := Nat.cast_pos.mpr l.pieces_pos
  generalize hdx : ((l.x1 : ℚ) - l.x0) = dx
  generalize hdy : ((l.y1 : ℚ) - l.y0) = dy
  have hcount : (dx * dx + dy * dy) / (l.disStep * l.disStep) < (l.pieces : ℚ) ^ 2 := by
    have hroot : ⌊(dx * dx + dy * dy) / (l.disStep * l.disStep)⌋₊ < l.pieces ^ 2 := by
      rw [pieces, hdx, hdy]
      exact Nat.lt_succ_sqrt' _
    have hfloor := Nat.lt_floor_add_one ((dx * dx + dy * dy) / (l.disStep * l.disStep))
    have hle : ((⌊(dx * dx + dy * dy) / (l.disStep * l.disStep)⌋₊ + 1 : ℕ) : ℚ) ≤
        ((l.pieces ^ 2 : ℕ) : ℚ) := Nat.cast_le.mpr hroot
    push_cast at hle
    exact hfloor.trans_le hle
  rw [div_lt_iff₀ (mul_pos h h)] at hcount
  have hpiece : distSq (l.waypoint i) (l.waypoint (i + 1)) =
      (dx * dx + dy * dy) / (l.pieces : ℚ) ^ 2 := by
    unfold distSq waypoint
    rw [hdx, hdy]
    push_cast
    field_simp
    ring
  rw [hpiece, div_lt_iff₀ (pow_pos hpos 2)]
  linarith

end LegCall

/-- The waypoint `i` of path `num`. -/
def Planner.waypoint (s : Planner) (num i : ℕ) : ℚ × ℚ := (s.pathX num i, s.pathY num i)

/-- **`make_path` lays the points of its leg** behind the last waypoint of the path, when the path
is empty or ends where the leg starts. -/
theorem makePath_waypoint (s : Planner) (num : ℕ) (l : LegCall)
    (h : s.pathTot num = 0 ∨ s.waypoint num (s.pathTot num) = (↑l.x0, ↑l.y0)) :
    ∀ i ≤ l.pieces, (makePath l.x0 l.y0 l.x1 l.y1 num l.disStep s).waypoint num
      (s.pathTot num + i) = l.waypoint i := by
  intro i hi
  unfold Planner.waypoint LegCall.waypoint LegCall.pieces at *
  unfold makePath
  dsimp only
  rcases Nat.eq_zero_or_pos (s.pathTot num) with htot | htot
  · rw [if_pos htot]
    obtain ⟨hx, hy⟩ := makePoints_follow { s with
      pathX := setCell s.pathX num 0 l.x0, pathY := setCell s.pathY num 0 l.y0,
      pathPredis := setCell s.pathPredis num 0 0 } num _ _ _ i hi
    rw [hx, hy]
    simp only [htot, setCell_self]
  · rw [if_neg htot.ne']
    obtain ⟨hx, hy⟩ := makePoints_follow s num _ _ _ i hi
    obtain ⟨hx0, hy0⟩ := Prod.mk.inj (h.resolve_left htot.ne')
    rw [hx, hy, hx0, hy0]

/-- The waypoints of a path that is not empty stay. -/
theorem makePath_keeps {s : Planner} {num : ℕ} (h : 0 < s.pathTot num) (l : LegCall) {i : ℕ}
    (hi : i ≤ s.pathTot num) :
    (makePath l.x0 l.y0 l.x1 l.y1 num l.disStep s).waypoint num i = s.waypoint num i := by
  unfold Planner.waypoint makePath
  dsimp only
  rw [if_neg h.ne']
  obtain ⟨hx, hy⟩ := makePoints_behind s num
    (((l.x1 : ℚ) - l.x0) / pieceCount (l.x1 - l.x0) (l.y1 - l.y0) l.disStep)
    (((l.y1 : ℚ) - l.y0) / pieceCount (l.x1 - l.x0) (l.y1 - l.y0) l.disStep)
    (pieceCount (l.x1 - l.x0) (l.y1 - l.y0) l.disStep) hi
  exact Prod.ext hx hy

/-! ## The legs one after the other -/

/-- **The calls of `make_path`** on path `num`. -/
def makePaths (num : ℕ) (legs : List LegCall) (s : Planner) : Planner :=
  legs.foldl (fun s l => makePath l.x0 l.y0 l.x1 l.y1 num l.disStep s) s

/-- The number of pieces of some legs. -/
def totalPieces (legs : List LegCall) : ℕ := (legs.map LegCall.pieces).sum

@[simp] theorem totalPieces_concat (legs : List LegCall) (l : LegCall) :
    totalPieces (legs ++ [l]) = totalPieces legs + l.pieces := by
  simp [totalPieces]

/-- The pieces up to the end of one of the legs. -/
theorem totalPieces_le (ls : List LegCall) (m : LegCall) (rs : List LegCall) :
    totalPieces ls + m.pieces ≤ totalPieces (ls ++ m :: rs) := by
  simp only [totalPieces, List.map_append, List.map_cons, List.sum_append, List.sum_cons]
  omega

/-- **Path `num` holds the waypoints of the legs**, one leg after the other. -/
structure Planner.Laid (num : ℕ) (legs : List LegCall) (s : Planner) : Prop where
  total : s.pathTot num = totalPieces legs
  waypoint : ∀ ls m rs, legs = ls ++ m :: rs → ∀ i ≤ m.pieces,
    s.waypoint num (totalPieces ls + i) = m.waypoint i

/-- The last waypoint is the end of the last leg. -/
theorem Planner.Laid.last {num : ℕ} {ls : List LegCall} {m : LegCall} {s : Planner}
    (h : s.Laid num (ls ++ [m])) : s.waypoint num (s.pathTot num) = (↑m.x1, ↑m.y1) := by
  rw [h.total, totalPieces_concat, h.waypoint ls m [] rfl m.pieces le_rfl, m.waypoint_pieces]

/-- **One more leg**, which starts where the last one ends. -/
theorem Planner.Laid.makePath {num : ℕ} {legs : List LegCall} {s : Planner} (h : s.Laid num legs)
    (l : LegCall) (hjoin : ∀ m ∈ legs.getLast?, m.Joined l) :
    (makePath l.x0 l.y0 l.x1 l.y1 num l.disStep s).Laid num (legs ++ [l]) := by
  have htotal := h.total
  refine ⟨?_, fun ls m rs hsplit i hi => ?_⟩
  · rw [makePath_pathTot, htotal, totalPieces_concat]
    rfl
  rcases List.eq_nil_or_concat' rs with rfl | ⟨rs, r, rfl⟩
  · -- the new leg
    obtain ⟨rfl, hlm⟩ := List.append_inj' hsplit rfl
    obtain rfl := List.singleton_inj.mp hlm
    rw [← htotal]
    refine makePath_waypoint s num l ?_ i hi
    rcases List.eq_nil_or_concat' legs with rfl | ⟨ls, m, rfl⟩
    · exact Or.inl htotal
    · refine Or.inr ?_
      obtain ⟨hx, hy⟩ := hjoin m (by simp)
      rw [h.last, hx, hy]
  · -- a leg laid before, whose waypoints stay
    have hsplit' : legs ++ [l] = (ls ++ m :: rs) ++ [r] := by simp [hsplit]
    obtain ⟨rfl, -⟩ := List.append_inj' hsplit' rfl
    have hle := totalPieces_le ls m rs
    have hpos := m.pieces_pos
    rw [makePath_keeps (by omega) l (by omega)]
    exact h.waypoint ls m rs rfl i hi

/-- **The legs of a chain** are laid. -/
theorem makePaths_laid {num : ℕ} {s : Planner} (h : s.pathTot num = 0) (legs : List LegCall)
    (hjoin : legs.IsChain LegCall.Joined) : (makePaths num legs s).Laid num legs := by
  induction legs using List.reverseRecOn with
  | nil => exact ⟨h, fun ls m rs hsplit => absurd hsplit (by simp)⟩
  | append_singleton legs l ih =>
      obtain ⟨hlegs, -, hlast⟩ := List.isChain_append.mp hjoin
      rw [makePaths, List.foldl_append]
      exact (ih hlegs).makePath l fun m hm => hlast m hm l (by simp)

/-- Other paths keep their waypoints. -/
theorem makePaths_other (s : Planner) {num j : ℕ} (h : j ≠ num) (legs : List LegCall) :
    (makePaths num legs s).pathX j = s.pathX j ∧ (makePaths num legs s).pathY j = s.pathY j ∧
      (makePaths num legs s).pathTot j = s.pathTot j := by
  induction legs generalizing s with
  | nil => exact ⟨rfl, rfl, rfl⟩
  | cons l legs ih =>
      obtain ⟨hx, hy, htot⟩ := makePath_other s h l.x0 l.y0 l.x1 l.y1 l.disStep
      obtain ⟨hx', hy', htot'⟩ := ih (makePath l.x0 l.y0 l.x1 l.y1 num l.disStep s)
      exact ⟨hx'.trans hx, hy'.trans hy, htot'.trans htot⟩

/-- **The waypoints of joined legs**, for every path without waypoints and every sequence of calls
on it. The path starts with the first leg; after each leg it has come to the end of the leg, on
waypoints that cut the leg into equal pieces shorter than its `dis_step`. Other paths are left
alone. -/
theorem makePaths_lays (s : Planner) (num : ℕ) (h : s.pathTot num = 0) (legs : List LegCall)
    (hjoin : legs.IsChain LegCall.Joined) (hstep : ∀ l ∈ legs, 0 < l.disStep) :
    (∀ l ∈ legs.head?, (makePaths num legs s).waypoint num 0 = (↑l.x0, ↑l.y0)) ∧
      (∀ ls l rs, legs = ls ++ l :: rs →
        (makePaths num legs s).waypoint num (totalPieces (ls ++ [l])) = (↑l.x1, ↑l.y1) ∧
        (∀ i ≤ l.pieces, (makePaths num legs s).waypoint num (totalPieces ls + i) =
          l.waypoint i) ∧
        ∀ i < l.pieces, LegCall.distSq ((makePaths num legs s).waypoint num (totalPieces ls + i))
          ((makePaths num legs s).waypoint num (totalPieces ls + i + 1)) < l.disStep ^ 2) ∧
      (makePaths num legs s).pathTot num = totalPieces legs ∧
      ∀ j, j ≠ num → (makePaths num legs s).waypoint j = s.waypoint j ∧
        (makePaths num legs s).pathTot j = s.pathTot j := by
  have hlaid := makePaths_laid h legs hjoin
  refine ⟨fun l hl => ?_, fun ls l rs hsplit => ⟨?_, fun i hi => ?_, fun i hi => ?_⟩, hlaid.total,
    fun j hj => ?_⟩
  · obtain ⟨rs, rfl⟩ := List.head?_eq_some_iff.mp hl
    have hfirst := hlaid.waypoint [] l rs rfl 0 (Nat.zero_le _)
    rwa [l.waypoint_zero] at hfirst
  · rw [totalPieces_concat, hlaid.waypoint ls l rs hsplit _ le_rfl, l.waypoint_pieces]
  · exact hlaid.waypoint ls l rs hsplit i hi
  · rw [hlaid.waypoint ls l rs hsplit i hi.le, Nat.add_assoc,
      hlaid.waypoint ls l rs hsplit (i + 1) hi]
    exact l.piece_lt (hstep l (by simp [hsplit])) i
  · obtain ⟨hx, hy, htot⟩ := makePaths_other s hj legs
    exact ⟨funext fun i => Prod.ext (congrFun hx i) (congrFun hy i), htot⟩

/-- Three joined legs, the second one of length zero. -/
def sampleLegs : List LegCall :=
  [⟨0, 0, 30, 40, 15⟩, ⟨30, 40, 30, 40, 15⟩, ⟨30, 40, 60, 40, 15⟩]

/-- The path of the sample legs ends at the end of the third one. -/
theorem makePaths_lays_sampleLegs :
    (makePaths 0 sampleLegs (.boot samplePictures)).waypoint 0 (totalPieces sampleLegs) =
      (60, 40) :=
  ((makePaths_lays (.boot samplePictures) 0 rfl sampleLegs (by simp [sampleLegs, LegCall.Joined])
    (by simp [sampleLegs])).2.1 [⟨0, 0, 30, 40, 15⟩, ⟨30, 40, 30, 40, 15⟩] ⟨30, 40, 60, 40, 15⟩ []
      rfl).1

end HandlingRobot
