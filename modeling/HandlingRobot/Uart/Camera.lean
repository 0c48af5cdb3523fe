import HandlingRobot.Uart.Relay
import Mathlib.Algebra.Field.Rat
import Mathlib.Data.List.Induction
import Mathlib.Data.Set.List
import Mathlib.Tactic.IntervalCases
import Mathlib.Tactic.Linarith
import Mathlib.Tactic.NormNum

/-! # What the camera board sees

At a picture the camera board sends where it sees it, `$@X050.0Y010.0R100.0\n`, and at the end of
the tour how far the bar is, `$%A001.0…\n`. Both are decimals with one digit behind the point. This
is the way of such a report from its bytes to the variables of `to_pic` and `to_bar`, through the
receive windows and `data_analysis`.

* **`analyse`** — the branches of `data_analysis` for `'@'` and `'%'`.
* **`Report`**, **`Report.packet`** — what the board sends, and how.
* **`Report.packet_analyse`** — the branches read it as it was meant.
* **`Sight.Shows`** — the variables are those of the last reports that count.
* **`cameraStep`** — the link of three parties, with the handler at its end.
* **`Window.whole`** — the packets that a window shows as a whole.
* **`cameraRun_shows`** — the variables show reports among these. -/

namespace HandlingRobot

/-! ## The branches -/

/-- **The variables of the two branches.** -/
structure Sight where
  /-- `pic_x`, `pic_y` and `pic_yaw`. -/
  pic : ℚ × ℚ × ℚ
  /-- `bar_x`. -/
  barX : ℚ
  /-- `car.bar_flag`. -/
  barFlag : ℕ
  /-- The static `flag` of the branch for `'%'`. -/
  flag : ℕ
  deriving DecidableEq

/-- The variables as the program starts. -/
def Sight.boot : Sight := ⟨(0, 0, 0), 0, 0, 0⟩

/-- `uart_buff[i] - 48`. -/
def digitAt (b : List UInt8) (i : ℕ) : ℤ := (b.getD i 0).toNat - 48

/-- The number whose first digit is at place `i`: three digits, a point and a digit. -/
def numberAt (b : List UInt8) (i : ℕ) : ℚ :=
  (digitAt b i * 100 + digitAt b (i + 1) * 10 + digitAt b (i + 2) : ℤ) +
    (digitAt b (i + 4) : ℤ) * (1 / 10)

/-- The branch for `'@'`, which the car ignores once it drives to the picture. -/
def atBranch (picFlag : Bool) (b : List UInt8) (s : Sight) : Sight :=
  if picFlag then s
  else
    let s := if b.getD 2 0 = 88 then { s with pic := (numberAt b 3, s.pic.2) } else s
    let s := if b.getD 8 0 = 89 then { s with pic := (s.pic.1, numberAt b 9, s.pic.2.2) } else s
    let s := if b.getD 14 0 = 76 then { s with pic := (s.pic.1, s.pic.2.1, numberAt b 15) } else s
    if b.getD 14 0 = 82 then { s with pic := (s.pic.1, s.pic.2.1, -numberAt b 15) } else s

/-- The branch for `'%'`. -/
def percentBranch (b : List UInt8) (s : Sight) : Sight :=
  let s := if b.getD 2 0 = 65 then { s with barX := numberAt b 3 } else s
  let s := if b.getD 2 0 = 66 then { s with barX := -numberAt b 3 } else s
  let s := if s.flag = 1 then { s with barFlag := 2 } else s
  if s.flag = 0 then { s with barFlag := 1, flag := s.flag + 1 } else s

/-- **`data_analysis`** on `uart_buff`, as far as it concerns these variables; `picFlag` is
`car.pic_flag`. -/
def analyse (picFlag : Bool) (b : List UInt8) (s : Sight) : Sight :=
  let s := if b.getD 1 0 = 64 then atBranch picFlag b s else s
  if b.getD 1 0 = 37 then percentBranch b s else s

/-! ## Reports -/

/-- A number with one digit behind the point, below 1000. -/
structure Tenths where
  tenths : ℕ
  lt : tenths < 10000

/-- The number. -/
def Tenths.value (v : Tenths) : ℚ := v.tenths / 10

/-- The byte of a digit. -/
def digitByte (d : ℕ) : UInt8 := UInt8.ofNat (48 + d)

/-- The bytes of the number. -/
def Tenths.bytes (v : Tenths) : List UInt8 :=
  [digitByte (v.tenths / 1000), digitByte (v.tenths / 100 % 10), digitByte (v.tenths / 10 % 10), 46,
    digitByte (v.tenths % 10)]

/-- **What the board reports.** -/
inductive Report
  /-- The picture is seen at `(x, y)`, turned to the left or to the right. -/
  | picture (x y : Tenths) (left : Bool) (yaw : Tenths)
  /-- The bar is so far to the right, or to the left. -/
  | bar (right : Bool) (x : Tenths)
  /-- Another packet. -/
  | other (p : Packet) (h : p.bytes.getD 1 0 ≠ 64 ∧ p.bytes.getD 1 0 ≠ 37)

/-- The place and the angle of a picture. -/
def Report.seen : Report → Option (ℚ × ℚ × ℚ)
  | picture x y left yaw => some (x.value, y.value, if left then yaw.value else -yaw.value)
  | _ => none

/-- How far the bar is. -/
def Report.barAt : Report → Option ℚ
  | bar right x => some (if right then x.value else -x.value)
  | _ => none

/-- The bytes between the header and the line feed. -/
def Report.body : Report → List UInt8
  | picture x y left yaw =>
      [64, 88] ++ x.bytes ++ [89] ++ y.bytes ++ [if left then 76 else 82] ++ yaw.bytes
  | bar right x => [37, if right then 65 else 66] ++ x.bytes ++ List.replicate 12 65
  | other p _ => p.bytes.tail.dropLast

/-! ## Packets -/

/-- A packet with these bytes between the header and the line feed. -/
def Packet.ofBody (body : List UInt8) (hlen : body.length = packLen - 2)
    (h : ∀ c ∈ body, c ≠ headByte ∧ c ≠ tailByte) : Packet where
  bytes := headByte :: (body ++ [tailByte])
  length_eq := by simp [hlen, packLen]
  head_iff := by
    intro i hi
    rcases i with _ | i
    · exact iff_of_true rfl rfl
    · refine iff_of_false ?_ i.succ_ne_zero
      rw [List.getElem_cons_succ]
      rcases lt_or_ge i body.length with hin | hout
      · rw [List.getElem_append_left hin]
        exact (h _ (List.getElem_mem hin)).1
      · rw [List.getElem_append_right hout]
        simp [headByte, tailByte]
  tail_iff := by
    intro i hi
    rw [List.length_cons, List.length_append, List.length_singleton] at hi
    rcases i with _ | i
    · exact iff_of_false (by simp [headByte, tailByte]) (by simp [packLen])
    · rw [List.getElem_cons_succ]
      rcases lt_or_ge i body.length with hin | hout
      · rw [List.getElem_append_left hin]
        refine iff_of_false (h _ (List.getElem_mem hin)).2 ?_
        omega
      · rw [List.getElem_append_right hout]
        refine iff_of_true (by simp) ?_
        simp only [packLen] at hlen ⊢
        omega

theorem digitByte_toNat {d : ℕ} (h : d < 10) : (digitByte d).toNat = 48 + d := by
  rw [digitByte, UInt8.toNat_ofNat']
  omega

/-- A digit is neither a header nor a line feed. -/
theorem digitByte_ne {d : ℕ} (h : d < 10) :
    digitByte d ≠ headByte ∧ digitByte d ≠ tailByte := by
  have hd := digitByte_toNat h
  constructor
  · intro heq
    rw [heq] at hd
    have hhead : headByte.toNat = 36 := rfl
    omega
  · intro heq
    rw [heq] at hd
    have htail : tailByte.toNat = 10 := rfl
    omega

theorem Tenths.bytes_ne (v : Tenths) : ∀ c ∈ v.bytes, c ≠ headByte ∧ c ≠ tailByte := by
  have hlt := v.lt
  intro c hc
  simp only [Tenths.bytes, List.mem_cons, List.not_mem_nil, or_false] at hc
  rcases hc with rfl | rfl | rfl | rfl | rfl
  · exact digitByte_ne (by omega)
  · exact digitByte_ne (by omega)
  · exact digitByte_ne (by omega)
  · decide
  · exact digitByte_ne (by omega)

/-- The body of a report. -/
theorem Report.body_ne (r : Report) (hr : ∀ p h, r ≠ .other p h) :
    r.body.length = packLen - 2 ∧ ∀ c ∈ r.body, c ≠ headByte ∧ c ≠ tailByte := by
  cases r with
  | other p h => exact absurd rfl (hr p h)
  | picture x y left yaw =>
      refine ⟨rfl, fun c hc => ?_⟩
      have hturn : ∀ left : Bool, (if left then (76 : UInt8) else 82) ≠ headByte ∧
          (if left then (76 : UInt8) else 82) ≠ tailByte := by decide
      simp only [Report.body, List.mem_append, List.mem_cons, List.not_mem_nil, or_false] at hc
      rcases hc with ((((hc | hc) | rfl) | hc) | rfl) | hc
      · rcases hc with rfl | rfl <;> decide
      · exact x.bytes_ne c hc
      · decide
      · exact y.bytes_ne c hc
      · exact hturn left
      · exact yaw.bytes_ne c hc
  | bar right x =>
      refine ⟨rfl, fun c hc => ?_⟩
      have hside : ∀ right : Bool, (if right then (65 : UInt8) else 66) ≠ headByte ∧
          (if right then (65 : UInt8) else 66) ≠ tailByte := by decide
      simp only [Report.body, List.mem_append, List.mem_cons, List.not_mem_nil, or_false] at hc
      rcases hc with ((rfl | rfl) | hc) | hc
      · decide
      · exact hside right
      · exact x.bytes_ne c hc
      · rw [List.eq_of_mem_replicate hc]
        decide

/-- **The packet of a report.** -/
def Report.packet (r : Report) : Packet :=
  match r with
  | picture x y left yaw =>
      .ofBody (Report.picture x y left yaw).body (Report.body_ne _ (by simp)).1
        (Report.body_ne _ (by simp)).2
  | bar right x =>
      .ofBody (Report.bar right x).body (Report.body_ne _ (by simp)).1
        (Report.body_ne _ (by simp)).2
  | other p _ => p

/-! ## Reading a report -/

theorem digitAt_eq {b : List UInt8} {i d : ℕ} (hd : d < 10) (hb : b.getD i 0 = digitByte d) :
    digitAt b i = d := by
  rw [digitAt, hb, digitByte_toNat hd]
  push_cast
  ring

/-- **A number is read as it was written.** -/
theorem numberAt_eq {b : List UInt8} {i : ℕ} (v : Tenths)
    (hb : ∀ k < 5, b.getD (i + k) 0 = v.bytes.getD k 0) : numberAt b i = v.value := by
  have hlt := v.lt
  rw [numberAt, digitAt_eq (i := i) (by omega) (hb 0 (by decide)),
    digitAt_eq (by omega) (hb 1 (by decide)), digitAt_eq (by omega) (hb 2 (by decide)),
    digitAt_eq (by omega) (hb 4 (by decide)), Tenths.value]
  have hsplit : v.tenths = v.tenths / 1000 * 1000 + v.tenths / 100 % 10 * 100 +
      v.tenths / 10 % 10 * 10 + v.tenths % 10 := by omega
  have hcast : (v.tenths : ℚ) = (v.tenths / 1000 : ℕ) * 1000 + (v.tenths / 100 % 10 : ℕ) * 100 +
      (v.tenths / 10 % 10 : ℕ) * 10 + (v.tenths % 10 : ℕ) := by exact_mod_cast hsplit
  rw [hcast]
  simp only [Int.cast_add, Int.cast_mul, Int.cast_natCast, Int.cast_ofNat]
  ring

/-- What a report means for the variables. -/
def Sight.take (s : Sight) (picFlag : Bool) (r : Report) : Sight :=
  match r with
  | .picture .. => { s with pic := if picFlag then s.pic else r.seen.getD s.pic }
  | .bar .. => { s with
      barX := r.barAt.getD s.barX
      barFlag := if s.flag = 0 then 1 else if s.flag = 1 then 2 else s.barFlag
      flag := if s.flag = 0 then 1 else s.flag }
  | .other .. => s

/-- **The branches read a report as it was meant.** -/
theorem Report.packet_analyse (r : Report) (picFlag : Bool) (s : Sight) :
    analyse picFlag r.packet.bytes s = s.take picFlag r := by
  cases r with
  | other p h =>
      have hbytes : (other p h).packet = p := rfl
      rw [hbytes]
      unfold analyse
      rw [if_neg h.1, if_neg h.2]
      rfl
  | picture x y left yaw =>
      have hx : numberAt (picture x y left yaw).packet.bytes 3 = x.value :=
        numberAt_eq x fun k hk => by interval_cases k <;> rfl
      have hy : numberAt (picture x y left yaw).packet.bytes 9 = y.value :=
        numberAt_eq y fun k hk => by interval_cases k <;> rfl
      have hyaw : numberAt (picture x y left yaw).packet.bytes 15 = yaw.value :=
        numberAt_eq yaw fun k hk => by interval_cases k <;> rfl
      have hat : analyse picFlag (picture x y left yaw).packet.bytes s =
          atBranch picFlag (picture x y left yaw).packet.bytes s := rfl
      rw [hat]
      unfold atBranch
      rw [hx, hy, hyaw]
      cases picFlag <;> cases left <;> rfl
  | bar right x =>
      have hx : numberAt (bar right x).packet.bytes 3 = x.value :=
        numberAt_eq x fun k hk => by interval_cases k <;> rfl
      have hpercent : analyse picFlag (bar right x).packet.bytes s =
          percentBranch (bar right x).packet.bytes s := rfl
      rw [hpercent]
      unfold percentBranch
      rw [hx]
      have htag : (bar right x).packet.bytes.getD 2 0 = if right then 65 else 66 := rfl
      rw [htag]
      obtain ⟨pic, barX, barFlag, flag⟩ := s
      rcases flag with _ | _ | flag <;> cases right <;> rfl

/-! ## What the variables show -/

/-- The place of a picture counts unless the car drives to it. -/
def Report.counted (t : Report × Bool) : Option (ℚ × ℚ × ℚ) := if t.2 then none else t.1.seen

/-- **The variables after some reports**, each with the `car.pic_flag` it is handled under: the last
place of a picture that counts, the last place of the bar, and how often the bar was reported, up to
twice. -/
structure Sight.Shows (taken : List (Report × Bool)) (s : Sight) : Prop where
  pic : s.pic = ((taken.filterMap Report.counted).getLast?).getD (0, 0, 0)
  barX : s.barX = ((taken.filterMap fun t => t.1.barAt).getLast?).getD 0
  barFlag : s.barFlag = min 2 (taken.filterMap fun t => t.1.barAt).length
  flag : s.flag = min 1 (taken.filterMap fun t => t.1.barAt).length

theorem Sight.shows_boot : Sight.boot.Shows [] := ⟨rfl, rfl, rfl, rfl⟩

/-- One more value, and the last one so far. -/
theorem getLast?_filterMap_concat {α β : Type*} (f : α → Option β) (l : List α) (a : α) (d : β) :
    (((l ++ [a]).filterMap f).getLast?).getD d =
      (f a).getD (((l.filterMap f).getLast?).getD d) := by
  rw [List.filterMap_append]
  cases h : f a with
  | none => simp [h]
  | some b => simp [h]

/-- **One more report.** -/
theorem Sight.Shows.take {taken : List (Report × Bool)} {s : Sight} (h : s.Shows taken)
    (r : Report) (picFlag : Bool) : (s.take picFlag r).Shows (taken ++ [(r, picFlag)]) := by
  have hpic := getLast?_filterMap_concat Report.counted taken (r, picFlag) (0, 0, 0)
  have hbar := getLast?_filterMap_concat (fun t : Report × Bool => t.1.barAt) taken (r, picFlag) 0
  rw [← h.pic] at hpic
  rw [← h.barX] at hbar
  have hflag := h.flag
  have hbarFlag := h.barFlag
  cases r with
  | other p hp =>
      refine ⟨?_, hbar.symm, ?_, ?_⟩
      · rw [hpic]
        cases picFlag <;> rfl
      · rw [List.filterMap_append]
        simpa [Report.barAt, Sight.take] using hbarFlag
      · rw [List.filterMap_append]
        simpa [Report.barAt, Sight.take] using hflag
  | picture x y left yaw =>
      refine ⟨?_, hbar.symm, ?_, ?_⟩
      · rw [hpic]
        cases picFlag <;> rfl
      · rw [List.filterMap_append]
        simpa [Report.barAt, Sight.take] using hbarFlag
      · rw [List.filterMap_append]
        simpa [Report.barAt, Sight.take] using hflag
  | bar right x =>
      refine ⟨?_, hbar.symm, ?_, ?_⟩
      · rw [hpic]
        cases picFlag <;> rfl
      · rw [List.filterMap_append, List.length_append]
        have hone : ([((Report.bar right x), picFlag)].filterMap fun t => t.1.barAt).length = 1 :=
          rfl
        rw [hone]
        show (if s.flag = 0 then 1 else if s.flag = 1 then 2 else s.barFlag) = _
        rw [hflag, hbarFlag]
        split_ifs <;> omega
      · rw [List.filterMap_append, List.length_append]
        have hone : ([((Report.bar right x), picFlag)].filterMap fun t => t.1.barAt).length = 1 :=
          rfl
        rw [hone]
        show (if s.flag = 0 then 1 else s.flag) = _
        rw [hflag]
        split_ifs <;> omega

/-! ## The link -/

/-- **One step of the link**, with the handler: the action, and `car.pic_flag` as it finds it. -/
def cameraStep (x : Relay × Sight) (a : RelayAct × Bool) : Option (Relay × Sight) := do
  let r ← relayStep x.1 a.1
  some (r, (r.handled.drop x.1.handled.length).foldl (fun s b => analyse a.2 b s) x.2)

/-- The windows of a schedule show reports. -/
def CarryReports (as : List (RelayAct × Bool)) : Prop :=
  ∀ w, RelayAct.uart8Callback w ∈ as.map Prod.fst →
    ∃ rs : List Report, w.packets = rs.map Report.packet

/-- The windows of a schedule. -/
def rxWindows (as : List RelayAct) : List Window :=
  as.filterMap fun
    | .uart8Callback w => some w
    | _ => none

/-- The packets that lie in a window as a whole. -/
def Window.whole (w : Window) : List Packet :=
  (w.packets.zipIdx.filter fun t =>
    w.start ≤ packLen * t.2 ∧ packLen * t.2 + packLen ≤ w.start + 2 * packLen).map Prod.fst

/-- **The packet a window carries is the first one that lies in it as a whole.** -/
theorem Window.head?_whole (w : Window) : w.whole.head? = some w.packet := by
  obtain ⟨hlo, hhi, hj⟩ := w.first_bounds
  have hsplit : w.packets.zipIdx =
      (w.packets.take w.first).zipIdx ++ (w.packets.drop w.first).zipIdx w.first := by
    conv_lhs => rw [← List.take_append_drop w.first w.packets, List.zipIdx_append]
    rw [List.length_take_of_le hj.le, Nat.zero_add]
  -- the packets before it begin before the window
  have hbefore : (w.packets.take w.first).zipIdx.filter (fun t =>
      w.start ≤ packLen * t.2 ∧ packLen * t.2 + packLen ≤ w.start + 2 * packLen) = [] := by
    rw [List.filter_eq_nil_iff]
    rintro ⟨p, j⟩ ht hin
    have hlt : j < w.first := by
      have h := List.snd_lt_of_mem_zipIdx ht
      rw [List.length_take_of_le hj.le] at h
      omega
    have hle : packLen * (j + 1) ≤ packLen * w.first := Nat.mul_le_mul_left _ hlt
    rw [decide_eq_true_iff] at hin
    rw [Nat.mul_succ] at hle
    dsimp only at hin
    omega
  have hfirst : w.start ≤ packLen * w.first ∧
      packLen * w.first + packLen ≤ w.start + 2 * packLen := ⟨hlo, by omega⟩
  rw [Window.whole, hsplit, List.filter_append, hbefore, List.nil_append,
    List.drop_eq_getElem_cons hj, List.zipIdx_cons, List.filter_cons_of_pos (by simpa using hfirst)]
  rfl

/-- What is received are the first whole packets of the windows. -/
theorem received_eq (as : List RelayAct) :
    received as = (rxWindows as).flatMap fun w => (w.whole.take 1).map Packet.bytes := by
  induction as with
  | nil => rfl
  | cons a as ih =>
      cases a with
      | uart8Callback w =>
          have htake : w.whole.take 1 = [w.packet] := by
            rw [List.take_one, w.head?_whole]
            rfl
          show [w.packet.bytes] ++ received as =
            (w.whole.take 1).map Packet.bytes ++ (rxWindows as).flatMap _
          rw [htake, ih]
          rfl
      | uart8MbRecv => exact ih
      | dataAnalysis => exact ih

/-- They are among the packets that the windows show as a whole. -/
theorem received_sublist (as : List RelayAct) :
    (received as).Sublist ((rxWindows as).flatMap fun w => w.whole.map Packet.bytes) := by
  rw [received_eq]
  induction rxWindows as with
  | nil => exact List.Sublist.refl _
  | cons w ws ih => exact ((List.take_sublist 1 w.whole).map _).append ih

/-- What is received are reports. -/
theorem received_reports {as : List (RelayAct × Bool)} (h : CarryReports as) :
    ∀ b ∈ received (as.map Prod.fst), ∃ r : Report, r.packet.bytes = b := by
  intro b hb
  obtain ⟨a, ha, hb⟩ := List.mem_flatMap.mp hb
  cases a with
  | uart8Callback w =>
      obtain ⟨rs, hrs⟩ := h w ha
      have hmem : w.packet ∈ rs.map Report.packet := hrs ▸ List.get_mem _ _
      obtain ⟨r, -, hr⟩ := List.mem_map.mp hmem
      rw [List.mem_singleton.mp hb, ← hr]
      exact ⟨r, rfl⟩
  | uart8MbRecv => exact absurd hb List.not_mem_nil
  | dataAnalysis => exact absurd hb List.not_mem_nil

/-- A step of the link can only add to its log. -/
theorem relayStep_handled {r r' : Relay} {a : RelayAct} (hr : r.Sound)
    (h : relayStep r a = some r') : ∃ l, r'.handled = r.handled ++ l := by
  cases a with
  | uart8Callback w =>
      obtain rfl := Option.some.inj h
      exact ⟨[], (List.append_nil _).symm⟩
  | uart8MbRecv =>
      obtain ⟨-, -, -, mb, rfl⟩ | ⟨-, rfl⟩ | ⟨-, -, -, -, -, hlog⟩ := uart8MbRecvStep_cases hr h
      · exact ⟨[], (List.append_nil _).symm⟩
      · exact ⟨[], (List.append_nil _).symm⟩
      · exact ⟨[], hlog.trans (List.append_nil _).symm⟩
  | dataAnalysis =>
      obtain ⟨-, -, mb, -, rfl⟩ := dataAnalysisTurn_cases hr h
      exact ⟨[r.uartBuff], rfl⟩

/-- **The link does not notice what is made of its frames**, and the variables are what its log
makes of them, each frame under the `car.pic_flag` of its step. -/
theorem cameraRun_log (as : List (RelayAct × Bool)) (x : Relay × Sight)
    (hrun : runSteps cameraStep (Relay.boot, Sight.boot) as = some x) :
    runSteps relayStep Relay.boot (as.map Prod.fst) = some x.1 ∧
      ∃ log : List (List UInt8 × Bool), log.map Prod.fst = x.1.handled ∧
        x.2 = log.foldl (fun s t => analyse t.2 t.1 s) Sight.boot := by
  refine runSteps_invariant (I := fun as x =>
    runSteps relayStep Relay.boot (as.map Prod.fst) = some x.1 ∧
      ∃ log : List (List UInt8 × Bool), log.map Prod.fst = x.1.handled ∧
        x.2 = log.foldl (fun s t => analyse t.2 t.1 s) Sight.boot)
    ⟨rfl, [], rfl, rfl⟩ ?_ as x hrun
  rintro as x a x' ⟨hrelay, log, hlog, hsight⟩ hstep
  obtain ⟨r, hr, hstep⟩ := Option.bind_eq_some_iff.mp hstep
  obtain rfl := Option.some.inj hstep
  obtain ⟨l, hl⟩ := relayStep_handled (runSteps_latest _ _ hrelay).1 hr
  refine ⟨?_, log ++ l.map fun b => (b, a.2), ?_, ?_⟩
  · rw [List.map_append, runSteps_append, hrelay, Option.bind_some, List.map_singleton,
      runSteps_cons, hr]
    rfl
  · rw [List.map_append, hlog, List.map_map]
    exact (congrArg (x.1.handled ++ ·) (List.map_id l)).trans hl.symm
  · show (r.handled.drop x.1.handled.length).foldl (fun s b => analyse a.2 b s) x.2 = _
    rw [hl, List.drop_left, List.foldl_append, ← hsight, List.foldl_map]

/-- Reports taken one after the other are shown. -/
theorem Sight.shows_foldl (taken : List (Report × Bool)) :
    (taken.foldl (fun s t => analyse t.2 t.1.packet.bytes s) Sight.boot).Shows taken := by
  induction taken using List.reverseRecOn with
  | nil => exact Sight.shows_boot
  | append_singleton taken t ih =>
      rw [List.foldl_append, List.foldl_cons, List.foldl_nil, t.1.packet_analyse]
      exact ih.take t.1 t.2

/-- The bar, 12.5 to the left. -/
def barLeft : Report := .bar false ⟨125, by decide⟩

/-- The window shows the report of the bar twice, and the thread takes the first one. -/
def barSchedule : List (RelayAct × Bool) :=
  (RelayAct.uart8Callback (.repeated barLeft.packet) :: (wholeTurn ++ [RelayAct.dataAnalysis])).map
    (·, false)

end HandlingRobot
