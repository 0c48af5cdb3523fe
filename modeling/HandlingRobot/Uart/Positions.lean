import HandlingRobot.Library.InOrder
import HandlingRobot.Library.Runs
import HandlingRobot.Uart.Frame

/-! # The positions of the pictures

The camera board sends the position of every picture in a packet `$&X700.0Y500.0N020.0\n`, again and
again. `data_analysis` keeps a count and takes a packet only when its number is the count: the
positions fill `px` and `py` in their order.

* **`PositionPacket`** — a packet with `'&'`; **`ampersandBranch`** — the branch that handles it.
* **`Positions.FilledFrom`** — the tables hold what was taken, and nothing else changes them.
* **`positionsRun_iff`** — that is so after every run that takes no position with a number of 30 or
  more: the tables end there, and the count does not. -/

namespace HandlingRobot

/-! ## The branch -/

/-- **A packet with `'&'`** behind its header, the tag of its number and decimal digits. The other
two tags may be missing. -/
structure PositionPacket where
  /-- `uart_buff`. -/
  uartBuff : List UInt8
  amp : uartBuff.getD 1 0 = 38
  tag : uartBuff.getD 14 0 = 78
  digits : ∀ i ∈ [3, 4, 5, 9, 10, 11, 16, 17], 48 ≤ uartBuff.getD i 0 ∧ uartBuff.getD i 0 ≤ 57

namespace PositionPacket

/-- The decimal digit at place `i` of the packet. -/
def digit (b : PositionPacket) (i : ℕ) : ℤ := (b.uartBuff.getD i 0).toNat - 48

/-- `n`, a `uint8_t`. -/
def number (b : PositionPacket) : ℕ := ((b.digit 16 * 10 + b.digit 17) % 256).toNat

/-- The three digits from place `i` on. -/
def hundreds (b : PositionPacket) (i : ℕ) : ℤ :=
  b.digit i * 100 + b.digit (i + 1) * 10 + b.digit (i + 2)

/-- The three digits behind the tag `c` at place `i`, where the packet has this tag. -/
def field (b : PositionPacket) (i : ℕ) (c : UInt8) : Option ℤ :=
  if b.uartBuff.getD i 0 = c then some (b.hundreds (i + 1)) else none

/-- The X value and the Y value. -/
def xValue (b : PositionPacket) : Option ℤ := b.field 2 88
@[inherit_doc xValue] def yValue (b : PositionPacket) : Option ℤ := b.field 8 89

theorem digit_bounds (b : PositionPacket) {i : ℕ} (hi : i ∈ [3, 4, 5, 9, 10, 11, 16, 17]) :
    0 ≤ b.digit i ∧ b.digit i ≤ 9 := by
  obtain ⟨hlo, hhi⟩ := b.digits i hi
  have hlo' : 48 ≤ (b.uartBuff.getD i 0).toNat := UInt8.le_iff_toNat_le.mp hlo
  have hhi' : (b.uartBuff.getD i 0).toNat ≤ 57 := UInt8.le_iff_toNat_le.mp hhi
  unfold digit
  omega

/-- The number has two digits. -/
theorem number_lt (b : PositionPacket) : b.number < 100 := by
  have htens := b.digit_bounds (i := 16) (by decide)
  have hones := b.digit_bounds (i := 17) (by decide)
  unfold number
  rw [Int.emod_eq_of_lt (by omega) (by omega)]
  omega

end PositionPacket

/-- **The tables of the positions**, `px` and `py` of `N` entries each, and `pos_cnt`. -/
structure Positions where
  px : ℕ → ℤ
  py : ℕ → ℤ
  posCnt : ℕ

/-- The tables as the program starts. -/
def Positions.boot : Positions := ⟨fun _ => 0, fun _ => 0, 0⟩

/-- `N`, the size of the tables. -/
def posSlots : ℕ := 30

/-- `t[k] = v`; `none` for a write outside the table. -/
def writeEntry (t : ℕ → ℤ) (k : ℕ) (v : ℤ) : Option (ℕ → ℤ) :=
  if k < posSlots then some (Function.update t k v) else none

/-- `if (uart_buff[i] == c) t[k] = …`, with the digits behind the tag. -/
def PositionPacket.store (b : PositionPacket) (i : ℕ) (c : UInt8) (t : ℕ → ℤ) (k : ℕ) :
    Option (ℕ → ℤ) :=
  if b.uartBuff.getD i 0 = c then writeEntry t k (b.hundreds (i + 1)) else some t

/-- **The branch of `data_analysis` for `'&'`.** -/
def ampersandBranch (s : Positions) (b : PositionPacket) : Option Positions :=
  if b.number = s.posCnt then do
    let px ← b.store 2 88 s.px s.posCnt
    let py ← b.store 8 89 s.py s.posCnt
    some ⟨px, py, (s.posCnt + 1) % 256⟩
  else some s

/-! ## What the tables are for -/

/-- **The tables hold what was taken** from the packets `as`: an entry below the count is the one of
the packet that was taken under its number, the others are empty, and a packet whose number is not
awaited changes nothing. -/
structure Positions.FilledFrom (as : List PositionPacket) (s : Positions) : Prop where
  entry : ∀ k < s.posCnt, ∃ p, TakenAs PositionPacket.number as k p ∧
    (∀ v, p.xValue = some v → s.px k = v) ∧ (∀ v, p.yValue = some v → s.py k = v)
  empty : ∀ k, s.posCnt ≤ k → s.px k = 0 ∧ s.py k = 0
  stray : ∀ p, ¬ Awaits PositionPacket.number as p.number → ampersandBranch s p = some s

/-- **The positions fit the tables**: no packet with a position is taken under a number of 30 or
more. -/
def PositionsFit (as : List PositionPacket) : Prop :=
  ∀ k p, posSlots ≤ k → TakenAs PositionPacket.number as k p → p.xValue = none ∧ p.yValue = none

/-- A new entry, where the packet has one. -/
def fillEntry (t : ℕ → ℤ) (k : ℕ) : Option ℤ → ℕ → ℤ
  | none => t
  | some v => Function.update t k v

/-- A packet that is not awaited changes nothing. -/
theorem ampersandBranch_of_ne {s : Positions} {b : PositionPacket} (h : b.number ≠ s.posCnt) :
    ampersandBranch s b = some s :=
  if_neg h

/-- **One field of a packet** is stored when it has an entry, or when it is missing. -/
theorem PositionPacket.store_eq (b : PositionPacket) (i : ℕ) (c : UInt8) (t : ℕ → ℤ) {k : ℕ}
    (h : k < posSlots ∨ b.field i c = none) :
    b.store i c t k = some (fillEntry t k (b.field i c)) := by
  unfold store field at *
  by_cases hc : b.uartBuff.getD i 0 = c
  · simp only [if_pos hc, reduceCtorEq, or_false] at h ⊢
    exact if_pos h
  · rw [if_neg hc, if_neg hc]
    rfl

theorem PositionPacket.store_outside (b : PositionPacket) (i : ℕ) (c : UInt8) (t : ℕ → ℤ) {k : ℕ}
    (hk : posSlots ≤ k) (h : b.field i c ≠ none) : b.store i c t k = none := by
  unfold store field at *
  by_cases hc : b.uartBuff.getD i 0 = c
  · rw [if_pos hc]
    exact if_neg hk.not_gt
  · exact absurd (if_neg hc) h

/-- **A packet that is awaited** fills its entries, and the count goes on. -/
theorem ampersandBranch_of_eq {s : Positions} {b : PositionPacket} (h : b.number = s.posCnt)
    (hfit : s.posCnt < posSlots ∨ b.xValue = none ∧ b.yValue = none) :
    ampersandBranch s b = some
      ⟨fillEntry s.px s.posCnt b.xValue, fillEntry s.py s.posCnt b.yValue, s.posCnt + 1⟩ := by
  have hlt := b.number_lt
  have hmod : (s.posCnt + 1) % 256 = s.posCnt + 1 := Nat.mod_eq_of_lt (by omega)
  unfold ampersandBranch
  rw [if_pos h, hmod, b.store_eq 2 88 s.px (hfit.imp_right And.left),
    b.store_eq 8 89 s.py (hfit.imp_right And.right)]
  rfl

/-- A position that is awaited under a number of 30 or more is written outside the tables. -/
theorem ampersandBranch_outside {s : Positions} {b : PositionPacket} (h : b.number = s.posCnt)
    (hout : posSlots ≤ s.posCnt) (hvalue : ¬ (b.xValue = none ∧ b.yValue = none)) :
    ampersandBranch s b = none := by
  unfold ampersandBranch
  rw [if_pos h]
  by_cases hx : b.xValue = none
  · rw [b.store_eq 2 88 s.px (Or.inr hx),
      b.store_outside 8 89 s.py hout fun hy => hvalue ⟨hx, hy⟩]
    rfl
  · rw [b.store_outside 2 88 s.px hout hx]
    rfl

/-! ## Runs -/

/-- **After every packet the tables hold what was taken**, with the count of the packets. -/
structure Positions.After (as : List PositionPacket) (s : Positions) : Prop where
  posCnt : s.posCnt = takenCount PositionPacket.number as
  entry : ∀ k p, TakenAs PositionPacket.number as k p →
    (∀ v, p.xValue = some v → s.px k = v) ∧ (∀ v, p.yValue = some v → s.py k = v)
  empty : ∀ k, s.posCnt ≤ k → s.px k = 0 ∧ s.py k = 0

theorem Positions.after_boot : Positions.boot.After [] :=
  ⟨rfl, fun k p h => absurd h (not_takenAs_nil _ k p), fun _ _ => ⟨rfl, rfl⟩⟩

theorem Positions.After.filledFrom {as : List PositionPacket} {s : Positions} (h : s.After as) :
    s.FilledFrom as := by
  refine ⟨fun k hk => ?_, h.empty, fun p hp => ?_⟩
  · obtain ⟨p, hp⟩ := exists_takenAs PositionPacket.number (h.posCnt ▸ hk)
    exact ⟨p, hp, h.entry k p hp⟩
  · rw [awaits_iff, ← h.posCnt] at hp
    exact ampersandBranch_of_ne hp

theorem fillEntry_self {t : ℕ → ℤ} {k : ℕ} {o : Option ℤ} {v : ℤ} (h : o = some v) :
    fillEntry t k o k = v := by
  rw [h]
  exact Function.update_self k v t

theorem fillEntry_of_ne {k k' : ℕ} (t : ℕ → ℤ) (o : Option ℤ) (h : k' ≠ k) :
    fillEntry t k o k' = t k' := by
  cases o with
  | none => rfl
  | some v => exact Function.update_of_ne h v t

/-- **One packet.** -/
theorem Positions.After.step {as : List PositionPacket} {s : Positions} (h : s.After as)
    (b : PositionPacket)
    (hfit : b.number = s.posCnt → s.posCnt < posSlots ∨ b.xValue = none ∧ b.yValue = none) :
    ∃ t, ampersandBranch s b = some t ∧ t.After (as ++ [b]) := by
  have hcnt := h.posCnt
  by_cases hnum : b.number = s.posCnt
  · refine ⟨_, ampersandBranch_of_eq hnum (hfit hnum), ?_, fun k p hp => ?_, fun k hk => ?_⟩
    · rw [takenCount_concat, ← hcnt, if_pos hnum]
    · rcases (takenAs_concat _).mp hp with hold | ⟨rfl, -, rfl⟩
      · have hne : k ≠ s.posCnt := (hcnt ▸ hold.lt).ne
        dsimp only
        rw [fillEntry_of_ne _ _ hne, fillEntry_of_ne _ _ hne]
        exact h.entry k p hold
      · rw [← hcnt]
        exact ⟨fun v hv => fillEntry_self hv, fun v hv => fillEntry_self hv⟩
    · have hle : s.posCnt + 1 ≤ k := hk
      dsimp only
      rw [fillEntry_of_ne _ _ (by omega), fillEntry_of_ne _ _ (by omega)]
      exact h.empty k (by omega)
  · refine ⟨s, ampersandBranch_of_ne hnum, ?_, fun k p hp => ?_, h.empty⟩
    · rw [takenCount_concat, ← hcnt, if_neg hnum]
    · rcases (takenAs_concat _).mp hp with hold | ⟨rfl, hk, hk'⟩
      · exact h.entry k p hold
      · exact absurd (hk.trans (hk'.trans hcnt.symm)) hnum

/-- The positions that fit with one more packet, fit without it. -/
theorem PositionsFit.of_concat {as : List PositionPacket} {b : PositionPacket}
    (h : PositionsFit (as ++ [b])) : PositionsFit as :=
  fun k p hk hp => h k p hk ((takenAs_concat _).mpr (Or.inl hp))

/-- **A run of packets whose positions fit** fills the tables. -/
theorem positionsRun_after (as : List PositionPacket) (h : PositionsFit as) :
    ∃ s, runSteps ampersandBranch Positions.boot as = some s ∧ s.After as := by
  induction as using List.reverseRecOn with
  | nil => exact ⟨_, rfl, Positions.after_boot⟩
  | append_singleton as b ih =>
      obtain ⟨s, hs, hafter⟩ := ih h.of_concat
      obtain ⟨t, ht, hafter'⟩ := hafter.step b fun hnum => by
        by_contra hout
        rw [not_or, not_lt] at hout
        refine hout.2 (h s.posCnt b hout.1 ?_)
        exact (takenAs_concat _).mpr (Or.inr ⟨rfl, hnum, hafter.posCnt⟩)
      refine ⟨t, ?_, hafter'⟩
      rw [runSteps_append, hs, Option.bind_some, runSteps_cons, ht]
      rfl

/-- **A run that writes inside the tables only** has positions that fit. -/
theorem positionsFit_of_run (as : List PositionPacket) {s : Positions}
    (h : runSteps ampersandBranch Positions.boot as = some s) : PositionsFit as := by
  induction as using List.reverseRecOn generalizing s with
  | nil => exact fun k p _ hp => absurd hp (not_takenAs_nil _ k p)
  | append_singleton as b ih =>
      obtain ⟨m, hm, hstep⟩ := runSteps_concat h
      have hfit := ih hm
      obtain ⟨m', hm', hafter⟩ := positionsRun_after as hfit
      obtain rfl := Option.some.inj (hm.symm.trans hm')
      intro k p hk hp
      rcases (takenAs_concat _).mp hp with hold | ⟨rfl, hnum, hcount⟩
      · exact hfit k p hk hold
      · by_contra hvalue
        rw [← hafter.posCnt] at hcount
        rw [ampersandBranch_outside (hnum.trans hcount) (hcount ▸ hk) hvalue] at hstep
        exact absurd hstep (by simp)

/-- **Packets with X values fit** unless the numbers 0 to 30 arrive in this order. -/
theorem positionsFit_iff_of_xValue {as : List PositionPacket} (h : ∀ p ∈ as, p.xValue ≠ none) :
    PositionsFit as ↔ ¬ (List.range (posSlots + 1)).Sublist (as.map PositionPacket.number) := by
  rw [← le_takenCount_iff, not_le]
  constructor
  · intro hfit
    by_contra hlt
    obtain ⟨p, hp⟩ := exists_takenAs PositionPacket.number (by omega :
      posSlots < takenCount PositionPacket.number as)
    exact h p hp.mem (hfit posSlots p le_rfl hp).1
  · intro hlt k p hk hp
    have hcount := hp.lt
    omega

/-- **When the tables are filled in order**, for every sequence of packets from the start of the
program: exactly when no packet with a position is taken under a number of 30 or more. -/
theorem positionsRun_iff (as : List PositionPacket) :
    (∃ s, runSteps ampersandBranch Positions.boot as = some s ∧ s.FilledFrom as) ↔
      ∀ k p, 30 ≤ k → TakenAs PositionPacket.number as k p →
        p.xValue = none ∧ p.yValue = none := by
  constructor
  · rintro ⟨s, hs, -⟩
    exact positionsFit_of_run as hs
  · intro h
    obtain ⟨s, hs, hafter⟩ := positionsRun_after as h
    exact ⟨s, hs, hafter.filledFrom⟩

/-- The packet with the number `n` and a picture in the corner. -/
def PositionPacket.numbered (n : Fin 100) : PositionPacket where
  uartBuff := [36, 38, 88, 48, 48, 49, 46, 48, 89, 48, 48, 49, 46, 48, 78, 48,
    UInt8.ofNat (48 + n / 10), UInt8.ofNat (48 + n % 10), 46, 48, 10]
  amp := rfl
  tag := rfl
  digits := by
    revert n
    decide

/-- The packets with the numbers 0 to 30 write behind the end of `px`. -/
theorem fullTables_outside :
    ¬ ∀ as : List PositionPacket,
      ∃ s, runSteps ampersandBranch Positions.boot as = some s ∧ s.FilledFrom as := by
  intro h
  obtain ⟨s, hs, -⟩ := h ((List.finRange 31).map fun n =>
    .numbered (n.castLE (by decide)))
  have hfit := positionsFit_of_run _ hs
  rw [positionsFit_iff_of_xValue (by decide)] at hfit
  have hnum : ((List.finRange 31).map fun n =>
      PositionPacket.numbered (n.castLE (by decide))).map PositionPacket.number =
        List.range (posSlots + 1) := by decide
  exact hfit (hnum ▸ List.Sublist.refl _)

end HandlingRobot
