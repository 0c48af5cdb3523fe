import HandlingRobot.Library.Decimal
import HandlingRobot.Tour.Geometry
import Mathlib.Algebra.Order.Floor.Semifield

/-! # A number on the serial port

`uart_putfloat` prints a number with six digits behind the point: the digits are collected in `ans`,
the zeros among the first of them are counted in `res` and printed on their own, and `ans` is scaled
down for them. Every piece goes through the buffer `char text[4]`.

* **`uartPutfloat`** — the characters sent, or `none` where a piece does not fit the buffer.
* **`PrintsCut`** — what it is for: the number, cut off behind its sixth digit.
* **`uartPutfloat_iff`** — that happens for the digits `000dd0` and `000000` only: with fewer zeros
  the rest of the digits does not fit the buffer, and with more the scaling takes digits off. -/

namespace HandlingRobot

/-! ## The routine -/

/-- The text of `%d`. -/
def decimal (v : ℤ) : List Char :=
  if v < 0 then '-' :: Nat.toDigits 10 v.natAbs else Nat.toDigits 10 v.natAbs

/-- `sprintf(text, "%d", v)` into `char text[4]`: the text and its terminator, where they fit. -/
def sprintfText (v : ℤ) : Option (List Char) :=
  if (decimal v).length + 1 ≤ 4 then some (decimal v) else none

/-- The variables of the digit loop. -/
structure PutFloat where
  ans : ℤ
  res : ℕ
  sec : ℚ

/-- One turn of the loop `while (t --)`. -/
def putDigit (s : PutFloat) : PutFloat :=
  let s := { s with ans := s.ans + truncate (s.sec * 10) }
  let s : PutFloat := if s.ans = 0 then { s with res := s.res + 1 } else s
  let s := { s with ans := s.ans * 10, sec := s.sec * 10 }
  { s with sec := s.sec - truncate s.sec }

/-- The loop `while (res --)`. -/
def putZeros : ℕ → Option (List Char)
  | 0 => some []
  | res + 1 => do
      let text ← sprintfText 0
      let rest ← putZeros res
      some (text ++ rest)

/-- `res ? res - 1 : 1`, the exponent that `ans` is scaled down by. -/
def scaling (res : ℕ) : ℕ := if res ≠ 0 then res - 1 else 1

/-- **`uart_putfloat`**: the characters it sends, or `none` where a text does not fit its buffer. -/
def uartPutfloat (num : ℚ) : Option (List Char) := do
  let num_ := |num|
  let tag : ℤ := if num < 0 then -1 else 1
  let integ := truncate num_
  let s := putDigit^[6] { ans := 0, res := 0, sec := num_ - integ }
  let ans := truncate (s.ans / 10 ^ scaling s.res)
  let sign := if tag < 0 then ['-'] else []
  let whole ← sprintfText integ
  let zeros ← putZeros s.res
  let text ← sprintfText ans
  some (sign ++ whole ++ ['.'] ++ zeros ++ text)

/-! ## What it is for -/

/-- The number, cut off behind its sixth digit. -/
def cutSix (num : ℚ) : ℚ := truncate (num * 10 ^ 6) / 10 ^ 6

/-- **The right output**: every text fits its buffer, and what is sent reads as the number cut off
behind its sixth digit, which is less than `10⁻⁶` away. -/
def PrintsCut (num : ℚ) : Prop :=
  ∃ out, uartPutfloat num = some out ∧ readNumeral out = some (cutSix num) ∧
    |cutSix num - num| < 1 / 10 ^ 6

/-- The six digits behind the point, as a number. -/
def sixDigits (num : ℚ) : ℕ := ⌊Int.fract |num| * 10 ^ 6⌋₊

/-- The cut moves the number by less than its sixth digit. -/
theorem abs_cutSix_sub_lt (num : ℚ) : |cutSix num - num| < 1 / 10 ^ 6 := by
  have hcut : cutSix num - num = (truncate (num * 10 ^ 6) - num * 10 ^ 6) / 10 ^ 6 := by
    rw [cutSix]
    ring
  rw [hcut, abs_div, abs_of_pos (by norm_num : (0 : ℚ) < 10 ^ 6)]
  exact div_lt_div_of_pos_right (abs_truncate_sub_lt _) (by norm_num)

theorem cutSix_of_nonneg {num : ℚ} (h : 0 ≤ num) :
    cutSix num = ⌊num⌋₊ + sixDigits num / 10 ^ 6 := by
  have hfract : 0 ≤ Int.fract num * 10 ^ 6 := mul_nonneg (Int.fract_nonneg _) (by norm_num)
  have hsplit : num * 10 ^ 6 = Int.fract num * 10 ^ 6 + ((⌊num⌋₊ * 10 ^ 6 : ℕ) : ℚ) := by
    rw [Int.fract, Nat.cast_mul, natCast_floor_eq_intCast_floor h]
    push_cast
    ring
  rw [cutSix, hsplit, truncate_of_nonneg (by positivity), Nat.floor_add_natCast hfract, sixDigits,
    abs_of_nonneg h]
  push_cast
  ring

/-- The sign, the integer part and the six digits. -/
theorem cutSix_eq (num : ℚ) :
    cutSix num = (if num < 0 then -1 else 1) * (⌊|num|⌋₊ + sixDigits num / 10 ^ 6) := by
  split_ifs with h
  · have hpos := cutSix_of_nonneg (neg_nonneg.mpr h.le)
    have hneg : cutSix (-num) = -cutSix num := by
      rw [cutSix, cutSix, neg_mul, truncate_neg, Int.cast_neg, neg_div]
    rw [sixDigits, abs_neg, ← sixDigits, hneg] at hpos
    rw [abs_of_neg h, ← hpos, neg_one_mul, neg_neg]
  · rw [one_mul, abs_of_nonneg (not_lt.mp h), cutSix_of_nonneg (not_lt.mp h)]

/-! ## The digit loop -/

/-- **After `k` turns** on the fraction `x`: ten times the first `k` digits, what is left behind
them, and the number of zeros among them. -/
structure Collected (x : ℚ) (k : ℕ) (s : PutFloat) : Prop where
  ans : s.ans = (10 * ⌊x * 10 ^ k⌋₊ : ℕ)
  res : LeadingZeros k s.res ⌊x * 10 ^ k⌋₊
  sec : s.sec = Int.fract (x * 10 ^ k)

theorem Collected.start {x : ℚ} (h0 : 0 ≤ x) (h1 : x < 1) :
    Collected x 0 { ans := 0, res := 0, sec := x } := by
  have hfloor : ⌊x * 10 ^ 0⌋₊ = 0 := by rw [pow_zero, mul_one, Nat.floor_eq_zero.mpr h1]
  refine ⟨by rw [hfloor]; rfl, ?_, ?_⟩
  · rw [hfloor]
    exact LeadingZeros.nil
  · rw [pow_zero, mul_one, Int.fract_eq_self.mpr ⟨h0, h1⟩]

/-- **One turn collects one digit.** -/
theorem Collected.digit {x : ℚ} {k : ℕ} {s : PutFloat} (hx : 0 ≤ x) (h : Collected x k s) :
    Collected x (k + 1) (putDigit s) := by
  obtain ⟨hans, hres, hsec⟩ := h
  have hfract : 0 ≤ s.sec * 10 := by
    rw [hsec]
    exact mul_nonneg (Int.fract_nonneg _) (by norm_num)
  -- the digit of this turn
  have hdigit : ⌊x * 10 ^ (k + 1)⌋₊ = 10 * ⌊x * 10 ^ k⌋₊ + ⌊s.sec * 10⌋₊ := by
    rw [hsec, floor_mul_pow_succ hx]
  have hlt : ⌊s.sec * 10⌋₊ < 10 := by
    rw [Nat.floor_lt hfract, hsec]
    push_cast
    linarith [Int.fract_lt_one (x * 10 ^ k)]
  have hsum : s.ans + truncate (s.sec * 10) = (⌊x * 10 ^ (k + 1)⌋₊ : ℕ) := by
    rw [hans, truncate_of_nonneg hfract, hdigit, Nat.cast_add]
  have hleft : s.sec * 10 - truncate (s.sec * 10) = Int.fract (x * 10 ^ (k + 1)) := by
    rw [fract_mul_pow_succ hx, ← hsec, Int.fract, truncate_of_nonneg hfract,
      Int.natCast_floor_eq_floor hfract]
  have hzeros := hres.digit hlt
  rw [← hdigit] at hzeros
  unfold putDigit
  dsimp only
  rw [hsum]
  by_cases hzero : ⌊x * 10 ^ (k + 1)⌋₊ = 0
  · rw [if_pos (by rw [hzero]; rfl)]
    rw [if_pos hzero] at hzeros
    exact ⟨by push_cast; ring, hzeros, hleft⟩
  · rw [if_neg (by exact_mod_cast hzero)]
    rw [if_neg hzero] at hzeros
    exact ⟨by push_cast; ring, hzeros, hleft⟩

/-- The whole loop. -/
theorem collected_iterate {x : ℚ} (h0 : 0 ≤ x) (h1 : x < 1) (k : ℕ) :
    Collected x k (putDigit^[k] { ans := 0, res := 0, sec := x }) := by
  induction k with
  | zero => exact Collected.start h0 h1
  | succ k ih =>
      rw [Function.iterate_succ_apply']
      exact ih.digit h0

/-! ## The texts -/

/-- A number fits the buffer below 1000. -/
theorem sprintfText_natCast (n : ℕ) :
    sprintfText n = if n < 1000 then some (Nat.toDigits 10 n) else none := by
  have hdecimal : decimal n = Nat.toDigits 10 n := if_neg (by omega)
  have hlength := Nat.length_toDigits_le_iff (n := n) (by norm_num : 1 < 10) (by norm_num : 0 < 3)
  rw [sprintfText, hdecimal]
  exact if_congr (Nat.add_le_add_iff_right.trans hlength) rfl rfl

theorem putZeros_eq (res : ℕ) : putZeros res = some (List.replicate res '0') := by
  induction res with
  | zero => rfl
  | succ res ih =>
      have hzero : sprintfText 0 = some ['0'] := rfl
      rw [putZeros, hzero, ih, List.replicate_succ]
      rfl

/-- The last text, for `res` leading zeros and the digits `d`. -/
def lastText (res d : ℕ) : ℕ := 10 * d / 10 ^ scaling res

/-- **What is sent**: the sign, the integer part, the point, the zeros and the last text, which has
to fit. -/
theorem uartPutfloat_eq {num : ℚ} (h : |num| < 1000) :
    ∃ res, LeadingZeros 6 res (sixDigits num) ∧
      uartPutfloat num = if lastText res (sixDigits num) < 1000 then
        some ((if num < 0 then ['-'] else []) ++ (Nat.toDigits 10 ⌊|num|⌋₊ ++
          '.' :: (List.replicate res '0' ++ Nat.toDigits 10 (lastText res (sixDigits num)))))
      else none := by
  have hnonneg := abs_nonneg num
  have hinteg : truncate |num| = (⌊|num|⌋₊ : ℕ) := truncate_of_nonneg hnonneg
  have hwhole : ⌊|num|⌋₊ < 1000 := (Nat.floor_lt hnonneg).mpr h
  have hcollected : Collected (Int.fract |num|) 6
      (putDigit^[6] { ans := 0, res := 0, sec := |num| - truncate |num| }) := by
    rw [hinteg, Int.natCast_floor_eq_floor hnonneg]
    exact collected_iterate (Int.fract_nonneg _) (Int.fract_lt_one _) 6
  unfold uartPutfloat
  dsimp only
  generalize putDigit^[6] { ans := 0, res := 0, sec := |num| - truncate |num| } = s at *
  obtain ⟨hans, hres, -⟩ := hcollected
  refine ⟨s.res, hres, ?_⟩
  have hlast : truncate (s.ans / 10 ^ scaling s.res) = (lastText s.res (sixDigits num) : ℕ) := by
    rw [hans, truncate_of_nonneg (by positivity), lastText,
      ← Nat.floor_div_eq_div (K := ℚ)]
    push_cast
    rfl
  have hsign : (if (if num < 0 then (-1 : ℤ) else 1) < 0 then ['-'] else []) =
      if num < 0 then ['-'] else [] := by
    split_ifs <;> first | rfl | omega
  rw [hlast, hsign, hinteg, sprintfText_natCast, if_pos hwhole, putZeros_eq, sprintfText_natCast]
  split_ifs <;> simp

/-! ## When it is right -/

/-- The digits that are printed right: none but zeros, or two digits between three zeros and one. -/
def Printable (d : ℕ) : Prop := d = 0 ∨ 100 ≤ d ∧ d < 1000 ∧ 10 ∣ d

/-- Up to two leading zeros the rest of the digits does not fit the buffer. -/
theorem le_lastText {res d : ℕ} (h : LeadingZeros 6 res d) (hres : res ≤ 2) :
    1000 ≤ d ∧ 1000 ≤ lastText res d := by
  have hnext := h.next (by omega)
  rcases (by omega : res = 0 ∨ res = 1 ∨ res = 2) with rfl | rfl | rfl
  · have hlast : lastText 0 d = 10 * d / 10 := rfl
    omega
  · have hlast : lastText 1 d = 10 * d / 1 := rfl
    omega
  · have hlast : lastText 2 d = 10 * d / 10 := rfl
    omega

/-- From four leading zeros on nothing is left of the digits. -/
theorem lastText_eq_zero {res d : ℕ} (h : LeadingZeros 6 res d) (hres : 4 ≤ res) :
    lastText res d = 0 := by
  have hlt := h.lt
  have hle := h.le
  rcases (by omega : res = 4 ∨ res = 5 ∨ res = 6) with rfl | rfl | rfl
  · have hlast : lastText 4 d = 10 * d / 1000 := rfl
    omega
  · have hlast : lastText 5 d = 10 * d / 10000 := rfl
    omega
  · have hlast : lastText 6 d = 10 * d / 100000 := rfl
    omega

/-- Two digits. -/
theorem length_toDigits_two {n : ℕ} (hlo : 10 ≤ n) (hhi : n < 100) :
    (Nat.toDigits 10 n).length = 2 := by
  have hle := Nat.length_toDigits_le_iff (n := n) (by norm_num : 1 < 10) (by norm_num : 0 < 2)
  have hgt := Nat.length_toDigits_le_iff (n := n) (by norm_num : 1 < 10) (by norm_num : 0 < 1)
  omega

/-- With three leading zeros the last of the three digits is lost. -/
theorem lastText_three {d : ℕ} (h : LeadingZeros 6 3 d) :
    (lastText 3 d : ℚ) / 10 ^ (3 + (Nat.toDigits 10 (lastText 3 d)).length) = d / 10 ^ 6 ↔
      10 ∣ d := by
  have hlt := h.lt
  have hnext := h.next (by norm_num)
  have hlast : lastText 3 d = d / 10 := by
    have hquot : lastText 3 d = 10 * d / 100 := rfl
    omega
  rw [hlast, length_toDigits_two (by omega) (by omega), div_eq_div_iff (by norm_num) (by norm_num)]
  constructor
  · intro heq
    have hnat : d / 10 * 10 ^ 6 = d * 10 ^ (3 + 2) := by exact_mod_cast heq
    omega
  · intro hdvd
    have hnat : d / 10 * 10 ^ 6 = d * 10 ^ (3 + 2) := by omega
    exact_mod_cast hnat

/-- **The last text is right for the printable digits only.** -/
theorem lastText_iff {res d : ℕ} (h : LeadingZeros 6 res d) :
    (lastText res d < 1000 ∧
      (lastText res d : ℚ) / 10 ^ (res + (Nat.toDigits 10 (lastText res d)).length) =
        d / 10 ^ 6) ↔ Printable d := by
  have hlt := h.lt
  rcases (by omega : res ≤ 2 ∨ res = 3 ∨ 4 ≤ res) with hres | rfl | hres
  · have hlarge := le_lastText h hres
    unfold Printable
    omega
  · have hnext := h.next (by norm_num)
    have hfits : lastText 3 d < 1000 := by
      have hquot : lastText 3 d = 10 * d / 100 := rfl
      omega
    rw [lastText_three h]
    unfold Printable
    omega
  · have hsmall : d < 100 := by
      have hpow : 10 ^ (6 - res) ≤ 10 ^ 2 := Nat.pow_le_pow_right (by norm_num) (by omega)
      omega
    rw [lastText_eq_zero h hres, Nat.cast_zero, zero_div, eq_comm (a := (0 : ℚ)), div_eq_zero_iff,
      Nat.cast_eq_zero]
    unfold Printable
    norm_num
    omega

/-- The right output, in terms of the last text. -/
theorem printsCut_iff {num : ℚ} (h : |num| < 1000) :
    ∃ res, LeadingZeros 6 res (sixDigits num) ∧
      (PrintsCut num ↔ lastText res (sixDigits num) < 1000 ∧
        (lastText res (sixDigits num) : ℚ) /
          10 ^ (res + (Nat.toDigits 10 (lastText res (sixDigits num))).length) =
            sixDigits num / 10 ^ 6) := by
  obtain ⟨res, hres, hout⟩ := uartPutfloat_eq h
  refine ⟨res, hres, ?_⟩
  have hsign : (if num < 0 then (-1 : ℚ) else 1) ≠ 0 := by split_ifs <;> norm_num
  -- the numeral of the parts
  have hread := readNumeral_append (num < 0) ⌊|num|⌋₊ res (lastText res (sixDigits num))
  simp only [decide_eq_true_eq] at hread
  rw [PrintsCut, hout]
  by_cases hfits : lastText res (sixDigits num) < 1000
  · rw [if_pos hfits]
    constructor
    · rintro ⟨out, hsome, hvalue, -⟩
      rw [← Option.some.inj hsome, hread, Option.some.injEq, cutSix_eq, mul_right_inj' hsign,
        add_right_inj] at hvalue
      exact ⟨hfits, hvalue⟩
    · rintro ⟨-, hvalue⟩
      refine ⟨_, rfl, ?_, abs_cutSix_sub_lt num⟩
      rw [hread, hvalue, cutSix_eq]
  · rw [if_neg hfits]
    constructor
    · rintro ⟨out, hnone, -⟩
      cases hnone
    · rintro ⟨hlt, -⟩
      exact absurd hlt hfits

/-- **When `uart_putfloat` is right**: for six digits behind the point that are all zeros, or three
zeros, two digits and a zero. -/
theorem uartPutfloat_iff {num : ℚ} (h : |num| < 1000) :
    PrintsCut num ↔ Printable (sixDigits num) := by
  obtain ⟨res, hres, hprints⟩ := printsCut_iff h
  exact hprints.trans (lastText_iff hres)

/-- The number `-12.00034` is printed as it is. -/
theorem uartPutfloat_iff_small : |(-1200034 / 100000 : ℚ)| < 1000 ∧
    (PrintsCut (-1200034 / 100000) ↔ Printable (sixDigits (-1200034 / 100000))) :=
  have h : |(-1200034 / 100000 : ℚ)| < 1000 := by norm_num [abs_lt]
  ⟨h, uartPutfloat_iff h⟩

/-- The digits of a proper fraction. -/
theorem sixDigits_of_lt_one {num : ℚ} (h0 : 0 ≤ num) (h1 : num < 1) :
    sixDigits num = ⌊num * 10 ^ 6⌋₊ := by
  rw [sixDigits, abs_of_nonneg h0, Int.fract_eq_self.mpr ⟨h0, h1⟩]

/-- One half does not fit the buffer, and the last digit of `0.000123` is lost. -/
theorem not_printsCut : ¬ PrintsCut (1 / 2) ∧ ¬ PrintsCut (123 / 1000000) := by
  constructor
  · obtain ⟨res, hres, hprints⟩ := printsCut_iff (by norm_num [abs_lt] : |(1 / 2 : ℚ)| < 1000)
    have hdigits : sixDigits (1 / 2) = 500000 := by
      rw [sixDigits_of_lt_one (by norm_num) (by norm_num)]
      norm_num
    rw [hprints, lastText_iff hres, hdigits]
    unfold Printable
    omega
  · obtain ⟨res, hres, hprints⟩ :=
      printsCut_iff (by norm_num [abs_lt] : |(123 / 1000000 : ℚ)| < 1000)
    have hdigits : sixDigits (123 / 1000000) = 123 := by
      rw [sixDigits_of_lt_one (by norm_num) (by norm_num)]
      norm_num
    rw [hprints, lastText_iff hres, hdigits]
    unfold Printable
    omega

end HandlingRobot
