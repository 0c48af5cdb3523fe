import Mathlib.Algebra.Order.Field.Rat
import Mathlib.Algebra.Order.Floor.Ring
import Mathlib.Algebra.Order.Floor.Semiring
import Mathlib.Tactic.Linarith
import Mathlib.Tactic.Ring

/-! # Decimal numerals

* **`floor_mul_pow_succ`** — the digits behind the point, one at a time.
* **`LeadingZeros`** — how many of the first digits are zeros; **`LeadingZeros.digit`**, with one
  more digit.
* **`readNumeral`** — the value of a numeral with a sign, digits, a point and digits, and
  **`readNumeral_append`**, what it makes of a numeral put together from its parts. -/

namespace HandlingRobot

/-! ## The digits behind the point -/

section Digits

variable {K : Type*} [Field K] [LinearOrder K] [IsStrictOrderedRing K] [FloorRing K]

/-- The digits so far, and what is left behind them. -/
theorem mul_pow_succ_eq {x : K} (h : 0 ≤ x) (k : ℕ) : x * 10 ^ (k + 1) =
    Int.fract (x * 10 ^ k) * 10 + ((10 * ⌊x * 10 ^ k⌋₊ : ℕ) : K) := by
  have hx : 0 ≤ x * 10 ^ k := by positivity
  rw [Int.fract, Nat.cast_mul, natCast_floor_eq_intCast_floor hx]
  push_cast
  ring

/-- **One more digit**: ten times the digits so far, and the next one. -/
theorem floor_mul_pow_succ {x : K} (h : 0 ≤ x) (k : ℕ) :
    ⌊x * 10 ^ (k + 1)⌋₊ = 10 * ⌊x * 10 ^ k⌋₊ + ⌊Int.fract (x * 10 ^ k) * 10⌋₊ := by
  have hfract : 0 ≤ Int.fract (x * 10 ^ k) * 10 := mul_nonneg (Int.fract_nonneg _) (by norm_num)
  rw [mul_pow_succ_eq h, Nat.floor_add_natCast hfract, add_comm]

theorem fract_mul_pow_succ {x : K} (h : 0 ≤ x) (k : ℕ) :
    Int.fract (x * 10 ^ (k + 1)) = Int.fract (Int.fract (x * 10 ^ k) * 10) := by
  rw [mul_pow_succ_eq h, Int.fract_add_natCast]

end Digits

/-- **The first `z` of `k` digits are zeros**, and the next one is not, where `d` is the number of
all `k` digits. -/
structure LeadingZeros (k z d : ℕ) : Prop where
  le : z ≤ k
  lt : d < 10 ^ (k - z)
  next : z < k → 10 ^ (k - z - 1) ≤ d

theorem LeadingZeros.nil : LeadingZeros 0 0 0 := ⟨le_rfl, by norm_num, fun h => absurd h (by omega)⟩

/-- **One more digit.** -/
theorem LeadingZeros.digit {k z d e : ℕ} (h : LeadingZeros k z d) (he : e < 10) :
    LeadingZeros (k + 1) (if 10 * d + e = 0 then z + 1 else z) (10 * d + e) := by
  obtain ⟨hle, hlt, hnext⟩ := h
  split_ifs with hzero
  · -- all digits so far are zeros
    have hz : z = k := by
      by_contra hne
      have hpos : 0 < 10 ^ (k - z - 1) := by positivity
      have := hnext (by omega)
      omega
    subst hz
    exact ⟨le_rfl, by simp [hzero], fun h => absurd h (by omega)⟩
  · have hpow : 10 ^ (k + 1 - z) = 10 * 10 ^ (k - z) := by
      rw [show k + 1 - z = k - z + 1 by omega, pow_succ, mul_comm]
    refine ⟨by omega, by omega, fun _ => ?_⟩
    rcases hle.lt_or_eq with hz | rfl
    · have hpow' : 10 ^ (k + 1 - z - 1) = 10 * 10 ^ (k - z - 1) := by
        rw [show k + 1 - z - 1 = k - z - 1 + 1 by omega, pow_succ, mul_comm]
      have := hnext hz
      omega
    · rw [show z + 1 - z - 1 = 0 by omega, pow_zero]
      omega

/-! ## Reading a numeral -/

/-- The value of a string of digits, where it is one. -/
def readDigits (l : List Char) : Option ℕ :=
  if !l.isEmpty && l.all Char.isDigit then some (Nat.ofDigitChars 10 l 0) else none

/-- The value of digits, a point and digits. -/
def readUnsigned (l : List Char) : Option ℚ :=
  match l.dropWhile Char.isDigit with
  | '.' :: frac => do
      let w ← readDigits (l.takeWhile Char.isDigit)
      let f ← readDigits frac
      some ((w : ℚ) + f / 10 ^ frac.length)
  | _ => none

/-- **The value of a numeral.** -/
def readNumeral (l : List Char) : Option ℚ :=
  if l.head? = some '-' then (readUnsigned l.tail).map (- ·) else readUnsigned l

/-- The digits of a number, behind any number of zeros. -/
theorem readDigits_append (k n : ℕ) :
    readDigits (List.replicate k '0' ++ Nat.toDigits 10 n) = some n := by
  have hdigits : (List.replicate k '0' ++ Nat.toDigits 10 n).all Char.isDigit = true := by
    refine List.all_eq_true.mpr fun c hc => ?_
    rcases List.mem_append.mp hc with hc | hc
    · rw [List.eq_of_mem_replicate hc]
      rfl
    · exact Nat.isDigit_of_mem_toDigits (by norm_num) (by norm_num) hc
  have hne : (List.replicate k '0' ++ Nat.toDigits 10 n).isEmpty = false :=
    List.isEmpty_eq_false_iff.mpr (List.append_ne_nil_of_right_ne_nil _ Nat.toDigits_ne_nil)
  rw [readDigits, hne, hdigits, Bool.not_false, Bool.and_self, if_pos rfl, Nat.ofDigitChars_append,
    Nat.ofDigitChars_replicate_zero, mul_zero, Nat.ofDigitChars_ten_toDigits]

theorem readUnsigned_append (w k n : ℕ) :
    readUnsigned (Nat.toDigits 10 w ++ '.' :: (List.replicate k '0' ++ Nat.toDigits 10 n)) =
      some ((w : ℚ) + n / 10 ^ (k + (Nat.toDigits 10 n).length)) := by
  have hdigit : ∀ c ∈ Nat.toDigits 10 w, c.isDigit = true := fun c hc =>
    Nat.isDigit_of_mem_toDigits (by norm_num) (by norm_num) hc
  have hw := readDigits_append 0 w
  rw [List.replicate_zero, List.nil_append] at hw
  rw [readUnsigned, List.dropWhile_append_of_pos hdigit, List.takeWhile_append_of_pos hdigit]
  have hpoint : ¬ '.'.isDigit = true := by decide
  rw [List.dropWhile_cons_of_neg hpoint, List.takeWhile_cons_of_neg hpoint, List.append_nil]
  simp only [hw, readDigits_append, List.length_append, List.length_replicate, Option.bind_eq_bind,
    Option.bind_some]

/-- **A numeral put together from its parts.** -/
theorem readNumeral_append (neg : Bool) (w k n : ℕ) :
    readNumeral ((if neg then ['-'] else []) ++
        (Nat.toDigits 10 w ++ '.' :: (List.replicate k '0' ++ Nat.toDigits 10 n))) =
      some ((if neg then (-1 : ℚ) else 1) *
        (w + n / 10 ^ (k + (Nat.toDigits 10 n).length))) := by
  cases neg with
  | true =>
      rw [if_pos rfl, if_pos rfl, List.singleton_append, readNumeral, List.head?_cons, if_pos rfl,
        List.tail_cons, readUnsigned_append, Option.map_some, neg_one_mul]
  | false =>
      have hhead : (Nat.toDigits 10 w ++ '.' :: (List.replicate k '0' ++ Nat.toDigits 10 n)).head? ≠
          some '-' := by
        rw [List.head?_append_of_ne_nil _ Nat.toDigits_ne_nil]
        intro hminus
        have hdigit := Nat.isDigit_of_mem_toDigits (b := 10) (by norm_num) (by norm_num)
          (List.mem_of_mem_head? hminus)
        exact absurd hdigit (by decide)
      rw [if_neg Bool.false_ne_true, if_neg Bool.false_ne_true, List.nil_append, readNumeral,
        if_neg hhead, readUnsigned_append, one_mul]

end HandlingRobot
