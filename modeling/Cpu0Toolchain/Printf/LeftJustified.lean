import Cpu0Toolchain.Printf.Prints
import Cpu0Toolchain.Printf.Reference

/-!
# Left-justified numbers

With the flag `-` the loop of `AppendNumber` over the zeros at the top of `num_buffer` skips
them without printing, and the blanks come behind the digits. The one digit of the number
zero is a zero at the top as well.

## Main result

- `leftJustifies_iff`: the flag does what it should exactly for the numbers that are not
  zero.
-/

namespace Cpu0Toolchain.Printf

/-! ## What is to be printed -/

/-- A number and how its digits are written. -/
structure Number where
  uppercase : Bool
  base : ℕ
  value : ℤ
  deriving DecidableEq

/-- The number that a conversion prints. -/
def Operand.number : Operand → Option Number
  | .d v => some ⟨false, 10, v.toInt⟩
  | .u v => some ⟨false, 10, v.toNat⟩
  | .x v => some ⟨false, 16, v.toNat⟩
  | .X v => some ⟨true, 16, v.toNat⟩
  | _ => none

namespace Number

def sign (n : Number) : List Char := if n.value < 0 then ['-'] else []

/-- The minimal digits. -/
def digits (n : Number) : List Char := numberDigits n.uppercase n.base n.value.natAbs

/-- Sign and digits, and the blanks that are missing to the width. -/
def leftJustified (n : Number) (width : ℕ) : List Char :=
  n.sign ++ n.digits ++ List.replicate (width - (n.sign.length + n.digits.length)) ' '

/-- The rendering without the flag, with the same digits. -/
def rightJustified (n : Number) (zeroPad : Bool) (width : ℕ) : List Char :=
  renderNumber n.uppercase zeroPad n.base width n.value

end Number

/-- The conversion with or without the flag. -/
def Conversion.justified (conv : Conversion) (left : Bool) : Conversion :=
  { conv with leftJustified := left }

structure LeftJustifies (conv : Conversion) (n : Number) : Prop where
  left : (conv.justified true).Prints (n.leftJustified conv.width)
  right : (conv.justified false).Prints (n.rightJustified conv.zeroFlag conv.width)

/-! ## The text with the flag -/

/-- A conversion of a number prints it with its own flags and width. -/
theorem number_text {conv : Conversion} {n : Number} (hnumber : conv.operand.number = some n)
    (hwidth : conv.width ≤ 29) :
    conv.operand.text conv.directive = numberText n.value.natAbs n.base conv.width conv.zeroFlag
      (n.value < 0) n.uppercase conv.leftJustified := by
  have hz : conv.directive.padWithZero = conv.zeroFlag := rfl
  have hl : conv.directive.leftJustified = conv.leftJustified := rfl
  cases hop : conv.operand with
  | d v =>
    rw [hop] at hnumber
    obtain rfl := Option.some.inj hnumber
    simp only [Operand.text, hz, hl, Conversion.minimal_eq hwidth, v.signed_toInt]
  | u v | x v | X v =>
    rw [hop] at hnumber
    obtain rfl := Option.some.inj hnumber
    have hpos : ¬(v.toNat : ℤ) < 0 := Int.not_lt.mpr (Int.natCast_nonneg _)
    simp only [Operand.text, hz, hl, Conversion.minimal_eq hwidth, v.unsigned_toNat,
      Int.natAbs_natCast, hpos, decide_false]
  | p v | s v | c v | percent =>
    rw [hop] at hnumber
    cases hnumber

/-- Digits that are not a single zero are printed, and the blanks are those that are missing. -/
theorem numberText_left {n : Number} (h0 : n.value ≠ 0) (width : ℕ) (zeroPad : Bool) :
    numberText n.value.natAbs n.base width zeroPad (n.value < 0) n.uppercase true =
      n.leftJustified width := by
  have hvalue : n.value.natAbs ≠ 0 := Int.natAbs_ne_zero.mpr h0
  unfold numberText Number.leftJustified Number.sign Number.digits
  by_cases hneg : n.value < 0
  · cases zeroPad <;> simp [hneg, hvalue, Nat.sub_sub]
  · cases zeroPad <;> simp [hneg, hvalue]

/-- Of a zero only the blanks behind it are printed. -/
theorem numberText_left_zero (uppercase zeroPad : Bool) (base width : ℕ) :
    numberText 0 base width zeroPad false uppercase true = List.replicate (width - 1) ' ' := by
  simp [numberText, numberDigits_zero]

section Justified

variable {conv : Conversion} {n : Number} (hnumber : conv.operand.number = some n)
  (hwidth : conv.width ≤ 29)
include hnumber hwidth

theorem prints_numberText (left : Bool) :
    (conv.justified left).Prints (numberText n.value.natAbs n.base conv.width conv.zeroFlag
      (n.value < 0) n.uppercase left) := by
  have hprints := (conv.justified left).prints_text fun _ => hwidth.trans (by decide)
  have htext : (conv.justified left).operand.text (conv.justified left).directive = _ :=
    number_text hnumber hwidth
  rwa [htext] at hprints

theorem left_prints_zero (h0 : n.value = 0) :
    (conv.justified true).Prints (List.replicate (conv.width - 1) ' ') := by
  have hprints := prints_numberText hnumber hwidth true
  rwa [h0, Int.natAbs_zero, decide_eq_false (lt_irrefl _), numberText_left_zero] at hprints

/-- A zero is left out of its field, which is one short. -/
theorem not_leftJustifies_of_zero (h0 : n.value = 0) : ¬LeftJustifies conv n := by
  intro h
  have hlen := congrArg List.length
    (Conversion.prints_unique h.left (left_prints_zero hnumber hwidth h0))
  have hdigits : n.digits.length = 1 := by
    rw [Number.digits, h0, Int.natAbs_zero, numberDigits_zero]
    rfl
  simp only [Number.leftJustified, List.length_append, List.length_replicate, hdigits] at hlen
  omega

theorem leftJustifies_iff : LeftJustifies conv n ↔ n.value ≠ 0 := by
  constructor
  · exact fun h h0 => not_leftJustifies_of_zero hnumber hwidth h0 h
  · intro h0
    have hleft := prints_numberText hnumber hwidth true
    have hright := prints_numberText hnumber hwidth false
    rw [numberText_left h0] at hleft
    rw [numberText_eq_render] at hright
    exact ⟨hleft, hright⟩

end Justified

/-- `%-4d` with -3. -/
theorem minusThree_leftJustified :
    LeftJustifies ⟨true, [digit 4], none, .d (.int (-3))⟩ ⟨false, 10, -3⟩ :=
  (leftJustifies_iff rfl (by decide)).mpr (by decide)

/-- `%-4d` with 0. -/
theorem zero_not_leftJustified :
    ¬∀ (conv : Conversion) (n : Number), conv.operand.number = some n → conv.width ≤ 29 →
      LeftJustifies conv n := by
  intro h
  have hzero : Conversion.width ⟨true, [digit 4], none, .d (.int 0)⟩ ≤ 29 := by decide
  exact not_leftJustifies_of_zero rfl hzero rfl (h _ ⟨false, 10, 0⟩ rfl hzero)

end Cpu0Toolchain.Printf
