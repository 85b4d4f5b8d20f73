import Cpu0Toolchain.CompilerRt.FpLib

/-!
# Soft-float comparisons

`comparesf2.c` and `comparedf2.c`. The words are compared as signed integers, the other way around
when both are negative. The two functions `__lesf2` and `__gesf2` differ in what they return for
operands that are unordered.

## Main results

- `compareXf2_eq`: the result is that of the comparison of the two data.
- `compareXf2_tests`: the tests that a caller makes of the results.
-/

namespace Cpu0Toolchain.CompilerRt
open BinaryFloat

/-! ## `enum LE_RESULT` and `enum GE_RESULT` -/

/-- `LE_LESS`, which is `GE_LESS` too. -/
def leLess : ℤ := -1

def leEqual : ℤ := 0

def leGreater : ℤ := 1

def leUnordered : ℤ := 1

/-- Different from `leUnordered`; the other three are the same. -/
def geUnordered : ℤ := -1

namespace Precision

variable (p : Precision)

/-- The body that `__lesf2` and `__gesf2` have in common. -/
def compareXf2 (unordered : ℤ) (a b : p.Rep) : ℤ :=
  let aAbs := a &&& p.absMask
  let bAbs := b &&& p.absMask
  -- If either a or b is NaN, they are unordered
  if aAbs > p.infRep ∨ bAbs > p.infRep then unordered
  -- If a and b are both zeros, they are equal
  else if aAbs ||| bAbs = 0#p.typeWidth then leEqual
  -- If at least one of a and b is positive, compare a and b as signed integers
  else if (a &&& b).toInt ≥ 0 then
    if a.toInt < b.toInt then leLess else if a.toInt = b.toInt then leEqual else leGreater
  -- Otherwise, both are negative, so we need to flip the sense of the comparison
  else
    if a.toInt > b.toInt then leLess else if a.toInt = b.toInt then leEqual else leGreater

/-- `__lesf2` and `__ledf2`: a NaN is greater. -/
def leXf2 (a b : p.Rep) : ℤ := p.compareXf2 leUnordered a b

/-- `__gesf2` and `__gedf2`: a NaN is less. -/
def geXf2 (a b : p.Rep) : ℤ := p.compareXf2 geUnordered a b

/-- `__unordsf2` and `__unorddf2` -/
def unordXf2 (a b : p.Rep) : ℤ :=
  if a &&& p.absMask > p.infRep ∨ b &&& p.absMask > p.infRep then 1 else 0

def eqXf2 (a b : p.Rep) : ℤ := p.leXf2 a b

def ltXf2 (a b : p.Rep) : ℤ := p.leXf2 a b

def neXf2 (a b : p.Rep) : ℤ := p.leXf2 a b

def gtXf2 (a b : p.Rep) : ℤ := p.geXf2 a b

end Precision

def lesf2 : BitVec 32 → BitVec 32 → ℤ := single.leXf2

def gesf2 : BitVec 32 → BitVec 32 → ℤ := single.geXf2

def unordsf2 : BitVec 32 → BitVec 32 → ℤ := single.unordXf2

def eqsf2 : BitVec 32 → BitVec 32 → ℤ := single.eqXf2

def ltsf2 : BitVec 32 → BitVec 32 → ℤ := single.ltXf2

def nesf2 : BitVec 32 → BitVec 32 → ℤ := single.neXf2

def gtsf2 : BitVec 32 → BitVec 32 → ℤ := single.gtXf2

def ledf2 : BitVec 64 → BitVec 64 → ℤ := double.leXf2

def gedf2 : BitVec 64 → BitVec 64 → ℤ := double.geXf2

def unorddf2 : BitVec 64 → BitVec 64 → ℤ := double.unordXf2

def eqdf2 : BitVec 64 → BitVec 64 → ℤ := double.eqXf2

def ltdf2 : BitVec 64 → BitVec 64 → ℤ := double.ltXf2

def nedf2 : BitVec 64 → BitVec 64 → ℤ := double.neXf2

def gtdf2 : BitVec 64 → BitVec 64 → ℤ := double.gtXf2

namespace Precision

variable {p : Precision}

/-! ## The comparison -/

/-- The word as a signed integer, by its sign and its magnitude. -/
theorem toInt_eq (a : p.Rep) : a.toInt =
    (if a.msb then -(2 ^ (p.significandBits + p.exponentBits) : ℕ) else 0 : ℤ) +
      p.magnitude a := by
  have hword := Format.toNat_eq (f := p.toFormat) a
  have hpow : 2 ^ p.typeWidth = 2 * 2 ^ (p.significandBits + p.exponentBits) := by
    rw [typeWidth_eq, Nat.pow_succ']
  rw [BitVec.toInt_eq_msb_cond]
  cases hmsb : a.msb with
  | false =>
    rw [hmsb, if_neg Bool.false_ne_true, Nat.zero_add] at hword
    rw [if_neg Bool.false_ne_true, if_neg Bool.false_ne_true, zero_add, hword]
  | true =>
    rw [hmsb, if_pos rfl] at hword
    rw [if_pos rfl, if_pos rfl, hword]
    push_cast [hpow]
    ring

/-- The order of the numbers is that of the words as signed integers, or the other one. -/
theorem signedNumber_order {a b : p.Rep} (hne : p.magnitude a ≠ 0 ∨ p.magnitude b ≠ 0) :
    if (a &&& b).toInt ≥ 0 then
      (a.toInt < b.toInt ↔ Format.signedNumber (f := p.toFormat) a < Format.signedNumber b) ∧
        (a.toInt = b.toInt ↔ Format.signedNumber (f := p.toFormat) a = Format.signedNumber b)
    else
      (a.toInt > b.toInt ↔ Format.signedNumber (f := p.toFormat) a < Format.signedNumber b) ∧
        (a.toInt = b.toInt ↔ Format.signedNumber (f := p.toFormat) a = Format.signedNumber b) := by
  have hlta := Format.magnitude_lt (f := p.toFormat) a
  have hltb := Format.magnitude_lt (f := p.toFormat) b
  have hboth : (a &&& b).toInt ≥ 0 ↔ (a.msb && b.msb) = false := by
    rw [ge_iff_le, ← BitVec.msb_and, BitVec.msb_eq_toInt, decide_eq_false_iff_not, not_lt]
  rw [toInt_eq a, toInt_eq b, Format.signedNumber, Format.signedNumber]
  split
  next hpositive =>
    rw [hboth] at hpositive
    cases hmsba : a.msb <;> cases hmsbb : b.msb
    case true.true =>
      rw [hmsba, hmsbb] at hpositive
      exact absurd hpositive (by decide)
    all_goals
      simp only [Bool.false_eq_true, if_true, if_false]
      omega
  next hnegative =>
    rw [hboth, Bool.not_eq_false, Bool.and_eq_true] at hnegative
    rw [hnegative.1, hnegative.2, if_pos rfl, if_pos rfl, if_pos rfl]
    omega

/-- Infinities and both zeros are in their place in the order, and a NaN has none. -/
theorem compareXf2_eq (unordered : ℤ) (a b : p.Rep) :
    p.compareXf2 unordered a b = match (p.decode a).number, (p.decode b).number with
      | some x, some y => if x < y then leLess else if x = y then leEqual else leGreater
      | _, _ => unordered := by
  simp only [compareXf2, abs_gt_infRep, BitVec.or_eq_zero_iff, abs_eq_zero]
  by_cases hnana : p.infinity < p.magnitude a
  · rw [if_pos (.inl hnana), Format.number_nan hnana]
  by_cases hnanb : p.infinity < p.magnitude b
  · rw [if_pos (.inr hnanb), Format.number_nan hnanb]
    cases (p.decode a).number <;> rfl
  obtain ⟨hplacea, hmema⟩ := Format.number_decode (Nat.not_lt.mp hnana)
  obtain ⟨hplaceb, hmemb⟩ := Format.number_decode (Nat.not_lt.mp hnanb)
  rw [if_neg (not_or.mpr ⟨hnana, hnanb⟩), hplacea, hplaceb]
  dsimp only
  simp only [p.place_strictMonoOn.lt_iff_lt hmema hmemb,
    p.place_strictMonoOn.injOn.eq_iff hmema hmemb]
  by_cases hzeros : p.magnitude a = 0 ∧ p.magnitude b = 0
  · have hzero : Format.signedNumber (f := p.toFormat) a = Format.signedNumber b := by
      rw [Format.signedNumber, Format.signedNumber, hzeros.1, hzeros.2]
      split <;> split <;> rfl
    rw [if_pos hzeros, if_neg (not_lt.mpr hzero.ge), if_pos hzero]
  rw [if_neg hzeros]
  have horder := signedNumber_order (not_and_or.mp hzeros)
  split at horder
  next hpositive => simp only [if_pos hpositive, horder.1, horder.2]
  next hnegative => simp only [if_neg hnegative, horder.1, horder.2]

/-- The tests that a caller makes of the results. A NaN fails those for an order and for
equality. -/
theorem compareXf2_tests (a b : p.Rep) :
    (p.ltXf2 a b < 0 ↔ ∃ x ∈ (p.decode a).number, ∃ y ∈ (p.decode b).number, x < y) ∧
    (p.leXf2 a b ≤ 0 ↔ ∃ x ∈ (p.decode a).number, ∃ y ∈ (p.decode b).number, x ≤ y) ∧
    (p.eqXf2 a b = 0 ↔ ∃ x ∈ (p.decode a).number, ∃ y ∈ (p.decode b).number, x = y) ∧
    (p.neXf2 a b ≠ 0 ↔ ¬∃ x ∈ (p.decode a).number, ∃ y ∈ (p.decode b).number, x = y) ∧
    (p.geXf2 a b ≥ 0 ↔ ∃ x ∈ (p.decode a).number, ∃ y ∈ (p.decode b).number, y ≤ x) ∧
    (p.gtXf2 a b > 0 ↔ ∃ x ∈ (p.decode a).number, ∃ y ∈ (p.decode b).number, y < x) ∧
    (p.unordXf2 a b ≠ 0 ↔ (p.decode a).number = none ∨ (p.decode b).number = none) := by
  have hunord : p.unordXf2 a b ≠ 0 ↔
      (p.decode a).number = none ∨ (p.decode b).number = none := by
    have hnumber : ∀ c : p.Rep, (p.decode c).number = none ↔ p.infinity < p.magnitude c := by
      intro c
      by_cases hnan : p.infinity < p.magnitude c
      · exact iff_of_true (Format.number_nan hnan) hnan
      · rw [(Format.number_decode (Nat.not_lt.mp hnan)).1]
        exact iff_of_false (Option.some_ne_none _) hnan
    simp only [hnumber, unordXf2, abs_gt_infRep]
    split
    next h => exact iff_of_true one_ne_zero h
    next h => exact iff_of_false (not_not.mpr rfl) h
  rw [ltXf2, eqXf2, neXf2, gtXf2, leXf2, geXf2, compareXf2_eq, compareXf2_eq]
  refine ⟨?_, ?_, ?_, ?_, ?_, ?_, hunord⟩
  all_goals
    cases (p.decode a).number with
    | none => simp [leUnordered, geUnordered]
    | some x =>
      cases (p.decode b).number with
      | none => simp [leUnordered, geUnordered]
      | some y =>
        dsimp only
        rcases lt_trichotomy x y with hlt | rfl | hgt
        · rw [if_pos hlt]
          simp [leLess, hlt, hlt.le, hlt.ne', hlt.not_gt, hlt.not_ge]
        · rw [if_neg (lt_irrefl x), if_pos rfl]
          simp [leEqual]
        · rw [if_neg hgt.not_gt, if_neg hgt.ne']
          simp [leGreater, hgt, hgt.le, hgt.ne, hgt.not_gt, hgt.not_ge]

end Precision

end Cpu0Toolchain.CompilerRt
