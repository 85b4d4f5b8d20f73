import Cpu0Toolchain.Library.SignWord
import Mathlib.Tactic.Linarith
import Mathlib.Tactic.Positivity
import Mathlib.Tactic.Ring

/-!
# Integer arithmetic with a check of overflow

`mulosi4.c` and `mulodi4.c`, which set a flag, and the routines of `-ftrapv` for addition,
subtraction, multiplication, negation and the absolute value, which call `compilerrt_abort`.
`int_util.h` declares it `noreturn`, so that the run ends with the call, although the `abort` of
`int_util.c` returns. The sums, differences and products that the routines look at afterwards, and
the left shifts of a signed word, are taken to wrap around, where C leaves them undefined.

## Main results

- `mulo4_eq`: the flag is set exactly when the product does not fit.
- `addv3_eq`, `subv3_eq`, `mulv3_eq`, `negv2_eq`, `absvsi2_eq`, `absvdi2_eq`: the run ends in the
  abort exactly when the result does not fit.
-/

namespace Cpu0Toolchain.CompilerRt
open SignWord

variable {w : ℕ}

/-! ## The extreme values -/

/-- `(si_int)1 << (N - 1)` -/
def minWord (w : ℕ) : BitVec w := 1#w <<< (w - 1)

/-- The word with the sign bit alone. -/
theorem minWord_eq : minWord w = BitVec.intMin w := BitVec.twoPow_eq w (w - 1) |>.symm

/-- All other bits make up the largest number. -/
theorem toInt_not_minWord : (~~~minWord w).toInt = 2 ^ (w - 1) - 1 := by
  have hneg : ~~~minWord w = BitVec.intMax w := by
    rw [BitVec.not_eq_neg_add, minWord_eq, BitVec.neg_intMin, ← BitVec.intMax_add_one,
      BitVec.add_sub_cancel]
  rw [hneg, BitVec.toInt_intMax]

theorem toInt_minWord (h : 0 < w) : (minWord w).toInt = -2 ^ (w - 1) := by
  rw [minWord_eq, BitVec.toInt_intMin_of_pos h]

/-- What a signed word holds, in the words the results use. -/
theorem toInt_bounds (a : BitVec w) : -2 ^ (w - 1) ≤ a.toInt ∧ a.toInt < 2 ^ (w - 1) :=
  ⟨BitVec.le_toInt a, BitVec.toInt_lt⟩

theorem toInt_ne_of_ne_minWord (h : 0 < w) {a : BitVec w} (ha : a ≠ minWord w) :
    a.toInt ≠ -2 ^ (w - 1) := by
  intro heq
  rw [← toInt_minWord h] at heq
  exact ha (BitVec.eq_of_toInt_eq heq)

/-- A product fits if it lies between the extreme values. -/
theorem smulOverflow_eq_false {a b : BitVec w} : a.smulOverflow b = false ↔
    -2 ^ (w - 1) ≤ a.toInt * b.toInt ∧ a.toInt * b.toInt < 2 ^ (w - 1) := by
  simp only [BitVec.smulOverflow, Bool.or_eq_false_iff, decide_eq_false_iff_not]
  omega

theorem smulOverflow_comm (a b : BitVec w) : a.smulOverflow b = b.smulOverflow a := by
  rw [BitVec.smulOverflow, BitVec.smulOverflow, Int.mul_comm]

/-! ## The check of a product -/

section Product

variable {a b : BitVec w}

/-- Of the smallest number only two multiples fit. -/
theorem smulOverflow_minWord (h : 2 ≤ w) (b : BitVec w) :
    (minWord w).smulOverflow b = decide ¬(b = 0#w ∨ b = 1#w) := by
  have hpow : (2 : ℤ) ^ (w - 1) = 2 * 2 ^ (w - 2) := by
    rw [← pow_succ', show w - 2 + 1 = w - 1 by omega]
  have hquarter : (0 : ℤ) < 2 ^ (w - 2) := by positivity
  have hzero : b = 0#w ↔ b.toInt = 0 := by rw [← BitVec.toInt_inj, BitVec.toInt_zero]
  have hone : b = 1#w ↔ b.toInt = 1 := by
    rw [← BitVec.toInt_inj, BitVec.toInt_one (by omega)]
  have hfits : (minWord w).smulOverflow b = false ↔ b.toInt = 0 ∨ b.toInt = 1 := by
    rw [smulOverflow_eq_false, toInt_minWord (by omega)]
    generalize (2 : ℤ) ^ (w - 1) = m at *
    constructor
    · rintro ⟨hlow, hhigh⟩
      have h0 : ¬b.toInt < 0 := fun hneg => by nlinarith
      have h2 : ¬2 ≤ b.toInt := fun hlarge => by nlinarith
      omega
    · rintro (h0 | h1)
      · rw [h0]
        omega
      · rw [h1]
        omega
  rw [Bool.eq_iff_iff, decide_eq_true_iff, ← Bool.not_eq_false, hfits, hzero, hone]

/-- The absolute values that the routines compute without a branch. -/
theorem toInt_abs (ha : a ≠ minWord w) : ((a ^^^ signWord a) - signWord a).toInt = |a.toInt| := by
  rw [xor_sub_signWord, BitVec.toInt_abs_eq_natAbs_of_ne_intMin (minWord_eq ▸ ha),
    Int.natCast_natAbs]

theorem signWord_eq_iff (h : 0 < w) :
    signWord a = signWord b ↔ (a.toInt < 0 ↔ b.toInt < 0) := by
  rw [signWord_eq, signWord_eq, ofBool_inj h, BitVec.msb_eq_toInt, BitVec.msb_eq_toInt,
    decide_eq_decide]

theorem tdiv_lt_iff {n x y : ℤ} (hn : 0 ≤ n) (hy : 0 < y) : n.tdiv y < x ↔ n < x * y := by
  rw [Int.tdiv_eq_ediv_of_nonneg hn, Int.ediv_lt_iff_lt_mul hy]

/-- Where the signs agree, the product is positive and is compared with the largest number. -/
theorem smulOverflow_of_sign_eq {m : ℤ} (h : a.toInt < 0 ↔ b.toInt < 0) (hm : 2 ^ (w - 1) = m) :
    a.smulOverflow b = decide (m ≤ |a.toInt| * |b.toInt|) := by
  have hproduct : |a.toInt| * |b.toInt| = a.toInt * b.toInt := by
    rw [← abs_mul, abs_of_nonneg]
    rcases lt_or_ge a.toInt 0 with ha | ha
    · exact mul_nonneg_of_nonpos_of_nonpos ha.le (h.mp ha).le
    · exact mul_nonneg ha (not_lt.mp (mt h.mpr (not_lt.mpr ha)))
  have hpos : (0 : ℤ) < 2 ^ (w - 1) := by positivity
  have habs : 0 ≤ |a.toInt| * |b.toInt| := mul_nonneg (abs_nonneg _) (abs_nonneg _)
  rw [Bool.eq_iff_iff, decide_eq_true_iff, ← Bool.not_eq_false, smulOverflow_eq_false,
    ← hproduct, ← hm]
  omega

theorem smulOverflow_of_sign_ne {m : ℤ} (h : ¬(a.toInt < 0 ↔ b.toInt < 0))
    (hm : 2 ^ (w - 1) = m) : a.smulOverflow b = decide (m < |a.toInt| * |b.toInt|) := by
  have hproduct : |a.toInt| * |b.toInt| = -(a.toInt * b.toInt) := by
    rw [← abs_mul, abs_of_nonpos]
    rcases lt_or_ge a.toInt 0 with ha | ha
    · exact mul_nonpos_of_nonpos_of_nonneg ha.le (by omega)
    · exact mul_nonpos_of_nonneg_of_nonpos ha (by omega)
  have hpos : (0 : ℤ) < 2 ^ (w - 1) := by positivity
  have habs : 0 ≤ |a.toInt| * |b.toInt| := mul_nonneg (abs_nonneg _) (abs_nonneg _)
  rw [Bool.eq_iff_iff, decide_eq_true_iff, ← Bool.not_eq_false, smulOverflow_eq_false, ← hm]
  omega

end Product

/-- The test of the absolute values, once neither factor is the smallest number. -/
def productOverflows (a b : BitVec w) : Bool :=
  let sa := signWord a
  let absA := (a ^^^ sa) - sa
  let sb := signWord b
  let absB := (b ^^^ sb) - sb
  if absA.slt 2#w || absB.slt 2#w then false
  else if sa = sb then ((~~~minWord w).sdiv absB).slt absA
  else ((minWord w).sdiv (-absB)).slt absA

/-- The absolute value of any other number is a number. -/
theorem abs_toInt_lt (h : 0 < w) {a : BitVec w} (ha : a ≠ minWord w) :
    |a.toInt| < 2 ^ (w - 1) := by
  have hne := toInt_ne_of_ne_minWord h ha
  obtain ⟨hlow, hhigh⟩ := toInt_bounds a
  exact abs_lt.mpr ⟨by omega, hhigh⟩

theorem toInt_two (h : 3 ≤ w) : (2#w).toInt = 2 := by
  have hpow : 2 ^ 3 ≤ 2 ^ w := Nat.pow_le_pow_right (by decide) h
  have htoNat : (2#w).toNat = 2 := Nat.mod_eq_of_lt (by omega)
  rw [BitVec.toInt_eq_toNat_of_lt (by omega), htoNat]
  rfl

theorem ne_neg_one (h : 0 < w) {a : BitVec w} (ha : a.toInt ≠ -1) : a ≠ -1#w := by
  rintro rfl
  rw [BitVec.neg_one_eq_allOnes, BitVec.toInt_allOnes, if_pos h] at ha
  exact ha rfl

/-- A factor below two leaves the other one, which fits, or nothing. -/
theorem abs_mul_abs_lt {x y m : ℤ} (hx : x < m) (hy : y < m) (hx' : 0 ≤ x) (hy' : 0 ≤ y)
    (h : x < 2 ∨ y < 2) : x * y < m := by
  rcases h with h | h
  · calc x * y ≤ 1 * y := mul_le_mul_of_nonneg_right (by omega) hy'
      _ = y := one_mul y
      _ < m := hy
  · calc x * y ≤ x * 1 := mul_le_mul_of_nonneg_left (by omega) hx'
      _ = x := mul_one x
      _ < m := hx

/-- The division by the other factor decides, with the signs apart. -/
theorem productOverflows_eq (h : 3 ≤ w) {a b : BitVec w} (ha : a ≠ minWord w)
    (hb : b ≠ minWord w) : productOverflows a b = a.smulOverflow b := by
  have hw : 0 < w := by omega
  have hA := toInt_abs ha
  have hB := toInt_abs hb
  have hltA := abs_toInt_lt hw ha
  have hltB := abs_toInt_lt hw hb
  have hpos : (0 : ℤ) < 2 ^ (w - 1) := by positivity
  rw [productOverflows]
  generalize (a ^^^ signWord a) - signWord a = absA at *
  generalize (b ^^^ signWord b) - signWord b = absB at *
  simp only [Bool.or_eq_true, BitVec.slt_iff_toInt_lt, toInt_two h, hA, hB]
  by_cases hsmall : |a.toInt| < 2 ∨ |b.toInt| < 2
  · have hfits := abs_mul_abs_lt hltA hltB (abs_nonneg _) (abs_nonneg _) hsmall
    rw [if_pos hsmall]
    by_cases hsign : a.toInt < 0 ↔ b.toInt < 0
    · rw [smulOverflow_of_sign_eq hsign rfl, decide_eq_false (not_le.mpr hfits)]
    · rw [smulOverflow_of_sign_ne hsign rfl, decide_eq_false (not_lt.mpr hfits.le)]
  obtain ⟨hlargeA, hlargeB⟩ := not_or.mp hsmall
  rw [if_neg hsmall]
  by_cases hsign : a.toInt < 0 ↔ b.toInt < 0
  · have hne : absB ≠ -1#w := ne_neg_one hw (by omega)
    rw [if_pos ((signWord_eq_iff hw).mpr hsign), smulOverflow_of_sign_eq hsign rfl,
      BitVec.slt_eq_decide, BitVec.toInt_sdiv_of_ne_or_ne _ _ (.inr hne), toInt_not_minWord, hA,
      hB, decide_eq_decide, tdiv_lt_iff (by omega) (by omega)]
    omega
  · have hneg : (-absB).toInt = -|b.toInt| := by
      rw [BitVec.toInt_neg_of_ne_intMin, hB]
      rintro rfl
      rw [← minWord_eq, toInt_minWord hw] at hB
      omega
    have hne : -absB ≠ -1#w := ne_neg_one hw (by omega)
    rw [if_neg (mt (signWord_eq_iff hw).mp hsign), smulOverflow_of_sign_ne hsign rfl,
      BitVec.slt_eq_decide, BitVec.toInt_sdiv_of_ne_or_ne _ _ (.inr hne), toInt_minWord hw, hA,
      hneg, Int.neg_tdiv_neg, decide_eq_decide, tdiv_lt_iff hpos.le (by omega)]

/-! ## Multiplication with a flag -/

section Flag

variable (a b : BitVec w)

/-- The result and what is stored in `*overflow`. -/
def mulo4 : BitVec w × BitVec 32 :=
  let result := a * b
  if a = minWord w then (result, if b ≠ 0#w ∧ b ≠ 1#w then 1#32 else 0#32)
  else if b = minWord w then (result, if a ≠ 0#w ∧ a ≠ 1#w then 1#32 else 0#32)
  else (result, if productOverflows a b then 1#32 else 0#32)

def mulosi4 : BitVec 32 → BitVec 32 → BitVec 32 × BitVec 32 := mulo4

def mulodi4 : BitVec 64 → BitVec 64 → BitVec 64 × BitVec 32 := mulo4

/-- The flag is set exactly when the product does not fit. -/
theorem mulo4_eq (h : 3 ≤ w) :
    mulo4 a b = (a * b, if a.smulOverflow b then 1#32 else 0#32) := by
  rw [mulo4]
  by_cases ha : a = minWord w
  · rw [if_pos ha, ha, smulOverflow_minWord (by omega)]
    simp only [decide_eq_true_iff, not_or]
  rw [if_neg ha]
  by_cases hb : b = minWord w
  · rw [if_pos hb, smulOverflow_comm, hb, smulOverflow_minWord (by omega)]
    simp only [decide_eq_true_iff, not_or]
  · rw [if_neg hb, productOverflows_eq h ha hb]

/-- The case of words of 32 bits. -/
theorem mulosi4_eq (a b : BitVec 32) :
    mulosi4 a b = (a * b, if a.smulOverflow b then 1#32 else 0#32) :=
  mulo4_eq a b (by decide)

theorem mulodi4_eq (a b : BitVec 64) :
    mulodi4 a b = (a * b, if a.smulOverflow b then 1#32 else 0#32) :=
  mulo4_eq a b (by decide)

end Flag

/-! ## Arithmetic that aborts -/

/-- How the program ends in one of the routines. -/
inductive Exit where
  | abort
  deriving DecidableEq

/-- `compilerrt_abort`, behind which nothing is run. -/
def compilerrtAbort : Except Exit Unit := .error .abort

section Abort

variable (a b : BitVec w)

def addv3 : Except Exit (BitVec w) := do
  let s := a + b
  if (0#w).sle b then
    if s.slt a then compilerrtAbort
  else
    if a.sle s then compilerrtAbort
  return s

def subv3 : Except Exit (BitVec w) := do
  let s := a - b
  if (0#w).sle b then
    if a.slt s then compilerrtAbort
  else
    if s.sle a then compilerrtAbort
  return s

def mulv3 : Except Exit (BitVec w) := do
  if a = minWord w then
    if b = 0#w ∨ b = 1#w then return a * b
    compilerrtAbort
  if b = minWord w then
    if a = 0#w ∨ a = 1#w then return a * b
    compilerrtAbort
  if productOverflows a b then compilerrtAbort
  return a * b

def negv2 : Except Exit (BitVec w) := do
  if a = minWord w then compilerrtAbort
  return -a

def absvdi2 (a : BitVec 64) : Except Exit (BitVec 64) := do
  if a = minWord 64 then compilerrtAbort
  let t := signWord a
  return (a ^^^ t) - t

def absvsi2 (a : BitVec 32) : Except Exit (BitVec 32) := do
  if a = minWord 32 then compilerrtAbort
  let t := minWord 32
  if a &&& t = t then return 0#32 - a else return a

def addvsi3 : BitVec 32 → BitVec 32 → Except Exit (BitVec 32) := addv3

def addvdi3 : BitVec 64 → BitVec 64 → Except Exit (BitVec 64) := addv3

def subvsi3 : BitVec 32 → BitVec 32 → Except Exit (BitVec 32) := subv3

def subvdi3 : BitVec 64 → BitVec 64 → Except Exit (BitVec 64) := subv3

def mulvsi3 : BitVec 32 → BitVec 32 → Except Exit (BitVec 32) := mulv3

def mulvdi3 : BitVec 64 → BitVec 64 → Except Exit (BitVec 64) := mulv3

def negvsi2 : BitVec 32 → Except Exit (BitVec 32) := negv2

def negvdi2 : BitVec 64 → Except Exit (BitVec 64) := negv2

end Abort

theorem pure_eq_ok {α : Type} (x : α) : (pure x : Except Exit α) = .ok x := rfl

theorem bmod_two_pow (h : 0 < w) {x : ℤ} (hlow : -2 * 2 ^ (w - 1) ≤ x)
    (hhigh : x < 2 * 2 ^ (w - 1)) : x.bmod (2 ^ w) =
      if x < -2 ^ (w - 1) then x + 2 * 2 ^ (w - 1)
      else if 2 ^ (w - 1) ≤ x then x - 2 * 2 ^ (w - 1) else x := by
  have hpow : ((2 ^ w : ℕ) : ℤ) = 2 * 2 ^ (w - 1) := by
    rw [Nat.cast_pow, ← pow_succ', Nat.sub_add_cancel h]
    rfl
  split_ifs with hneg hlarge
  · rw [← Int.add_bmod_right, Int.bmod_eq_of_le_mul_two (by omega) (by omega), hpow]
  · rw [← Int.sub_bmod_right, Int.bmod_eq_of_le_mul_two (by omega) (by omega), hpow]
  · exact Int.bmod_eq_of_le_mul_two (by omega) (by omega)

/-- The sum is compared with a summand to see whether it has wrapped around. -/
theorem addv3_eq (h : 0 < w) (a b : BitVec w) :
    addv3 a b = if a.saddOverflow b then .error .abort else .ok (a + b) := by
  obtain ⟨ha, ha'⟩ := toInt_bounds a
  obtain ⟨hb, hb'⟩ := toInt_bounds b
  simp only [addv3, pure_eq_ok, BitVec.sle_iff_toInt_le,
    BitVec.slt_iff_toInt_lt, BitVec.saddOverflow, BitVec.toInt_add, BitVec.toInt_zero,
    Bool.or_eq_true, decide_eq_true_iff]
  rw [bmod_two_pow h (by omega) (by omega)]
  split_ifs <;> first | rfl | omega

example : addv3 0x7fffffff#32 1#32 = .error .abort := rfl

/-- The difference is compared with what it was taken from. -/
theorem subv3_eq (h : 0 < w) (a b : BitVec w) :
    subv3 a b = if a.ssubOverflow b then .error .abort else .ok (a - b) := by
  obtain ⟨ha, ha'⟩ := toInt_bounds a
  obtain ⟨hb, hb'⟩ := toInt_bounds b
  simp only [subv3, pure_eq_ok, BitVec.sle_iff_toInt_le,
    BitVec.slt_iff_toInt_lt, BitVec.ssubOverflow, BitVec.toInt_sub, BitVec.toInt_zero,
    Bool.or_eq_true, decide_eq_true_iff]
  rw [bmod_two_pow h (by omega) (by omega)]
  split_ifs <;> first | rfl | omega

/-- A factor that is the smallest number is told apart before the product is tested. -/
theorem mulv3_eq (h : 3 ≤ w) (a b : BitVec w) :
    mulv3 a b = if a.smulOverflow b then .error .abort else .ok (a * b) := by
  simp only [mulv3, pure_eq_ok]
  by_cases ha : a = minWord w
  · subst ha
    rw [if_pos rfl, smulOverflow_minWord (by omega)]
    by_cases hfew : b = 0#w ∨ b = 1#w
    · rw [if_pos hfew, decide_eq_false (not_not_intro hfew)]
      rfl
    · rw [if_neg hfew, decide_eq_true hfew]
      rfl
  rw [if_neg ha]
  by_cases hb : b = minWord w
  · subst hb
    rw [if_pos rfl, smulOverflow_comm, smulOverflow_minWord (by omega)]
    by_cases hfew : a = 0#w ∨ a = 1#w
    · rw [if_pos hfew, decide_eq_false (not_not_intro hfew)]
      rfl
    · rw [if_neg hfew, decide_eq_true hfew]
      rfl
  · rw [if_neg hb, productOverflows_eq h ha hb]
    split <;> rfl

/-- The square of the smallest number. -/
theorem mulv3_eq_minimum : 3 ≤ 32 ∧ mulv3 (minWord 32) (minWord 32) = .error .abort :=
  ⟨by decide, (mulv3_eq (by decide) _ _).trans rfl⟩

/-- Only the smallest number has no opposite one. -/
theorem negv2_eq (h : 0 < w) (a : BitVec w) :
    negv2 a = if a.negOverflow then .error .abort else .ok (-a) := by
  simp only [negv2, pure_eq_ok, minWord_eq, BitVec.negOverflow_eq, decide_eq_true h,
    Bool.true_and, beq_iff_eq]
  split <;> rfl

/-- The smallest number is tested for, and the others have an absolute value. -/
theorem absvdi2_eq (a : BitVec 64) :
    absvdi2 a = if a.negOverflow then .error .abort else .ok a.abs := by
  simp only [absvdi2, pure_eq_ok, minWord_eq, BitVec.negOverflow_eq, xor_sub_signWord]
  by_cases hmin : a = BitVec.intMin 64
  · rw [if_pos hmin, hmin]
    rfl
  · rw [if_neg hmin, beq_false_of_ne hmin]
    rfl

/-- The version for Cpu0 tests the sign bit instead of shifting it. -/
theorem absvsi2_eq (a : BitVec 32) :
    absvsi2 a = if a.negOverflow then .error .abort else .ok a.abs := by
  have hsign : a &&& BitVec.intMin 32 = BitVec.intMin 32 ↔ a.msb = true := by
    rw [BitVec.intMin, BitVec.and_twoPow, BitVec.msb_eq_getLsbD_last]
    cases a.getLsbD (32 - 1) <;> decide
  simp only [absvsi2, pure_eq_ok, minWord_eq, hsign, BitVec.negOverflow_eq,
    BitVec.abs, BitVec.zero_sub]
  by_cases hmin : a = BitVec.intMin 32
  · subst hmin
    rfl
  · rw [if_neg hmin, beq_false_of_ne hmin, Bool.and_false, if_neg Bool.false_ne_true]
    split <;> rfl

end Cpu0Toolchain.CompilerRt
