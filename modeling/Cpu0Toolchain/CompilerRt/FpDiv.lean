import Cpu0Toolchain.CompilerRt.FpLib
import Cpu0Toolchain.Library.NewtonReciprocal
import Mathlib.Data.Nat.Prime.Basic

/-!
# Soft-float division

`divsf3.c` and `divdf3.c`, which differ in how they estimate the quotient of two significands: three
Newton-Raphson iterations in 32 bits, and for a double one more in 64 bits. The estimate is below
the quotient by less than one and a half, and the residual tells which of the two numbers above it
is nearest.

## Main results

- `quotientSingle_isEstimate`, `quotientDouble_isEstimate`: the bound on the estimates.
- `divXf3_isFlushedQuotient`: the quotient is that of IEEE 754, for all operands, except that one
  of a magnitude up to the least normal number is a zero.
-/

namespace Cpu0Toolchain.CompilerRt
open BinaryFloat NewtonReciprocal

/-! ## The reciprocal in 32 bits -/

/-- One Newton-Raphson iteration. -/
def refineReciprocal (reciprocal q31b : BitVec 32) : BitVec 32 :=
  let correction : BitVec 32 :=
    (-((reciprocal.setWidth 64 * q31b.setWidth 64) >>> 32)).setWidth 32
  ((reciprocal.setWidth 64 * correction.setWidth 64) >>> 31).setWidth 32

def reciprocal32 (q31b : BitVec 32) : BitVec 32 :=
  let reciprocal := 0x7504f333#32 - q31b
  let reciprocal := refineReciprocal reciprocal q31b
  let reciprocal := refineReciprocal reciprocal q31b
  refineReciprocal reciprocal q31b

theorem toNat_mulWords (x y : BitVec 32) :
    (x.setWidth 64 * y.setWidth 64).toNat = x.toNat * y.toNat := by
  have hprod : x.toNat * y.toNat < 2 ^ 32 * 2 ^ 32 := Nat.mul_lt_mul'' x.isLt y.isLt
  rw [BitVec.toNat_mul, BitVec.toNat_setWidth_of_le (by decide),
    BitVec.toNat_setWidth_of_le (by decide), Nat.mod_eq_of_lt (by omega)]

theorem toNat_refineReciprocal {r q : BitVec 32} (h : 2 ^ 32 ≤ r.toNat * q.toNat) :
    (refineReciprocal r q).toNat = fixedStep 32 31 31 r.toNat q.toNat % 2 ^ 32 := by
  have hlt : r.toNat * q.toNat / 2 ^ 32 < 2 ^ 32 :=
    Nat.div_lt_of_lt_mul (Nat.mul_lt_mul'' r.isLt q.isLt)
  have hpos : 1 ≤ r.toNat * q.toNat / 2 ^ 32 := (Nat.one_le_div_iff (by decide)).mpr h
  have hcorrection : ((-((r.setWidth 64 * q.setWidth 64) >>> 32)).setWidth 32).toNat =
      2 ^ (31 + 1) - r.toNat * q.toNat / 2 ^ 32 := by
    rw [BitVec.toNat_setWidth, BitVec.toNat_neg, BitVec.toNat_ushiftRight, toNat_mulWords,
      Nat.shiftRight_eq_div_pow]
    omega
  rw [refineReciprocal, BitVec.toNat_setWidth, BitVec.toNat_ushiftRight, toNat_mulWords,
    hcorrection, Nat.shiftRight_eq_div_pow, fixedStep]

/-- A step of the iteration. Its result fits where the divisor is not the very first. -/
theorem refineReciprocal_error {r q : BitVec 32} {b ε : ℚ} (hq : 2 ^ 31 + 2 ≤ q.toNat)
    (hb : b = q.toNat / 2 ^ 31) (hε : ε ≤ 1 / 10)
    (h : |error b (r.toNat / 2 ^ 32 : ℚ)| ≤ ε) :
    |error b ((refineReciprocal r q).toNat / 2 ^ 32 : ℚ)| ≤ ε ^ 2 + 1 / 2 ^ 30 ∧
      0 < error b ((refineReciprocal r q).toNat / 2 ^ 32 : ℚ) + b / 2 ^ 31 := by
  have hqlt : (q.toNat : ℚ) < 2 ^ 32 := by exact_mod_cast q.isLt
  have hqle : (2 ^ 31 + 2 : ℚ) ≤ q.toNat := by exact_mod_cast hq
  have hb1 : 1 + 1 / 2 ^ 30 ≤ b := by
    rw [hb]
    linarith
  have hb2 : b < 2 := by
    rw [hb]
    linarith
  obtain ⟨x, hx⟩ : ∃ x : ℚ, x = r.toNat / 2 ^ 32 := ⟨_, rfl⟩
  rw [← hx] at h
  obtain ⟨hlow, hhigh⟩ := abs_le.mp h
  have hlarge : 2 ^ 32 ≤ r.toNat * q.toNat := by
    have hproduct : (9 / 10 : ℚ) ≤ r.toNat / 2 ^ 32 * (q.toNat / 2 ^ 31) := by
      rw [← hb, ← hx]
      rw [error] at hhigh
      linarith
    have hcast : (2 ^ 32 : ℚ) ≤ r.toNat * q.toNat := by linarith
    exact_mod_cast hcast
  obtain ⟨hlow', hhigh'⟩ := error_fixedStep (k := 32) (s := 31) (j := 31) (t := 32) (n := 32)
    (m := 31) rfl rfl hx hb (by linarith) (by linarith) (by linarith)
  rw [toNat_refineReciprocal hlarge]
  generalize fixedStep 32 31 31 r.toNat q.toNat = r' at *
  have hsquare : error b x ^ 2 ≤ ε ^ 2 := sq_le_sq' hlow hhigh
  have hmiddle : 0 ≤ (error b x + 1 / 2 ^ 32) ^ 2 := sq_nonneg _
  have hfits : (r' : ℚ) / 2 ^ 32 < 1 := by
    refine lt_of_error (b := b) (by linarith) ?_
    linarith
  rw [div_lt_one (by positivity)] at hfits
  rw [Nat.mod_eq_of_lt (by exact_mod_cast hfits), abs_le]
  refine ⟨⟨?_, ?_⟩, ?_⟩ <;> linarith

/-- The minimax polynomial. -/
theorem first_error {q : BitVec 32} {b : ℚ} (hq : 2 ^ 31 ≤ q.toNat)
    (hb : b = q.toNat / 2 ^ 31) :
    |error b ((0x7504f333#32 - q).toNat / 2 ^ 32 : ℚ)| ≤ 86 / 1000 := by
  have hqlt := q.isLt
  have hqltQ : (q.toNat : ℚ) < 2 ^ 32 := by exact_mod_cast hqlt
  have hqleQ : (2 ^ 31 : ℚ) ≤ q.toNat := by exact_mod_cast hq
  have hword : (0x7504f333#32 - q).toNat = 2 ^ 32 + 0x7504f333 - q.toNat := by
    rw [BitVec.toNat_sub, BitVec.toNat_ofNat]
    omega
  have hcast : ((0x7504f333#32 - q).toNat : ℚ) = 2 ^ 32 + 0x7504f333 - 2 ^ 31 * b := by
    rw [hword, Nat.cast_sub (by omega), hb]
    push_cast
    ring
  have hb1 : 1 ≤ b := by
    rw [hb]
    linarith
  have hb2 : b ≤ 2 := by
    rw [hb]
    linarith
  have hends := mul_nonneg (sub_nonneg.mpr hb1) (sub_nonneg.mpr hb2)
  have hmiddle := sq_nonneg (b - 1.457)
  rw [hcast, error, abs_le]
  constructor <;> linarith

/-- The exact reciprocal that the last iteration may not be able to hold, and its error. -/
theorem reciprocal32_spec {q : BitVec 32} {b : ℚ} (hq : 2 ^ 31 ≤ q.toNat)
    (hb : b = q.toNat / 2 ^ 31) :
    ∃ r : ℕ, 2 ≤ r ∧ r ≤ 2 ^ 32 ∧ (reciprocal32 q).toNat = r % 2 ^ 32 ∧
      0 < error b (r / 2 ^ 32) + b / 2 ^ 31 ∧ error b (r / 2 ^ 32) ≤ 4 / 10 ^ 9 := by
  rcases Nat.lt_or_ge q.toNat (2 ^ 31 + 2) with hfirst | hothers
  · -- the divisor is so near to one that the iterations can run out of the word
    rcases (show q.toNat = 2 ^ 31 ∨ q.toNat = 2 ^ 31 + 1 by omega) with h | h
    · obtain rfl : q = 0x80000000#32 := BitVec.eq_of_toNat_eq h
      refine ⟨2 ^ 32, by decide, le_rfl, by decide, ?_, ?_⟩ <;> norm_num [hb, error]
    · obtain rfl : q = 0x80000001#32 := BitVec.eq_of_toNat_eq h
      refine ⟨2 ^ 32 - 1, by decide, by decide, by decide, ?_, ?_⟩ <;> norm_num [hb, error]
  have h0 := first_error hq hb
  have h1 := (refineReciprocal_error hothers hb (by norm_num) h0).1
  have h2 := (refineReciprocal_error hothers hb (by norm_num) h1).1
  have h3 := refineReciprocal_error hothers hb (by norm_num) h2
  change |error b ((reciprocal32 q).toNat / 2 ^ 32 : ℚ)| ≤ _ ∧
    0 < error b ((reciprocal32 q).toNat / 2 ^ 32 : ℚ) + b / 2 ^ 31 at h3
  have hlt := (reciprocal32 q).isLt
  have hhigh := (abs_le.mp h3.1).2
  refine ⟨_, ?_, hlt.le, (Nat.mod_eq_of_lt hlt).symm, h3.2, le_trans hhigh (by norm_num)⟩
  have hb2 : b < 2 := by
    rw [hb, div_lt_iff₀ (by positivity)]
    exact_mod_cast q.isLt
  have hsmall : (2 : ℚ) ≤ (reciprocal32 q).toNat := by
    rw [error] at hhigh
    nlinarith
  exact_mod_cast hsmall

/-! ## The estimates -/

/-- Below the quotient of two significands, whose unit is half of the last bit, by less than one
and a half. -/
def IsEstimate (t a b quotient : ℕ) : Prop :=
  quotient * b < 2 * 2 ^ t * a ∧ 4 * 2 ^ t * a < (2 * quotient + 3) * b

/-- The high word of a product with the reciprocal. -/
theorem isEstimate_div {t a b R c w : ℕ} {x : ℚ} (ha : 2 ^ t ≤ a) (ha' : a < 2 * 2 ^ t)
    (hb : 2 ^ t ≤ b) (hpos : 0 < error (b / 2 ^ t : ℚ) x)
    (hle : error (b / 2 ^ t : ℚ) x ≤ 1 / (8 * 2 ^ t)) (hx : (R * c : ℚ) / 2 ^ w = 2 * a * x) :
    IsEstimate t a b (R * c / 2 ^ w) := by
  obtain ⟨β, hβ, hβ', hdiv⟩ := cast_div_two_pow (K := ℚ) (R * c) w
  rw [Nat.cast_mul, hx] at hdiv
  have hN : ((2 ^ t : ℕ) : ℚ) = 2 ^ t := by push_cast; rfl
  have ht := Nat.two_pow_pos t
  exact quotient_bounds (K := ℚ) (N := 2 ^ t) (x := x) (by omega) ha' hb (by rwa [hN])
    (by rwa [hN]) (by linarith) (by linarith)

theorem divisor_lt_two {t b : ℕ} (hb : b < 2 * 2 ^ t) : (b : ℚ) / 2 ^ t < 2 := by
  rw [div_lt_iff₀ (by positivity)]
  exact_mod_cast hb

theorem one_le_divisor {t b : ℕ} (hb : 2 ^ t ≤ b) : (1 : ℚ) ≤ b / 2 ^ t := by
  rw [le_div_iff₀ (by positivity), one_mul]
  exact_mod_cast hb

/-- `divsf3.c`, from the alignment of the divisor to the quotient. -/
def quotientSingle (aSignificand bSignificand : BitVec 32) : BitVec 32 :=
  let q31b := bSignificand <<< 8
  -- We bump the reciprocal by a tiny value to force the error to be strictly positive
  let reciprocal := reciprocal32 q31b - 2#32
  ((reciprocal.setWidth 64 * (aSignificand <<< 1).setWidth 64) >>> 32).setWidth 32

theorem quotientSingle_isEstimate {a b : BitVec 32} (ha : 2 ^ 23 ≤ a.toNat)
    (ha' : a.toNat < 2 * 2 ^ 23) (hb : 2 ^ 23 ≤ b.toNat) (hb' : b.toNat < 2 * 2 ^ 23) :
    IsEstimate 23 a.toNat b.toNat (quotientSingle a b).toNat := by
  have hq : (b <<< 8).toNat = b.toNat * 2 ^ 8 := by
    rw [BitVec.toNat_shiftLeft, Nat.shiftLeft_eq, Nat.mod_eq_of_lt (by omega)]
  have hdouble : (a <<< 1).toNat = 2 * a.toNat := by
    rw [BitVec.toNat_shiftLeft, Nat.shiftLeft_eq, Nat.mod_eq_of_lt (by omega), Nat.mul_comm]
  have hbq : (b.toNat : ℚ) / 2 ^ 23 = (b <<< 8).toNat / 2 ^ 31 := by
    rw [hq]
    push_cast
    ring
  obtain ⟨r, hr, hr', hword, hpos, hhigh⟩ := reciprocal32_spec (by omega) hbq
  have hreciprocal : (reciprocal32 (b <<< 8) - 2#32).toNat = r - 2 := by
    rw [BitVec.toNat_sub, hword, BitVec.toNat_ofNat]
    omega
  have hquotient : (quotientSingle a b).toNat = (r - 2) * (2 * a.toNat) / 2 ^ 32 := by
    have hlt : (r - 2) * (2 * a.toNat) / 2 ^ 32 < 2 ^ 32 :=
      Nat.div_lt_of_lt_mul (Nat.mul_lt_mul'' (by omega) (by omega))
    rw [quotientSingle, BitVec.toNat_setWidth, BitVec.toNat_ushiftRight, toNat_mulWords,
      hreciprocal, hdouble, Nat.shiftRight_eq_div_pow, Nat.mod_eq_of_lt hlt]
  have hb2 := divisor_lt_two hb'
  rw [hquotient]
  refine isEstimate_div (x := r / 2 ^ 32 - 2 / 2 ^ 32) ha ha' hb ?_ ?_ ?_
  · rw [error_sub]
    linarith
  · rw [error_sub]
    linarith
  · rw [Nat.cast_sub hr]
    push_cast
    ring

/-- The iteration in 64 bits, for a divisor of two words. -/
def refineReciprocal64 (recip32 q31b q63blo : BitVec 32) : BitVec 64 :=
  let correction : BitVec 64 := -(recip32.setWidth 64 * q31b.setWidth 64 +
    (recip32.setWidth 64 * q63blo.setWidth 64) >>> 32)
  let cHi : BitVec 32 := (correction >>> 32).setWidth 32
  let cLo : BitVec 32 := correction.setWidth 32
  recip32.setWidth 64 * cHi.setWidth 64 + (recip32.setWidth 64 * cLo.setWidth 64) >>> 32

/-- `divdf3.c`, from the alignment of the divisor to the quotient. -/
def quotientDouble (aSignificand bSignificand : BitVec 64) : BitVec 64 :=
  let q31b : BitVec 32 := (bSignificand >>> 21).setWidth 32
  -- recip32 might have overflowed to exactly zero, so we adjust it downward by one bit
  let recip32 := reciprocal32 q31b - 1#32
  let q63blo : BitVec 32 := (bSignificand <<< 11).setWidth 32
  let reciprocal := refineReciprocal64 recip32 q31b q63blo
  (wideMultiplyDouble (aSignificand <<< 2) (reciprocal - 2#64)).1

/-- A product of a word and a double word, in words. -/
theorem toNat_mulWide {x hi lo : BitVec 32} {n : ℕ} (h : n = hi.toNat * 2 ^ 32 + lo.toNat) :
    (x.setWidth 64 * hi.setWidth 64 + (x.setWidth 64 * lo.setWidth 64) >>> 32).toNat =
      x.toNat * n / 2 ^ 32 := by
  have hx := x.isLt
  have hn : n < 2 ^ 32 * 2 ^ 32 := by
    have := hi.isLt
    have := lo.isLt
    omega
  have hlt : x.toNat * n / 2 ^ 32 < 2 ^ 64 :=
    Nat.div_lt_of_lt_mul (Nat.mul_lt_mul'' hx hn)
  have hsplit : x.toNat * n / 2 ^ 32 = x.toNat * hi.toNat + x.toNat * lo.toNat / 2 ^ 32 := by
    rw [h, Nat.mul_add, ← Nat.mul_assoc, Nat.mul_comm _ (2 ^ 32),
      Nat.mul_add_div (by decide)]
  rw [BitVec.toNat_add, BitVec.toNat_ushiftRight, toNat_mulWords, toNat_mulWords,
    Nat.shiftRight_eq_div_pow, ← hsplit, Nat.mod_eq_of_lt hlt]

theorem toNat_refineReciprocal64 {r q lo : BitVec 32} {n : ℕ}
    (hn : n = q.toNat * 2 ^ 32 + lo.toNat) (h : 2 ^ 32 ≤ r.toNat * n) :
    (refineReciprocal64 r q lo).toNat = fixedStep 32 63 32 r.toNat n := by
  have hproduct := toNat_mulWide (x := r) hn
  rw [refineReciprocal64, fixedStep]
  generalize r.setWidth 64 * q.setWidth 64 + (r.setWidth 64 * lo.setWidth 64) >>> 32 =
    product at *
  have hnegative : (-product).toNat = 2 ^ (63 + 1) - r.toNat * n / 2 ^ 32 := by
    have hpositive : 1 ≤ r.toNat * n / 2 ^ 32 := (Nat.one_le_div_iff (by decide)).mpr h
    rw [BitVec.toNat_neg, ← hproduct]
    have := product.isLt
    omega
  have hwords : (-product).toNat =
      (((-product) >>> 32).setWidth 32).toNat * 2 ^ 32 + ((-product).setWidth 32).toNat := by
    rw [BitVec.toNat_setWidth, BitVec.toNat_setWidth, BitVec.toNat_ushiftRight,
      Nat.shiftRight_eq_div_pow]
    omega
  rw [toNat_mulWide hwords, hnegative]

/-- The error of the estimate in 32 bits as an estimate for the whole divisor. -/
theorem high_error {r : ℕ} {b c : ℚ} (hc : b ≤ c) (hc' : c < b + 1 / 2 ^ 31) (hb2 : b < 2)
    (hr : 1 ≤ r) (hr' : r ≤ 2 ^ 32)
    (hpos : 0 < error b (r / 2 ^ 32) + b / 2 ^ 31) (hle : error b (r / 2 ^ 32) ≤ 4 / 10 ^ 9) :
    |error c ((r - 1 : ℕ) / 2 ^ 32)| ≤ 5 / 10 ^ 9 := by
  have hrQ : ((r - 1 : ℕ) : ℚ) ≤ 2 ^ 32 := by exact_mod_cast (by omega : r - 1 ≤ 2 ^ 32)
  have hx : ((r - 1 : ℕ) : ℚ) / 2 ^ 32 = r / 2 ^ 32 - 1 / 2 ^ 32 := by
    rw [Nat.cast_sub hr, sub_div, Nat.cast_one]
  have hnonneg : (0 : ℚ) ≤ (r - 1 : ℕ) / 2 ^ 32 := by positivity
  have hle1 : ((r - 1 : ℕ) : ℚ) / 2 ^ 32 ≤ 1 := by
    rw [div_le_one (by positivity)]
    exact hrQ
  have herror : error c ((r - 1 : ℕ) / 2 ^ 32) =
      error b (r / 2 ^ 32) + 1 / 2 ^ 32 * b - (r - 1 : ℕ) / 2 ^ 32 * (c - b) := by
    rw [hx, ← error_sub]
    simp only [error]
    ring
  have hlost := mul_nonneg hnonneg (sub_nonneg.mpr hc)
  have hlost' := mul_le_mul_of_nonneg_right hle1 (sub_nonneg.mpr hc)
  rw [herror, abs_le]
  constructor <;> linarith

theorem product_large {d : ℚ} {recip wide : ℕ} (hd : d = wide / 2 ^ 63)
    (herror : error d (recip / 2 ^ 32) ≤ 5 / 10 ^ 9) : 2 ^ 32 ≤ recip * wide := by
  have hproduct : (9 / 10 : ℚ) ≤ recip / 2 ^ 32 * (wide / 2 ^ 63) := by
    rw [error, hd] at herror
    linarith
  rw [div_mul_div_comm, le_div_iff₀ (by positivity)] at hproduct
  have hcast : (2 ^ 32 : ℚ) ≤ recip * wide := by
    refine le_trans ?_ hproduct
    norm_num
  exact_mod_cast hcast

theorem two_le_reciprocal {d : ℚ} {r : ℕ} (hd : d ≤ 2) (herror : error d (r / 2 ^ 63) ≤ 1 / 2) :
    2 ≤ r := by
  have hless := mul_le_mul_of_nonneg_left hd (Nat.cast_nonneg (α := ℚ) r)
  rw [error] at herror
  have hsmall : (2 : ℚ) ≤ r := by linarith
  exact_mod_cast hsmall

/-- The upper part of the divisor, and the rest of it behind. -/
theorem divisor_words {b : BitVec 64} (hb' : b.toNat < 2 * 2 ^ 52) :
    ((b >>> 21).setWidth 32).toNat = b.toNat / 2 ^ 21 ∧ b.toNat * 2 ^ 11 =
      ((b >>> 21).setWidth 32).toNat * 2 ^ 32 + ((b <<< 11).setWidth 32).toNat := by
  have hq : ((b >>> 21).setWidth 32).toNat = b.toNat / 2 ^ 21 := by
    rw [BitVec.toNat_setWidth, BitVec.toNat_ushiftRight, Nat.shiftRight_eq_div_pow]
    omega
  have hlo : ((b <<< 11).setWidth 32).toNat = b.toNat % 2 ^ 21 * 2 ^ 11 := by
    rw [BitVec.toNat_setWidth, BitVec.toNat_shiftLeft, Nat.shiftLeft_eq]
    omega
  refine ⟨hq, ?_⟩
  rw [hq, hlo]
  omega

/-- The quotient is the high word of a product. -/
theorem toNat_highProduct {a reciprocal : BitVec 64} (ha' : a.toNat < 2 * 2 ^ 52)
    (htwo : 2 ≤ reciprocal.toNat) :
    (wideMultiplyDouble (a <<< 2) (reciprocal - 2#64)).1.toNat =
      (reciprocal.toNat - 2) * (4 * a.toNat) / 2 ^ 64 := by
  have hproduct := wideMultiplyDouble_spec (a <<< 2) (reciprocal - 2#64)
  have hfour : (a <<< 2).toNat = 4 * a.toNat := by
    rw [BitVec.toNat_shiftLeft, Nat.shiftLeft_eq]
    omega
  have hlast : (reciprocal - 2#64).toNat = reciprocal.toNat - 2 := by
    rw [BitVec.toNat_sub, BitVec.toNat_ofNat]
    have := reciprocal.isLt
    omega
  rw [hfour, hlast] at hproduct
  rw [Nat.mul_comm, ← hproduct]
  have := (wideMultiplyDouble (a <<< 2) (reciprocal - 2#64)).2.isLt
  omega

theorem quotientDouble_isEstimate {a b : BitVec 64} (ha : 2 ^ 52 ≤ a.toNat)
    (ha' : a.toNat < 2 * 2 ^ 52) (hb : 2 ^ 52 ≤ b.toNat) (hb' : b.toNat < 2 * 2 ^ 52) :
    IsEstimate 52 a.toNat b.toNat (quotientDouble a b).toNat := by
  obtain ⟨hq, hwide⟩ := divisor_words hb'
  rw [quotientDouble]
  generalize (b >>> 21).setWidth 32 = q at *
  generalize (b <<< 11).setWidth 32 = lo at *
  obtain ⟨c, hc⟩ : ∃ c : ℚ, c = q.toNat / 2 ^ 31 := ⟨_, rfl⟩
  obtain ⟨r, hr, hr', hword, hpos, hhigh⟩ := reciprocal32_spec (by omega) hc
  have hrecip : (reciprocal32 q - 1#32).toNat = r - 1 := by
    rw [BitVec.toNat_sub, hword, BitVec.toNat_ofNat]
    omega
  generalize reciprocal32 q - 1#32 = recip32 at *
  -- the divisor that the last iteration sees
  obtain ⟨d, hd⟩ : ∃ d : ℚ, d = b.toNat / 2 ^ 52 := ⟨_, rfl⟩
  have hd1 : 1 ≤ d := hd ▸ one_le_divisor hb
  have hd2 : d < 2 := hd ▸ divisor_lt_two hb'
  have hwideQ : d = (b.toNat * 2 ^ 11 : ℕ) / 2 ^ 63 := by
    rw [hd]
    push_cast
    ring
  have hsplit : d = c + lo.toNat / 2 ^ 63 := by
    rw [hwideQ, hc, hwide]
    push_cast
    ring
  have hlow : (0 : ℚ) ≤ lo.toNat := Nat.cast_nonneg _
  have hlow' : (lo.toNat : ℚ) < 2 ^ 32 := by exact_mod_cast lo.isLt
  have hfirst := high_error (c := d) (by linarith) (by linarith) (by linarith) (by omega) hr'
    hpos hhigh
  rw [← hrecip] at hfirst
  obtain ⟨hfirst1, hfirst2⟩ := abs_le.mp hfirst
  obtain ⟨hlast1, hlast2⟩ := error_fixedStep (k := 32) (s := 63) (j := 32) (t := 63) (n := 32)
    (m := 63) (r := recip32.toNat) rfl rfl rfl hwideQ (by linarith) (by linarith) (by linarith)
  have hlarge := product_large hwideQ hfirst2
  rw [← toNat_refineReciprocal64 hwide hlarge] at hlast1 hlast2
  generalize refineReciprocal64 recip32 q lo = reciprocal at *
  have hsquare : error d (recip32.toNat / 2 ^ 32) ^ 2 ≤ (5 / 10 ^ 9) ^ 2 :=
    sq_le_sq' (by linarith) hfirst2
  have hnonneg := sq_nonneg (error d (recip32.toNat / 2 ^ 32))
  have htwo : 2 ≤ reciprocal.toNat := two_le_reciprocal hd2.le (by linarith)
  rw [toNat_highProduct ha' htwo]
  refine isEstimate_div (x := reciprocal.toNat / 2 ^ 63 - 2 / 2 ^ 63) ha ha' hb ?_ ?_ ?_
  · rw [error_sub, ← hd]
    linarith
  · rw [error_sub, ← hd]
    linarith
  · rw [Nat.cast_sub htwo]
    push_cast
    ring

/-! ## The routine -/

namespace Precision

variable (p : Precision)

/-- Zero, infinity, or NaN among the operands. -/
def divSpecial (a b quotientSign : p.Rep) : Option p.Rep :=
  let aAbs := a &&& p.absMask
  let bAbs := b &&& p.absMask
  -- NaN / anything = qNaN
  if aAbs > p.infRep then some (a ||| p.quietBit)
  -- anything / NaN = qNaN
  else if bAbs > p.infRep then some (b ||| p.quietBit)
  else if aAbs = p.infRep then
    -- infinity / infinity = NaN
    if bAbs = p.infRep then some p.qnanRep
    -- infinity / anything else = +/- infinity
    else some (aAbs ||| quotientSign)
  -- anything else / infinity = +/- 0
  else if bAbs = p.infRep then some quotientSign
  else if aAbs = 0#p.typeWidth then
    -- zero / zero = NaN
    if bAbs = 0#p.typeWidth then some p.qnanRep
    -- zero / anything else = +/- zero
    else some quotientSign
  -- anything else / zero = +/- infinity
  else if bAbs = 0#p.typeWidth then some (p.infRep ||| quotientSign)
  else none

/-- From the written exponent to the end. -/
def divResult (quotientExponent : ℤ) (quotient residual bSignificand quotientSign : p.Rep) :
    p.Rep :=
  let writtenExponent := quotientExponent + p.exponentBias
  -- If we have overflowed the exponent, return infinity
  if writtenExponent ≥ p.maxExponent then p.infRep ||| quotientSign
  -- Flush denormals to zero
  else if writtenExponent < 1 then quotientSign
  else
    let round := decide (residual <<< 1 > bSignificand)
    -- Clear the implicit bit
    let absResult := quotient &&& p.significandMask
    -- Insert the exponent
    let absResult := absResult ||| BitVec.ofInt p.typeWidth writtenExponent <<< p.significandBits
    (absResult + p.ofBool round) ||| quotientSign

/-- The quotient of two operands that are finite and not zero. -/
def divFinite (quotientOf : p.Rep → p.Rep → p.Rep) (aExponent bExponent : BitVec 32) (scale : ℤ)
    (aSignificand bSignificand quotientSign : p.Rep) : p.Rep :=
  let aSignificand := aSignificand ||| p.implicitBit
  let bSignificand := bSignificand ||| p.implicitBit
  let quotientExponent : ℤ := aExponent.toNat - bExponent.toNat + scale
  let quotient := quotientOf aSignificand bSignificand
  if quotient < p.implicitBit <<< 1 then
    let residual := aSignificand <<< (p.significandBits + 1) - quotient * bSignificand
    p.divResult (quotientExponent - 1) quotient residual bSignificand quotientSign
  else
    let quotient := quotient >>> 1
    let residual := aSignificand <<< p.significandBits - quotient * bSignificand
    p.divResult quotientExponent quotient residual bSignificand quotientSign

/-- `__divsf3` and `__divdf3`, which estimate the quotient of the significands in their own ways. -/
def divXf3 (quotientOf : p.Rep → p.Rep → p.Rep) (a b : p.Rep) : p.Rep :=
  let quotientSign := (a ^^^ b) &&& p.signBit
  let special := p.isSpecial a || p.isSpecial b
  match if special then p.divSpecial a b quotientSign else none with
  | some result => result
  | none =>
    let (aScale, aSignificand) := p.renormalize special a
    let (bScale, bSignificand) := p.renormalize special b
    p.divFinite quotientOf (p.exponentWord a) (p.exponentWord b) (aScale - bScale) aSignificand
      bSignificand quotientSign

end Precision

def divsf3 : BitVec 32 → BitVec 32 → BitVec 32 := single.divXf3 quotientSingle

def divdf3 : BitVec 64 → BitVec 64 → BitVec 64 := double.divXf3 quotientDouble

/-- A difference whose terms may have wrapped around. -/
theorem toNat_sub_of_mod {w : ℕ} {x y : BitVec w} {A B : ℕ} (hx : x.toNat = A % 2 ^ w)
    (hy : y.toNat = B % 2 ^ w) (hle : B ≤ A) (hlt : A - B < 2 ^ w) : (x - y).toNat = A - B := by
  have hsum : x = BitVec.ofNat w (A - B) + y := by
    apply BitVec.eq_of_toNat_eq
    rw [BitVec.toNat_add, BitVec.toNat_ofNat, hx, hy, ← Nat.add_mod, Nat.sub_add_cancel hle]
  rw [hsum, BitVec.add_sub_cancel, BitVec.toNat_ofNat, Nat.mod_eq_of_lt hlt]

namespace Precision

variable {p : Precision}

/-- The exact halfway case cannot occur. -/
theorem no_tie {A Q b : ℕ} (hA : 2 ^ p.significandBits ∣ A) (hb : 0 < b)
    (hb' : b < 2 * 2 ^ p.significandBits) : 2 * A ≠ (2 * Q + 1) * b := by
  intro heq
  have hcoprime : Nat.Coprime (2 ^ (p.significandBits + 1)) (2 * Q + 1) :=
    Nat.Coprime.pow_left _ (Nat.coprime_two_left.mpr ⟨Q, rfl⟩)
  have hdvd : 2 ^ (p.significandBits + 1) ∣ (2 * Q + 1) * b := by
    rw [← heq, Nat.pow_succ']
    exact Nat.mul_dvd_mul_left 2 hA
  have hle := Nat.le_of_dvd hb (hcoprime.dvd_of_dvd_mul_left hdvd)
  rw [Nat.pow_succ'] at hle
  omega

/-- The residual tells whether the quotient is above the middle between two numbers. -/
theorem residual_gt_iff {q A : ℕ} {residual b : p.Rep} (hpos : 0 < b.toNat)
    (hb' : b.toNat < 2 * 2 ^ p.significandBits) (hle : q * b.toNat ≤ A)
    (hlt : 2 * A < (2 * q + 3) * b.toNat) (hresidual : residual.toNat = A - q * b.toNat) :
    residual <<< 1 > b ↔ (2 * q + 1 : ℚ) < 2 * (A / b.toNat) := by
  have hbound : 2 * A < 2 * (q * b.toNat) + 3 * b.toNat := by
    rwa [Nat.add_mul, Nat.mul_assoc] at hlt
  have hshift : (residual <<< 1).toNat = 2 * (A - q * b.toNat) := by
    have hroom := p.exponent_room
    rw [toNat_shiftLeft_of_lt, hresidual, Nat.pow_one, Nat.mul_comm]
    rw [hresidual, Nat.pow_one, two_pow_typeWidth]
    omega
  rw [gt_iff_lt, BitVec.lt_def, hshift, ← mul_div_assoc, lt_div_iff₀ (Nat.cast_pos.mpr hpos)]
  have hcast : b.toNat < 2 * (A - q * b.toNat) ↔ (2 * q + 1) * b.toNat < 2 * A := by
    rw [Nat.add_mul, Nat.mul_assoc]
    omega
  rw [hcast]
  norm_cast

theorem divResult_spec {E : ℤ} {quotient residual b sign : p.Rep} {A : ℕ} {negative : Bool}
    (hA : 2 ^ p.significandBits ∣ A) (hlow : 2 ^ p.significandBits ≤ quotient.toNat)
    (hhigh : quotient.toNat < 2 * 2 ^ p.significandBits)
    (hb : 2 ^ p.significandBits ≤ b.toNat) (hb' : b.toNat < 2 * 2 ^ p.significandBits)
    (hle : quotient.toNat * b.toNat ≤ A) (hlt : 2 * A < (2 * quotient.toNat + 3) * b.toNat)
    (hresidual : residual.toNat = A - quotient.toNat * b.toNat)
    (hsign : sign.toNat = p.signWord negative) :
    if E + p.exponentBias < 1 then p.divResult E quotient residual b sign = sign
    else p.Rounded negative (A / b.toNat * 2 ^ (E + p.exponentBias - 1) * p.quantum)
      (p.decode (p.divResult E quotient residual b sign)) := by
  have hpos := Nat.two_pow_pos p.significandBits
  have hbQ : (0 : ℚ) < b.toNat := Nat.cast_pos.mpr (by omega)
  have hleQ : (quotient.toNat : ℚ) ≤ A / b.toNat := by
    rw [le_div_iff₀ hbQ]
    exact_mod_cast hle
  rw [divResult]
  generalize E + p.exponentBias = written
  have hmax := p.one_lt_maxExponent
  by_cases hover : written ≥ p.maxExponent
  · rw [if_neg (by omega), if_pos hover]
    refine rounded_overflow hover (le_trans ?_ hleQ) hsign
    exact_mod_cast hlow
  rw [if_neg hover]
  by_cases hsmall : written < 1
  · rw [if_pos hsmall, if_pos hsmall]
  rw [if_neg hsmall, if_neg hsmall]
  obtain ⟨k, rfl⟩ := Int.eq_ofNat_of_zero_le (show 0 ≤ written by omega)
  obtain ⟨j, rfl⟩ := Nat.exists_eq_add_of_le' (show 1 ≤ k by omega)
  have hj : j + 1 < p.maxExponent := by omega
  have hfinite := pack_lt hhigh hj
  rw [Nat.add_sub_cancel] at hfinite
  have hinf := p.infinity_lt
  have hpow := two_pow_typeWidth (p := p)
  have hexponent := toNat_or_exponent (a := quotient &&& p.significandMask) (E := j + 1)
    (by rw [toNat_and_significandMask]; exact Nat.mod_lt _ hpos)
    (by have := p.maxExponent_eq; omega)
  rw [toNat_and_significandMask, pack_eq hhigh (Nat.succ_pos j) hlow, Nat.succ_sub_one]
    at hexponent
  have hround := residual_gt_iff (by omega) hb' hle hlt hresidual
  refine ⟨_, Format.nearest_remainder (k := j) (q := quotient.toNat) (y := A / b.toNat) hhigh
    (.inr hlow) hfinite hleQ ?_ ?_ ?_, ?_⟩
  · rw [← mul_div_assoc, div_lt_iff₀ hbQ]
    exact_mod_cast hlt
  · rw [← mul_div_assoc, ne_eq, div_eq_iff hbQ.ne']
    exact_mod_cast no_tie hA (by omega) hb'
  · rw [Nat.cast_succ, add_sub_cancel_right, zpow_natCast]
  · have hsum : ((quotient &&& p.significandMask |||
        BitVec.ofInt p.typeWidth (j + 1 : ℕ) <<< p.significandBits) +
          p.ofBool (decide (residual <<< 1 > b))).toNat = j * 2 ^ p.significandBits +
            quotient.toNat + if (2 * quotient.toNat + 1 : ℚ) < 2 * (A / b.toNat) then 1 else 0 := by
      rw [BitVec.toNat_add, hexponent, toNat_ofBool, Nat.mod_eq_of_lt]
      · simp only [decide_eq_true_iff, hround]
      · split <;> omega
    have hless : j * 2 ^ p.significandBits + quotient.toNat +
        (if (2 * quotient.toNat + 1 : ℚ) < 2 * (A / b.toNat) then 1 else 0) <
          2 ^ (p.significandBits + p.exponentBits) := by
      split <;> omega
    rw [decode_or_sign (by rwa [hsum]) hsign, hsum]

/-- The shift of the dividend is taken off its exponent. -/
theorem shifted_scale (S : ℤ) (k m n : ℕ) :
    ((m * 2 ^ k : ℕ) / n * 2 ^ (S + p.significandBits - k + p.exponentBias - 1 : ℤ) *
      p.quantum : ℚ) = m / n * 2 ^ S := by
  have hexp : (2 : ℚ) ^ (S + p.significandBits - k + p.exponentBias - 1 : ℤ) * 2 ^ k =
      2 ^ S * (2 ^ p.significandBits * 2 ^ (p.bias - 1 : ℤ)) := by
    rw [exponentBias_eq, ← zpow_natCast 2 k, ← zpow_natCast 2 p.significandBits,
      ← zpow_add₀ two_ne_zero, ← zpow_add₀ two_ne_zero, ← zpow_add₀ two_ne_zero]
    congr 1
    ring
  have hunit := p.two_pow_bias_quantum
  calc _ = (m : ℚ) / n * (2 ^ (S + p.significandBits - k + p.exponentBias - 1 : ℤ) * 2 ^ k) *
        p.quantum := by
        push_cast
        ring
    _ = m / n * 2 ^ S * (2 ^ p.significandBits * 2 ^ (p.bias - 1 : ℤ) * p.quantum) := by
        rw [hexp]
        ring
    _ = _ := by rw [hunit, mul_one]

/-- One of the two cases of the quotient, with the dividend shifted accordingly. -/
theorem divResult_shifted (S : ℤ) {k : ℕ} (quotient a b : p.Rep) {sign : p.Rep} {negative : Bool}
    (hk : p.significandBits ≤ k) (hlow : 2 ^ p.significandBits ≤ quotient.toNat)
    (hhigh : quotient.toNat < 2 * 2 ^ p.significandBits)
    (hb : 2 ^ p.significandBits ≤ b.toNat) (hb' : b.toNat < 2 * 2 ^ p.significandBits)
    (hle : quotient.toNat * b.toNat ≤ a.toNat * 2 ^ k)
    (hlt : 2 * (a.toNat * 2 ^ k) < (2 * quotient.toNat + 3) * b.toNat)
    (hnormal : 2 ^ p.significandBits * b.toNat < a.toNat * 2 ^ k)
    (hnormal' : a.toNat * 2 ^ k ≤ 2 * 2 ^ p.significandBits * b.toNat)
    (hsign : sign.toNat = p.signWord negative) :
    if (a.toNat / b.toNat * 2 ^ S : ℚ) ≤ p.leastNormal then
      p.divResult (S + p.significandBits - k) quotient (a <<< k - quotient * b) b sign = sign
    else p.Rounded negative (a.toNat / b.toNat * 2 ^ S) (p.decode
      (p.divResult (S + p.significandBits - k) quotient (a <<< k - quotient * b) b sign)) := by
  have hpos := Nat.two_pow_pos p.significandBits
  have hbQ : (0 : ℚ) < b.toNat := Nat.cast_pos.mpr (by omega)
  have hresidual : (a <<< k - quotient * b).toNat = a.toNat * 2 ^ k - quotient.toNat * b.toNat := by
    refine toNat_sub_of_mod ?_ (BitVec.toNat_mul _ _) hle ?_
    · rw [BitVec.toNat_shiftLeft, Nat.shiftLeft_eq]
    · have hroom := p.exponent_room
      rw [Nat.add_mul, Nat.mul_assoc] at hlt
      rw [two_pow_typeWidth]
      omega
  have hscale := shifted_scale (p := p) S k a.toNat b.toNat
  have hresult := divResult_spec (E := S + p.significandBits - k)
    (Dvd.dvd.mul_left (pow_dvd_pow 2 hk) _) hlow hhigh hb hb' hle hlt hresidual hsign
  rw [hscale] at hresult
  have hflush := Format.le_leastNormal_iff (f := p.toFormat)
    (E := S + p.significandBits - k + p.exponentBias)
    (y := (a.toNat * 2 ^ k : ℕ) / b.toNat) (by rw [lt_div_iff₀ hbQ]; exact_mod_cast hnormal)
    (by rw [div_le_iff₀ hbQ]; exact_mod_cast hnormal')
  rw [hscale] at hflush
  simp only [hflush]
  exact hresult

/-- The first branch is taken where the significand of the dividend is not the greater one. -/
theorem estimate_bounds {a b Q N : ℕ} (ha : N ≤ a) (ha' : a < 2 * N) (hb : N ≤ b)
    (hb' : b < 2 * N) (hle : Q * b < 2 * N * a) (hlt : 4 * N * a < (2 * Q + 3) * b) :
    N ≤ Q ∧ Q < 4 * N ∧ (Q < 2 * N ↔ a ≤ b) := by
  have hb0 : 0 < b := by omega
  refine ⟨?_, ?_, ?_, ?_⟩
  · by_contra hless
    have h1 : (2 * Q + 3) * b ≤ (2 * N + 1) * (2 * N - 1) :=
      Nat.mul_le_mul (by omega) (by omega)
    have h2 : 4 * N * N ≤ 4 * N * a := Nat.mul_le_mul_left _ ha
    obtain ⟨M, rfl⟩ : ∃ M, N = M + 1 := ⟨N - 1, by omega⟩
    rw [show 2 * (M + 1) - 1 = 2 * M + 1 by omega] at h1
    nlinarith
  · refine Nat.lt_of_mul_lt_mul_right (a := b) (hle.trans ?_)
    nlinarith
  · intro hsmall
    by_contra hgt
    have h1 : (2 * Q + 3) * b ≤ (4 * N + 1) * b := Nat.mul_le_mul_right _ (by omega)
    have h2 : 4 * N * (b + 1) ≤ 4 * N * a := Nat.mul_le_mul_left _ (by omega)
    nlinarith
  · intro hab
    exact Nat.lt_of_mul_lt_mul_right (hle.trans_le (Nat.mul_le_mul_left _ hab))

/-- The quotient of two operands from that of their significands. -/
theorem divFinite_spec (quotientOf : p.Rep → p.Rep → p.Rep) (ea eb : BitVec 32) (scale : ℤ)
    {sa sb sign : p.Rep} {na nb : ℕ} {negative : Bool}
    (ha : ((sa ||| p.implicitBit) : p.Rep).toNat = na)
    (hb : ((sb ||| p.implicitBit) : p.Rep).toNat = nb)
    (hlowa : 2 ^ p.significandBits ≤ na) (hhigha : na < 2 * 2 ^ p.significandBits)
    (hlowb : 2 ^ p.significandBits ≤ nb) (hhighb : nb < 2 * 2 ^ p.significandBits)
    (hestimate : IsEstimate p.significandBits na nb
      (quotientOf (sa ||| p.implicitBit) (sb ||| p.implicitBit)).toNat)
    (hsign : sign.toNat = p.signWord negative) :
    if (na / nb * 2 ^ (ea.toNat - eb.toNat + scale : ℤ) : ℚ) ≤ p.leastNormal then
      p.divFinite quotientOf ea eb scale sa sb sign = sign
    else p.Rounded negative (na / nb * 2 ^ (ea.toNat - eb.toNat + scale : ℤ))
      (p.decode (p.divFinite quotientOf ea eb scale sa sb sign)) := by
  rw [divFinite]
  generalize (sa ||| p.implicitBit : p.Rep) = a at *
  generalize (sb ||| p.implicitBit : p.Rep) = b at *
  generalize quotientOf a b = quotient at *
  generalize (ea.toNat - eb.toNat + scale : ℤ) = S
  subst ha hb
  obtain ⟨hbelow, habove⟩ := hestimate
  obtain ⟨hQlow, hQhigh, hbranch⟩ := estimate_bounds hlowa hhigha hlowb hhighb hbelow habove
  have hpos := Nat.two_pow_pos p.significandBits
  have hbit : (p.implicitBit <<< 1).toNat = 2 * 2 ^ p.significandBits := by
    have hroom := p.exponent_room
    have hpow := two_pow_typeWidth (p := p)
    rw [toNat_shiftLeft_of_lt, toNat_implicitBit, Nat.pow_one, Nat.mul_comm]
    rw [toNat_implicitBit, Nat.pow_one]
    omega
  by_cases hless : quotient < p.implicitBit <<< 1
  · rw [if_pos hless]
    rw [BitVec.lt_def, hbit] at hless
    have hab := hbranch.mp hless
    have hA : a.toNat * 2 ^ (p.significandBits + 1) = 2 * 2 ^ p.significandBits * a.toNat := by
      rw [Nat.pow_succ', Nat.mul_comm]
    have hresult := divResult_shifted S (k := p.significandBits + 1) quotient a b
      (Nat.le_succ _) hQlow hless hlowb hhighb (by rw [hA]; exact hbelow.le)
      (by rw [hA]; nlinarith) (by rw [hA]; nlinarith)
      (by rw [hA]; exact Nat.mul_le_mul_left _ hab) hsign
    rwa [show S + (p.significandBits : ℤ) - (p.significandBits + 1 : ℕ) = S - 1 by omega] at hresult
  · rw [if_neg hless]
    rw [BitVec.lt_def, hbit] at hless
    have hab := hbranch.not.mp hless
    have hhalf : (quotient >>> 1).toNat = quotient.toNat / 2 := by
      rw [BitVec.toNat_ushiftRight, Nat.shiftRight_eq_div_pow, Nat.pow_one]
    obtain ⟨Q, hQ⟩ : ∃ Q, quotient.toNat / 2 = Q := ⟨_, rfl⟩
    have hmul := Nat.mul_le_mul_right b.toNat (show 2 * Q ≤ quotient.toNat by omega)
    have hmul' := Nat.mul_le_mul_right b.toNat (show quotient.toNat ≤ 2 * Q + 1 by omega)
    rw [hQ] at hhalf
    have hresult := divResult_shifted S (k := p.significandBits) (quotient >>> 1) a b le_rfl
      (by omega) (by omega) hlowb hhighb (by rw [hhalf]; nlinarith)
      (by rw [hhalf]; nlinarith) (by nlinarith) (by nlinarith) hsign
    rwa [add_sub_cancel_right] at hresult

theorem divSpecial_isFlushedQuotient (a b : p.Rep) :
    match p.divSpecial a b ((a ^^^ b) &&& p.signBit) with
    | some result => p.IsFlushedQuotient (p.decode a) (p.decode b) (p.decode result)
    | none => (0 < p.magnitude a ∧ p.magnitude a < p.infinity) ∧
        0 < p.magnitude b ∧ p.magnitude b < p.infinity := by
  have hsign := toNat_xor_sign a b
  generalize (a ^^^ b) &&& p.signBit = sign at hsign ⊢
  simp only [divSpecial, abs_gt_infRep, abs_eq_infRep, abs_eq_zero]
  by_cases hnana : p.infinity < p.magnitude a
  · rw [if_pos hnana]
    dsimp only
    rw [decode_quiet hnana, Format.decode_nan hnana]
    rfl
  rw [if_neg hnana]
  by_cases hnanb : p.infinity < p.magnitude b
  · rw [if_pos hnanb]
    dsimp only
    rw [decode_quiet hnanb, Format.decode_nan hnanb]
    exact Format.isFlushedQuotient_nan _
  rw [if_neg hnanb]
  by_cases hinfa : p.magnitude a = p.infinity
  · rw [if_pos hinfa, Format.decode_infinite hinfa, abs_eq_infRep.mpr hinfa]
    by_cases hinfb : p.magnitude b = p.infinity
    · rw [if_pos hinfb]
      dsimp only
      rw [decode_qnanRep, Format.decode_infinite hinfb]
      rfl
    · rw [if_neg hinfb]
      dsimp only
      rw [decode_infinity_or_sign hsign, Format.decode_finite (by omega)]
      rfl
  rw [if_neg hinfa, Format.decode_finite (a := a) (by omega)]
  by_cases hinfb : p.magnitude b = p.infinity
  · rw [if_pos hinfb]
    dsimp only
    rw [Format.decode_infinite hinfb, decode_sign hsign]
    rfl
  rw [if_neg hinfb]
  by_cases hzeroa : p.magnitude a = 0
  · rw [if_pos hzeroa, hzeroa, p.value_zero]
    by_cases hzerob : p.magnitude b = 0
    · rw [if_pos hzerob]
      dsimp only
      rw [decode_qnanRep, Format.decode_eq_zero hzerob]
      rw [Format.isFlushedQuotient_finite, if_pos rfl, if_pos rfl]
    · rw [if_neg hzerob]
      dsimp only
      rw [decode_sign hsign, Format.decode_finite (by omega)]
      rw [Format.isFlushedQuotient_finite,
        if_neg (Format.value_pos (Nat.pos_of_ne_zero hzerob)).ne', zero_div,
        if_pos Format.leastNormal_pos.le]
  rw [if_neg hzeroa]
  by_cases hzerob : p.magnitude b = 0
  · rw [if_pos hzerob]
    dsimp only
    rw [decode_infinity_or_sign hsign, Format.decode_eq_zero hzerob,
      Format.isFlushedQuotient_finite, if_pos rfl,
      if_neg (Format.value_pos (Nat.pos_of_ne_zero hzeroa)).ne']
  · rw [if_neg hzerob]
    dsimp only
    omega

theorem divXf3_isFlushedQuotient {quotientOf : p.Rep → p.Rep → p.Rep}
    (hestimate : ∀ a b : p.Rep, 2 ^ p.significandBits ≤ a.toNat →
      a.toNat < 2 * 2 ^ p.significandBits → 2 ^ p.significandBits ≤ b.toNat →
      b.toNat < 2 * 2 ^ p.significandBits →
      IsEstimate p.significandBits a.toNat b.toNat (quotientOf a b).toNat) (a b : p.Rep) :
    p.IsFlushedQuotient (p.decode a) (p.decode b) (p.decode (p.divXf3 quotientOf a b)) := by
  refine special_or_renormalized
    (fun result => p.IsFlushedQuotient (p.decode a) (p.decode b) (p.decode result))
    (fun aScale sa bScale sb => p.divFinite quotientOf (p.exponentWord a) (p.exponentWord b)
      (aScale - bScale) sa sb ((a ^^^ b) &&& p.signBit))
    (divSpecial_isFlushedQuotient a b) ?_
  intro ha hb aScale sa na bScale sb nb hna hnb
  rw [Format.decode_finite ha.2, Format.decode_finite hb.2, Format.isFlushedQuotient_finite,
    if_neg (Format.value_pos hb.1).ne']
  obtain ⟨hna, hlowa, hhigha, hva⟩ := hna
  obtain ⟨hnb, hlowb, hhighb, hvb⟩ := hnb
  have hresult := divFinite_spec quotientOf (p.exponentWord a)
    (p.exponentWord b) (aScale - bScale) hna hnb hlowa hhigha hlowb hhighb
    (by rw [← hna, ← hnb] at *; exact hestimate _ _ hlowa hhigha hlowb hhighb)
    (toNat_xor_sign a b)
  have hquotient : p.value (p.magnitude a) / p.value (p.magnitude b) = na / nb *
      2 ^ ((p.exponentWord a).toNat - (p.exponentWord b).toNat + (aScale - bScale) : ℤ) := by
    have hexp : (2 : ℚ) ^ ((p.exponentWord a).toNat + aScale - 1 : ℤ) =
        2 ^ ((p.exponentWord a).toNat - (p.exponentWord b).toNat + (aScale - bScale) : ℤ) *
          2 ^ ((p.exponentWord b).toNat + bScale - 1 : ℤ) := by
      rw [← zpow_add₀ two_ne_zero]
      congr 1
      ring
    have hquantum := p.quantum_pos.ne'
    have hpow := zpow_ne_zero ((p.exponentWord b).toNat + bScale - 1 : ℤ) (two_ne_zero (α := ℚ))
    rw [hva, hvb, hexp]
    field_simp
  rw [hquotient]
  split
  · rename_i hsmall
    rw [if_pos hsmall] at hresult
    rw [hresult, decode_sign (toNat_xor_sign a b)]
  · rename_i hlarge
    rwa [if_neg hlarge] at hresult

end Precision

theorem divsf3_isFlushedQuotient (a b : BitVec 32) :
    single.IsFlushedQuotient (single.decode a) (single.decode b) (single.decode (divsf3 a b)) :=
  Precision.divXf3_isFlushedQuotient (p := single)
    (fun _ _ ha ha' hb hb' => quotientSingle_isEstimate ha ha' hb hb') a b

theorem divdf3_isFlushedQuotient (a b : BitVec 64) :
    double.IsFlushedQuotient (double.decode a) (double.decode b) (double.decode (divdf3 a b)) :=
  Precision.divXf3_isFlushedQuotient (p := double)
    (fun _ _ ha ha' hb hb' => quotientDouble_isEstimate ha ha' hb hb') a b

end Cpu0Toolchain.CompilerRt
