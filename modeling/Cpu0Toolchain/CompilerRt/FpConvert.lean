import Cpu0Toolchain.CompilerRt.FpLib
import Cpu0Toolchain.Library.SignWord

/-!
# Integers to floating-point numbers

`floatsisf.c`, `floatunsisf.c`, `floatsidf.c`, `floatunsidf.c`, `floatdisf.c`, `floatundisf.c` and
`floatundidf.c`. From 32-bit integers the routines round with the word that a shift drops, and a
double needs no rounding. From 64-bit integers they keep two bits, and the second is sticky.
`int_lib.h` defines `__SOFT_FP__`, so that `floatundidf.c` is compiled without hardware
floating-point. The negation of a signed integer is taken to wrap around, where C leaves that of
the least one undefined.

## Main results

- `floatsisf_rounded`, `floatunsisf_rounded`: the nearest number.
- `floatsidf_exact`, `floatunsidf_exact`: the integer itself.
- `floatdisf_rounded`, `floatundisf_rounded`: the nearest number.
- `floatundidf_rounded`: the nearest number, where the words lie as the header says.
-/

namespace Cpu0Toolchain.CompilerRt
open BinaryFloat StickyBit SignWord

/-! ## 32 bits -/

namespace Precision

variable (p : Precision)

/-- `__floatunsisf` for a number that is not zero, and `__floatsisf` but for the sign. -/
def roundInteger (a : BitVec 32) : p.Rep :=
  -- Exponent of (fp_t)a is the width of abs(a)
  let exponent := 32 - 1 - builtinClz a
  let a := a.setWidth p.typeWidth
  -- Shift a into the significand field, rounding if it is a right-shift
  let result :=
    if exponent ≤ p.significandBits then
      let shift := p.significandBits - exponent
      a <<< shift ^^^ p.implicitBit
    else
      let shift := exponent - p.significandBits
      let result := a >>> shift ^^^ p.implicitBit
      let round := a <<< (p.typeWidth - shift)
      p.finalRounding round.toNat p.signBit.toNat result
  -- Insert the exponent
  result + BitVec.ofNat p.typeWidth (exponent + p.exponentBias) <<< p.significandBits

/-- `__floatunsidf` for a number that is not zero, and `__floatsidf` but for the sign. -/
def shiftInteger (a : BitVec 32) : p.Rep :=
  let exponent := 32 - 1 - builtinClz a
  -- Shift a into the significand field and clear the implicit bit
  let shift := p.significandBits - exponent
  let result := a.setWidth p.typeWidth <<< shift ^^^ p.implicitBit
  result + BitVec.ofNat p.typeWidth (exponent + p.exponentBias) <<< p.significandBits

/-- Handle zero as a special case to protect clz. -/
def floatUnsigned (convert : BitVec 32 → p.Rep) (a : BitVec 32) : p.Rep :=
  if a = 0#32 then 0#p.typeWidth else convert a

/-- Extract the sign and the absolute value of a, and insert the sign bit. -/
def floatSigned (convert : BitVec 32 → p.Rep) (a : BitVec 32) : p.Rep :=
  if a = 0#32 then 0#p.typeWidth
  else
    let sign := if a.toInt < 0 then p.signBit else 0#p.typeWidth
    let a := if a.toInt < 0 then -a else a
    convert a ||| sign

end Precision

def floatunsisf : BitVec 32 → BitVec 32 := single.floatUnsigned single.roundInteger

def floatsisf : BitVec 32 → BitVec 32 := single.floatSigned single.roundInteger

def floatunsidf : BitVec 32 → BitVec 64 := double.floatUnsigned double.shiftInteger

def floatsidf : BitVec 32 → BitVec 64 := double.floatSigned double.shiftInteger

namespace Precision

variable {p : Precision}

/-- The first bit of a number has the value of its exponent. -/
theorem exponent_value (e : ℕ) :
    (2 : ℚ) ^ (e + p.exponentBias - 1) * p.quantum * 2 ^ p.significandBits = 2 ^ e := by
  have hbias : 0 < p.exponentBias := by
    have hmax := p.one_lt_maxExponent
    rw [exponentBias, Nat.shiftRight_eq_div_pow]
    omega
  rw [Format.quantum, ← exponentBias_eq]
  field_simp
  rw [← pow_add, ← pow_add]
  congr 1
  omega

/-- A significand that is shifted to its place has the value of the integer. -/
theorem shifted_value {e d : ℕ} (h : p.significandBits = e + d) :
    (2 : ℚ) ^ (e + p.exponentBias - 1) * p.quantum * 2 ^ d = 1 := by
  have hvalue := exponent_value (p := p) e
  have hpow : (2 : ℚ) ^ p.significandBits = 2 ^ e * 2 ^ d := by rw [h, pow_add]
  apply mul_right_cancel₀ (pow_ne_zero e (two_ne_zero (α := ℚ)))
  rw [one_mul, mul_assoc _ (2 ^ d : ℚ), mul_comm (2 ^ d : ℚ), ← hpow, hvalue]

theorem integer_bounds {a : BitVec 32} (h : a ≠ 0#32) :
    32 - 1 - builtinClz a ≤ 31 ∧ 2 ^ (32 - 1 - builtinClz a) ≤ a.toNat ∧
      a.toNat < 2 * 2 ^ (32 - 1 - builtinClz a) := by
  obtain ⟨hc, hle, hlt⟩ := builtinClz_spec h
  refine ⟨by omega, hle, ?_⟩
  rwa [← Nat.pow_succ', Nat.succ_eq_add_one, show 32 - 1 - builtinClz a + 1 = 32 - builtinClz a by
    omega]

section Integer

variable {a : BitVec 32} (hwidth : 32 ≤ p.typeWidth) (hbias : 32 ≤ p.exponentBias)

include hwidth in
theorem toNat_integer : (a.setWidth p.typeWidth).toNat = a.toNat :=
  BitVec.toNat_setWidth_of_le hwidth

include hbias in
theorem exponent_lt {e : ℕ} (he : e ≤ 31) : e + p.exponentBias < p.maxExponent := by
  rw [maxExponent_bias]
  omega

/-- The exponent is added above the significand. -/
theorem toNat_add_exponent {result : p.Rep} {E r : ℕ} (hr : result.toNat = r)
    (hE : E < p.maxExponent) (hle : r ≤ 2 ^ p.significandBits) :
    (result + BitVec.ofNat p.typeWidth E <<< p.significandBits).toNat =
      E * 2 ^ p.significandBits + r := by
  have hmax := p.infinity_eq
  have hinf := p.infinity_lt
  have hpow := two_pow_typeWidth (p := p)
  have hmul : (E + 1) * 2 ^ p.significandBits ≤ p.maxExponent * 2 ^ p.significandBits :=
    Nat.mul_le_mul_right _ hE
  rw [Nat.succ_mul] at hmul
  rw [BitVec.toNat_add, toNat_ofExponent hE.le, hr, Nat.mod_eq_of_lt (by omega), Nat.add_comm]

include hwidth hbias in
theorem shiftLeft_value {e : ℕ} (he : e ≤ 31) (hplace : e ≤ p.significandBits)
    (hlow : 2 ^ e ≤ a.toNat) (hhigh : a.toNat < 2 * 2 ^ e) :
    ∃ m < p.infinity, p.value m = a.toNat ∧
      (((a.setWidth p.typeWidth <<< (p.significandBits - e)) ^^^ p.implicitBit) +
        BitVec.ofNat p.typeWidth (e + p.exponentBias) <<< p.significandBits).toNat = m := by
  obtain ⟨d, hd⟩ := Nat.exists_eq_add_of_le hplace
  have hshift : p.significandBits - e = d := by omega
  have hpow : 2 ^ p.significandBits = 2 ^ e * 2 ^ d := by rw [hd, Nat.pow_add]
  have hq : a.toNat * 2 ^ d < 2 * 2 ^ p.significandBits := by
    rw [hpow, ← Nat.mul_assoc]
    exact Nat.mul_lt_mul_of_pos_right hhigh (Nat.two_pow_pos d)
  have hge : 2 ^ p.significandBits ≤ a.toNat * 2 ^ d := by
    rw [hpow]
    exact Nat.mul_le_mul_right _ hlow
  have hfits : 2 * 2 ^ p.significandBits ≤ 2 ^ p.typeWidth := by
    rw [← Nat.pow_succ']
    exact Nat.pow_le_pow_right (by decide) (by rw [typeWidth_eq]; omega)
  have hE := exponent_lt hbias he
  have hpack := pack_lt hq hE
  have hword : (a.setWidth p.typeWidth <<< (p.significandBits - e)).toNat = a.toNat * 2 ^ d := by
    rw [hshift, toNat_shiftLeft_of_lt (by rw [toNat_integer hwidth]; omega), toNat_integer hwidth]
  refine ⟨_, hpack, ?_, ?_⟩
  · rw [p.value_pack hq (.inr hge)]
    push_cast
    calc (a.toNat : ℚ) * 2 ^ d * 2 ^ (e + p.exponentBias - 1) * p.quantum
        = a.toNat * (2 ^ (e + p.exponentBias - 1) * p.quantum * 2 ^ d) := by ring
      _ = a.toNat := by rw [shifted_value hd, mul_one]
  · rw [toNat_add_exponent (toNat_xor_implicitBit (by rwa [hword]) (by rwa [hword])) hE (by omega),
      hword]
    obtain ⟨k, hk⟩ := Nat.exists_eq_add_of_le' (show 1 ≤ e + p.exponentBias by omega)
    rw [hk, Nat.succ_mul, Nat.add_sub_cancel]
    omega

include hwidth in
/-- The word that a shift by so much drops. -/
theorem toNat_droppedWord {shift : ℕ} (hle : shift ≤ p.typeWidth) :
    (a.setWidth p.typeWidth <<< (p.typeWidth - shift)).toNat =
      a.toNat % 2 ^ shift * 2 ^ (p.typeWidth - shift) := by
  rw [BitVec.toNat_shiftLeft, toNat_integer hwidth, Nat.shiftLeft_eq,
    show 2 ^ p.typeWidth = 2 ^ shift * 2 ^ (p.typeWidth - shift) by
      rw [← Nat.pow_add, Nat.add_sub_cancel' hle],
    Nat.mul_mod_mul_right]

/-- The implicit bit is one of the exponent. -/
theorem pack_implicit {s e q : ℕ} (he : 1 ≤ e) (hq : 2 ^ s ≤ q) :
    e * 2 ^ s + (q - 2 ^ s) = (e - 1) * 2 ^ s + q := by
  obtain ⟨k, rfl⟩ := Nat.exists_eq_add_of_le' he
  rw [Nat.succ_mul, Nat.add_sub_cancel]
  omega

include hwidth hbias in
theorem shiftRight_nearest {e : ℕ} (he : e ≤ 31) (hplace : p.significandBits < e)
    (hlow : 2 ^ e ≤ a.toNat) (hhigh : a.toNat < 2 * 2 ^ e) :
    p.Nearest a.toNat (p.finalRounding
      (a.setWidth p.typeWidth <<< (p.typeWidth - (e - p.significandBits))).toNat p.signBit.toNat
      ((a.setWidth p.typeWidth >>> (e - p.significandBits)) ^^^ p.implicitBit) +
        BitVec.ofNat p.typeWidth (e + p.exponentBias) <<< p.significandBits).toNat := by
  obtain ⟨d, rfl⟩ := Nat.exists_eq_add_of_lt hplace
  obtain ⟨shift, hshift⟩ : ∃ shift, shift = d + 1 := ⟨_, rfl⟩
  rw [Nat.add_assoc, ← hshift, Nat.pow_add] at hlow hhigh
  rw [Nat.add_assoc, ← hshift] at he hplace ⊢
  have hpos := Nat.two_pow_pos shift
  have hinteger := toNat_integer (a := a) hwidth
  have hsub : p.significandBits + shift - p.significandBits = shift := Nat.add_sub_cancel_left _ _
  have hq : a.toNat / 2 ^ shift < 2 * 2 ^ p.significandBits := by
    rw [Nat.div_lt_iff_lt_mul hpos, Nat.mul_assoc]
    exact hhigh
  have hge : 2 ^ p.significandBits ≤ a.toNat / 2 ^ shift := (Nat.le_div_iff_mul_le hpos).mpr hlow
  have hE := exponent_lt hbias he
  have hpack := pack_lt hq hE
  have hword : (a.setWidth p.typeWidth >>> shift).toNat = a.toNat / 2 ^ shift := by
    rw [BitVec.toNat_ushiftRight, hinteger, Nat.shiftRight_eq_div_pow]
  have htype : 2 ^ p.typeWidth = 2 ^ shift * 2 ^ (p.typeWidth - shift) := by
    rw [← Nat.pow_add, Nat.add_sub_cancel' (by omega)]
  have hhalf := signBit_half (p := p)
  have hbits : a.toNat % 2 ^ shift * 2 ^ (p.typeWidth - shift) < 2 * p.signBit.toNat := by
    rw [hhalf, htype]
    exact Nat.mul_lt_mul_of_pos_right (Nat.mod_lt _ hpos) (Nat.two_pow_pos _)
  have hxor := toNat_xor_implicitBit (a := a.setWidth p.typeWidth >>> shift) (by rwa [hword])
    (by rwa [hword])
  rw [hword] at hxor
  have hfits : 2 * 2 ^ p.significandBits ≤ 2 ^ p.typeWidth := by
    rw [← Nat.pow_succ']
    exact Nat.pow_le_pow_right (by decide) (by rw [typeWidth_eq]; omega)
  rw [hsub, toNat_droppedWord hwidth (by omega)]
  have hfinal := toNat_finalRounding (a.toNat % 2 ^ shift * 2 ^ (p.typeWidth - shift))
    p.signBit.toNat (by rw [hxor]; omega)
  rw [hxor] at hfinal
  have hcarry := Format.carry_le (cmp (a.toNat % 2 ^ shift * 2 ^ (p.typeWidth - shift))
    p.signBit.toNat) (a.toNat / 2 ^ shift - 2 ^ p.significandBits)
  rw [toNat_add_exponent hfinal hE (by omega)]
  -- the implicit bit is even
  have heven : 2 ∣ (p.significandBits + shift + p.exponentBias) * 2 ^ p.significandBits :=
    Dvd.dvd.mul_left (dvd_pow_self 2 p.significandBits_pos.ne') _
  have hparity := Format.carry_add_even (cmp (a.toNat % 2 ^ shift * 2 ^ (p.typeWidth - shift))
    p.signBit.toNat) heven (a.toNat / 2 ^ shift - 2 ^ p.significandBits)
  rw [← Nat.add_assoc, ← hparity, pack_implicit (by omega) hge]
  refine Format.nearest_guard (y := a.toNat * 2 ^ (p.typeWidth - shift)) hq (.inr hge) hpack hbits
    ?_ ?_
  · have hsplit := Nat.div_add_mod a.toNat (2 ^ shift)
    have hexact : a.toNat / 2 ^ shift * (2 * p.signBit.toNat) +
        a.toNat % 2 ^ shift * 2 ^ (p.typeWidth - shift) =
          a.toNat * 2 ^ (p.typeWidth - shift) := by
      rw [hhalf, htype]
      nth_rw 3 [← hsplit]
      ring
    rw [hexact]
    push_cast
    exact SameSide.refl _ _
  · have hvalue := exponent_value (p := p) (p.significandBits + shift)
    have hhalf' : (2 * (p.signBit.toNat : ℕ) : ℚ) = 2 ^ shift * 2 ^ (p.typeWidth - shift) := by
      exact_mod_cast hhalf.trans htype
    rw [pow_add, mul_comm] at hvalue
    have hone : (2 : ℚ) ^ (p.significandBits + shift + p.exponentBias - 1) * p.quantum =
        2 ^ shift := mul_left_cancel₀ (pow_ne_zero _ two_ne_zero) hvalue
    rw [hhalf', mul_assoc _ _ p.quantum, hone]
    field_simp

include hwidth hbias in
theorem roundInteger_nearest (ha : a ≠ 0#32) : p.Nearest a.toNat (p.roundInteger a).toNat := by
  obtain ⟨he, hlow, hhigh⟩ := integer_bounds ha
  rw [roundInteger]
  dsimp only
  split
  next hplace =>
    obtain ⟨m, hm, hvalue, hword⟩ := shiftLeft_value hwidth hbias he hplace hlow hhigh
    rw [hword, ← hvalue]
    exact Format.Nearest.refl hm.le
  next hplace => exact shiftRight_nearest hwidth hbias he (Nat.not_le.mp hplace) hlow hhigh

include hwidth hbias in
theorem shiftInteger_value (ha : a ≠ 0#32) (hplace : 31 ≤ p.significandBits) :
    (p.shiftInteger a).toNat < p.infinity ∧ p.value (p.shiftInteger a).toNat = a.toNat := by
  obtain ⟨he, hlow, hhigh⟩ := integer_bounds ha
  obtain ⟨m, hm, hvalue, hword⟩ := shiftLeft_value hwidth hbias he (he.trans hplace) hlow hhigh
  rw [shiftInteger, hword]
  exact ⟨hm, hvalue⟩

end Integer

theorem toNat_absolute (a : BitVec 32) :
    ((if a.toInt < 0 then -a else a).toNat : ℚ) = |(a.toInt : ℚ)| := by
  have hlt := a.isLt
  have htoInt := BitVec.toInt_eq_toNat_cond a
  rw [← Int.cast_abs, ← Int.cast_natCast]
  congr 1
  split
  next hneg =>
    rw [BitVec.toNat_neg, abs_of_neg hneg]
    split at htoInt <;> omega
  next hpos =>
    rw [abs_of_nonneg (not_lt.mp hpos)]
    split at htoInt <;> omega

theorem absolute_ne_zero {a : BitVec 32} (h : a ≠ 0#32) :
    (if a.toInt < 0 then -a else a) ≠ 0#32 := by
  split
  · rwa [ne_eq, BitVec.neg_eq_zero_iff]
  · exact h

theorem decode_floatUnsigned (convert : BitVec 32 → p.Rep) {a : BitVec 32} (hne : a ≠ 0#32)
    (h : (convert a).toNat ≤ p.infinity) :
    p.decode (p.floatUnsigned convert a) = p.datum false (convert a).toNat := by
  rw [floatUnsigned, if_neg hne, decode_of_le h]

theorem decode_floatSigned (convert : BitVec 32 → p.Rep) {a : BitVec 32} (hne : a ≠ 0#32)
    (h : (convert (if a.toInt < 0 then -a else a)).toNat ≤ p.infinity) :
    p.decode (p.floatSigned convert a) = p.datum (decide (a.toInt < 0))
      (convert (if a.toInt < 0 then -a else a)).toNat := by
  rw [floatSigned, if_neg hne]
  apply decode_or_sign (Nat.lt_of_le_of_lt h p.infinity_lt)
  rw [signWord]
  by_cases hneg : a.toInt < 0
  · rw [if_pos hneg, if_pos (decide_eq_true hneg), toNat_signBit]
  · rw [if_neg hneg, if_neg (by rwa [decide_eq_true_iff])]
    rfl

section Float

variable (hwidth : 32 ≤ p.typeWidth) (hbias : 32 ≤ p.exponentBias) (a : BitVec 32)

include hwidth hbias

theorem floatUnsigned_rounded :
    p.Rounded false a.toNat (p.decode (p.floatUnsigned p.roundInteger a)) := by
  by_cases hzero : a = 0#32
  · rw [floatUnsigned, if_pos hzero, hzero]
    exact_mod_cast p.rounded_zero
  · have hnearest := roundInteger_nearest hwidth hbias hzero
    exact ⟨_, hnearest, decode_floatUnsigned _ hzero hnearest.le_infinity⟩

theorem floatSigned_rounded : p.Rounded (decide (a.toInt < 0)) |(a.toInt : ℚ)|
    (p.decode (p.floatSigned p.roundInteger a)) := by
  by_cases hzero : a = 0#32
  · rw [floatSigned, if_pos hzero, hzero]
    change p.Rounded false |((0 : ℤ) : ℚ)| _
    rw [Int.cast_zero, abs_zero]
    exact p.rounded_zero
  · have hnearest := roundInteger_nearest hwidth hbias (absolute_ne_zero hzero)
    rw [toNat_absolute] at hnearest
    exact ⟨_, hnearest, decode_floatSigned _ hzero hnearest.le_infinity⟩

theorem floatUnsigned_exact (hplace : 31 ≤ p.significandBits) :
    p.decode (p.floatUnsigned p.shiftInteger a) = .finite false a.toNat := by
  by_cases hzero : a = 0#32
  · rw [floatUnsigned, if_pos hzero, hzero]
    exact Format.decode_zero
  · obtain ⟨hlt, hvalue⟩ := shiftInteger_value hwidth hbias hzero hplace
    rw [decode_floatUnsigned _ hzero hlt.le, Format.datum_of_lt hlt, hvalue]

theorem floatSigned_exact (hplace : 31 ≤ p.significandBits) :
    p.decode (p.floatSigned p.shiftInteger a) =
      .finite (decide (a.toInt < 0)) |(a.toInt : ℚ)| := by
  by_cases hzero : a = 0#32
  · rw [floatSigned, if_pos hzero, hzero]
    change _ = Datum.finite false |((0 : ℤ) : ℚ)|
    rw [Int.cast_zero, abs_zero]
    exact Format.decode_zero
  · obtain ⟨hlt, hvalue⟩ := shiftInteger_value hwidth hbias (absolute_ne_zero hzero) hplace
    rw [decode_floatSigned _ hzero hlt.le, Format.datum_of_lt hlt, hvalue, toNat_absolute]

end Float

end Precision

open Precision

/-- The nearest number, and of two the even one. -/
theorem floatunsisf_rounded (a : BitVec 32) :
    single.Rounded false a.toNat (single.decode (floatunsisf a)) :=
  floatUnsigned_rounded (p := single) (by decide) (by decide) a

theorem floatsisf_rounded (a : BitVec 32) :
    single.Rounded (decide (a.toInt < 0)) |(a.toInt : ℚ)| (single.decode (floatsisf a)) :=
  floatSigned_rounded (p := single) (by decide) (by decide) a

/-- A double holds all the digits of a word. -/
theorem floatunsidf_exact (a : BitVec 32) :
    double.decode (floatunsidf a) = .finite false a.toNat :=
  floatUnsigned_exact (p := double) (by decide) (by decide) a (by decide)

theorem floatsidf_exact (a : BitVec 32) :
    double.decode (floatsidf a) = .finite (decide (a.toInt < 0)) |(a.toInt : ℚ)| :=
  floatSigned_exact (p := double) (by decide) (by decide) a (by decide)

/-! ## 64 bits -/

/-- `FLT_MANT_DIG` -/
def fltMantDig : ℕ := 24

/-- `DBL_MANT_DIG` -/
def dblMantDig : ℕ := 53

/-- The rounding of `__floatdisf`, `__floatundisf` and `__floatundidf`, whose right shifts are that
of `di_int` and that of `du_int`. -/
def roundDigits (mantDig : ℕ) (shiftRight : BitVec 64 → ℕ → BitVec 64) (a : BitVec 64) (sd : ℕ) :
    BitVec 64 × ℕ :=
  let e := sd - 1
  if sd > mantDig then
    let a :=
      if sd = mantDig + 1 then a <<< 1
      else if sd = mantDig + 2 then a
      else
        let mask := BitVec.allOnes 64 >>> (64 + (mantDig + 2) - sd)
        a >>> (sd - (mantDig + 2)) ||| if a &&& mask ≠ 0#64 then 1#64 else 0#64
    -- Or P into R
    let a := a ||| if a &&& 4#64 ≠ 0#64 then 1#64 else 0#64
    -- round - this step may add a significant bit
    let a := a + 1#64
    -- dump Q and R
    let a := shiftRight a 2
    if a &&& 1#64 <<< mantDig ≠ 0#64 then (shiftRight a 1, e + 1) else (a, e)
  else (a <<< (mantDig - sd), e)

/-- The exponent and the mantissa. -/
def packFloat (a : BitVec 64) (e : ℕ) : BitVec 32 :=
  BitVec.ofNat 32 (e + 127) <<< 23 ||| (a.setWidth 32 &&& 0x007FFFFF#32)

/-- The exponent, mantissa-high and mantissa-low, through the union `double_bits`. -/
def packDouble (order : EndianWord.Endianness) (a : BitVec 64) (e : ℕ) : BitVec 64 :=
  dwords order (BitVec.ofNat 32 (e + 1023) <<< 20 ||| ((a >>> 32).setWidth 32 &&& 0x000FFFFF#32))
    (a.setWidth 32)

def floatundisf (a : BitVec 64) : BitVec 32 :=
  if a = 0#64 then 0#32
  else
    let sd := 64 - a.clz.toNat
    let (a, e) := roundDigits fltMantDig BitVec.ushiftRight a sd
    packFloat a e

def floatdisf (a : BitVec 64) : BitVec 32 :=
  if a = 0#64 then 0#32
  else
    let s := a.sshiftRight 63
    let a := (a ^^^ s) - s
    let sd := 64 - a.clz.toNat
    let (a, e) := roundDigits fltMantDig BitVec.sshiftRight a sd
    (s.setWidth 32 &&& 0x80000000#32) ||| packFloat a e

def floatundidf (order : EndianWord.Endianness) (a : BitVec 64) : BitVec 64 :=
  if a = 0#64 then 0#64
  else
    let sd := 64 - a.clz.toNat
    let (a, e) := roundDigits dblMantDig BitVec.ushiftRight a sd
    packDouble order a e

theorem two_pow_add_two (s : ℕ) : 2 ^ (s + 2) = 4 * 2 ^ s := by rw [Nat.pow_add, Nat.mul_comm]

theorem two_pow_add_three (s : ℕ) : 2 ^ (s + 3) = 8 * 2 ^ s := by rw [Nat.pow_add, Nat.mul_comm]

/-- Two bits below the number, of which the second is sticky. -/
theorem toNat_roundDigit {a : BitVec 64} {s : ℕ} (hs : s ≤ 59) (h : a.toNat < 2 ^ (s + 3)) :
    ((a ||| (if a &&& 4#64 ≠ 0#64 then 1#64 else 0#64)) + 1#64).toNat ≤ 2 ^ (s + 3) ∧
      ((a ||| (if a &&& 4#64 ≠ 0#64 then 1#64 else 0#64)) + 1#64).toNat / 4 =
        a.toNat / 4 + Format.carry (cmp (a.toNat % 4) 2) (a.toNat / 4) := by
  have height := two_pow_add_three s
  have hfits : 2 ^ (s + 3) ≤ 2 ^ 62 := Nat.pow_le_pow_right (by decide) (by omega)
  have hbit : a &&& 4#64 ≠ 0#64 ↔ a.toNat / 4 % 2 = 1 := by
    have hand : (a &&& 4#64).toNat = (a.toNat.testBit 2).toNat * 2 ^ 2 := by
      rw [BitVec.toNat_and]
      exact Nat.and_two_pow a.toNat 2
    rw [ne_eq, ← BitVec.toNat_inj, hand, Nat.testBit_eq_decide_div_mod_eq]
    by_cases hodd : a.toNat / 2 ^ 2 % 2 = 1
    · rw [decide_eq_true hodd]
      exact iff_of_true (by decide) hodd
    · rw [decide_eq_false hodd]
      exact iff_of_false (by decide) hodd
  have hor : (a ||| (if a &&& 4#64 ≠ 0#64 then 1#64 else 0#64)).toNat =
      if a.toNat / 4 % 2 = 1 then 2 * (a.toNat / 2) + 1 else a.toNat := by
    by_cases hodd : a.toNat / 4 % 2 = 1
    · rw [if_pos (hbit.mpr hodd), if_pos hodd, BitVec.toNat_or]
      exact or_one a.toNat
    · rw [if_neg (mt hbit.mp hodd), if_neg hodd, BitVec.or_zero]
  have hsum : ((a ||| (if a &&& 4#64 ≠ 0#64 then 1#64 else 0#64)) + 1#64).toNat =
      (if a.toNat / 4 % 2 = 1 then 2 * (a.toNat / 2) + 1 else a.toNat) + 1 := by
    rw [BitVec.toNat_add, hor, BitVec.toNat_one (by decide), Nat.mod_eq_of_lt]
    split <;> omega
  rw [hsum]
  refine ⟨by split <;> omega, ?_⟩
  rcases Nat.lt_trichotomy (a.toNat % 4) 2 with hlt | heq | hgt
  · rw [(cmp_eq_lt_iff _ _).mpr hlt, Format.carry]
    split <;> omega
  · rw [heq, cmp_self_eq_eq, Format.carry]
    split <;> omega
  · rw [(cmp_eq_gt_iff _ _).mpr hgt, Format.carry]
    split <;> omega

theorem toNat_mask {j k : ℕ} (h : j + k = 64) :
    (BitVec.allOnes 64 >>> j).toNat = 2 ^ k - 1 := by
  have hj := Nat.two_pow_pos j
  have hk := Nat.two_pow_pos k
  have hmul : 2 ^ j * (2 ^ k - 1) + 2 ^ j = 2 ^ j * 2 ^ k := by
    rw [← Nat.mul_succ, Nat.succ_eq_add_one, Nat.sub_add_cancel hk]
  have hsplit : 2 ^ 64 - 1 = 2 ^ j * (2 ^ k - 1) + (2 ^ j - 1) := by
    rw [← h, Nat.pow_add]
    omega
  rw [BitVec.toNat_ushiftRight, BitVec.toNat_allOnes, Nat.shiftRight_eq_div_pow, hsplit,
    Nat.mul_add_div hj, Nat.div_eq_of_lt (Nat.sub_lt hj one_pos), Nat.add_zero]

section Digits

variable {a : BitVec 64} {sd s : ℕ} (hsd : sd ≤ 64) (hlow : 2 ^ sd ≤ 2 * a.toNat)
  (hhigh : a.toNat < 2 ^ sd)

include hsd hlow hhigh in
/-- Two digits more than fit, the last of them sticky. -/
theorem toNat_firstDigits (hs : s ≤ 59) (h : s + 1 < sd) :
    ∃ J : BitVec 64, (if sd = s + 1 + 1 then a <<< 1
      else if sd = s + 1 + 2 then a
      else a >>> (sd - (s + 1 + 2)) |||
        if a &&& BitVec.allOnes 64 >>> (64 + (s + 1 + 2) - sd) ≠ 0#64 then 1#64
        else 0#64) = J ∧ 2 ^ (s + 2) ≤ J.toNat ∧ J.toNat < 2 ^ (s + 3) ∧
          SameSide (2 : ℚ) J.toNat (a.toNat * 2 ^ (s + 3) / 2 ^ sd) := by
  refine ⟨_, rfl, ?_⟩
  have hfour := two_pow_add_two s
  have height := two_pow_add_three s
  have hfits : 2 ^ (s + 3) ≤ 2 ^ 62 := Nat.pow_le_pow_right (by decide) (by omega)
  by_cases hfirst : sd = s + 2
  · subst hfirst
    have hword : (a <<< 1).toNat = 2 * a.toNat := by
      rw [BitVec.toNat_shiftLeft, Nat.shiftLeft_eq, Nat.mod_eq_of_lt (by omega), Nat.mul_comm]
    rw [if_pos rfl, hword]
    refine ⟨by omega, by omega, ?_⟩
    have hvalue : (a.toNat * 2 ^ (s + 3) / 2 ^ (s + 2) : ℚ) = (2 * a.toNat : ℕ) := by
      rw [pow_succ (2 : ℚ) (s + 2), ← mul_assoc,
        mul_right_comm, mul_div_cancel_right₀ _ (pow_ne_zero _ two_ne_zero)]
      push_cast
      ring
    rw [hvalue]
    exact SameSide.refl _ _
  rw [if_neg hfirst]
  by_cases hsecond : sd = s + 3
  · subst hsecond
    rw [if_pos rfl, mul_div_cancel_right₀ _ (pow_ne_zero _ two_ne_zero)]
    exact ⟨by omega, hhigh, SameSide.refl _ _⟩
  rw [if_neg hsecond]
  obtain ⟨k, rfl⟩ := Nat.exists_eq_add_of_le (show s + 3 ≤ sd by omega)
  have hshift : s + 3 + k - (s + 1 + 2) = k := by omega
  have hmask : (BitVec.allOnes 64 >>> (64 + (s + 1 + 2) - (s + 3 + k))).toNat = 2 ^ k - 1 :=
    toNat_mask (by omega)
  have hdropped : a &&& BitVec.allOnes 64 >>> (64 + (s + 1 + 2) - (s + 3 + k)) ≠ 0#64 ↔
      a.toNat % 2 ^ k ≠ 0 := by
    rw [ne_eq, ← BitVec.toNat_inj, BitVec.toNat_and, hmask, Nat.and_two_pow_sub_one_eq_mod]
    rfl
  have hjam : (a >>> k ||| if a &&& BitVec.allOnes 64 >>> (64 + (s + 1 + 2) - (s + 3 + k)) ≠ 0#64
      then 1#64 else 0#64).toNat = jam a.toNat k := by
    rw [BitVec.toNat_or, BitVec.toNat_ushiftRight, Nat.shiftRight_eq_div_pow, jam]
    by_cases hzero : a.toNat % 2 ^ k = 0
    · rw [if_neg (mt hdropped.mp (not_not.mpr hzero)), if_pos hzero]
      rfl
    · rw [if_pos (hdropped.mpr hzero), if_neg hzero]
      rfl
  have hpow : 2 ^ (s + 3 + k) = 2 * (2 * 2 ^ (s + 1)) * 2 ^ k := by
    rw [Nat.pow_add, Nat.pow_add 2 s 3, Nat.pow_succ]
    ring
  have htwo : 2 ^ (s + 3) = 2 * (2 * 2 ^ (s + 1)) := by rw [height, Nat.pow_succ]; ring
  rw [hshift, hjam]
  refine ⟨?_, ?_, ?_⟩
  · have hge := (jam_even_iff a.toNat k (2 ^ (s + 1))).1.not.mpr (by rw [Nat.not_lt]; grind)
    rw [Nat.pow_succ] at hge
    omega
  · rw [htwo]
    exact (jam_even_iff a.toNat k (2 * 2 ^ (s + 1))).1.mpr (by omega)
  · rw [pow_add (2 : ℚ) (s + 3), mul_comm (2 ^ (s + 3) : ℚ),
      mul_div_mul_right _ _ (pow_ne_zero _ two_ne_zero)]
    exact sameSide_jam a.toNat k

end Digits

namespace Precision

variable {p : Precision}

theorem exponent_mul {E : ℕ} (h : 0 < E) :
    E * 2 ^ p.significandBits = (E - 1) * 2 ^ p.significandBits + 2 ^ p.significandBits := by
  rw [← Nat.succ_mul, Nat.succ_eq_add_one, Nat.sub_add_cancel h]

/-- The digits, rounded to those that fit. -/
theorem nearest_firstDigits {J : BitVec 64} {n e : ℕ} (hs : 2 ≤ p.significandBits)
    (he : e < p.exponentBias) (hlow : 2 ^ (p.significandBits + 2) ≤ J.toNat)
    (hhigh : J.toNat < 2 ^ (p.significandBits + 3))
    (hside : SameSide (2 : ℚ) J.toNat (n * 2 ^ (p.significandBits + 3) / 2 ^ (e + 1))) :
    p.Nearest n ((e + p.exponentBias - 1) * 2 ^ p.significandBits + J.toNat / 4 +
      Format.carry (cmp (J.toNat % 4) 2) (J.toNat / 4)) := by
  have hfour := two_pow_add_two p.significandBits
  have height := two_pow_add_three p.significandBits
  have heven : 2 ∣ (e + p.exponentBias - 1) * 2 ^ p.significandBits :=
    Dvd.dvd.mul_left (dvd_pow_self 2 (by omega)) _
  rw [← Format.carry_add_even (cmp (J.toNat % 4) 2) heven (J.toNat / 4)]
  refine Format.nearest_guard (f := p.toFormat)
    (y := n * 2 ^ (p.significandBits + 3) / 2 ^ (e + 1)) (by omega) (.inr (by omega)) ?_
    (Nat.mod_lt _ (by decide)) ?_ ?_
  · refine pack_lt (by omega) ?_
    rw [maxExponent_bias]
    omega
  · rw [show J.toNat / 4 * (2 * 2) + J.toNat % 4 = J.toNat by omega]
    exact hside
  · have hvalue := exponent_value (p := p) e
    have hunit : (2 : ℚ) ^ (e + p.exponentBias - 1) * p.quantum =
        2 ^ e / 2 ^ p.significandBits := by
      rw [eq_div_iff (by positivity), hvalue]
    rw [mul_assoc, hunit, pow_add (2 : ℚ) p.significandBits 3]
    field_simp
    ring

/-- Digits that all fit are kept. -/
theorem nearest_fewDigits {a : BitVec 64} {e : ℕ} (hs : p.significandBits < 63)
    (hbias : 64 ≤ p.exponentBias) (he : e ≤ p.significandBits) (hlow : 2 ^ (e + 1) ≤ 2 * a.toNat)
    (hhigh : a.toNat < 2 ^ (e + 1)) :
    p.Nearest a.toNat ((e + p.exponentBias) * 2 ^ p.significandBits +
      (a <<< (p.significandBits + 1 - (e + 1))).toNat % 2 ^ p.significandBits) := by
  obtain ⟨d, hd⟩ := Nat.exists_eq_add_of_le he
  have hplace : e + 1 + d = p.significandBits + 1 := by omega
  have hfits : a.toNat * 2 ^ d < 2 * 2 ^ p.significandBits := by
    have hmul := Nat.mul_lt_mul_of_pos_right hhigh (Nat.two_pow_pos d)
    rwa [← Nat.pow_add, hplace, Nat.pow_succ'] at hmul
  have hnormal : 2 ^ p.significandBits ≤ a.toNat * 2 ^ d := by
    have hmul := Nat.mul_le_mul_right (2 ^ d) hlow
    rw [← Nat.pow_add, hplace, Nat.pow_succ', Nat.mul_assoc] at hmul
    exact Nat.le_of_mul_le_mul_left hmul two_pos
  have hlarge : 2 * 2 ^ p.significandBits ≤ 2 ^ 63 := by
    rw [← Nat.pow_succ']
    exact Nat.pow_le_pow_right (by decide) hs
  have hword : (a <<< (p.significandBits + 1 - (e + 1))).toNat = a.toNat * 2 ^ d := by
    rw [show p.significandBits + 1 - (e + 1) = d by omega, BitVec.toNat_shiftLeft,
      Nat.shiftLeft_eq, Nat.mod_eq_of_lt (by omega)]
  have hmod : a.toNat * 2 ^ d % 2 ^ p.significandBits =
      a.toNat * 2 ^ d - 2 ^ p.significandBits := by
    rw [Nat.mod_eq_sub_mod hnormal, Nat.mod_eq_of_lt (by omega)]
  have hnumber : (e + p.exponentBias) * 2 ^ p.significandBits +
      (a.toNat * 2 ^ d - 2 ^ p.significandBits) =
        (e + p.exponentBias - 1) * 2 ^ p.significandBits + a.toNat * 2 ^ d := by
    rw [exponent_mul (by omega)]
    omega
  have hexact : p.value ((e + p.exponentBias - 1) * 2 ^ p.significandBits + a.toNat * 2 ^ d) =
      a.toNat := by
    have hunit : (2 : ℚ) ^ (e + p.exponentBias - 1) * p.quantum * 2 ^ d = 1 :=
      shifted_value (p := p) hd
    rw [p.value_pack hfits (.inr hnormal)]
    push_cast
    calc (a.toNat : ℚ) * 2 ^ d * 2 ^ (e + p.exponentBias - 1) * p.quantum
        = a.toNat * (2 ^ (e + p.exponentBias - 1) * p.quantum * 2 ^ d) := by ring
      _ = a.toNat := by rw [hunit, mul_one]
  rw [hword, hmod, hnumber, ← hexact]
  apply Format.Nearest.refl
  refine (pack_lt hfits ?_).le
  rw [maxExponent_bias]
  omega

/-- Rounding may leave one digit more, and then the others are zero. -/
theorem carriedDigit {q : BitVec 64} {e : ℕ} (hs : p.significandBits ≤ 59)
    (hpos : 0 < e + p.exponentBias) (hlow : 2 ^ p.significandBits ≤ q.toNat)
    (hhigh : q.toNat ≤ 2 ^ (p.significandBits + 1)) {shiftRight : BitVec 64 → ℕ → BitVec 64}
    (hshift : ∀ b k, b.toNat < 2 ^ 63 → shiftRight b k = b >>> k) :
    ∃ b e', (if q &&& 1#64 <<< (p.significandBits + 1) ≠ 0#64 then (shiftRight q 1, e + 1)
        else (q, e)) = (b, e') ∧ e' ≤ e + 1 ∧
      (e' + p.exponentBias) * 2 ^ p.significandBits + b.toNat % 2 ^ p.significandBits =
        (e + p.exponentBias - 1) * 2 ^ p.significandBits + q.toNat := by
  have hunit := Nat.two_pow_pos p.significandBits
  have htwo : 2 ^ (p.significandBits + 1) = 2 * 2 ^ p.significandBits := Nat.pow_succ'
  have hfits : 2 ^ (p.significandBits + 1) < 2 ^ 63 := Nat.pow_lt_pow_right (by decide) (by omega)
  have hone : (1#64 <<< (p.significandBits + 1)).toNat = 2 ^ (p.significandBits + 1) := by
    rw [BitVec.toNat_shiftLeft, BitVec.toNat_one (by decide), Nat.shiftLeft_eq, Nat.one_mul,
      Nat.mod_eq_of_lt (by omega)]
  have hbit : q &&& 1#64 <<< (p.significandBits + 1) ≠ 0#64 ↔
      2 ^ (p.significandBits + 1) ≤ q.toNat :=
    and_bit_ne_zero hone (by rw [Nat.pow_succ]; omega)
  have hE := exponent_mul (p := p) hpos
  by_cases hover : 2 ^ (p.significandBits + 1) ≤ q.toNat
  · have hhalf : (shiftRight q 1).toNat = 2 ^ p.significandBits := by
      rw [hshift q 1 (by omega), BitVec.toNat_ushiftRight, Nat.shiftRight_eq_div_pow]
      omega
    have hmore : (e + 1 + p.exponentBias) * 2 ^ p.significandBits =
        (e + p.exponentBias) * 2 ^ p.significandBits + 2 ^ p.significandBits := by
      rw [Nat.add_right_comm, Nat.succ_mul]
    refine ⟨shiftRight q 1, e + 1, if_pos (hbit.mpr hover), le_rfl, ?_⟩
    rw [hhalf, Nat.mod_self]
    omega
  · refine ⟨q, e, if_neg (mt hbit.mp hover), Nat.le_succ e, ?_⟩
    rw [Nat.mod_eq_sub_mod hlow, Nat.mod_eq_of_lt (by omega)]
    omega

/-- What is rounded has the digits and the exponent of the nearest number. -/
theorem roundDigits_nearest {a : BitVec 64} {sd : ℕ} (hs : 2 ≤ p.significandBits)
    (hs' : p.significandBits ≤ 59) (hbias : 64 ≤ p.exponentBias) (hsd : sd ≤ 64)
    (hlow : 2 ^ sd ≤ 2 * a.toNat) (hhigh : a.toNat < 2 ^ sd) (hpos : 0 < sd)
    (shiftRight : BitVec 64 → ℕ → BitVec 64)
    (hshift : ∀ b k, b.toNat < 2 ^ 63 → shiftRight b k = b >>> k) :
    ∃ b e, roundDigits (p.significandBits + 1) shiftRight a sd = (b, e) ∧ e ≤ 64 ∧
      p.Nearest a.toNat
        ((e + p.exponentBias) * 2 ^ p.significandBits + b.toNat % 2 ^ p.significandBits) := by
  obtain ⟨e, rfl⟩ := Nat.exists_eq_add_of_le' hpos
  rw [roundDigits, Nat.add_sub_cancel]
  by_cases hround : e + 1 > p.significandBits + 1
  · obtain ⟨J, hJ, hJlow, hJhigh, hside⟩ := toNat_firstDigits hsd hlow hhigh hs' hround
    have hnearest := nearest_firstDigits hs (by omega) hJlow hJhigh hside
    rw [if_pos hround]
    dsimp only
    rw [hJ]
    obtain ⟨hle, hsum⟩ := toNat_roundDigit hs' hJhigh
    generalize (J ||| if J &&& 4#64 ≠ 0#64 then 1#64 else 0#64) + 1#64 = R at hle hsum ⊢
    have hfour := two_pow_add_two p.significandBits
    have height := two_pow_add_three p.significandBits
    have htwo : 2 ^ (p.significandBits + 1) = 2 * 2 ^ p.significandBits := Nat.pow_succ'
    have hfits : 2 ^ (p.significandBits + 3) ≤ 2 ^ 62 :=
      Nat.pow_le_pow_right (by decide) (by omega)
    have hq : (shiftRight R 2).toNat = R.toNat / 4 := by
      rw [hshift _ _ (by omega), BitVec.toNat_ushiftRight, Nat.shiftRight_eq_div_pow]
    have hcarry := Nat.le_add_right (J.toNat / 4) (Format.carry (cmp (J.toNat % 4) 2) (J.toNat / 4))
    obtain ⟨b, e', hdigit, he', hnumber⟩ := carriedDigit (q := shiftRight R 2) (e := e) hs'
      (by omega) (by omega) (by omega) hshift
    rw [Nat.add_assoc, ← hsum, ← hq, ← hnumber] at hnearest
    exact ⟨b, e', hdigit, by omega, hnearest⟩
  · rw [if_neg hround]
    exact ⟨_, _, rfl, by omega,
      nearest_fewDigits (by omega) hbias (by omega) hlow hhigh⟩

end Precision

/-- An exponent above the lowest digits of a number. -/
theorem toNat_packWord {b : BitVec 64} {mask : BitVec 32} {E n : ℕ} (hn : n ≤ 32)
    (hmask : mask.toNat = 2 ^ n - 1) (hE : E < 2 ^ (32 - n)) :
    (BitVec.ofNat 32 E <<< n ||| (b.setWidth 32 &&& mask)).toNat =
      E * 2 ^ n + b.toNat % 2 ^ n := by
  have hmod : b.toNat % 2 ^ n < 2 ^ n := Nat.mod_lt _ (Nat.two_pow_pos n)
  have hdigits : (b.setWidth 32 &&& mask).toNat = b.toNat % 2 ^ n := by
    rw [BitVec.toNat_and, BitVec.toNat_setWidth, hmask, Nat.and_two_pow_sub_one_eq_mod,
      Nat.mod_mod_of_dvd _ (Nat.pow_dvd_pow 2 hn)]
  have hfits : E * 2 ^ n < 2 ^ 32 := by
    have hmul := Nat.mul_lt_mul_of_pos_right hE (Nat.two_pow_pos n)
    rwa [← Nat.pow_add, Nat.sub_add_cancel hn] at hmul
  have hword : (BitVec.ofNat 32 E <<< n).toNat = E * 2 ^ n := by
    have hE' : E < 2 ^ 32 := hE.trans_le (Nat.pow_le_pow_right (by decide) (Nat.sub_le 32 n))
    rw [BitVec.toNat_shiftLeft, BitVec.toNat_ofNat, Nat.shiftLeft_eq, Nat.mod_eq_of_lt hE',
      Nat.mod_eq_of_lt hfits]
  rw [BitVec.toNat_or, hword, hdigits, Nat.mul_comm, Nat.two_pow_add_eq_or_of_lt hmod]

theorem toNat_packFloat {b : BitVec 64} {e : ℕ} (he : e + 127 < 256) :
    (packFloat b e).toNat = (e + 127) * 2 ^ 23 + b.toNat % 2 ^ 23 :=
  toNat_packWord (n := 23) (by decide) rfl (by omega)

theorem toNat_packDouble {b : BitVec 64} {e : ℕ} (he : e + 1023 < 2048) :
    (packDouble .big b e).toNat = (e + 1023) * 2 ^ 52 + b.toNat % 2 ^ 52 := by
  have hhigh := toNat_packWord (b := b >>> 32) (n := 20) (by decide)
    (show (0x000FFFFF#32).toNat = 2 ^ 20 - 1 from rfl) (show e + 1023 < 2 ^ (32 - 20) by omega)
  rw [BitVec.toNat_ushiftRight, Nat.shiftRight_eq_div_pow] at hhigh
  rw [packDouble, toNat_dwords, hhigh, BitVec.toNat_setWidth]
  omega

theorem digits_bounds {a : BitVec 64} (h : a ≠ 0#64) :
    64 - a.clz.toNat ≤ 64 ∧ 2 ^ (64 - a.clz.toNat) ≤ 2 * a.toNat ∧
      a.toNat < 2 ^ (64 - a.clz.toNat) ∧ 0 < 64 - a.clz.toNat := by
  have hhigh := BitVec.toNat_lt_two_pow_sub_clz (x := a)
  have hlow := BitVec.two_pow_sub_clz_le_toNat_of_ne_zero (by decide) h
  have hpos : 0 < 64 - a.clz.toNat := by
    by_contra hzero
    rw [Nat.eq_zero_of_not_pos hzero, Nat.pow_zero, Nat.lt_one_iff] at hhigh
    exact h (BitVec.eq_of_toNat_eq hhigh)
  refine ⟨Nat.sub_le _ _, ?_, hhigh, hpos⟩
  obtain ⟨e, he⟩ := Nat.exists_eq_add_of_le' hpos
  rw [he, Nat.pow_succ']
  rw [show 64 - 1 - a.clz.toNat = e by omega] at hlow
  omega

/-- The nearest number, in single precision. -/
theorem packFloat_nearest {a : BitVec 64} (h : a ≠ 0#64)
    (shiftRight : BitVec 64 → ℕ → BitVec 64)
    (hshift : ∀ b k, b.toNat < 2 ^ 63 → shiftRight b k = b >>> k) :
    ∃ b e, roundDigits fltMantDig shiftRight a (64 - a.clz.toNat) = (b, e) ∧
      single.Nearest a.toNat (packFloat b e).toNat := by
  obtain ⟨hsd, hlow, hhigh, hpos⟩ := digits_bounds h
  obtain ⟨b, e, hround, he, hnearest⟩ := Precision.roundDigits_nearest (p := single) (by decide)
    (by decide) (by decide) hsd hlow hhigh hpos shiftRight hshift
  refine ⟨b, e, hround, ?_⟩
  rw [toNat_packFloat (by omega)]
  exact hnearest

theorem floatundisf_rounded (a : BitVec 64) :
    single.Rounded false a.toNat (single.decode (floatundisf a)) := by
  by_cases hzero : a = 0#64
  · rw [floatundisf, if_pos hzero, hzero]
    exact_mod_cast single.rounded_zero
  · obtain ⟨b, e, hround, hnearest⟩ := packFloat_nearest hzero BitVec.ushiftRight
      (fun _ _ _ => rfl)
    rw [floatundisf, if_neg hzero]
    dsimp only
    rw [hround]
    exact ⟨_, hnearest, decode_of_le (p := single) hnearest.le_infinity⟩

/-- The least integer, too, which has no opposite one. -/
theorem floatdisf_rounded (a : BitVec 64) :
    single.Rounded (decide (a.toInt < 0)) |(a.toInt : ℚ)| (single.decode (floatdisf a)) := by
  by_cases hzero : a = 0#64
  · rw [floatdisf, if_pos hzero, hzero]
    change single.Rounded false |((0 : ℤ) : ℚ)| _
    rw [Int.cast_zero, abs_zero]
    exact single.rounded_zero
  · have habs : (a ^^^ a.sshiftRight 63) - a.sshiftRight 63 = a.abs := xor_sub_signWord a
    have hne : a.abs ≠ 0#64 := by
      rw [BitVec.abs_eq]
      split
      · rwa [ne_eq, BitVec.neg_eq_zero_iff]
      · exact hzero
    have hvalue : |(a.toInt : ℚ)| = (a.abs.toNat : ℚ) := by
      rw [toNat_abs, ← Int.cast_abs, Int.abs_eq_natAbs, Int.cast_natCast]
    have hsign : ((a.sshiftRight 63).setWidth 32 &&& 0x80000000#32).toNat =
        single.signWord (decide (a.toInt < 0)) := by
      rw [← BitVec.msb_eq_toInt, show a.sshiftRight 63 = signWord a from rfl, signWord_eq]
      cases a.msb <;> rfl
    obtain ⟨b, e, hround, hnearest⟩ := packFloat_nearest hne BitVec.sshiftRight
      fun c k hc => BitVec.sshiftRight_eq_of_msb_false
        (BitVec.msb_eq_false_iff_two_mul_lt.mpr (by omega))
    rw [floatdisf, if_neg hzero]
    dsimp only
    rw [habs, hround, hvalue, BitVec.or_comm]
    exact ⟨_, hnearest, decode_or_sign (p := single)
      (Nat.lt_of_le_of_lt hnearest.le_infinity single.infinity_lt) hsign⟩

theorem packDouble_eq (order : EndianWord.Endianness) (b : BitVec 64) (e : ℕ) :
    packDouble order b e = inOrder order (packDouble .big b e) := dwords_eq order _ _

/-- The nearest number, with the words in the order in which the target has them. -/
theorem floatundidf_rounded (order : EndianWord.Endianness) (a : BitVec 64) :
    double.Rounded false a.toNat (double.decode (inOrder order (floatundidf order a))) := by
  by_cases hzero : a = 0#64
  · have hword : inOrder order 0#64 = 0#64 := by cases order <;> rfl
    rw [floatundidf, if_pos hzero, hword, hzero]
    exact_mod_cast double.rounded_zero
  · obtain ⟨hsd, hlow, hhigh, hpos⟩ := digits_bounds hzero
    obtain ⟨b, e, hround, he, hnearest⟩ := Precision.roundDigits_nearest (p := double) (by decide)
      (by decide) (by decide) hsd hlow hhigh hpos BitVec.ushiftRight (fun _ _ _ => rfl)
    have hround' : roundDigits dblMantDig BitVec.ushiftRight a (64 - a.clz.toNat) = (b, e) := hround
    have hword : (packDouble .big b e).toNat =
        (e + double.exponentBias) * 2 ^ double.significandBits +
          b.toNat % 2 ^ double.significandBits := toNat_packDouble (by omega)
    rw [← hword] at hnearest
    rw [floatundidf, if_neg hzero]
    dsimp only
    rw [hround']
    dsimp only
    rw [packDouble_eq, inOrder_inOrder]
    exact ⟨_, hnearest, decode_of_le (p := double) hnearest.le_infinity⟩

end Cpu0Toolchain.CompilerRt
