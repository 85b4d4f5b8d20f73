import Cpu0Toolchain.CompilerRt.FpLib

/-!
# Soft-float multiplication

`fp_mul_impl.inc`: `__mulXf3__` for both precisions, and `__mulsf3` and `__muldf3`. One of the
significands is shifted to the left end of its word, so that the high word of the product is a
significand again and the low word is what is rounded.

## Main results

- `mulXf3_isProduct`: the product is that of IEEE 754, for all operands.
-/

namespace Cpu0Toolchain.CompilerRt
open BinaryFloat StickyBit

namespace Precision

variable (p : Precision)

/-- Zero, infinity, or NaN among the operands. -/
def mulSpecial (a b productSign : p.Rep) : Option p.Rep :=
  let aAbs := a &&& p.absMask
  let bAbs := b &&& p.absMask
  -- NaN * anything = qNaN
  if aAbs > p.infRep then some (a ||| p.quietBit)
  -- anything * NaN = qNaN
  else if bAbs > p.infRep then some (b ||| p.quietBit)
  else if aAbs = p.infRep then
    -- infinity * non-zero = +/- infinity
    if bAbs ≠ 0#p.typeWidth then some (aAbs ||| productSign)
    -- infinity * zero = NaN
    else some p.qnanRep
  else if bAbs = p.infRep then
    -- non-zero * infinity = +/- infinity
    if aAbs ≠ 0#p.typeWidth then some (bAbs ||| productSign)
    -- zero * infinity = NaN
    else some p.qnanRep
  -- zero * anything = +/- zero
  else if aAbs = 0#p.typeWidth then some productSign
  -- anything * zero = +/- zero
  else if bAbs = 0#p.typeWidth then some productSign
  else none

/-- From the check for overflow to the end. -/
def mulResult (productExponent : ℤ) (productHi productLo productSign : p.Rep) : p.Rep :=
  -- If we have overflowed the type, return +/- infinity
  if productExponent ≥ p.maxExponent then p.infRep ||| productSign
  else if productExponent ≤ 0 then
    -- Result is denormal before rounding
    let shift := (1 - productExponent).toNat
    -- If the result is so small that it just underflows to zero, return a zero
    if shift ≥ p.typeWidth then productSign
    else
      let (productHi, productLo) := p.wideRightShiftWithSticky productHi productLo shift
      p.finalRounding productLo.toNat p.signBit.toNat (productHi ||| productSign)
  else
    -- Result is normal before rounding; insert the exponent
    let productHi := productHi &&& p.significandMask
    let productHi := productHi ||| BitVec.ofInt p.typeWidth productExponent <<< p.significandBits
    p.finalRounding productLo.toNat p.signBit.toNat (productHi ||| productSign)

/-- The product of two operands that are finite and not zero. -/
def mulFinite (aExponent bExponent : BitVec 32) (scale : ℤ)
    (aSignificand bSignificand productSign : p.Rep) : p.Rep :=
  let aSignificand := aSignificand ||| p.implicitBit
  let bSignificand := bSignificand ||| p.implicitBit
  let (productHi, productLo) := p.wideMultiply aSignificand (bSignificand <<< p.exponentBits)
  let productExponent : ℤ := aExponent.toNat + bExponent.toNat - p.exponentBias + scale
  -- Normalize the significand, adjust exponent if needed
  if productHi &&& p.implicitBit ≠ 0#p.typeWidth then
    p.mulResult (productExponent + 1) productHi productLo productSign
  else
    let (productHi, productLo) := p.wideLeftShift productHi productLo 1
    p.mulResult productExponent productHi productLo productSign

/-- `__mulXf3__` -/
def mulXf3 (a b : p.Rep) : p.Rep :=
  let productSign := (a ^^^ b) &&& p.signBit
  let special := p.isSpecial a || p.isSpecial b
  match if special then p.mulSpecial a b productSign else none with
  | some result => result
  | none =>
    let (aScale, aSignificand) := p.renormalize special a
    let (bScale, bSignificand) := p.renormalize special b
    p.mulFinite (p.exponentWord a) (p.exponentWord b) (aScale + bScale) aSignificand bSignificand
      productSign

end Precision

def mulsf3 : BitVec 32 → BitVec 32 → BitVec 32 := single.mulXf3

def muldf3 : BitVec 64 → BitVec 64 → BitVec 64 := double.mulXf3

namespace Precision

variable {p : Precision}

/-! ## The result -/

theorem wide_bounds {hi : p.Rep} (lo : p.Rep) (hlow : 2 ^ p.significandBits ≤ hi.toNat)
    (hhigh : hi.toNat < 2 * 2 ^ p.significandBits) :
    2 ^ p.significandBits * 2 ^ p.typeWidth ≤ wide hi lo ∧
      wide hi lo < 2 * 2 ^ p.significandBits * 2 ^ p.typeWidth := by
  have hlo := lo.isLt
  have hle := Nat.mul_le_mul_right (2 ^ p.typeWidth) hlow
  have hlt := Nat.mul_le_mul_right (2 ^ p.typeWidth) (Nat.succ_le_of_lt hhigh)
  rw [Nat.succ_mul] at hlt
  rw [wide]
  omega

/-- The dropped bits are no more than a sticky one, and that is not the first bit of its word. -/
theorem sameSide_jam_wide (n shift : ℕ) :
    SameSide ((p.signBit.toNat : ℕ) : ℚ) (jam n shift : ℚ) (n / 2 ^ shift) := by
  obtain ⟨i, hi⟩ : 2 ∣ p.signBit.toNat := by
    rw [toNat_signBit]
    exact dvd_pow_self 2 (Nat.ne_of_gt (Nat.add_pos_left p.significandBits_pos _))
  have hside := (sameSide_jam (K := ℚ) n shift).coarsen i
  rw [hi, Nat.cast_mul, mul_comm]
  exact_mod_cast hside

/-- The product that underflows to a zero: the first bit of the low word is dropped too. -/
theorem underflow_rounded {k : ℕ} {hi lo sign : p.Rep} {negative : Bool}
    (hlt : wide hi lo < 2 * 2 ^ p.significandBits * 2 ^ p.typeWidth)
    (hsign : sign.toNat = p.signWord negative) (hzero : k + 1 ≥ p.typeWidth) {x : ℚ}
    (hx : x = wide hi lo / 2 ^ (k + 1) / (2 * (p.signBit.toNat : ℕ)) * 2 ^ 0 * p.quantum) :
    p.Rounded negative x (p.decode sign) := by
  have hsmall : jam (wide hi lo) (k + 1) < p.signBit.toNat := by
    have hbound := (jam_even_iff (wide hi lo) (k + 1) (2 ^ p.significandBits)).1.mpr
      (Nat.lt_of_lt_of_le hlt
        (Nat.mul_le_mul_left _ (Nat.pow_le_pow_right (by decide) hzero)))
    have hpow : 2 ^ p.significandBits * 2 ^ 4 ≤ p.signBit.toNat := by
      rw [toNat_signBit, Nat.pow_add]
      exact Nat.mul_le_mul_left _ (Nat.pow_le_pow_right (by decide) p.exponentBits_ge)
    omega
  have hpos := Nat.two_pow_pos p.significandBits
  refine ⟨0, ?_, ?_⟩
  · have hnearest := Format.nearest_guard (f := p.toFormat) (k := 0) (q := 0)
      (r := jam (wide hi lo) (k + 1)) (by omega) (.inl rfl) (by simpa using p.infinity_pos)
      (by omega) (by rw [Nat.zero_mul, Nat.zero_add]; exact sameSide_jam_wide _ _) hx
    rw [(cmp_eq_lt_iff _ _).mpr hsmall] at hnearest
    simpa [Format.carry] using hnearest
  · rw [decode_sign hsign, Format.datum_of_lt p.infinity_pos, p.value_zero]

/-- The product that is denormal before it is rounded. -/
theorem denormalResult_rounded {k : ℕ} {hi lo sign : p.Rep} {negative : Bool}
    (hlt : wide hi lo < 2 * 2 ^ p.significandBits * 2 ^ p.typeWidth)
    (hsign : sign.toNat = p.signWord negative) {x : ℚ}
    (hx : x = wide hi lo / 2 ^ (k + 1) / (2 * (p.signBit.toNat : ℕ)) * 2 ^ 0 * p.quantum) :
    p.Rounded negative x (p.decode (
      let (hi, lo) := p.wideRightShiftWithSticky hi lo (k + 1)
      p.finalRounding lo.toNat p.signBit.toNat (hi ||| sign))) := by
  have hhalf := signBit_half (p := p)
  have hpos := Nat.two_pow_pos p.significandBits
  have hwide := wide_rightShiftWithSticky hi lo (k + 1)
  generalize p.wideRightShiftWithSticky hi lo (k + 1) = shifted at hwide ⊢
  obtain ⟨hi', lo'⟩ := shifted
  dsimp only at hwide ⊢
  have hhi' : hi'.toNat < 2 ^ p.significandBits := by
    have hbound := (jam_even_iff (wide hi lo) (k + 1)
      (2 ^ p.significandBits * p.signBit.toNat)).1.mpr (by
        refine Nat.lt_of_lt_of_le hlt ?_
        rw [Nat.mul_left_comm 2, hhalf, Nat.mul_comm 2, Nat.mul_right_comm]
        exact Nat.mul_le_mul_left _ (Nat.le_self_pow (Nat.succ_ne_zero k) 2))
    rw [← hwide, wide, Nat.mul_left_comm, hhalf] at hbound
    exact Nat.lt_of_mul_lt_mul_right (Nat.lt_of_le_of_lt (Nat.le_add_right _ _) hbound)
  have hresult : (hi' ||| sign).toNat =
      p.signWord negative + (0 * 2 ^ p.significandBits + hi'.toNat) := by
    have hfits : 2 ^ p.significandBits ≤ 2 ^ (p.significandBits + p.exponentBits) :=
      Nat.pow_le_pow_right (by decide) (Nat.le_add_right _ _)
    rw [toNat_or_sign (by omega) hsign, Nat.zero_mul, Nat.zero_add]
  refine rounded_finalRounding (k := 0) (q := hi'.toNat) (by omega) (.inl rfl) ?_
    (by rw [hhalf]; exact lo'.isLt) ?_ hx hresult
  · exact pack_lt (E := 0) (by omega) (Nat.lt_of_succ_lt p.one_lt_maxExponent)
  · rw [hhalf, ← wide, hwide]
    exact sameSide_jam_wide _ _

/-- The product that is normal before it is rounded. -/
theorem normalResult_rounded {j : ℕ} {hi lo sign : p.Rep} {negative : Bool}
    (hlow : 2 ^ p.significandBits ≤ hi.toNat) (hhigh : hi.toNat < 2 * 2 ^ p.significandBits)
    (hsign : sign.toNat = p.signWord negative) (hj : j + 1 < p.maxExponent) :
    p.Rounded negative (wide hi lo / 2 ^ p.typeWidth * 2 ^ j * p.quantum)
      (p.decode (p.finalRounding lo.toNat p.signBit.toNat ((hi &&& p.significandMask |||
        BitVec.ofInt p.typeWidth (j + 1 : ℕ) <<< p.significandBits) ||| sign))) := by
  have hhalf := signBit_half (p := p)
  have hhalf' : (2 * (p.signBit.toNat : ℕ) : ℚ) = 2 ^ p.typeWidth := by exact_mod_cast hhalf
  have hmax := p.maxExponent_eq
  have hpack := pack_lt (p := p) (E := j + 1) hhigh (by omega)
  have hexponent := toNat_or_exponent (a := hi &&& p.significandMask) (E := j + 1)
    (by rw [toNat_and_significandMask]; exact Nat.mod_lt _ (Nat.two_pow_pos _)) (by omega)
  rw [toNat_and_significandMask, pack_eq hhigh (Nat.succ_pos j) hlow] at hexponent
  refine rounded_finalRounding (k := j) (q := hi.toNat) (y := wide hi lo) hhigh (.inr hlow) hpack
    (by rw [hhalf]; exact lo.isLt) ?_ (by rw [hhalf']) ?_
  · rw [hhalf, ← wide]
    exact SameSide.refl _ _
  · rw [toNat_or_sign (by rw [hexponent]; exact hpack.trans p.infinity_lt) hsign, hexponent]
    rfl

theorem mulResult_rounded {E : ℤ} (hi lo : p.Rep) {sign : p.Rep} {negative : Bool}
    (hlow : 2 ^ p.significandBits ≤ hi.toNat) (hhigh : hi.toNat < 2 * 2 ^ p.significandBits)
    (hsign : sign.toNat = p.signWord negative) :
    p.Rounded negative (wide hi lo / 2 ^ p.typeWidth * 2 ^ (E - 1) * p.quantum)
      (p.decode (p.mulResult E hi lo sign)) := by
  obtain ⟨hle, hlt⟩ := wide_bounds lo hlow hhigh
  rw [mulResult]
  by_cases hover : E ≥ p.maxExponent
  · rw [if_pos hover]
    refine rounded_overflow hover ?_ hsign
    rw [le_div_iff₀ (by positivity)]
    exact_mod_cast hle
  rw [if_neg hover]
  by_cases hdenormal : E ≤ 0
  · obtain ⟨k, hk⟩ := Int.eq_ofNat_of_zero_le (sub_nonneg.mpr hdenormal)
    obtain rfl : E = -k := by omega
    have hshift : (1 - -(k : ℤ)).toNat = k + 1 := by omega
    have hx : (wide hi lo : ℚ) / 2 ^ p.typeWidth * 2 ^ (-(k : ℤ) - 1) * p.quantum =
        wide hi lo / 2 ^ (k + 1) / (2 * (p.signBit.toNat : ℕ)) * 2 ^ 0 * p.quantum := by
      have hhalf' : (2 * (p.signBit.toNat : ℕ) : ℚ) = 2 ^ p.typeWidth := by
        exact_mod_cast signBit_half (p := p)
      have hneg : -(k : ℤ) - 1 = -((k + 1 : ℕ) : ℤ) := by omega
      rw [hneg, zpow_neg, zpow_natCast, hhalf']
      ring
    rw [if_pos hdenormal]
    dsimp only
    rw [hshift]
    by_cases hzero : k + 1 ≥ p.typeWidth
    · rw [if_pos hzero]
      exact underflow_rounded hlt hsign hzero hx
    · rw [if_neg hzero]
      exact denormalResult_rounded hlt hsign hx
  · obtain ⟨k, rfl⟩ := Int.eq_ofNat_of_zero_le (Int.le_of_lt (Int.not_le.mp hdenormal))
    obtain ⟨j, rfl⟩ := Nat.exists_eq_add_of_le' (show 0 < k by omega)
    rw [if_neg hdenormal, Nat.cast_succ, add_sub_cancel_right, zpow_natCast]
    exact normalResult_rounded hlow hhigh hsign (by omega)

/-! ## The product -/

theorem quantum_eq : (2 : ℚ) ^ (2 - p.exponentBias : ℤ) / 2 ^ (p.significandBits + 1) =
    p.quantum := by
  have hpos := p.significandBits_pos
  rw [exponentBias_eq, Format.quantum, div_eq_iff (by positivity), one_div,
    ← zpow_natCast, ← zpow_natCast, ← zpow_neg, ← zpow_add₀ two_ne_zero]
  congr 1
  omega

theorem two_pow_parts :
    2 ^ p.typeWidth = 2 * (2 ^ p.significandBits * 2 ^ p.exponentBits) := by
  rw [two_pow_typeWidth, Nat.pow_add]

/-- The double word stands for the product of the two numbers. -/
theorem product_exact {hi lo : p.Rep} {na nb : ℕ} (e scale : ℤ)
    (hwide : wide hi lo = na * (nb * 2 ^ p.exponentBits)) :
    (wide hi lo : ℚ) / 2 ^ p.typeWidth * 2 ^ (e - p.exponentBias + scale) * p.quantum =
      na * nb * 2 ^ (e + scale - 2) * p.quantum * p.quantum := by
  have hexp : (2 : ℚ) ^ (e - p.exponentBias + scale) =
      2 ^ (e + scale - 2) * 2 ^ (2 - p.exponentBias : ℤ) := by
    rw [← zpow_add₀ two_ne_zero]
    congr 1
    ring
  have hquantum := p.quantum_eq
  rw [div_eq_iff (by positivity)] at hquantum
  rw [hwide, hexp, hquantum, typeWidth_eq, pow_succ, pow_add]
  push_cast
  field_simp
  ring

/-- The product of two significands has its first bit in one of two places. -/
theorem product_bounds {na nb : ℕ}
    (hlowa : 2 ^ p.significandBits ≤ na) (hhigha : na < 2 * 2 ^ p.significandBits)
    (hlowb : 2 ^ p.significandBits ≤ nb) (hhighb : nb < 2 * 2 ^ p.significandBits) :
    2 ^ p.significandBits * 2 ^ p.typeWidth ≤ 2 * (na * (nb * 2 ^ p.exponentBits)) ∧
      na * (nb * 2 ^ p.exponentBits) < 2 * 2 ^ p.significandBits * 2 ^ p.typeWidth := by
  constructor
  · have hle := Nat.mul_le_mul (Nat.mul_le_mul hlowa hlowb) (le_refl (2 * 2 ^ p.exponentBits))
    have hmul : 2 * (na * (nb * 2 ^ p.exponentBits)) = na * nb * (2 * 2 ^ p.exponentBits) := by ring
    rw [hmul]
    refine le_trans (le_of_eq ?_) hle
    rw [two_pow_parts]
    ring
  · have hlt := Nat.mul_lt_mul_of_pos_right (Nat.mul_lt_mul'' hhigha hhighb)
      (Nat.two_pow_pos p.exponentBits)
    rw [← Nat.mul_assoc]
    refine lt_of_lt_of_eq hlt ?_
    rw [two_pow_parts]
    ring

theorem mulFinite_rounded (ea eb : BitVec 32) (scale : ℤ) {sa sb sign : p.Rep} {na nb : ℕ}
    {negative : Bool} (ha : ((sa ||| p.implicitBit) : p.Rep).toNat = na)
    (hb : ((sb ||| p.implicitBit) : p.Rep).toNat = nb)
    (hlowa : 2 ^ p.significandBits ≤ na) (hhigha : na < 2 * 2 ^ p.significandBits)
    (hlowb : 2 ^ p.significandBits ≤ nb) (hhighb : nb < 2 * 2 ^ p.significandBits)
    (hsign : sign.toNat = p.signWord negative) :
    p.Rounded negative (na * nb * 2 ^ (ea.toNat + eb.toNat + scale - 2 : ℤ) * p.quantum * p.quantum)
      (p.decode (p.mulFinite ea eb scale sa sb sign)) := by
  have hpow := two_pow_parts (p := p)
  have hshift : ((sb ||| p.implicitBit) <<< p.exponentBits).toNat = nb * 2 ^ p.exponentBits := by
    rw [toNat_shiftLeft_of_lt, hb]
    rw [hb, hpow, ← Nat.mul_assoc]
    exact Nat.mul_lt_mul_of_pos_right hhighb (Nat.two_pow_pos _)
  have hproduct := p.wideMultiply_spec (sa ||| p.implicitBit)
    ((sb ||| p.implicitBit) <<< p.exponentBits)
  rw [ha, hshift] at hproduct
  obtain ⟨hi, lo, hwords⟩ : ∃ hi lo, p.wideMultiply (sa ||| p.implicitBit)
      ((sb ||| p.implicitBit) <<< p.exponentBits) = (hi, lo) := ⟨_, _, rfl⟩
  rw [hwords] at hproduct
  simp only [mulFinite, hwords]
  have hwide : wide hi lo = na * (nb * 2 ^ p.exponentBits) := hproduct
  have hword := Nat.two_pow_pos p.typeWidth
  obtain ⟨hlow, hhigh⟩ := product_bounds hlowa hhigha hlowb hhighb
  rw [← hwide] at hlow hhigh
  have hexact := product_exact (ea.toNat + eb.toNat) scale hwide
  have hhi : hi.toNat < 2 * 2 ^ p.significandBits := by
    rw [wide_high hi lo]
    exact (Nat.div_lt_iff_lt_mul hword).mpr hhigh
  by_cases hbit : hi &&& p.implicitBit ≠ 0#p.typeWidth
  · rw [if_pos hbit]
    rw [and_bit_ne_zero p.toNat_implicitBit (by rwa [Nat.pow_succ'])] at hbit
    rw [← hexact]
    have hresult := mulResult_rounded (E := ea.toNat + eb.toNat - p.exponentBias + scale + 1)
      hi lo hbit hhi hsign
    rwa [add_sub_cancel_right] at hresult
  · rw [if_neg hbit]
    rw [and_bit_ne_zero p.toNat_implicitBit (by rwa [Nat.pow_succ']), Nat.not_le] at hbit
    have hdouble : 2 * hi.toNat < 2 ^ p.typeWidth := by
      have := Nat.mul_le_mul_left (2 ^ p.significandBits) (Nat.two_pow_pos p.exponentBits)
      omega
    have hshifted := wideLeftShift_one hi lo hdouble
    generalize p.wideLeftShift hi lo 1 = shifted at hshifted ⊢
    obtain ⟨hi', lo'⟩ := shifted
    dsimp only at hshifted ⊢
    have hsmall : wide hi lo < 2 ^ p.significandBits * 2 ^ p.typeWidth := by
      rw [wide_high hi lo, Nat.div_lt_iff_lt_mul hword] at hbit
      exact hbit
    have hresult := mulResult_rounded (E := ea.toNat + eb.toNat - p.exponentBias + scale)
      hi' lo' ?_ ?_ hsign
    · rw [← hexact]
      convert hresult using 1
      rw [hshifted, zpow_sub_one₀ two_ne_zero]
      push_cast
      ring
    · rw [wide_high hi' lo', Nat.le_div_iff_mul_le hword, hshifted]
      exact hlow
    · rw [wide_high hi' lo', Nat.div_lt_iff_lt_mul hword, hshifted, Nat.mul_assoc]
      exact Nat.mul_lt_mul_of_pos_left hsmall two_pos

theorem mulSpecial_isProduct (a b : p.Rep) :
    match p.mulSpecial a b ((a ^^^ b) &&& p.signBit) with
    | some result => p.IsProduct (p.decode a) (p.decode b) (p.decode result)
    | none => (0 < p.magnitude a ∧ p.magnitude a < p.infinity) ∧
        0 < p.magnitude b ∧ p.magnitude b < p.infinity := by
  have hsign := toNat_xor_sign a b
  generalize (a ^^^ b) &&& p.signBit = sign at hsign ⊢
  have hinfinite : ∀ c : p.Rep, p.magnitude c = p.infinity → c &&& p.absMask = p.infRep :=
    fun c => abs_eq_infRep.mpr
  simp only [mulSpecial, abs_gt_infRep, abs_eq_infRep, ne_eq, abs_eq_zero]
  by_cases hnana : p.infinity < p.magnitude a
  · rw [if_pos hnana]
    dsimp only
    rw [decode_quiet hnana, Format.decode_nan hnana]
    rfl
  rw [if_neg hnana]
  by_cases hnanb : p.infinity < p.magnitude b
  · rw [if_pos hnanb]
    dsimp only
    rw [decode_quiet hnanb, Format.decode_nan hnanb]
    exact Format.isProduct_nan _
  rw [if_neg hnanb]
  by_cases hinfa : p.magnitude a = p.infinity
  · rw [if_pos hinfa, Format.decode_infinite hinfa, hinfinite a hinfa]
    by_cases hzerob : p.magnitude b = 0
    · rw [if_neg (not_not.mpr hzerob)]
      dsimp only
      rw [decode_qnanRep, Format.decode_eq_zero hzerob]
      exact (if_pos rfl).symm
    · rw [if_pos hzerob]
      dsimp only
      rw [decode_infinity_or_sign hsign]
      by_cases hinfb : p.magnitude b = p.infinity
      · rw [Format.decode_infinite hinfb]
        rfl
      · rw [Format.decode_finite (by omega)]
        exact Format.isProduct_infinite (Format.value_pos (Nat.pos_of_ne_zero hzerob)).ne'
  rw [if_neg hinfa]
  by_cases hinfb : p.magnitude b = p.infinity
  · rw [if_pos hinfb, Format.decode_infinite hinfb, hinfinite b hinfb]
    by_cases hzeroa : p.magnitude a = 0
    · rw [if_neg (not_not.mpr hzeroa)]
      dsimp only
      rw [decode_qnanRep, Format.decode_eq_zero hzeroa]
      exact (if_pos rfl).symm
    · rw [if_pos hzeroa]
      dsimp only
      rw [decode_infinity_or_sign hsign, Format.decode_finite (by omega), Bool.xor_comm]
      exact (Format.isProduct_infinite (Format.value_pos (Nat.pos_of_ne_zero hzeroa)).ne').symm
  rw [if_neg hinfb]
  by_cases hzeroa : p.magnitude a = 0
  · rw [if_pos hzeroa]
    dsimp only
    rw [decode_sign hsign, Format.decode_eq_zero hzeroa, Format.decode_finite (by omega)]
    exact Format.isProduct_zero _ _ _
  rw [if_neg hzeroa]
  by_cases hzerob : p.magnitude b = 0
  · rw [if_pos hzerob]
    dsimp only
    rw [decode_sign hsign, Format.decode_eq_zero hzerob, Format.decode_finite (by omega),
      Bool.xor_comm]
    exact (Format.isProduct_zero _ _ _).symm
  · rw [if_neg hzerob]
    dsimp only
    omega

theorem mulXf3_isProduct (a b : p.Rep) :
    p.IsProduct (p.decode a) (p.decode b) (p.decode (p.mulXf3 a b)) := by
  refine special_or_renormalized
    (fun result => p.IsProduct (p.decode a) (p.decode b) (p.decode result))
    (fun aScale sa bScale sb => p.mulFinite (p.exponentWord a) (p.exponentWord b) (aScale + bScale)
      sa sb ((a ^^^ b) &&& p.signBit))
    (mulSpecial_isProduct a b) ?_
  intro ha hb aScale sa na bScale sb nb hna hnb
  rw [Format.decode_finite ha.2, Format.decode_finite hb.2]
  have hrounded := mulFinite_rounded (p.exponentWord a) (p.exponentWord b) (aScale + bScale)
    hna.significand_eq hnb.significand_eq hna.low hna.high hnb.low hnb.high (toNat_xor_sign a b)
  change p.Rounded _ (p.value (p.magnitude a) * p.value (p.magnitude b)) _
  convert hrounded using 1
  have hexp : (2 : ℚ) ^ ((p.exponentWord a).toNat + (p.exponentWord b).toNat +
      (aScale + bScale) - 2 : ℤ) = 2 ^ ((p.exponentWord a).toNat + aScale - 1 : ℤ) *
        2 ^ ((p.exponentWord b).toNat + bScale - 1 : ℤ) := by
    rw [← zpow_add₀ two_ne_zero]
    congr 1
    ring
  rw [hna.value_eq, hnb.value_eq, hexp]
  ring

end Precision

/-- The products of both precisions are those of IEEE 754, for all operands. -/
theorem multiplication_isProduct :
    (∀ a b, single.IsProduct (single.decode a) (single.decode b) (single.decode (mulsf3 a b))) ∧
      ∀ a b, double.IsProduct (double.decode a) (double.decode b) (double.decode (muldf3 a b)) :=
  ⟨Precision.mulXf3_isProduct, Precision.mulXf3_isProduct⟩

end Cpu0Toolchain.CompilerRt
