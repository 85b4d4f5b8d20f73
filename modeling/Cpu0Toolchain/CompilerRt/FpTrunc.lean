import Cpu0Toolchain.CompilerRt.FpExtend

/-!
# Narrowing a floating-point number

`fp_trunc.h`, `fp_trunc_impl.inc` and `truncdfsf2.c`. One magnitude is in no case of the function:
it is not above `overflow`, and its exponent is not in the range of the destination either, so that
the shift amount for the denormalization is negative. What such a shift does is undefined.

## Main results

- `truncXfYf2_isConversion`: the result is rounded as IEEE 754 has it.
- `truncdfsf2_isConversion`: from double to single precision it is undefined for 2 ^ 128 and
  -2 ^ 128, and for no other number.
- `truncdfsf2_extendsfdf2`: widening and narrowing gives the number back.
-/

namespace Cpu0Toolchain.CompilerRt
open BinaryFloat StickyBit

namespace Precision

variable (p q : Precision)

/-- `underflow`, the least magnitude that is a normal number of the destination. -/
def truncUnderflow : p.Rep :=
  BitVec.ofNat p.typeWidth (p.exponentBias + 1 - q.exponentBias) <<< p.significandBits

/-- `overflow`, the magnitude behind the largest number of the destination. -/
def truncOverflow : p.Rep :=
  BitVec.ofNat p.typeWidth (p.exponentBias + q.maxExponent - q.exponentBias) <<< p.significandBits

/-- `roundMask` -/
def truncMask : p.Rep :=
  1#p.typeWidth <<< (p.significandBits - q.significandBits) - 1#p.typeWidth

/-- `halfway` -/
def truncHalfway : p.Rep := 1#p.typeWidth <<< (p.significandBits - q.significandBits - 1)

/-- `absResult`, or nothing where a shift amount is negative. -/
def truncAbs (a : p.Rep) : Option q.Rep :=
  let aAbs := a &&& p.absMask
  if aAbs - p.truncUnderflow q < aAbs - p.truncOverflow q then
    -- The exponent of a is within the range of normal numbers in the destination format
    let absResult := (aAbs >>> (p.significandBits - q.significandBits)).setWidth q.typeWidth
    let absResult := absResult -
      BitVec.ofNat q.typeWidth (p.exponentBias - q.exponentBias) <<< q.significandBits
    let roundBits := aAbs &&& p.truncMask q
    some (q.finalRounding roundBits.toNat (p.truncHalfway q).toNat absResult)
  else if aAbs > p.exponentInfinity then
    -- a is NaN
    let absResult := q.exponentInfinity ||| q.qnanBit
    some (absResult ||| (((aAbs &&& p.nanCode) >>>
      (p.significandBits - q.significandBits)).setWidth q.typeWidth &&& q.nanCode))
  else if aAbs > p.truncOverflow q then
    -- a overflows to infinity
    some q.exponentInfinity
  else
    -- a underflows on conversion to the destination type or is an exact zero
    let aExp := (aAbs >>> p.significandBits).toNat
    let shift : ℤ := p.exponentBias - q.exponentBias - aExp + 1
    let significand := (a &&& p.significandMask) ||| p.implicitBit
    if shift > p.significandBits then some 0#q.typeWidth
    else if shift ≤ 0 then none
    else
      let sticky := significand <<< (p.typeWidth - shift.toNat) != 0#p.typeWidth
      let denormalizedSignificand := significand >>> shift.toNat ||| p.ofBool sticky
      let absResult := (denormalizedSignificand >>>
        (p.significandBits - q.significandBits)).setWidth q.typeWidth
      let roundBits := denormalizedSignificand &&& p.truncMask q
      some (q.finalRounding roundBits.toNat (p.truncHalfway q).toNat absResult)

/-- `__truncXfYf2__` -/
def truncXfYf2 (a : p.Rep) : Option q.Rep :=
  let sign := a &&& p.signBit
  -- Apply the signbit to (dst_t)abs(a)
  (p.truncAbs q a).map fun absResult =>
    absResult ||| (sign >>> (p.typeWidth - q.typeWidth)).setWidth q.typeWidth

end Precision

def truncdfsf2 : BitVec 64 → Option (BitVec 32) := double.truncXfYf2 single

/-- Two subtractions modulo the width, compared with each other. -/
theorem sub_lt_sub_left_iff {w : ℕ} {x lo hi : BitVec w} (h : lo.toNat < hi.toNat) :
    x - lo < x - hi ↔ lo.toNat ≤ x.toNat ∧ x.toNat < hi.toNat := by
  have hx := x.isLt
  have hhi := hi.isLt
  rw [BitVec.lt_def]
  by_cases hle : hi.toNat ≤ x.toNat
  · rw [BitVec.toNat_sub_of_le (BitVec.le_def.mpr hle),
      BitVec.toNat_sub_of_le (BitVec.le_def.mpr (by omega))]
    omega
  · rw [BitVec.toNat_sub x hi, Nat.mod_eq_of_lt (by omega)]
    by_cases hlo : lo.toNat ≤ x.toNat
    · rw [BitVec.toNat_sub_of_le (BitVec.le_def.mpr hlo)]
      omega
    · rw [BitVec.toNat_sub x lo, Nat.mod_eq_of_lt (by omega)]
      omega

/-- A subtraction modulo a width that the minuend does not fit. -/
theorem toNat_setWidth_sub {v w : ℕ} {x : BitVec v} {c s r : ℕ} (h : x.toNat = c * 2 ^ s + r)
    (hr : r < 2 ^ w) : (x.setWidth w - BitVec.ofNat w c <<< s).toNat = r := by
  have hshift : BitVec.ofNat w c <<< s = BitVec.ofNat w (c * 2 ^ s) := by
    apply BitVec.eq_of_toNat_eq
    rw [BitVec.toNat_shiftLeft, BitVec.toNat_ofNat, BitVec.toNat_ofNat, Nat.shiftLeft_eq,
      Nat.mod_mul_mod]
  rw [← BitVec.ofNat_toNat, h, hshift, Nat.add_comm, BitVec.ofNat_add, BitVec.add_sub_cancel,
    BitVec.toNat_ofNat, Nat.mod_eq_of_lt hr]

namespace Precision

variable {p q : Precision}

/-! ## The constants -/

theorem toNat_truncHalfway (p q : Precision) :
    (p.truncHalfway q).toNat = 2 ^ (p.significandBits - q.significandBits - 1) := by
  have hlt : 2 ^ (p.significandBits - q.significandBits - 1) < 2 ^ p.typeWidth :=
    Nat.pow_lt_pow_right (by decide) (by rw [typeWidth_eq]; omega)
  rw [truncHalfway, toNat_shiftLeft_of_lt (by rwa [toNat_oneRep, Nat.one_mul]), toNat_oneRep,
    Nat.one_mul]

/-- The bits below the significand of the destination. -/
theorem toNat_and_truncMask (a : p.Rep) (q : Precision) : (a &&& p.truncMask q).toNat =
    a.toNat % 2 ^ (p.significandBits - q.significandBits) := by
  have hlt : 2 ^ (p.significandBits - q.significandBits) < 2 ^ p.typeWidth :=
    Nat.pow_lt_pow_right (by decide) (by rw [typeWidth_eq]; omega)
  have hbit : (1#p.typeWidth <<< (p.significandBits - q.significandBits)).toNat =
      2 ^ (p.significandBits - q.significandBits) := by
    rw [toNat_shiftLeft_of_lt (by rwa [toNat_oneRep, Nat.one_mul]), toNat_oneRep, Nat.one_mul]
  have hmask : (p.truncMask q).toNat = 2 ^ (p.significandBits - q.significandBits) - 1 := by
    rw [truncMask, BitVec.toNat_sub_of_le, hbit, toNat_oneRep]
    rw [BitVec.le_def, hbit, toNat_oneRep]
    exact Nat.two_pow_pos _
  rw [BitVec.toNat_and, hmask, Nat.and_two_pow_sub_one_eq_mod]

/-- A quiet NaN is a NaN. -/
theorem quiet_bounds (p : Precision) {m n : ℕ}
    (h : m = p.infinity + 2 ^ (p.significandBits - 1) + n % 2 ^ (p.significandBits - 1)) :
    p.infinity < m ∧ m < 2 ^ (p.significandBits + p.exponentBits) := by
  have htop := p.two_pow_eq_infinity_add
  have hpos := Nat.two_pow_pos (p.significandBits - 1)
  have hmod := Nat.mod_lt n hpos
  have hdouble : 2 ^ p.significandBits = 2 * 2 ^ (p.significandBits - 1) := by
    rw [← Nat.pow_succ', Nat.succ_eq_add_one, Nat.sub_add_cancel p.significandBits_pos]
  omega

/-- The least quiet NaN. -/
theorem toNat_infinity_or_qnanBit (p : Precision) :
    (p.exponentInfinity ||| p.qnanBit).toNat = p.infinity + 2 ^ (p.significandBits - 1) := by
  have hlt : 2 ^ (p.significandBits - 1) < 2 ^ p.significandBits :=
    Nat.pow_lt_pow_right (by decide) (Nat.sub_lt p.significandBits_pos one_pos)
  rw [BitVec.toNat_or, toNat_exponentInfinity, toNat_qnanBit, infinity_eq, Nat.mul_comm,
    Nat.two_pow_add_eq_or_of_lt hlt]

theorem msb_or_qnanBit (a : p.Rep) : (a ||| p.qnanBit).msb = a.msb := by
  have hmsb : p.qnanBit.msb = false := by
    have hlt : p.significandBits - 1 < p.significandBits + p.exponentBits :=
      Nat.lt_of_lt_of_le (Nat.sub_lt p.significandBits_pos one_pos) (Nat.le_add_right _ _)
    rw [BitVec.msb_eq_false_iff_two_mul_lt, toNat_qnanBit, two_pow_typeWidth]
    exact Nat.mul_lt_mul_of_pos_left (Nat.pow_lt_pow_right (by decide) hlt) two_pos
  rw [BitVec.msb_or, hmsb, Bool.or_false]

theorem magnitude_or_qnanBit {a : p.Rep} (hle : p.infinity ≤ p.magnitude a) :
    p.magnitude (a ||| p.qnanBit) =
      p.infinity + 2 ^ (p.significandBits - 1) + p.magnitude a % 2 ^ (p.significandBits - 1) := by
  have htop := p.two_pow_eq_infinity_add
  have hlt := Format.magnitude_lt (f := p.toFormat) a
  obtain ⟨e, he⟩ := Nat.exists_eq_add_of_le' p.significandBits_pos
  have hdouble : 2 ^ p.significandBits = 2 * 2 ^ e := by rw [he, Nat.pow_succ']
  have hinf : p.infinity = 2 ^ p.significandBits * p.maxExponent := by
    rw [infinity_eq, Nat.mul_comm]
  obtain ⟨payload, hpayload⟩ := Nat.exists_eq_add_of_le hle
  have hsmall : payload < 2 ^ p.significandBits := by omega
  have hquiet : payload % 2 ^ e + 2 ^ e < 2 ^ p.significandBits := by
    have := Nat.mod_lt payload (Nat.two_pow_pos e)
    omega
  have hmod : p.magnitude a % 2 ^ e = payload % 2 ^ e := by
    rw [hpayload, hinf, hdouble, Nat.mul_comm 2, Nat.mul_assoc, Nat.mul_add_mod]
  have hor : p.magnitude (a ||| p.qnanBit) = p.magnitude a ||| 2 ^ e := by
    have hbit : 2 ^ e < 2 ^ (p.significandBits + p.exponentBits) :=
      Nat.pow_lt_pow_right (by decide) (by omega)
    rw [Format.magnitude, BitVec.toNat_or, toNat_qnanBit, he, Nat.add_sub_cancel, ← he,
      Nat.or_mod_two_pow, Nat.mod_eq_of_lt hbit]
    rfl
  rw [hor, he, Nat.add_sub_cancel, hmod, hpayload, hinf, Nat.two_pow_add_eq_or_of_lt hsmall,
    Nat.or_assoc, or_two_pow (n := payload) (by omega), ← Nat.two_pow_add_eq_or_of_lt hquiet]
  omega

namespace Wider

variable (h : q.Wider p)

include h

theorem toNat_truncUnderflow : (p.truncUnderflow q).toNat =
    (p.exponentBias - q.exponentBias + 1) * 2 ^ p.significandBits := by
  have hbias := h.exponentBias_le
  have hmax := p.maxExponent_bias
  rw [truncUnderflow, toNat_ofExponent (by omega), Nat.sub_add_comm (by omega)]

theorem toNat_truncOverflow : (p.truncOverflow q).toNat =
    (p.exponentBias - q.exponentBias + q.maxExponent) * 2 ^ p.significandBits := by
  have hbias := h.exponentBias_le
  have hmax := p.maxExponent_bias
  have hmax' := q.maxExponent_bias
  rw [truncOverflow, toNat_ofExponent (by omega), Nat.sub_add_comm (by omega)]

theorem truncUnderflow_lt : (p.truncUnderflow q).toNat < (p.truncOverflow q).toNat := by
  have hmax := q.one_lt_maxExponent
  rw [h.toNat_truncUnderflow, h.toNat_truncOverflow]
  exact Nat.mul_lt_mul_of_pos_right (by omega) (Nat.two_pow_pos _)

theorem truncOverflow_lt : (p.truncOverflow q).toNat < p.infinity := by
  have hbias := h.exponentBias_le
  have hpos := q.significandBits_pos
  have hmax := p.maxExponent_bias
  have hmax' := q.maxExponent_bias
  rw [h.toNat_truncOverflow, infinity_eq]
  exact Nat.mul_lt_mul_of_pos_right (by omega) (Nat.two_pow_pos _)

theorem two_mul_halfway : 2 * 2 ^ (p.significandBits - q.significandBits - 1) =
    2 ^ (p.significandBits - q.significandBits) := by
  have hguard := h.guard_lt
  rw [← Nat.pow_succ', Nat.succ_eq_add_one, Nat.sub_add_cancel (by omega)]

/-! ## The cases -/

variable {a : p.Rep}

omit h in
theorem div_mod_digits {m k n s t : ℕ} (hm : m = k * (s * t) + n) (ht : 0 < t) :
    m / t = k * s + n / t ∧ m % t = n % t := by
  rw [hm, ← Nat.mul_assoc, Nat.mul_comm _ t]
  exact ⟨Nat.mul_add_div ht _ _, Nat.mul_add_mod _ _ _⟩

/-- The range of the normal numbers of the destination. -/
theorem normal_nearest (hlow : (p.truncUnderflow q).toNat ≤ p.magnitude a)
    (hhigh : p.magnitude a < (p.truncOverflow q).toNat) :
    q.Nearest (p.value (p.magnitude a)) (q.finalRounding ((a &&& p.absMask) &&& p.truncMask q).toNat
      (p.truncHalfway q).toNat
      (((a &&& p.absMask) >>> (p.significandBits - q.significandBits)).setWidth q.typeWidth -
        BitVec.ofNat q.typeWidth (p.exponentBias - q.exponentBias) <<< q.significandBits)).toNat := by
  have hquantum := h.quantum_eq
  have hhalf := h.two_mul_halfway
  have hinf := q.infinity_eq
  have hinf' := q.infinity_lt
  have hwidth := two_pow_typeWidth (p := q)
  rw [h.toNat_truncUnderflow] at hlow
  rw [h.toNat_truncOverflow] at hhigh
  rw [toNat_and_truncMask, toNat_truncHalfway, toNat_and_absMask]
  obtain ⟨D, hD⟩ : ∃ D, p.exponentBias - q.exponentBias = D := ⟨_, rfl⟩
  obtain ⟨d, hd⟩ : ∃ d, p.significandBits - q.significandBits = d := ⟨_, rfl⟩
  have hpow : 2 ^ p.significandBits = 2 ^ q.significandBits * 2 ^ d := by
    rw [← Nat.pow_add, ← hd, Nat.add_sub_cancel' h.significandBits_lt.le]
  rw [hD] at hlow hhigh hquantum ⊢
  rw [hd] at hhalf hquantum ⊢
  obtain ⟨k, n, hm, hn, hnormal⟩ := p.exists_pack_of_le
    ((Nat.le_mul_of_pos_left _ (Nat.succ_pos D)).trans hlow)
  -- the exponent is at least that of the least normal number of the destination
  have hDk : D ≤ k := by
    by_contra hlt
    have hmul := Nat.mul_le_mul_right (2 ^ p.significandBits) (Nat.not_le.mp hlt)
    rw [Nat.succ_mul] at hmul
    rw [Nat.succ_mul, hm] at hlow
    omega
  obtain ⟨j, rfl⟩ := Nat.exists_eq_add_of_le hDk
  rw [hpow] at hm
  obtain ⟨hshift, hmod⟩ := div_mod_digits hm (Nat.two_pow_pos d)
  rw [Nat.add_mul, Nat.add_assoc] at hshift
  rw [← hpow] at hm
  have hlt : j * 2 ^ q.significandBits + n / 2 ^ d < q.infinity := by
    have hdiv : p.magnitude a / 2 ^ d < (D + q.maxExponent) * 2 ^ q.significandBits := by
      apply Nat.div_lt_of_lt_mul
      rwa [Nat.mul_left_comm, Nat.mul_comm (2 ^ d), ← hpow]
    rw [hshift, Nat.add_mul] at hdiv
    omega
  have hsplit := Nat.div_add_mod' n (2 ^ d)
  have hresult := toNat_setWidth_sub (w := q.typeWidth)
    (x := (a &&& p.absMask) >>> d) (c := D) (s := q.significandBits)
    (r := j * 2 ^ q.significandBits + n / 2 ^ d)
    (by rw [BitVec.toNat_ushiftRight, toNat_and_absMask, Nat.shiftRight_eq_div_pow, hshift])
    (by omega)
  rw [hmod]
  refine nearest_finalRounding (y := n) ?_ (.inr ?_) hlt ?_ ?_ ?_ hresult
  · apply Nat.div_lt_of_lt_mul
    rwa [Nat.mul_comm, Nat.mul_assoc, ← hpow]
  · rwa [Nat.le_div_iff_mul_le (Nat.two_pow_pos d), ← hpow]
  · rw [hhalf]
    exact Nat.mod_lt _ (Nat.two_pow_pos d)
  · rw [hhalf, hsplit]
    exact SameSide.refl _ _
  · have hcast : (2 : ℚ) * (2 ^ (d - 1) : ℕ) = 2 ^ d := by exact_mod_cast hhalf
    rw [hm, p.value_pack hn (.inr hnormal), hcast, hquantum]
    field_simp
    ring

/-- The range of its denormal numbers. -/
theorem denormal_nearest {k n s : ℕ} (hm : p.magnitude a = k * 2 ^ p.significandBits + n)
    (hlow : 2 ^ p.significandBits ≤ n) (hhigh : n < 2 * 2 ^ p.significandBits)
    (hs : k + s = p.exponentBias - q.exponentBias) (hpos : 0 < s)
    {significand : p.Rep} (hsignificand : significand.toNat = n) :
    q.Nearest (p.value (p.magnitude a)) (q.finalRounding
      ((significand >>> s ||| p.ofBool (significand <<< (p.typeWidth - s) != 0#p.typeWidth)) &&&
        p.truncMask q).toNat
      (p.truncHalfway q).toNat
      (((significand >>> s |||
        p.ofBool (significand <<< (p.typeWidth - s) != 0#p.typeWidth)) >>>
          (p.significandBits - q.significandBits)).setWidth q.typeWidth)).toNat := by
  have hquantum := h.quantum_eq
  have hhalf := h.two_mul_halfway
  have hguard := h.guard_lt
  have hinf := q.infinity_eq
  have hmax := q.one_lt_maxExponent
  have hwidth := two_pow_typeWidth (p := q)
  rw [toNat_and_truncMask, toNat_truncHalfway, toNat_shift_sticky, hsignificand]
  obtain ⟨d, hd⟩ : ∃ d, p.significandBits - q.significandBits = d := ⟨_, rfl⟩
  obtain ⟨e, he⟩ := Nat.exists_eq_add_of_le' (show 2 ≤ d by omega)
  have hpow : 2 ^ p.significandBits = 2 ^ q.significandBits * 2 ^ d := by
    rw [← Nat.pow_add, ← hd, Nat.add_sub_cancel' h.significandBits_lt.le]
  have hsplit := Nat.div_add_mod' (jam n s) (2 ^ d)
  have hjam : jam n s < 2 ^ p.significandBits := by
    have hdouble : 2 ^ p.significandBits = 2 * 2 ^ (p.significandBits - 1) := by
      rw [← Nat.pow_succ', Nat.succ_eq_add_one, Nat.sub_add_cancel p.significandBits_pos]
    have htwo : 2 ^ 1 ≤ 2 ^ s := Nat.pow_le_pow_right (by decide) hpos
    have hmul := Nat.mul_le_mul_left (2 ^ p.significandBits) htwo
    rw [hdouble]
    apply (jam_even_iff n s _).1.mpr
    rw [← hdouble]
    omega
  rw [hd] at hhalf hquantum
  have hdigits : jam n s / 2 ^ d < 2 ^ q.significandBits := by
    apply Nat.div_lt_of_lt_mul
    rwa [Nat.mul_comm, ← hpow]
  have hinfinity : 2 ^ q.significandBits ≤ q.infinity := by
    rw [hinf]
    exact Nat.le_mul_of_pos_left _ (by omega)
  have hresult : (((significand >>> s |||
      p.ofBool (significand <<< (p.typeWidth - s) != 0#p.typeWidth)) >>> d).setWidth
        q.typeWidth).toNat = 0 * 2 ^ q.significandBits + jam n s / 2 ^ d := by
    rw [BitVec.toNat_setWidth, BitVec.toNat_ushiftRight, toNat_shift_sticky, hsignificand,
      Nat.shiftRight_eq_div_pow, Nat.mod_eq_of_lt, Nat.zero_mul, Nat.zero_add]
    rw [hwidth, Nat.pow_add]
    have := Nat.le_mul_of_pos_right (2 ^ q.significandBits) (Nat.two_pow_pos q.exponentBits)
    omega
  rw [hd]
  refine nearest_finalRounding (y := n / 2 ^ s) (by omega) (.inl rfl) (by omega) ?_ ?_ ?_ hresult
  · rw [hhalf]
    exact Nat.mod_lt _ (Nat.two_pow_pos d)
  · have hstep : ((2 ^ (d - 1) : ℕ) : ℚ) = ((2 ^ e : ℤ) : ℚ) * 2 := by
      rw [he, Nat.add_succ_sub_one]
      push_cast
      ring
    rw [hhalf, hsplit, hstep]
    exact (sameSide_jam n s).coarsen (2 ^ e)
  · have hcast : (2 : ℚ) * (2 ^ (d - 1) : ℕ) = 2 ^ d := by exact_mod_cast hhalf
    rw [hm, p.value_pack hhigh (.inr hlow), hcast, hquantum, ← hs]
    field_simp
    ring

/-- Less than half of the least denormal number. -/
theorem tiny_nearest (hsmall : p.magnitude a / 2 ^ p.significandBits + p.significandBits ≤
    p.exponentBias - q.exponentBias) : q.Nearest (p.value (p.magnitude a)) 0 := by
  have hquantum := h.quantum_eq
  have hguard := h.guard_lt
  have hpos := p.quantum_pos
  obtain ⟨k, n, hm, hn, hk⟩ := p.exists_pack (p.magnitude a)
  have hkle : k ≤ p.magnitude a / 2 ^ p.significandBits := by
    rw [Nat.le_div_iff_mul_le (Nat.two_pow_pos _), hm]
    exact Nat.le_add_right _ _
  have hlt : 2 * (n * 2 ^ k) < 2 ^ (p.significandBits - q.significandBits) *
      2 ^ (p.exponentBias - q.exponentBias) := by
    have hmul := Nat.mul_lt_mul_of_pos_right hn (Nat.two_pow_pos k)
    have hexp : 2 * (2 * 2 ^ p.significandBits * 2 ^ k) = 2 ^ (2 + p.significandBits + k) := by
      ring
    have hle : 2 ^ (2 + p.significandBits + k) ≤
        2 ^ (p.significandBits - q.significandBits + (p.exponentBias - q.exponentBias)) :=
      Nat.pow_le_pow_right (by decide) (by omega)
    rw [← Nat.pow_add]
    omega
  refine Format.nearest_zero (p.value_nonneg _) ?_
  rw [hm, p.value_pack hn hk, hquantum, ← mul_assoc]
  apply mul_lt_mul_of_pos_right _ hpos
  exact_mod_cast hlt

theorem value_truncOverflow : p.value (p.truncOverflow q).toNat = q.value q.infinity := by
  have hquantum := h.quantum_eq
  obtain ⟨j, hj⟩ := Nat.exists_eq_add_of_le' (Nat.le_of_lt q.one_lt_maxExponent)
  have hover : (p.truncOverflow q).toNat = (p.exponentBias - q.exponentBias + j) *
      2 ^ p.significandBits + 2 ^ p.significandBits := by
    rw [h.toNat_truncOverflow, hj, ← Nat.add_assoc, Nat.succ_mul]
  have hinf : q.infinity = j * 2 ^ q.significandBits + 2 ^ q.significandBits := by
    rw [infinity_eq, hj, Nat.succ_mul]
  have hpow : (2 : ℚ) ^ p.significandBits =
      2 ^ q.significandBits * 2 ^ (p.significandBits - q.significandBits) := by
    rw [← pow_add, Nat.add_sub_cancel' h.significandBits_lt.le]
  rw [hover, hinf, p.value_pack (lt_two_mul_self (Nat.two_pow_pos _)) (.inr le_rfl),
    q.value_pack (lt_two_mul_self (Nat.two_pow_pos _)) (.inr le_rfl), hquantum]
  push_cast
  rw [hpow]
  ring

theorem truncAbs_of_le (hle : p.magnitude a ≤ p.infinity)
    (hne : p.magnitude a ≠ (p.truncOverflow q).toNat) :
    ∃ r, p.truncAbs q a = some r ∧ q.Nearest (p.value (p.magnitude a)) r.toNat := by
  have hdenormal := h.denormal_le
  have hunder := h.toNat_truncUnderflow
  have hover := h.toNat_truncOverflow
  have hmax := q.one_lt_maxExponent
  have hword := p.toNat_and_absMask a
  have hlt := h.truncUnderflow_lt
  rw [truncAbs]
  dsimp only
  by_cases hnormal : (p.truncUnderflow q).toNat ≤ p.magnitude a ∧
      p.magnitude a < (p.truncOverflow q).toNat
  · rw [if_pos ((sub_lt_sub_left_iff hlt).mpr (by rwa [hword]))]
    exact ⟨_, rfl, h.normal_nearest hnormal.1 hnormal.2⟩
  rw [if_neg (mt (sub_lt_sub_left_iff hlt).mp (by rwa [hword])), if_neg (by
    rw [gt_iff_lt, BitVec.lt_def, toNat_exponentInfinity, hword]
    exact Nat.not_lt.mpr hle)]
  by_cases hlarge : (p.truncOverflow q).toNat < p.magnitude a
  · rw [if_pos (by rwa [gt_iff_lt, BitVec.lt_def, hword])]
    refine ⟨_, rfl, ?_⟩
    rw [toNat_exponentInfinity]
    apply Format.nearest_infinity
    rw [← h.value_truncOverflow]
    exact (p.value_strictMono hlarge).le
  rw [if_neg (by rwa [gt_iff_lt, BitVec.lt_def, hword])]
  -- what is left is below the normal numbers of the destination
  have hlow : p.magnitude a / 2 ^ p.significandBits ≤ p.exponentBias - q.exponentBias := by
    apply Nat.le_of_lt_succ
    apply Nat.div_lt_of_lt_mul
    rw [Nat.mul_comm, Nat.succ_eq_add_one, ← hunder]
    omega
  have hdiv := Nat.div_add_mod' (p.magnitude a) (2 ^ p.significandBits)
  have hmod := Nat.mod_lt (p.magnitude a) (Nat.two_pow_pos p.significandBits)
  rw [toNat_absExponent]
  by_cases htiny : p.magnitude a / 2 ^ p.significandBits + p.significandBits ≤
      p.exponentBias - q.exponentBias
  · rw [if_pos (by omega)]
    exact ⟨_, rfl, h.tiny_nearest htiny⟩
  · obtain ⟨k, hk⟩ := Nat.exists_eq_add_of_le'
      (show 0 < p.magnitude a / 2 ^ p.significandBits by omega)
    obtain ⟨s, hs⟩ := Nat.exists_eq_add_of_le (show k ≤ p.exponentBias - q.exponentBias by omega)
    have hshift : (p.exponentBias - q.exponentBias -
        (p.magnitude a / 2 ^ p.significandBits : ℕ) + 1 : ℤ) = s := by omega
    rw [hshift, if_neg (by omega), if_neg (by omega), Int.toNat_natCast]
    rw [hk, Nat.succ_mul] at hdiv
    exact ⟨_, rfl, h.denormal_nearest (by omega) (Nat.le_add_left _ _) (by omega) hs.symm
      (by omega) (toNat_wholeSignificand a)⟩

theorem truncAbs_overflow (heq : p.magnitude a = (p.truncOverflow q).toNat) :
    p.truncAbs q a = none := by
  have hbias := h.exponentBias_le
  have hmax := q.one_lt_maxExponent
  have hunder := h.toNat_truncUnderflow
  have hover := h.toNat_truncOverflow
  have hle := h.truncOverflow_lt
  have hword := p.toNat_and_absMask a
  have hlt := h.truncUnderflow_lt
  have hexponent : ((a &&& p.absMask) >>> p.significandBits).toNat =
      p.exponentBias - q.exponentBias + q.maxExponent := by
    rw [toNat_absExponent, heq, hover, Nat.mul_div_cancel _ (Nat.two_pow_pos _)]
  rw [truncAbs]
  dsimp only
  rw [if_neg (mt (sub_lt_sub_left_iff hlt).mp (by rw [hword]; omega)), if_neg (by
    rw [gt_iff_lt, BitVec.lt_def, toNat_exponentInfinity, hword]
    omega), if_neg (by rw [gt_iff_lt, BitVec.lt_def, hword]; omega), hexponent,
    if_neg (by omega), if_pos (by omega)]

/-- The quiet bit is set, and the payload below it loses its last bits. -/
theorem truncAbs_nan (hnan : p.infinity < p.magnitude a) :
    ∃ r, p.truncAbs q a = some r ∧ r.toNat = q.infinity + 2 ^ (q.significandBits - 1) +
      p.magnitude a / 2 ^ (p.significandBits - q.significandBits) %
        2 ^ (q.significandBits - 1) := by
  have hunder := h.toNat_truncUnderflow
  have hover := h.toNat_truncOverflow
  have hlt := h.truncUnderflow_lt
  have hle := h.truncOverflow_lt
  have hword := p.toNat_and_absMask a
  rw [truncAbs]
  dsimp only
  rw [if_neg (mt (sub_lt_sub_left_iff hlt).mp (by rw [hword]; omega)), if_pos (by
    rw [gt_iff_lt, BitVec.lt_def, toNat_exponentInfinity, hword]
    exact hnan)]
  refine ⟨_, rfl, ?_⟩
  have hpos := q.significandBits_pos
  have hguard := h.guard_lt
  obtain ⟨e, he⟩ := Nat.exists_eq_add_of_le' hpos
  have hcode : p.significandBits - 1 = p.significandBits - q.significandBits + e := by omega
  have hpayload : (((a &&& p.absMask &&& p.nanCode) >>>
      (p.significandBits - q.significandBits)).setWidth q.typeWidth &&& q.nanCode).toNat =
        p.magnitude a / 2 ^ (p.significandBits - q.significandBits) % 2 ^ e := by
    rw [BitVec.toNat_and, toNat_nanCode, Nat.and_two_pow_sub_one_eq_mod, BitVec.toNat_setWidth,
      Nat.mod_mod_of_dvd _ (Nat.pow_dvd_pow 2 (by rw [typeWidth_eq]; omega)),
      BitVec.toNat_ushiftRight, BitVec.toNat_and, hword, toNat_nanCode,
      Nat.and_two_pow_sub_one_eq_mod, Nat.shiftRight_eq_div_pow, hcode, Nat.pow_add,
      Nat.mod_mul_right_div_self, he, Nat.add_sub_cancel, Nat.mod_mod]
  have hquiet : q.infinity + 2 ^ e = 2 ^ e * (2 * q.maxExponent + 1) := by
    rw [infinity_eq, he, Nat.pow_succ]
    ring
  rw [BitVec.toNat_or, hpayload, toNat_infinity_or_qnanBit, he, Nat.add_sub_cancel, hquiet,
    ← Nat.two_pow_add_eq_or_of_lt (Nat.mod_lt _ (Nat.two_pow_pos e))]

/-- The sign moves down with the width. -/
theorem toNat_truncSign (a : p.Rep) :
    (((a &&& p.signBit) >>> (p.typeWidth - q.typeWidth)).setWidth q.typeWidth).toNat =
      q.signWord a.msb := by
  have hle := h.typeWidth_le
  have hsum : p.significandBits + p.exponentBits =
      q.significandBits + q.exponentBits + (p.typeWidth - q.typeWidth) := by
    rw [typeWidth_eq, typeWidth_eq] at *
    omega
  have hlt : 2 ^ (q.significandBits + q.exponentBits) < 2 ^ q.typeWidth :=
    Nat.pow_lt_pow_right (by decide) (Nat.lt_succ_self _)
  rw [BitVec.toNat_setWidth, BitVec.toNat_ushiftRight, toNat_and_signBit, Nat.shiftRight_eq_div_pow,
    signWord]
  cases a.msb with
  | false =>
    rw [if_neg Bool.false_ne_true, if_neg Bool.false_ne_true, Nat.zero_div, Nat.zero_mod]
  | true =>
    rw [if_pos rfl, if_pos rfl, hsum, Nat.pow_add _ (q.significandBits + q.exponentBits),
      Nat.mul_div_cancel _ (Nat.two_pow_pos _), Nat.mod_eq_of_lt hlt]

end Wider

theorem truncXfYf2_isConversion (h : q.Wider p) (a : p.Rep) :
    (p.truncXfYf2 q a = none ↔ p.magnitude a = (p.truncOverflow q).toNat) ∧
      ∀ r, p.truncXfYf2 q a = some r → q.IsConversion (p.decode a) (q.decode r) := by
  have hsign := h.toNat_truncSign a
  have hover := h.truncOverflow_lt
  rw [truncXfYf2]
  by_cases hnan : p.infinity < p.magnitude a
  · obtain ⟨r, hr, hword⟩ := h.truncAbs_nan hnan
    have hquiet := q.quiet_bounds hword
    rw [hr, Option.map_some]
    refine ⟨iff_of_false (Option.some_ne_none _) (by omega), ?_⟩
    intro _ heq
    rw [Option.some.injEq] at heq
    rw [Format.decode_nan hnan, ← heq, decode_or_sign hquiet.2 hsign]
    exact Format.datum_of_gt hquiet.1
  by_cases heq : p.magnitude a = (p.truncOverflow q).toNat
  · rw [h.truncAbs_overflow heq, Option.map_none]
    exact ⟨iff_of_true rfl heq, fun r hr => absurd hr (Option.some_ne_none r).symm⟩
  · obtain ⟨r, hr, hnearest⟩ := h.truncAbs_of_le (Nat.not_lt.mp hnan) heq
    have hfits := Nat.lt_of_le_of_lt hnearest.le_infinity q.infinity_lt
    rw [hr, Option.map_some]
    refine ⟨iff_of_false (Option.some_ne_none _) heq, ?_⟩
    rintro _ ⟨⟩
    rw [decode_or_sign hfits hsign]
    rcases Nat.lt_or_eq_of_le (Nat.not_lt.mp hnan) with hfinite | hinfinite
    · rw [Format.decode_finite hfinite]
      exact ⟨_, hnearest, rfl⟩
    · have hpast : q.Nearest (p.value (p.magnitude a)) q.infinity := by
        apply Format.nearest_infinity
        rw [← h.value_truncOverflow]
        exact p.value_strictMono.monotone (by omega)
      rw [Format.decode_infinite hinfinite, hnearest.unique hpast, Format.datum_infinity]
      rfl


/-- What widening has put into the payload of a NaN, narrowing takes out again. -/
theorem truncXfYf2_extendXfYf2 (h : q.Wider p) (a : q.Rep) :
    p.truncXfYf2 q (q.extendXfYf2 p a) =
      some (if q.decode a = .nan then a ||| q.qnanBit else a) := by
  obtain ⟨hmsb, hfinite, hother⟩ := extendXfYf2_spec h a
  obtain ⟨hnone, hconversion⟩ := truncXfYf2_isConversion h (q.extendXfYf2 p a)
  by_cases hnan : q.decode a = .nan
  · rw [if_pos hnan]
    rw [Format.decode_eq_nan_iff] at hnan
    have hpayload := hother hnan.le
    have hpos := Nat.mul_pos (Nat.sub_pos_of_lt hnan)
      (Nat.two_pow_pos (p.significandBits - q.significandBits))
    obtain ⟨r, hr, hword⟩ := h.truncAbs_nan (a := q.extendXfYf2 p a) (by omega)
    have hsign := h.toNat_truncSign (q.extendXfYf2 p a)
    rw [hmsb] at hsign
    obtain ⟨hmsb', hmagnitude⟩ := Format.decode_of_toNat (f := q.toFormat)
      (q.quiet_bounds hword).2 (toNat_or_sign (q.quiet_bounds hword).2 hsign)
    rw [truncXfYf2, hr, Option.map_some, Option.some.injEq, rep_ext_iff, hmsb', hmagnitude, hword]
    refine ⟨(msb_or_qnanBit a).symm, ?_⟩
    obtain ⟨e, he⟩ := Nat.exists_eq_add_of_le h.significandBits_lt.le
    have hinf : p.infinity = 2 ^ (p.significandBits - q.significandBits) *
        (p.maxExponent * 2 ^ q.significandBits) := by
      rw [infinity_eq, he, Nat.add_sub_cancel_left, Nat.pow_add]
      ring
    have hdiv : p.magnitude (q.extendXfYf2 p a) / 2 ^ (p.significandBits - q.significandBits) =
        p.maxExponent * 2 ^ q.significandBits + (q.magnitude a - q.infinity) := by
      rw [hpayload, hinf, Nat.mul_add_div (Nat.two_pow_pos _),
        Nat.mul_div_cancel _ (Nat.two_pow_pos _)]
    have hmod : ∀ c n : ℕ, (c * 2 ^ q.significandBits + n) % 2 ^ (q.significandBits - 1) =
        n % 2 ^ (q.significandBits - 1) := by
      intro c n
      obtain ⟨t, ht⟩ := Nat.exists_eq_add_of_le' q.significandBits_pos
      rw [ht, Nat.add_sub_cancel, Nat.pow_succ', ← Nat.mul_assoc, Nat.mul_comm (c * 2),
        Nat.mul_add_mod]
    have hsplit : q.magnitude a = q.maxExponent * 2 ^ q.significandBits +
        (q.magnitude a - q.infinity) := by
      rw [← infinity_eq, Nat.add_sub_cancel' hnan.le]
    rw [magnitude_or_qnanBit hnan.le, hdiv, hmod]
    nth_rw 2 [hsplit]
    rw [hmod]
  · rw [if_neg hnan]
    rw [Format.decode_eq_nan_iff, Nat.not_lt] at hnan
    cases hresult : p.truncXfYf2 q (q.extendXfYf2 p a) with
    | none =>
      have hmagnitude := hnone.mp hresult
      rcases Nat.lt_or_eq_of_le hnan with hlt | heq
      · obtain ⟨-, hvalue⟩ := hfinite hlt
        rw [hmagnitude, h.value_truncOverflow] at hvalue
        exact absurd (q.value_strictMono.injective hvalue) hlt.ne'
      · have hinfinite := hother heq.ge
        have hlt := h.truncOverflow_lt
        omega
    | some r =>
      have hconv := hconversion r hresult
      rw [decode_extendXfYf2 h a] at hconv
      have heq := (Format.isConversion_self (f := q.toFormat) a).unique hconv
      rw [rep_ext_iff.mpr (Format.decode_injective heq hnan)]

end Precision

theorem value_overflow : double.value (double.truncOverflow single).toNat = 2 ^ 128 := by
  have hquantum : single.quantum = 1 / 2 ^ 149 := rfl
  have hinfinity : single.value single.infinity = 2 ^ 23 * 2 ^ (254 : ℤ) * single.quantum :=
    single.value_infinity
  rw [Precision.Wider.value_truncOverflow Precision.single_wider_double, hinfinity, hquantum]
  norm_num

/-- The power of two behind the largest number is the only input without a result. -/
theorem truncdfsf2_isConversion (a : BitVec 64) :
    (truncdfsf2 a = none ↔ ∃ s, double.decode a = .finite s (2 ^ 128)) ∧
      ∀ r, truncdfsf2 a = some r → single.IsConversion (double.decode a) (single.decode r) := by
  obtain ⟨hnone, hconversion⟩ := Precision.truncXfYf2_isConversion Precision.single_wider_double a
  have hover := Precision.Wider.truncOverflow_lt Precision.single_wider_double
  have hvalue := value_overflow
  refine ⟨hnone.trans ⟨fun heq => ?_, ?_⟩, hconversion⟩
  · exact ⟨a.msb, Format.decode_eq_finite_iff.mpr ⟨heq ▸ hover, rfl, heq ▸ hvalue⟩⟩
  · rintro ⟨s, hs⟩
    obtain ⟨-, -, hmagnitude⟩ := Format.decode_eq_finite_iff.mp hs
    exact double.value_strictMono.injective (hmagnitude.trans hvalue.symm)

theorem truncdfsf2_extendsfdf2 (a : BitVec 32) :
    truncdfsf2 (extendsfdf2 a) = some (if single.decode a = .nan then a ||| 0x00400000#32 else a) :=
  Precision.truncXfYf2_extendXfYf2 Precision.single_wider_double a

end Cpu0Toolchain.CompilerRt
