import Cpu0Toolchain.CompilerRt.FpLib

/-!
# Widening a floating-point number

`fp_extend.h`, `fp_extend_impl.inc` and `extendsfdf2.c`. The constants that follow from the type
parameters are those of `fp_lib.h` under other names.

## Main results

- `decode_extendXfYf2`: the result stands for the same datum.
- `extendsfdf2_exact`: so it is from single to double precision.
-/

namespace Cpu0Toolchain.CompilerRt
open BinaryFloat

namespace Precision

/-- The second has more bits of everything, and its least exponent is so small that its denormal
numbers are none of the first, and the first one's denormal numbers are normal ones of it. -/
structure Wider (p q : Precision) : Prop where
  guard_lt : p.significandBits + 1 < q.significandBits
  exponentBits_lt : p.exponentBits < q.exponentBits
  denormal_le : p.exponentBias + q.significandBits ≤ q.exponentBias

theorem single_wider_double : single.Wider double where
  guard_lt := by decide
  exponentBits_lt := by decide
  denormal_le := by decide

variable (p q : Precision)

/-- `srcInfinity` -/
def exponentInfinity : p.Rep := BitVec.ofNat p.typeWidth p.maxExponent <<< p.significandBits

/-- `srcQNaN` and `dstQNaN` -/
def qnanBit : p.Rep := 1#p.typeWidth <<< (p.significandBits - 1)

/-- `srcNaNCode` and `dstNaNCode` -/
def nanCode : p.Rep := p.qnanBit - 1#p.typeWidth

/-- `__extendXfYf2__` -/
def extendXfYf2 (a : p.Rep) : q.Rep :=
  let srcMinNormal := p.implicitBit
  -- Break a into a sign and representation of the absolute value
  let aAbs := a &&& p.absMask
  let sign := a &&& p.signBit
  let absResult :=
    if aAbs - srcMinNormal < p.exponentInfinity - srcMinNormal then
      -- a is a normal number
      aAbs.setWidth q.typeWidth <<< (q.significandBits - p.significandBits) +
        BitVec.ofNat q.typeWidth (q.exponentBias - p.exponentBias) <<< q.significandBits
    else if aAbs ≥ p.exponentInfinity then
      -- a is NaN or infinity
      let absResult := q.exponentInfinity
      let absResult := absResult |||
        (aAbs &&& p.qnanBit).setWidth q.typeWidth <<< (q.significandBits - p.significandBits)
      absResult |||
        (aAbs &&& p.nanCode).setWidth q.typeWidth <<< (q.significandBits - p.significandBits)
    else if aAbs ≠ 0#p.typeWidth then
      -- a is denormal
      let scale : ℤ := p.repClz aAbs - p.repClz srcMinNormal
      let absResult := aAbs.setWidth q.typeWidth <<<
        (q.significandBits - p.significandBits + scale : ℤ).toNat
      let absResult := absResult ^^^ q.implicitBit
      let resultExponent : ℤ := q.exponentBias - p.exponentBias - scale + 1
      absResult ||| BitVec.ofInt q.typeWidth resultExponent <<< q.significandBits
    else
      -- a is zero
      0#q.typeWidth
  -- Apply the signbit to (dst_t)abs(a)
  absResult ||| sign.setWidth q.typeWidth <<< (q.typeWidth - p.typeWidth)

end Precision

def extendsfdf2 : BitVec 32 → BitVec 64 := single.extendXfYf2 double

/-- One comparison for two, with the subtractions modulo the width. -/
theorem sub_lt_sub_iff {w : ℕ} {x lo hi : BitVec w} (h : lo.toNat ≤ hi.toNat) :
    x - lo < hi - lo ↔ lo.toNat ≤ x.toNat ∧ x.toNat < hi.toNat := by
  have hx := x.isLt
  have hhi := hi.isLt
  rw [BitVec.lt_def, BitVec.toNat_sub_of_le (BitVec.le_def.mpr h)]
  by_cases hle : lo.toNat ≤ x.toNat
  · rw [BitVec.toNat_sub_of_le (BitVec.le_def.mpr hle)]
    omega
  · rw [BitVec.toNat_sub, Nat.mod_eq_of_lt (by omega)]
    omega

namespace Precision

variable {p q : Precision}

theorem toNat_exponentInfinity (p : Precision) : p.exponentInfinity.toNat = p.infinity := by
  rw [exponentInfinity, toNat_ofExponent le_rfl, infinity_eq]

theorem toNat_qnanBit (p : Precision) : p.qnanBit.toNat = 2 ^ (p.significandBits - 1) := by
  rw [qnanBit, toNat_shiftLeft_of_lt, toNat_oneRep, Nat.one_mul]
  rw [toNat_oneRep, Nat.one_mul]
  exact Nat.pow_lt_pow_right (by decide) (by rw [typeWidth_eq]; omega)

theorem toNat_nanCode (p : Precision) : p.nanCode.toNat = 2 ^ (p.significandBits - 1) - 1 := by
  rw [nanCode, BitVec.toNat_sub_of_le, toNat_qnanBit, toNat_oneRep]
  rw [BitVec.le_def, toNat_oneRep, toNat_qnanBit]
  exact Nat.two_pow_pos _

/-- The quiet bit and the rest of the payload are the significand. -/
theorem toNat_payload (a : p.Rep) :
    ((a &&& p.qnanBit).toNat ||| (a &&& p.nanCode).toNat) = a.toNat % 2 ^ p.significandBits := by
  have hpos := p.significandBits_pos
  have hmask : 2 ^ (p.significandBits - 1) ||| (2 ^ (p.significandBits - 1) - 1) =
      2 ^ p.significandBits - 1 := by
    have hlt : 2 ^ (p.significandBits - 1) - 1 < 2 ^ (p.significandBits - 1) :=
      Nat.sub_lt (Nat.two_pow_pos _) one_pos
    have hor := Nat.two_pow_add_eq_or_of_lt hlt 1
    rw [Nat.mul_one] at hor
    rw [← hor, ← Nat.add_sub_assoc (Nat.two_pow_pos _), ← Nat.two_mul, ← Nat.pow_succ',
      Nat.succ_eq_add_one, Nat.sub_add_cancel hpos]
  rw [BitVec.toNat_and, BitVec.toNat_and, toNat_qnanBit, toNat_nanCode,
    ← Nat.and_or_distrib_left, hmask, Nat.and_two_pow_sub_one_eq_mod]

namespace Wider

variable (h : p.Wider q)

include h

theorem significandBits_lt : p.significandBits < q.significandBits :=
  Nat.lt_of_succ_lt h.guard_lt

theorem exponentBias_le : p.exponentBias + p.significandBits ≤ q.exponentBias :=
  (Nat.add_le_add_left h.significandBits_lt.le _).trans h.denormal_le

theorem typeWidth_le : p.typeWidth ≤ q.typeWidth := by
  have h1 := h.significandBits_lt
  have h2 := h.exponentBits_lt
  rw [typeWidth_eq, typeWidth_eq]
  omega

theorem toNat_setWidth (a : p.Rep) : (a.setWidth q.typeWidth).toNat = a.toNat :=
  BitVec.toNat_setWidth_of_le h.typeWidth_le

theorem quantum_eq : p.quantum = 2 ^ (q.significandBits - p.significandBits) *
    2 ^ (q.exponentBias - p.exponentBias) * q.quantum := by
  have h1 := h.significandBits_lt
  have h2 := h.exponentBias_le
  have hpos := p.significandBits_pos
  rw [Format.quantum, Format.quantum, ← exponentBias_eq, ← exponentBias_eq, ← pow_add,
    mul_one_div, div_eq_div_iff (by positivity) (by positivity), one_mul, ← pow_add]
  congr 1
  omega

/-- The sign moves to the top of the longer word. -/
theorem toNat_sign (a : p.Rep) :
    ((a &&& p.signBit).setWidth q.typeWidth <<< (q.typeWidth - p.typeWidth)).toNat =
      q.signWord a.msb := by
  have hle := h.typeWidth_le
  have hpow : 2 ^ (p.significandBits + p.exponentBits) * 2 ^ (q.typeWidth - p.typeWidth) =
      2 ^ (q.significandBits + q.exponentBits) := by
    rw [← Nat.pow_add]
    congr 1
    rw [typeWidth_eq, typeWidth_eq] at *
    omega
  have hlt : 2 ^ (q.significandBits + q.exponentBits) < 2 ^ q.typeWidth :=
    Nat.pow_lt_pow_right (by decide) (by rw [typeWidth_eq]; omega)
  have hword : ((a &&& p.signBit).setWidth q.typeWidth).toNat *
      2 ^ (q.typeWidth - p.typeWidth) = q.signWord a.msb := by
    rw [h.toNat_setWidth, toNat_and_signBit, signWord]
    cases a.msb with
    | false => exact Nat.zero_mul _
    | true => exact hpow
  rw [toNat_shiftLeft_of_lt, hword]
  rw [hword, signWord]
  split
  · exact hlt
  · exact Nat.two_pow_pos _

/-! ## The three cases -/

variable {a : p.Rep}

theorem normal_value {m : ℕ} (hlow : 2 ^ p.significandBits ≤ m) (hhigh : m < p.infinity) :
    m * 2 ^ (q.significandBits - p.significandBits) +
        (q.exponentBias - p.exponentBias) * 2 ^ q.significandBits < q.infinity ∧
      q.value (m * 2 ^ (q.significandBits - p.significandBits) +
        (q.exponentBias - p.exponentBias) * 2 ^ q.significandBits) = p.value m := by
  have hquantum := h.quantum_eq
  have hbias := h.exponentBias_le
  have hpos := Nat.two_pow_pos p.significandBits
  obtain ⟨d, hd⟩ := Nat.exists_eq_add_of_le h.significandBits_lt.le
  have hshift : q.significandBits - p.significandBits = d := by omega
  have hpow : 2 ^ q.significandBits = 2 ^ p.significandBits * 2 ^ d := by rw [hd, Nat.pow_add]
  obtain ⟨k, n, rfl, hn, hnormal⟩ := p.exists_pack_of_le hlow
  have hexponent : k + 1 < p.maxExponent := by
    rw [infinity_eq] at hhigh
    by_contra hge
    have hmul := Nat.mul_le_mul_right (2 ^ p.significandBits) (Nat.not_lt.mp hge)
    rw [Nat.succ_mul] at hmul
    omega
  rw [hshift] at hquantum ⊢
  obtain ⟨D, hD⟩ : ∃ D, D = q.exponentBias - p.exponentBias := ⟨_, rfl⟩
  rw [← hD] at hquantum ⊢
  have hnumber : (k * 2 ^ p.significandBits + n) * 2 ^ d + D * 2 ^ q.significandBits =
      (k + D) * 2 ^ q.significandBits + n * 2 ^ d := by
    rw [hpow]
    ring
  have hdigits : n * 2 ^ d < 2 * 2 ^ q.significandBits := by
    rw [hpow, ← Nat.mul_assoc]
    exact Nat.mul_lt_mul_of_pos_right hn (Nat.two_pow_pos d)
  have hdigits' : 2 ^ q.significandBits ≤ n * 2 ^ d := by
    rw [hpow]
    exact Nat.mul_le_mul_right _ hnormal
  have hE : k + D + 1 < q.maxExponent := by
    rw [maxExponent_bias] at hexponent ⊢
    omega
  rw [hnumber]
  refine ⟨pack_lt hdigits hE, ?_⟩
  rw [p.value_pack hn (.inr hnormal), q.value_pack hdigits (.inr hdigits'), hquantum]
  push_cast
  ring

theorem toNat_normal (hhigh : p.magnitude a < p.infinity)
    (hlow : 2 ^ p.significandBits ≤ p.magnitude a) :
    ((a &&& p.absMask).setWidth q.typeWidth <<< (q.significandBits - p.significandBits) +
      BitVec.ofNat q.typeWidth (q.exponentBias - p.exponentBias) <<< q.significandBits).toNat =
        p.magnitude a * 2 ^ (q.significandBits - p.significandBits) +
          (q.exponentBias - p.exponentBias) * 2 ^ q.significandBits := by
  obtain ⟨hlt, -⟩ := h.normal_value hlow hhigh
  have hinf := q.infinity_lt
  have hpow := two_pow_typeWidth (p := q)
  have hbias := q.maxExponent_bias
  have hword : ((a &&& p.absMask).setWidth q.typeWidth).toNat = p.magnitude a := by
    rw [h.toNat_setWidth, toNat_and_absMask]
  rw [BitVec.toNat_add, toNat_shiftLeft_of_lt (by rw [hword]; omega),
    toNat_ofExponent (by omega), hword, Nat.mod_eq_of_lt (by omega)]

/-- The payload of a NaN is not lost altogether. -/
theorem toNat_widePayload (hge : p.infinity ≤ p.magnitude a) :
    (q.exponentInfinity |||
      ((a &&& p.absMask) &&& p.qnanBit).setWidth q.typeWidth <<<
        (q.significandBits - p.significandBits) |||
      ((a &&& p.absMask) &&& p.nanCode).setWidth q.typeWidth <<<
        (q.significandBits - p.significandBits)).toNat =
      q.infinity + (p.magnitude a - p.infinity) * 2 ^ (q.significandBits - p.significandBits) := by
  obtain ⟨d, hd⟩ := Nat.exists_eq_add_of_le h.significandBits_lt.le
  have hshift : q.significandBits - p.significandBits = d := by omega
  have hpow : 2 ^ q.significandBits = 2 ^ p.significandBits * 2 ^ d := by rw [hd, Nat.pow_add]
  have hfits : 2 ^ q.significandBits ≤ 2 ^ q.typeWidth :=
    Nat.pow_le_pow_right (by decide) (by rw [typeWidth_eq]; omega)
  have hpayload := toNat_payload (a &&& p.absMask)
  rw [toNat_and_absMask] at hpayload
  have hmod : p.magnitude a - p.infinity = p.magnitude a % 2 ^ p.significandBits := by
    have hlt := Format.magnitude_lt (f := p.toFormat) a
    have htop : 2 ^ (p.significandBits + p.exponentBits) =
        p.infinity + 2 ^ p.significandBits := p.two_pow_eq_infinity_add
    obtain ⟨r, hr⟩ := Nat.exists_eq_add_of_le hge
    rw [hr, Nat.add_sub_cancel_left, infinity_eq, Nat.mul_comm, Nat.mul_add_mod,
      Nat.mod_eq_of_lt (by omega)]
  have hsmall : p.magnitude a % 2 ^ p.significandBits * 2 ^ d < 2 ^ q.significandBits := by
    rw [hpow]
    exact Nat.mul_lt_mul_of_pos_right (Nat.mod_lt _ (Nat.two_pow_pos _)) (Nat.two_pow_pos d)
  -- each part of the payload is a part of the significand
  have hpart : ∀ b : p.Rep, b.toNat ≤ p.magnitude a % 2 ^ p.significandBits →
      (b.setWidth q.typeWidth <<< d).toNat = b.toNat <<< d := by
    intro b hb
    have hmul := Nat.mul_le_mul_right (2 ^ d) hb
    rw [toNat_shiftLeft_of_lt (by rw [h.toNat_setWidth]; omega), h.toNat_setWidth, Nat.shiftLeft_eq]
  rw [hshift, BitVec.toNat_or, BitVec.toNat_or, Nat.or_assoc,
    hpart _ (hpayload ▸ Nat.left_le_or), hpart _ (hpayload ▸ Nat.right_le_or),
    ← Nat.shiftLeft_or_distrib, hpayload, toNat_exponentInfinity, hmod, Nat.shiftLeft_eq,
    infinity_eq, Nat.mul_comm q.maxExponent, Nat.two_pow_add_eq_or_of_lt hsmall]

omit h in
/-- The shift that brings the first digit to the place of the implicit bit. -/
theorem denormal_shift (hpos : 0 < p.magnitude a) (hlt : p.magnitude a < 2 ^ p.significandBits) :
    ∃ k ≤ p.significandBits, (p.repClz (a &&& p.absMask) - p.repClz p.implicitBit : ℤ) = k ∧
      2 ^ p.significandBits ≤ p.magnitude a * 2 ^ k ∧
        p.magnitude a * 2 ^ k < 2 ^ (p.significandBits + 1) := by
  have hword := p.toNat_and_absMask a
  have hdouble : 2 ^ (p.significandBits + 1) = 2 * 2 ^ p.significandBits := Nat.pow_succ'
  obtain ⟨k, hk, hlow, hhigh⟩ := exists_shift (mt abs_eq_zero.mp hpos.ne')
    (t := p.significandBits) (by rw [hword]; omega)
  have himplicit := repClz_add (a := p.implicitBit) (t := p.significandBits)
    (by rw [toNat_implicitBit]) (by rw [toNat_implicitBit]; omega)
  rw [hword] at hlow hhigh
  refine ⟨k, ?_, by omega, hlow, hhigh⟩
  have hle := Nat.le_mul_of_pos_left (2 ^ k) hpos
  exact Nat.le_of_lt_succ ((Nat.pow_lt_pow_iff_right (by decide)).mp (Nat.lt_of_le_of_lt hle hhigh))

theorem denormal_spec (hpos : 0 < p.magnitude a) (hlt : p.magnitude a < 2 ^ p.significandBits) :
    ∃ n < q.infinity, q.value n = p.value (p.magnitude a) ∧
      (((a &&& p.absMask).setWidth q.typeWidth <<<
          (q.significandBits - p.significandBits +
            (p.repClz (a &&& p.absMask) - p.repClz p.implicitBit : ℤ) : ℤ).toNat ^^^
          q.implicitBit) |||
        BitVec.ofInt q.typeWidth (q.exponentBias - p.exponentBias -
          (p.repClz (a &&& p.absMask) - p.repClz p.implicitBit : ℤ) + 1) <<<
            q.significandBits).toNat = n := by
  have hquantum := h.quantum_eq
  have hbias := h.exponentBias_le
  have hbiasp := p.maxExponent_bias
  have hmaxp := p.one_lt_maxExponent
  have hbiasq := q.maxExponent_bias
  have hmaxq := q.maxExponent_eq
  obtain ⟨d, hd⟩ := Nat.exists_eq_add_of_le h.significandBits_lt.le
  have hpow : 2 ^ q.significandBits = 2 ^ p.significandBits * 2 ^ d := by rw [hd, Nat.pow_add]
  have hdouble : 2 ^ (p.significandBits + 1) = 2 * 2 ^ p.significandBits := Nat.pow_succ'
  have hword := p.toNat_and_absMask a
  obtain ⟨k, hkle, hscale, hlow, hhigh⟩ := denormal_shift hpos hlt
  obtain ⟨D, hD⟩ := Nat.exists_eq_add_of_le (show k + p.exponentBias ≤ q.exponentBias by omega)
  have hshift : (q.significandBits - p.significandBits + (k : ℤ) : ℤ).toNat = d + k := by omega
  have hresult : (q.exponentBias - p.exponentBias - (k : ℤ) + 1 : ℤ) = (D + 1 : ℕ) := by
    push_cast
    omega
  rw [hscale, hshift, hresult]
  have hshifted : p.magnitude a * 2 ^ (d + k) = p.magnitude a * 2 ^ k * 2 ^ d := by
    rw [Nat.add_comm, Nat.pow_add, Nat.mul_assoc]
  have hdigits : p.magnitude a * 2 ^ (d + k) < 2 * 2 ^ q.significandBits := by
    rw [hshifted, hpow, ← Nat.mul_assoc]
    exact Nat.mul_lt_mul_of_pos_right (by rwa [← hdouble]) (Nat.two_pow_pos d)
  have hdigits' : 2 ^ q.significandBits ≤ p.magnitude a * 2 ^ (d + k) := by
    rw [hshifted, hpow]
    exact Nat.mul_le_mul_right _ hlow
  have hfits : 2 * 2 ^ q.significandBits ≤ 2 ^ q.typeWidth := by
    rw [← Nat.pow_succ']
    exact Nat.pow_le_pow_right (by decide) (by rw [typeWidth_eq]; omega)
  have hleft : ((a &&& p.absMask).setWidth q.typeWidth <<< (d + k)).toNat =
      p.magnitude a * 2 ^ (d + k) := by
    rw [toNat_shiftLeft_of_lt (by rw [h.toNat_setWidth, hword]; omega), h.toNat_setWidth, hword]
  have hxor := toNat_xor_implicitBit (p := q) (by rwa [hleft]) (by rwa [hleft])
  rw [hleft] at hxor
  have hE : D + 1 < q.maxExponent := by omega
  have htoNat := toNat_or_exponent (p := q) (E := D + 1)
    (a := (a &&& p.absMask).setWidth q.typeWidth <<< (d + k) ^^^ q.implicitBit)
    (by rw [hxor]; omega) (by omega)
  rw [hxor] at htoNat
  refine ⟨_, pack_lt hdigits hE, ?_, ?_⟩
  · rw [Nat.add_sub_cancel, p.value_of_lt (by omega), q.value_pack hdigits (.inr hdigits'), hquantum,
      show q.significandBits - p.significandBits = d by omega,
      show q.exponentBias - p.exponentBias = k + D by omega]
    push_cast
    ring
  · rw [htoNat, Nat.add_sub_cancel, Nat.succ_mul]
    omega

end Wider

/-- The sign is kept, a finite number has its value, and the others have their payload. -/
theorem extendXfYf2_spec (h : p.Wider q) (a : p.Rep) :
    (p.extendXfYf2 q a).msb = a.msb ∧
      (p.magnitude a < p.infinity → q.magnitude (p.extendXfYf2 q a) < q.infinity ∧
        q.value (q.magnitude (p.extendXfYf2 q a)) = p.value (p.magnitude a)) ∧
      (p.infinity ≤ p.magnitude a → q.magnitude (p.extendXfYf2 q a) = q.infinity +
        (p.magnitude a - p.infinity) * 2 ^ (q.significandBits - p.significandBits)) := by
  have hsign := h.toNat_sign a
  have hword := p.toNat_and_absMask a
  have himplicit := p.toNat_implicitBit
  have hinf := p.toNat_exponentInfinity
  have hqinf := q.infinity_lt
  have hle : 2 ^ p.significandBits ≤ p.infinity := by
    have := p.one_lt_maxExponent
    rw [infinity_eq]
    exact Nat.le_mul_of_pos_left _ (by omega)
  -- the sign joins a number without one
  have hfields : ∀ n : q.Rep, n.toNat < 2 ^ (q.significandBits + q.exponentBits) →
      (n ||| (a &&& p.signBit).setWidth q.typeWidth <<< (q.typeWidth - p.typeWidth)).msb = a.msb ∧
      q.magnitude (n ||| (a &&& p.signBit).setWidth q.typeWidth <<<
        (q.typeWidth - p.typeWidth)) = n.toNat :=
    fun n hn => Format.decode_of_toNat (f := q.toFormat) hn (toNat_or_sign hn hsign)
  rw [extendXfYf2]
  dsimp only
  by_cases hnormal : 2 ^ p.significandBits ≤ p.magnitude a ∧ p.magnitude a < p.infinity
  · rw [if_pos ((sub_lt_sub_iff (by rwa [himplicit, hinf])).mpr (by rwa [himplicit, hinf, hword]))]
    obtain ⟨hlt, hvalue⟩ := h.normal_value hnormal.1 hnormal.2
    have htoNat := h.toNat_normal hnormal.2 hnormal.1
    obtain ⟨hmsb, hmagnitude⟩ := hfields _ (by rw [htoNat]; omega)
    rw [hmagnitude, htoNat]
    exact ⟨hmsb, fun _ => ⟨hlt, hvalue⟩, fun hge => absurd hnormal.2 (Nat.not_lt.mpr hge)⟩
  rw [if_neg (mt (sub_lt_sub_iff (by rwa [himplicit, hinf])).mp (by rwa [himplicit, hinf, hword]))]
  by_cases hge : p.infinity ≤ p.magnitude a
  · rw [if_pos (by rwa [ge_iff_le, BitVec.le_def, hinf, hword])]
    have htoNat := h.toNat_widePayload hge
    have hlt := Format.magnitude_lt (f := p.toFormat) a
    have htop := p.two_pow_eq_infinity_add
    have hsmall : (p.magnitude a - p.infinity) * 2 ^ (q.significandBits - p.significandBits) <
        2 ^ q.significandBits := by
      rw [← Nat.add_sub_of_le h.significandBits_lt.le, Nat.pow_add, Nat.add_sub_cancel_left]
      exact Nat.mul_lt_mul_of_pos_right (by omega) (Nat.two_pow_pos _)
    obtain ⟨hmsb, hmagnitude⟩ := hfields _ (by rw [htoNat, two_pow_eq_infinity_add]; omega)
    rw [hmagnitude, htoNat]
    exact ⟨hmsb, fun hfinite => absurd hfinite (Nat.not_lt.mpr hge), fun _ => rfl⟩
  rw [if_neg (by rwa [ge_iff_le, BitVec.le_def, hinf, hword])]
  by_cases hzero : p.magnitude a = 0
  · rw [if_neg (not_not.mpr (abs_eq_zero.mpr hzero))]
    obtain ⟨hmsb, hmagnitude⟩ := hfields 0#q.typeWidth (Nat.two_pow_pos _)
    rw [hmagnitude, hzero]
    refine ⟨hmsb, fun _ => ⟨q.infinity_pos, ?_⟩, fun hge' => absurd (hzero ▸ hge') hge⟩
    exact q.value_zero.trans p.value_zero.symm
  · rw [if_pos (mt abs_eq_zero.mp hzero)]
    obtain ⟨n, hn, hvalue, htoNat⟩ := h.denormal_spec (a := a) (Nat.pos_of_ne_zero hzero) (by omega)
    obtain ⟨hmsb, hmagnitude⟩ := hfields _ (by rw [htoNat]; omega)
    rw [hmagnitude, htoNat]
    exact ⟨hmsb, fun _ => ⟨hn, hvalue⟩, fun hge' => absurd hge' hge⟩

theorem decode_extendXfYf2 (h : p.Wider q) (a : p.Rep) :
    q.decode (p.extendXfYf2 q a) = p.decode a := by
  obtain ⟨hmsb, hfinite, hother⟩ := extendXfYf2_spec h a
  rcases Nat.lt_trichotomy (p.magnitude a) p.infinity with hlt | heq | hgt
  · obtain ⟨hlt', hvalue⟩ := hfinite hlt
    rw [Format.decode_finite hlt', Format.decode_finite hlt, hvalue, hmsb]
  · have hinfinite := hother heq.ge
    rw [heq, Nat.sub_self, Nat.zero_mul, Nat.add_zero] at hinfinite
    rw [Format.decode_infinite hinfinite, Format.decode_infinite heq, hmsb]
  · have hnan := hother hgt.le
    have hpos := Nat.mul_pos (Nat.sub_pos_of_lt hgt)
      (Nat.two_pow_pos (q.significandBits - p.significandBits))
    rw [Format.decode_nan (by omega), Format.decode_nan hgt]

end Precision

theorem extendsfdf2_exact (a : BitVec 32) :
    double.decode (extendsfdf2 a) = single.decode a :=
  Precision.decode_extendXfYf2 Precision.single_wider_double a

end Cpu0Toolchain.CompilerRt
