import Cpu0Toolchain.CompilerRt.FpLib
import Mathlib.Data.Nat.Cast.Field

/-!
# Soft-float addition

`fp_add_impl.inc`: `__addXf3__` for both precisions, and `__addsf3`, `__adddf3`, `__subsf3` and
`__subdf3`. The significands have three bits more than the result, and the last of them is sticky;
so far as a multiple of four goes, they are those of the exact sum.

## Main results

- `addXf3_isSum`: the sum is that of IEEE 754, for all operands.
- `subXf3_isSum`: so is the difference.
-/

namespace Cpu0Toolchain.CompilerRt
open BinaryFloat StickyBit

namespace Precision

variable (p : Precision)

/-- Zero, infinity, or NaN among the operands. -/
def addSpecial (a b : p.Rep) : Option p.Rep :=
  let aAbs := a &&& p.absMask
  let bAbs := b &&& p.absMask
  if aAbs - 1#p.typeWidth ≥ p.infRep - 1#p.typeWidth ∨
      bAbs - 1#p.typeWidth ≥ p.infRep - 1#p.typeWidth then
    -- NaN + anything = qNaN
    if aAbs > p.infRep then some (a ||| p.quietBit)
    -- anything + NaN = qNaN
    else if bAbs > p.infRep then some (b ||| p.quietBit)
    else if aAbs = p.infRep then
      -- +/-infinity + -/+infinity = qNaN
      if a ^^^ b = p.signBit then some p.qnanRep
      -- +/-infinity + anything remaining = +/- infinity
      else some a
    -- anything remaining + +/-infinity = +/-infinity
    else if bAbs = p.infRep then some b
    -- zero + anything = anything
    else if aAbs = 0#p.typeWidth then
      -- but we need to get the sign right for zero + zero
      if bAbs = 0#p.typeWidth then some (a &&& b) else some b
    -- anything + zero = anything
    else if bAbs = 0#p.typeWidth then some a
    else none
  else none

/-- Shift the significand of b by the difference in exponents, with a sticky bottom bit. -/
def alignSignificand (bSignificand : p.Rep) (align : ℕ) : p.Rep :=
  if align ≠ 0 then
    if align < p.typeWidth then
      let sticky := bSignificand <<< (p.typeWidth - align) != 0#p.typeWidth
      bSignificand >>> align ||| p.ofBool sticky
    else 1#p.typeWidth
  else bSignificand

/-- Left-shift the result of a subtraction if partial cancellation occurred. -/
def afterSubtraction (aExponent : ℤ) (aSignificand : p.Rep) : ℤ × p.Rep :=
  if aSignificand < p.implicitBit <<< 3 then
    let shift : ℤ := p.repClz aSignificand - p.repClz (p.implicitBit <<< 3)
    (aExponent - shift, aSignificand <<< shift.toNat)
  else (aExponent, aSignificand)

/-- Right-shift the result of an addition if it carried up. -/
def afterAddition (aExponent : ℤ) (aSignificand : p.Rep) : ℤ × p.Rep :=
  if aSignificand &&& p.implicitBit <<< 4 ≠ 0#p.typeWidth then
    let sticky := aSignificand &&& 1#p.typeWidth != 0#p.typeWidth
    (aExponent + 1, aSignificand >>> 1 ||| p.ofBool sticky)
  else (aExponent, aSignificand)

/-- From the check for overflow to the end. -/
def addResult (aExponent : ℤ) (aSignificand resultSign : p.Rep) : p.Rep :=
  -- If we have overflowed the type, return +/- infinity
  if aExponent ≥ p.maxExponent then p.infRep ||| resultSign
  else
    let (aExponent, aSignificand) :=
      if aExponent ≤ 0 then
        -- Result is denormal before rounding
        let shift := (1 - aExponent).toNat
        let sticky := aSignificand <<< (p.typeWidth - shift) != 0#p.typeWidth
        ((0 : ℤ), aSignificand >>> shift ||| p.ofBool sticky)
      else (aExponent, aSignificand)
    -- Low three bits are round, guard, and sticky
    let roundGuardSticky := (aSignificand &&& 7#p.typeWidth).toNat
    let result := aSignificand >>> 3 &&& p.significandMask
    let result := result ||| BitVec.ofInt p.typeWidth aExponent <<< p.significandBits
    let result := result ||| resultSign
    p.finalRounding roundGuardSticky 4 result

/-- The sum of two operands that are finite and not zero, the larger one first. -/
def addOrdered (aRep bRep : p.Rep) : p.Rep :=
  let (aExponent, aSignificand) := p.operand aRep
  let (bExponent, bSignificand) := p.operand bRep
  let resultSign := aRep &&& p.signBit
  let subtraction := (aRep ^^^ bRep) &&& p.signBit != 0#p.typeWidth
  let aSignificand := (aSignificand ||| p.implicitBit) <<< 3
  let bSignificand := (bSignificand ||| p.implicitBit) <<< 3
  let align := (aExponent - bExponent).toNat
  let bSignificand := p.alignSignificand bSignificand align
  if subtraction then
    let aSignificand := aSignificand - bSignificand
    -- If a == -b, return +zero
    if aSignificand = 0#p.typeWidth then 0#p.typeWidth
    else
      let (aExponent, aSignificand) := p.afterSubtraction aExponent aSignificand
      p.addResult aExponent aSignificand resultSign
  else
    let (aExponent, aSignificand) := p.afterAddition aExponent (aSignificand + bSignificand)
    p.addResult aExponent aSignificand resultSign

/-- `__addXf3__` -/
def addXf3 (a b : p.Rep) : p.Rep :=
  match p.addSpecial a b with
  | some result => result
  | none =>
    let aAbs := a &&& p.absMask
    let bAbs := b &&& p.absMask
    -- Swap a and b if necessary so that a has the larger absolute value
    if bAbs > aAbs then p.addOrdered b a else p.addOrdered a b

/-- `__subsf3` and `__subdf3` -/
def subXf3 (a b : p.Rep) : p.Rep := p.addXf3 a (b ^^^ p.signBit)

end Precision

def addsf3 : BitVec 32 → BitVec 32 → BitVec 32 := single.addXf3

def adddf3 : BitVec 64 → BitVec 64 → BitVec 64 := double.addXf3

def subsf3 : BitVec 32 → BitVec 32 → BitVec 32 := single.subXf3

def subdf3 : BitVec 64 → BitVec 64 → BitVec 64 := double.subXf3

namespace Precision

variable {p : Precision}

/-! ## The significands -/

theorem toNat_alignSignificand {b : p.Rep} (hpos : 0 < b.toNat) (align : ℕ) :
    (p.alignSignificand b align).toNat = jam b.toNat align := by
  rw [alignSignificand]
  by_cases hzero : align = 0
  · rw [if_neg (not_not.mpr hzero), hzero, jam_zero]
  rw [if_pos hzero]
  by_cases hlt : align < p.typeWidth
  · rw [if_pos hlt]
    exact toNat_shift_sticky b align
  · have hall : b.toNat < 2 ^ align :=
      Nat.lt_of_lt_of_le b.isLt (Nat.pow_le_pow_right (by decide) (Nat.not_lt.mp hlt))
    rw [if_neg hlt, toNat_oneRep, jam_of_lt hpos hall]

/-- Bits below the significands of a format fit. -/
theorem guard_lt : 32 * 2 ^ p.significandBits ≤ 2 ^ p.typeWidth := by
  have hpow : 2 ^ (5 + p.significandBits) ≤ 2 ^ p.typeWidth :=
    Nat.pow_le_pow_right (by decide) (by
      have := p.exponentBits_ge
      rw [typeWidth_eq]
      omega)
  rwa [Nat.pow_add] at hpow

/-- A significand that is in its place again, with an exponent for it. -/
def Guarded (p : Precision) (E : ℤ) (S : p.Rep) (x : ℚ) : Prop :=
  8 * 2 ^ p.significandBits ≤ S.toNat ∧ S.toNat < 16 * 2 ^ p.significandBits ∧
    ∃ y : ℚ, SameSide (4 : ℚ) S.toNat y ∧ x = y / 8 * 2 ^ (E - 1) * p.quantum

theorem guarded_afterAddition {E : ℤ} {S : p.Rep} {y : ℚ}
    (hlow : 8 * 2 ^ p.significandBits ≤ S.toNat) (hhigh : S.toNat < 32 * 2 ^ p.significandBits)
    (hside : SameSide (2 : ℚ) S.toNat y) :
    ∃ (E' : ℤ) (S' : p.Rep), p.afterAddition E S = (E', S') ∧
      Guarded p E' S' (y / 8 * 2 ^ (E - 1) * p.quantum) := by
  have hguard := guard_lt (p := p)
  have hpos := Nat.two_pow_pos p.significandBits
  have hplace : 2 ^ (p.significandBits + 4) = 16 * 2 ^ p.significandBits := by
    rw [Nat.pow_add]
    omega
  have hbit : (p.implicitBit <<< 4).toNat = 2 ^ (p.significandBits + 4) := by
    rw [toNat_shiftLeft_of_lt (by rw [toNat_implicitBit]; omega), toNat_implicitBit, Nat.pow_add]
  have hcarry : S &&& p.implicitBit <<< 4 ≠ 0#p.typeWidth ↔
      16 * 2 ^ p.significandBits ≤ S.toNat := by
    rw [← hplace]
    exact and_bit_ne_zero hbit (by rw [Nat.pow_succ]; omega)
  rw [afterAddition]
  by_cases hover : 16 * 2 ^ p.significandBits ≤ S.toNat
  · rw [if_pos (hcarry.mpr hover)]
    have hlast : (S &&& 1#p.typeWidth != 0#p.typeWidth) = (S.toNat % 2 ^ 1 != 0) := by
      rw [Bool.eq_iff_iff, bne_iff_ne, bne_iff_ne, ne_eq, ← BitVec.toNat_inj, BitVec.toNat_and,
        toNat_oneRep, Nat.and_one_is_mod]
      rfl
    have hjam : (S >>> 1 ||| p.ofBool (S &&& 1#p.typeWidth != 0#p.typeWidth)).toNat =
        jam S.toNat 1 := by
      rw [BitVec.toNat_or, BitVec.toNat_ushiftRight, Nat.shiftRight_eq_div_pow, toNat_ofBool,
        hlast, jam]
      congr 1
      by_cases hzero : S.toNat % 2 ^ 1 = 0
      · rw [hzero, if_pos rfl]
        rfl
      · rw [if_neg hzero, if_pos (bne_iff_ne.mpr hzero)]
    have hbelow := (jam_even_iff S.toNat 1 (8 * 2 ^ p.significandBits)).1.mpr (by omega)
    have habove := (jam_even_iff S.toNat 1 (4 * 2 ^ p.significandBits)).1.not.mpr (by omega)
    have hhalf : SameSide (4 : ℚ) (jam S.toNat 1) (y / 2) := by
      have hjammed := (hside.jam 1 2 (by norm_num)).coarsen 2
      norm_num at hjammed
      exact hjammed
    refine ⟨_, _, rfl, by omega, by omega, y / 2, by rwa [hjam], ?_⟩
    rw [add_sub_right_comm, zpow_add_one₀ two_ne_zero]
    ring
  · rw [if_neg (mt hcarry.mp hover)]
    refine ⟨E, S, rfl, hlow, Nat.not_le.mp hover, y, ?_, rfl⟩
    have hcoarse := hside.coarsen 2
    norm_num at hcoarse
    exact hcoarse

/-- After a subtraction bits are shifted in from the right. There are none in the exact sum, or it
is a shift by one place at most. -/
theorem guarded_afterSubtraction {E : ℤ} {S : p.Rep} {y : ℚ} (hpos : 0 < S.toNat)
    (hhigh : S.toNat < 16 * 2 ^ p.significandBits) (hside : SameSide (2 : ℚ) S.toNat y)
    (hexact : S.toNat = y ∨ 4 * 2 ^ p.significandBits ≤ S.toNat) :
    ∃ (E' : ℤ) (S' : p.Rep), p.afterSubtraction E S = (E', S') ∧
      Guarded p E' S' (y / 8 * 2 ^ (E - 1) * p.quantum) := by
  have hguard := guard_lt (p := p)
  have hplace : 2 ^ (p.significandBits + 3) = 8 * 2 ^ p.significandBits := by
    rw [Nat.pow_add]
    omega
  have hbit : (p.implicitBit <<< 3).toNat = 8 * 2 ^ p.significandBits := by
    rw [toNat_shiftLeft_of_lt (by rw [toNat_implicitBit]; omega), toNat_implicitBit]
    omega
  rw [afterSubtraction]
  by_cases hlt : S < p.implicitBit <<< 3
  · rw [if_pos hlt]
    rw [BitVec.lt_def, hbit] at hlt
    have hne : S ≠ 0#p.typeWidth := by
      rintro rfl
      exact hpos.ne rfl
    obtain ⟨k, hk, hlow, hshifted⟩ := exists_shift hne (t := p.significandBits + 3)
      (by rw [Nat.pow_succ]; omega)
    rw [Nat.pow_succ] at hshifted
    have himplicit := repClz_add (a := p.implicitBit <<< 3) (t := p.significandBits + 3)
      (by omega) (by rw [Nat.pow_succ]; omega)
    have hshift : (p.repClz S - p.repClz (p.implicitBit <<< 3) : ℤ) = k := by omega
    have hside' : SameSide (4 : ℚ) ((S.toNat * 2 ^ k : ℕ) : ℚ) (y * 2 ^ k) := by
      rcases hexact with rfl | hlarge
      · push_cast
        exact SameSide.refl _ _
      · have hk1 : k ≤ 1 := by
          by_contra hgt
          have hmul := Nat.mul_le_mul hlarge (Nat.pow_le_pow_right (n := 2) (by decide)
            (show 2 ≤ k by omega))
          omega
        push_cast
        rcases Nat.le_one_iff_eq_zero_or_eq_one.mp hk1 with rfl | rfl
        · have hcoarse := hside.coarsen 2
          norm_num at hcoarse ⊢
          exact hcoarse
        · have hdouble := hside.mul_left (c := 2) two_pos
          norm_num at hdouble ⊢
          rwa [mul_comm, mul_comm y]
    rw [hshift]
    have htoNat : (S <<< k).toNat = S.toNat * 2 ^ k := toNat_shiftLeft_of_lt (by omega)
    refine ⟨E - k, S <<< k, rfl, by omega, by omega, y * 2 ^ k, by rwa [htoNat], ?_⟩
    have hexp : (2 : ℚ) ^ (E - 1) = 2 ^ k * 2 ^ (E - k - 1) := by
      rw [← zpow_natCast, ← zpow_add₀ two_ne_zero]
      congr 1
      omega
    rw [hexp]
    ring
  · rw [if_neg hlt]
    rw [BitVec.lt_def, hbit, Nat.not_lt] at hlt
    refine ⟨E, S, rfl, hlt, hhigh, y, ?_, rfl⟩
    have hcoarse := hside.coarsen 2
    norm_num at hcoarse
    exact hcoarse

/-! ## The result -/

theorem toNat_roundGuardSticky (a : p.Rep) : (a &&& 7#p.typeWidth).toNat = a.toNat % 8 := by
  have hwidth : 3 ≤ p.typeWidth := by
    have := p.exponentBits_ge
    rw [typeWidth_eq]
    omega
  have hseven : (7#p.typeWidth).toNat = 2 ^ 3 - 1 := by
    rw [BitVec.toNat_ofNat]
    exact Nat.mod_eq_of_lt (Nat.lt_of_lt_of_le (by decide)
      (Nat.pow_le_pow_right (by decide : 0 < 2) hwidth))
  rw [BitVec.toNat_and, hseven, Nat.and_two_pow_sub_one_eq_mod]

/-- The result, from an exponent that is not negative and is not too large. -/
theorem addResult_of_pack {E : ℕ} {S sign : p.Rep} {y : ℚ} {negative : Bool}
    (hE : E < p.maxExponent) (hS : S.toNat < 16 * 2 ^ p.significandBits)
    (hnormal : E = 0 ∧ S.toNat < 8 * 2 ^ p.significandBits ∨
      0 < E ∧ 8 * 2 ^ p.significandBits ≤ S.toNat)
    (hside : SameSide (4 : ℚ) S.toNat y) (hsign : sign.toNat = p.signWord negative) :
    p.Rounded negative (y / 8 * 2 ^ (E - 1) * p.quantum)
      (p.decode (p.finalRounding (S &&& 7#p.typeWidth).toNat 4 ((S >>> 3 &&& p.significandMask) |||
        BitVec.ofInt p.typeWidth E <<< p.significandBits ||| sign))) := by
  have hpos : 0 < 2 ^ p.significandBits := Nat.two_pow_pos _
  have hmax := p.maxExponent_eq
  have hmod := Nat.mod_lt S.toNat (by decide : 0 < 8)
  have hq : S.toNat / 8 < 2 * 2 ^ p.significandBits := by omega
  -- the number before the final rounding
  have hbits : (S >>> 3 &&& p.significandMask).toNat = S.toNat / 8 % 2 ^ p.significandBits := by
    rw [toNat_and_significandMask, BitVec.toNat_ushiftRight, Nat.shiftRight_eq_div_pow]
  have hnumber : E * 2 ^ p.significandBits + S.toNat / 8 % 2 ^ p.significandBits =
      (E - 1) * 2 ^ p.significandBits + S.toNat / 8 := by
    rcases hnormal with ⟨rfl, hlt⟩ | ⟨hpos, hge⟩
    · rw [Nat.mod_eq_of_lt (by omega)]
    · exact pack_eq hq hpos (by omega)
  have hlt := pack_lt hq hE
  have hresult : ((S >>> 3 &&& p.significandMask) |||
      BitVec.ofInt p.typeWidth E <<< p.significandBits ||| sign).toNat =
        p.signWord negative + ((E - 1) * 2 ^ p.significandBits + S.toNat / 8) := by
    have hexponent := toNat_or_exponent (a := S >>> 3 &&& p.significandMask) (E := E)
      (by rw [hbits]; exact Nat.mod_lt _ hpos) (by omega)
    rw [hbits, hnumber] at hexponent
    rw [toNat_or_sign (by rw [hexponent]; exact hlt.trans p.infinity_lt) hsign, hexponent]
  rw [toNat_roundGuardSticky]
  refine rounded_finalRounding (y := y) hq (by omega) hlt hmod ?_ ?_ hresult
  · rw [show S.toNat / 8 * (2 * 4) + S.toNat % 8 = S.toNat by omega]
    exact_mod_cast hside
  · norm_num

/-- The result from an exponent and a significand with three more bits, which have to be those of
the exact sum so far as the multiples of four go. -/
theorem addResult_rounded {E : ℤ} {S sign : p.Rep} {y : ℚ} {negative : Bool}
    (hlow : 8 * 2 ^ p.significandBits ≤ S.toNat) (hhigh : S.toNat < 16 * 2 ^ p.significandBits)
    (hside : SameSide (4 : ℚ) S.toNat y) (hsign : sign.toNat = p.signWord negative) :
    p.Rounded negative (y / 8 * 2 ^ (E - 1) * p.quantum) (p.decode (p.addResult E S sign)) := by
  rw [addResult]
  by_cases hover : E ≥ p.maxExponent
  · rw [if_pos hover]
    have hmultiple : ((2 * 2 ^ p.significandBits : ℤ) : ℚ) * 4 ≤ S.toNat := by
      push_cast
      have hcast : (8 * 2 ^ p.significandBits : ℚ) ≤ S.toNat := by exact_mod_cast hlow
      linarith
    have hy := (hside.le_iff _).mp hmultiple
    push_cast at hy
    exact rounded_overflow hover (by linarith) hsign
  · rw [if_neg hover]
    by_cases hdenormal : E ≤ 0
    · rw [if_pos hdenormal]
      obtain ⟨k, hk⟩ := Int.eq_ofNat_of_zero_le (sub_nonneg.mpr hdenormal)
      obtain rfl : E = -k := by omega
      have hshift : (1 - -(k : ℤ)).toNat = k + 1 := by omega
      have hjam := toNat_shift_sticky S (k + 1)
      have hlt : jam S.toNat (k + 1) < 8 * 2 ^ p.significandBits := by
        have hbound := (jam_even_iff S.toNat (k + 1) (4 * 2 ^ p.significandBits)).1.mpr (by
          have := Nat.mul_le_mul_left (8 * 2 ^ p.significandBits) (Nat.one_le_two_pow (n := k))
          rw [Nat.pow_succ]
          grind)
        omega
      have hstep : (2 : ℚ) * 2 ^ (k + 1) = ((2 ^ k : ℤ) : ℚ) * 4 := by
        push_cast
        ring
      have hjammed : SameSide (4 : ℚ) (jam S.toNat (k + 1)) (y / 2 ^ (k + 1)) := by
        have := (hside.jam (k + 1) (2 ^ k) hstep).coarsen 2
        norm_num at this
        exact this
      have hpack := addResult_of_pack (E := 0)
        (S := S >>> (k + 1) ||| p.ofBool (S <<< (p.typeWidth - (k + 1)) != 0#p.typeWidth))
        (y := y / 2 ^ (k + 1)) (Nat.lt_of_succ_lt p.one_lt_maxExponent) (by rw [hjam]; omega)
        (.inl ⟨rfl, by rwa [hjam]⟩) (by rwa [hjam]) hsign
      have hexp : y / 8 * (2 : ℚ) ^ (-(k : ℤ) - 1) = y / 2 ^ (k + 1) / 8 * 2 ^ (0 - 1) := by
        have hneg : -(k : ℤ) - 1 = -((k + 1 : ℕ) : ℤ) := by omega
        rw [hneg, zpow_neg, zpow_natCast]
        ring
      rw [hexp, hshift]
      exact hpack
    · rw [if_neg hdenormal]
      obtain ⟨k, rfl⟩ := Int.eq_ofNat_of_zero_le (Int.le_of_lt (Int.not_le.mp hdenormal))
      obtain ⟨j, rfl⟩ := Nat.exists_eq_add_of_le' (show 0 < k by omega)
      have hpack := addResult_of_pack (E := j + 1) (by omega) hhigh (.inr ⟨by omega, hlow⟩) hside
        hsign
      have hexp : (2 : ℚ) ^ ((j + 1 : ℕ) - 1 : ℤ) = 2 ^ (j + 1 - 1) := by
        rw [Nat.cast_succ, add_sub_cancel_right, zpow_natCast, Nat.add_sub_cancel]
      rw [hexp]
      exact hpack

/-! ## The sum -/

theorem guarded_rounded {E : ℤ} {S sign : p.Rep} {x : ℚ} {negative : Bool}
    (h : Guarded p E S x) (hsign : sign.toNat = p.signWord negative) :
    p.Rounded negative x (p.decode (p.addResult E S sign)) := by
  obtain ⟨hlow, hhigh, y, hside, rfl⟩ := h
  exact addResult_rounded hlow hhigh hside hsign

theorem opposite_signs (a b : p.Rep) :
    ((a ^^^ b) &&& p.signBit != 0#p.typeWidth) = (a.msb ^^ b.msb) := by
  have hbits := p.toNat_and_signBit (a ^^^ b)
  rw [BitVec.msb_xor] at hbits
  rw [Bool.eq_iff_iff, bne_iff_ne, ne_eq, ← BitVec.toNat_inj, hbits, BitVec.toNat_zero]
  cases a.msb ^^ b.msb with
  | true => simp
  | false => simp

theorem exponent_le {ea eb : ℤ} {na nb : ℕ} (ha : na < 2 * 2 ^ p.significandBits)
    (hb : 2 ^ p.significandBits ≤ nb)
    (h : nb * 2 ^ (eb - 1) * p.quantum ≤ na * 2 ^ (ea - 1) * p.quantum) : eb ≤ ea := by
  by_contra hlt
  have hquantum := p.quantum_pos
  have hpow : (2 : ℚ) * 2 ^ (ea - 1) ≤ 2 ^ (eb - 1) := by
    rw [← zpow_one_add₀ two_ne_zero]
    exact zpow_le_zpow_right₀ one_le_two (by omega)
  have hea : (0 : ℚ) < 2 ^ (ea - 1) := zpow_pos two_pos _
  have hle := le_of_mul_le_mul_right h hquantum
  have hb' : (2 ^ p.significandBits : ℚ) ≤ nb := by exact_mod_cast hb
  have ha' : (na : ℚ) < 2 * 2 ^ p.significandBits := by exact_mod_cast ha
  have hone : (0 : ℚ) < 2 ^ p.significandBits := by positivity
  nlinarith

section Aligned

variable {E : ℤ} {A B : p.Rep} {na nb d : ℕ}

/-- The aligned significand is that of the second operand, but for a sticky bit. -/
theorem aligned_side (hB : B.toNat = jam (8 * nb) d) :
    SameSide (2 : ℚ) B.toNat (8 * nb / 2 ^ d) := by
  have hside := sameSide_jam (K := ℚ) (8 * nb) d
  rw [Nat.cast_mul, Nat.cast_ofNat] at hside
  rwa [hB]

theorem aligned_le (hB : B.toNat = jam (8 * nb) d) : B.toNat ≤ 8 * nb := by
  have hle := (jam_even_iff (8 * nb) d (4 * nb)).2.not.mpr (Nat.not_lt.mpr (by
    have := Nat.le_mul_of_pos_right (8 * nb) (Nat.two_pow_pos d)
    rwa [show 2 * (4 * nb) = 8 * nb by omega]))
  omega

theorem addition_guarded (hA : A.toNat = 8 * na) (hlow : 2 ^ p.significandBits ≤ na)
    (hhigh : na < 2 * 2 ^ p.significandBits) (hB : B.toNat = jam (8 * nb) d)
    (hnb : nb < 2 * 2 ^ p.significandBits) :
    ∃ (E' : ℤ) (S' : p.Rep), p.afterAddition E (A + B) = (E', S') ∧
      Guarded p E' S' ((8 * na + 8 * nb / 2 ^ d) / 8 * 2 ^ (E - 1) * p.quantum) := by
  have hguard := guard_lt (p := p)
  have hsmall := aligned_le hB
  have hsum : (A + B).toNat = 8 * na + B.toNat := by
    rw [BitVec.toNat_add, hA, Nat.mod_eq_of_lt (by omega)]
  refine guarded_afterAddition (by omega) (by omega) ?_
  have hadd := (aligned_side hB).add (4 * na)
  rw [hsum]
  push_cast at hadd ⊢
  rwa [show (4 * na * 2 : ℚ) = 8 * na by ring] at hadd

theorem subtraction_guarded (hA : A.toNat = 8 * na) (hlow : 2 ^ p.significandBits ≤ na)
    (hhigh : na < 2 * 2 ^ p.significandBits) (hB : B.toNat = jam (8 * nb) d)
    (hnb : nb < 2 * 2 ^ p.significandBits) (hle : (8 * nb / 2 ^ d : ℚ) ≤ 8 * na) :
    (A - B = 0#p.typeWidth ∧ (8 * na : ℚ) = 8 * nb / 2 ^ d) ∨
      A - B ≠ 0#p.typeWidth ∧ (8 * nb / 2 ^ d : ℚ) < 8 * na ∧
        ∃ (E' : ℤ) (S' : p.Rep), p.afterSubtraction E (A - B) = (E', S') ∧
          Guarded p E' S' ((8 * na - 8 * nb / 2 ^ d) / 8 * 2 ^ (E - 1) * p.quantum) := by
  have hside := aligned_side hB
  have heven : ((4 * na : ℤ) : ℚ) * 2 = 8 * na := by
    push_cast
    ring
  have hBA : B.toNat ≤ 8 * na := by
    have := (hside.ge_iff (4 * na)).mpr (by rwa [heven])
    rw [heven] at this
    exact_mod_cast this
  have hdiff : (A - B).toNat = 8 * na - B.toNat := by
    rw [BitVec.toNat_sub_of_le (by rwa [BitVec.le_def, hA]), hA]
  have hsub := hside.sub (4 * na)
  rw [heven] at hsub
  have hcast : (((A - B).toNat : ℕ) : ℚ) = 8 * na - B.toNat := by
    rw [hdiff, Nat.cast_sub hBA]
    push_cast
    rfl
  rw [← hcast] at hsub
  by_cases hzero : A - B = 0#p.typeWidth
  · left
    refine ⟨hzero, ?_⟩
    have hz := (hsub.eq_iff 0).mp (by rw [hzero]; norm_num)
    rw [Int.cast_zero, zero_mul] at hz
    linarith
  · right
    have hne : (A - B).toNat ≠ 0 := fun h => hzero (BitVec.eq_of_toNat_eq h)
    have hpos : 0 < (8 * na - 8 * nb / 2 ^ d : ℚ) := by
      have := (hsub.gt_iff 0).mp (by
        rw [Int.cast_zero, zero_mul]
        exact_mod_cast Nat.pos_of_ne_zero hne)
      rwa [Int.cast_zero, zero_mul] at this
    refine ⟨hzero, by linarith,
        guarded_afterSubtraction (Nat.pos_of_ne_zero hne) (by omega) hsub ?_⟩
    -- the bits that were shifted out are zeros, or the first operand is far larger
    rcases Nat.lt_or_ge d 4 with hd | hd
    · left
      have hdvd : 2 ^ d ∣ 8 * nb :=
        Dvd.dvd.mul_right (Nat.pow_dvd_pow 2 (Nat.le_of_lt_succ hd) : 2 ^ d ∣ 2 ^ 3) nb
      rw [hcast, hB, jam_of_dvd (Nat.mod_eq_zero_of_dvd hdvd),
        Nat.cast_div hdvd (Nat.cast_ne_zero.mpr (Nat.two_pow_pos d).ne')]
      push_cast
      rfl
    · right
      have hpow := Nat.pow_le_pow_right (n := 2) (by decide) hd
      have hbelow := (jam_even_iff (8 * nb) d (2 ^ p.significandBits)).1.mpr (by
        have := Nat.mul_le_mul_left (2 * 2 ^ p.significandBits) hpow
        omega)
      omega

end Aligned

/-- The significand of an operand with room for the guard bits. -/
theorem toNat_guardBits {S : p.Rep} {n : ℕ} (hn : S.toNat = n)
    (hhigh : n < 2 * 2 ^ p.significandBits) : (S <<< 3).toNat = 8 * n := by
  have hguard := guard_lt (p := p)
  rw [toNat_shiftLeft_of_lt (by rw [hn]; omega), hn]
  exact Nat.mul_comm _ _

theorem addOrdered_isSum {a b : p.Rep} (hb : 0 < p.magnitude b)
    (hab : p.magnitude b ≤ p.magnitude a) (ha : p.magnitude a < p.infinity) :
    p.IsSum (p.decode a) (p.decode b) (p.decode (p.addOrdered a b)) := by
  have hquantum := p.quantum_pos
  obtain ⟨ea, sa, na, hopa, hsa, hlowa, hhigha, -, hva⟩ :=
    operand_spec (Nat.lt_of_lt_of_le hb hab) ha
  obtain ⟨eb, sb, nb, hopb, hsb, hlowb, hhighb, -, hvb⟩ :=
    operand_spec hb (Nat.lt_of_le_of_lt hab ha)
  have hvalue : p.value (p.magnitude b) ≤ p.value (p.magnitude a) :=
    p.value_strictMono.monotone hab
  have hexp : eb ≤ ea := exponent_le hhigha hlowb (by rwa [← hva, ← hvb])
  obtain ⟨d, hd⟩ := Int.eq_ofNat_of_zero_le (sub_nonneg.mpr hexp)
  -- the second operand with the exponent of the first
  have hvb' : p.value (p.magnitude b) = 8 * nb / 2 ^ d / 8 * 2 ^ (ea - 1) * p.quantum := by
    have hpow : (2 : ℚ) ^ (ea - 1) = 2 ^ d * 2 ^ (eb - 1) := by
      rw [← zpow_natCast, ← zpow_add₀ two_ne_zero]
      congr 1
      omega
    rw [hvb, hpow]
    field_simp
  have hva' : p.value (p.magnitude a) = 8 * na / 8 * 2 ^ (ea - 1) * p.quantum := by
    rw [hva]
    ring
  have hA : ((sa ||| p.implicitBit) <<< 3).toNat = 8 * na := toNat_guardBits hsa hhigha
  have hB : ((sb ||| p.implicitBit) <<< 3).toNat = 8 * nb := toNat_guardBits hsb hhighb
  have hB' := toNat_alignSignificand (b := (sb ||| p.implicitBit) <<< 3) (by omega) d
  rw [hB] at hB'
  have hunit : (0 : ℚ) < 2 ^ (ea - 1) * p.quantum := mul_pos (zpow_pos two_pos _) hquantum
  rw [addOrdered, hopa, hopb]
  dsimp only
  rw [opposite_signs, hd, Int.toNat_natCast, Format.decode, Format.decode, Format.datum_of_lt ha,
    Format.datum_of_lt (Nat.lt_of_le_of_lt hab ha)]
  have hposa := Format.value_pos (f := p.toFormat) (Nat.lt_of_lt_of_le hb hab)
  have hposb := Format.value_pos (f := p.toFormat) hb
  have hsign : (a &&& p.signBit).toNat = p.signWord a.msb := p.toNat_and_signBit a
  by_cases hsigns : a.msb = b.msb
  · rw [← hsigns, Bool.xor_self, if_neg Bool.false_ne_true]
    obtain ⟨E', S', hafter, hguarded⟩ := addition_guarded (E := ea) hA hlowa hhigha hB' hhighb
    rw [hafter]
    apply Format.isSum_same hposa hposb
    rw [hva', hvb', ← add_mul, ← add_mul, ← add_div]
    exact guarded_rounded hguarded hsign
  · have hopposite : b.msb = !a.msb := by
      rw [Bool.eq_not]
      exact Ne.symm hsigns
    have hle : (8 * nb / 2 ^ d : ℚ) ≤ 8 * na := by
      rw [hva', hvb', mul_assoc, mul_assoc] at hvalue
      have := le_of_mul_le_mul_right hvalue hunit
      linarith
    rw [hopposite, Bool.xor_not_self, if_pos rfl]
    rcases subtraction_guarded (E := ea) hA hlowa hhigha hB' hhighb hle with
      ⟨hzero, heq⟩ | ⟨hne, hlt, E', S', hafter, hguarded⟩
    · rw [if_pos hzero, hvb', ← heq, ← hva']
      rw [Format.decode_zero]
      exact Format.isSum_cancel _ _
    · rw [if_neg hne, hafter]
      apply Format.isSum_opposite
      · rw [hva', hvb', mul_assoc, mul_assoc]
        exact mul_lt_mul_of_pos_right (by linarith) hunit
      · rw [hva', hvb', ← sub_mul, ← sub_mul, ← sub_div]
        exact guarded_rounded hguarded hsign

/-! ## Zeros, infinities and NaNs -/

theorem zeroOrInfinite_iff (a : p.Rep) :
    (a &&& p.absMask) - 1#p.typeWidth ≥ p.infRep - 1#p.typeWidth ↔
      p.magnitude a = 0 ∨ p.infinity ≤ p.magnitude a := by
  rw [sub_one_ge_iff (by rw [toNat_infRep]; exact p.infinity_pos), toNat_and_absMask,
    toNat_infRep]

theorem opposite_iff (a b : p.Rep) :
    a ^^^ b = p.signBit ↔ a.msb ≠ b.msb ∧ p.magnitude a = p.magnitude b := by
  rw [rep_ext_iff, magnitude_xor, magnitude_signBit, BitVec.msb_xor, msb_signBit,
    Nat.xor_eq_zero_iff, bne_iff_ne]

theorem decode_and_zero {a : p.Rep} (b : p.Rep) (ha : p.magnitude a = 0) :
    p.decode (a &&& b) = .finite (a.msb && b.msb) 0 := by
  have hmagnitude : p.magnitude (a &&& b) = 0 := by
    rw [Format.magnitude, BitVec.toNat_and, Nat.and_mod_two_pow]
    change p.magnitude a &&& p.magnitude b = 0
    rw [ha, Nat.zero_and]
  rw [Format.decode, hmagnitude, BitVec.msb_and, Format.datum_of_lt p.infinity_pos, p.value_zero]

/-- What is left are two finite operands that are not zero. -/
theorem addSpecial_isSum (a b : p.Rep) :
    match p.addSpecial a b with
    | some result => p.IsSum (p.decode a) (p.decode b) (p.decode result)
    | none => (0 < p.magnitude a ∧ p.magnitude a < p.infinity) ∧
        0 < p.magnitude b ∧ p.magnitude b < p.infinity := by
  have hpos : 0 < p.infinity := p.infinity_pos
  simp only [addSpecial, zeroOrInfinite_iff, abs_gt_infRep, abs_eq_infRep, abs_eq_zero,
    opposite_iff]
  by_cases hspecial : (p.magnitude a = 0 ∨ p.infinity ≤ p.magnitude a) ∨
      p.magnitude b = 0 ∨ p.infinity ≤ p.magnitude b
  swap
  · rw [if_neg hspecial]
    dsimp only
    omega
  rw [if_pos hspecial]
  by_cases hnana : p.infinity < p.magnitude a
  · rw [if_pos hnana]
    dsimp only
    rw [decode_quiet hnana, Format.decode_nan hnana]
    rfl
  rw [if_neg hnana]
  by_cases hnanb : p.infinity < p.magnitude b
  · rw [if_pos hnanb]
    dsimp only
    rw [decode_quiet hnanb, Format.decode_nan hnanb]
    exact Format.isSum_nan _
  rw [if_neg hnanb]
  by_cases hinfa : p.magnitude a = p.infinity
  · rw [if_pos hinfa]
    by_cases hinfb : p.magnitude b = p.infinity
    · by_cases hsigns : a.msb = b.msb
      · rw [if_neg (fun h => h.1 hsigns)]
        dsimp only
        rw [Format.decode_infinite hinfa, Format.decode_infinite hinfb]
        exact (if_pos hsigns).symm
      · rw [if_pos ⟨hsigns, hinfa.trans hinfb.symm⟩]
        dsimp only
        rw [decode_qnanRep, Format.decode_infinite hinfa, Format.decode_infinite hinfb]
        exact (if_neg hsigns).symm
    · rw [if_neg (fun h => hinfb (h.2.symm.trans hinfa))]
      dsimp only
      rw [Format.decode_infinite hinfa, Format.decode_finite (by omega)]
      rfl
  rw [if_neg hinfa]
  by_cases hinfb : p.magnitude b = p.infinity
  · rw [if_pos hinfb]
    dsimp only
    rw [Format.decode_infinite hinfb, Format.decode_finite (by omega)]
    rfl
  rw [if_neg hinfb]
  by_cases hzeroa : p.magnitude a = 0
  · rw [if_pos hzeroa, Format.decode_eq_zero hzeroa]
    by_cases hzerob : p.magnitude b = 0
    · rw [if_pos hzerob]
      dsimp only
      rw [Format.decode_eq_zero hzerob, decode_and_zero b hzeroa]
      exact Format.isSum_zeros _ _
    · rw [if_neg hzerob]
      dsimp only
      rw [Format.decode_finite (by omega)]
      exact Format.isSum_zero _ _ (Nat.pos_of_ne_zero hzerob) (by omega)
  rw [if_neg hzeroa]
  by_cases hzerob : p.magnitude b = 0
  · rw [if_pos hzerob]
    dsimp only
    rw [Format.decode_eq_zero hzerob, Format.decode_finite (by omega)]
    exact (Format.isSum_zero _ _ (Nat.pos_of_ne_zero hzeroa) (by omega)).symm
  · omega

theorem addXf3_isSum (a b : p.Rep) :
    p.IsSum (p.decode a) (p.decode b) (p.decode (p.addXf3 a b)) := by
  have hspecial := addSpecial_isSum a b
  rw [addXf3]
  cases hresult : p.addSpecial a b with
  | some result =>
    rw [hresult] at hspecial
    exact hspecial
  | none =>
    rw [hresult] at hspecial
    obtain ⟨⟨hposa, hfinitea⟩, hposb, hfiniteb⟩ := hspecial
    dsimp only
    by_cases hswap : b &&& p.absMask > a &&& p.absMask
    · rw [if_pos hswap]
      rw [gt_iff_lt, BitVec.lt_def, toNat_and_absMask, toNat_and_absMask] at hswap
      exact (addOrdered_isSum hposa hswap.le hfiniteb).symm
    · rw [if_neg hswap]
      rw [gt_iff_lt, BitVec.lt_def, toNat_and_absMask, toNat_and_absMask, Nat.not_lt] at hswap
      exact addOrdered_isSum hposb hswap hfinitea

theorem subXf3_isSum (a b : p.Rep) :
    p.IsSum (p.decode a) (p.decode b).neg (p.decode (p.subXf3 a b)) := by
  rw [subXf3, ← decode_xor_signBit]
  exact addXf3_isSum a _

end Precision

/-- The sums and differences of both precisions are those of IEEE 754, for all operands. -/
theorem addition_isSum :
    (∀ a b, single.IsSum (single.decode a) (single.decode b) (single.decode (addsf3 a b)) ∧
      single.IsSum (single.decode a) (single.decode b).neg (single.decode (subsf3 a b))) ∧
    ∀ a b, double.IsSum (double.decode a) (double.decode b) (double.decode (adddf3 a b)) ∧
      double.IsSum (double.decode a) (double.decode b).neg (double.decode (subdf3 a b)) :=
  ⟨fun a b => ⟨Precision.addXf3_isSum a b, Precision.subXf3_isSum a b⟩,
    fun a b => ⟨Precision.addXf3_isSum a b, Precision.subXf3_isSum a b⟩⟩

end Cpu0Toolchain.CompilerRt
