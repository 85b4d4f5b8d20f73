import Cpu0Toolchain.CompilerRt.FpConvert
import Cpu0Toolchain.CompilerRt.IntLib
import Cpu0Toolchain.Library.PcRelative

/-!
# From floating-point numbers to integers

`fixsfsi.c`, `fixdfsi.c`, `fixsfdi.c`, `fixunssfsi.c`, `fixunssfdi.c`, `fixdfdi.c`, `fixunsdfdi.c`
and `fixunsdfsi.c`. None of them checks the range. Past it there may be no result: the shift amount
reaches the width of the word or is negative, or a signed number is shifted past its sign.

## Main results

- `fixsfsi_eq`, `fixdfsi_eq`: the number without its fraction, and what is printed.
- `fixsfdi_eq`, `fixunssfsi_eq`, `fixunssfdi_eq`: the other conversions from single precision.
- `fixdfdi_eq`, `fixunsdfdi_eq`, `fixunsdfsi_eq`: those from double precision, where the words lie
  as the header says.
- `fixdfsi_floatsidf`: the conversion to double precision and back.
-/

namespace Cpu0Toolchain.CompilerRt
open BinaryFloat EndianWord SignWord

namespace Precision

variable (p : Precision)

/-- `__fixsfsi` and `__fixdfsi`: what is printed and what is returned, or nothing where the shift
amount is not below the width. -/
def fixXfsi (a : p.Rep) : Option (String × BitVec 32) :=
  -- Break a into sign, exponent, significand
  let aAbs := a &&& p.absMask
  let sign : ℤ := if a &&& p.signBit ≠ 0#p.typeWidth then -1 else 1
  let exponent : ℤ := (aAbs >>> p.significandBits).toNat - p.exponentBias
  let significand := (aAbs &&& p.significandMask) ||| p.implicitBit
  -- If 0 < exponent < significandBits, right shift to get the result
  if (BitVec.ofInt 32 exponent).toNat < p.significandBits then
    some ("", (BitVec.ofInt p.typeWidth sign *
      (significand >>> (p.significandBits - exponent).toNat)).setWidth 32)
  -- If exponent is negative, the result is zero
  else if exponent < 0 then some ("2\n", 0#32)
  -- If significandBits < exponent, left shift to get the result
  else if exponent - p.significandBits < p.typeWidth then
    some ("3\n", (BitVec.ofInt p.typeWidth sign *
      (significand <<< (exponent - p.significandBits).toNat)).setWidth 32)
  else none

end Precision

def fixsfsi : BitVec 32 → Option (String × BitVec 32) := single.fixXfsi

def fixdfsi : BitVec 64 → Option (String × BitVec 32) := double.fixXfsi

/-! ## The other conversions from single precision -/

/-- `e` -/
def sfExponent (u : BitVec 32) : ℤ := ((u &&& 0x7F800000#32) >>> 23).toNat - 127

/-- `r`, before it is shifted -/
def sfSignificand (u : BitVec 32) : BitVec 32 := (u &&& 0x007FFFFF#32) ||| 0x00800000#32

/-- `s`, the sign of a word in all bits. -/
def fixSign (u : BitVec 32) : BitVec 64 := ((u &&& 0x80000000#32).sshiftRight 31).signExtend 64

/-- The left shift of an unsigned number, by less than its width. -/
def shiftLeftUnsigned {w : ℕ} (r : BitVec w) (k : ℕ) : Option (BitVec w) :=
  if k < w then some (r <<< k) else none

/-- The left shift of a signed number that is not negative, when it leaves a number of its type. -/
def shiftLeftSigned {w : ℕ} (r : BitVec w) (k : ℕ) : Option (BitVec w) :=
  if k < w ∧ 0 ≤ r.toInt ∧ r.toInt * 2 ^ k < 2 ^ (w - 1) then some (r <<< k) else none

/-- `if (e > 23) r <<= (e - 23); else r >>= (23 - e);`, in double precision with 52. The shifts are
those of the type of `r`. -/
def fixShift {w : ℕ} (shiftLeft : BitVec w → ℕ → Option (BitVec w))
    (shiftRight : BitVec w → ℕ → BitVec w) (r : BitVec w) (e : ℤ) (digits : ℕ) :
    Option (BitVec w) :=
  if e > digits then shiftLeft r (e - digits).toNat else some (shiftRight r (digits - e).toNat)

def fixsfdi (u : BitVec 32) : Option (BitVec 64) :=
  let e := sfExponent u
  if e < 0 then some 0#64
  else
    let s := fixSign u
    let r := fixShift shiftLeftSigned BitVec.sshiftRight ((sfSignificand u).setWidth 64) e 23
    r.map fun r => (r ^^^ s) - s

/-- `__fixunssfsi` and `__fixunssfdi` -/
def fixunssf (w : ℕ) (u : BitVec 32) : Option (BitVec w) :=
  let e := sfExponent u
  if e < 0 ∨ u &&& 0x80000000#32 ≠ 0#32 then some 0#w
  else fixShift shiftLeftUnsigned BitVec.ushiftRight ((sfSignificand u).setWidth w) e 23

def fixunssfsi : BitVec 32 → Option (BitVec 32) := fixunssf 32

def fixunssfdi : BitVec 32 → Option (BitVec 64) := fixunssf 64

/-! ## The other conversions from double precision -/

section Double

variable (order : Endianness)

/-- `e` -/
def dfExponent (a : BitVec 64) : ℤ := ((high order a &&& 0x7FF00000#32) >>> 20).toNat - 1023

/-- `r`, before it is shifted -/
def dfSignificand (a : BitVec 64) : BitVec 64 :=
  dwords order ((high order a &&& 0x000FFFFF#32) ||| 0x00100000#32) (low order a)

def fixdfdi (a : BitVec 64) : Option (BitVec 64) :=
  let e := dfExponent order a
  if e < 0 then some 0#64
  else
    let s := fixSign (high order a)
    let r := fixShift shiftLeftSigned BitVec.sshiftRight (dfSignificand order a) e 52
    r.map fun r => (r ^^^ s) - s

def fixunsdfdi (a : BitVec 64) : Option (BitVec 64) :=
  let e := dfExponent order a
  if e < 0 ∨ high order a &&& 0x80000000#32 ≠ 0#32 then some 0#64
  else fixShift shiftLeftUnsigned BitVec.ushiftRight (dfSignificand order a) e 52

def fixunsdfsi (a : BitVec 64) : Option (BitVec 32) :=
  let e := dfExponent order a
  if e < 0 ∨ high order a &&& 0x80000000#32 ≠ 0#32 then some 0#32
  else if e > 31 then none
  else some ((0x80000000#32 ||| (high order a &&& 0x000FFFFF#32) <<< 11 |||
    low order a >>> 21) >>> (31 - e).toNat)

end Double

/-! ## What they mean -/

/-- The integer below a limit. Past it, and for what is not finite, there is none. -/
def fixed (w limit : ℕ) : Datum → Option (BitVec w)
  | .finite negative x =>
    if x < 2 ^ limit then some (BitVec.ofInt w (Format.towardZero negative x)) else none
  | _ => none

/-- What is printed on the way. -/
def fixText (digits : ℕ) : Datum → String
  | .finite _ x => if x < 1 then "2\n" else if x < 2 ^ digits then "" else "3\n"
  | _ => ""

section Number

variable {f : Format} {w m e : ℕ}

/-- The significand in the place that its exponent gives it. -/
theorem shiftLeft_eq_floor {k : ℕ} {r : BitVec w}
    (hm : m / 2 ^ f.significandBits = f.bias + (f.significandBits + k))
    (hr : r.toNat = m % 2 ^ f.significandBits + 2 ^ f.significandBits) :
    r <<< k = BitVec.ofNat w ⌊f.value m⌋₊ := by
  apply BitVec.eq_of_toNat_eq
  rw [Format.value_eq_natCast hm, Nat.floor_natCast, ← hr, BitVec.toNat_shiftLeft,
    BitVec.toNat_ofNat, Nat.shiftLeft_eq]

theorem shiftRight_eq_floor {k : ℕ} {r : BitVec w}
    (hm : m / 2 ^ f.significandBits = f.bias + e) (hk : e + k = f.significandBits)
    (hr : r.toNat = m % 2 ^ f.significandBits + 2 ^ f.significandBits) :
    r >>> k = BitVec.ofNat w ⌊f.value m⌋₊ := by
  apply BitVec.eq_of_toNat_eq
  have hlt := r.isLt
  have hdiv := Nat.div_le_self r.toNat (2 ^ k)
  rw [Format.floor_value hm hk, ← hr, BitVec.toNat_ushiftRight, BitVec.toNat_ofNat,
    Nat.shiftRight_eq_div_pow, Nat.mod_eq_of_lt (by omega)]

/-- The shift by the exponent, where the left shift is defined below a limit. -/
theorem fixShift_eq {shiftLeft : BitVec w → ℕ → Option (BitVec w)}
    {shiftRight : BitVec w → ℕ → BitVec w} {r : BitVec w} {limit : ℕ}
    (hlimit : f.significandBits < limit) (hm : m / 2 ^ f.significandBits = f.bias + e)
    (hr : r.toNat = m % 2 ^ f.significandBits + 2 ^ f.significandBits)
    (hleft : ∀ k, shiftLeft r k = if f.significandBits + k < limit then some (r <<< k) else none)
    (hright : ∀ k, shiftRight r k = r >>> k) :
    fixShift shiftLeft shiftRight r e f.significandBits =
      if f.value m < 2 ^ limit then some (BitVec.ofNat w ⌊f.value m⌋₊) else none := by
  have hrange := f.two_pow_le_value_iff (m := m) (e := limit)
  rw [hm, Nat.add_le_add_iff_left] at hrange
  rw [fixShift]
  by_cases hlarge : f.significandBits < e
  · rw [if_pos (by omega)]
    obtain ⟨k, rfl⟩ := Nat.exists_eq_add_of_le hlarge.le
    have hcount : ((f.significandBits + k : ℕ) - f.significandBits : ℤ).toNat = k := by omega
    rw [hcount, hleft]
    by_cases hdefined : f.significandBits + k < limit
    · rw [if_pos hdefined, if_pos (not_le.mp (mt hrange.mp (by omega))), shiftLeft_eq_floor hm hr]
    · rw [if_neg hdefined, if_neg (not_lt.mpr (hrange.mpr (by omega)))]
  · obtain ⟨k, hk⟩ := Nat.exists_eq_add_of_le (Nat.not_lt.mp hlarge)
    have hcount : (f.significandBits - e : ℤ).toNat = k := by omega
    rw [if_neg (by omega), if_pos (not_le.mp (mt hrange.mp (by omega))), hright, hcount,
      shiftRight_eq_floor hm hk.symm hr]

theorem shiftLeftUnsigned_eq (digits k : ℕ) (r : BitVec w) :
    shiftLeftUnsigned r k = if digits + k < digits + w then some (r <<< k) else none := by
  rw [shiftLeftUnsigned]
  exact if_congr (by omega) rfl rfl

/-- A significand keeps clear of the sign as long as its first digit does. -/
theorem shiftLeftSigned_eq {digits : ℕ} {r : BitVec 64} (hdigits : digits < 62)
    (hlow : 2 ^ digits ≤ r.toNat) (hhigh : r.toNat < 2 ^ (digits + 1)) (k : ℕ) :
    shiftLeftSigned r k = if digits + k < 63 then some (r <<< k) else none := by
  have hsign : 2 ^ (digits + 1) ≤ 2 ^ 63 := Nat.pow_le_pow_right (by decide) (by omega)
  have hvalue : r.toInt = r.toNat := BitVec.toInt_eq_toNat_of_lt (by omega)
  have hproduct : (r.toNat : ℤ) * 2 ^ k < 2 ^ 63 ↔ digits + k < 63 := by
    have hcast : (r.toNat : ℤ) * 2 ^ k < 2 ^ 63 ↔ r.toNat * 2 ^ k < 2 ^ 63 := by norm_cast
    rw [hcast]
    constructor
    · intro hlt
      refine (Nat.pow_lt_pow_iff_right (a := 2) (by decide)).mp ?_
      rw [Nat.pow_add]
      exact (Nat.mul_le_mul_right _ hlow).trans_lt hlt
    · intro hlt
      calc r.toNat * 2 ^ k < 2 ^ (digits + 1) * 2 ^ k :=
            Nat.mul_lt_mul_of_pos_right hhigh (Nat.two_pow_pos k)
        _ = 2 ^ (digits + 1 + k) := (Nat.pow_add _ _ _).symm
        _ ≤ 2 ^ 63 := Nat.pow_le_pow_right (by decide) (by omega)
  rw [shiftLeftSigned, hvalue]
  refine if_congr ?_ rfl rfl
  rw [hproduct]
  constructor
  · exact fun h => h.2.2
  · exact fun h => ⟨by omega, Int.natCast_nonneg _, h⟩

theorem fixed_decode {a : BitVec f.width} {limit : ℕ} (hlimit : limit ≤ f.bias + 1) :
    fixed w limit (f.decode a) = if f.value (f.magnitude a) < 2 ^ limit then
      some (BitVec.ofInt w (Format.towardZero a.msb (f.value (f.magnitude a)))) else none := by
  by_cases hfinite : f.magnitude a < f.infinity
  · rw [Format.decode_finite hfinite, fixed]
  · have hexponent := mt f.lt_infinity_iff.mpr hfinite
    have hlarge : 2 ^ limit ≤ f.value (f.magnitude a) :=
      f.two_pow_le_value_iff.mpr (by omega)
    rw [if_neg (not_lt.mpr hlarge)]
    rcases Nat.lt_or_eq_of_le (Nat.not_lt.mp hfinite) with hnan | hinfinite
    · rw [Format.decode_nan hnan, fixed]
      exact nofun
    · rw [Format.decode_infinite hinfinite.symm, fixed]
      exact nofun

/-- Below one there is only a fraction. -/
theorem fixed_of_small {a : BitVec f.width} {limit : ℕ} (hlimit : limit ≤ f.bias + 1)
    (hsmall : f.magnitude a / 2 ^ f.significandBits < f.bias) :
    fixed w limit (f.decode a) = some 0#w := by
  have hone : f.value (f.magnitude a) < 2 ^ 0 :=
    not_le.mp (mt f.two_pow_le_value_iff.mp (by omega))
  have hfloor : ⌊f.value (f.magnitude a)⌋₊ = 0 :=
    Nat.floor_eq_zero.mpr (by rwa [pow_zero] at hone)
  have hlt : f.value (f.magnitude a) < 2 ^ limit :=
    hone.trans_le (pow_le_pow_right₀ one_le_two (Nat.zero_le _))
  rw [fixed_decode hlimit, if_pos hlt, Format.towardZero, hfloor]
  simp

variable {a : BitVec f.width} {exponent : ℤ} {r : BitVec w}

/-- A sign that is set gives zero, and otherwise the shift is defined up to its width. -/
theorem fixed_unsigned {negative : Prop} [Decidable negative] (hw : 0 < w)
    (hlimit : f.significandBits + w ≤ f.bias + 1)
    (he : exponent = (f.magnitude a / 2 ^ f.significandBits : ℕ) - f.bias)
    (hr : r.toNat = f.magnitude a % 2 ^ f.significandBits + 2 ^ f.significandBits)
    (hsign : negative ↔ a.msb = true) :
    (if exponent < 0 ∨ negative then some 0#w
      else fixShift shiftLeftUnsigned BitVec.ushiftRight r exponent f.significandBits) =
      if a.msb then some 0#w else fixed w (f.significandBits + w) (f.decode a) := by
  by_cases hmsb : a.msb = true
  · rw [if_pos (.inr (hsign.mpr hmsb)), if_pos hmsb]
  rw [if_neg hmsb]
  by_cases hsmall : f.magnitude a / 2 ^ f.significandBits < f.bias
  · rw [if_pos (.inl (by omega)), fixed_of_small hlimit hsmall]
  · obtain ⟨e, hexp⟩ := Nat.exists_eq_add_of_le (Nat.not_lt.mp hsmall)
    have heq : exponent = e := by omega
    have hpositive : a.msb = false := (Bool.not_eq_true _).mp hmsb
    have hright : ∀ k, BitVec.ushiftRight r k = r >>> k := fun _ => rfl
    rw [if_neg (not_or.mpr ⟨by omega, mt hsign.mp hmsb⟩), heq,
      fixShift_eq (Nat.lt_add_of_pos_right hw) hexp hr (fun k => shiftLeftUnsigned_eq _ k r) hright,
      fixed_decode hlimit, hpositive]
    rfl

/-- The signed shift is defined below the sign, and the sign is put back behind it. -/
theorem fixed_signed {s r : BitVec 64} (hdigits : f.significandBits < 62)
    (hlimit : 63 ≤ f.bias + 1)
    (he : exponent = (f.magnitude a / 2 ^ f.significandBits : ℕ) - f.bias)
    (hr : r.toNat = f.magnitude a % 2 ^ f.significandBits + 2 ^ f.significandBits)
    (hs : s = SignWord.ofBool 64 a.msb) :
    (if exponent < 0 then some 0#64
      else (fixShift shiftLeftSigned BitVec.sshiftRight r exponent f.significandBits).map
        fun r => (r ^^^ s) - s) = fixed 64 63 (f.decode a) := by
  by_cases hsmall : f.magnitude a / 2 ^ f.significandBits < f.bias
  · rw [if_pos (by omega), fixed_of_small hlimit hsmall]
  · obtain ⟨e, hexp⟩ := Nat.exists_eq_add_of_le (Nat.not_lt.mp hsmall)
    have heq : exponent = e := by omega
    have hmod := Nat.mod_lt (f.magnitude a) (Nat.two_pow_pos f.significandBits)
    have hpow : 2 ^ f.significandBits < 2 ^ 62 := Nat.pow_lt_pow_right (by decide) hdigits
    have hright : ∀ k, BitVec.sshiftRight r k = r >>> k := fun _ =>
      BitVec.sshiftRight_eq_of_msb_false (BitVec.msb_eq_false_iff_two_mul_lt.mpr (by omega))
    rw [if_neg (by omega), heq, fixShift_eq (by omega) hexp hr
      (shiftLeftSigned_eq hdigits (by omega) (by omega)) hright, fixed_decode hlimit, hs]
    split
    · rw [Option.map_some, xor_sub_ofBool, Format.towardZero]
      cases a.msb with
      | false => rfl
      | true => rw [if_pos rfl, if_pos rfl, BitVec.ofInt_neg, BitVec.ofInt_natCast]
    · rfl

end Number

/-! ## The fields -/

/-- A field of a word, moved down. -/
theorem toNat_field (u : BitVec 32) (mask n k : ℕ) (hmask : mask >>> k = 2 ^ n - 1)
    (hlt : mask < 2 ^ 32) :
    ((u &&& BitVec.ofNat 32 mask) >>> k).toNat = u.toNat / 2 ^ k % 2 ^ n := by
  rw [BitVec.toNat_ushiftRight, BitVec.toNat_and, BitVec.toNat_ofNat, Nat.mod_eq_of_lt hlt,
    Nat.shiftRight_and_distrib, hmask, Nat.and_two_pow_sub_one_eq_mod, Nat.shiftRight_eq_div_pow]

/-- The low bits of a word below a bit that is set. -/
theorem toNat_implicit (u : BitVec 32) (k : ℕ) (hk : k < 32) :
    ((u &&& BitVec.ofNat 32 (2 ^ k - 1)) ||| BitVec.ofNat 32 (2 ^ k)).toNat =
      u.toNat % 2 ^ k + 2 ^ k := by
  have hbit : 2 ^ k < 2 ^ 32 := Nat.pow_lt_pow_right (by decide) hk
  have hmod := Nat.mod_lt u.toNat (Nat.two_pow_pos k)
  rw [BitVec.toNat_or, BitVec.toNat_and, BitVec.toNat_ofNat, BitVec.toNat_ofNat,
    Nat.mod_eq_of_lt hbit, Nat.mod_eq_of_lt (a := 2 ^ k - 1) (by omega),
    Nat.and_two_pow_sub_one_eq_mod, or_two_pow (by omega), Nat.mod_mod]

theorem Precision.signBit_ne_zero_iff {p : Precision} (a : p.Rep) :
    a &&& p.signBit ≠ 0#p.typeWidth ↔ a.msb = true := by
  rw [ne_eq, ← BitVec.toNat_inj, toNat_and_signBit]
  cases a.msb with
  | false => exact iff_of_false (not_not.mpr rfl) Bool.false_ne_true
  | true => exact iff_of_true (Nat.two_pow_pos _).ne' rfl

theorem signBit_ne_zero_iff (u : BitVec 32) : u &&& 0x80000000#32 ≠ 0#32 ↔ u.msb = true :=
  Precision.signBit_ne_zero_iff (p := single) u

theorem and_signBit (u : BitVec 32) :
    u &&& 0x80000000#32 = if u.msb then 0x80000000#32 else 0#32 := by
  have hand : (u &&& 0x80000000#32).toNat = if u.msb then 2 ^ 31 else 0 :=
    single.toNat_and_signBit u
  apply BitVec.eq_of_toNat_eq
  rw [hand]
  cases u.msb <;> rfl

theorem fixSign_eq (u : BitVec 32) : fixSign u = SignWord.ofBool 64 u.msb := by
  rw [fixSign, and_signBit]
  cases u.msb <;> rfl

theorem sfExponent_eq (u : BitVec 32) :
    sfExponent u = (single.magnitude u / 2 ^ 23 : ℕ) - (127 : ℕ) := by
  have hfield := toNat_field u 0x7F800000 8 23 (by decide) (by decide)
  have hmagnitude : single.magnitude u = u.toNat % 2 ^ 31 := rfl
  rw [sfExponent, hfield, hmagnitude]
  omega

theorem toNat_sfSignificand (u : BitVec 32) :
    (sfSignificand u).toNat = single.magnitude u % 2 ^ 23 + 2 ^ 23 := by
  have himplicit : ((u &&& 0x007FFFFF#32) ||| 0x00800000#32).toNat = u.toNat % 2 ^ 23 + 2 ^ 23 :=
    toNat_implicit u 23 (by decide)
  have hmagnitude : single.magnitude u = u.toNat % 2 ^ 31 := rfl
  rw [sfSignificand, himplicit, hmagnitude]
  omega

theorem msb_high (a : BitVec 64) : (high .big a).msb = a.msb := by
  rw [BitVec.msb_eq_decide, BitVec.msb_eq_decide, toNat_high, decide_eq_decide]
  omega

theorem dfExponent_eq (a : BitVec 64) :
    dfExponent .big a = (double.magnitude a / 2 ^ 52 : ℕ) - (1023 : ℕ) := by
  have hfield := toNat_field (high .big a) 0x7FF00000 11 20 (by decide) (by decide)
  have hmagnitude : double.magnitude a = a.toNat % 2 ^ 63 := rfl
  rw [dfExponent, hfield, hmagnitude, toNat_high]
  omega

theorem toNat_dfSignificand (a : BitVec 64) :
    (dfSignificand .big a).toNat = double.magnitude a % 2 ^ 52 + 2 ^ 52 := by
  have himplicit : ((high .big a &&& 0x000FFFFF#32) ||| 0x00100000#32).toNat =
      (high .big a).toNat % 2 ^ 20 + 2 ^ 20 := toNat_implicit (high .big a) 20 (by decide)
  have hmagnitude : double.magnitude a = a.toNat % 2 ^ 63 := rfl
  rw [dfSignificand, toNat_dwords, himplicit, hmagnitude, toNat_high, toNat_low]
  omega

/-! ## The results -/

/-- The number without its fraction, below 2 ^ 63. -/
theorem fixsfdi_eq (u : BitVec 32) : fixsfdi u = fixed 64 63 (single.decode u) := by
  have hword : ((sfSignificand u).setWidth 64).toNat = single.magnitude u % 2 ^ 23 + 2 ^ 23 := by
    rw [BitVec.toNat_setWidth_of_le (by decide), toNat_sfSignificand]
  exact fixed_signed (f := single.toFormat) (by decide) (by decide) (sfExponent_eq u) hword
    (fixSign_eq u)

theorem fixunssf_eq {w : ℕ} (hwidth : 32 ≤ w) (hlimit : 23 + w ≤ 128) (u : BitVec 32) :
    fixunssf w u = if u.msb then some 0#w else fixed w (23 + w) (single.decode u) := by
  have hword : ((sfSignificand u).setWidth w).toNat = single.magnitude u % 2 ^ 23 + 2 ^ 23 := by
    rw [BitVec.toNat_setWidth_of_le hwidth, toNat_sfSignificand]
  exact fixed_unsigned (f := single.toFormat) (by omega) hlimit (sfExponent_eq u) hword
    (signBit_ne_zero_iff u)

theorem fixunssfsi_eq (u : BitVec 32) :
    fixunssfsi u = if u.msb then some 0#32 else fixed 32 55 (single.decode u) :=
  fixunssf_eq (by decide) (by decide) u

theorem fixunssfdi_eq (u : BitVec 32) :
    fixunssfdi u = if u.msb then some 0#64 else fixed 64 87 (single.decode u) :=
  fixunssf_eq (by decide) (by decide) u

/-- The number without its fraction, below 2 ^ 63. -/
theorem fixdfdi_eq (a : BitVec 64) : fixdfdi .big a = fixed 64 63 (double.decode a) :=
  fixed_signed (f := double.toFormat) (by decide) (by decide) (dfExponent_eq a)
    (toNat_dfSignificand a) ((fixSign_eq _).trans (congrArg (SignWord.ofBool 64) (msb_high a)))

theorem fixunsdfdi_eq (a : BitVec 64) :
    fixunsdfdi .big a = if a.msb then some 0#64 else fixed 64 116 (double.decode a) :=
  fixed_unsigned (f := double.toFormat) (by decide) (by decide) (dfExponent_eq a)
    (toNat_dfSignificand a)
    ((signBit_ne_zero_iff _).trans (iff_of_eq (congrArg (· = true) (msb_high a))))

/-- The implicit bit, the upper digits and as many of the lower ones as fit. -/
theorem toNat_topDigits (a : BitVec 64) :
    (0x80000000#32 ||| (high .big a &&& 0x000FFFFF#32) <<< 11 |||
    low .big a >>> 21).toNat = (double.magnitude a % 2 ^ 52 + 2 ^ 52) / 2 ^ 21 := by
  have hmagnitude : double.magnitude a = a.toNat % 2 ^ 63 := rfl
  have hmask : (high .big a &&& 0x000FFFFF#32).toNat = (high .big a).toNat % 2 ^ 20 := by
    rw [BitVec.toNat_and]
    exact Nat.and_two_pow_sub_one_eq_mod _ 20
  have hupper : ((high .big a &&& 0x000FFFFF#32) <<< 11).toNat =
      2 ^ 11 * ((high .big a).toNat % 2 ^ 20) := by
    rw [BitVec.toNat_shiftLeft, hmask, Nat.shiftLeft_eq]
    omega
  have hlower : (low .big a >>> 21).toNat = (low .big a).toNat / 2 ^ 21 := by
    rw [BitVec.toNat_ushiftRight, Nat.shiftRight_eq_div_pow]
  have htop : (0x80000000#32 ||| (high .big a &&& 0x000FFFFF#32) <<< 11).toNat =
      2 ^ 11 * (2 ^ 20 + (high .big a).toNat % 2 ^ 20) := by
    have hor := Nat.two_pow_add_eq_or_of_lt (i := 31)
      (b := 2 ^ 11 * ((high .big a).toNat % 2 ^ 20)) (by omega) 1
    rw [BitVec.toNat_or, hupper]
    refine hor.symm.trans ?_
    omega
  have hor := Nat.two_pow_add_eq_or_of_lt (i := 11) (b := (low .big a).toNat / 2 ^ 21)
    (by have := (low .big a).isLt; omega) (2 ^ 20 + (high .big a).toNat % 2 ^ 20)
  rw [BitVec.toNat_or, htop, hlower, ← hor, toNat_high, toNat_low]
  change _ = (a.toNat % 2 ^ 63 % 2 ^ 52 + 2 ^ 52) / 2 ^ 21
  omega

theorem fixunsdfsi_eq (a : BitVec 64) :
    fixunsdfsi .big a = if a.msb then some 0#32 else fixed 32 32 (double.decode a) := by
  have he := dfExponent_eq a
  have hlimit : 32 ≤ double.bias + 1 := by decide
  have hsign : high .big a &&& 0x80000000#32 ≠ 0#32 ↔ a.msb = true :=
    (signBit_ne_zero_iff _).trans (iff_of_eq (congrArg (· = true) (msb_high a)))
  rw [fixunsdfsi]
  by_cases hmsb : a.msb = true
  · rw [if_pos (.inr (hsign.mpr hmsb)), if_pos hmsb]
  rw [if_neg hmsb]
  by_cases hsmall : double.magnitude a / 2 ^ 52 < 1023
  · rw [if_pos (.inl (by omega))]
    exact (fixed_of_small (f := double.toFormat) hlimit hsmall).symm
  · obtain ⟨e, hexp⟩ := Nat.exists_eq_add_of_le (Nat.not_lt.mp hsmall)
    have hrange := double.two_pow_le_value_iff (m := double.magnitude a) (e := 32)
    have hdecode := fixed_decode (f := double.toFormat) (w := 32) (a := a) hlimit
    have hpositive : a.msb = false := (Bool.not_eq_true _).mp hmsb
    have hlarge : 2 ^ 32 ≤ double.value (double.magnitude a) ↔ 32 ≤ e := by
      refine hrange.trans ?_
      change 1023 + 32 ≤ double.magnitude a / 2 ^ 52 ↔ _
      omega
    refine Eq.trans ?_ hdecode.symm
    rw [if_neg (not_or.mpr ⟨by omega, mt hsign.mp hmsb⟩)]
    by_cases hover : 32 ≤ e
    · rw [if_pos (by omega), if_neg (not_lt.mpr (hlarge.mpr hover))]
    · obtain ⟨k, hk⟩ := Nat.exists_eq_add_of_le (show e ≤ 31 by omega)
      have hfloor : ⌊double.value (double.magnitude a)⌋₊ =
          (double.magnitude a % 2 ^ 52 + 2 ^ 52) / 2 ^ (21 + k) :=
        Format.floor_value (f := double.toFormat) hexp (show e + (21 + k) = 52 by omega)
      have hshift : (31 - dfExponent .big a).toNat = k := by omega
      rw [if_neg (by omega), if_pos (not_le.mp (mt hlarge.mp hover)), Format.towardZero,
        if_neg (by rw [Bool.not_eq_true]; exact hpositive), hfloor, BitVec.ofInt_natCast, hshift]
      congr 1
      apply BitVec.eq_of_toNat_eq
      have hlt := ((0x80000000#32 ||| (high .big a &&& 0x000FFFFF#32) <<< 11 |||
        low .big a >>> 21) >>> k).isLt
      rw [BitVec.toNat_ushiftRight, toNat_topDigits, Nat.shiftRight_eq_div_pow,
        Nat.div_div_eq_div_mul, ← Nat.pow_add] at hlt ⊢
      rw [BitVec.toNat_ofNat, Nat.mod_eq_of_lt hlt]

theorem fixText_decode {f : Format} {a : BitVec f.width}
    (h : f.magnitude a / 2 ^ f.significandBits ≤ 2 * f.bias) :
    fixText f.significandBits (f.decode a) =
      if f.magnitude a / 2 ^ f.significandBits < f.bias then "2\n"
      else if f.magnitude a / 2 ^ f.significandBits < f.bias + f.significandBits then ""
      else "3\n" := by
  have hone := f.two_pow_le_value_iff (m := f.magnitude a) (e := 0)
  have hdigits := f.two_pow_le_value_iff (m := f.magnitude a) (e := f.significandBits)
  rw [pow_zero, Nat.add_zero] at hone
  rw [Format.decode_finite (f.lt_infinity_iff.mpr h), fixText]
  simp only [← not_le, hone, hdigits]

/-- A sign times a number, in the low bits of a word that may be longer. -/
theorem setWidth_sign_mul {v w : ℕ} (h : w ≤ v) (negative : Bool) (x : ℚ) :
    (BitVec.ofInt v (if negative then -1 else 1) * BitVec.ofNat v ⌊x⌋₊).setWidth w =
      BitVec.ofInt w (Format.towardZero negative x) := by
  rw [← BitVec.ofInt_natCast, ← BitVec.ofInt_mul, PcRelative.setWidth_ofInt h, Format.towardZero]
  congr 1
  cases negative with
  | false => exact one_mul _
  | true => exact neg_one_mul _

theorem Precision.fixXfsi_eq {p : Precision} (hdigits : p.significandBits ≤ 2 ^ 31)
    (hwidth : 32 ≤ p.typeWidth) (hlimit : p.significandBits + p.typeWidth ≤ p.bias + 1)
    (a : p.Rep) : p.fixXfsi a = (fixed 32 (p.significandBits + p.typeWidth) (p.decode a)).map
      (Prod.mk (fixText p.significandBits (p.decode a))) := by
  have hbias : p.bias < 2 ^ 30 := by
    have hpow := Nat.pow_le_pow_right (n := 2) (by decide)
      (Nat.le_trans (Nat.sub_le p.exponentBits 1) p.exponentBits_le)
    have hpos := Nat.two_pow_pos (p.exponentBits - 1)
    rw [Format.bias]
    omega
  have hsignificand := toNat_wholeSignificand (a &&& p.absMask)
  rw [magnitude_and_absMask] at hsignificand
  have hsign : (if a &&& p.signBit ≠ 0#p.typeWidth then (-1 : ℤ) else 1) =
      if a.msb then -1 else 1 := by
    by_cases hmsb : a.msb = true
    · rw [if_pos ((signBit_ne_zero_iff a).mpr hmsb), if_pos hmsb]
    · rw [if_neg (mt (signBit_ne_zero_iff a).mp hmsb), if_neg hmsb]
  rw [fixXfsi, toNat_absExponent, hsign, exponentBias_eq]
  by_cases hsmall : p.magnitude a / 2 ^ p.significandBits < p.bias
  · have htext := fixText_decode (f := p.toFormat) (a := a) (by omega)
    have hword : ¬(BitVec.ofInt 32 ((p.magnitude a / 2 ^ p.significandBits : ℕ) - p.bias)).toNat <
        p.significandBits := by
      rw [BitVec.toNat_ofInt]
      generalize p.magnitude a / 2 ^ p.significandBits = exponent at hsmall ⊢
      omega
    rw [fixed_of_small hlimit hsmall, htext, if_pos hsmall, if_neg hword, if_pos (by omega)]
    rfl
  obtain ⟨e, hexp⟩ := Nat.exists_eq_add_of_le (Nat.not_lt.mp hsmall)
  have hrange := p.two_pow_le_value_iff (m := p.magnitude a) (e := p.significandBits + p.typeWidth)
  rw [hexp, Nat.add_le_add_iff_left] at hrange
  have hoffset : ((p.magnitude a / 2 ^ p.significandBits : ℕ) - p.bias : ℤ) = e := by omega
  rw [fixed_decode hlimit, hoffset]
  have hmax : e ≤ p.bias + 1 := by
    have hlt := Format.magnitude_lt (f := p.toFormat) a
    rw [two_pow_eq_infinity_add, Format.infinity_exponent, ← Nat.succ_mul,
      ← Nat.div_lt_iff_lt_mul (Nat.two_pow_pos _)] at hlt
    omega
  have hword : (BitVec.ofInt 32 (e : ℤ)).toNat = e := by
    rw [BitVec.toNat_ofInt]
    omega
  by_cases hlarge : p.significandBits + p.typeWidth ≤ e
  · rw [hword, if_neg (by omega), if_neg (Int.not_lt.mpr (Int.natCast_nonneg _)),
      if_neg (by omega), if_neg (not_lt.mpr (hrange.mpr hlarge)), Option.map_none]
  have htext := fixText_decode (f := p.toFormat) (a := a) (by omega)
  rw [hexp, if_neg (by omega)] at htext
  rw [hword, if_pos (not_le.mp (mt hrange.mp hlarge)), Option.map_some]
  by_cases hright : e < p.significandBits
  · obtain ⟨k, hk⟩ := Nat.exists_eq_add_of_le hright.le
    have hshift : (p.significandBits - e : ℤ).toNat = k := by omega
    rw [if_pos (by omega)] at htext
    rw [htext, if_pos hright, hshift, shiftRight_eq_floor hexp hk.symm hsignificand,
      setWidth_sign_mul hwidth]
  · obtain ⟨k, rfl⟩ := Nat.exists_eq_add_of_le (Nat.not_lt.mp hright)
    have hshift : ((p.significandBits + k : ℕ) - p.significandBits : ℤ).toNat = k := by omega
    have hcount : ((p.significandBits + k : ℕ) - p.significandBits : ℤ) < p.typeWidth := by omega
    rw [if_neg (by omega)] at htext
    rw [htext, if_neg hright, if_neg (Int.not_lt.mpr (Int.natCast_nonneg _)), if_pos hcount,
      hshift, shiftLeft_eq_floor hexp hsignificand, setWidth_sign_mul hwidth]

theorem fixsfsi_eq (a : BitVec 32) : fixsfsi a =
    (fixed 32 55 (single.decode a)).map (Prod.mk (fixText 23 (single.decode a))) :=
  Precision.fixXfsi_eq (p := single) (by decide) (by decide) (by decide) a

theorem fixdfsi_eq (a : BitVec 64) : fixdfsi a =
    (fixed 32 116 (double.decode a)).map (Prod.mk (fixText 52 (double.decode a))) :=
  Precision.fixXfsi_eq (p := double) (by decide) (by decide) (by decide) a

/-! ## There and back -/

theorem fixed_ofInt {w : ℕ} (i : BitVec w) {limit : ℕ} (h : w ≤ limit) :
    fixed w limit (Format.ofInt i.toInt) = some i := by
  have hlt : |(i.toInt : ℚ)| < 2 ^ limit := by
    have habs : i.toInt.natAbs < 2 ^ limit := by
      rw [← toNat_abs]
      exact Nat.lt_of_lt_of_le i.abs.isLt (Nat.pow_le_pow_right (by decide) h)
    rw [← Int.cast_abs, Int.abs_eq_natAbs, Int.cast_natCast]
    exact_mod_cast habs
  rw [Format.ofInt, fixed, if_pos hlt, Format.towardZero_ofInt, BitVec.ofInt_toInt]

/-- A word survives the way to double precision and back. -/
theorem fixdfsi_floatsidf (i : BitVec 32) :
    (fixdfsi (floatsidf i)).map Prod.snd = some i := by
  have hexact : double.decode (floatsidf i) = Format.ofInt i.toInt := floatsidf_exact i
  rw [fixdfsi_eq, hexact, fixed_ofInt i (by decide)]
  rfl

end Cpu0Toolchain.CompilerRt
