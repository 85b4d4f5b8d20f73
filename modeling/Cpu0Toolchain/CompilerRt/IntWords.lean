import Cpu0Toolchain.CompilerRt.IntLib
import Cpu0Toolchain.Library.SignWord
import Mathlib.Tactic.Ring

/-!
# Arithmetic of double words by their words

`muldi3.c`, the shifts `ashldi3.c`, `lshrdi3.c` and `ashrdi3.c`, and the comparisons `cmpdi2.c` and
`ucmpdi2.c`. All of them look at a double word through the unions of `int_types.h` only, so that on
a little-endian target they compute the same with the words exchanged. The products and the left
shifts of signed words are taken to wrap around, where C leaves them undefined.

## Main results

- `muldi3_eq`, `ashldi3_eq`, `lshrdi3_eq`, `ashrdi3_eq`: the results on both targets.
- `cmpdi2_eq`, `ucmpdi2_eq`: the order of the numbers.
-/

namespace Cpu0Toolchain.CompilerRt
open EndianWord

/-! ## Multiplication -/

/-- The product of two words, by their halves. -/
def muldsi3 (e : Endianness) (a b : BitVec 32) : BitVec 64 :=
  let lowerMask := 0xffff#32
  let low := (a &&& lowerMask) * (b &&& lowerMask)
  let t := low >>> 16
  let low := low &&& lowerMask
  let t := t + (a >>> 16) * (b &&& lowerMask)
  let low := low + ((t &&& lowerMask) <<< 16)
  let high := t >>> 16
  let t := low >>> 16
  let low := low &&& lowerMask
  let t := t + (b >>> 16) * (a &&& lowerMask)
  let low := low + ((t &&& lowerMask) <<< 16)
  let high := high + (t >>> 16)
  let high := high + (a >>> 16) * (b >>> 16)
  dwords e high low

/-- The products of the upper words with the lower ones are added to the upper word. -/
def muldi3 (e : Endianness) (a b : BitVec 64) : BitVec 64 :=
  let r := muldsi3 e (low e a) (low e b)
  dwords e (high e r + (high e a * low e b + low e a * high e b)) (low e r)

theorem toNat_lowHalf (a : BitVec 32) : (a &&& 0xffff#32).toNat = a.toNat % 2 ^ 16 := by
  rw [BitVec.toNat_and]
  exact Nat.and_two_pow_sub_one_eq_mod a.toNat 16

theorem toNat_highHalf (a : BitVec 32) : (a >>> 16).toNat = a.toNat / 2 ^ 16 := by
  rw [BitVec.toNat_ushiftRight, Nat.shiftRight_eq_div_pow]

theorem toNat_shiftHalf (a : BitVec 32) : (a <<< 16).toNat = a.toNat * 2 ^ 16 % 2 ^ 32 := by
  rw [BitVec.toNat_shiftLeft, Nat.shiftLeft_eq]

/-- The products of the halves, none of which fills a word. -/
theorem halves_mul_le {x y : ℕ} (hx : x < 2 ^ 16) (hy : y < 2 ^ 16) :
    x * y ≤ 2 ^ 32 - 2 ^ 17 + 1 :=
  Nat.mul_le_mul (Nat.le_pred_of_lt hx) (Nat.le_pred_of_lt hy)

/-- No digit of the product is lost. -/
theorem toNat_muldsi3 (a b : BitVec 32) : (muldsi3 .big a b).toNat = a.toNat * b.toNat := by
  have hah : a.toNat / 2 ^ 16 < 2 ^ 16 := Nat.div_lt_of_lt_mul a.isLt
  have hbh : b.toNat / 2 ^ 16 < 2 ^ 16 := Nat.div_lt_of_lt_mul b.isLt
  have hal : a.toNat % 2 ^ 16 < 2 ^ 16 := Nat.mod_lt _ (by decide)
  have hbl : b.toNat % 2 ^ 16 < 2 ^ 16 := Nat.mod_lt _ (by decide)
  have hproduct : a.toNat * b.toNat = a.toNat / 2 ^ 16 * (b.toNat / 2 ^ 16) * 2 ^ 32 +
      (a.toNat / 2 ^ 16 * (b.toNat % 2 ^ 16) + b.toNat / 2 ^ 16 * (a.toNat % 2 ^ 16)) * 2 ^ 16 +
        a.toNat % 2 ^ 16 * (b.toNat % 2 ^ 16) := by
    conv_lhs => rw [← Nat.div_add_mod a.toNat (2 ^ 16), ← Nat.div_add_mod b.toNat (2 ^ 16)]
    ring
  have h1 := halves_mul_le hal hbl
  have h2 := halves_mul_le hah hbl
  have h3 := halves_mul_le hbh hal
  have h4 := halves_mul_le hah hbh
  simp only [muldsi3, toNat_dwords, BitVec.toNat_add, BitVec.toNat_mul, toNat_lowHalf,
    toNat_highHalf, toNat_shiftHalf]
  rw [hproduct]
  generalize a.toNat % 2 ^ 16 * (b.toNat % 2 ^ 16) = ll at *
  generalize a.toNat / 2 ^ 16 * (b.toNat % 2 ^ 16) = hl at *
  generalize b.toNat / 2 ^ 16 * (a.toNat % 2 ^ 16) = lh at *
  generalize a.toNat / 2 ^ 16 * (b.toNat / 2 ^ 16) = hh at *
  clear hah hbh hal hbl hproduct
  omega

/-- The product of the upper words is beyond the double word. -/
theorem muldi3_big (a b : BitVec 64) : muldi3 .big a b = a * b := by
  apply BitVec.eq_of_toNat_eq
  have hproduct : a.toNat * b.toNat = (low .big a).toNat * (low .big b).toNat +
      ((high .big a).toNat * (low .big b).toNat + (low .big a).toNat * (high .big b).toNat) *
        2 ^ 32 + 2 ^ 64 * ((high .big a).toNat * (high .big b).toNat) := by
    rw [toNat_high, toNat_high, toNat_low, toNat_low]
    conv_lhs => rw [← Nat.div_add_mod a.toNat (2 ^ 32), ← Nat.div_add_mod b.toNat (2 ^ 32)]
    ring
  rw [muldi3, toNat_dwords, toNat_low, BitVec.toNat_add, BitVec.toNat_add, BitVec.toNat_mul,
    BitVec.toNat_mul, toNat_high, toNat_muldsi3, BitVec.toNat_mul, hproduct,
    Nat.add_mul_mod_self_left]
  omega

/-- The product, on a little-endian target that of the exchanged words, exchanged again. -/
theorem muldi3_eq (e : Endianness) (a b : BitVec 64) :
    muldi3 e a b = inOrder e (inOrder e a * inOrder e b) := by
  have hdsi3 : ∀ x y, muldsi3 e x y = inOrder e (muldsi3 .big x y) := fun _ _ => dwords_eq e _ _
  rw [← muldi3_big, muldi3, muldi3, hdsi3, dwords_eq e]
  simp only [high_eq e, low_eq e, inOrder_inOrder]

/-! ## Shifts -/

section Shifts

variable (e : Endianness) (a : BitVec 64) (b : BitVec 32)

/-- `__ashldi3`; `b` is an `si_int`. -/
def ashldi3 : BitVec 64 :=
  -- bits_in_word <= b < bits_in_dword
  if b &&& 32#32 ≠ 0#32 then dwords e (low e a <<< (b - 32#32).toNat) 0#32
  -- 0 <= b < bits_in_word
  else if b = 0#32 then a
  else
    dwords e ((high e a <<< b.toNat) ||| (low e a >>> (32#32 - b).toNat)) (low e a <<< b.toNat)

def lshrdi3 : BitVec 64 :=
  if b &&& 32#32 ≠ 0#32 then dwords e 0#32 (high e a >>> (b - 32#32).toNat)
  else if b = 0#32 then a
  else
    dwords e (high e a >>> b.toNat) ((high e a <<< (32#32 - b).toNat) ||| (low e a >>> b.toNat))

def ashrdi3 : BitVec 64 :=
  if b &&& 32#32 ≠ 0#32 then
    -- result.s.high = input.s.high < 0 ? -1 : 0
    dwords e ((high e a).sshiftRight 31) ((high e a).sshiftRight (b - 32#32).toNat)
  else if b = 0#32 then a
  else
    dwords e ((high e a).sshiftRight b.toNat)
      ((high e a <<< (32#32 - b).toNat) ||| (low e a >>> b.toNat))

end Shifts

section ShiftLemmas

variable (e : Endianness) (a : BitVec 64) {b : BitVec 32}

/-- The test for a shift across a word. -/
theorem and_wordBits (h : b.toNat < 64) : b &&& 32#32 ≠ 0#32 ↔ 2 ^ 5 ≤ b.toNat :=
  and_bit_ne_zero (t := 5) rfl h

theorem toNat_sub_wordBits (h : 32 ≤ b.toNat) : (b - 32#32).toNat = b.toNat - 32 :=
  BitVec.toNat_sub_of_le (BitVec.le_def.mpr h)

theorem toNat_wordBits_sub (h : b.toNat ≤ 32) : (32#32 - b).toNat = 32 - b.toNat :=
  BitVec.toNat_sub_of_le (BitVec.le_def.mpr h)

/-- The three cases are one shift. -/
theorem ashldi3_eq (h : b.toNat < 64) : ashldi3 e a b = inOrder e (inOrder e a <<< b.toNat) := by
  have happend := append_words (inOrder e a)
  rw [ashldi3]
  by_cases hword : 2 ^ 5 ≤ b.toNat
  · have hshift := append_shiftLeft_ge (upperWord (inOrder e a)) (lowerWord (inOrder e a)) hword h
    rw [happend] at hshift
    rw [if_pos ((and_wordBits h).mpr hword), toNat_sub_wordBits hword, dwords_eq e, low_eq e,
      ← hshift]
    rfl
  rw [if_neg (mt (and_wordBits h).mp hword)]
  by_cases hzero : b = 0#32
  · rw [if_pos hzero, hzero, BitVec.toNat_zero, BitVec.shiftLeft_zero, inOrder_inOrder]
  · have hshift := append_shiftLeft (upperWord (inOrder e a)) (lowerWord (inOrder e a))
      (Nat.not_le.mp hword)
    rw [happend] at hshift
    rw [if_neg hzero, toNat_wordBits_sub (by omega), dwords_eq e, low_eq e, high_eq e, ← hshift]
    rfl

/-- The same to the right, with zeros. -/
theorem lshrdi3_eq (h : b.toNat < 64) : lshrdi3 e a b = inOrder e (inOrder e a >>> b.toNat) := by
  have happend := append_words (inOrder e a)
  rw [lshrdi3]
  by_cases hword : 2 ^ 5 ≤ b.toNat
  · have hshift := append_shiftRight_ge (upperWord (inOrder e a)) (lowerWord (inOrder e a)) hword
    rw [happend] at hshift
    rw [if_pos ((and_wordBits h).mpr hword), toNat_sub_wordBits hword, dwords_eq e, high_eq e,
      ← hshift]
    rfl
  rw [if_neg (mt (and_wordBits h).mp hword)]
  by_cases hzero : b = 0#32
  · rw [if_pos hzero, hzero, BitVec.toNat_zero, BitVec.ushiftRight_zero, inOrder_inOrder]
  · have hshift := append_shiftRight (upperWord (inOrder e a)) (lowerWord (inOrder e a))
      (Nat.not_le.mp hword)
    rw [happend] at hshift
    rw [if_neg hzero, toNat_wordBits_sub (by omega), dwords_eq e, low_eq e, high_eq e, ← hshift]
    rfl

/-- Within a word, what leaves the upper one comes into the lower one. -/
theorem append_sshiftRight (x y : BitVec 32) {k : ℕ} (hk : k < 32) :
    x.sshiftRight k ++ ((x <<< (32 - k)) ||| (y >>> k)) = (x ++ y).sshiftRight k := by
  apply BitVec.eq_of_getLsbD_eq
  intro i hi
  have hmsb : (x ++ y).msb = x.msb := by
    rw [BitVec.msb_append]
    rfl
  simp only [BitVec.getLsbD_append, BitVec.getLsbD_or, BitVec.getLsbD_shiftLeft,
    BitVec.getLsbD_ushiftRight, BitVec.getLsbD_sshiftRight, hmsb]
  by_cases hlow : i < 32
  · by_cases hmiddle : k + i < 32
    · simp [hlow, hmiddle, show i < 32 - k by omega, show ¬64 ≤ i by omega,
      show k + i < 64 by omega]
    · simp [hlow, hmiddle, show ¬i < 32 - k by omega, show ¬64 ≤ i by omega,
        show k + i < 64 by omega, show i - (32 - k) = k + i - 32 by omega,
        BitVec.getLsbD_of_ge y (k + i) (by omega)]
  · by_cases hhigh : k + (i - 32) < 32
    · simp [hlow, show ¬64 ≤ i by omega, show k + i < 64 by omega, show ¬k + i < 32 by omega,
        show ¬32 ≤ i - 32 by omega, show k + (i - 32) = k + i - 32 by omega,
        show k + i - 32 < 32 by omega]
    · simp [hlow, hhigh, show ¬64 ≤ i by omega, show ¬k + i < 64 by omega,
        show ¬32 ≤ i - 32 by omega]

/-- Across a word, the upper one is all sign. -/
theorem append_sshiftRight_ge (x y : BitVec 32) {k : ℕ} (hk : 32 ≤ k) (hk' : k < 64) :
    x.sshiftRight 31 ++ x.sshiftRight (k - 32) = (x ++ y).sshiftRight k := by
  have hsign : x.sshiftRight 31 = SignWord.ofBool 32 x.msb := SignWord.signWord_eq x
  have hmsb : (x ++ y).msb = x.msb := by
    rw [BitVec.msb_append]
    rfl
  rw [hsign]
  apply BitVec.eq_of_getLsbD_eq
  intro i hi
  simp only [BitVec.getLsbD_append, BitVec.getLsbD_sshiftRight, hmsb]
  by_cases hlow : i < 32
  · by_cases hmiddle : k - 32 + i < 32
    · simp [hlow, hmiddle, show ¬64 ≤ i by omega, show k + i < 64 by omega,
        show ¬k + i < 32 by omega, show k + i - 32 = k - 32 + i by omega]
    · simp [hlow, hmiddle, show ¬64 ≤ i by omega, show ¬k + i < 64 by omega]
  · simp [hlow, SignWord.getLsbD_ofBool x.msb (show i - 32 < 32 by omega),
      show ¬64 ≤ i by omega, show ¬k + i < 64 by omega]

/-- The sign comes in, also where the shift is across a word. -/
theorem ashrdi3_eq (h : b.toNat < 64) :
    ashrdi3 e a b = inOrder e ((inOrder e a).sshiftRight b.toNat) := by
  have happend := append_words (inOrder e a)
  rw [ashrdi3]
  by_cases hword : 2 ^ 5 ≤ b.toNat
  · have hshift := append_sshiftRight_ge (upperWord (inOrder e a)) (lowerWord (inOrder e a)) hword h
    rw [happend] at hshift
    rw [if_pos ((and_wordBits h).mpr hword), toNat_sub_wordBits hword, dwords_eq e, high_eq e,
      ← hshift]
    rfl
  rw [if_neg (mt (and_wordBits h).mp hword)]
  by_cases hzero : b = 0#32
  · rw [if_pos hzero, hzero, BitVec.toNat_zero, BitVec.sshiftRight_zero, inOrder_inOrder]
  · have hshift := append_sshiftRight (upperWord (inOrder e a)) (lowerWord (inOrder e a))
      (Nat.not_le.mp hword)
    rw [happend] at hshift
    rw [if_neg hzero, toNat_wordBits_sub (by omega), dwords_eq e, low_eq e, high_eq e, ← hshift]
    rfl

theorem ashrdi3_eq_minus_one : (36#32).toNat < 64 ∧
    ashrdi3 .big 0x8000000000000000#64 36#32 = 0xfffffffff8000000#64 :=
  ⟨by decide, (ashrdi3_eq .big _ (by decide)).trans (by decide)⟩

end ShiftLemmas

/-! ## Comparisons -/

section Compare

variable (e : Endianness) (a b : BitVec 64)

/-- The results stand for less, equal and greater. -/
def cmpdi2 : BitVec 32 :=
  if (high e a).slt (high e b) then 0#32
  else if (high e b).slt (high e a) then 2#32
  else if low e a < low e b then 0#32
  else if low e a > low e b then 2#32
  else 1#32

def ucmpdi2 : BitVec 32 :=
  if high e a < high e b then 0#32
  else if high e a > high e b then 2#32
  else if low e a < low e b then 0#32
  else if low e a > low e b then 2#32
  else 1#32

/-- Only the upper word has a sign. -/
theorem toInt_high_low : a.toInt = (high .big a).toInt * 2 ^ 32 + (low .big a).toNat := by
  have ha := a.isLt
  rw [BitVec.toInt_eq_toNat_cond, BitVec.toInt_eq_toNat_cond, toNat_high, toNat_low]
  omega

/-- The upper words decide with their sign, the lower ones without. -/
theorem cmpdi2_eq : cmpdi2 e a b = if (inOrder e a).toInt < (inOrder e b).toInt then 0#32
    else if (inOrder e a).toInt = (inOrder e b).toInt then 1#32 else 2#32 := by
  have ha := (low .big (inOrder e a)).isLt
  have hb := (low .big (inOrder e b)).isLt
  rw [cmpdi2, high_eq e, high_eq e, low_eq e, low_eq e, toInt_high_low, toInt_high_low]
  simp only [BitVec.slt_iff_toInt_lt, gt_iff_lt, BitVec.lt_def]
  split_ifs <;> first | rfl | omega

/-- The same, with neither word signed. -/
theorem ucmpdi2_eq : ucmpdi2 e a b = if (inOrder e a).toNat < (inOrder e b).toNat then 0#32
    else if (inOrder e a).toNat = (inOrder e b).toNat then 1#32 else 2#32 := by
  have ha := (low .big (inOrder e a)).isLt
  have hb := (low .big (inOrder e b)).isLt
  rw [ucmpdi2, high_eq e, high_eq e, low_eq e, low_eq e, toNat_high_low, toNat_high_low]
  simp only [gt_iff_lt, BitVec.lt_def]
  split_ifs <;> first | rfl | omega

end Compare

end Cpu0Toolchain.CompilerRt
