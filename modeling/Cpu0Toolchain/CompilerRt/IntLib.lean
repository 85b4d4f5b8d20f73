import Cpu0Toolchain.Library.EndianWord
import Mathlib.Algebra.Order.Ring.Int
import Mathlib.Data.Nat.Bitwise
import Mathlib.Tactic.Common

/-!
# The words of a double word

`int_types.h`. The unions `dwords` and `udwords` lay two words over a double word, and the header
defines `_YUGA_LITTLE_ENDIAN` as 0 for every target: `high` is the member that comes first. What it
holds therefore depends on the byte order of the target, which the routines take as a parameter.

## Main results

- `high_dwords`, `low_dwords`, `dwords_high_low`: the members and the whole.
- `high_eq`, `low_eq`, `dwords_eq`: on a little-endian target the members change their parts.
-/

namespace Cpu0Toolchain.CompilerRt
open EndianWord

def upperWord (all : BitVec 64) : BitVec 32 := (all >>> 32).setWidth 32

def lowerWord (all : BitVec 64) : BitVec 32 := all.setWidth 32

/-- The member `s.high`. -/
def high (e : Endianness) (all : BitVec 64) : BitVec 32 :=
  match e with
  | .big => upperWord all
  | .little => lowerWord all

/-- The member `s.low`. -/
def low (e : Endianness) (all : BitVec 64) : BitVec 32 :=
  match e with
  | .big => lowerWord all
  | .little => upperWord all

/-- The member `all` after both words have been stored. -/
def dwords (e : Endianness) (high low : BitVec 32) : BitVec 64 :=
  match e with
  | .big => high ++ low
  | .little => low ++ high

theorem toNat_upperWord (all : BitVec 64) : (upperWord all).toNat = all.toNat / 2 ^ 32 := by
  rw [upperWord, BitVec.toNat_setWidth, BitVec.toNat_ushiftRight, Nat.shiftRight_eq_div_pow]
  omega

theorem toNat_lowerWord (all : BitVec 64) : (lowerWord all).toNat = all.toNat % 2 ^ 32 :=
  BitVec.toNat_setWidth 32 all

theorem toNat_append_words (x y : BitVec 32) : (x ++ y).toNat = x.toNat * 2 ^ 32 + y.toNat := by
  rw [BitVec.toNat_append, ← Nat.shiftLeft_add_eq_or_of_lt y.isLt, Nat.shiftLeft_eq]

theorem upperWord_append (x y : BitVec 32) : upperWord (x ++ y) = x := by
  apply BitVec.eq_of_toNat_eq
  have hy := y.isLt
  rw [toNat_upperWord, toNat_append_words]
  omega

theorem lowerWord_append (x y : BitVec 32) : lowerWord (x ++ y) = y :=
  BitVec.setWidth_append_eq_right

theorem append_words (all : BitVec 64) : upperWord all ++ lowerWord all = all := by
  apply BitVec.eq_of_toNat_eq
  rw [toNat_append_words, toNat_upperWord, toNat_lowerWord]
  omega

variable (e : Endianness)

/-- What is stored in a member is read from it. -/
@[simp] theorem high_dwords (x y : BitVec 32) : high e (dwords e x y) = x := by
  cases e with
  | big => exact upperWord_append x y
  | little => exact lowerWord_append y x

@[simp] theorem low_dwords (x y : BitVec 32) : low e (dwords e x y) = y := by
  cases e with
  | big => exact lowerWord_append x y
  | little => exact upperWord_append y x

/-- The members make up the whole. -/
@[simp] theorem dwords_high_low (all : BitVec 64) : dwords e (high e all) (low e all) = all := by
  cases e with
  | big => exact append_words all
  | little => exact append_words all

/-! ## Counting zeros -/

/-- `__builtin_clz`, for which Cpu0 has an instruction. -/
def builtinClz (a : BitVec 32) : ℕ := a.clz.toNat

/-- `__builtin_ctz` -/
def builtinCtz (a : BitVec 32) : ℕ := a.ctz.toNat

/-- So many bits of a number with this width are zeros before its first one. -/
def LeadingZeros (width n c : ℕ) : Prop :=
  c < width ∧ 2 ^ (width - 1 - c) ≤ n ∧ n < 2 ^ (width - c)

/-- So many bits of a number are zeros behind its last one. -/
def TrailingZeros (n c : ℕ) : Prop := n % 2 ^ (c + 1) = 2 ^ c

instance (width n c : ℕ) : Decidable (LeadingZeros width n c) :=
  inferInstanceAs (Decidable (_ ∧ _ ∧ _))

instance (n c : ℕ) : Decidable (TrailingZeros n c) := inferInstanceAs (Decidable (_ = _))

/-- The first one of a word that is not zero. -/
theorem clz_spec {w : ℕ} (hw : 0 < w) {a : BitVec w} (h : a ≠ 0#w) :
    LeadingZeros w a.toNat a.clz.toNat := by
  have hhigh := BitVec.toNat_lt_two_pow_sub_clz (x := a)
  refine ⟨?_, BitVec.two_pow_sub_clz_le_toNat_of_ne_zero hw h, hhigh⟩
  by_contra hge
  rw [Nat.not_lt] at hge
  rw [Nat.sub_eq_zero_of_le hge, Nat.pow_zero, Nat.lt_one_iff] at hhigh
  exact h (BitVec.eq_of_toNat_eq hhigh)

/-- The last one of such a word. -/
theorem ctz_spec {w : ℕ} {a : BitVec w} (h : a ≠ 0#w) : TrailingZeros a.toNat a.ctz.toNat := by
  have hbelow : a.toNat % 2 ^ a.ctz.toNat = 0 := by
    apply Nat.eq_of_testBit_eq
    intro i
    rw [Nat.testBit_mod_two_pow, Nat.zero_testBit, Bool.and_eq_false_imp, decide_eq_true_iff]
    exact BitVec.getLsbD_false_of_lt_ctz
  have hbit : a.toNat / 2 ^ a.ctz.toNat % 2 = 1 := by
    have htrue : a.toNat.testBit a.ctz.toNat = true := BitVec.getLsbD_true_ctz_of_ne_zero h
    rwa [Nat.testBit_eq_decide_div_mod_eq, decide_eq_true_iff] at htrue
  rw [TrailingZeros, Nat.mod_pow_succ, hbelow, hbit, Nat.zero_add, Nat.mul_one]

/-- The zeros before the first one of a word that has any. -/
theorem builtinClz_spec {a : BitVec 32} (h : a ≠ 0) : LeadingZeros 32 a.toNat (builtinClz a) :=
  clz_spec (by decide) h

theorem builtinCtz_spec {a : BitVec 32} (h : a ≠ 0) : TrailingZeros a.toNat (builtinCtz a) :=
  ctz_spec h

/-- A number has no other first one. -/
theorem leadingZeros_unique {width n c d : ℕ} (hc : LeadingZeros width n c)
    (hd : LeadingZeros width n d) : c = d := by
  obtain ⟨hcw, hclow, hchigh⟩ := hc
  obtain ⟨hdw, hdlow, hdhigh⟩ := hd
  have hle := (Nat.pow_lt_pow_iff_right (by decide)).mp (hclow.trans_lt hdhigh)
  have hge := (Nat.pow_lt_pow_iff_right (by decide)).mp (hdlow.trans_lt hchigh)
  omega

theorem trailingZeros_unique {n c d : ℕ} (hc : TrailingZeros n c) (hd : TrailingZeros n d) :
    c = d := by
  have hle : ∀ {c d}, TrailingZeros n c → TrailingZeros n d → c ≤ d := by
    intro c d hc hd
    by_contra hlt
    have hdvd : 2 ^ (d + 1) ∣ 2 ^ c := Nat.pow_dvd_pow 2 (by omega)
    have hpow : 2 ^ c ∣ 2 ^ (c + 1) := Nat.pow_dvd_pow 2 (Nat.le_succ c)
    have hmod := Nat.mod_mod_of_dvd n (hdvd.trans hpow)
    rw [TrailingZeros] at hc hd
    rw [hc, Nat.mod_eq_zero_of_dvd hdvd, hd] at hmod
    exact absurd hmod (Nat.two_pow_pos d).ne
  exact Nat.le_antisymm (hle hc hd) (hle hd hc)

/-- A number in the lower half, with the zeros of the upper one before it. -/
theorem leadingZeros_double_low {width n c : ℕ} (h : LeadingZeros width n c) :
    LeadingZeros (2 * width) n (width + c) := by
  obtain ⟨hc, hlow, hhigh⟩ := h
  refine ⟨by omega, ?_, ?_⟩
  · rwa [show 2 * width - 1 - (width + c) = width - 1 - c by omega]
  · rwa [show 2 * width - (width + c) = width - c by omega]

theorem leadingZeros_double_high {width n c : ℕ} (h : LeadingZeros width (n / 2 ^ width) c) :
    LeadingZeros (2 * width) n c := by
  obtain ⟨hc, hlow, hhigh⟩ := h
  rw [Nat.le_div_iff_mul_le (Nat.two_pow_pos width), ← Nat.pow_add] at hlow
  rw [Nat.div_lt_iff_lt_mul (Nat.two_pow_pos width), ← Nat.pow_add] at hhigh
  refine ⟨by omega, ?_, ?_⟩
  · rwa [show 2 * width - 1 - c = width - 1 - c + width by omega]
  · rwa [show 2 * width - c = width - c + width by omega]

/-- The test for a power of two. -/
theorem and_sub_one_eq_zero {n c : ℕ} (h : TrailingZeros n c) (hand : n &&& (n - 1) = 0) :
    n = 2 ^ c := by
  rw [TrailingZeros] at h
  have hpos := Nat.two_pow_pos c
  have hsplit := Nat.div_add_mod n (2 ^ (c + 1))
  have hsame : (n - 1) / 2 ^ (c + 1) = n / 2 ^ (c + 1) := by
    have hlt := Nat.mod_lt n (Nat.two_pow_pos (c + 1))
    rw [Nat.div_eq_iff (Nat.two_pow_pos (c + 1))]
    rw [Nat.mul_comm] at hsplit
    omega
  have hhigh : n / 2 ^ (c + 1) = 0 := by
    have hshift : (n &&& (n - 1)) >>> (c + 1) = 0 := by rw [hand, Nat.zero_shiftRight]
    rwa [Nat.shiftRight_and_distrib, Nat.shiftRight_eq_div_pow, Nat.shiftRight_eq_div_pow, hsame,
      Nat.and_self] at hshift
  rw [hhigh, Nat.mul_zero, Nat.zero_add] at hsplit
  rw [← hsplit, h]

/-- The test of the last bit that a number can have. -/
theorem and_bit_ne_zero {w : ℕ} {a bit : BitVec w} {t : ℕ} (hbit : bit.toNat = 2 ^ t)
    (h : a.toNat < 2 ^ (t + 1)) : a &&& bit ≠ 0#w ↔ 2 ^ t ≤ a.toNat := by
  rw [ne_eq, ← BitVec.toNat_inj, BitVec.toNat_and, hbit, Nat.and_two_pow, BitVec.toNat_zero]
  by_cases hset : 2 ^ t ≤ a.toNat
  · rw [Nat.testBit_of_two_pow_le_and_two_pow_add_one_gt hset h, Bool.toNat_true, Nat.one_mul]
    exact iff_of_true (Nat.two_pow_pos t).ne' hset
  · rw [Nat.testBit_lt_two_pow (Nat.not_le.mp hset), Bool.toNat_false, Nat.zero_mul]
    exact iff_of_false (not_not.mpr rfl) hset

/-! ## Shifts across the words -/

section Shifts

variable (x y : BitVec 32) {k : ℕ}

/-- The double word shifted by less than a word. -/
theorem append_shiftLeft (hk : k < 32) :
    ((x <<< k) ||| (y >>> (32 - k))) ++ (y <<< k) = (x ++ y) <<< k := by
  apply BitVec.eq_of_getLsbD_eq
  intro i hi
  simp only [BitVec.getLsbD_append, BitVec.getLsbD_or, BitVec.getLsbD_shiftLeft,
    BitVec.getLsbD_ushiftRight]
  by_cases hlow : i < 32
  · simp [hlow, hi, show i - k < 32 by omega]
  · by_cases hmiddle : i - k < 32
    · simp [hlow, hmiddle, hi, show i - 32 < k by omega, show ¬i < k by omega,
        show 32 - k + (i - 32) = i - k by omega]
    · simp [hlow, hmiddle, hi, show ¬i - 32 < k by omega, show ¬i < k by omega,
        show i - 32 < 32 by omega, show i - 32 - k = i - k - 32 by omega,
        BitVec.getLsbD_of_ge y (32 - k + (i - 32)) (by omega)]

/-- The lower word comes into the upper one whole. -/
theorem append_shiftLeft_ge (hk : 32 ≤ k) (hk' : k < 64) :
    (y <<< (k - 32)) ++ 0#32 = (x ++ y) <<< k := by
  apply BitVec.eq_of_getLsbD_eq
  intro i hi
  simp only [BitVec.getLsbD_append, BitVec.getLsbD_shiftLeft]
  by_cases hlow : i < 32
  · simp [hlow, show i < k by omega]
  · by_cases hmiddle : i < k
    · simp [hlow, hmiddle, show i - 32 < k - 32 by omega]
    · simp [hlow, hmiddle, hi, show ¬i - 32 < k - 32 by omega, show i - 32 < 32 by omega,
        show i - 32 - (k - 32) = i - k by omega, show i - k < 32 by omega]

/-- The same to the right. -/
theorem append_shiftRight (hk : k < 32) :
    (x >>> k) ++ ((x <<< (32 - k)) ||| (y >>> k)) = (x ++ y) >>> k := by
  apply BitVec.eq_of_getLsbD_eq
  intro i hi
  simp only [BitVec.getLsbD_append, BitVec.getLsbD_or, BitVec.getLsbD_shiftLeft,
    BitVec.getLsbD_ushiftRight]
  by_cases hlow : i < 32
  · by_cases hmiddle : k + i < 32
    · simp [hlow, hmiddle, show i < 32 - k by omega]
    · simp [hlow, hmiddle, show ¬i < 32 - k by omega, show i - (32 - k) = k + i - 32 by omega,
        BitVec.getLsbD_of_ge y (k + i) (by omega)]
  · simp [hlow, show ¬k + i < 32 by omega, show k + (i - 32) = k + i - 32 by omega]

theorem append_shiftRight_ge (hk : 32 ≤ k) : 0#32 ++ (x >>> (k - 32)) = (x ++ y) >>> k := by
  apply BitVec.eq_of_getLsbD_eq
  intro i hi
  simp only [BitVec.getLsbD_append, BitVec.getLsbD_ushiftRight]
  by_cases hlow : i < 32
  · simp [hlow, show ¬k + i < 32 by omega, show k - 32 + i = k + i - 32 by omega]
  · simp [hlow, show ¬k + i < 32 by omega, BitVec.getLsbD_of_ge x (k + i - 32) (by omega)]

end Shifts

/-! ## A big-endian target -/

theorem toNat_high (all : BitVec 64) : (high .big all).toNat = all.toNat / 2 ^ 32 :=
  toNat_upperWord all

theorem toNat_low (all : BitVec 64) : (low .big all).toNat = all.toNat % 2 ^ 32 :=
  toNat_lowerWord all

theorem toNat_dwords (x y : BitVec 32) :
    (dwords .big x y).toNat = x.toNat * 2 ^ 32 + y.toNat := toNat_append_words x y

theorem toNat_high_low (all : BitVec 64) :
    all.toNat = (high .big all).toNat * 2 ^ 32 + (low .big all).toNat := by
  rw [toNat_high, toNat_low]
  omega

theorem leadingZeros_high {all : BitVec 64} (h : high .big all ≠ 0#32) :
    LeadingZeros 64 all.toNat (builtinClz (high .big all)) := by
  have hclz := builtinClz_spec h
  rw [toNat_high] at hclz
  exact leadingZeros_double_high hclz

theorem leadingZeros_low {all : BitVec 64} (h : high .big all = 0#32) (h' : low .big all ≠ 0#32) :
    LeadingZeros 64 all.toNat (32 + builtinClz (low .big all)) := by
  have hword := toNat_high_low all
  rw [h, BitVec.toNat_zero, Nat.zero_mul, Nat.zero_add] at hword
  rw [hword]
  exact leadingZeros_double_low (builtinClz_spec h')

/-! ## A little-endian target -/

/-- The words of a double word in the other order. -/
def swapWords (all : BitVec 64) : BitVec 64 := lowerWord all ++ upperWord all

theorem swapWords_swapWords (all : BitVec 64) : swapWords (swapWords all) = all := by
  rw [swapWords, swapWords, lowerWord_append, upperWord_append, append_words]

/-- A double word as a big-endian target would have it with the same members. -/
def inOrder (e : Endianness) (all : BitVec 64) : BitVec 64 :=
  match e with
  | .big => all
  | .little => swapWords all

@[simp] theorem inOrder_inOrder (all : BitVec 64) : inOrder e (inOrder e all) = all := by
  cases e with
  | big => rfl
  | little => exact swapWords_swapWords all

/-- A member is the one that a big-endian target has in the words put in order. -/
theorem high_eq (all : BitVec 64) : high e all = high .big (inOrder e all) := by
  cases e with
  | big => rfl
  | little => exact (upperWord_append _ _).symm

theorem low_eq (all : BitVec 64) : low e all = low .big (inOrder e all) := by
  cases e with
  | big => rfl
  | little => exact (lowerWord_append _ _).symm

/-- Stored on one target and put in order, the members are those of the other one. -/
theorem dwords_eq (x y : BitVec 32) : dwords e x y = inOrder e (dwords .big x y) := by
  cases e with
  | big => rfl
  | little =>
    change y ++ x = lowerWord (x ++ y) ++ upperWord (x ++ y)
    rw [lowerWord_append, upperWord_append]

end Cpu0Toolchain.CompilerRt
