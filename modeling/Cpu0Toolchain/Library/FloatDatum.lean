import Cpu0Toolchain.Library.BinaryFloat
import Mathlib.Order.WithBot
import Mathlib.Data.Int.ConditionallyCompleteOrder
import Mathlib.Algebra.Order.Floor.Semifield
import Mathlib.Data.Rat.Floor

/-!
# Floating-point data and their arithmetic

What a word of a format means, and what the sum, the product and the quotient of two such words
have to mean. The operations are relations on data, as IEEE 754 has them: not a number if one of the
operands is none, the rules for infinities and for the signs of zeros, and between finite numbers
the exact result, rounded, of which there is one: `Rounded.unique`.
-/

namespace BinaryFloat

/-- Zeros and infinities have a sign. -/
inductive Datum where
  | nan
  | infinite (negative : Bool)
  | finite (negative : Bool) (magnitude : ℚ)
  deriving DecidableEq

namespace Datum

def neg : Datum → Datum
  | nan => nan
  | infinite s => infinite !s
  | finite s x => finite (!s) x

/-- A magnitude with its sign. -/
def signed (negative : Bool) (x : ℚ) : ℚ := if negative then -x else x

theorem abs_signed (negative : Bool) (x : ℚ) : |signed negative x| = |x| := by
  cases negative
  · rfl
  · exact abs_neg x

/-- The place among the extended rational numbers. A NaN has none. -/
def number : Datum → Option (WithBot (WithTop ℚ))
  | nan => none
  | infinite negative => some (if negative then ⊥ else ⊤)
  | finite negative x => some ((signed negative x : WithTop ℚ) : WithBot (WithTop ℚ))

end Datum

namespace Format
open Datum

variable (f : Format)

abbrev width : ℕ := f.significandBits + f.exponentBits + 1

/-- The datum of a number with a sign. Behind infinity there is no number. -/
def datum (negative : Bool) (m : ℕ) : Datum :=
  if f.infinity < m then nan else if m = f.infinity then infinite negative
  else finite negative (f.value m)

/-- The number without its sign. -/
def magnitude (a : BitVec f.width) : ℕ := a.toNat % 2 ^ (f.significandBits + f.exponentBits)

def decode (a : BitVec f.width) : Datum := f.datum a.msb (f.magnitude a)

/-- The datum is the value, rounded. -/
def Rounded (negative : Bool) (x : ℚ) (d : Datum) : Prop :=
  ∃ m, f.Nearest x m ∧ d = f.datum negative m

def IsSum : Datum → Datum → Datum → Prop
  | nan, _, d => d = nan
  | _, nan, d => d = nan
  | infinite s, infinite t, d => d = if s = t then infinite s else nan
  | infinite s, finite _ _, d => d = infinite s
  | finite _ _, infinite t, d => d = infinite t
  | finite s x, finite t y, d =>
    f.Rounded (if signed s x + signed t y = 0 then s && t else decide (signed s x + signed t y < 0))
      |signed s x + signed t y| d

def IsProduct : Datum → Datum → Datum → Prop
  | nan, _, d => d = nan
  | _, nan, d => d = nan
  | infinite s, infinite t, d => d = infinite (s ^^ t)
  | infinite s, finite t y, d => d = if y = 0 then nan else infinite (s ^^ t)
  | finite s x, infinite t, d => d = if x = 0 then nan else infinite (s ^^ t)
  | finite s x, finite t y, d => f.Rounded (s ^^ t) (x * y) d

def IsQuotient : Datum → Datum → Datum → Prop
  | nan, _, d => d = nan
  | _, nan, d => d = nan
  | infinite _, infinite _, d => d = nan
  | infinite s, finite t _, d => d = infinite (s ^^ t)
  | finite s _, infinite t, d => d = finite (s ^^ t) 0
  | finite s x, finite t y, d =>
    if y = 0 then d = if x = 0 then nan else infinite (s ^^ t) else f.Rounded (s ^^ t) (x / y) d

def leastNormal : ℚ := f.value (2 ^ f.significandBits)

/-- The quotient of an arithmetic without denormal results: of one that is not above the least
normal number only the sign is left. -/
def IsFlushedQuotient : Datum → Datum → Datum → Prop
  | finite s x, finite t y, d =>
    if y ≠ 0 ∧ x / y ≤ f.leastNormal then d = finite (s ^^ t) 0
    else f.IsQuotient (finite s x) (finite t y) d
  | a, b, d => f.IsQuotient a b d

/-- A datum of another format in this one. -/
def IsConversion : Datum → Datum → Prop
  | nan, d => d = nan
  | infinite s, d => d = infinite s
  | finite s x, d => f.Rounded s x d

variable {f}

theorem Rounded.unique {negative : Bool} {x : ℚ} {d d' : Datum} (h : f.Rounded negative x d)
    (h' : f.Rounded negative x d') : d = d' := by
  obtain ⟨m, hm, rfl⟩ := h
  obtain ⟨m', hm', rfl⟩ := h'
  rw [hm.unique hm']

theorem IsConversion.unique {a d d' : Datum} (h : f.IsConversion a d) (h' : f.IsConversion a d') :
    d = d' := by
  cases a
  case finite => exact Rounded.unique h h'
  all_goals exact Eq.trans h (Eq.symm h')

theorem IsSum.symm {a b d : Datum} (h : f.IsSum a b d) : f.IsSum b a d := by
  cases a <;> cases b
  case finite.finite s x t y =>
    change f.Rounded _ _ _
    rw [add_comm, Bool.and_comm]
    exact h
  case infinite.infinite s t =>
    change d = _
    by_cases hst : s = t
    · subst hst
      exact h
    · rw [if_neg (Ne.symm hst)]
      exact Eq.trans h (if_neg hst)
  all_goals exact h

theorem rounded_value (negative : Bool) {m : ℕ} (h : m < f.infinity) :
    f.Rounded negative (f.value m) (finite negative (f.value m)) :=
  ⟨m, Nearest.refl h.le, by rw [datum, if_neg (Nat.not_lt.mpr h.le), if_neg h.ne]⟩

theorem isSum_nan (a : Datum) : f.IsSum a nan nan := by
  cases a <;> rfl

theorem isSum_same {s : Bool} {x y : ℚ} {d : Datum} (hx : 0 < x) (hy : 0 < y)
    (h : f.Rounded s (x + y) d) : f.IsSum (finite s x) (finite s y) d := by
  cases s with
  | false =>
    change f.Rounded (if x + y = 0 then _ else decide (x + y < 0)) |x + y| d
    rwa [if_neg (by linarith), decide_eq_false (by linarith), abs_of_nonneg (by linarith)]
  | true =>
    change f.Rounded (if -x + -y = 0 then _ else decide (-x + -y < 0)) |-x + -y| d
    rwa [if_neg (by linarith), decide_eq_true (by linarith), ← neg_add, abs_neg,
      abs_of_nonneg (by linarith)]

theorem isSum_opposite {s : Bool} {x y : ℚ} {d : Datum} (hxy : y < x)
    (h : f.Rounded s (x - y) d) : f.IsSum (finite s x) (finite (!s) y) d := by
  cases s with
  | false =>
    change f.Rounded (if x + -y = 0 then _ else decide (x + -y < 0)) |x + -y| d
    rwa [if_neg (by linarith), decide_eq_false (by linarith), ← sub_eq_add_neg,
      abs_of_nonneg (by linarith)]
  | true =>
    change f.Rounded (if -x + y = 0 then _ else decide (-x + y < 0)) |-x + y| d
    rwa [if_neg (by linarith), decide_eq_true (by linarith), neg_add_eq_sub, abs_sub_comm,
      abs_of_nonneg (by linarith)]

/-- A sum that is zero is a positive zero. -/
theorem isSum_cancel (s : Bool) (x : ℚ) :
    f.IsSum (finite s x) (finite (!s) x) (finite false 0) := by
  have hzero : signed s x + signed (!s) x = 0 := by
    cases s
    · exact add_neg_cancel x
    · exact neg_add_cancel x
  change f.Rounded (if signed s x + signed (!s) x = 0 then s && !s else _)
    |signed s x + signed (!s) x| _
  rw [if_pos hzero, hzero, abs_zero, Bool.and_not_self]
  have hrounded := rounded_value (f := f) false f.infinity_pos
  rwa [value_zero] at hrounded

theorem isSum_zeros (s t : Bool) : f.IsSum (finite s 0) (finite t 0) (finite (s && t) 0) := by
  have hzero : signed s 0 + signed t 0 = 0 := by
    cases s <;> cases t <;> simp [signed]
  change f.Rounded (if signed s 0 + signed t 0 = 0 then s && t else _)
    |signed s 0 + signed t 0| _
  rw [if_pos hzero, hzero, abs_zero]
  have hrounded := rounded_value (f := f) (s && t) f.infinity_pos
  rwa [value_zero] at hrounded

theorem isSum_zero (s t : Bool) {m : ℕ} (hpos : 0 < m) (h : m < f.infinity) :
    f.IsSum (finite s 0) (finite t (f.value m)) (finite t (f.value m)) := by
  have hvalue : 0 < f.value m := by
    rw [← f.value_zero]
    exact f.value_strictMono hpos
  have hsum : signed s 0 + signed t (f.value m) = signed t (f.value m) := by
    cases s <;> simp [signed]
  change f.Rounded (if signed s 0 + signed t (f.value m) = 0 then _ else
    decide (signed s 0 + signed t (f.value m) < 0)) |signed s 0 + signed t (f.value m)| _
  have hrounded := rounded_value (f := f) t h
  rw [hsum, abs_signed, abs_of_pos hvalue]
  cases t with
  | false =>
    change f.Rounded (if f.value m = 0 then _ else decide (f.value m < 0)) _ _
    rwa [if_neg hvalue.ne', decide_eq_false (not_lt.mpr hvalue.le)]
  | true =>
    change f.Rounded (if -f.value m = 0 then _ else decide (-f.value m < 0)) _ _
    rwa [if_neg (neg_ne_zero.mpr hvalue.ne'), decide_eq_true (neg_lt_zero.mpr hvalue)]

theorem isProduct_nan (a : Datum) : f.IsProduct a nan nan := by
  cases a <;> rfl

theorem isProduct_infinite {s t : Bool} {y : ℚ} (hy : y ≠ 0) :
    f.IsProduct (infinite s) (finite t y) (infinite (s ^^ t)) := (if_neg hy).symm

theorem isProduct_zero (s t : Bool) (y : ℚ) :
    f.IsProduct (finite s 0) (finite t y) (finite (s ^^ t) 0) := by
  change f.Rounded (s ^^ t) (0 * y) _
  have hrounded := rounded_value (f := f) (s ^^ t) f.infinity_pos
  rwa [zero_mul, ← f.value_zero]

theorem IsProduct.symm {a b d : Datum} (h : f.IsProduct a b d) : f.IsProduct b a d := by
  cases a <;> cases b
  case finite.finite =>
    change f.Rounded _ _ _
    rw [mul_comm, Bool.xor_comm]
    exact h
  case infinite.infinite =>
    change d = _
    rw [Bool.xor_comm]
    exact h
  case infinite.finite =>
    change d = if _ then _ else _
    rw [Bool.xor_comm]
    exact h
  case finite.infinite =>
    change d = if _ then _ else _
    rw [Bool.xor_comm]
    exact h
  all_goals exact h

theorem isFlushedQuotient_nan (a : Datum) : f.IsFlushedQuotient a nan nan := by
  cases a <;> rfl

theorem isFlushedQuotient_finite (s t : Bool) (x y : ℚ) (d : Datum) :
    f.IsFlushedQuotient (finite s x) (finite t y) d ↔
      if y = 0 then d = if x = 0 then nan else infinite (s ^^ t)
      else if x / y ≤ f.leastNormal then d = finite (s ^^ t) 0
      else f.Rounded (s ^^ t) (x / y) d := by
  rw [IsFlushedQuotient, IsQuotient]
  by_cases hy : y = 0
  · rw [if_neg (fun h => h.1 hy), if_pos hy, if_pos hy]
  · rw [if_congr (and_iff_right hy) rfl rfl, if_neg hy, if_neg hy]

theorem leastNormal_pos : 0 < f.leastNormal := by
  rw [leastNormal, ← f.value_zero]
  exact f.value_strictMono (Nat.two_pow_pos _)

theorem value_pos {m : ℕ} (h : 0 < m) : 0 < f.value m := by
  rw [← f.value_zero]
  exact f.value_strictMono h

theorem leastNormal_eq : f.leastNormal = 2 ^ f.significandBits * f.quantum := by
  rw [leastNormal, f.value_of_lt (lt_two_mul_self (Nat.two_pow_pos _)), Nat.cast_pow, Nat.cast_two]

/-- Only the exponent tells, as the significand is above one. -/
theorem le_leastNormal_iff {E : ℤ} {y : ℚ} (hlow : 2 ^ f.significandBits < y)
    (hhigh : y ≤ 2 * 2 ^ f.significandBits) :
    y * 2 ^ (E - 1) * f.quantum ≤ f.leastNormal ↔ E < 1 := by
  have hpos : (0 : ℚ) < 2 ^ f.significandBits := by positivity
  rw [leastNormal_eq, mul_le_mul_iff_left₀ f.quantum_pos]
  constructor
  · intro hle
    by_contra hge
    have hexp : (1 : ℚ) ≤ 2 ^ (E - 1) := one_le_zpow₀ one_le_two (by omega)
    have hmul := mul_le_mul_of_nonneg_left hexp (hpos.trans hlow).le
    linarith
  · intro hlt
    have hexp : (2 : ℚ) ^ (E - 1) ≤ 2 ^ (-1 : ℤ) := zpow_le_zpow_right₀ one_le_two (by omega)
    have hmul := mul_le_mul hhigh hexp (zpow_nonneg zero_le_two _) (by positivity)
    rwa [zpow_neg_one, mul_comm 2 (2 ^ _), mul_inv_cancel_right₀ two_ne_zero] at hmul

theorem two_pow_bias_quantum :
    (2 : ℚ) ^ f.significandBits * 2 ^ (f.bias - 1 : ℤ) * f.quantum = 1 := by
  have hbias := f.bias_pos
  rw [quantum, one_div, ← zpow_natCast, ← zpow_natCast, ← zpow_neg, ← zpow_add₀ two_ne_zero,
    ← zpow_add₀ two_ne_zero, zpow_eq_one_iff_right₀ zero_le_two (by norm_num)]
  omega

/-! ## Words -/

theorem magnitude_lt (a : BitVec f.width) :
    f.magnitude a < 2 ^ (f.significandBits + f.exponentBits) :=
  Nat.mod_lt _ (Nat.two_pow_pos _)

theorem toNat_eq (a : BitVec f.width) :
    a.toNat = (if a.msb then 2 ^ (f.significandBits + f.exponentBits) else 0) + f.magnitude a := by
  have hlt : a.toNat < 2 ^ (f.significandBits + f.exponentBits + 1) := a.isLt
  rw [Nat.pow_succ] at hlt
  have hmsb : a.msb = decide (2 ^ (f.significandBits + f.exponentBits) ≤ a.toNat) :=
    BitVec.msb_eq_decide a
  rw [magnitude, hmsb]
  by_cases h : 2 ^ (f.significandBits + f.exponentBits) ≤ a.toNat
  · rw [if_pos (decide_eq_true h), Nat.mod_eq_sub_mod h, Nat.mod_eq_of_lt (by omega)]
    omega
  · rw [if_neg (by rwa [decide_eq_true_eq]), Nat.mod_eq_of_lt (Nat.not_le.mp h), Nat.zero_add]

/-- A word from its sign and its number. -/
theorem decode_of_toNat {a : BitVec f.width} {negative : Bool} {m : ℕ}
    (hm : m < 2 ^ (f.significandBits + f.exponentBits))
    (h : a.toNat = (if negative then 2 ^ (f.significandBits + f.exponentBits) else 0) + m) :
    a.msb = negative ∧ f.magnitude a = m := by
  have hmsb : a.msb = decide (2 ^ (f.significandBits + f.exponentBits) ≤ a.toNat) :=
    BitVec.msb_eq_decide a
  rw [magnitude, hmsb, h]
  cases negative with
  | true =>
    rw [if_pos rfl, Nat.add_mod_left, Nat.mod_eq_of_lt hm]
    exact ⟨decide_eq_true (Nat.le_add_right _ _), rfl⟩
  | false =>
    rw [if_neg Bool.false_ne_true, Nat.zero_add, Nat.mod_eq_of_lt hm]
    exact ⟨decide_eq_false (Nat.not_le.mpr hm), rfl⟩

theorem datum_of_lt {negative : Bool} {m : ℕ} (h : m < f.infinity) :
    f.datum negative m = finite negative (f.value m) := by
  rw [datum, if_neg (Nat.not_lt.mpr h.le), if_neg h.ne]

theorem datum_infinity (negative : Bool) : f.datum negative f.infinity = infinite negative := by
  rw [datum, if_neg (Nat.lt_irrefl _), if_pos rfl]

theorem datum_of_gt {negative : Bool} {m : ℕ} (h : f.infinity < m) :
    f.datum negative m = nan := if_pos h

theorem datum_not (negative : Bool) (m : ℕ) :
    f.datum (!negative) m = (f.datum negative m).neg := by
  rw [datum, datum]
  split
  · rfl
  split
  · rfl
  · rfl

section Decode

variable {a : BitVec f.width}

theorem decode_nan (h : f.infinity < f.magnitude a) : f.decode a = nan := datum_of_gt h

theorem decode_infinite (h : f.magnitude a = f.infinity) : f.decode a = infinite a.msb := by
  rw [decode, h, datum_infinity]

theorem decode_finite (h : f.magnitude a < f.infinity) :
    f.decode a = finite a.msb (f.value (f.magnitude a)) := datum_of_lt h

theorem decode_eq_zero (h : f.magnitude a = 0) : f.decode a = finite a.msb 0 := by
  rw [decode, h, datum_of_lt f.infinity_pos, value_zero]

theorem decode_eq_nan_iff : f.decode a = nan ↔ f.infinity < f.magnitude a := by
  refine ⟨fun h => ?_, decode_nan⟩
  rcases Nat.lt_trichotomy (f.magnitude a) f.infinity with hlt | heq | hgt
  · rw [decode_finite hlt] at h
    cases h
  · rw [decode_infinite heq] at h
    cases h
  · exact hgt

theorem decode_eq_finite_iff {negative : Bool} {x : ℚ} : f.decode a = finite negative x ↔
    f.magnitude a < f.infinity ∧ a.msb = negative ∧ f.value (f.magnitude a) = x := by
  rcases Nat.lt_trichotomy (f.magnitude a) f.infinity with hlt | heq | hgt
  · rw [decode_finite hlt, finite.injEq]
    exact (and_iff_right hlt).symm
  · rw [decode_infinite heq]
    exact iff_of_false nofun fun h => h.1.ne heq
  · rw [decode_nan hgt]
    exact iff_of_false nofun fun h => Nat.lt_asymm h.1 hgt

/-- Only a NaN has several words. -/
theorem decode_injective {b : BitVec f.width} (h : f.decode a = f.decode b)
    (hle : f.magnitude a ≤ f.infinity) : a.msb = b.msb ∧ f.magnitude a = f.magnitude b := by
  rcases Nat.lt_trichotomy (f.magnitude b) f.infinity with hltb | heqb | hgtb
  · rw [decode_finite hltb] at h
    rcases Nat.lt_or_eq_of_le hle with hlt | heq
    · rw [decode_finite hlt] at h
      injection h with hsign hvalue
      exact ⟨hsign, f.value_strictMono.injective hvalue⟩
    · rw [decode_infinite heq] at h
      cases h
  · rw [decode_infinite heqb] at h
    rcases Nat.lt_or_eq_of_le hle with hlt | heq
    · rw [decode_finite hlt] at h
      cases h
    · rw [decode_infinite heq] at h
      injection h with hsign
      exact ⟨hsign, heq.trans heqb.symm⟩
  · rw [decode_nan hgtb, decode_eq_nan_iff] at h
    omega

/-- A word of the format itself is no other number in it. -/
theorem isConversion_self (a : BitVec f.width) : f.IsConversion (f.decode a) (f.decode a) := by
  rcases Nat.lt_trichotomy (f.magnitude a) f.infinity with hlt | heq | hgt
  · rw [decode_finite hlt]
    exact rounded_value _ hlt
  · rw [decode_infinite heq]
    rfl
  · rw [decode_nan hgt]
    rfl

end Decode

theorem decode_zero : f.decode 0#f.width = finite false 0 := by
  have hzero : (0#f.width).toNat =
      (if false then 2 ^ (f.significandBits + f.exponentBits) else 0) + 0 := rfl
  obtain ⟨hmsb, hmagnitude⟩ := decode_of_toNat (f := f) (Nat.two_pow_pos _) hzero
  rw [decode_eq_zero hmagnitude, hmsb]

theorem rounded_zero (f : Format) : f.Rounded false 0 (f.decode 0#f.width) := by
  have hrounded := rounded_value (f := f) false f.infinity_pos
  rwa [value_zero, ← decode_zero] at hrounded

/-! ## Order -/

/-- The number with its sign. -/
def signedNumber (a : BitVec f.width) : ℤ := if a.msb then -f.magnitude a else f.magnitude a

/-- The place of a number with its sign, up to the infinities. -/
def place (f : Format) (n : ℤ) : WithBot (WithTop ℚ) :=
  if n = -f.infinity then ⊥ else if n = f.infinity then ⊤
  else ((signed (decide (n < 0)) (f.value n.natAbs) : WithTop ℚ) : WithBot (WithTop ℚ))

theorem signed_value_strictMono :
    StrictMono fun n : ℤ => signed (decide (n < 0)) (f.value n.natAbs) := by
  intro m n hlt
  have hnonneg : ∀ k, 0 ≤ f.value k := fun k => by
    rw [← f.value_zero]
    exact f.value_strictMono.monotone (Nat.zero_le k)
  by_cases hm : m < 0
  · by_cases hn : n < 0
    · have hless : f.value n.natAbs < f.value m.natAbs := f.value_strictMono (by omega)
      simpa [signed, hm, hn] using hless
    · have hless : 0 < f.value m.natAbs := value_pos (by omega)
      have hge := hnonneg n.natAbs
      simp only [signed, hm, hn, decide_true, decide_false, if_true, Bool.false_eq_true, if_false]
      linarith
  · have hn : ¬n < 0 := by omega
    have hless : f.value m.natAbs < f.value n.natAbs := f.value_strictMono (by omega)
    simpa [signed, hm, hn] using hless

theorem place_strictMonoOn : StrictMonoOn f.place (Set.Icc (-f.infinity) f.infinity) := by
  intro m hm n hn hlt
  have hpos := f.infinity_pos
  obtain ⟨hm1, hm2⟩ := Set.mem_Icc.mp hm
  obtain ⟨hn1, hn2⟩ := Set.mem_Icc.mp hn
  rw [place, place, if_neg (show n ≠ -f.infinity by omega), if_neg (show m ≠ f.infinity by omega)]
  by_cases hbot : m = -f.infinity
  · rw [if_pos hbot]
    split
    · exact bot_lt_top
    · exact WithBot.bot_lt_coe _
  · rw [if_neg hbot]
    split
    · exact WithBot.coe_lt_coe.mpr (WithTop.coe_lt_top _)
    · exact WithBot.coe_lt_coe.mpr (WithTop.coe_lt_coe.mpr (signed_value_strictMono hlt))

theorem number_decode {a : BitVec f.width} (h : f.magnitude a ≤ f.infinity) :
    (f.decode a).number = some (f.place (signedNumber a)) ∧
      signedNumber a ∈ Set.Icc (-f.infinity : ℤ) f.infinity := by
  have hpos := f.infinity_pos
  rcases Nat.lt_or_eq_of_le h with hlt | heq
  · rw [decode_finite hlt, number, place, signedNumber]
    cases a.msb with
    | false =>
      rw [if_neg Bool.false_ne_true, if_neg (by omega), if_neg (by omega), Int.natAbs_natCast,
        decide_eq_false (by omega)]
      exact ⟨rfl, Set.mem_Icc.mpr (by omega)⟩
    | true =>
      rw [if_pos rfl, if_neg (by omega), if_neg (by omega), Int.natAbs_neg, Int.natAbs_natCast]
      refine ⟨?_, Set.mem_Icc.mpr (by omega)⟩
      rcases Nat.eq_zero_or_pos (f.magnitude a) with hzero | hne
      · rw [hzero, value_zero]
        norm_num [signed]
      · rw [decide_eq_true (show -(f.magnitude a : ℤ) < 0 by omega)]
  · rw [decode_infinite heq, number, place, signedNumber, heq]
    cases a.msb with
    | false =>
      rw [if_neg Bool.false_ne_true, if_neg Bool.false_ne_true, if_neg (by omega), if_pos rfl]
      exact ⟨rfl, Set.mem_Icc.mpr (by omega)⟩
    | true =>
      rw [if_pos rfl, if_pos rfl, if_pos rfl]
      exact ⟨rfl, Set.mem_Icc.mpr (by omega)⟩

theorem number_nan {a : BitVec f.width} (h : f.infinity < f.magnitude a) :
    (f.decode a).number = none := by
  rw [decode_nan h]
  rfl

/-! ## Integers -/

/-- An integer. Zero is positive. -/
def ofInt (n : ℤ) : Datum := finite (decide (n < 0)) |(n : ℚ)|

/-- The number without its fraction. -/
def towardZero (negative : Bool) (x : ℚ) : ℤ := if negative then -⌊x⌋₊ else ⌊x⌋₊

theorem towardZero_ofInt (n : ℤ) : towardZero (decide (n < 0)) |(n : ℚ)| = n := by
  have habs : |(n : ℚ)| = (n.natAbs : ℚ) := by
    rw [← Int.cast_abs, Int.abs_eq_natAbs, Int.cast_natCast]
  rw [towardZero, habs, Nat.floor_natCast]
  by_cases hneg : n < 0
  · rw [decide_eq_true hneg, if_pos rfl]
    omega
  · rw [decide_eq_false hneg, if_neg Bool.false_ne_true]
    omega

/-- The value from the significand and the exponent without its bias. -/
theorem value_of_exponent {m e : ℕ} (h : m / 2 ^ f.significandBits = f.bias + e) :
    f.value m = (m % 2 ^ f.significandBits + 2 ^ f.significandBits : ℕ) * 2 ^ e /
      2 ^ f.significandBits := by
  have hbias := f.bias_pos
  have hpos := f.significandBits_pos
  have hexp : f.bias + f.significandBits - 1 = f.bias - 1 + f.significandBits := by omega
  have hexp' : f.bias + e - 1 = f.bias - 1 + e := by omega
  rw [value, units, ulp, h, if_neg (by omega), quantum, hexp, hexp']
  push_cast
  rw [pow_add, pow_add]
  field_simp

theorem infinity_exponent (f : Format) :
    f.infinity = (2 * f.bias + 1) * 2 ^ f.significandBits := by
  have hpow : 2 ^ f.exponentBits = 2 * 2 ^ (f.exponentBits - 1) := by
    rw [← Nat.pow_succ', Nat.succ_eq_add_one, Nat.sub_add_cancel (Nat.le_of_lt f.exponentBits_gt)]
  have hpos := Nat.two_pow_pos (f.exponentBits - 1)
  rw [infinity, bias, hpow]
  congr 1
  omega

theorem lt_infinity_iff {m : ℕ} :
    m < f.infinity ↔ m / 2 ^ f.significandBits ≤ 2 * f.bias := by
  rw [infinity_exponent, ← Nat.div_lt_iff_lt_mul (Nat.two_pow_pos _), Nat.lt_succ_iff]

/-- Digits behind the point are dropped. -/
theorem floor_value {m e k : ℕ} (h : m / 2 ^ f.significandBits = f.bias + e)
    (hk : e + k = f.significandBits) : ⌊f.value m⌋₊ =
      (m % 2 ^ f.significandBits + 2 ^ f.significandBits) / 2 ^ k := by
  rw [value_of_exponent h]
  have hdiv : (2 : ℚ) ^ e / 2 ^ f.significandBits = 1 / (2 ^ k : ℕ) := by
    rw [← hk, pow_add]
    push_cast
    field_simp
  rw [mul_div_assoc, hdiv, mul_one_div, Nat.floor_div_eq_div]

/-- All digits are before the point. -/
theorem value_eq_natCast {m k : ℕ}
    (h : m / 2 ^ f.significandBits = f.bias + (f.significandBits + k)) : f.value m =
      ((m % 2 ^ f.significandBits + 2 ^ f.significandBits) * 2 ^ k : ℕ) := by
  rw [value_of_exponent h, pow_add]
  push_cast
  field_simp

theorem two_pow_le_value_iff {m e : ℕ} :
    2 ^ e ≤ f.value m ↔ f.bias + e ≤ m / 2 ^ f.significandBits := by
  have hpow : f.value ((f.bias + e) * 2 ^ f.significandBits) = 2 ^ e := by
    rw [value_of_exponent (e := e) (Nat.mul_div_cancel _ (Nat.two_pow_pos _)), Nat.mul_mod_left,
      Nat.zero_add, Nat.cast_pow, Nat.cast_two, mul_comm, mul_div_assoc, div_self (by positivity),
      mul_one]
  rw [← hpow, f.value_strictMono.le_iff_le, Nat.le_div_iff_mul_le (Nat.two_pow_pos _)]

end Format

end BinaryFloat
