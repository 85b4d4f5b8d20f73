import Cpu0Toolchain.CompilerRt.IntLib
import Cpu0Toolchain.Library.BitFields

/-!
# Counts of bits

`popcountsi2.c` and `popcountdi2.c`, which add the bits in fields; `paritysi2.c` and `paritydi2.c`;
`clzsi2.c`, `ctzsi2.c` and their double words, which halve the part of the word that is left; and
`ffsdi2.c`.

## Main results

- `popcountsi2_eq`, `popcountdi2_eq`, `toNat_paritydi2`: the number of ones and its parity.
- `clzsi2_eq`, `ctzsi2_eq`: the zeros at both ends, also of zero.
- `clzdi2_eq`, `ctzdi2_eq`, `ffsdi2_eq`: those of a double word on both targets.
-/

namespace Cpu0Toolchain.CompilerRt
open EndianWord BitFields

/-! ## Ones -/

def popcountsi2 (a : BitVec 32) : BitVec 32 :=
  let x := a - ((a >>> 1) &&& 0x55555555#32)
  -- Every 2 bits holds the sum of every pair of bits
  let x := ((x >>> 2) &&& 0x33333333#32) + (x &&& 0x33333333#32)
  let x := (x + (x >>> 4)) &&& 0x0f0f0f0f#32
  let x := x + (x >>> 16)
  -- Upper 16 bits are garbage
  (x + (x >>> 8)) &&& 0x3f#32

def popcountdi2 (a : BitVec 64) : BitVec 32 :=
  let x2 := a - ((a >>> 1) &&& 0x5555555555555555#64)
  let x2 := ((x2 >>> 2) &&& 0x3333333333333333#64) + (x2 &&& 0x3333333333333333#64)
  let x2 := (x2 + (x2 >>> 4)) &&& 0x0f0f0f0f0f0f0f0f#64
  let x := (x2 + (x2 >>> 32)).setWidth 32
  let x := x + (x >>> 16)
  (x + (x >>> 8)) &&& 0x7f#32

/-- Three steps leave the number of ones of each byte in it. -/
theorem byteSums {w m : ℕ} {mask1 mask2 mask4 : BitVec w} (hw : w = 8 * m)
    (h1 : mask1.toNat = evenMask 1 (4 * m)) (h2 : mask2.toNat = evenMask 2 (2 * m))
    (h4 : mask4.toNat = evenMask 4 m) (a : BitVec w) :
    let x := a - ((a >>> 1) &&& mask1)
    let x := ((x >>> 2) &&& mask2) + (x &&& mask2)
    let x := (x + (x >>> 4)) &&& mask4
    FieldsLe 8 8 x.toNat ∧ fieldSum 8 m x.toNat = a.cpop.toNat := by
  intro x1 x2 x4
  have e1 : x1.toNat = pairSums 1 (4 * m) a.toNat := toNat_sub_mask h1 (by omega) a
  have e2 : x2.toNat = pairSums 2 (2 * m) x1.toNat := toNat_add_mask h2 (by omega) (by decide) x1
  have l0 : FieldsLe 1 1 a.toNat := fun i => Nat.le_of_lt_succ (Nat.mod_lt _ (by decide))
  have l1 : FieldsLe 2 2 x1.toNat := e1 ▸ fieldsLe_pairSums l0 (by decide) _
  have l2 : FieldsLe 4 4 x2.toNat := e2 ▸ fieldsLe_pairSums l1 (by decide) _
  have e4 : x4.toNat = pairSums 4 m x2.toNat :=
    toNat_mask_add h4 (by omega) (by decide) l2 (by decide)
  refine ⟨e4 ▸ fieldsLe_pairSums l2 (by decide) _, ?_⟩
  have hbits : fieldSum 2 (4 * m) (pairSums 1 (4 * m) a.toNat) = fieldSum 1 w a.toNat := by
    have hpairs := fieldSum_pairSums (k := 1) (by decide) (4 * m) a.toNat
    rwa [show 2 * (4 * m) = w by omega] at hpairs
  calc fieldSum 8 m x4.toNat = fieldSum 4 (2 * m) x2.toNat := by
        rw [e4]
        exact fieldSum_pairSums (k := 4) (by decide) m x2.toNat
    _ = fieldSum 2 (4 * m) x1.toNat := by
        rw [e2, show 4 * m = 2 * (2 * m) by omega]
        exact fieldSum_pairSums (k := 2) (by decide) (2 * m) x1.toNat
    _ = a.cpop.toNat := by rw [e1, hbits, toNat_cpop]

/-- Two more steps add the four bytes of a word in the lowest one. -/
theorem sumBytes {x : BitVec 32} (h : FieldsLe 8 16 x.toNat) :
    (x + (x >>> 16) + ((x + (x >>> 16)) >>> 8)).toNat % 2 ^ 8 = fieldSum 8 4 x.toNat := by
  obtain ⟨hle, hsum⟩ := fold_word (l := 4) (m := 2) rfl h (by decide) (by decide)
  obtain ⟨-, hsum'⟩ := fold_word (l := 4) (m := 1) rfl hle (by decide) (by decide)
  exact hsum'.trans hsum

theorem fieldsLe_mono {k b c n : ℕ} (h : FieldsLe k b n) (hle : b ≤ c) : FieldsLe k c n :=
  fun i => (h i).trans hle

theorem toNat_and_lowBits {x mask : BitVec 32} {r n : ℕ} (hmask : mask.toNat = 2 ^ r - 1)
    (hr : r ≤ 8) (hx : x.toNat % 2 ^ 8 = n) (hn : n < 2 ^ r) : (x &&& mask).toNat = n := by
  have hdvd : 2 ^ r ∣ 2 ^ 8 := Nat.pow_dvd_pow 2 hr
  rw [BitVec.toNat_and, hmask, Nat.and_two_pow_sub_one_eq_mod, ← Nat.mod_mod_of_dvd _ hdvd, hx,
    Nat.mod_eq_of_lt hn]

/-- The four bytes are added in the lowest one, and no sum leaves its field. -/
theorem popcountsi2_eq (a : BitVec 32) : popcountsi2 a = a.cpop := by
  obtain ⟨hle, hsum⟩ := byteSums (m := 4) rfl (show (0x55555555#32).toNat = _ by decide)
    (show (0x33333333#32).toNat = _ by decide) (show (0x0f0f0f0f#32).toNat = _ by decide) a
  have hcount := BitVec.toNat_cpop_le a
  apply BitVec.eq_of_toNat_eq
  exact toNat_and_lowBits (r := 6) rfl (by decide)
    ((sumBytes (fieldsLe_mono hle (by decide))).trans hsum) (by omega)

/-- The fields of both words are added, and the last steps are those of one word. -/
theorem popcountdi2_eq (a : BitVec 64) : popcountdi2 a = a.cpop.setWidth 32 := by
  obtain ⟨hle, hsum⟩ := byteSums (m := 8) rfl (show (0x5555555555555555#64).toNat = _ by decide)
    (show (0x3333333333333333#64).toNat = _ by decide)
    (show (0x0f0f0f0f0f0f0f0f#64).toNat = _ by decide) a
  obtain ⟨hle', hsum'⟩ := fold_word (l := 8) (m := 4) rfl hle (by decide) (by decide)
  have hcount := BitVec.toNat_cpop_le a
  have hword : ∀ x : BitVec 64, (x.setWidth 32).toNat = x.toNat % 2 ^ (8 * 4) :=
    fun x => BitVec.toNat_setWidth 32 x
  apply BitVec.eq_of_toNat_eq
  rw [BitVec.toNat_setWidth, Nat.mod_eq_of_lt (by omega)]
  refine toNat_and_lowBits (r := 7) rfl (by decide) ((sumBytes ?_).trans ?_) (by omega)
  · rw [hword]
    exact fieldsLe_mod hle' 4
  · rw [hword, fieldSum_mod (by decide)]
    exact hsum'.trans hsum

/-! ## Parity -/

def paritysi2 (a : BitVec 32) : BitVec 32 :=
  let x := a ^^^ (a >>> 16)
  let x := x ^^^ (x >>> 8)
  let x := x ^^^ (x >>> 4)
  (0x6996#32 >>> (x &&& 0xf#32).toNat) &&& 1#32

def paritydi2 (e : Endianness) (a : BitVec 64) : BitVec 32 := paritysi2 (high e a ^^^ low e a)

/-- Each step moves the parity into the lower half of the bits that are left. -/
theorem fieldSum_xor_shift (m n : ℕ) :
    fieldSum 1 m (n ^^^ n >>> m) % 2 = fieldSum 1 (m + m) n % 2 := by
  rw [fieldSum_xor, fieldSum_add, Nat.one_mul, Nat.shiftRight_eq_div_pow]

/-- The table holds the parity of four bits. -/
theorem parityTable (n : ℕ) (h : n < 16) :
    ((0x6996#32 >>> n) &&& 1#32).toNat = fieldSum 1 4 n % 2 := by
  revert n
  decide

/-- The parity is read off the table once four bits are left. -/
theorem toNat_paritysi2 (a : BitVec 32) : (paritysi2 a).toNat = a.cpop.toNat % 2 := by
  have hshift : ∀ (x : BitVec 32) (m : ℕ), (x ^^^ (x >>> m)).toNat = x.toNat ^^^ x.toNat >>> m := by
    intro x m
    rw [BitVec.toNat_xor, BitVec.toNat_ushiftRight]
  have hnibble : ∀ x : BitVec 32, (x &&& 0xf#32).toNat = x.toNat % 2 ^ (1 * 4) := by
    intro x
    rw [BitVec.toNat_and]
    exact Nat.and_two_pow_sub_one_eq_mod _ 4
  rw [paritysi2, parityTable _ (by rw [hnibble]; omega), hnibble, fieldSum_mod (by decide), hshift,
    fieldSum_xor_shift 4, hshift, fieldSum_xor_shift 8, hshift, fieldSum_xor_shift 16, toNat_cpop]

/-- Folding the words into one keeps the parity, on both targets. -/
theorem toNat_paritydi2 (e : Endianness) (a : BitVec 64) :
    (paritydi2 e a).toNat = a.cpop.toNat % 2 := by
  have hwords : a.cpop.toNat = (upperWord a).cpop.toNat + (lowerWord a).cpop.toNat := by
    rw [← BitVec.toNat_cpop_append, append_words]
  rw [paritydi2, toNat_paritysi2, toNat_cpop_xor, hwords]
  cases e with
  | big => rfl
  | little => rw [high, low, Nat.add_comm]

/-! ## Leading zeros -/

/-- One of the steps of `clzsi2`, on `x` and `r`. -/
def clzStep (mask : BitVec 32) (k : ℕ) (x r : BitVec 32) : BitVec 32 × BitVec 32 :=
  let t := (if x &&& mask = 0#32 then 1#32 else 0#32) <<< k
  (x >>> (1#32 <<< k - t).toNat, r + t)

def clzsi2 (a : BitVec 32) : BitVec 32 :=
  let (x, r) := clzStep 0xffff0000#32 4 a 0#32
  let (x, r) := clzStep 0xff00#32 3 x r
  let (x, r) := clzStep 0xf0#32 2 x r
  let (x, r) := clzStep 0xc#32 1 x r
  -- x = [0 - 3], and r is even
  r + ((2#32 - x) &&& -(if x &&& 2#32 = 0#32 then 1#32 else 0#32))

/-- The mask of the upper half. -/
theorem and_upperHalf {width : ℕ} {x mask : BitVec 32}
    (hmask : mask.toNat = 2 ^ width * (2 ^ width - 1)) (hx : x.toNat < 2 ^ (2 * width)) :
    x &&& mask = 0#32 ↔ x.toNat < 2 ^ width := by
  have hpos := Nat.two_pow_pos width
  have hand : (x &&& mask).toNat = 2 ^ width * (x.toNat / 2 ^ width) := by
    have hdiv : x.toNat / 2 ^ width < 2 ^ width := by
      rw [two_pow_double] at hx
      exact Nat.div_lt_of_lt_mul hx
    rw [BitVec.toNat_and, hmask, ← Nat.mod_add_div (x.toNat &&& _) (2 ^ width),
      Nat.and_mod_two_pow, Nat.and_div_two_pow, Nat.mul_mod_right, Nat.and_zero, Nat.zero_add,
      Nat.mul_div_cancel_left _ hpos, Nat.and_two_pow_sub_one_eq_mod, Nat.mod_eq_of_lt hdiv]
  rw [← BitVec.toNat_inj, hand, BitVec.toNat_zero, Nat.mul_eq_zero, or_iff_right hpos.ne',
    Nat.div_eq_zero_iff_lt hpos]

theorem toNat_one_shiftLeft {k : ℕ} (h : k ≤ 4) : (1#32 <<< k).toNat = 2 ^ k := by
  have hlt : 2 ^ k < 2 ^ 32 := Nat.pow_lt_pow_right (by decide) (by omega)
  rw [BitVec.toNat_shiftLeft, BitVec.toNat_ofNat, Nat.shiftLeft_eq, Nat.one_mod, Nat.one_mul,
    Nat.mod_eq_of_lt hlt]

theorem clzStep_eq {k : ℕ} {mask x : BitVec 32} (hk : k ≤ 4)
    (hmask : mask.toNat = 2 ^ 2 ^ k * (2 ^ 2 ^ k - 1)) (hx : x.toNat < 2 ^ (2 * 2 ^ k))
    (r : BitVec 32) : clzStep mask k x r =
      if x.toNat < 2 ^ 2 ^ k then (x, r + 1#32 <<< k) else (x >>> 2 ^ k, r) := by
  simp only [clzStep, and_upperHalf hmask hx]
  by_cases hlow : x.toNat < 2 ^ 2 ^ k
  · rw [if_pos hlow, if_pos hlow, BitVec.sub_self, BitVec.toNat_zero, BitVec.ushiftRight_zero]
  · rw [if_neg hlow, if_neg hlow, BitVec.zero_shiftLeft, BitVec.sub_zero, BitVec.add_zero,
      toNat_one_shiftLeft hk]

/-- The part `x` of a number that is left decides how many zeros follow the first `r`. -/
structure Narrowed (n width : ℕ) (x r : BitVec 32) : Prop where
  ne_zero : x ≠ 0#32
  lt : x.toNat < 2 ^ width
  room : r.toNat + width ≤ 32
  count : ∀ c, LeadingZeros width x.toNat c → LeadingZeros 32 n (r.toNat + c)

/-- The half in which the first one is stays, and the zeros before it are counted. -/
theorem clzStep_spec {n k : ℕ} {mask : BitVec 32} (hk : k ≤ 4)
    (hmask : mask.toNat = 2 ^ 2 ^ k * (2 ^ 2 ^ k - 1)) {x r : BitVec 32}
    (h : Narrowed n (2 * 2 ^ k) x r) :
    Narrowed n (2 ^ k) (clzStep mask k x r).1 (clzStep mask k x r).2 := by
  obtain ⟨hne, hlt, hroom, hcount⟩ := h
  rw [clzStep_eq hk hmask hlt]
  by_cases hlow : x.toNat < 2 ^ 2 ^ k
  · rw [if_pos hlow]
    have hr : (r + 1#32 <<< k).toNat = r.toNat + 2 ^ k := by
      rw [BitVec.toNat_add, toNat_one_shiftLeft hk, Nat.mod_eq_of_lt (by omega)]
    refine ⟨hne, hlow, by rw [hr]; omega, fun c hc => ?_⟩
    rw [hr, Nat.add_assoc]
    exact hcount _ (leadingZeros_double_low hc)
  · rw [if_neg hlow]
    have hshift : (x >>> 2 ^ k).toNat = x.toNat / 2 ^ 2 ^ k := by
      rw [BitVec.toNat_ushiftRight, Nat.shiftRight_eq_div_pow]
    have hpos : 0 < x.toNat / 2 ^ 2 ^ k := Nat.div_pos (Nat.not_lt.mp hlow) (Nat.two_pow_pos _)
    refine ⟨?_, ?_, ?_, fun c hc => ?_⟩
    · rw [ne_eq, ← BitVec.toNat_inj, hshift]
      exact hpos.ne'
    · rw [hshift]
      rw [two_pow_double] at hlt
      exact Nat.div_lt_of_lt_mul hlt
    · show r.toNat + 2 ^ k ≤ 32
      omega
    · rw [hshift] at hc
      exact hcount c (leadingZeros_double_high hc)

/-- The three numbers that two bits can hold. -/
theorem two_bits_cases {x : BitVec 32} (hne : x ≠ 0#32) (hlt : x.toNat < 2 ^ 2) :
    x = 1#32 ∨ x = 2#32 ∨ x = 3#32 := by
  rw [ne_eq, ← BitVec.toNat_inj] at hne
  rw [← BitVec.toNat_inj, ← BitVec.toNat_inj, ← BitVec.toNat_inj]
  simp only [BitVec.toNat_ofNat] at hne ⊢
  omega

/-- Of two bits the value tells whether the upper one is zero. -/
theorem clzLast {n : ℕ} {x r : BitVec 32} (h : Narrowed n 2 x r) : LeadingZeros 32 n
    (r + ((2#32 - x) &&& -(if x &&& 2#32 = 0#32 then 1#32 else 0#32))).toNat := by
  obtain ⟨hne, hlt, hroom, hcount⟩ := h
  have hadd : ∀ y : BitVec 32, y.toNat < 2 → LeadingZeros 2 x.toNat y.toNat →
      LeadingZeros 32 n (r + y).toNat := by
    intro y hy hy'
    rw [BitVec.toNat_add, Nat.mod_eq_of_lt (by omega)]
    exact hcount _ hy'
  rcases two_bits_cases hne hlt with rfl | rfl | rfl <;>
    exact hadd _ (by decide) (by decide)

/-- Five halvings and the last two bits. Zero has as many zeros as bits. -/
theorem clzsi2_eq (a : BitVec 32) : clzsi2 a = a.clz := by
  by_cases hzero : a = 0#32
  · subst hzero
    decide
  have h32 : Narrowed a.toNat (2 * 2 ^ 4) a 0#32 := by
    refine ⟨hzero, a.isLt, by decide, fun c hc => ?_⟩
    rwa [BitVec.toNat_zero, Nat.zero_add]
  have h16 := clzStep_spec (k := 4) (by decide) (show (0xffff0000#32).toNat = _ by decide) h32
  have h8 := clzStep_spec (k := 3) (by decide) (show (0xff00#32).toNat = _ by decide) h16
  have h4 := clzStep_spec (k := 2) (by decide) (show (0xf0#32).toNat = _ by decide) h8
  have h2 := clzStep_spec (k := 1) (by decide) (show (0xc#32).toNat = _ by decide) h4
  exact BitVec.eq_of_toNat_eq (leadingZeros_unique (clzLast h2) (clz_spec (by decide) hzero))

/-! ## Trailing zeros -/

/-- One of the steps of `ctzsi2`. -/
def ctzStep (mask : BitVec 32) (k : ℕ) (x r : BitVec 32) : BitVec 32 × BitVec 32 :=
  let t := (if x &&& mask = 0#32 then 1#32 else 0#32) <<< k
  (x >>> t.toNat, r + t)

def ctzsi2 (a : BitVec 32) : BitVec 32 :=
  let (x, r) := ctzStep 0xffff#32 4 a 0#32
  let (x, r) := ctzStep 0xff#32 3 x r
  let (x, r) := ctzStep 0xf#32 2 x r
  let (x, r) := ctzStep 0x3#32 1 x r
  let x := x &&& 3#32
  r + ((2#32 - (x >>> 1)) &&& -(if x &&& 1#32 = 0#32 then 1#32 else 0#32))

theorem trailingZeros_shift {n h c : ℕ} (hlow : n % 2 ^ h = 0) (hc : TrailingZeros (n / 2 ^ h) c) :
    TrailingZeros n (h + c) := by
  rw [TrailingZeros] at hc ⊢
  rw [Nat.add_assoc, Nat.pow_add, Nat.mod_mul, hlow, hc, Nat.zero_add, ← Nat.pow_add]

/-- The low part of `x`, which is not zero, decides how many zeros precede its last one. -/
structure LowPart (n width : ℕ) (x r : BitVec 32) : Prop where
  ne_zero : x.toNat % 2 ^ width ≠ 0
  room : r.toNat + width ≤ 32
  count : ∀ c, TrailingZeros x.toNat c → TrailingZeros n (r.toNat + c)

theorem and_lowHalf {width : ℕ} {x mask : BitVec 32} (hmask : mask.toNat = 2 ^ width - 1) :
    x &&& mask = 0#32 ↔ x.toNat % 2 ^ width = 0 := by
  rw [← BitVec.toNat_inj, BitVec.toNat_and, hmask, Nat.and_two_pow_sub_one_eq_mod,
    BitVec.toNat_zero]

/-- The half in which the last one is stays, and the zeros behind it are counted. -/
theorem ctzStep_spec {n k : ℕ} {mask : BitVec 32} (hk : k ≤ 4)
    (hmask : mask.toNat = 2 ^ 2 ^ k - 1) {x r : BitVec 32} (h : LowPart n (2 * 2 ^ k) x r) :
    LowPart n (2 ^ k) (ctzStep mask k x r).1 (ctzStep mask k x r).2 := by
  obtain ⟨hne, hroom, hcount⟩ := h
  simp only [ctzStep, and_lowHalf hmask]
  by_cases hlow : x.toNat % 2 ^ 2 ^ k = 0
  · rw [if_pos hlow, toNat_one_shiftLeft hk]
    have hr : (r + 1#32 <<< k).toNat = r.toNat + 2 ^ k := by
      rw [BitVec.toNat_add, toNat_one_shiftLeft hk, Nat.mod_eq_of_lt (by omega)]
    have hshift : (x >>> 2 ^ k).toNat = x.toNat / 2 ^ 2 ^ k := by
      rw [BitVec.toNat_ushiftRight, Nat.shiftRight_eq_div_pow]
    refine ⟨?_, by rw [hr]; omega, fun c hc => ?_⟩
    · rw [two_pow_double, Nat.mod_mul, hlow, Nat.zero_add, ← hshift] at hne
      exact fun hzero => hne (by rw [hzero, Nat.mul_zero])
    · rw [hshift] at hc
      rw [hr, Nat.add_assoc]
      exact hcount _ (trailingZeros_shift hlow hc)
  · rw [if_neg hlow, BitVec.zero_shiftLeft, BitVec.toNat_zero, BitVec.ushiftRight_zero,
      BitVec.add_zero]
    exact ⟨hlow, by omega, hcount⟩

theorem ctzLast {n : ℕ} {x r : BitVec 32} (h : LowPart n 2 x r) : TrailingZeros n
    (r + ((2#32 - ((x &&& 3#32) >>> 1)) &&&
      -(if x &&& 3#32 &&& 1#32 = 0#32 then 1#32 else 0#32))).toNat := by
  obtain ⟨hne, hroom, hcount⟩ := h
  have hlow : (x &&& 3#32).toNat = x.toNat % 2 ^ 2 := by
    rw [BitVec.toNat_and]
    exact Nat.and_two_pow_sub_one_eq_mod _ 2
  have hadd : ∀ y : BitVec 32, y.toNat < 2 → TrailingZeros (x &&& 3#32).toNat y.toNat →
      TrailingZeros n (r + y).toNat := by
    intro y hy hy'
    rw [TrailingZeros, hlow, Nat.mod_mod_of_dvd _ (Nat.pow_dvd_pow 2 (by omega))] at hy'
    rw [BitVec.toNat_add, Nat.mod_eq_of_lt (by omega)]
    exact hcount _ hy'
  have hne' : x &&& 3#32 ≠ 0#32 := by
    rw [ne_eq, ← BitVec.toNat_inj, hlow]
    exact hne
  rcases two_bits_cases hne' (by omega) with heq | heq | heq <;> rw [heq] at hadd ⊢ <;>
    exact hadd _ (by decide) (by decide)

/-- The same from the other end, also for zero. -/
theorem ctzsi2_eq (a : BitVec 32) : ctzsi2 a = a.ctz := by
  by_cases hzero : a = 0#32
  · subst hzero
    decide +kernel
  have h32 : LowPart a.toNat (2 * 2 ^ 4) a 0#32 := by
    refine ⟨?_, by decide, fun c hc => ?_⟩
    · have hmod : a.toNat % 2 ^ (2 * 2 ^ 4) = a.toNat := Nat.mod_eq_of_lt a.isLt
      rw [hmod]
      exact fun h => hzero (BitVec.eq_of_toNat_eq h)
    · rwa [BitVec.toNat_zero, Nat.zero_add]
  have h16 := ctzStep_spec (k := 4) (by decide) (show (0xffff#32).toNat = _ by decide) h32
  have h8 := ctzStep_spec (k := 3) (by decide) (show (0xff#32).toNat = _ by decide) h16
  have h4 := ctzStep_spec (k := 2) (by decide) (show (0xf#32).toNat = _ by decide) h8
  have h2 := ctzStep_spec (k := 1) (by decide) (show (0x3#32).toNat = _ by decide) h4
  exact BitVec.eq_of_toNat_eq (trailingZeros_unique (ctzLast h2) (ctz_spec hzero))

/-! ## Double words -/

section DoubleWords

variable (e : Endianness) (a : BitVec 64)

def clzdi2 : BitVec 32 :=
  let f := -(if high e a = 0#32 then 1#32 else 0#32)
  BitVec.ofNat 32 (builtinClz ((high e a &&& ~~~f) ||| (low e a &&& f))) + (f &&& 32#32)

def ctzdi2 : BitVec 32 :=
  let f := -(if low e a = 0#32 then 1#32 else 0#32)
  BitVec.ofNat 32 (builtinCtz ((high e a &&& f) ||| (low e a &&& ~~~f))) + (f &&& 32#32)

def ffsdi2 : BitVec 32 :=
  if low e a = 0#32 then
    if high e a = 0#32 then 0#32 else BitVec.ofNat 32 (builtinCtz (high e a)) + (1#32 + 32#32)
  else BitVec.ofNat 32 (builtinCtz (low e a)) + 1#32

/-- The mask that `f` is for a condition. -/
theorem neg_ite (c : Prop) [Decidable c] :
    -(if c then 1#32 else 0#32) = if c then BitVec.allOnes 32 else 0#32 := by
  split <;> decide

theorem toNat_ofNat_add {c d : ℕ} (h : c + d < 2 ^ 32) :
    (BitVec.ofNat 32 c + BitVec.ofNat 32 d).toNat = c + d := by
  rw [← BitVec.ofNat_add, BitVec.toNat_ofNat, Nat.mod_eq_of_lt h]

variable {a}

theorem high_or_low_ne_zero (h : a ≠ 0#64) : high e a ≠ 0#32 ∨ low e a ≠ 0#32 := by
  by_contra hboth
  obtain ⟨hhigh, hlow⟩ := not_or.mp hboth
  rw [← dwords_high_low e a, not_not.mp hhigh, not_not.mp hlow] at h
  cases e <;> exact h (by decide)

theorem inOrder_ne_zero (h : a ≠ 0#64) : inOrder e a ≠ 0#64 := by
  intro hzero
  rw [← inOrder_inOrder e a, hzero] at h
  cases e <;> exact h (by decide)

theorem clzdi2_big (h : a ≠ 0#64) : LeadingZeros 64 a.toNat (clzdi2 .big a).toNat := by
  simp only [clzdi2, neg_ite]
  by_cases hhigh : high .big a = 0#32
  · have hclz := leadingZeros_low hhigh ((high_or_low_ne_zero .big h).resolve_left
      (not_not_intro hhigh))
    rw [if_pos hhigh, BitVec.not_allOnes, BitVec.and_zero, BitVec.zero_or, BitVec.and_allOnes,
      BitVec.allOnes_and, toNat_ofNat_add (by have hlt := hclz.1; omega), Nat.add_comm]
    exact hclz
  · have hclz := leadingZeros_high hhigh
    rw [if_neg hhigh, BitVec.not_zero, BitVec.and_allOnes, BitVec.and_zero, BitVec.or_zero,
      BitVec.zero_and, toNat_ofNat_add (by have hlt := hclz.1; omega)]
    exact hclz

theorem trailingZeros_lt {n c w : ℕ} (h : TrailingZeros n c) (hn : n < 2 ^ w) : c < w := by
  rw [TrailingZeros] at h
  have hle := Nat.mod_le n (2 ^ (c + 1))
  exact (Nat.pow_lt_pow_iff_right (by decide)).mp (by omega : 2 ^ c < 2 ^ w)

/-- The last one of a double word is in the lower word if that has any. -/
theorem trailingZeros_low (h : low .big a ≠ 0#32) :
    builtinCtz (low .big a) < 32 ∧ TrailingZeros a.toNat (builtinCtz (low .big a)) := by
  have hctz := builtinCtz_spec h
  have hlt := trailingZeros_lt hctz (low .big a).isLt
  refine ⟨hlt, ?_⟩
  rwa [TrailingZeros, toNat_low, Nat.mod_mod_of_dvd _ (Nat.pow_dvd_pow 2 hlt)] at hctz

theorem trailingZeros_high (hlow : low .big a = 0#32) (hhigh : high .big a ≠ 0#32) :
    builtinCtz (high .big a) < 32 ∧ TrailingZeros a.toNat (32 + builtinCtz (high .big a)) := by
  have hctz := builtinCtz_spec hhigh
  refine ⟨trailingZeros_lt hctz (high .big a).isLt, trailingZeros_shift ?_ ?_⟩
  · rw [← toNat_low, hlow, BitVec.toNat_zero]
  · rwa [← toNat_high]

theorem ctzdi2_big (h : a ≠ 0#64) : TrailingZeros a.toNat (ctzdi2 .big a).toNat := by
  simp only [ctzdi2, neg_ite]
  by_cases hlow : low .big a = 0#32
  · obtain ⟨hlt, hctz⟩ := trailingZeros_high hlow ((high_or_low_ne_zero .big h).resolve_right
      (not_not_intro hlow))
    rw [if_pos hlow, BitVec.not_allOnes, BitVec.and_zero, BitVec.or_zero, BitVec.and_allOnes,
      BitVec.allOnes_and, toNat_ofNat_add (by omega), Nat.add_comm]
    exact hctz
  · obtain ⟨hlt, hctz⟩ := trailingZeros_low hlow
    rw [if_neg hlow, BitVec.not_zero, BitVec.and_allOnes, BitVec.and_zero, BitVec.zero_or,
      BitVec.zero_and, toNat_ofNat_add (by omega)]
    exact hctz

theorem ffsdi2_big (h : a ≠ 0#64) :
    ∃ c, TrailingZeros a.toNat c ∧ (ffsdi2 .big a).toNat = c + 1 := by
  rw [ffsdi2]
  by_cases hlow : low .big a = 0#32
  · have hhigh := (high_or_low_ne_zero .big h).resolve_right (not_not_intro hlow)
    obtain ⟨hlt, hctz⟩ := trailingZeros_high hlow hhigh
    refine ⟨_, hctz, ?_⟩
    rw [if_pos hlow, if_neg hhigh]
    exact (toNat_ofNat_add (d := 33) (by omega)).trans (by omega)
  · obtain ⟨hlt, hctz⟩ := trailingZeros_low hlow
    refine ⟨_, hctz, ?_⟩
    rw [if_neg hlow]
    exact toNat_ofNat_add (d := 1) (by omega)

/-- The zeros of the upper word, or all of them and those of the lower one. -/
theorem clzdi2_eq (h : a ≠ 0#64) : (clzdi2 e a).toNat = (inOrder e a).clz.toNat := by
  have hbig : clzdi2 e a = clzdi2 .big (inOrder e a) := by
    rw [clzdi2, clzdi2, high_eq e, low_eq e]
  rw [hbig]
  have hne := inOrder_ne_zero e h
  exact leadingZeros_unique (clzdi2_big hne) (clz_spec (by decide) hne)

/-- The zeros of the lower word, or all of them and those of the upper one. -/
theorem ctzdi2_eq (h : a ≠ 0#64) : (ctzdi2 e a).toNat = (inOrder e a).ctz.toNat := by
  have hbig : ctzdi2 e a = ctzdi2 .big (inOrder e a) := by
    rw [ctzdi2, ctzdi2, high_eq e, low_eq e]
  rw [hbig]
  have hne := inOrder_ne_zero e h
  exact trailingZeros_unique (ctzdi2_big hne) (ctz_spec hne)

/-- The position of the last one counts from one. -/
theorem ffsdi2_eq (a : BitVec 64) : (ffsdi2 e a).toNat =
    if a = 0#64 then 0 else (inOrder e a).ctz.toNat + 1 := by
  by_cases hzero : a = 0#64
  · subst hzero
    cases e <;> decide
  have hbig : ffsdi2 e a = ffsdi2 .big (inOrder e a) := by
    rw [ffsdi2, ffsdi2, high_eq e, low_eq e]
  have hne := inOrder_ne_zero e hzero
  obtain ⟨c, hc, heq⟩ := ffsdi2_big hne
  rw [if_neg hzero, hbig, heq, trailingZeros_unique hc (ctz_spec hne)]

end DoubleWords

end Cpu0Toolchain.CompilerRt
