import Cpu0Toolchain.CompilerRt.IntLib
import Cpu0Toolchain.Library.ShiftSubtract

/-!
# Integer division

`udivsi3.c` and `udivmoddi4.c`, which divide by shifting and subtracting, and the routines over
them: remainders, signed division, and the ones that give both results. Negation and the product
that a remainder takes off are taken to wrap around, where C leaves signed overflow undefined.

## Main results

- `udivsi3_eq`: the quotient, which is 0 for the divisor 0.
- `udivmoddi4_eq`: on a big-endian target both results, whichever of the special cases it is.
- `divsi3_eq`, `divdi3_eq`, `moddi3_eq`: the signed ones round toward zero.
-/

namespace Cpu0Toolchain.CompilerRt
open EndianWord ShiftSubtract SignWord

/-! ## Words -/

/-- `__builtin_clz(d) - __builtin_clz(n)`, an unsigned number. -/
def clzDifference (d n : BitVec 32) : BitVec 32 :=
  BitVec.ofNat 32 (builtinClz d) - BitVec.ofNat 32 (builtinClz n)

/-- `__udivsi3`. The loop and what follows it are those of `ShiftSubtract`. -/
def udivsi3 (n d : BitVec 32) : BitVec 32 :=
  if d = 0#32 then 0#32
  else if n = 0#32 then 0#32
  else
    let sr := clzDifference d n
    -- 0 <= sr <= n_uword_bits - 1 or sr large
    if sr > 31#32 then 0#32
    else if sr = 31#32 then n
    else
      let sr := (sr + 1#32).toNat
      let q := n <<< (32 - sr)
      let r := n >>> sr
      let s := run d sr ⟨r, q, 0#32⟩
      (s.q <<< 1) ||| s.carry

def umodsi3 (a b : BitVec 32) : BitVec 32 := a - udivsi3 a b * b

/-- `__udivmodsi4`, with what it stores. -/
def udivmodsi4 (a b : BitVec 32) : BitVec 32 × BitVec 32 :=
  let d := udivsi3 a b
  (d, a - d * b)

/-- `__divsi3`. Where there is no instruction for it, the quotient of the absolute values is that
of `__udivsi3`, and only there is the divisor 0 one that C does not leave undefined. -/
def divsi3 (a b : BitVec 32) : BitVec 32 :=
  let sA := a.sshiftRight 31
  let sB := b.sshiftRight 31
  let a := (a ^^^ sA) - sA
  let b := (b ^^^ sB) - sB
  let sA := sA ^^^ sB
  (udivsi3 a b ^^^ sA) - sA

def modsi3 (a b : BitVec 32) : BitVec 32 := a - divsi3 a b * b

/-- `__divmodsi4`, with what it stores. -/
def divmodsi4 (a b : BitVec 32) : BitVec 32 × BitVec 32 :=
  let d := divsi3 a b
  (d, a - d * b)

/-! ## Double words -/

/-- `r`, `q` and `carry` of `__udivmoddi4`. -/
structure UdivmodState where
  r : BitVec 64
  q : BitVec 64
  carry : BitVec 32

section Udivmoddi4

variable (e : Endianness)

/-- One iteration of its loop. -/
def udivmodStep (d : BitVec 64) (s : UdivmodState) : UdivmodState :=
  let rHigh := (high e s.r <<< 1) ||| (low e s.r >>> 31)
  let rLow := (low e s.r <<< 1) ||| (high e s.q >>> 31)
  let qHigh := (high e s.q <<< 1) ||| (low e s.q >>> 31)
  let qLow := (low e s.q <<< 1) ||| s.carry
  let r := dwords e rHigh rLow
  let q := dwords e qHigh qLow
  let mask := (d - r - 1#64).sshiftRight 63
  ⟨r - (d &&& mask), q, (mask &&& 1#64).setWidth 32⟩

def udivmodLoop (d : BitVec 64) : ℕ → UdivmodState → UdivmodState
  | 0, s => s
  | sr + 1, s => udivmodLoop d sr (udivmodStep e d s)

/-- From the loop to the end. -/
def udivmodFinish (d : BitVec 64) (sr : ℕ) (q r : BitVec 64) : BitVec 64 × BitVec 64 :=
  let s := udivmodLoop e d sr ⟨r, q, 0#32⟩
  ((s.q <<< 1) ||| s.carry.setWidth 64, s.r)

/-- `__udivmoddi4`, with what it stores where `rem` is not null. -/
def udivmoddi4 (a b : BitVec 64) : BitVec 64 × BitVec 64 :=
  let nHigh := high e a
  let nLow := low e a
  let dHigh := high e b
  let dLow := low e b
  if nHigh = 0#32 then
    -- 0 X / 0 X
    if dHigh = 0#32 then ((nLow / dLow).setWidth 64, (nLow % dLow).setWidth 64)
    -- 0 X / K X
    else (0#64, nLow.setWidth 64)
  else if dLow = 0#32 then
    -- K X / 0 0
    if dHigh = 0#32 then ((nHigh / dLow).setWidth 64, (nHigh % dLow).setWidth 64)
    -- K 0 / K 0
    else if nLow = 0#32 then ((nHigh / dHigh).setWidth 64, dwords e (nHigh % dHigh) 0#32)
    -- K K / K 0, a power of 2
    else if dHigh &&& (dHigh - 1#32) = 0#32 then
      ((nHigh >>> builtinCtz dHigh).setWidth 64, dwords e (nHigh &&& (dHigh - 1#32)) nLow)
    -- K K / K 0
    else
      let sr := clzDifference dHigh nHigh
      if sr > 30#32 then (0#64, a)
      else
        let sr := (sr + 1#32).toNat
        udivmodFinish e b sr (dwords e (nLow <<< (32 - sr)) 0#32)
          (dwords e (nHigh >>> sr) ((nHigh <<< (32 - sr)) ||| (nLow >>> sr)))
  else if dHigh = 0#32 then
    -- K X / 0 K, a power of 2
    if dLow &&& (dLow - 1#32) = 0#32 then
      let rem := (nLow &&& (dLow - 1#32)).setWidth 64
      if dLow = 1#32 then (a, rem)
      else
        let sr := builtinCtz dLow
        (dwords e (nHigh >>> sr) ((nHigh <<< (32 - sr)) ||| (nLow >>> sr)), rem)
    -- K X / 0 K
    else
      let sr := (1#32 + 32#32 + clzDifference dLow nHigh).toNat
      if sr = 32 then
        udivmodFinish e b sr (dwords e nLow 0#32) (dwords e 0#32 nHigh)
      else if sr < 32 then
        udivmodFinish e b sr (dwords e (nLow <<< (32 - sr)) 0#32)
          (dwords e (nHigh >>> sr) ((nHigh <<< (32 - sr)) ||| (nLow >>> sr)))
      else
        udivmodFinish e b sr
          (dwords e ((nHigh <<< (64 - sr)) ||| (nLow >>> (sr - 32))) (nLow <<< (64 - sr)))
          (dwords e 0#32 (nHigh >>> (sr - 32)))
  -- K X / K K
  else
    let sr := clzDifference dHigh nHigh
    if sr > 31#32 then (0#64, a)
    else
      let sr := (sr + 1#32).toNat
      if sr = 32 then udivmodFinish e b sr (dwords e nLow 0#32) (dwords e 0#32 nHigh)
      else
        udivmodFinish e b sr (dwords e (nLow <<< (32 - sr)) 0#32)
          (dwords e (nHigh >>> sr) ((nHigh <<< (32 - sr)) ||| (nLow >>> sr)))

def udivdi3 (a b : BitVec 64) : BitVec 64 := (udivmoddi4 e a b).1

def umoddi3 (a b : BitVec 64) : BitVec 64 := (udivmoddi4 e a b).2

def divdi3 (a b : BitVec 64) : BitVec 64 :=
  let sA := a.sshiftRight 63
  let sB := b.sshiftRight 63
  let a := (a ^^^ sA) - sA
  let b := (b ^^^ sB) - sB
  let sA := sA ^^^ sB
  ((udivmoddi4 e a b).1 ^^^ sA) - sA

def moddi3 (a b : BitVec 64) : BitVec 64 :=
  let s := b.sshiftRight 63
  let b := (b ^^^ s) - s
  let s := a.sshiftRight 63
  let a := (a ^^^ s) - s
  let r := (udivmoddi4 e a b).2
  (r ^^^ s) - s

/-- `__divmoddi4`, with what it stores. -/
def divmoddi4 (a b : BitVec 64) : BitVec 64 × BitVec 64 :=
  let d := divdi3 e a b
  (d, a - d * b)

end Udivmoddi4

/-! ## The alignment -/

theorem builtinClz_lt {a : BitVec 32} (h : a ≠ 0#32) : builtinClz a < 32 := (builtinClz_spec h).1

/-- Shifted by the difference of the leading zeros and one more, the dividend is below the
divisor. -/
theorem aligned {w n d cn cd : ℕ} (hn : LeadingZeros w n cn) (hd : LeadingZeros w d cd)
    (hle : cn ≤ cd) : n / 2 ^ (cd - cn + 1) < d := by
  refine Nat.lt_of_lt_of_le (Nat.div_lt_of_lt_mul ?_) hd.2.1
  refine Nat.lt_of_lt_of_le hn.2.2 ?_
  rw [← Nat.pow_add]
  have := hd.1
  exact Nat.pow_le_pow_right (by decide) (by omega)

/-- A divisor with the sign bit is aligned with a dividend that has it too. -/
theorem aligned_sign {w n d cn cd : ℕ} (hn : LeadingZeros w n cn) (hd : LeadingZeros w d cd)
    (hle : cn ≤ cd) : d ≤ 2 ^ (w - 1) ∨ (cd - cn + 1 = 1 ∧ 2 ^ (w - 1) ≤ n) := by
  rcases Nat.eq_zero_or_pos cd with rfl | hpos
  · obtain rfl : cn = 0 := by omega
    exact .inr ⟨rfl, hn.2.1⟩
  · refine .inl (Nat.le_of_lt (Nat.lt_of_lt_of_le hd.2.2 ?_))
    exact Nat.pow_le_pow_right (by decide) (by omega)

/-- With more zeros the dividend is the smaller one. -/
theorem lt_of_leadingZeros {w n d cn cd : ℕ} (hn : LeadingZeros w n cn)
    (hd : LeadingZeros w d cd) (hlt : cd < cn) : n < d := by
  refine Nat.lt_of_lt_of_le hn.2.2 (Nat.le_trans ?_ hd.2.1)
  have := hn.1
  exact Nat.pow_le_pow_right (by decide) (by omega)

theorem gt_ofNat_iff {x : BitVec 32} {c : ℕ} (hc : c < 2 ^ 32) :
    x > BitVec.ofNat 32 c ↔ c < x.toNat := by
  rw [gt_iff_lt, BitVec.lt_def, BitVec.toNat_ofNat, Nat.mod_eq_of_lt hc]

/-- The difference as an unsigned number. -/
theorem toNat_clzDifference {d n : BitVec 32} (hd : d ≠ 0#32) (hn : n ≠ 0#32) :
    (builtinClz n ≤ builtinClz d ∧
      (clzDifference d n).toNat = builtinClz d - builtinClz n) ∨
    (builtinClz d < builtinClz n ∧ 31 < (clzDifference d n).toNat) := by
  have h1 := builtinClz_lt hd
  have h2 := builtinClz_lt hn
  rw [clzDifference, BitVec.toNat_sub, BitVec.toNat_ofNat, BitVec.toNat_ofNat]
  omega

/-- One more is the shift amount. -/
theorem toNat_clzDifference_succ {d n : BitVec 32} (hd : d ≠ 0#32)
    (hsr : (clzDifference d n).toNat = builtinClz d - builtinClz n) :
    (clzDifference d n + 1#32).toNat = builtinClz d - builtinClz n + 1 := by
  have hlt := builtinClz_lt hd
  rw [BitVec.toNat_add, hsr, BitVec.toNat_ofNat]
  omega

/-- The shift amount for a divisor that is one word longer. -/
theorem toNat_clzDifference_wide {d n : BitVec 32} (hd : d ≠ 0#32) (hn : n ≠ 0#32) :
    (1#32 + 32#32 + clzDifference d n).toNat = 32 + builtinClz d - builtinClz n + 1 := by
  have hlt := builtinClz_lt hd
  have hlt' := builtinClz_lt hn
  rw [clzDifference, BitVec.toNat_add, BitVec.toNat_sub, BitVec.toNat_ofNat, BitVec.toNat_ofNat]
  simp
  omega

/-- Only one has all zeros but the last. -/
theorem eq_one_of_clz {d : BitVec 32} (hd : d ≠ 0#32) (h : builtinClz d = 31) : d = 1#32 := by
  obtain ⟨-, hlow, hhigh⟩ := builtinClz_spec hd
  rw [h] at hlow hhigh
  exact BitVec.eq_of_toNat_eq (Nat.le_antisymm (Nat.le_of_lt_succ hhigh) hlow)

/-- One is a power of two. -/
theorem clz_le_of_not_powerOfTwo {d : BitVec 32} (hd : d ≠ 0#32)
    (hpow : d &&& (d - 1#32) ≠ 0#32) : builtinClz d ≤ 30 := by
  by_contra hlarge
  have hlt := builtinClz_lt hd
  rw [eq_one_of_clz hd (by omega)] at hpow
  exact hpow rfl

/-! ## Words -/

/-- The quotient, which is 0 for the divisor 0. -/
theorem udivsi3_eq (n d : BitVec 32) : udivsi3 n d = n / d := by
  rw [udivsi3]
  by_cases hd : d = 0#32
  · rw [if_pos hd, hd, BitVec.udiv_zero]
  rw [if_neg hd]
  by_cases hn : n = 0#32
  · rw [if_pos hn, hn, BitVec.zero_udiv]
  rw [if_neg hn]
  have hdn := builtinClz_spec hd
  have hnn := builtinClz_spec hn
  rcases toNat_clzDifference hd hn with ⟨hle, hsr⟩ | ⟨hlt, hsr⟩
  · have hd32 := builtinClz_lt hd
    rw [if_neg ((gt_ofNat_iff (by decide)).not.mpr (by omega))]
    by_cases hlast : clzDifference d n = 31#32
    · -- the divisor is one
      rw [if_pos hlast]
      rw [hlast, BitVec.toNat_ofNat] at hsr
      obtain rfl : d = 1#32 := eq_one_of_clz hd (by omega)
      exact BitVec.udiv_one.symm
    · rw [if_neg hlast]
      have hne : builtinClz d - builtinClz n ≠ 31 := by
        rw [← hsr]
        exact fun h => hlast (BitVec.eq_of_toNat_eq h)
      rw [toNat_clzDifference_succ hd hsr]
      exact (divide (by omega) (by omega) (aligned hnn hdn hle) (aligned_sign hnn hdn hle)).1
  · rw [if_pos ((gt_ofNat_iff (by decide)).mpr hsr)]
    apply BitVec.eq_of_toNat_eq
    rw [BitVec.toNat_udiv, Nat.div_eq_of_lt (lt_of_leadingZeros hnn hdn hlt)]
    rfl

theorem umodsi3_eq (a b : BitVec 32) : umodsi3 a b = a % b := by
  rw [umodsi3, udivsi3_eq, sub_udiv_mul]

theorem udivmodsi4_eq (a b : BitVec 32) : udivmodsi4 a b = (a / b, a % b) := by
  rw [udivmodsi4, udivsi3_eq, sub_udiv_mul]

/-- The least number divided by -1 is itself. -/
theorem divsi3_eq (a b : BitVec 32) : divsi3 a b = a.sdiv b := by
  change (udivsi3 ((a ^^^ signWord a) - signWord a) ((b ^^^ signWord b) - signWord b)
    ^^^ (signWord a ^^^ signWord b)) - (signWord a ^^^ signWord b) = _
  rw [xor_sub_signWord, xor_sub_signWord, udivsi3_eq, xor_sub_udiv_abs]

theorem modsi3_eq (a b : BitVec 32) : modsi3 a b = a.srem b := by
  rw [modsi3, divsi3_eq, sub_sdiv_mul]

theorem divmodsi4_eq (a b : BitVec 32) : divmodsi4 a b = (a.sdiv b, a.srem b) := by
  rw [divmodsi4, divsi3_eq, sub_sdiv_mul]

/-! ## Double words -/

/-- The registers of the loop, with the carry as wide as they are. -/
def UdivmodState.registers (s : UdivmodState) : Registers 64 := ⟨s.r, s.q, s.carry.setWidth 64⟩

/-- A shift of both words by one bit, with a bit that comes in. -/
theorem dwords_shiftIn (x : BitVec 64) (b : BitVec 32) :
    dwords .big ((high .big x <<< 1) ||| (low .big x >>> 31)) ((low .big x <<< 1) ||| b) =
      (x <<< 1) ||| b.setWidth 64 := by
  have hshift := append_shiftLeft (upperWord x) (lowerWord x) (k := 1) (by decide)
  rw [append_words] at hshift
  have hwide : b.setWidth 64 = 0#32 ++ b := BitVec.setWidth_eq_append (by decide)
  rw [← hshift, hwide, BitVec.or_append, BitVec.or_zero]
  rfl

theorem setWidth_topBit (x : BitVec 64) : (high .big x >>> 31).setWidth 64 = x >>> 63 := by
  apply BitVec.eq_of_toNat_eq
  rw [BitVec.toNat_setWidth_of_le (by decide), BitVec.toNat_ushiftRight, toNat_high,
    BitVec.toNat_ushiftRight, Nat.shiftRight_eq_div_pow, Nat.shiftRight_eq_div_pow]
  omega

theorem registers_udivmodStep (d : BitVec 64) (s : UdivmodState) :
    (udivmodStep .big d s).registers = step d s.registers := by
  have hcarry : ∀ mask : BitVec 64, ((mask &&& 1#64).setWidth 32).setWidth 64 = mask &&& 1#64 := by
    intro mask
    apply BitVec.eq_of_toNat_eq
    have hbit : (mask &&& 1#64).toNat ≤ 1 := by
      rw [BitVec.toNat_and]
      exact Nat.and_le_right
    rw [BitVec.toNat_setWidth, BitVec.toNat_setWidth]
    omega
  rw [udivmodStep, UdivmodState.registers, step, UdivmodState.registers]
  dsimp only
  rw [dwords_shiftIn, dwords_shiftIn, setWidth_topBit, hcarry]

theorem registers_udivmodLoop (d : BitVec 64) (sr : ℕ) (s : UdivmodState) :
    (udivmodLoop .big d sr s).registers = run d sr s.registers := by
  induction sr generalizing s with
  | zero => rfl
  | succ sr ih => rw [udivmodLoop, run, ih, registers_udivmodStep]

/-- The loop divides, once the divisor is aligned. -/
theorem udivmodFinish_eq {a b : BitVec 64} {sr : ℕ} (hsr : 1 ≤ sr) (hsr' : sr ≤ 64)
    (hlt : a.toNat / 2 ^ sr < b.toNat)
    (hbig : b.toNat ≤ 2 ^ 63 ∨ (sr = 1 ∧ 2 ^ 63 ≤ a.toNat)) :
    udivmodFinish .big b sr (a <<< (64 - sr)) (a >>> sr) = (a / b, a % b) := by
  have hrun := registers_udivmodLoop b sr ⟨a >>> sr, a <<< (64 - sr), 0#32⟩
  obtain ⟨hq, hr⟩ := divide hsr hsr' hlt hbig
  change _ = run b sr ⟨a >>> sr, a <<< (64 - sr), 0#64⟩ at hrun
  rw [← hrun] at hq hr
  exact Prod.ext hq hr

section Words

variable {a b : BitVec 64}

/-- The dividend moved into the registers, word by word. -/
theorem start_small {k : ℕ} (hk : 1 ≤ k) (hk' : k < 32) :
    dwords .big (low .big a <<< (32 - k)) 0#32 = a <<< (64 - k) ∧
      dwords .big (high .big a >>> k) ((high .big a <<< (32 - k)) ||| (low .big a >>> k)) =
        a >>> k := by
  have hleft := append_shiftLeft_ge (upperWord a) (lowerWord a) (k := 64 - k) (by omega) (by omega)
  have hright := append_shiftRight (upperWord a) (lowerWord a) hk'
  rw [append_words, show 64 - k - 32 = 32 - k by omega] at hleft
  rw [append_words] at hright
  exact ⟨hleft, hright⟩

theorem start_word : dwords .big (low .big a) 0#32 = a <<< (64 - 32) ∧
    dwords .big 0#32 (high .big a) = a >>> 32 := by
  have hleft := append_shiftLeft_ge (upperWord a) (lowerWord a) (k := 32) le_rfl (by decide)
  have hright := append_shiftRight_ge (upperWord a) (lowerWord a) (k := 32) le_rfl
  rw [append_words] at hleft hright
  rw [Nat.sub_self, BitVec.shiftLeft_zero] at hleft
  rw [Nat.sub_self, BitVec.ushiftRight_zero] at hright
  exact ⟨hleft, hright⟩

theorem start_large {k : ℕ} (hk : 32 < k) (hk' : k ≤ 64) :
    dwords .big ((high .big a <<< (64 - k)) ||| (low .big a >>> (k - 32)))
        (low .big a <<< (64 - k)) = a <<< (64 - k) ∧
      dwords .big 0#32 (high .big a >>> (k - 32)) = a >>> k := by
  have hleft := append_shiftLeft (upperWord a) (lowerWord a) (k := 64 - k) (by omega)
  have hright := append_shiftRight_ge (upperWord a) (lowerWord a) (k := k) hk.le
  rw [append_words, show 32 - (64 - k) = k - 32 by omega] at hleft
  rw [append_words] at hright
  exact ⟨hleft, hright⟩

/-- The division by a divisor without a low word. -/
theorem div_high (h : low .big b = 0#32) :
    a / b = (high .big a / high .big b).setWidth 64 ∧
      a % b = dwords .big (high .big a % high .big b) (low .big a) := by
  have hb : b.toNat = 2 ^ 32 * (high .big b).toNat := by
    rw [toNat_high_low b, h, Nat.mul_comm]
    rfl
  constructor
  · apply BitVec.eq_of_toNat_eq
    rw [BitVec.toNat_udiv, hb, ← Nat.div_div_eq_div_mul, ← toNat_high,
      BitVec.toNat_setWidth_of_le (by decide), BitVec.toNat_udiv]
  · apply BitVec.eq_of_toNat_eq
    rw [BitVec.toNat_umod, hb, Nat.mod_mul, ← toNat_high, ← toNat_low, toNat_dwords,
      BitVec.toNat_umod, Nat.mul_comm, Nat.add_comm]

theorem eq_low (h : high .big b = 0#32) : b = (low .big b).setWidth 64 := by
  apply BitVec.eq_of_toNat_eq
  rw [BitVec.toNat_setWidth_of_le (by decide), toNat_high_low b, h]
  simp

/-- A word that is a power of two. -/
theorem toNat_powerOfTwo {x : BitVec 32} (h : x ≠ 0#32) (hand : x &&& (x - 1#32) = 0#32) :
    x.toNat = 2 ^ builtinCtz x ∧ builtinCtz x < 32 := by
  have hpos : 0 < x.toNat := Nat.pos_of_ne_zero fun hzero => h (BitVec.eq_of_toNat_eq hzero)
  have hone : (x - 1#32).toNat = x.toNat - 1 := BitVec.toNat_sub_of_le hpos
  have hnat := congrArg BitVec.toNat hand
  rw [BitVec.toNat_and, hone] at hnat
  have heq := and_sub_one_eq_zero (builtinCtz_spec h) hnat
  refine ⟨heq, ?_⟩
  have hlt := x.isLt
  rw [heq] at hlt
  exact (Nat.pow_lt_pow_iff_right (by decide)).mp hlt

theorem udiv_powerOfTwo {x : BitVec 32} (n : BitVec 32) (h : x ≠ 0#32)
    (hand : x &&& (x - 1#32) = 0#32) :
    n >>> builtinCtz x = n / x ∧ n &&& (x - 1#32) = n % x := by
  have hpow := (toNat_powerOfTwo h hand).1
  have hone : (x - 1#32).toNat = x.toNat - 1 :=
    BitVec.toNat_sub_of_le (hpow ▸ Nat.two_pow_pos _ : 0 < x.toNat)
  constructor
  · apply BitVec.eq_of_toNat_eq
    rw [BitVec.toNat_ushiftRight, Nat.shiftRight_eq_div_pow, BitVec.toNat_udiv, hpow]
  · apply BitVec.eq_of_toNat_eq
    rw [BitVec.toNat_and, hone, BitVec.toNat_umod, hpow, Nat.and_two_pow_sub_one_eq_mod]

/-- The same for a dividend with a high word. -/
theorem udiv_powerOfTwo_wide (hb : high .big b = 0#32) (h : low .big b ≠ 0#32)
    (hand : low .big b &&& (low .big b - 1#32) = 0#32) :
    a >>> builtinCtz (low .big b) = a / b ∧
      (low .big a &&& (low .big b - 1#32)).setWidth 64 = a % b := by
  obtain ⟨hpow, ht⟩ := toNat_powerOfTwo h hand
  have hbnat : b.toNat = 2 ^ builtinCtz (low .big b) := by
    rw [← hpow, toNat_high_low b, hb]
    simp
  constructor
  · apply BitVec.eq_of_toNat_eq
    rw [BitVec.toNat_ushiftRight, Nat.shiftRight_eq_div_pow, BitVec.toNat_udiv, hbnat]
  · apply BitVec.eq_of_toNat_eq
    have hdvd : 2 ^ builtinCtz (low .big b) ∣ 2 ^ 32 := Nat.pow_dvd_pow 2 ht.le
    rw [(udiv_powerOfTwo _ h hand).2, BitVec.toNat_setWidth_of_le (by decide), BitVec.toNat_umod,
      BitVec.toNat_umod, hpow, hbnat, toNat_low, Nat.mod_mod_of_dvd _ hdvd]

theorem udivmod_of_lt (h : a.toNat < b.toNat) : (0#64, a) = (a / b, a % b) := by
  refine Prod.ext ?_ ?_
  · apply BitVec.eq_of_toNat_eq
    rw [BitVec.toNat_udiv, Nat.div_eq_of_lt h]
    rfl
  · apply BitVec.eq_of_toNat_eq
    rw [BitVec.toNat_umod, Nat.mod_eq_of_lt h]

section Aligned

variable {cn cd sr : ℕ} (hn : LeadingZeros 64 a.toNat cn) (hd : LeadingZeros 64 b.toNat cd)
include hn hd

theorem udivmod_less (hlt : cd < cn) : (0#64, a) = (a / b, a % b) :=
  udivmod_of_lt (lt_of_leadingZeros hn hd hlt)

theorem udivmod_aligned (hle : cn ≤ cd) (hsr : sr = cd - cn + 1) :
    udivmodFinish .big b sr (a <<< (64 - sr)) (a >>> sr) = (a / b, a % b) := by
  have hlt := hd.1
  rw [hsr]
  exact udivmodFinish_eq (Nat.le_add_left _ _) (by omega) (aligned hn hd hle)
    (aligned_sign hn hd hle)

theorem udivmod_small (hle : cn ≤ cd) (hsr : sr = cd - cn + 1) (h : sr < 32) :
    udivmodFinish .big b sr (dwords .big (low .big a <<< (32 - sr)) 0#32)
      (dwords .big (high .big a >>> sr) ((high .big a <<< (32 - sr)) ||| (low .big a >>> sr))) =
        (a / b, a % b) := by
  obtain ⟨hq, hr⟩ := start_small (a := a) (k := sr) (by omega) h
  rw [hq, hr]
  exact udivmod_aligned hn hd hle hsr

theorem udivmod_word (hle : cn ≤ cd) (hsr : sr = cd - cn + 1) (h : sr = 32) :
    udivmodFinish .big b sr (dwords .big (low .big a) 0#32) (dwords .big 0#32 (high .big a)) =
      (a / b, a % b) := by
  rw [start_word.1, start_word.2, ← h]
  exact udivmod_aligned hn hd hle hsr

theorem udivmod_large (hle : cn ≤ cd) (hsr : sr = cd - cn + 1) (h : 32 < sr) :
    udivmodFinish .big b sr
      (dwords .big ((high .big a <<< (64 - sr)) ||| (low .big a >>> (sr - 32)))
        (low .big a <<< (64 - sr))) (dwords .big 0#32 (high .big a >>> (sr - 32))) =
          (a / b, a % b) := by
  have hlt := hd.1
  obtain ⟨hq, hr⟩ := start_large (a := a) (k := sr) h (by omega)
  rw [hq, hr]
  exact udivmod_aligned hn hd hle hsr

end Aligned

/-- The dividend has no high word. -/
theorem udivmod_lowWord (hn : high .big a = 0#32) :
    (if high .big b = 0#32 then
        ((low .big a / low .big b).setWidth 64, (low .big a % low .big b).setWidth 64)
      else (0#64, (low .big a).setWidth 64)) = (a / b, a % b) := by
  have ha : a.toNat = (low .big a).toNat := by
    rw [toNat_high_low a, hn]
    simp
  by_cases hd : high .big b = 0#32
  · have hb : b.toNat = (low .big b).toNat := by
      rw [toNat_high_low b, hd]
      simp
    rw [if_pos hd]
    refine Prod.ext ?_ ?_
    · apply BitVec.eq_of_toNat_eq
      rw [BitVec.toNat_setWidth_of_le (by decide), BitVec.toNat_udiv, BitVec.toNat_udiv, ha, hb]
    · apply BitVec.eq_of_toNat_eq
      rw [BitVec.toNat_setWidth_of_le (by decide), BitVec.toNat_umod, BitVec.toNat_umod, ha, hb]
  · have hless : a.toNat < b.toNat := by
      have hpos : 0 < (high .big b).toNat :=
        Nat.pos_of_ne_zero fun hzero => hd (BitVec.eq_of_toNat_eq hzero)
      have := (low .big a).isLt
      rw [ha, toNat_high_low b]
      omega
    rw [if_neg hd, ← eq_low hn]
    exact udivmod_of_lt hless

theorem udivmod_highDivisor (hb : b ≠ 0#64) (hnh : high .big a ≠ 0#32)
    (hdl : low .big b = 0#32) : udivmoddi4 .big a b = (a / b, a % b) := by
  have hword := toNat_high_low b
  have hdh : high .big b ≠ 0#32 := by
    intro hdh
    rw [hdl, hdh] at hword
    exact hb (BitVec.eq_of_toNat_eq hword)
  have hn := leadingZeros_high hnh
  have hd := leadingZeros_high hdh
  rw [udivmoddi4, if_neg hnh, if_pos hdl, if_neg hdh]
  obtain ⟨hdiv, hmod⟩ := div_high (a := a) hdl
  by_cases hnl : low .big a = 0#32
  · rw [if_pos hnl, hdiv, hmod, hnl]
  rw [if_neg hnl]
  by_cases hpow : high .big b &&& (high .big b - 1#32) = 0#32
  · rw [if_pos hpow, hdiv, hmod, (udiv_powerOfTwo _ hdh hpow).1, (udiv_powerOfTwo _ hdh hpow).2]
  rw [if_neg hpow]
  have hclz := clz_le_of_not_powerOfTwo hdh hpow
  rcases toNat_clzDifference hdh hnh with ⟨hle, hsr⟩ | ⟨hlt, hsr⟩
  · rw [if_neg ((gt_ofNat_iff (by decide)).not.mpr (by omega))]
    have hk := toNat_clzDifference_succ hdh hsr
    exact udivmod_small hn hd hle hk (by omega)
  · rw [if_pos ((gt_ofNat_iff (by decide)).mpr (by omega))]
    exact udivmod_less hn hd hlt

theorem udivmod_lowDivisor (hnh : high .big a ≠ 0#32) (hdl : low .big b ≠ 0#32)
    (hdh : high .big b = 0#32) : udivmoddi4 .big a b = (a / b, a % b) := by
  have hn := leadingZeros_high hnh
  have hd := leadingZeros_low hdh hdl
  rw [udivmoddi4, if_neg hnh, if_neg hdl, if_pos hdh]
  by_cases hpow : low .big b &&& (low .big b - 1#32) = 0#32
  · rw [if_pos hpow]
    obtain ⟨hdiv, hmod⟩ := udiv_powerOfTwo_wide (a := a) hdh hdl hpow
    obtain ⟨htwo, ht⟩ := toNat_powerOfTwo hdl hpow
    rw [hmod]
    by_cases hone : low .big b = 1#32
    · rw [if_pos hone, eq_low hdh, hone]
      exact Prod.ext BitVec.udiv_one.symm rfl
    · rw [if_neg hone, ← hdiv]
      have hpos : 1 ≤ builtinCtz (low .big b) := by
        by_contra hzero
        rw [show builtinCtz (low .big b) = 0 by omega] at htwo
        exact hone (BitVec.eq_of_toNat_eq htwo)
      exact Prod.ext (start_small hpos ht).2 rfl
  rw [if_neg hpow]
  have hclz := builtinClz_lt hnh
  have hk := toNat_clzDifference_wide hdl hnh
  have hle : builtinClz (high .big a) ≤ 32 + builtinClz (low .big b) := by omega
  dsimp only
  generalize (1#32 + 32#32 + clzDifference (low .big b) (high .big a)).toNat = sr at hk ⊢
  rcases Nat.lt_trichotomy sr 32 with hlt | heq | hgt
  · rw [if_neg hlt.ne, if_pos hlt]
    exact udivmod_small hn hd hle hk hlt
  · rw [if_pos heq]
    exact udivmod_word hn hd hle hk heq
  · rw [if_neg hgt.ne', if_neg (Nat.lt_asymm hgt)]
    exact udivmod_large hn hd hle hk hgt

theorem udivmod_wideDivisor (hnh : high .big a ≠ 0#32) (hdl : low .big b ≠ 0#32)
    (hdh : high .big b ≠ 0#32) : udivmoddi4 .big a b = (a / b, a % b) := by
  have hn := leadingZeros_high hnh
  have hd := leadingZeros_high hdh
  have hd32 := builtinClz_lt hdh
  rw [udivmoddi4, if_neg hnh, if_neg hdl, if_neg hdh]
  rcases toNat_clzDifference hdh hnh with ⟨hle, hsr⟩ | ⟨hlt, hsr⟩
  · rw [if_neg ((gt_ofNat_iff (by decide)).not.mpr (by omega))]
    have hk := toNat_clzDifference_succ hdh hsr
    by_cases h32 : (clzDifference (high .big b) (high .big a) + 1#32).toNat = 32
    · rw [if_pos h32]
      exact udivmod_word hn hd hle hk h32
    · rw [if_neg h32]
      exact udivmod_small hn hd hle hk (by omega)
  · rw [if_pos ((gt_ofNat_iff (by decide)).mpr (by omega))]
    exact udivmod_less hn hd hlt

/-- Each of the special cases, and the loop, give the quotient and the remainder. -/
theorem udivmoddi4_eq (hb : b ≠ 0#64) : udivmoddi4 .big a b = (a / b, a % b) := by
  by_cases hnh : high .big a = 0#32
  · rw [udivmoddi4, if_pos hnh]
    exact udivmod_lowWord hnh
  by_cases hdl : low .big b = 0#32
  · exact udivmod_highDivisor hb hnh hdl
  by_cases hdh : high .big b = 0#32
  · exact udivmod_lowDivisor hnh hdl hdh
  · exact udivmod_wideDivisor hnh hdl hdh

end Words

theorem udivdi3_eq {a b : BitVec 64} (hb : b ≠ 0#64) : udivdi3 .big a b = a / b := by
  rw [udivdi3, udivmoddi4_eq hb]

theorem udivdi3_eq_ten : 10#64 ≠ 0#64 ∧ udivdi3 .big 0x1234567890abcdef#64 10#64 =
    0x1d208a5a8112e31#64 :=
  ⟨by decide, (udivdi3_eq (by decide)).trans (by decide)⟩

theorem umoddi3_eq {a b : BitVec 64} (hb : b ≠ 0#64) : umoddi3 .big a b = a % b := by
  rw [umoddi3, udivmoddi4_eq hb]

theorem abs_ne_zero {b : BitVec 64} (hb : b ≠ 0#64) : b.abs ≠ 0#64 := by
  rw [BitVec.abs]
  split
  · exact fun h => hb (BitVec.neg_eq_zero_iff.mp h)
  · exact hb

/-- The quotient of the absolute values, with its sign. -/
theorem divdi3_eq {a b : BitVec 64} (hb : b ≠ 0#64) : divdi3 .big a b = a.sdiv b := by
  change ((udivmoddi4 .big ((a ^^^ signWord a) - signWord a) ((b ^^^ signWord b) - signWord b)).1
    ^^^ (signWord a ^^^ signWord b)) - (signWord a ^^^ signWord b) = _
  rw [xor_sub_signWord, xor_sub_signWord, udivmoddi4_eq (abs_ne_zero hb)]
  exact xor_sub_udiv_abs a b

/-- The remainder has the sign of the dividend. -/
theorem moddi3_eq {a b : BitVec 64} (hb : b ≠ 0#64) : moddi3 .big a b = a.srem b := by
  change ((udivmoddi4 .big ((a ^^^ signWord a) - signWord a) ((b ^^^ signWord b) - signWord b)).2
    ^^^ signWord a) - signWord a = _
  rw [xor_sub_signWord, xor_sub_signWord, udivmoddi4_eq (abs_ne_zero hb)]
  exact xor_sub_umod_abs a b

theorem divmoddi4_eq {a b : BitVec 64} (hb : b ≠ 0#64) :
    divmoddi4 .big a b = (a.sdiv b, a.srem b) := by
  rw [divmoddi4, divdi3_eq hb, sub_sdiv_mul]

theorem divmoddi4_eq_minus_seven :
    2#64 ≠ 0#64 ∧ divmoddi4 .big (-7#64) 2#64 = (-3#64, -1#64) :=
  ⟨by decide, (divmoddi4_eq (by decide)).trans (by decide)⟩

end Cpu0Toolchain.CompilerRt
