import Mathlib.Algebra.Order.Ring.Int
import Mathlib.Tactic.Common

/-!
# The word of a sign

The arithmetic right shift that leaves only the sign, all ones or all zeros. The complement with
such a word and its subtraction negate, or do nothing, so that signed division comes down to
unsigned division without a branch.
-/

namespace SignWord

variable {w : ℕ}

def signWord (a : BitVec w) : BitVec w := a.sshiftRight (w - 1)

/-- The sign that two operands give to a product or a quotient has such a word too. -/
def ofBool (w : ℕ) (negative : Bool) : BitVec w := if negative then BitVec.allOnes w else 0#w

theorem getLsbD_ofBool (negative : Bool) {i : ℕ} (h : i < w) :
    (ofBool w negative).getLsbD i = negative := by
  cases negative with
  | false => exact BitVec.getLsbD_zero
  | true =>
    rw [ofBool, if_pos rfl, BitVec.getLsbD_allOnes]
    exact decide_eq_true h

theorem signWord_eq (a : BitVec w) : signWord a = ofBool w a.msb := by
  apply BitVec.eq_of_getLsbD_eq
  intro i hi
  have hmsb : a.msb = a.getLsbD (w - 1) := BitVec.msb_eq_getLsbD_last a
  rw [signWord, BitVec.getLsbD_sshiftRight, getLsbD_ofBool _ hi,
    decide_eq_false (Nat.not_le.mpr hi), Bool.not_false, Bool.true_and]
  rcases Nat.eq_zero_or_pos i with rfl | hpos
  · rw [if_pos (by omega), Nat.add_zero, hmsb]
  · rw [if_neg (by omega)]

theorem ofBool_xor (s t : Bool) : ofBool w s ^^^ ofBool w t = ofBool w (s ^^ t) := by
  cases s <;> cases t <;> simp [ofBool]

theorem ofBool_inj (h : 0 < w) {s t : Bool} : ofBool w s = ofBool w t ↔ s = t := by
  constructor
  · intro heq
    rw [← getLsbD_ofBool s h, heq, getLsbD_ofBool t h]
  · exact congrArg (ofBool w)

theorem xor_sub_ofBool (a : BitVec w) (negative : Bool) :
    (a ^^^ ofBool w negative) - ofBool w negative = if negative then -a else a := by
  cases negative with
  | false => simp [ofBool]
  | true =>
    rw [ofBool, if_pos rfl, if_pos rfl, BitVec.xor_allOnes, BitVec.neg_eq_not_add,
      BitVec.sub_eq_add_neg, ← BitVec.neg_one_eq_allOnes, BitVec.neg_neg]

/-- The absolute value without a branch. -/
theorem xor_sub_signWord (a : BitVec w) : (a ^^^ signWord a) - signWord a = a.abs := by
  rw [signWord_eq, xor_sub_ofBool]
  rfl

theorem toNat_abs (a : BitVec w) : a.abs.toNat = a.toInt.natAbs := by
  have hlt := a.isLt
  rw [BitVec.toNat_abs, BitVec.toInt_eq_msb_cond]
  cases a.msb with
  | false => exact (Int.natAbs_natCast _).symm
  | true =>
    have hcast : ((2 ^ w : ℕ) : ℤ) = 2 ^ w := by push_cast; rfl
    rw [if_pos rfl, if_pos rfl]
    omega

/-! ## Quotients and remainders -/

theorem sub_udiv_mul (a b : BitVec w) : a - a / b * b = a % b := by
  rw [BitVec.sub_eq_iff_eq_add]
  apply BitVec.eq_of_toNat_eq
  rw [BitVec.toNat_add, BitVec.toNat_mul, BitVec.toNat_umod, BitVec.toNat_udiv, Nat.add_mod_mod,
    Nat.mod_add_div' , Nat.mod_eq_of_lt a.isLt]

theorem sub_sdiv_mul (a b : BitVec w) : a - a.sdiv b * b = a.srem b := by
  apply BitVec.eq_of_toInt_eq
  have hdiv := Int.tmod_add_mul_tdiv a.toInt b.toInt
  have hrest : a.toInt - a.toInt.tdiv b.toInt * b.toInt = (a.srem b).toInt := by
    rw [BitVec.toInt_srem]
    rw [Int.mul_comm] at hdiv
    omega
  rw [BitVec.toInt_sub, BitVec.toInt_mul, BitVec.toInt_sdiv, Int.bmod_mul_bmod, Int.sub_bmod_bmod,
    hrest, BitVec.toInt_bmod_cancel]

/-- The signed quotient from that of the absolute values. -/
theorem xor_sub_udiv_abs (a b : BitVec w) :
    (a.abs / b.abs ^^^ (signWord a ^^^ signWord b)) - (signWord a ^^^ signWord b) = a.sdiv b := by
  rw [signWord_eq, signWord_eq, ofBool_xor, xor_sub_ofBool, BitVec.sdiv_eq, BitVec.abs, BitVec.abs]
  cases a.msb <;> cases b.msb <;> rfl

theorem xor_sub_umod_abs (a b : BitVec w) :
    (a.abs % b.abs ^^^ signWord a) - signWord a = a.srem b := by
  rw [signWord_eq, xor_sub_ofBool, BitVec.srem_eq, BitVec.abs, BitVec.abs]
  cases a.msb <;> cases b.msb <;> rfl

end SignWord
