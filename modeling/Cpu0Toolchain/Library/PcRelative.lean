import Mathlib.Algebra.Ring.Int.Defs
import Mathlib.Algebra.Ring.Nat

/-!
# Jumps relative to the program counter

A jump holds a signed offset in a field that is narrower than an address. The offset counts
from the instruction behind the jump.

## Main results

- `signExtend_setWidth_iff` says which offsets survive the field.
- `target_setWidth_iff` says which targets a jump can reach, and `target_ofInt` gives the
  target of an offset in the range of the field.
-/

namespace PcRelative

variable {n w : ℕ}

/-- Where a jump of `size` bytes at `pc` goes. -/
def target (size pc : BitVec w) (field : BitVec n) : BitVec w := pc + size + field.signExtend w

theorem toInt_setWidth_bmod (h : n ≤ w) (x : BitVec w) :
    (x.setWidth n).toInt = x.toInt.bmod (2 ^ n) := by
  rw [← BitVec.signExtend_eq_setWidth_of_le x h, BitVec.toInt_signExtend_eq_toInt_bmod_of_le x h]

/-- The low bits of an offset stand for it exactly if it is in the range of the field. -/
theorem signExtend_setWidth_iff (hn : 0 < n) (h : n ≤ w) (x : BitVec w) :
    (x.setWidth n).signExtend w = x ↔ -2 ^ (n - 1) ≤ x.toInt ∧ x.toInt < 2 ^ (n - 1) := by
  constructor
  · intro heq
    have hint : (x.setWidth n).toInt = x.toInt := by
      rw [← BitVec.toInt_signExtend_of_le h, heq]
    rw [← hint]
    exact ⟨BitVec.le_toInt _, BitVec.toInt_lt⟩
  · rintro ⟨hlow, hhigh⟩
    apply BitVec.eq_of_toInt_eq
    have hself := BitVec.toInt_ofInt_eq_self hn hlow hhigh
    rw [BitVec.toInt_ofInt] at hself
    rw [BitVec.toInt_signExtend_of_le h, toInt_setWidth_bmod h, hself]

theorem setWidth_ofInt (h : n ≤ w) (v : ℤ) : (BitVec.ofInt w v).setWidth n = BitVec.ofInt n v := by
  apply BitVec.eq_of_toInt_eq
  rw [toInt_setWidth_bmod h, BitVec.toInt_ofInt, BitVec.toInt_ofInt]
  exact Int.bmod_bmod_of_dvd (Nat.pow_dvd_pow 2 h)

theorem setWidth_sub (h : n ≤ w) (x y : BitVec w) :
    (x - y).setWidth n = x.setWidth n - y.setWidth n := by
  rw [BitVec.sub_eq_add_neg, BitVec.setWidth_add _ _ h, BitVec.setWidth_neg_of_le h,
    ← BitVec.sub_eq_add_neg]

/-- A jump with the distance to a target in its field goes there exactly if the distance is
in range. -/
theorem target_setWidth_iff (hn : 0 < n) (h : n ≤ w) (size pc dst : BitVec w) :
    target size pc ((dst - pc - size).setWidth n) = dst ↔
      -2 ^ (n - 1) ≤ (dst - pc - size).toInt ∧ (dst - pc - size).toInt < 2 ^ (n - 1) := by
  rw [← signExtend_setWidth_iff hn h, target]
  generalize hfield : ((dst - pc - size).setWidth n).signExtend w = offset
  constructor
  · rintro rfl
    rw [BitVec.add_assoc, BitVec.add_comm pc, BitVec.add_sub_cancel, BitVec.add_comm size,
      BitVec.add_sub_cancel]
  · rintro rfl
    rw [BitVec.sub_sub, BitVec.add_comm, BitVec.sub_add_cancel]

/-- An offset in range is added to the address behind the jump. -/
theorem target_ofInt (hn : 0 < n) (size pc : BitVec w) {d : ℤ} (hlow : -2 ^ (n - 1) ≤ d)
    (hhigh : d < 2 ^ (n - 1)) :
    target size pc (BitVec.ofInt n d) = pc + size + BitVec.ofInt w d := by
  rw [target, BitVec.signExtend, BitVec.toInt_ofInt_eq_self hn hlow hhigh]

end PcRelative
