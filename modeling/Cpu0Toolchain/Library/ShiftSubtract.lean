import Cpu0Toolchain.Library.SignWord
import Mathlib.Algebra.Order.Ring.Nat
import Mathlib.Tactic.Ring

/-!
# Division by shifting and subtracting

The dividend moves bit by bit out of one register into another, from which the divisor is taken
where it fits. The first register takes the bits of the quotient in exchange, each a step late: the
bit of the last step waits in a carry. The comparison with the divisor is the sign of a difference,
which is right as long as the difference fits in the word (`signWord_sub`).
-/

namespace ShiftSubtract
open SignWord

variable {w : ℕ}

structure Registers (w : ℕ) where
  r : BitVec w
  q : BitVec w
  carry : BitVec w

def step (d : BitVec w) (s : Registers w) : Registers w :=
  let r := (s.r <<< 1) ||| (s.q >>> (w - 1))
  let q := (s.q <<< 1) ||| s.carry
  let mask := (d - r - 1#w).sshiftRight (w - 1)
  ⟨r - (d &&& mask), q, mask &&& 1#w⟩

def run (d : BitVec w) : ℕ → Registers w → Registers w
  | 0, s => s
  | k + 1, s => run d k (step d s)

/-! ## Words -/

theorem toNat_shiftIn {x b : BitVec w} (hw : 0 < w) (hb : b.toNat ≤ 1) :
    (x <<< 1 ||| b).toNat = 2 * x.toNat % 2 ^ w + b.toNat := by
  obtain ⟨v, rfl⟩ := Nat.exists_eq_add_of_le' hw
  rw [BitVec.toNat_or, BitVec.toNat_shiftLeft, Nat.shiftLeft_eq, Nat.pow_one,
    Nat.mul_comm, Nat.pow_succ', Nat.mul_mod_mul_left]
  have hor := Nat.two_pow_add_eq_or_of_lt (i := 1) (b := b.toNat) (by omega) (x.toNat % 2 ^ v)
  rw [Nat.pow_one] at hor
  exact hor.symm

/-- The sign of the difference tells where the divisor fits. -/
theorem signWord_sub {d r : BitVec w} (hw : 0 < w) (hr : r.toNat < 2 * d.toNat)
    (h : d.toNat ≤ 2 ^ (w - 1) ∨ 2 ^ (w - 1) ≤ r.toNat) :
    (d - r - 1#w).sshiftRight (w - 1) = ofBool w (decide (d.toNat ≤ r.toNat)) := by
  have hword := Nat.two_pow_pred_mul_two hw
  have hone : (1#w).toNat = 1 := BitVec.toNat_one hw
  have hd := d.isLt
  have hr' := r.isLt
  have hmsb : (d - r - 1#w).msb = decide (d.toNat ≤ r.toNat) := by
    rw [BitVec.msb_eq_decide, BitVec.toNat_sub, BitVec.toNat_sub, hone]
    congr 1
    rw [eq_iff_iff]
    rcases Nat.lt_or_ge r.toNat d.toNat with hlt | hge
    · have hmod : (2 ^ w - r.toNat + d.toNat) % 2 ^ w = d.toNat - r.toNat := by
        rw [Nat.mod_eq_sub_mod (by omega), Nat.mod_eq_of_lt (by omega)]
        omega
      rw [hmod, Nat.mod_eq_sub_mod (by omega), Nat.mod_eq_of_lt (by omega)]
      omega
    · rcases Nat.eq_or_lt_of_le hge with heq | hlt
      · have hmod : (2 ^ w - r.toNat + d.toNat) % 2 ^ w = 0 := by
          rw [Nat.mod_eq_sub_mod (by omega), Nat.mod_eq_of_lt (by omega)]
          omega
        rw [hmod, Nat.mod_eq_of_lt (by omega)]
        omega
      · rw [Nat.mod_eq_of_lt (a := 2 ^ w - r.toNat + d.toNat) (by omega),
          Nat.mod_eq_sub_mod (by omega), Nat.mod_eq_of_lt (by omega)]
        omega
  rw [← hmsb]
  exact signWord_eq _

/-! ## The invariant -/

/-- The divisor has been taken `Q` times from the part of the dividend above its last `k` bits. -/
structure Divided (n d k Q : ℕ) (s : Registers w) : Prop where
  rest_lt : s.r.toNat < d
  quotient : n / 2 ^ k = Q * d + s.r.toNat
  carry : s.carry.toNat = Q % 2
  register : s.q.toNat = n % 2 ^ k * 2 ^ (w - k) + Q / 2

variable {n d : BitVec w} {k Q : ℕ} {s : Registers w}

theorem divided_start (hk : k ≤ w) (h : n.toNat / 2 ^ k < d.toNat) :
    Divided n.toNat d.toNat k 0 ⟨n >>> k, n <<< (w - k), 0#w⟩ := by
  have hr : (n >>> k).toNat = n.toNat / 2 ^ k := by
    rw [BitVec.toNat_ushiftRight, Nat.shiftRight_eq_div_pow]
  refine ⟨by rwa [hr], by rw [hr, Nat.zero_mul, Nat.zero_add], rfl, ?_⟩
  have hsplit : 2 ^ w = 2 ^ k * 2 ^ (w - k) := by rw [← Nat.pow_add, Nat.add_sub_cancel' hk]
  rw [BitVec.toNat_shiftLeft, Nat.shiftLeft_eq, hsplit, Nat.mul_mod_mul_right, Nat.zero_div,
    Nat.add_zero]

/-- The bits of the register that hands over the next bit of the dividend. -/
theorem Divided.top_bit (h : Divided n.toNat d.toNat (k + 1) Q s) (hk : k + 1 ≤ w) :
    s.r.toNat < 2 ^ (w - 1) ∧ s.q.toNat / 2 ^ (w - 1) = n.toNat / 2 ^ k % 2 ∧
      2 * s.q.toNat % 2 ^ w = n.toNat % 2 ^ k * 2 ^ (w - k) + 2 * (Q / 2) := by
  obtain ⟨hrest, hquotient, -, hregister⟩ := h
  obtain ⟨j, rfl⟩ := Nat.exists_eq_add_of_le hk
  have hj : k + 1 + j - (k + 1) = j := Nat.add_sub_cancel_left _ _
  have hj' : k + 1 + j - k = j + 1 := by omega
  have hj'' : k + 1 + j - 1 = k + j := by omega
  have hn : n.toNat < 2 ^ (k + 1) * 2 ^ j := by
    rw [← Nat.pow_add]
    exact n.isLt
  have hbound : Q * d.toNat + s.r.toNat < 2 ^ j := hquotient ▸ Nat.div_lt_of_lt_mul hn
  have hQ : Q ≤ Q * d.toNat := Nat.le_mul_of_pos_right _ (by omega)
  have hrj : 2 ^ j ≤ 2 ^ k * 2 ^ j := Nat.le_mul_of_pos_left _ (Nat.two_pow_pos k)
  -- the next bit, the bits behind it, and the bits of the quotient
  have hlow : n.toNat % 2 ^ k * 2 ^ j + Q / 2 < 2 ^ k * 2 ^ j := by
    have hle := Nat.mul_le_mul_right (2 ^ j)
      (Nat.succ_le_of_lt (Nat.mod_lt n.toNat (Nat.two_pow_pos k)))
    rw [Nat.succ_mul] at hle
    omega
  have hvalue : s.q.toNat = 2 ^ k * 2 ^ j * (n.toNat / 2 ^ k % 2) +
      (n.toNat % 2 ^ k * 2 ^ j + Q / 2) := by
    rw [hregister, hj, Nat.mod_pow_succ]
    ring
  rw [hj', hj'', Nat.pow_add, hvalue]
  refine ⟨by omega, ?_, ?_⟩
  · rw [Nat.mul_add_div (by omega), Nat.div_eq_of_lt hlow, Nat.add_zero]
  · have hword : 2 ^ (k + 1 + j) = 2 * (2 ^ k * 2 ^ j) := by
      rw [Nat.pow_add, Nat.pow_succ', Nat.mul_assoc]
    rw [hword, Nat.mul_mod_mul_left, Nat.mul_add_mod, Nat.mod_eq_of_lt hlow]
    ring

theorem Divided.step (h : Divided n.toNat d.toNat (k + 1) Q s) (hk : k + 1 ≤ w)
    (hd : d.toNat ≤ 2 ^ (w - 1) ∨ (Q = 0 ∧ 2 ^ (w - 1) ≤ n.toNat / 2 ^ k)) :
    ∃ c ≤ 1, Divided n.toNat d.toNat k (2 * Q + c) (ShiftSubtract.step d s) := by
  have hw : 0 < w := by omega
  have hword := Nat.two_pow_pred_mul_two hw
  obtain ⟨hsmall, htop, hdouble⟩ := h.top_bit hk
  obtain ⟨hrest, hquotient, hcarry, -⟩ := h
  have hbit : (s.q >>> (w - 1)).toNat = n.toNat / 2 ^ k % 2 := by
    rw [BitVec.toNat_ushiftRight, Nat.shiftRight_eq_div_pow, htop]
  have hr : (s.r <<< 1 ||| s.q >>> (w - 1)).toNat = 2 * s.r.toNat + n.toNat / 2 ^ k % 2 := by
    rw [toNat_shiftIn hw (by omega), hbit, Nat.mod_eq_of_lt (by omega)]
  have hprefix : n.toNat / 2 ^ k = 2 * (Q * d.toNat) + (2 * s.r.toNat + n.toNat / 2 ^ k % 2) := by
    have hdiv : n.toNat / 2 ^ (k + 1) = n.toNat / 2 ^ k / 2 := by
      rw [Nat.div_div_eq_div_mul, Nat.pow_succ]
    omega
  have hq : (s.q <<< 1 ||| s.carry).toNat = n.toNat % 2 ^ k * 2 ^ (w - k) + Q := by
    rw [toNat_shiftIn hw (by omega), hdouble, hcarry]
    omega
  have hmask := signWord_sub (d := d) (r := s.r <<< 1 ||| s.q >>> (w - 1)) hw (by omega) (by
    refine hd.imp_right ?_
    rintro ⟨rfl, hbig⟩
    omega)
  rw [ShiftSubtract.step, hmask]
  generalize s.r <<< 1 ||| s.q >>> (w - 1) = r at *
  have hone : (1#w).toNat = 1 := BitVec.toNat_one hw
  by_cases hfits : d.toNat ≤ r.toNat
  · have hr' : (r - (d &&& ofBool w (decide (d.toNat ≤ r.toNat)))).toNat = r.toNat - d.toNat := by
      rw [decide_eq_true hfits, ofBool, if_pos rfl, BitVec.and_allOnes,
        BitVec.toNat_sub_of_le (BitVec.le_def.mpr hfits)]
    refine ⟨1, le_rfl, ⟨?_, ?_, ?_, ?_⟩⟩
    · rw [hr']
      omega
    · rw [hr', hprefix, Nat.add_mul, Nat.mul_assoc]
      omega
    · rw [decide_eq_true hfits, ofBool, if_pos rfl, BitVec.allOnes_and, hone]
      omega
    · rw [hq]
      omega
  · have hr' : (r - (d &&& ofBool w (decide (d.toNat ≤ r.toNat)))).toNat = r.toNat := by
      rw [decide_eq_false hfits, ofBool, if_neg Bool.false_ne_true, BitVec.and_zero,
        BitVec.sub_zero]
    refine ⟨0, Nat.zero_le 1, ⟨?_, ?_, ?_, ?_⟩⟩
    · rw [hr']
      omega
    · rw [hr', hprefix, Nat.add_zero, Nat.mul_assoc]
      omega
    · rw [decide_eq_false hfits, ofBool, if_neg Bool.false_ne_true, BitVec.zero_and]
      change 0 = _
      omega
    · rw [hq]
      omega

/-- The loop, for a divisor that leaves the sign bit alone. -/
theorem Divided.run (hd : d.toNat ≤ 2 ^ (w - 1)) (h : Divided n.toNat d.toNat k Q s)
    (hk : k ≤ w) : ∃ Q', Divided n.toNat d.toNat 0 Q' (ShiftSubtract.run d k s) := by
  induction k generalizing Q s with
  | zero => exact ⟨Q, h⟩
  | succ k ih =>
    obtain ⟨c, -, hstep⟩ := h.step hk (.inl hd)
    exact ih hstep (Nat.le_of_succ_le hk)

theorem Divided.finish (h : Divided n.toNat d.toNat 0 Q s) (hw : 0 < w) :
    (s.q <<< 1 ||| s.carry) = n / d ∧ s.r = n % d := by
  obtain ⟨hrest, hquotient, hcarry, hregister⟩ := h
  rw [Nat.pow_zero, Nat.div_one] at hquotient
  rw [Nat.pow_zero, Nat.mod_one, Nat.zero_mul, Nat.zero_add] at hregister
  have hdiv : n.toNat / d.toNat = Q ∧ n.toNat % d.toNat = s.r.toNat := by
    rw [Nat.div_mod_unique (by omega)]
    exact ⟨by rw [hquotient, Nat.mul_comm, Nat.add_comm], hrest⟩
  have hQ : Q ≤ n.toNat := hdiv.1 ▸ Nat.div_le_self _ _
  have hn := n.isLt
  constructor
  · apply BitVec.eq_of_toNat_eq
    rw [toNat_shiftIn hw (by omega), BitVec.toNat_udiv, hdiv.1, hregister, hcarry,
      Nat.mod_eq_of_lt (by omega)]
    omega
  · apply BitVec.eq_of_toNat_eq
    rw [BitVec.toNat_umod, hdiv.2]

/-- The division of two words, from an alignment of the divisor with the dividend. -/
theorem divide (hk : 1 ≤ k) (hkw : k ≤ w) (hlt : n.toNat / 2 ^ k < d.toNat)
    (hbig : d.toNat ≤ 2 ^ (w - 1) ∨ (k = 1 ∧ 2 ^ (w - 1) ≤ n.toNat)) :
    ((run d k ⟨n >>> k, n <<< (w - k), 0#w⟩).q <<< 1 |||
      (run d k ⟨n >>> k, n <<< (w - k), 0#w⟩).carry) = n / d ∧
    (run d k ⟨n >>> k, n <<< (w - k), 0#w⟩).r = n % d := by
  have hstart := divided_start hkw hlt
  have hrun : ∃ Q, Divided n.toNat d.toNat 0 Q (run d k ⟨n >>> k, n <<< (w - k), 0#w⟩) := by
    rcases hbig with hsmall | ⟨rfl, hn⟩
    · exact hstart.run hsmall hkw
    · obtain ⟨c, -, hstep⟩ := hstart.step hkw (.inr ⟨rfl, by rwa [Nat.pow_zero, Nat.div_one]⟩)
      exact ⟨_, hstep⟩
  obtain ⟨Q, hQ⟩ := hrun
  exact hQ.finish (by omega)

end ShiftSubtract
