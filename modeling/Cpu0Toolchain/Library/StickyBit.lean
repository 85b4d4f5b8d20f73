import Mathlib.Algebra.Order.Field.Basic
import Mathlib.Algebra.Order.Ring.Cast
import Mathlib.Data.Int.Cast.Lemmas
import Mathlib.Tactic.Ring
import Mathlib.Tactic.Linarith
import Mathlib.Tactic.Positivity

/-!
# Numbers between the multiples of a step

A sticky bit stands for all bits that a right shift drops: it keeps on which side of every even
number the shifted number is, and loses the rest. That is what a later rounding needs, if it
compares with even numbers only. `SameSide` is this relation for any step, and it goes through
sums, differences, shifts to the left and further sticky shifts.
-/

namespace StickyBit

section Order

variable {K : Type*} [Field K] [LinearOrder K]

/-- No multiple of the step tells the two apart. -/
def SameSide (step x y : K) : Prop :=
  ∀ k : ℤ, (x < k * step ↔ y < k * step) ∧ (k * step < x ↔ k * step < y)

variable {step x y z : K}

theorem SameSide.refl (step x : K) : SameSide step x x := fun _ => ⟨Iff.rfl, Iff.rfl⟩

theorem SameSide.trans (h : SameSide step x y) (h' : SameSide step y z) : SameSide step x z :=
  fun k => ⟨(h k).1.trans (h' k).1, (h k).2.trans (h' k).2⟩

theorem SameSide.lt_iff (h : SameSide step x y) (k : ℤ) : x < k * step ↔ y < k * step :=
  (h k).1

theorem SameSide.gt_iff (h : SameSide step x y) (k : ℤ) : k * step < x ↔ k * step < y :=
  (h k).2

theorem SameSide.le_iff (h : SameSide step x y) (k : ℤ) : k * step ≤ x ↔ k * step ≤ y :=
  le_iff_le_iff_lt_iff_lt.mpr (h.lt_iff k)

theorem SameSide.ge_iff (h : SameSide step x y) (k : ℤ) : x ≤ k * step ↔ y ≤ k * step :=
  le_iff_le_iff_lt_iff_lt.mpr (h.gt_iff k)

theorem SameSide.eq_iff (h : SameSide step x y) (k : ℤ) : x = k * step ↔ y = k * step := by
  rw [le_antisymm_iff, le_antisymm_iff, h.ge_iff, h.le_iff]

/-- Multiples of a longer step are multiples of the step. -/
theorem SameSide.coarsen (h : SameSide step x y) (n : ℤ) : SameSide (n * step) x y := by
  intro k
  have hk : (k : K) * (n * step) = ((k * n : ℤ) : K) * step := by
    push_cast
    ring
  rw [hk]
  exact h (k * n)

end Order

section Field

variable {K : Type*} [Field K] [LinearOrder K] [IsStrictOrderedRing K] {step x y c : K}

theorem SameSide.add (h : SameSide step x y) (n : ℤ) :
    SameSide step (n * step + x) (n * step + y) := by
  intro k
  have hk : (k : K) * step = n * step + ((k - n : ℤ) : K) * step := by
    push_cast
    ring
  rw [hk, add_lt_add_iff_left, add_lt_add_iff_left, add_lt_add_iff_left, add_lt_add_iff_left]
  exact h (k - n)

theorem SameSide.neg (h : SameSide step x y) : SameSide step (-x) (-y) := by
  intro k
  have hk : (k : K) * step = -(((-k : ℤ) : K) * step) := by
    push_cast
    ring
  rw [hk, neg_lt_neg_iff, neg_lt_neg_iff, neg_lt_neg_iff, neg_lt_neg_iff]
  exact ⟨h.gt_iff (-k), h.lt_iff (-k)⟩

theorem SameSide.sub (h : SameSide step x y) (n : ℤ) :
    SameSide step (n * step - x) (n * step - y) := by
  rw [sub_eq_add_neg, sub_eq_add_neg]
  exact h.neg.add n

theorem SameSide.mul_left (h : SameSide step x y) (hc : 0 < c) :
    SameSide (c * step) (c * x) (c * y) := by
  intro k
  have hk : (k : K) * (c * step) = c * (k * step) := by ring
  rw [hk, mul_lt_mul_iff_right₀ hc, mul_lt_mul_iff_right₀ hc, mul_lt_mul_iff_right₀ hc,
    mul_lt_mul_iff_right₀ hc]
  exact h k

end Field

/-! ## The shift to the right -/

/-- A shift to the right, with all that it drops in the last bit. -/
def jam (a k : ℕ) : ℕ := a / 2 ^ k ||| if a % 2 ^ k = 0 then 0 else 1

theorem or_one (q : ℕ) : q ||| 1 = 2 * (q / 2) + 1 := by
  have hdiv : (q ||| 1) / 2 = q / 2 := by
    rw [Nat.or_div_two]
    exact Nat.or_zero _
  have hmod : (q ||| 1) % 2 = 1 := by
    rw [Nat.or_mod_two_eq_one]
    exact .inr rfl
  omega

theorem jam_of_dvd {a k : ℕ} (h : a % 2 ^ k = 0) : jam a k = a / 2 ^ k := by
  rw [jam, if_pos h, Nat.or_zero]

theorem jam_of_not_dvd {a k : ℕ} (h : a % 2 ^ k ≠ 0) :
    jam a k = 2 * (a / 2 ^ k / 2) + 1 := by
  rw [jam, if_neg h, or_one]

theorem jam_zero (a : ℕ) : jam a 0 = a := by
  rw [jam_of_dvd (Nat.mod_one a), Nat.pow_zero, Nat.div_one]

/-- All bits are dropped. -/
theorem jam_of_lt {a k : ℕ} (hpos : 0 < a) (h : a < 2 ^ k) : jam a k = 1 := by
  rw [jam, Nat.div_eq_of_lt h, Nat.mod_eq_of_lt h, if_neg hpos.ne']
  rfl

/-- What the last bits were can be seen in the jammed number only by its being odd. -/
theorem jam_even_iff (a k j : ℕ) :
    (jam a k < 2 * j ↔ a < 2 * j * 2 ^ k) ∧ (2 * j < jam a k ↔ 2 * j * 2 ^ k < a) := by
  have hpos : 0 < 2 ^ k := Nat.two_pow_pos k
  have hbelow : a / 2 ^ k < 2 * j ↔ a < 2 * j * 2 ^ k := Nat.div_lt_iff_lt_mul hpos
  have habove : 2 * j ≤ a / 2 ^ k ↔ 2 * j * 2 ^ k ≤ a := Nat.le_div_iff_mul_le hpos
  have hsplit := Nat.div_add_mod a (2 ^ k)
  by_cases h : a % 2 ^ k = 0
  · have heq : a / 2 ^ k = 2 * j ↔ a = 2 * j * 2 ^ k := by
      rw [h, add_zero, mul_comm] at hsplit
      constructor
      · intro hq
        rw [← hsplit, hq]
      · intro ha
        rw [ha, Nat.mul_div_cancel _ hpos]
    rw [jam_of_dvd h]
    omega
  · have hne : a ≠ 2 * j * 2 ^ k := by
      intro ha
      rw [ha, Nat.mul_mod_left] at h
      exact h rfl
    rw [jam_of_not_dvd h]
    omega

section Jam

variable {K : Type*} [Field K] [LinearOrder K] [IsStrictOrderedRing K]

theorem sameSide_jam (a k : ℕ) : SameSide (2 : K) (jam a k) (a / 2 ^ k) := by
  have hpos : (0 : K) < 2 ^ k := by positivity
  intro i
  rw [div_lt_iff₀ hpos, lt_div_iff₀ hpos]
  rcases lt_or_ge i 0 with hi | hi
  · -- both numbers are above the negative multiples
    have hneg : (i : K) * 2 < 0 := mul_neg_of_neg_of_pos (Int.cast_lt_zero.mpr hi) two_pos
    have hjam : (0 : K) ≤ jam a k := Nat.cast_nonneg _
    have ha : (0 : K) ≤ a := Nat.cast_nonneg _
    have hprod : (i : K) * 2 * 2 ^ k < 0 := mul_neg_of_neg_of_pos hneg hpos
    exact ⟨iff_of_false (by linarith) (by linarith), iff_of_true (by linarith) (by linarith)⟩
  · obtain ⟨j, rfl⟩ := Int.eq_ofNat_of_zero_le hi
    have hj := jam_even_iff a k j
    rw [mul_comm 2 j] at hj
    exact_mod_cast hj

/-- A sticky shift of a number in place of another one. -/
theorem SameSide.jam {n : ℕ} {x step : K} (h : SameSide step (n : K) x) (k : ℕ) (i : ℤ)
    (hstep : (2 : K) * 2 ^ k = i * step) : SameSide 2 (jam n k : K) (x / 2 ^ k) := by
  have hpos : (0 : K) < 2 ^ k := by positivity
  have hshift : SameSide (2 : K) (n / 2 ^ k) (x / 2 ^ k) := by
    have hdiv := (h.coarsen i).mul_left (inv_pos.mpr hpos)
    rw [← hstep, mul_comm 2, inv_mul_cancel_left₀ hpos.ne'] at hdiv
    rwa [div_eq_inv_mul, div_eq_inv_mul]
  exact (sameSide_jam n k).trans hshift

end Jam

end StickyBit
