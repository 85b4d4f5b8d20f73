import Mathlib.Algebra.Order.Field.Basic
import Mathlib.Algebra.Order.Ring.Cast
import Mathlib.Tactic.Ring
import Mathlib.Tactic.Linarith
import Mathlib.Tactic.Positivity
import Mathlib.Tactic.FieldSimp

/-!
# Reciprocals by Newton's iteration in fixed point

One step takes an approximation `x` of `1 / b` to `x * (2 - x * b)`, and squares its error. A
program that computes in fixed point drops bits twice in a step: those of `x * b`, which makes the
correction larger, and those of the result. `error_step` is what this does to the error, and
`error_fixedStep` bounds it.
-/

namespace NewtonReciprocal

section Error

variable {K : Type*} [Field K]

/-- The error of an approximation, relative to the reciprocal. -/
def error (b x : K) : K := 1 - x * b

theorem error_step (b x α β : K) :
    error b (x * (2 - x * b + α) - β) = error b x ^ 2 - (1 - error b x) * α + b * β := by
  simp only [error]
  ring

theorem error_sub (b x β : K) : error b (x - β) = error b x + β * b := by
  simp only [error]
  ring

end Error

section Bounds

variable {K : Type*} [Field K] [LinearOrder K] [IsStrictOrderedRing K]

/-- The bounds of the error behind a step. -/
theorem error_step_bounds {b x α β δ γ : K} (hb : 0 < b) (hx : error b x < 1) (hα : 0 ≤ α)
    (hα' : α < δ) (hβ : 0 ≤ β) (hβ' : β < γ) :
    error b x ^ 2 - (1 - error b x) * δ < error b (x * (2 - x * b + α) - β) ∧
      error b (x * (2 - x * b + α) - β) < error b x ^ 2 + b * γ := by
  rw [error_step]
  have hpos : 0 < 1 - error b x := sub_pos.mpr hx
  have h1 := mul_lt_mul_of_pos_left hα' hpos
  have h2 := mul_nonneg hpos.le hα
  have h3 := mul_lt_mul_of_pos_left hβ' hb
  have h4 := mul_nonneg hb.le hβ
  constructor <;> linarith

/-- An approximation with little error is below a bound on the reciprocal. -/
theorem lt_of_error {b x y : K} (hb : 0 < b) (h : 1 - y * b < error b x) : x < y := by
  rw [error, sub_lt_sub_iff_left] at h
  exact lt_of_mul_lt_mul_right h hb.le

/-- A quotient by way of a reciprocal that is a little too small. With `N` between `b` and half of
it, twice the product of `a` and the reciprocal is `2 * N * a / b`, and what is left of it without
its fraction is too small by less than one and a half. -/
theorem quotient_bounds {N a b Q : ℕ} {x : K} (ha : 0 < a) (ha' : a < 2 * N) (hb : N ≤ b)
    (hpos : 0 < error (b / N : K) x) (hle : error (b / N : K) x ≤ 1 / (8 * N))
    (hQ : (Q : K) ≤ 2 * a * x) (hQ' : 2 * a * x < Q + 1) :
    Q * b < 2 * N * a ∧ 4 * N * a < (2 * Q + 3) * b := by
  have hN : (0 : K) < N := by
    rw [Nat.cast_pos]
    omega
  have haK : (0 : K) < a := Nat.cast_pos.mpr ha
  have haK' : (a : K) < 2 * N := by exact_mod_cast ha'
  have hbK : (N : K) ≤ b := by exact_mod_cast hb
  have hproduct : x * b = N - N * error (b / N : K) x := by
    rw [error]
    field_simp
    ring
  have hsmall : N * error (b / N : K) x ≤ 1 / 8 := by
    rw [le_div_iff₀ (by positivity)] at hle
    linarith
  have hpos' : 0 < a * (N * error (b / N : K) x) := by positivity
  have hsmall' : a * (N * error (b / N : K) x) ≤ a * (1 / 8) :=
    mul_le_mul_of_nonneg_left hsmall haK.le
  have hlow : 2 * a * x * b = 2 * N * a - 2 * (a * (N * error (b / N : K) x)) := by
    rw [mul_assoc, hproduct]
    ring
  have hbpos : (0 : K) < b := by linarith
  have hQb := mul_le_mul_of_nonneg_right hQ hbpos.le
  have hQb' := mul_lt_mul_of_pos_right hQ' hbpos
  constructor
  · have hlt : (Q * b : K) < 2 * N * a := by linarith
    exact_mod_cast hlt
  · have hlt : (4 * N * a : K) < (2 * Q + 3) * b := by linarith
    exact_mod_cast hlt

end Bounds

/-! ## Fixed point -/

/-- The product of `r` and `q` without its last `k` bits, taken away from two, and the product of
`r` with this without its last `j` bits. The correction has `s` bits behind the point. -/
def fixedStep (k s j r q : ℕ) : ℕ := r * (2 ^ (s + 1) - r * q / 2 ^ k) / 2 ^ j

section Fixed

variable {K : Type*} [Field K] [LinearOrder K] [IsStrictOrderedRing K]

/-- The division of a natural number by a power of two, and what it drops. -/
theorem cast_div_two_pow (a k : ℕ) :
    ∃ β : K, 0 ≤ β ∧ β < 1 ∧ ((a / 2 ^ k : ℕ) : K) = a / 2 ^ k - β := by
  have hpos : (0 : K) < 2 ^ k := by positivity
  have hsplit : (a : K) = 2 ^ k * (a / 2 ^ k : ℕ) + (a % 2 ^ k : ℕ) := by
    exact_mod_cast (Nat.div_add_mod a (2 ^ k)).symm
  have hlt : ((a % 2 ^ k : ℕ) : K) < 2 ^ k := by
    exact_mod_cast Nat.mod_lt a (Nat.two_pow_pos k)
  refine ⟨(a % 2 ^ k : ℕ) / 2 ^ k, by positivity, (div_lt_one hpos).mpr hlt, ?_⟩
  rw [div_sub_div_same, eq_div_iff hpos.ne', eq_sub_iff_add_eq, mul_comm, ← hsplit]

variable {k s j t n m r q : ℕ}

/-- A step in fixed point is one with two small terms. -/
theorem fixedStep_eq (hm : n + m = k + s) (ht : n + s = j + t)
    (hle : r * q / 2 ^ k ≤ 2 ^ (s + 1)) :
    ∃ α β : K, (0 ≤ α ∧ α < 1 / 2 ^ s) ∧ (0 ≤ β ∧ β < 1 / 2 ^ t) ∧
      (fixedStep k s j r q : K) / 2 ^ t =
        r / 2 ^ n * (2 - r / 2 ^ n * (q / 2 ^ m) + α) - β := by
  obtain ⟨γ, hγ, hγ', hproduct⟩ := cast_div_two_pow (K := K) (r * q) k
  obtain ⟨β, hβ, hβ', hresult⟩ := cast_div_two_pow (K := K) (r * (2 ^ (s + 1) - r * q / 2 ^ k)) j
  have hs : (0 : K) < 2 ^ s := by positivity
  have ht' : (0 : K) < 2 ^ t := by positivity
  refine ⟨γ / 2 ^ s, β / 2 ^ t, ⟨by positivity, div_lt_div_of_pos_right hγ' hs⟩,
    ⟨by positivity, div_lt_div_of_pos_right hβ' ht'⟩, ?_⟩
  have hm' : (2 : K) ^ n * 2 ^ m = 2 ^ k * 2 ^ s := by rw [← pow_add, ← pow_add, hm]
  have ht'' : (2 : K) ^ n * 2 ^ s = 2 ^ j * 2 ^ t := by rw [← pow_add, ← pow_add, ht]
  have hcorrection : (r / 2 ^ n * (q / 2 ^ m) : K) * 2 ^ s = r * q / 2 ^ k := by
    rw [div_mul_div_comm, hm']
    field_simp
  rw [fixedStep, hresult, Nat.cast_mul, Nat.cast_sub hle, hproduct, Nat.cast_mul, ← hcorrection]
  have hscale : (r : K) / 2 ^ j / 2 ^ t = r / 2 ^ n / 2 ^ s := by rw [div_div, div_div, ht'']
  generalize (r / 2 ^ n * (q / 2 ^ m) : K) = product
  calc _ = (r : K) / 2 ^ j / 2 ^ t * (2 ^ (s + 1) - (product * 2 ^ s - γ)) - β / 2 ^ t := by
        push_cast
        ring
    _ = r / 2 ^ n * (2 - product + γ / 2 ^ s) - β / 2 ^ t := by
        rw [hscale, pow_succ]
        field_simp
        ring

theorem error_fixedStep {b x : K} (hm : n + m = k + s) (ht : n + s = j + t) (hx : x = r / 2 ^ n)
    (hb : b = q / 2 ^ m) (hpos : 0 < b) (hlow : -1 ≤ error b x) (hhigh : error b x < 1) :
    error b x ^ 2 - (1 - error b x) * (1 / 2 ^ s) < error b (fixedStep k s j r q / 2 ^ t) ∧
      error b (fixedStep k s j r q / 2 ^ t) < error b x ^ 2 + b * (1 / 2 ^ t) := by
  have hle : r * q / 2 ^ k ≤ 2 ^ (s + 1) := by
    have hproduct : x * b ≤ 2 := by
      rw [error] at hlow
      linarith
    rw [hx, hb, div_mul_div_comm, ← pow_add, hm, div_le_iff₀ (by positivity)] at hproduct
    apply Nat.div_le_of_le_mul
    rw [← Nat.pow_add, ← Nat.add_assoc, Nat.pow_succ']
    exact_mod_cast hproduct
  obtain ⟨α, β, ⟨hα, hα'⟩, ⟨hβ, hβ'⟩, hstep⟩ := fixedStep_eq (K := K) hm ht hle
  rw [hstep, ← hx, ← hb]
  exact error_step_bounds hpos hhigh hα hα' hβ hβ'

end Fixed

end NewtonReciprocal
