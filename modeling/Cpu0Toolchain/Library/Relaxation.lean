import Cpu0Toolchain.Library.LoopNest
import Mathlib.Algebra.Field.Basic
import Mathlib.Algebra.CharZero.Defs
import Mathlib.Tactic.LinearCombination
import Mathlib.Tactic.FieldSimp

/-!
# Relaxation of a row of cells

A cell becomes the mean of itself and its two neighbours, in place, and a sweep does so from one
end of the row to the other. `Swept` is the equation between the cells before and behind a sweep.
It is linear, it moves what is known of the left cells to the right by one cell less for each
sweep, and it can be solved for the cells before the sweep from the right end on.
-/

namespace Relaxation
open LoopNest

section Cells

variable {K : Type} [Field K]

/-- A cell and its neighbours. -/
def mean (a b c : K) : K := (a + b + c) / 3

/-- `X[j+1] = (X[j] + X[j+1] + X[j+2]) / 3` -/
def relax (j : ℕ) (X : ℕ → K) : ℕ → K :=
  Function.update X (j + 1) (mean (X j) (X (j + 1)) (X (j + 2)))

/-- The first `n` cells behind cell 0, from left to right. -/
def sweep (n : ℕ) (X : ℕ → K) : ℕ → K := rounds (List.range n) relax X

/-- The cell behind `j` is the mean of its neighbours. -/
def InLine (X : ℕ → K) (j : ℕ) : Prop := X j + X (j + 2) = 2 * X (j + 1)

/-- What a sweep makes of the cells up to `n`. -/
def Swept (n : ℕ) (X Y : ℕ → K) : Prop :=
  Y 0 = X 0 ∧ ∀ j < n, 3 * Y (j + 1) = Y j + X (j + 1) + X (j + 2)

variable {n k : ℕ} {X Y : ℕ → K}

theorem relax_apply (j : ℕ) (X : ℕ → K) :
    relax j X (j + 1) = mean (X j) (X (j + 1)) (X (j + 2)) :=
  Function.update_self _ _ _

theorem relax_of_ne {i j : ℕ} (h : i ≠ j + 1) (X : ℕ → K) : relax j X i = X i :=
  Function.update_of_ne h _ _

theorem sweep_succ (n : ℕ) (X : ℕ → K) : sweep (n + 1) X = relax n (sweep n X) := by
  rw [sweep, List.range_succ, rounds_append]
  rfl

/-- A sweep leaves the cells behind its last one. -/
theorem sweep_of_lt {i : ℕ} (h : n < i) (X : ℕ → K) : sweep n X i = X i := by
  induction n with
  | zero => rfl
  | succ n ih => rw [sweep_succ, relax_of_ne (Nat.ne_of_gt h), ih (Nat.lt_of_succ_lt h)]

/-- Zeros on the left, except where the last of them is relaxed. -/
theorem relax_zeros {j : ℕ} (hX : ∀ i ≤ k, X i = 0) (hj : j + 1 ≠ k) :
    ∀ i ≤ k, relax j X i = 0 := by
  intro i hi
  by_cases hij : i = j + 1
  · subst hij
    rw [relax_apply, hX j (by omega), hX (j + 1) hi, hX (j + 2) (by omega), mean, add_zero,
      add_zero, zero_div]
  · rw [relax_of_ne hij, hX i hi]

theorem rounds_zeros {js : List ℕ} (hX : ∀ i ≤ k, X i = 0) (hjs : ∀ j ∈ js, j + 1 ≠ k) :
    ∀ i ≤ k, rounds js relax X i = 0 := by
  induction js generalizing X with
  | nil => exact hX
  | cons j js ih =>
    obtain ⟨hj, hjs⟩ := List.forall_mem_cons.mp hjs
    exact ih (relax_zeros hX hj) hjs

end Cells

section Sweeps

variable {K : Type} [Field K] [CharZero K] {n m k : ℕ} {X Y X' Y' : ℕ → K}

theorem swept_sweep (n : ℕ) (X : ℕ → K) : Swept n X (sweep n X) := by
  induction n with
  | zero => exact ⟨rfl, fun j hj => absurd hj (Nat.not_lt_zero j)⟩
  | succ n ih =>
    rw [sweep_succ]
    refine ⟨(relax_of_ne (Nat.succ_ne_zero n).symm _).trans ih.1, ?_⟩
    intro j hj
    have hleft : relax n (sweep n X) j = sweep n X j := relax_of_ne (Nat.ne_of_lt hj) _
    rw [hleft]
    rcases Nat.lt_succ_iff_lt_or_eq.mp hj with hlt | rfl
    · rw [relax_of_ne (Nat.ne_of_lt (Nat.succ_lt_succ hlt))]
      exact ih.2 j hlt
    · rw [relax_apply, sweep_of_lt (Nat.lt_succ_self j), sweep_of_lt (i := j + 2) (by omega)]
      exact mul_div_cancel₀ _ (OfNat.ofNat_ne_zero 3)

omit [CharZero K] in
theorem Swept.mono (h : Swept n X Y) (hmn : m ≤ n) : Swept m X Y :=
  ⟨h.1, fun j hj => h.2 j (Nat.lt_of_lt_of_le hj hmn)⟩

omit [CharZero K] in
theorem Swept.sub (h : Swept n X Y) (h' : Swept n X' Y') : Swept n (X - X') (Y - Y') := by
  refine ⟨?_, ?_⟩
  · rw [Pi.sub_apply, Pi.sub_apply, h.1, h'.1]
  · intro j hj
    simp only [Pi.sub_apply]
    linear_combination h.2 j hj - h'.2 j hj

/-- Zeros on the left stay there, all but the last. -/
theorem Swept.left (h : Swept n X Y) (hk : k ≤ n) (hX : ∀ i ≤ k + 1, X i = 0) :
    ∀ i ≤ k, Y i = 0 := by
  intro i
  induction i with
  | zero => exact fun _ => h.1.trans (hX 0 (Nat.zero_le _))
  | succ i ih =>
    intro hi
    have hstep := h.2 i (by omega)
    rw [ih (by omega), hX (i + 1) (by omega), hX (i + 2) (by omega), add_zero, add_zero] at hstep
    exact (mul_eq_zero.mp hstep).resolve_left (OfNat.ofNat_ne_zero 3)

omit [CharZero K] in
/-- Zeros behind a sweep come from zeros, when the cell at the right end is zero. -/
theorem Swept.right (h : Swept n X Y) (hY : ∀ i ≤ n, Y i = 0) (hX : X (n + 1) = 0) :
    ∀ i ≤ n + 1, X i = 0 := by
  induction n with
  | zero =>
    intro i hi
    rcases Nat.le_one_iff_eq_zero_or_eq_one.mp hi with rfl | rfl
    · exact h.1.symm.trans (hY 0 le_rfl)
    · exact hX
  | succ n ih =>
    have hstep := h.2 n (Nat.lt_succ_self n)
    rw [hY (n + 1) le_rfl, hY n (Nat.le_succ n), hX, mul_zero, zero_add, add_zero] at hstep
    intro i hi
    rcases Nat.lt_succ_iff_lt_or_eq.mp (Nat.lt_succ_of_le hi) with hlt | rfl
    · exact ih (h.mono (Nat.le_succ n)) (fun i hi => hY i (Nat.le_succ_of_le hi)) hstep.symm i
        (Nat.le_of_lt_succ hlt)
    · exact hX

theorem relax_of_inLine {j : ℕ} (h : InLine X j) : relax j X = X := by
  have hmean : mean (X j) (X (j + 1)) (X (j + 2)) = X (j + 1) := by
    rw [InLine] at h
    rw [mean, div_eq_iff (OfNat.ofNat_ne_zero 3)]
    linear_combination h
  rw [relax, hmean, Function.update_eq_self]

/-- Cells in line stay as they are, in whatever order they are relaxed. -/
theorem rounds_of_inLine {js : List ℕ} (h : ∀ j ∈ js, InLine X j) : rounds js relax X = X := by
  induction js with
  | nil => rfl
  | cons j js ih =>
    obtain ⟨hj, hjs⟩ := List.forall_mem_cons.mp h
    exact (congrArg (rounds js relax) (relax_of_inLine hj)).trans (ih hjs)

omit [CharZero K] in
theorem Swept.inLine (h : Swept n X Y) (hY : ∀ i ≤ n, Y i = X i) : ∀ j < n, InLine X j := by
  intro j hj
  have hstep := h.2 j hj
  rw [hY (j + 1) hj, hY j (Nat.le_of_lt hj)] at hstep
  rw [InLine]
  linear_combination -hstep

end Sweeps

end Relaxation
