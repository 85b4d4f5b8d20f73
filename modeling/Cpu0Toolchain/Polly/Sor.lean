import Cpu0Toolchain.Library.Relaxation
import Cpu0Toolchain.Polly.Matmul

/-!
# Successive over-relaxation

`kernel_sor` of `polyhedral_pipeline/sor.c`, and of `sor2.c` and `sor3.c`, where the loops are
skewed by hand. The one of `sor2.c` makes a sweep more, and each of its sweeps relaxes a cell more.
The one of `sor3.c` relaxes a cell before the sweep ahead of it has come to the neighbour on the
right, and the fourth sweep does not come to the last eight cells.

## Main results

- `kernelSor_ok`, `kernelSor2_ok`: the kernels as so many sweeps.
- `kernelSor3_ok`: the kernel as relaxations in an order.
-/

namespace Cpu0Toolchain.Polly.Sor
open LoopNest ForLoop Relaxation

/-! ## The kernels -/

section Kernels

/-- The number of sweeps, `#define M 4`. -/
def M : ℕ := 4

variable {K : Type} [Field K] (N : ℕ)

/-- `X[p] = (X[p-1] + X[p] + X[p+1]) / 3;` in an array `X[N+M]`. -/
def statement (p : ℤ) (X : ℕ → K) : Except Fault (ℕ → K) :=
  if 0 ≤ p - 1 ∧ p + 1 < N + M then
    .ok (Function.update X p.toNat (mean (X (p - 1).toNat) (X p.toNat) (X (p + 1).toNat)))
  else .error .outOfBounds

/-- Statements for these cells, one after the other. -/
def statements (ps : List ℤ) (X : ℕ → K) : Except Fault (ℕ → K) :=
  ps.foldlM (fun X p => statement N p X) X

/-- `kernel_sor` of `sor.c`. -/
def kernelSor (fuel : ℕ) : (ℕ → K) → Except Fault (ℕ → K) :=
  forLoop .outOfFuel (fun i => i < M) (· + 1) (fun _ =>
    forLoop .outOfFuel (fun j => j < N) (· + 1) (fun j => statement N (j + 1)) fuel 0) fuel 0

/-- `kernel_sor` of `sor2.c`. -/
def kernelSor2 (fuel : ℕ) : (ℕ → K) → Except Fault (ℕ → K) :=
  forLoop .outOfFuel (fun i => i ≤ M) (· + 1) (fun i =>
    forLoop .outOfFuel (fun j => j ≤ 2 * i + N) (· + 1) (fun j => statement N (j - 2 * i + 1))
      fuel (2 * i)) fuel 0

/-- The cells of the statements before the loop of `sor3.c`. -/
def prologue : List ℤ :=
  -- i = 0
  [0 + 1, 1 + 1, 2 + 1, 3 + 1, 4 + 1, 5 + 1,
  -- i = 1
    0 + 1, 1 + 1, 2 + 1, 3 + 1,
  -- i = 2
    0 + 1, 1 + 1]

/-- The cells of the statements in the loop. -/
def skewed (j : ℤ) : List ℤ :=
  -- i = 3
  [j - 7, j - 6,
  -- i = 2
    j - 5, j - 4,
  -- i = 1
    j - 3, j - 2,
  -- i = 0
    j - 1, j - 0]

/-- The cells of the statements behind the loop. -/
def epilogue (N : ℤ) : List ℤ :=
  -- i = 1
  [N - 1, N - 0,
  -- i = 2
    N - 3, N - 2, N - 1, N - 0,
  -- i = 3
    N - 5, N - 4, N - 3, N - 2, N - 1, N - 0]

/-- `kernel_sor` of `sor3.c`. -/
def kernelSor3 (fuel : ℕ) (X : ℕ → K) : Except Fault (ℕ → K) := do
  let X ← statements N prologue X
  let X ← forLoop .outOfFuel (fun j => j < N) (· + 2) (fun j => statements N (skewed j)) fuel 8 X
  statements N (epilogue N) X

end Kernels

/-! ## What they leave -/

section Runs

variable {K : Type} [Field K] {N fuel : ℕ}

theorem statement_ok {p : ℤ} (hleft : 1 ≤ p) (hright : p + 1 < N + M) (X : ℕ → K) :
    statement N p X = .ok (relax (p - 1).toNat X) := by
  obtain ⟨j, rfl⟩ : ∃ j : ℕ, p = j + 1 := ⟨(p - 1).toNat, by omega⟩
  have h0 : ((j : ℤ) + 1 - 1).toNat = j := by omega
  have h1 : ((j : ℤ) + 1).toNat = j + 1 := by omega
  have h2 : ((j : ℤ) + 1 + 1).toNat = j + 2 := by omega
  rw [statement, if_pos (by omega), h0, h1, h2]
  rfl

/-- What statements for these cells leave. -/
def relaxed (ps : List ℤ) : (ℕ → K) → ℕ → K := rounds (ps.map fun p => (p - 1).toNat) relax

theorem relaxed_append (ps qs : List ℤ) (X : ℕ → K) :
    relaxed (ps ++ qs) X = relaxed qs (relaxed ps X) := by
  rw [relaxed, List.map_append, rounds_append]
  rfl

theorem statements_ok {ps : List ℤ} (h : ∀ p ∈ ps, 1 ≤ p ∧ p ≤ N) (X : ℕ → K) :
    statements N ps X = .ok (relaxed ps X) := by
  induction ps generalizing X with
  | nil => rfl
  | cons p ps ih =>
    obtain ⟨⟨hleft, hright⟩, hps⟩ := List.forall_mem_cons.mp h
    have hM : M = 4 := rfl
    rw [statements, List.foldlM_cons, statement_ok hleft (by omega)]
    exact ih hps _

theorem kernelSor_ok (hfuel : N < fuel) (hM : M < fuel) (X : ℕ → K) :
    kernelSor N fuel X = .ok ((sweep N)^[M] X) := by
  have hsweep : ∀ X : ℕ → K, forLoop .outOfFuel (fun j => j < N) (· + 1)
      (fun j => statement N (j + 1)) fuel 0 X = .ok (sweep N X) := by
    intro X
    rw [sweep, ← indices_zero_one]
    refine forLoop_indices Nat.one_pos (fun j _ => by simp) hfuel ?_ X
    intro j hj X
    have hlt := ((mem_indices Nat.one_pos).mp hj).1
    have h4 : M = 4 := rfl
    rw [statement_ok (by omega) (by omega), show ((j : ℤ) + 1 - 1).toNat = j by omega]
  have hrun : kernelSor N fuel X = .ok (rounds (indices 0 M 1) (fun _ => sweep N) X) :=
    forLoop_indices Nat.one_pos (fun i _ => by simp) hM (fun i _ X => hsweep X) X
  rw [hrun, rounds, List.foldl_const]
  rfl

theorem kernelSor2_ok (hfuel : N + 1 < fuel) (hM : M + 1 < fuel) (X : ℕ → K) :
    kernelSor2 N fuel X = .ok ((sweep (N + 1))^[M + 1] X) := by
  have hsweep : ∀ (i : ℕ) (X : ℕ → K), forLoop .outOfFuel (fun j => j ≤ 2 * (i : ℤ) + N) (· + 1)
      (fun j => statement N (j - 2 * i + 1)) fuel (2 * i) X = .ok (sweep (N + 1) X) := by
    intro i X
    have hcells : ∀ j ∈ indices (2 * i) (2 * i + (N + 1)) 1, ∀ X : ℕ → K,
        statement N (j - 2 * i + 1) X = .ok (relax (j - 2 * i) X) := by
      intro j hj X
      obtain ⟨hlt, k, rfl⟩ := (mem_indices Nat.one_pos).mp hj
      have h4 : M = 4 := rfl
      rw [statement_ok (by omega) (by omega)]
      congr 2
      omega
    have htest : ∀ j : ℕ, 2 * i ≤ j →
        (decide ((j : ℤ) ≤ 2 * (i : ℤ) + N) = true ↔ j < 2 * i + (N + 1)) := by
      intro j _
      rw [decide_eq_true_eq]
      omega
    have hrounds : 2 * i + (N + 1) - 2 * i < fuel := by omega
    refine Eq.trans (forLoop_indices Nat.one_pos htest hrounds hcells X) ?_
    -- the indices are those of a sweep, shifted
    rw [sweep, rounds, rounds, indices, Nat.add_sub_cancel_left, Nat.div_one,
      List.range'_eq_map_range, List.foldl_map]
    simp only [Nat.add_sub_cancel_left, Nat.add_sub_cancel]
  have htest : ∀ i : ℕ, 0 ≤ i → (decide ((i : ℤ) ≤ M) = true ↔ i < M + 1) := by
    intro i _
    rw [decide_eq_true_eq]
    omega
  have hrun : kernelSor2 N fuel X =
      .ok (rounds (indices 0 (M + 1) 1) (fun _ => sweep (N + 1)) X) :=
    forLoop_indices Nat.one_pos htest hM (fun i _ X => hsweep i X) X
  rw [hrun, rounds, List.foldl_const]
  rfl

/-- All statements of `sor3.c`, in their order. -/
def order (N : ℕ) : List ℤ :=
  prologue ++ (indices 8 N 2).flatMap (fun j : ℕ => skewed j) ++ epilogue N

theorem prologue_cells (hN : 8 ≤ N) : ∀ p ∈ prologue, 1 ≤ p ∧ p < N := by
  intro p hp
  have h6 : ∀ p ∈ prologue, 1 ≤ p ∧ p ≤ 6 := by decide
  have := h6 p hp
  omega

theorem skewed_cells {j : ℕ} (hj : j ∈ indices 8 N 2) : ∀ p ∈ skewed j, 1 ≤ p ∧ p < N := by
  obtain ⟨hlt, k, rfl⟩ := (mem_indices Nat.two_pos).mp hj
  simp only [skewed, List.forall_mem_cons, List.not_mem_nil, false_implies, implies_true, and_true]
  omega

theorem epilogue_cells (hN : 8 ≤ N) : ∀ p ∈ epilogue N, 1 ≤ p ∧ p ≤ N := by
  simp only [epilogue, List.forall_mem_cons, List.not_mem_nil, false_implies, implies_true, and_true]
  omega

theorem order_cells (hN : 8 ≤ N) : ∀ p ∈ order N, 1 ≤ p ∧ p ≤ N := by
  intro p hp
  rcases List.mem_append.mp hp with hp | hp
  · rcases List.mem_append.mp hp with hp | hp
    · exact ⟨(prologue_cells hN p hp).1, Int.le_of_lt (prologue_cells hN p hp).2⟩
    · obtain ⟨j, hj, hp⟩ := List.mem_flatMap.mp hp
      exact ⟨(skewed_cells hj p hp).1, Int.le_of_lt (skewed_cells hj p hp).2⟩
  · exact epilogue_cells hN p hp

theorem kernelSor3_ok (hN : 8 ≤ N) (hfuel : N < fuel) (X : ℕ → K) :
    kernelSor3 N fuel X = .ok (relaxed (order N) X) := by
  have hloop : ∀ X : ℕ → K, forLoop .outOfFuel (fun j => j < N) (· + 2)
      (fun j => statements N (skewed j)) fuel 8 X =
        .ok (rounds (indices 8 N 2) (fun j => relaxed (skewed j)) X) := by
    intro X
    show forLoop _ _ (· + ((2 : ℕ) : ℤ)) _ fuel ((8 : ℕ) : ℤ) X = _
    refine forLoop_indices Nat.two_pos (fun j _ => by simp) (by omega) ?_ X
    exact fun j hj X => statements_ok (fun p hp => ⟨(skewed_cells hj p hp).1,
      Int.le_of_lt (skewed_cells hj p hp).2⟩) X
  rw [kernelSor3, statements_ok fun p hp => ⟨(prologue_cells hN p hp).1,
    Int.le_of_lt (prologue_cells hN p hp).2⟩]
  show (forLoop _ _ _ _ _ _ _).bind _ = _
  rw [hloop]
  show statements N (epilogue N) _ = _
  rw [statements_ok (epilogue_cells hN), order, relaxed_append, relaxed_append]
  simp only [relaxed, List.map_flatMap, rounds_flatMap]

end Runs

end Cpu0Toolchain.Polly.Sor
