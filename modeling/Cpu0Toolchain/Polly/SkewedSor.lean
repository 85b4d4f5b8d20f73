import Cpu0Toolchain.Polly.Sor
import Mathlib.Logic.Function.Iterate

/-!
# The skewed kernels against the plain one

The five sweeps of `sor2.c` relax cell `N+1` as well, which the four sweeps of `sor.c` keep. The
`drift` of this cell is all that makes the first four of the five sweeps differ from the four,
and it comes in from the right by one cell for each sweep. If both leave the same array, the drift
can also be followed backwards from it, and the two ways together leave no drift.

## Main results

- `drift_eq_zero`: no drift, when five sweeps and four leave the same.
- `kernelSor2_eq_iff`: when `sor2.c` leaves what `sor.c` does.
- `kernels_agree_iff`: when all three do.
-/

namespace Cpu0Toolchain.Polly.Sor
open LoopNest ForLoop Relaxation

/-! ## The drift -/

section Drift

variable {K : Type} [Field K] (n : ℕ) (X : ℕ → K) (k : ℕ)

/-- The cells behind so many sweeps of one cell more. -/
def far : ℕ → K := (sweep (n + 1))^[k] X

/-- The cells behind so many sweeps. -/
def near : ℕ → K := (sweep n)^[k] X

/-- The drift of the cell that is in the longer sweeps only. -/
def drift : K := far n X k (n + 1) - X (n + 1)

/-- The longer sweeps against as many others. -/
def late : ℕ → K := far n X k - near n X k

/-- The longer sweeps against one less of the others. -/
def early : ℕ → K := far n X (k + 1) - near n X k

theorem far_succ : far n X (k + 1) = sweep (n + 1) (far n X k) :=
  Function.iterate_succ_apply' _ k X

theorem near_succ : near n X (k + 1) = sweep n (near n X k) :=
  Function.iterate_succ_apply' _ k X

theorem near_last : near n X k (n + 1) = X (n + 1) := by
  induction k with
  | zero => rfl
  | succ k ih => rw [near_succ, sweep_of_lt (Nat.lt_succ_self n), ih]

theorem far_last : far n X k (n + 2) = X (n + 2) := by
  induction k with
  | zero => rfl
  | succ k ih => rw [far_succ, sweep_of_lt (Nat.lt_succ_self (n + 1)), ih]

theorem late_last : late n X k (n + 1) = drift n X k := by
  rw [late, Pi.sub_apply, near_last, drift]

theorem early_last : early n X k (n + 1) = drift n X (k + 1) := by
  rw [early, Pi.sub_apply, near_last, drift]

theorem drift_zero : drift n X 0 = 0 := sub_self (X (n + 1))

variable [CharZero K]

theorem swept_far : Swept (n + 1) (far n X k) (far n X (k + 1)) := by
  rw [far_succ]
  exact swept_sweep (n + 1) _

theorem swept_near : Swept n (near n X k) (near n X (k + 1)) := by
  rw [near_succ]
  exact swept_sweep n _

theorem swept_late : Swept n (late n X k) (late n X (k + 1)) :=
  ((swept_far n X k).mono (Nat.le_succ n)).sub (swept_near n X k)

theorem swept_early : Swept n (early n X k) (early n X (k + 1)) :=
  ((swept_far n X (k + 1)).mono (Nat.le_succ n)).sub (swept_near n X k)

/-- Far from the right end the sweeps do not differ yet. -/
theorem late_zeros : ∀ i, i + k ≤ n + 1 → late n X k i = 0 := by
  induction k with
  | zero => exact fun i _ => sub_self (X i)
  | succ k ih =>
    intro i hi
    have hbefore : ∀ i' ≤ i + 1, late n X k i' = 0 := fun i' hi' => ih i' (by omega)
    exact (swept_late n X k).left (by omega) hbefore i le_rfl

/-- The drift of two sweeps, one after the other. -/
theorem drift_step : 3 * (drift n X (k + 2) - drift n X (k + 1)) =
    early n X (k + 1) n - late n X (k + 1) n + drift n X (k + 1) - drift n X k := by
  have hfirst := (swept_far n X k).2 n (Nat.lt_succ_self n)
  have hsecond := (swept_far n X (k + 1)).2 n (Nat.lt_succ_self n)
  rw [far_last] at hfirst hsecond
  simp only [early, late, drift, Pi.sub_apply]
  linear_combination hsecond - hfirst

end Drift

section Equations

variable {K : Type} [Field K] [CharZero K] {n : ℕ} {X : ℕ → K}

/-- The last cell of the shorter sweeps, forward from the first sweep. -/
theorem late_cells (hn : 3 ≤ n) :
    late n X 1 n = 0 ∧ 3 * late n X 2 n = drift n X 1 ∧
      27 * late n X 3 n = 4 * drift n X 1 + 9 * drift n X 2 ∧
      243 * late n X 4 n = 20 * drift n X 1 + 36 * drift n X 2 + 81 * drift n X 3 := by
  obtain ⟨m, rfl⟩ := Nat.exists_eq_add_of_le' hn
  have hzero := late_zeros (m + 3) X
  have hswept := fun k j => (swept_late (m + 3) X k).2 j
  have h1 : late (m + 3) X 1 (m + 3) = 0 := hzero 1 _ le_rfl
  have h2 : 3 * late (m + 3) X 2 (m + 3) =
      late (m + 3) X 2 (m + 2) + late (m + 3) X 1 (m + 3) + late (m + 3) X 1 (m + 4) :=
    hswept 1 (m + 2) (by omega)
  have h3' : 3 * late (m + 3) X 3 (m + 2) =
      late (m + 3) X 3 (m + 1) + late (m + 3) X 2 (m + 2) + late (m + 3) X 2 (m + 3) :=
    hswept 2 (m + 1) (by omega)
  have h3 : 3 * late (m + 3) X 3 (m + 3) =
      late (m + 3) X 3 (m + 2) + late (m + 3) X 2 (m + 3) + late (m + 3) X 2 (m + 4) :=
    hswept 2 (m + 2) (by omega)
  have h4'' : 3 * late (m + 3) X 4 (m + 1) =
      late (m + 3) X 4 m + late (m + 3) X 3 (m + 1) + late (m + 3) X 3 (m + 2) :=
    hswept 3 m (by omega)
  have h4' : 3 * late (m + 3) X 4 (m + 2) =
      late (m + 3) X 4 (m + 1) + late (m + 3) X 3 (m + 2) + late (m + 3) X 3 (m + 3) :=
    hswept 3 (m + 1) (by omega)
  have h4 : 3 * late (m + 3) X 4 (m + 3) =
      late (m + 3) X 4 (m + 2) + late (m + 3) X 3 (m + 3) + late (m + 3) X 3 (m + 4) :=
    hswept 3 (m + 2) (by omega)
  rw [late_last, hzero 1 _ le_rfl, hzero 2 _ le_rfl] at h2
  rw [hzero 3 _ le_rfl, hzero 2 _ le_rfl] at h3'
  rw [late_last] at h3 h4
  rw [hzero 4 _ le_rfl, hzero 3 _ le_rfl] at h4''
  refine ⟨h1, ?_, ?_, ?_⟩
  · linear_combination h2
  · linear_combination 9 * h3 + 3 * h3' + 4 * h2
  · linear_combination 81 * h4 + 27 * h4' + 9 * h4'' + 36 * h3 + 24 * h3' + 20 * h2

/-- The same cell backwards from where five sweeps and four have left the same. -/
theorem early_cells (hn : 3 ≤ n) (h : ∀ i ≤ n + 1, early n X 4 i = 0) :
    early n X 3 n = -drift n X 4 ∧ early n X 2 n = -4 * drift n X 4 - drift n X 3 ∧
      early n X 1 n = -20 * drift n X 4 - 4 * drift n X 3 - drift n X 2 := by
  obtain ⟨m, rfl⟩ := Nat.exists_eq_add_of_le' hn
  have hswept := fun k j => (swept_early (m + 3) X k).2 j
  have h3 : 3 * early (m + 3) X 4 (m + 3) =
      early (m + 3) X 4 (m + 2) + early (m + 3) X 3 (m + 3) + early (m + 3) X 3 (m + 4) :=
    hswept 3 (m + 2) (by omega)
  have h3' : 3 * early (m + 3) X 4 (m + 2) =
      early (m + 3) X 4 (m + 1) + early (m + 3) X 3 (m + 2) + early (m + 3) X 3 (m + 3) :=
    hswept 3 (m + 1) (by omega)
  have h3'' : 3 * early (m + 3) X 4 (m + 1) =
      early (m + 3) X 4 m + early (m + 3) X 3 (m + 1) + early (m + 3) X 3 (m + 2) :=
    hswept 3 m (by omega)
  have h2 : 3 * early (m + 3) X 3 (m + 3) =
      early (m + 3) X 3 (m + 2) + early (m + 3) X 2 (m + 3) + early (m + 3) X 2 (m + 4) :=
    hswept 2 (m + 2) (by omega)
  have h2' : 3 * early (m + 3) X 3 (m + 2) =
      early (m + 3) X 3 (m + 1) + early (m + 3) X 2 (m + 2) + early (m + 3) X 2 (m + 3) :=
    hswept 2 (m + 1) (by omega)
  have h1 : 3 * early (m + 3) X 2 (m + 3) =
      early (m + 3) X 2 (m + 2) + early (m + 3) X 1 (m + 3) + early (m + 3) X 1 (m + 4) :=
    hswept 1 (m + 2) (by omega)
  rw [early_last, h (m + 3) (by omega), h (m + 2) (by omega)] at h3
  rw [h (m + 2) (by omega), h (m + 1) (by omega)] at h3'
  rw [h (m + 1) (by omega), h m (by omega)] at h3''
  rw [early_last] at h2 h1
  -- behind the fourth sweep the cells alternate
  have hlast : early (m + 3) X 3 (m + 3) = -drift (m + 3) X 4 := by linear_combination -h3
  have hleft : early (m + 3) X 3 (m + 2) = drift (m + 3) X 4 := by linear_combination h3 - h3'
  have hleft' : early (m + 3) X 3 (m + 1) = -drift (m + 3) X 4 := by
    linear_combination h3' - h3 - h3''
  have hlast2 : early (m + 3) X 2 (m + 3) = -4 * drift (m + 3) X 4 - drift (m + 3) X 3 := by
    linear_combination 3 * hlast - hleft - h2
  have hleft2 : early (m + 3) X 2 (m + 2) = 8 * drift (m + 3) X 4 + drift (m + 3) X 3 := by
    linear_combination 3 * hleft - hleft' - hlast2 - h2'
  refine ⟨hlast, hlast2, ?_⟩
  linear_combination 3 * hlast2 - hleft2 - h1

/-- Both ways together leave no drift. -/
theorem drift_eq_zero (hn : 3 ≤ n) (h : ∀ i ≤ n + 1, early n X 4 i = 0) :
    drift n X 1 = 0 ∧ drift n X 2 = 0 ∧ drift n X 3 = 0 ∧ drift n X 4 = 0 := by
  obtain ⟨hlate1, hlate2, hlate3, hlate4⟩ := late_cells (X := X) hn
  obtain ⟨hearly3, hearly2, hearly1⟩ := early_cells hn h
  have hearly4 : early n X 4 n = 0 := h n (Nat.le_succ n)
  have hlast : drift n X 5 = 0 := (early_last n X 4).symm.trans (h (n + 1) le_rfl)
  have hstep1 : 3 * (drift n X 2 - drift n X 1) =
      early n X 1 n - late n X 1 n + drift n X 1 - drift n X 0 := drift_step n X 0
  have hstep2 : 3 * (drift n X 3 - drift n X 2) =
      early n X 2 n - late n X 2 n + drift n X 2 - drift n X 1 := drift_step n X 1
  have hstep3 : 3 * (drift n X 4 - drift n X 3) =
      early n X 3 n - late n X 3 n + drift n X 3 - drift n X 2 := drift_step n X 2
  have hstep4 : 3 * (drift n X 5 - drift n X 4) =
      early n X 4 n - late n X 4 n + drift n X 4 - drift n X 3 := drift_step n X 3
  rw [drift_zero, hearly1, hlate1] at hstep1
  rw [hearly2] at hstep2
  rw [hearly3] at hstep3
  rw [hearly4, hlast] at hstep4
  -- four equations for four drifts
  have h1 : drift n X 1 = drift n X 2 + drift n X 3 + 5 * drift n X 4 := by
    linear_combination -hstep1 / 4
  have h2 : drift n X 1 = 3 * drift n X 2 - 3 * drift n X 3 - 3 * drift n X 4 := by
    linear_combination (3 * hstep2 - hlate2) / 4
  have h3 : drift n X 1 = 27 * drift n X 3 - 9 * drift n X 2 - 27 * drift n X 4 := by
    linear_combination (27 * hstep3 - hlate3) / 4
  have h4 : 5 * drift n X 1 + 9 * drift n X 2 + 81 * drift n X 3 = 243 * drift n X 4 := by
    linear_combination (243 * hstep4 - hlate4) / 4
  have hthird : drift n X 3 = 12 * drift n X 4 := by linear_combination (6 * h1 - 5 * h2 - h3) / 6
  have hsecond : drift n X 2 = 28 * drift n X 4 := by
    linear_combination (h1 - h2) / 2 + 2 * hthird
  have hfirst : drift n X 1 = 45 * drift n X 4 := by linear_combination h1 + hsecond + hthird
  have hfourth : drift n X 4 = 0 := by
    linear_combination (h4 - 5 * hfirst - 9 * hsecond - 81 * hthird) / 1206
  rw [hfourth, mul_zero] at hfirst hsecond hthird
  exact ⟨hfirst, hsecond, hthird, hfourth⟩

/-- Five sweeps of one cell more leave what four leave only if they leave all as it is. -/
theorem inLine_of_sweeps (hn : 3 ≤ n) (h : (sweep (n + 1))^[5] X = (sweep n)^[4] X) :
    ∀ j < n + 1, InLine X j := by
  have hfour : ∀ i ≤ n + 1, early n X 4 i = 0 := fun i _ => sub_eq_zero.mpr (congrFun h i)
  obtain ⟨hone, htwo, hthree, hlast⟩ := drift_eq_zero hn hfour
  have hback : ∀ k, drift n X (k + 1) = 0 → (∀ i ≤ n + 1, early n X (k + 1) i = 0) →
      ∀ i ≤ n + 1, early n X k i = 0 := fun k hdrift hearly =>
    (swept_early n X k).right (fun i hi => hearly i (Nat.le_succ_of_le hi))
      ((early_last n X k).trans hdrift)
  have hzero := hback 0 hone (hback 1 htwo (hback 2 hthree (hback 3 hlast hfour)))
  exact (swept_far n X 0).inLine fun i hi => sub_eq_zero.mp (hzero i hi)

end Equations

/-! ## The kernels -/

section Agreement

variable {K : Type} [Field K] [CharZero K] {N fuel : ℕ} {X : ℕ → K}

theorem sweep_of_inLine {n : ℕ} (h : ∀ j < n, InLine X j) : sweep n X = X :=
  rounds_of_inLine fun j hj => h j (List.mem_range.mp hj)

theorem kernelSor_of_inLine (h : ∀ j < N, InLine X j) (hfuel : N < fuel) (hM : M < fuel) :
    kernelSor N fuel X = .ok X := by
  rw [kernelSor_ok hfuel hM, Function.iterate_fixed (sweep_of_inLine h)]

theorem kernelSor2_of_inLine (h : ∀ j < N + 1, InLine X j) (hfuel : N + 1 < fuel)
    (hM : M + 1 < fuel) : kernelSor2 N fuel X = .ok X := by
  rw [kernelSor2_ok hfuel hM, Function.iterate_fixed (sweep_of_inLine h)]

theorem kernelSor3_of_inLine (hN : 8 ≤ N) (h : ∀ j < N, InLine X j) (hfuel : N < fuel) :
    kernelSor3 N fuel X = .ok X := by
  rw [kernelSor3_ok hN hfuel]
  refine congrArg Except.ok (rounds_of_inLine ?_)
  intro j hj
  obtain ⟨p, hp, rfl⟩ := List.mem_map.mp hj
  obtain ⟨hfirst, hlast⟩ := order_cells hN p hp
  exact h _ (by omega)

/-- The kernel of `sor2.c` leaves what the one of `sor.c` does exactly if it leaves all as it is. -/
theorem kernelSor2_eq_iff (hN : 3 ≤ N) (hfuel : N + 1 < fuel) (hM : M + 1 < fuel) :
    kernelSor2 N fuel X = kernelSor N fuel X ↔ ∀ j < N + 1, InLine X j := by
  constructor
  · intro h
    rw [kernelSor2_ok hfuel hM, kernelSor_ok (Nat.lt_of_succ_lt hfuel) (Nat.lt_of_succ_lt hM)] at h
    exact inLine_of_sweeps hN (Except.ok.inj h)
  · intro h
    have hshort : ∀ j < N, InLine X j := fun j hj => h j (Nat.lt_succ_of_lt hj)
    rw [kernelSor2_of_inLine h hfuel hM,
      kernelSor_of_inLine hshort (Nat.lt_of_succ_lt hfuel) (Nat.lt_of_succ_lt hM)]

/-- The three kernels leave the same array exactly when its cells `0, .., N+2` are in arithmetic
progression, as those of `init_array` are. -/
theorem kernels_agree_iff (N : ℕ) (hN : 8 ≤ N) (X : ℕ → K) (fuel : ℕ) (hfuel : N + 1 < fuel) :
    (∃ Y, kernelSor N fuel X = .ok Y ∧ kernelSor2 N fuel X = .ok Y ∧
      kernelSor3 N fuel X = .ok Y) ↔ ∀ j ≤ N, X j + X (j + 2) = 2 * X (j + 1) := by
  have hM : M + 1 < fuel := by
    rw [M]
    omega
  constructor
  · rintro ⟨Y, hsor, hsor2, -⟩ j hj
    have hinLine := (kernelSor2_eq_iff (Nat.le_trans (by decide) hN) hfuel hM).mp
      (hsor2.trans hsor.symm)
    exact hinLine j (Nat.lt_succ_of_le hj)
  · intro h
    have hshort : ∀ j < N, InLine X j := fun j hj => h j (Nat.le_of_lt hj)
    have hlong : ∀ j < N + 1, InLine X j := fun j hj => h j (Nat.le_of_lt_succ hj)
    exact ⟨X, kernelSor_of_inLine hshort (Nat.lt_of_succ_lt hfuel) (Nat.lt_of_succ_lt hM),
      kernelSor2_of_inLine hlong hfuel hM,
      kernelSor3_of_inLine hN hshort (Nat.lt_of_succ_lt hfuel)⟩

/-- The array of `init_array`. -/
theorem kernels_agree_iff_init :
    let X : ℕ → ℚ := fun i => i + 1
    (∃ Y, kernelSor 8 10 X = .ok Y ∧ kernelSor2 8 10 X = .ok Y ∧ kernelSor3 8 10 X = .ok Y) ↔
      ∀ j ≤ 8, X j + X (j + 2) = 2 * X (j + 1) :=
  kernels_agree_iff 8 le_rfl _ 10 (by decide)

end Agreement

/-! ## The end of the fourth sweep -/

section Front

variable {K : Type} [Field K] [CharZero K] {N fuel : ℕ} {X : ℕ → K}

theorem near_zeros (hX : ∀ i ≤ N, X i = 0) (k : ℕ) : ∀ i, i + k ≤ N → near N X k i = 0 := by
  induction k with
  | zero => exact hX
  | succ k ih =>
    intro i hi
    have hbefore : ∀ i' ≤ i + 1, near N X k i' = 0 := fun i' hi' => ih i' (by omega)
    exact (swept_near N X k).left (by omega) hbefore i le_rfl

/-- A value at the right end comes in by one cell for each sweep. -/
theorem near_front (hX : ∀ i ≤ N, X i = 0) (k : ℕ) :
    ∀ j, j + k = N → 3 ^ k * near N X k (j + 1) = X (N + 1) := by
  induction k with
  | zero =>
    rintro j rfl
    rw [pow_zero, one_mul]
    rfl
  | succ k ih =>
    intro j hj
    have hstep := (swept_near N X k).2 j (by omega)
    rw [near_zeros hX (k + 1) j (by omega), near_zeros hX k (j + 1) (by omega), zero_add,
      zero_add] at hstep
    rw [pow_succ, mul_assoc, hstep]
    exact ih (j + 1) (by omega)

omit [CharZero K] in
theorem relaxed_zeros {ps : List ℤ} {k : ℕ} (hX : ∀ i ≤ k, X i = 0)
    (hps : ∀ p ∈ ps, 1 ≤ p ∧ p ≠ k) : ∀ i ≤ k, relaxed ps X i = 0 := by
  refine rounds_zeros hX ?_
  intro j hj
  obtain ⟨p, hp, rfl⟩ := List.mem_map.mp hj
  have := hps p hp
  omega

omit [CharZero K] in
/-- In the order of `sor3.c` it comes in by three cells. -/
theorem order_zeros (hN : 8 ≤ N) (hX : ∀ i ≤ N, X i = 0) :
    ∀ i ≤ N - 3, relaxed (order N) X i = 0 := by
  have hsplit : epilogue N = [(N : ℤ) - 1] ++ ([(N : ℤ) - 0, N - 3, N - 2] ++
      ([(N : ℤ) - 1, N - 0, N - 5, N - 4, N - 3] ++ [(N : ℤ) - 2, N - 1, N - 0])) := rfl
  rw [order, hsplit]
  simp only [relaxed_append]
  have hprologue : ∀ i ≤ N, relaxed prologue X i = 0 := relaxed_zeros hX fun p hp =>
    ⟨(prologue_cells hN p hp).1, Int.ne_of_lt (prologue_cells hN p hp).2⟩
  have hloop := relaxed_zeros hprologue fun p hp => by
    obtain ⟨j, hj, hp⟩ := List.mem_flatMap.mp hp
    exact ⟨(skewed_cells hj p hp).1, Int.ne_of_lt (skewed_cells hj p hp).2⟩
  -- a statement for the last zero cell costs it, and no other statement does
  have hkept : ∀ {k : ℕ} {ps : List ℤ} {Y : ℕ → K}, (∀ i ≤ k + 1, Y i = 0) →
      (∀ p ∈ ps, 1 ≤ p ∧ p ≠ k) → ∀ i ≤ k, relaxed ps Y i = 0 := fun hY hps =>
    relaxed_zeros (fun i hi => hY i (Nat.le_succ_of_le hi)) hps
  obtain ⟨n, rfl⟩ := Nat.exists_eq_add_of_le' hN
  refine hkept (hkept (hkept (relaxed_zeros hloop ?_) ?_) ?_) ?_
  all_goals
    simp only [List.forall_mem_cons, List.not_mem_nil, false_implies, implies_true, and_true]
    omega

/-- The kernel of `sor3.c` is wrong about each array with zeros up to cell `N` and another value
behind it. -/
theorem kernelSor3_ne (hN : 8 ≤ N) (hfuel : N < fuel) (hX : ∀ i ≤ N, X i = 0)
    (hlast : X (N + 1) ≠ 0) : kernelSor3 N fuel X ≠ kernelSor N fuel X := by
  have hM : M < fuel := by
    rw [M]
    omega
  rw [kernelSor3_ok hN hfuel, kernelSor_ok hfuel hM]
  intro h
  obtain ⟨n, rfl⟩ := Nat.exists_eq_add_of_le' hN
  have hcell : near (n + 8) X 4 (n + 4 + 1) = 0 :=
    (congrFun (Except.ok.inj h) (n + 4 + 1)).symm.trans (order_zeros hN hX (n + 4 + 1) le_rfl)
  have hfront := near_front hX 4 (n + 4) rfl
  rw [hcell, mul_zero] at hfront
  exact hlast hfront.symm

/-- Zeros, and a one in cell `N+1`: neither of the two is right. -/
theorem kernels_disagree_one :
    ¬∃ Y : ℕ → ℚ, kernelSor 8 10 (Pi.single 9 1) = .ok Y ∧
      (kernelSor2 8 10 (Pi.single 9 1) = .ok Y ∨ kernelSor3 8 10 (Pi.single 9 1) = .ok Y) := by
  have hzeros : ∀ i ≤ 8, (Pi.single 9 1 : ℕ → ℚ) i = 0 := fun i hi =>
    Pi.single_eq_of_ne (by omega) 1
  have hone : (Pi.single 9 1 : ℕ → ℚ) 9 = 1 := Pi.single_eq_same 9 1
  rintro ⟨Y, hsor, hsor2 | hsor3⟩
  · have hinLine := (kernelSor2_eq_iff (by decide) (by decide) (by decide)).mp
      (hsor2.trans hsor.symm) 7 (by decide)
    rw [InLine, hzeros 7 (by decide), hzeros 8 le_rfl, hone] at hinLine
    norm_num at hinLine
  · refine kernelSor3_ne le_rfl (by decide) hzeros ?_ (hsor3.trans hsor.symm)
    rw [hone]
    exact one_ne_zero

end Front

end Cpu0Toolchain.Polly.Sor
