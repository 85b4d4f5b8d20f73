import Cpu0Toolchain.Polly.Matmul
import Mathlib.Data.List.Nodup

/-!
# One tiled loop

The product of two arrays, element by element, in `polly_ex/matmul-1loop.cpp` and in
`polly_ex/matmul-1loop-tile.cpp`. The second clips its tiles at `N`, where
`polly_ex/matmul-tile.cpp` clips them at `N-1`, so the last one reaches beyond the arrays when it is
not whole. Both loops are around any body: the statement of the programs, or a note of the index.
-/

namespace Cpu0Toolchain.Polly
open LoopNest ForLoop

section OneLoop

variable {σ α : Type} [Mul α] (N T : ℕ) (A B : ℕ → α)

/-- `for (k = 0; k < N; k++)` -/
def oneLoop (fuel : ℕ) (body : ℤ → σ → Except Fault σ) : σ → Except Fault σ :=
  forLoop .outOfFuel (fun k => k < N) (· + 1) body fuel 0

/-- `for (k = 0; k < N; k = k+T) for (kk = k; kk <= min(k+T-1,N); kk++)` -/
def oneLoopTile (fuel : ℕ) (body : ℤ → σ → Except Fault σ) : σ → Except Fault σ :=
  forLoop .outOfFuel (fun k => k < N) (· + (T : ℤ)) (fun k =>
    forLoop .outOfFuel (fun kk => kk ≤ Polly.min (k + T - 1) N) (· + 1) body fuel k) fuel 0

/-- `C[i] = A[i] * B[i];` -/
def multiply (i : ℤ) (C : ℕ → α) : Except Fault (ℕ → α) :=
  if 0 ≤ i ∧ i < N then .ok (Function.update C i.toNat (A i.toNat * B i.toNat))
  else .error .outOfBounds

/-- The loop of `matmul-1loop.cpp`. -/
def matmul1loop (fuel : ℕ) : (ℕ → α) → Except Fault (ℕ → α) :=
  oneLoop N fuel (multiply N A B)

/-- The nest of `matmul-1loop-tile.cpp`. -/
def matmul1loopTile (fuel : ℕ) : (ℕ → α) → Except Fault (ℕ → α) :=
  oneLoopTile N T fuel (multiply N A B)

/-- A body that notes its index. -/
def visit (i : ℤ) (visited : List ℤ) : Except Fault (List ℤ) :=
  .ok (visited ++ [i])

/-- The nest comes to each index of the arrays once, and to no other. -/
def VisitsOnce (fuel : ℕ) : Prop :=
  ∃ visited, oneLoopTile N T fuel visit [] = .ok visited ∧
    (∀ i : ℕ, i < N → visited.count (i : ℤ) = 1) ∧ ∀ i ∈ visited, i < N

end OneLoop

section Visits

variable {σ : Type} {N T fuel : ℕ} {body : ℤ → σ → Except Fault σ} {g : ℕ → σ → σ}

/-- The indices of the nest, in order. -/
def visits (N T : ℕ) : List ℕ := (indices 0 N T).flatMap (tile (N + 1) T)

theorem oneLoop_ok (hfuel : N < fuel) (hbody : ∀ i < N, ∀ s, body i s = .ok (g i s)) (s : σ) :
    oneLoop N fuel body s = .ok (rounds (List.range N) g s) := by
  rw [← indices_zero_one]
  refine forLoop_indices Nat.one_pos (fun i _ => by simp) hfuel ?_ s
  intro i hi s
  exact hbody i ((mem_indices Nat.one_pos).mp hi).1 s

theorem oneLoopTile_ok (hT : 0 < T) (hfuel : N + 1 < fuel)
    (hbody : ∀ i ∈ visits N T, ∀ s, body i s = .ok (g i s)) (s : σ) :
    oneLoopTile N T fuel body s = .ok (rounds (visits N T) g s) := by
  have hlast : (N : ℤ) = (N + 1 : ℕ) - 1 := by omega
  rw [visits, ← rounds_flatMap]
  refine forLoop_indices hT (fun k _ => by simp) (Nat.lt_of_succ_lt hfuel) ?_ s
  intro k hk s
  refine forLoop_indices Nat.one_pos (fun i _ => le_min_iff hlast) (by omega) ?_ s
  intro i hi s
  exact hbody i (List.mem_flatMap.mpr ⟨k, hk, hi⟩) s

/-- Whole tiles are the range. -/
theorem visits_of_dvd (hT : 0 < T) (h : T ∣ N) : visits N T = List.range N := by
  have htile : ∀ k ∈ indices 0 N T, tile (N + 1) T k = tile N T k := by
    intro k hk
    obtain ⟨hlt, m, rfl⟩ := (mem_indices hT).mp hk
    obtain ⟨q, rfl⟩ := h
    have hle : T * (m + 1) ≤ T * q := by
      rw [Nat.zero_add] at hlt
      exact Nat.mul_le_mul_left T (Nat.lt_of_mul_lt_mul_left hlt)
    rw [Nat.mul_succ] at hle
    rw [tile, tile, min_eq_left (by omega), min_eq_left (by omega)]
  rw [visits, List.flatMap_congr htile, flatMap_tile hT, indices_zero_one]

/-- A last tile that is not whole has the index behind the arrays as well. -/
theorem visits_of_not_dvd (hT : 0 < T) (h : ¬T ∣ N) : visits N T = List.range (N + 1) := by
  have hdvd : ¬T ∣ N + T - 1 + 1 := by
    rwa [Nat.sub_add_cancel (Nat.le_add_left_of_le hT), Nat.dvd_add_self_right]
  have hrounds : indices 0 (N + 1) T = indices 0 N T := by
    rw [indices, indices, Nat.sub_zero, Nat.sub_zero,
      show N + 1 + T - 1 = N + T - 1 + 1 by omega, Nat.succ_div_of_not_dvd hdvd]
  rw [visits, ← hrounds, flatMap_tile hT, indices_zero_one]

theorem rounds_visit (vs : List ℕ) (visited : List ℤ) :
    rounds vs (fun i visited => visited ++ [(i : ℤ)]) visited = visited ++ vs.map (↑) := by
  induction vs generalizing visited with
  | nil => exact (List.append_nil visited).symm
  | cons i vs ih =>
    refine (ih (visited ++ [(i : ℤ)])).trans ?_
    rw [List.append_assoc]
    rfl

theorem visitsOnce_iff (hT : 0 < T) (hfuel : N + 1 < fuel) : VisitsOnce N T fuel ↔ T ∣ N := by
  have hvisited : oneLoopTile N T fuel visit [] = .ok ((visits N T).map (↑)) := by
    rw [oneLoopTile_ok hT hfuel (fun _ _ _ => rfl), rounds_visit, List.nil_append]
  constructor
  · rintro ⟨visited, hrun, -, hbelow⟩
    by_contra hdvd
    rw [hvisited, visits_of_not_dvd hT hdvd] at hrun
    obtain rfl := Except.ok.inj hrun
    have hmem : (N : ℤ) ∈ (List.range (N + 1)).map (↑) :=
      List.mem_map_of_mem List.self_mem_range_succ
    exact absurd (hbelow N hmem) (lt_irrefl (N : ℤ))
  · intro hdvd
    rw [visits_of_dvd hT hdvd] at hvisited
    refine ⟨_, hvisited, ?_, ?_⟩
    · intro i hi
      have hnodup : ((List.range N).map (Nat.cast : ℕ → ℤ)).Nodup :=
        List.nodup_range.map Nat.cast_injective
      exact List.count_eq_one_of_mem hnodup (List.mem_map_of_mem (List.mem_range.mpr hi))
    · intro i hi
      obtain ⟨n, hn, rfl⟩ := List.mem_map.mp hi
      exact_mod_cast List.mem_range.mp hn

end Visits

section Product

variable {α : Type} [Mul α]

/-- The tiled loop comes to each index once and leaves what the plain one leaves exactly when the
tiles are whole. -/
theorem matmul1loopTile_iff (N T : ℕ) (hT : 1 ≤ T) (A B C : ℕ → α) (fuel : ℕ)
    (hfuel : N + 1 < fuel) :
    (VisitsOnce N T fuel ∧ ∃ C', matmul1loopTile N T A B fuel C = .ok C' ∧
      matmul1loop N A B fuel C = .ok C') ↔ T ∣ N := by
  constructor
  · rintro ⟨hvisits, -⟩
    exact (visitsOnce_iff hT hfuel).mp hvisits
  · intro hdvd
    have hbody : ∀ i < N, ∀ C, multiply N A B i C = .ok (Function.update C i (A i * B i)) := by
      intro i hi C
      rw [multiply, if_pos (by omega), Int.toNat_natCast]
    have htile : ∀ i ∈ visits N T, ∀ C,
        multiply N A B i C = .ok (Function.update C i (A i * B i)) := by
      intro i hi
      rw [visits_of_dvd hT hdvd] at hi
      exact hbody i (List.mem_range.mp hi)
    refine ⟨(visitsOnce_iff hT hfuel).mpr hdvd, _, oneLoopTile_ok hT hfuel htile C, ?_⟩
    rw [visits_of_dvd hT hdvd]
    exact oneLoop_ok (Nat.lt_of_succ_lt hfuel) hbody C

/-- Three tiles of two. -/
theorem matmul1loopTile_iff_six :
    let A : ℕ → ℕ := fun i => i
    let B : ℕ → ℕ := fun i => i + 1
    (VisitsOnce 6 2 8 ∧ ∃ C', matmul1loopTile 6 2 A B 8 (fun _ => 0) = .ok C' ∧
      matmul1loop 6 A B 8 (fun _ => 0) = .ok C') ↔ 2 ∣ 6 :=
  matmul1loopTile_iff 6 2 (by decide) _ _ _ 8 (by decide)

/-- Five elements in tiles of two: the last tile has the indices 4 and 5. -/
theorem not_matmul1loopTile_five :
    let A : ℕ → ℕ := fun i => i
    let B : ℕ → ℕ := fun i => i + 1
    ¬(VisitsOnce 5 2 7 ∧ ∃ C', matmul1loopTile 5 2 A B 7 (fun _ => 0) = .ok C' ∧
      matmul1loop 5 A B 7 (fun _ => 0) = .ok C') := by
  rintro A B ⟨⟨visited, hrun, -, hbelow⟩, -⟩
  have hvisited : oneLoopTile 5 2 7 visit [] = .ok [0, 1, 2, 3, 4, 5] := rfl
  rw [hvisited] at hrun
  obtain rfl := Except.ok.inj hrun
  exact absurd (hbelow 5 (by decide)) (by decide)

end Product

end Cpu0Toolchain.Polly
