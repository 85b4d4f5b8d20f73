import Cpu0Toolchain.Library.LoopNest

/-!
# Tiled matrix multiplication

The loop nests of `polly_ex/matmul-notile.cpp` and `polly_ex/matmul-tile.cpp`, over any type
with an addition and a multiplication. `N` and `T` are the macros of the same names, and an
access outside of an array is a fault. The counters are integers: they stay below `N + T`, which
an `int` is taken to hold.
-/

namespace Cpu0Toolchain.Polly
open LoopNest ForLoop

inductive Fault
  | outOfFuel | outOfBounds
  deriving DecidableEq

/-- The elements of an array `[N][N]`. Those with an index from `N` on are not part of it. -/
abbrev Matrix (α : Type) := ℕ × ℕ → α

/-- `int min(int a, int b)` -/
protected def min (a b : ℤ) : ℤ :=
  if a < b then a else b

/-- The two subscripts of an access, when the element is there. -/
def subscripts (N : ℕ) (i j : ℤ) : Except Fault (ℕ × ℕ) :=
  if 0 ≤ i ∧ i < N ∧ 0 ≤ j ∧ j < N then .ok (i.toNat, j.toNat) else .error .outOfBounds

section Nests

variable {α : Type} [Add α] [Mul α] (N T : ℕ) (A B : Matrix α)

/-- `C[i][j] = C[i][j] + A[i][k] * B[k][j];` -/
def multiplyAdd (i j k : ℤ) (C : Matrix α) : Except Fault (Matrix α) := do
  let c ← subscripts N i j
  let a ← subscripts N i k
  let b ← subscripts N k j
  return Function.update C c (C c + A a * B b)

/-- `for (i = start; i <= last; i++)` -/
def forTo (fuel : ℕ) (start last : ℤ) (body : ℤ → Matrix α → Except Fault (Matrix α)) :
    Matrix α → Except Fault (Matrix α) :=
  forLoop .outOfFuel (fun i => i ≤ last) (· + 1) body fuel start

/-- `for (i = 0; i < N; i += step)` -/
def forBelow (fuel : ℕ) (step : ℤ) (body : ℤ → Matrix α → Except Fault (Matrix α)) :
    Matrix α → Except Fault (Matrix α) :=
  forLoop .outOfFuel (fun i => i < N) (· + step) body fuel 0

/-- The nest of `matmul-notile.cpp`. -/
def matmulNotile (fuel : ℕ) : Matrix α → Except Fault (Matrix α) :=
  forBelow N fuel 1 fun i =>
    forBelow N fuel 1 fun j =>
      forBelow N fuel 1 fun k =>
        multiplyAdd N A B i j k

/-- The nest of `matmul-tile.cpp`. -/
def matmulTile (fuel : ℕ) : Matrix α → Except Fault (Matrix α) :=
  forBelow N fuel T fun i =>
    forBelow N fuel T fun j =>
      forBelow N fuel T fun k =>
        forTo fuel i (Polly.min (i + T - 1) (N - 1)) fun ii =>
          forTo fuel j (Polly.min (j + T - 1) (N - 1)) fun jj =>
            forTo fuel k (Polly.min (k + T - 1) (N - 1)) fun kk =>
              multiplyAdd N A B ii jj kk

/-- What either nest leaves: each element behind its products, added in the order of `k`. -/
def product (C : Matrix α) : Matrix α := fun (i, j) =>
  if i < N ∧ j < N then rounds (List.range N) (fun k c => c + A (i, k) * B (k, j)) (C (i, j))
  else C (i, j)

end Nests

section Loops

variable {α : Type} {N T fuel : ℕ} {body : ℤ → Matrix α → Except Fault (Matrix α)}
  {g : ℕ → Matrix α → Matrix α}

theorem forBelow_ok {t : ℕ} (ht : 0 < t) (hfuel : N < fuel)
    (hbody : ∀ i < N, ∀ C, body i C = .ok (g i C)) (C : Matrix α) :
    forBelow N fuel t body C = .ok (rounds (indices 0 N t) g C) := by
  refine forLoop_indices ht (fun i _ => by simp) hfuel ?_ C
  intro i hi C
  exact hbody i ((mem_indices ht).mp hi).1 C

/-- The test of a loop over a tile, with the last index that the tile is clipped at. -/
theorem le_min_iff {stop i j : ℕ} {last : ℤ} (hlast : last = stop - 1) :
    decide ((j : ℤ) ≤ Polly.min (i + T - 1) last) = true ↔ j < min (i + T) stop := by
  rw [decide_eq_true_eq, Polly.min]
  split <;> omega

theorem forTo_ok {i : ℕ} (hi : i < N) (hfuel : N < fuel)
    (hbody : ∀ j < N, ∀ C, body j C = .ok (g j C)) (C : Matrix α) :
    forTo fuel i (Polly.min (i + T - 1) (N - 1)) body C = .ok (rounds (tile N T i) g C) := by
  refine forLoop_indices Nat.one_pos (fun j _ => le_min_iff rfl) (by omega) ?_ C
  intro j hj C
  exact hbody j (mem_tile.mp hj).2.2 C

end Loops

section Cells

variable {α : Type} [Add α] [Mul α] {N T fuel : ℕ} {A B : Matrix α}

theorem subscripts_ok {i j : ℕ} (hi : i < N) (hj : j < N) : subscripts N i j = .ok (i, j) := by
  rw [subscripts, if_pos (by omega), Int.toNat_natCast, Int.toNat_natCast]

/-- What the statement does to the matrix when its subscripts are in range. -/
def update (A B : Matrix α) (i j k : ℕ) (C : Matrix α) : Matrix α :=
  Function.update C (i, j) (C (i, j) + A (i, k) * B (k, j))

theorem multiplyAdd_ok {i j k : ℕ} (hi : i < N) (hj : j < N) (hk : k < N) (C : Matrix α) :
    multiplyAdd N A B i j k C = .ok (update A B i j k C) := by
  rw [multiplyAdd, subscripts_ok hi hj, subscripts_ok hi hk, subscripts_ok hk hj]
  rfl

theorem update_here (i j k : ℕ) :
    ActsAt (i, j) (update A B i j k) fun c => c + A (i, k) * B (k, j) := by
  intro C
  exact Function.update_self (i, j) _ C

theorem update_elsewhere {c : ℕ × ℕ} {i j k : ℕ} (h : c ≠ (i, j)) :
    ActsAt c (update A B i j k) id := by
  intro C
  exact Function.update_of_ne h _ C

/-- Two loops over the rows and the columns touch an element in one round of each, and the
loops inside give it the products with these `k`. -/
theorem block_here {is js ks : List ℕ} {r s : ℕ} (hi : is.filter (fun i => i = r) = [r])
    (hj : js.filter (fun j => j = s) = [s]) :
    ActsAt (r, s) (rounds is fun i => rounds js fun j => rounds ks fun k => update A B i j k)
      (rounds ks fun k c => c + A (r, k) * B (k, s)) := by
  refine ActsAt.once hi ?_ ?_
  · rintro i - rfl
    refine ActsAt.once hj ?_ ?_
    · rintro j - rfl
      exact ActsAt.loop fun k _ => update_here i j k
    · intro j _ hne
      exact ActsAt.never fun k _ => update_elsewhere (by simp [Ne.symm hne])
  · intro i _ hne
    exact ActsAt.never fun j _ => ActsAt.never fun k _ => update_elsewhere (by simp [Ne.symm hne])

/-- A block touches no element outside of its rows and columns. -/
theorem block_elsewhere {is js ks : List ℕ} {r s : ℕ} (h : r ∉ is ∨ s ∉ js) :
    ActsAt (r, s) (rounds is fun i => rounds js fun j => rounds ks fun k => update A B i j k)
      id := by
  refine ActsAt.never fun i hi => ActsAt.never fun j hj => ActsAt.never fun k _ =>
    update_elsewhere ?_
  rintro ⟨⟩
  exact h.elim (fun hr => hr hi) (fun hs => hs hj)

theorem filter_tile {i j : ℕ} (h : j ∈ tile N T i) : (tile N T i).filter (fun k => k = j) = [j] := by
  obtain ⟨hle, hT, hN⟩ := mem_tile.mp h
  exact filter_eq_indices hle (lt_min hT hN)

/-- The nest of `matmul-notile.cpp`, element by element. -/
theorem notile_rounds (C : Matrix α) :
    (rounds (indices 0 N 1) fun i => rounds (indices 0 N 1) fun j =>
      rounds (indices 0 N 1) fun k => update A B i j k) C = product N A B C := by
  ext ⟨r, s⟩
  by_cases h : r < N ∧ s < N
  · rw [block_here (filter_eq_indices (Nat.zero_le r) h.1) (filter_eq_indices (Nat.zero_le s) h.2) C,
      indices_zero_one, product, if_pos h]
  · refine (block_elsewhere ?_ C).trans (if_neg h).symm
    simp only [indices_zero_one, List.mem_range]
    omega

/-- The nest of `matmul-tile.cpp`, element by element: of the tiles of rows and of columns one
each touches the element, and the tiles of `k` are the whole range. -/
theorem tile_rounds (hT : 0 < T) (C : Matrix α) :
    (rounds (indices 0 N T) fun i => rounds (indices 0 N T) fun j => rounds (indices 0 N T) fun k =>
      rounds (tile N T i) fun ii => rounds (tile N T j) fun jj => rounds (tile N T k) fun kk =>
        update A B ii jj kk) C = product N A B C := by
  ext ⟨r, s⟩
  by_cases h : r < N ∧ s < N
  · obtain ⟨i, hi⟩ := exists_filter_tile hT (Nat.zero_le r) h.1
    obtain ⟨j, hj⟩ := exists_filter_tile hT (Nat.zero_le s) h.2
    -- outside of the tiles of the row and of the column nothing is added
    have hcell : ActsAt (r, s) _ (rounds (indices 0 N T) fun k => rounds (tile N T k) fun k c =>
        c + A (r, k) * B (k, s)) :=
      ActsAt.once hi
        (fun i _ hri => ActsAt.once hj
          (fun j _ hsj => ActsAt.loop fun k _ => block_here (filter_tile hri) (filter_tile hsj))
          fun j _ hsj => ActsAt.never fun k _ => block_elsewhere (.inr hsj))
        fun i _ hri => ActsAt.never fun j _ => ActsAt.never fun k _ => block_elsewhere (.inl hri)
    rw [hcell C, rounds_flatMap, flatMap_tile hT, indices_zero_one, product, if_pos h]
  · refine (ActsAt.never (fun i _ => ActsAt.never fun j _ => ActsAt.never fun k _ =>
      block_elsewhere ?_) C).trans (if_neg h).symm
    simp only [mem_tile]
    omega

end Cells

section Multiplication

variable {α : Type} [Add α] [Mul α]

/-- The tiled nest ends without an access outside of the arrays and leaves what the untiled one
leaves, whatever the addition and the multiplication are: each element gets its products in the
order of `k`. -/
theorem matmulTile_eq_matmulNotile (N T : ℕ) (hT : 1 ≤ T) (A B C : Matrix α) (fuel : ℕ)
    (hfuel : N < fuel) :
    matmulTile N T A B fuel C = .ok (product N A B C) ∧
      matmulNotile N A B fuel C = .ok (product N A B C) := by
  constructor
  · rw [← tile_rounds hT C]
    refine forBelow_ok hT hfuel (fun i hi => ?_) C
    refine forBelow_ok hT hfuel fun j hj => ?_
    refine forBelow_ok hT hfuel fun k hk => ?_
    refine forTo_ok hi hfuel fun ii hii => ?_
    refine forTo_ok hj hfuel fun jj hjj => ?_
    refine forTo_ok hk hfuel fun kk hkk => ?_
    exact multiplyAdd_ok hii hjj hkk
  · rw [← notile_rounds C]
    refine forBelow_ok Nat.one_pos hfuel (fun i hi => ?_) C
    refine forBelow_ok Nat.one_pos hfuel fun j hj => ?_
    refine forBelow_ok Nat.one_pos hfuel fun k hk => ?_
    exact multiplyAdd_ok hi hj hk

/-- Tiles of two in five rows and columns. -/
theorem matmulTile_eq_matmulNotile_five :
    let A : Matrix ℕ := fun p => p.1 + p.2
    let B : Matrix ℕ := fun p => p.1 * p.2
    let C : Matrix ℕ := fun _ => 0
    matmulTile 5 2 A B 6 C = .ok (product 5 A B C) ∧
      matmulNotile 5 A B 6 C = .ok (product 5 A B C) :=
  matmulTile_eq_matmulNotile 5 2 (by decide) _ _ _ 6 (by decide)

end Multiplication

end Cpu0Toolchain.Polly
