import Cpu0Toolchain.Polly.Matmul

/-!
# Fusion of two loop nests

`polly_ex/fusion.c` fills two arrays in one nest after the other, `polly_ex/fusion_handcode.c` in
one nest for both; `fusion.sh` compares what they print. The sum for `D` is computed in `double`,
as its literal is one, and converted back: it is a parameter here, `addTwice`.

## Main results

- `fusionHandcode_eq_fusion`: both end without an access outside of the arrays, with the same
  elements.
-/

namespace Cpu0Toolchain.Polly
open LoopNest ForLoop

/-- The two arrays that are filled. -/
structure Arrays (α : Type) where
  C : Matrix α
  D : Matrix α

section Nests

variable {α : Type} [Zero α] [Add α] [Mul α] (addTwice : α → α → α) (N : ℕ) (A B : Matrix α)

/-- `C[i][j] = 0;`, and the same for `D`. -/
def clear (i j : ℤ) (X : Matrix α) : Except Fault (Matrix α) := do
  let x ← subscripts N i j
  return Function.update X x 0

/-- `D[i][j] = D[i][j] + A[i][k] * 2.0;` -/
def addDouble (i j k : ℤ) (D : Matrix α) : Except Fault (Matrix α) := do
  let d ← subscripts N i j
  let a ← subscripts N i k
  return Function.update D d (addTwice (D d) (A a))

def onC (f : Matrix α → Except Fault (Matrix α)) (s : Arrays α) : Except Fault (Arrays α) := do
  let C ← f s.C
  return { s with C }

def onD (f : Matrix α → Except Fault (Matrix α)) (s : Arrays α) : Except Fault (Arrays α) := do
  let D ← f s.D
  return { s with D }

/-- `for (i = 0; i < N; i++)` -/
def forN {σ : Type} (fuel : ℕ) (body : ℤ → σ → Except Fault σ) : σ → Except Fault σ :=
  forLoop .outOfFuel (fun i => i < N) (· + 1) body fuel 0

/-- The nests of `fusion.c`. -/
def fusion (fuel : ℕ) (s : Arrays α) : Except Fault (Arrays α) := do
  let s ← forN N fuel (fun i => forN N fuel fun j s => do
    let s ← onC (clear N i j) s
    forN N fuel (fun k => onC (multiplyAdd N A B i j k)) s) s
  forN N fuel (fun i => forN N fuel fun j s => do
    let s ← onD (clear N i j) s
    forN N fuel (fun k => onD (addDouble addTwice N A i j k)) s) s

/-- The nest of `fusion_handcode.c`. -/
def fusionHandcode (fuel : ℕ) : Arrays α → Except Fault (Arrays α) :=
  forN N fuel fun i => forN N fuel fun j s => do
    let s ← onC (clear N i j) s
    let s ← onD (clear N i j) s
    forN N fuel (fun k s => do
      let s ← onC (multiplyAdd N A B i j k) s
      onD (addDouble addTwice N A i j k) s) s

/-- What both leave: each element sums up its products in the order of `k`, from zero. -/
def fusionResult (s : Arrays α) : Arrays α where
  C := fun (i, j) =>
    if i < N ∧ j < N then rounds (List.range N) (fun k c => c + A (i, k) * B (k, j)) 0
    else s.C (i, j)
  D := fun (i, j) =>
    if i < N ∧ j < N then rounds (List.range N) (fun k d => addTwice d (A (i, k))) 0
    else s.D (i, j)

end Nests

section Loops

variable {α σ : Type} {N fuel : ℕ}

theorem forN_ok {body : ℤ → σ → Except Fault σ} {g : ℕ → σ → σ} (hfuel : N < fuel)
    (hbody : ∀ i < N, ∀ s, body i s = .ok (g i s)) (s : σ) :
    forN N fuel body s = .ok (rounds (List.range N) g s) := by
  rw [← indices_zero_one]
  refine forLoop_indices Nat.one_pos (fun i _ => by simp) hfuel ?_ s
  intro i hi s
  exact hbody i ((mem_indices Nat.one_pos).mp hi).1 s

/-- A change of one array. -/
def liftC (f : Matrix α → Matrix α) (s : Arrays α) : Arrays α := { s with C := f s.C }

def liftD (f : Matrix α → Matrix α) (s : Arrays α) : Arrays α := { s with D := f s.D }

theorem onC_ok {f : Matrix α → Except Fault (Matrix α)} {g : Matrix α → Matrix α}
    (h : ∀ X, f X = .ok (g X)) (s : Arrays α) : onC f s = .ok (liftC g s) := by
  rw [onC, h]
  rfl

theorem onD_ok {f : Matrix α → Except Fault (Matrix α)} {g : Matrix α → Matrix α}
    (h : ∀ X, f X = .ok (g X)) (s : Arrays α) : onD f s = .ok (liftD g s) := by
  rw [onD, h]
  rfl

theorem rounds_liftC {β : Type} (vs : List β) (k : β → Matrix α → Matrix α) :
    rounds vs (fun v => liftC (k v)) = liftC (rounds vs k) :=
  funext (rounds_lift (fun _ => rfl) (fun _ _ _ => rfl) k)

theorem rounds_liftD {β : Type} (vs : List β) (k : β → Matrix α → Matrix α) :
    rounds vs (fun v => liftD (k v)) = liftD (rounds vs k) :=
  funext (rounds_lift (fun _ => rfl) (fun _ _ _ => rfl) k)

/-- The legality of the fusion: no round on one array sees the other. -/
theorem rounds_fused {β : Type} (vs : List β) (f g : β → Matrix α → Matrix α) :
    rounds vs (fun v s => liftD (g v) (liftC (f v) s)) =
      fun s => liftD (rounds vs g) (liftC (rounds vs f) s) := by
  funext s
  rw [← rounds_liftC, ← rounds_liftD]
  have hcommute : ∀ v w s, liftD (g v) (liftC (f w) s) = liftC (f w) (liftD (g v) s) :=
    fun _ _ _ => rfl
  exact rounds_fuse hcommute s

end Loops

section Cells

variable {α : Type} {N : ℕ}

theorem filter_range {i : ℕ} (h : i < N) : (List.range N).filter (fun k => k = i) = [i] := by
  rw [← indices_zero_one]
  exact filter_eq_indices (Nat.zero_le i) h

/-- A nest whose rounds work on one element each. -/
theorem rounds_elements {g : ℕ → ℕ → Matrix α → Matrix α} {F : ℕ → ℕ → α → α}
    (hhere : ∀ i j, ActsAt (i, j) (g i j) (F i j))
    (helsewhere : ∀ i j c, c ≠ (i, j) → ActsAt c (g i j) id) (X : Matrix α) :
    (rounds (List.range N) fun i => rounds (List.range N) fun j => g i j) X =
      fun (i, j) => if i < N ∧ j < N then F i j (X (i, j)) else X (i, j) := by
  ext ⟨r, s⟩
  by_cases h : r < N ∧ s < N
  · refine Eq.trans ?_ (if_pos h).symm
    refine ActsAt.once (filter_range h.1) ?_ ?_ X
    · rintro i - rfl
      refine ActsAt.once (filter_range h.2) ?_ ?_
      · rintro j - rfl
        exact hhere i j
      · intro j _ hne
        exact helsewhere i j _ (by simp [Ne.symm hne])
    · intro i _ hne
      exact ActsAt.never fun j _ => helsewhere i j _ (by simp [Ne.symm hne])
  · refine Eq.trans ?_ (if_neg h).symm
    refine ActsAt.never (fun i hi => ActsAt.never fun j hj => helsewhere i j _ ?_) X
    rw [List.mem_range] at hi hj
    rintro ⟨⟩
    exact h ⟨hi, hj⟩

theorem clear_ok [Zero α] {i j : ℕ} (hi : i < N) (hj : j < N) (X : Matrix α) :
    clear N i j X = .ok (Function.update X (i, j) 0) := by
  rw [clear, subscripts_ok hi hj]
  rfl

theorem addDouble_ok (addTwice : α → α → α) (A : Matrix α) {i j k : ℕ} (hi : i < N) (hj : j < N)
    (hk : k < N) (D : Matrix α) : addDouble addTwice N A i j k D =
      .ok (Function.update D (i, j) (addTwice (D (i, j)) (A (i, k)))) := by
  rw [addDouble, subscripts_ok hi hj, subscripts_ok hi hk]
  rfl

/-- The sum for one element, from zero. -/
def sumAt (N : ℕ) (term : ℕ → α → α) [Zero α] (c : ℕ × ℕ) (X : Matrix α) : Matrix α :=
  rounds (List.range N) (fun k X => Function.update X c (term k (X c))) (Function.update X c 0)

theorem sumAt_here [Zero α] (term : ℕ → α → α) (c : ℕ × ℕ) :
    ActsAt c (sumAt N term c) fun _ => rounds (List.range N) term 0 := by
  intro X
  have hloop : ActsAt c
      (rounds (List.range N) fun k X => Function.update X c (term k (X c)))
      (rounds (List.range N) term) :=
    ActsAt.loop fun k _ X => Function.update_self c _ X
  rw [sumAt, hloop, Function.update_self]

theorem sumAt_elsewhere [Zero α] (term : ℕ → α → α) {c d : ℕ × ℕ} (h : d ≠ c) :
    ActsAt d (sumAt N term c) id := by
  intro X
  have hloop : ActsAt d
      (rounds (List.range N) fun k X => Function.update X c (term k (X c))) id :=
    ActsAt.never fun k _ X => Function.update_of_ne h _ X
  rw [sumAt, hloop, id, Function.update_of_ne h]
  rfl

end Cells

section Fusion

variable {α : Type} [Zero α] [Add α] [Mul α] (addTwice : α → α → α) (N : ℕ) (A B : Matrix α)

variable {addTwice N A B} {fuel i j : ℕ}

/-- The same sums, as the loops leave them. -/
theorem fusionResult_eq (s : Arrays α) : fusionResult addTwice N A B s =
    liftD (rounds (List.range N) fun i => rounds (List.range N) fun j =>
        sumAt N (fun k d => addTwice d (A (i, k))) (i, j))
      (liftC (rounds (List.range N) fun i => rounds (List.range N) fun j =>
        sumAt N (fun k c => c + A (i, k) * B (k, j)) (i, j)) s) := by
  rw [liftD, liftC, rounds_elements (fun i j => sumAt_here _ (i, j))
    (fun i j _ hne => sumAt_elsewhere _ hne), rounds_elements (fun i j => sumAt_here _ (i, j))
    (fun i j _ hne => sumAt_elsewhere _ hne)]
  rfl

/-- What `fusion.c` does to an element of `C`. -/
theorem elementC_ok (hfuel : N < fuel) (hi : i < N) (hj : j < N) (s : Arrays α) :
    (onC (clear N i j) s >>= forN N fuel fun k => onC (multiplyAdd N A B i j k)) =
      .ok (liftC (sumAt N (fun k c => c + A (i, k) * B (k, j)) (i, j)) s) := by
  rw [onC_ok (clear_ok hi hj)]
  refine (forN_ok hfuel (fun k hk => onC_ok (multiplyAdd_ok hi hj hk)) _).trans ?_
  rw [rounds_liftC]
  rfl

omit [Add α] [Mul α] in
theorem elementD_ok (hfuel : N < fuel) (hi : i < N) (hj : j < N) (s : Arrays α) :
    (onD (clear N i j) s >>= forN N fuel fun k => onD (addDouble addTwice N A i j k)) =
      .ok (liftD (sumAt N (fun k d => addTwice d (A (i, k))) (i, j)) s) := by
  rw [onD_ok (clear_ok hi hj)]
  refine (forN_ok hfuel (fun k hk => onD_ok (addDouble_ok addTwice A hi hj hk)) _).trans ?_
  rw [rounds_liftD]
  rfl

/-- What `fusion_handcode.c` does to both. -/
theorem elements_ok (hfuel : N < fuel) (hi : i < N) (hj : j < N) (s : Arrays α) :
    (do
      let s ← onC (clear N i j) s
      let s ← onD (clear N i j) s
      forN N fuel (fun k s => do
        let s ← onC (multiplyAdd N A B i j k) s
        onD (addDouble addTwice N A i j k) s) s) =
      .ok (liftD (sumAt N (fun k d => addTwice d (A (i, k))) (i, j))
        (liftC (sumAt N (fun k c => c + A (i, k) * B (k, j)) (i, j)) s)) := by
  have hround : ∀ k < N, ∀ s, (do
      let s ← onC (multiplyAdd N A B i j k) s
      onD (addDouble addTwice N A i j k) s) = .ok (liftD
        (fun D => Function.update D (i, j) (addTwice (D (i, j)) (A (i, k))))
          (liftC (update A B i j k) s)) := by
    intro k hk s
    rw [onC_ok (multiplyAdd_ok hi hj hk)]
    exact onD_ok (addDouble_ok addTwice A hi hj hk) _
  rw [onC_ok (clear_ok hi hj)]
  refine (congrArg (· >>= _) (onD_ok (clear_ok hi hj) _)).trans ?_
  refine (forN_ok hfuel hround _).trans ?_
  rw [rounds_fused]
  rfl

theorem fusion_ok (hfuel : N < fuel) (s : Arrays α) :
    fusion addTwice N A B fuel s = .ok (fusionResult addTwice N A B s) := by
  rw [fusionResult_eq, fusion]
  refine (congrArg (· >>= _) (forN_ok hfuel (fun i hi => forN_ok hfuel fun j hj =>
    elementC_ok hfuel hi hj) s)).trans ?_
  refine (forN_ok hfuel (fun i hi => forN_ok hfuel fun j hj => elementD_ok hfuel hi hj) _).trans ?_
  simp only [rounds_liftC, rounds_liftD]

theorem fusionHandcode_ok (hfuel : N < fuel) (s : Arrays α) :
    fusionHandcode addTwice N A B fuel s = .ok (fusionResult addTwice N A B s) := by
  rw [fusionResult_eq, fusionHandcode]
  refine (forN_ok hfuel (fun i hi => forN_ok hfuel fun j hj => elements_ok hfuel hi hj) s).trans ?_
  simp only [rounds_fused]

end Fusion

section Main

variable {α : Type} [Zero α] [Add α] [Mul α]

/-- The fused nest leaves what the two nests leave, whatever the operations are. -/
theorem fusionHandcode_eq_fusion (addTwice : α → α → α) (N : ℕ) (A B : Matrix α) (fuel : ℕ)
    (hfuel : N < fuel) (s : Arrays α) :
    fusionHandcode addTwice N A B fuel s = .ok (fusionResult addTwice N A B s) ∧
      fusion addTwice N A B fuel s = .ok (fusionResult addTwice N A B s) :=
  ⟨fusionHandcode_ok hfuel s, fusion_ok hfuel s⟩

theorem fusionHandcode_eq_fusion_three :
    let A : Matrix ℕ := fun p => p.1 + p.2
    let B : Matrix ℕ := fun p => p.1 * p.2
    let s : Arrays ℕ := ⟨fun _ => 7, fun _ => 7⟩
    fusionHandcode (fun d a => d + a * 2) 3 A B 4 s =
        .ok (fusionResult (fun d a => d + a * 2) 3 A B s) ∧
      fusion (fun d a => d + a * 2) 3 A B 4 s =
        .ok (fusionResult (fun d a => d + a * 2) 3 A B s) :=
  fusionHandcode_eq_fusion _ 3 _ _ 4 (by decide) _

end Main

end Cpu0Toolchain.Polly
