import Cpu0Toolchain.Library.ForLoop
import Mathlib.Data.Int.Order.Basic

/-!
# Nests of counted loops

The `for` loop of C over an integer counter, the list of values its counter takes, the tiles
that a blocked loop cuts a range into, and what a nest of loops does to one cell of the memory
it works on. Two nests are compared cell by cell, so nothing is asked of the operations.
-/

namespace LoopNest

section Loop

variable {σ ε : Type}

/-- `for (i = start; test; i = next) body`. The loop is `stuck` when its test still holds
after so many rounds. -/
def forLoop (stuck : ε) (test : ℤ → Bool) (next : ℤ → ℤ) (body : ℤ → σ → Except ε σ) :
    ℕ → ℤ → σ → Except ε σ
  | 0, _, _ => .error stuck
  | fuel + 1, i, s =>
    if test i then do
      let s ← body i s
      forLoop stuck test next body fuel (next i) s
    else .ok s

/-- One round for each element, in order. -/
def rounds {β : Type} (vs : List β) (g : β → σ → σ) (s : σ) : σ :=
  vs.foldl (fun s v => g v s) s

theorem rounds_append {β : Type} (vs ws : List β) (g : β → σ → σ) (s : σ) :
    rounds (vs ++ ws) g s = rounds ws g (rounds vs g s) := List.foldl_append

/-- The counter takes these values, and then the test fails. -/
inductive Counts (test : ℤ → Bool) (next : ℤ → ℤ) : ℤ → List ℕ → Prop
  | stop {i : ℤ} : test i = false → Counts test next i []
  | round {i : ℕ} {is : List ℕ} : test i = true → Counts test next (next i) is →
      Counts test next i (i :: is)

variable {test : ℤ → Bool} {next : ℤ → ℤ} {body : ℤ → σ → Except ε σ} {g : ℕ → σ → σ}

/-- A loop whose body never fails ends, and has made one round for each counter value. -/
theorem forLoop_ok {stuck : ε} {fuel : ℕ} {start : ℤ} {is : List ℕ}
    (hcounts : Counts test next start is) (hfuel : is.length < fuel)
    (hbody : ∀ i ∈ is, ∀ s, body i s = .ok (g i s)) (s : σ) :
    forLoop stuck test next body fuel start s = .ok (rounds is g s) := by
  induction hcounts generalizing fuel s with
  | stop htest =>
    obtain ⟨fuel, rfl⟩ := Nat.exists_eq_succ_of_ne_zero (Nat.ne_of_gt hfuel)
    rw [forLoop, htest, if_neg Bool.false_ne_true]
    rfl
  | @round i is htest hrest ih =>
    obtain ⟨fuel, rfl⟩ := Nat.exists_eq_succ_of_ne_zero (Nat.ne_of_gt (Nat.zero_lt_of_lt hfuel))
    rw [forLoop, if_pos htest, hbody i List.mem_cons_self s]
    exact ih (Nat.lt_of_succ_lt_succ hfuel)
      (fun j hj => hbody j (List.mem_cons_of_mem i hj)) (g i s)

/-- The counter of `for (i = start; i < stop; i += step)`, the test spelled in any way. -/
theorem counts_indices {start stop step : ℕ} (hstep : 0 < step)
    (htest : ∀ i : ℕ, start ≤ i → (test i = true ↔ i < stop)) :
    Counts test (· + (step : ℤ)) start (ForLoop.indices start stop step) := by
  by_cases h : start < stop
  · rw [ForLoop.indices_of_lt h hstep]
    refine .round ((htest start le_rfl).mpr h) ?_
    have hrest : Counts test (· + (step : ℤ)) (start + step : ℕ)
        (ForLoop.indices (start + step) stop step) :=
      counts_indices hstep fun i hi => htest i (Nat.le_of_add_right_le hi)
    rwa [Nat.cast_add] at hrest
  · rw [ForLoop.indices_of_le (Nat.not_lt.mp h) hstep]
    refine .stop (Bool.eq_false_iff.mpr fun htrue => h ((htest start le_rfl).mp htrue))
termination_by stop - start

end Loop

section Tiles

open ForLoop

theorem length_indices_le {start stop step : ℕ} (hs : 0 < step) :
    (indices start stop step).length ≤ stop - start := by
  by_cases h : start < stop
  · rw [indices_of_lt h hs, List.length_cons]
    have hrest : (indices (start + step) stop step).length ≤ stop - (start + step) :=
      length_indices_le hs
    omega
  · rw [indices_of_le (Nat.not_lt.mp h) hs]
    exact Nat.zero_le _
termination_by stop - start

/-- A loop over these indices whose body never fails. -/
theorem forLoop_indices {σ ε : Type} {stuck : ε} {test : ℤ → Bool} {body : ℤ → σ → Except ε σ}
    {g : ℕ → σ → σ} {start stop step fuel : ℕ} (hs : 0 < step)
    (htest : ∀ i : ℕ, start ≤ i → (test i = true ↔ i < stop)) (hfuel : stop - start < fuel)
    (hbody : ∀ i ∈ indices start stop step, ∀ s, body i s = .ok (g i s)) (s : σ) :
    forLoop stuck test (· + (step : ℤ)) body fuel start s =
      .ok (rounds (indices start stop step) g s) :=
  forLoop_ok (counts_indices hs htest) (Nat.lt_of_le_of_lt (length_indices_le hs) hfuel) hbody s

variable {stop step : ℕ}

/-- The indices of the tile that starts at `i`, the last one clipped. -/
def tile (stop step i : ℕ) : List ℕ :=
  indices i (min (i + step) stop) 1

theorem mem_tile {i j : ℕ} : j ∈ tile stop step i ↔ i ≤ j ∧ j < i + step ∧ j < stop := by
  rw [tile, mem_indices Nat.one_pos, lt_min_iff]
  constructor
  · rintro ⟨⟨hstep, hstop⟩, k, rfl⟩
    exact ⟨Nat.le_add_right _ _, hstep, hstop⟩
  · rintro ⟨hle, hstep, hstop⟩
    exact ⟨⟨hstep, hstop⟩, j - i, by omega⟩

theorem le_of_mem_indices {start i : ℕ} (hs : 0 < step) (h : i ∈ indices start stop step) :
    start ≤ i := by
  obtain ⟨-, k, rfl⟩ := (mem_indices hs).mp h
  exact Nat.le_add_right _ _

theorem indices_one_append {a b c : ℕ} (hab : a ≤ b) (hbc : b ≤ c) :
    indices a b 1 ++ indices b c 1 = indices a c 1 := by
  have h : indices a (a + 1 * (b - a + (c - b))) 1 = _ :=
    indices_append (b - a) (c - b) Nat.one_pos
  rw [show a + 1 * (b - a + (c - b)) = c by omega, show a + 1 * (b - a) = b by omega,
    show b + 1 * (c - b) = c by omega] at h
  exact h.symm

theorem indices_zero_one (n : ℕ) : indices 0 n 1 = List.range n := by
  rw [indices, Nat.div_one, List.range_eq_range']
  rfl

/-- The tiles, one after the other, are the whole range in order. -/
theorem flatMap_tile {start : ℕ} (hs : 0 < step) :
    (indices start stop step).flatMap (tile stop step) = indices start stop 1 := by
  by_cases h : start < stop
  · rw [indices_of_lt h hs, List.flatMap_cons, flatMap_tile hs, tile]
    by_cases hnext : start + step ≤ stop
    · rw [min_eq_left hnext, indices_one_append (Nat.le_add_right _ _) hnext]
    · rw [min_eq_right (Nat.le_of_not_le hnext), indices_of_le (Nat.le_of_not_le hnext) Nat.one_pos,
        List.append_nil]
  · rw [indices_of_le (Nat.not_lt.mp h) hs, indices_of_le (Nat.not_lt.mp h) Nat.one_pos]
    rfl
termination_by stop - start

/-- Each index is in one tile. -/
theorem exists_filter_tile {start j : ℕ} (hs : 0 < step) (hstart : start ≤ j) (hstop : j < stop) :
    ∃ i, (indices start stop step).filter (fun i => j ∈ tile stop step i) = [i] := by
  rw [indices_of_lt (Nat.lt_of_le_of_lt hstart hstop) hs]
  by_cases hnext : j < start + step
  · refine ⟨start, ?_⟩
    rw [List.filter_cons_of_pos (by simpa [mem_tile] using ⟨hstart, hnext, hstop⟩),
      List.filter_eq_nil_iff.mpr]
    -- the later tiles start behind `j`
    intro i hi
    have hle := le_of_mem_indices hs hi
    simpa [mem_tile] using fun hij => absurd hij (by omega)
  · have hle : start + step ≤ j := Nat.not_lt.mp hnext
    obtain ⟨i, hi⟩ := exists_filter_tile hs hle hstop
    refine ⟨i, ?_⟩
    rw [List.filter_cons_of_neg (by simpa [mem_tile] using fun _ h => absurd h hnext), hi]
termination_by stop - start

/-- An index of the range is the counter of one round. -/
theorem filter_eq_indices {start j : ℕ} (hstart : start ≤ j) (hstop : j < stop) :
    (indices start stop 1).filter (fun i => i = j) = [j] := by
  obtain ⟨i, hi⟩ := exists_filter_tile Nat.one_pos hstart hstop
  -- a tile of one index holds `j` exactly when it is that of `j`
  have hcongr : ∀ k ∈ indices start stop 1, decide (k = j) = decide (j ∈ tile stop 1 k) := by
    intro k _
    rw [decide_eq_decide, mem_tile]
    omega
  have hmem : i ∈ (indices start stop 1).filter (fun i => j ∈ tile stop 1 i) := by
    rw [hi]
    exact List.mem_singleton_self i
  have hij : i = j := by
    have h := mem_tile.mp (of_decide_eq_true (List.mem_filter.mp hmem).2)
    omega
  rw [List.filter_congr hcongr, hi, hij]

end Tiles

section Cells

variable {κ α β : Type} {c : κ} {vs : List β} {g : β → (κ → α) → κ → α} {F : α → α}

/-- What is in the cell behind `f` depends on nothing but what was in it before. -/
def ActsAt (c : κ) (f : (κ → α) → κ → α) (h : α → α) : Prop :=
  ∀ m, f m c = h (m c)

/-- A loop does to a cell what its rounds do to it, in their order. -/
theorem ActsAt.loop {h : β → α → α} (hg : ∀ v ∈ vs, ActsAt c (g v) (h v)) :
    ActsAt c (rounds vs g) (rounds vs h) := by
  intro m
  induction vs generalizing m with
  | nil => rfl
  | cons v vs ih =>
    have hrest := ih (fun w hw => hg w (List.mem_cons_of_mem v hw)) (g v m)
    rw [hg v List.mem_cons_self m] at hrest
    exact hrest

/-- A loop none of whose rounds touches the cell. -/
theorem ActsAt.never (hg : ∀ v ∈ vs, ActsAt c (g v) id) : ActsAt c (rounds vs g) id := by
  intro m
  rw [ActsAt.loop hg m]
  exact List.foldl_fixed' (fun _ => rfl) vs

/-- A loop with one round that touches the cell. -/
theorem ActsAt.once {p : β → Prop} [DecidablePred p] {w : β} (hone : vs.filter (fun v => p v) = [w])
    (hpos : ∀ v ∈ vs, p v → ActsAt c (g v) F) (hneg : ∀ v ∈ vs, ¬p v → ActsAt c (g v) id) :
    ActsAt c (rounds vs g) F := by
  intro m
  have hrounds : ∀ v ∈ vs, ActsAt c (g v) fun a => if decide (p v) = true then F a else a := by
    intro v hv m
    change g v m c = if decide (p v) = true then F (m c) else m c
    by_cases h : p v
    · rw [if_pos (decide_eq_true h), hpos v hv h m]
    · rw [if_neg (by rwa [decide_eq_true_eq]), hneg v hv h m]
      rfl
  rw [ActsAt.loop hrounds m]
  change vs.foldl (fun a v => if decide (p v) = true then F a else a) (m c) = F (m c)
  rw [← List.foldl_filter (p := fun v => decide (p v)) (f := fun a _ => F a), hone]
  rfl

/-- Loops over the parts of a list, one part after the other, are one loop over it. -/
theorem rounds_flatMap {γ : Type} (part : β → List γ) (h : γ → α → α) (a : α) :
    rounds vs (fun v => rounds (part v) h) a = rounds (vs.flatMap part) h a := by
  induction vs generalizing a with
  | nil => rfl
  | cons v vs ih =>
    rw [List.flatMap_cons, rounds_append]
    exact ih _

end Cells

section Fusion

variable {σ τ β : Type} {vs : List β} {f g : β → σ → σ}

/-- Two loops may be one when every round of the second commutes with every later round of the
first. -/
theorem rounds_fuse (h : ∀ v w s, g v (f w s) = f w (g v s)) (s : σ) :
    rounds vs (fun v s => g v (f v s)) s = rounds vs g (rounds vs f s) := by
  have hpast : ∀ (ws : List β) v s, g v (rounds ws f s) = rounds ws f (g v s) := by
    intro ws v
    induction ws with
    | nil => exact fun _ => rfl
    | cons w ws ih => exact fun s => (ih (f w s)).trans (congrArg (rounds ws f) (h v w s))
  induction vs generalizing s with
  | nil => rfl
  | cons v vs ih =>
    have hfirst := hpast vs v (f v s)
    calc rounds vs (fun v s => g v (f v s)) (g v (f v s))
        = rounds vs g (rounds vs f (g v (f v s))) := ih _
      _ = rounds vs g (g v (rounds vs f (f v s))) := by rw [hfirst]

/-- A loop on a part of the state is a loop on that part. -/
theorem rounds_lift {lift : (τ → τ) → σ → σ} (hid : ∀ s, lift id s = s)
    (hcomp : ∀ a b s, lift a (lift b s) = lift (a ∘ b) s) (k : β → τ → τ) (s : σ) :
    rounds vs (fun v => lift (k v)) s = lift (rounds vs k) s := by
  induction vs generalizing s with
  | nil => exact (hid s).symm
  | cons v vs ih => exact (ih _).trans (hcomp _ _ s)

end Fusion

end LoopNest
