import Mathlib.Data.List.Range
import Mathlib.Logic.Function.Basic

/-!
# Loops that fill an array

A memory of arrays, each with a length, and the loop that stores a value at the indices
`0, 1, …, n - 1` of one of them. The values may be computed from the array that is filled:
the loop is correct as long as the value for an index does not look at smaller ones.
-/

namespace ArrayLoop

/-- The cells of each array. Those from its length on are never read or written. -/
abbrev Memory (β α : Type) := β → ℕ → α

variable {β α : Type} [DecidableEq β]

/-- `b[i]` as a value. -/
def load (length : β → ℕ) (m : Memory β α) (b : β) (i : ℕ) : Option α :=
  if i < length b then some (m b i) else none

/-- `a[i] = v` -/
def store (length : β → ℕ) (m : Memory β α) (a : β) (i : ℕ) (v : α) : Option (Memory β α) :=
  if i < length a then some (Function.update m a (Function.update (m a) i v)) else none

/-- `for (i = 0; i < n; i++) a[i] = value;` -/
def fill (length : β → ℕ) (a : β) (value : Memory β α → ℕ → Option α) (n : ℕ) (m : Memory β α) :
    Option (Memory β α) :=
  (List.range n).foldlM (fun m i => do
    let v ← value m i
    store length m a i v) m

/-- The memory with the first cells of an array replaced. -/
def filled (m : Memory β α) (a : β) (n : ℕ) (g : ℕ → α) : Memory β α :=
  Function.update m a fun i => if i < n then g i else m a i

section Fill

variable {m : Memory β α} {a : β} {n : ℕ} {g : ℕ → α}

theorem filled_same {i : ℕ} (hi : i < n) : filled m a n g a i = g i := by
  rw [filled, Function.update_self, if_pos hi]

theorem filled_from {i : ℕ} (hi : n ≤ i) (b : β) : filled m a n g b i = m b i := by
  by_cases hb : b = a
  · subst hb
    rw [filled, Function.update_self, if_neg (Nat.not_lt.mpr hi)]
  · rw [filled, Function.update_of_ne hb]

theorem filled_of_ne {b : β} (hb : b ≠ a) : filled m a n g b = m b :=
  Function.update_of_ne hb _ _

theorem filled_zero : filled m a 0 g = m := by
  ext b i
  exact filled_from (Nat.zero_le i) b

theorem update_filled : Function.update (filled m a n g) a
    (Function.update (filled m a n g a) n (g n)) = filled m a (n + 1) g := by
  ext b i
  by_cases hb : b = a
  · subst hb
    rw [Function.update_self]
    rcases Nat.lt_trichotomy i n with hi | rfl | hi
    · rw [Function.update_of_ne (Nat.ne_of_lt hi), filled_same hi, filled_same (Nat.lt_succ_of_lt hi)]
    · rw [Function.update_self, filled_same (Nat.lt_succ_self i)]
    · rw [Function.update_of_ne (Nat.ne_of_gt hi), filled_from (Nat.le_of_lt hi), filled_from hi]
  · rw [Function.update_of_ne hb, filled_of_ne hb, filled_of_ne hb]

/-- Each round finds the cells before it replaced and all others as they were. -/
theorem fill_eq {length : β → ℕ} {value : Memory β α → ℕ → Option α} (hn : n ≤ length a)
    (hvalue : ∀ i < n, value (filled m a i g) i = some (g i)) :
    fill length a value n m = some (filled m a n g) := by
  induction n with
  | zero =>
    rw [filled_zero]
    rfl
  | succ n ih =>
    have hrounds : fill length a value n m = some (filled m a n g) :=
      ih (Nat.le_of_succ_le hn) fun i hi => hvalue i (Nat.lt_succ_of_lt hi)
    rw [fill] at hrounds ⊢
    rw [List.range_succ, List.foldlM_append, hrounds]
    simp only [Option.bind_eq_bind, Option.bind_some, List.foldlM_cons, List.foldlM_nil,
      hvalue n (Nat.lt_succ_self n), store, if_pos (Nat.lt_of_succ_le hn), update_filled]
    rfl

theorem fill_succ (length : β → ℕ) (value : Memory β α → ℕ → Option α) :
    fill length a value (n + 1) m = (fill length a value n m).bind fun m =>
      (value m n).bind fun v => store length m a n v := by
  rw [fill, List.range_succ, List.foldlM_append]
  simp only [List.foldlM_cons, List.foldlM_nil, Option.bind_eq_bind]
  rw [fill]
  congr 1
  funext m
  cases value m n with
  | none => rfl
  | some v => exact Option.bind_fun_some _

/-- A loop that goes on past the array does not end. -/
theorem fill_none {length : β → ℕ} (value : Memory β α → ℕ → Option α) (h : length a < n) :
    fill length a value n m = none := by
  induction n with
  | zero => exact absurd h (Nat.not_lt_zero _)
  | succ n ih =>
    rw [fill_succ]
    by_cases hn : length a < n
    · rw [ih hn, Option.bind_none]
    · have hstore : ∀ m : Memory β α, ∀ v, store length m a n v = none :=
        fun _ _ => if_neg (by omega)
      cases fill length a value n m with
      | none => rfl
      | some m =>
        rw [Option.bind_some]
        cases value m n with
        | none => rfl
        | some v => exact hstore m v

theorem load_filled {length : β → ℕ} {b : β} (hb : n < length b) :
    load length (filled m a n g) b n = some (m b n) := by
  rw [load, if_pos hb, filled_from le_rfl]

end Fill

end ArrayLoop
