import Mathlib.Logic.Function.Basic
import Mathlib.Order.Lattice
import Mathlib.Data.List.Basic

/-!
# Writing below a limit

A cursor that moves through a memory and writes as long as it is below a limit, as
the formatted printing functions of C do with a buffer. What is written past the
limit is lost without a trace.
-/

namespace BoundedWriter

structure Writer (α : Type*) where
  mem : ℕ → α
  pos : ℕ

variable {α : Type*} (limit : ℕ)

def write (a : α) (w : Writer α) : Writer α :=
  if w.pos < limit then ⟨Function.update w.mem w.pos a, w.pos + 1⟩ else w

def writeAll (cells : List α) (w : Writer α) : Writer α :=
  cells.foldl (fun w a => write limit a w) w

@[simp] theorem writeAll_nil (w : Writer α) : writeAll limit [] w = w := rfl

@[simp] theorem writeAll_cons (a : α) (cells : List α) (w : Writer α) :
    writeAll limit (a :: cells) w = writeAll limit cells (write limit a w) := rfl

theorem writeAll_append (xs ys : List α) (w : Writer α) :
    writeAll limit (xs ++ ys) w = writeAll limit ys (writeAll limit xs w) :=
  List.foldl_append

theorem write_pos {a : α} {w : Writer α} (h : w.pos ≤ limit) :
    (write limit a w).pos = min limit (w.pos + 1) := by
  rw [write]
  split
  · next hlt => exact (Nat.min_eq_right hlt).symm
  · next hge => rw [Nat.min_eq_left (by omega)]; omega

/-- The cursor stops at the limit. -/
theorem writeAll_pos {cells : List α} {w : Writer α} (h : w.pos ≤ limit) :
    (writeAll limit cells w).pos = min limit (w.pos + cells.length) := by
  induction cells generalizing w with
  | nil => exact (Nat.min_eq_right h).symm
  | cons a cells ih =>
    have hw := write_pos limit (a := a) h
    rw [writeAll_cons, ih (by rw [hw]; exact Nat.min_le_left _ _), hw, List.length_cons]
    omega

/-- The memory afterwards: below the limit the cells from the old cursor on, and what was
there before everywhere else. -/
theorem writeAll_mem {cells : List α} {w : Writer α} (i : ℕ) :
    (writeAll limit cells w).mem i =
      if w.pos ≤ i ∧ i < limit then cells[i - w.pos]?.getD (w.mem i) else w.mem i := by
  induction cells generalizing w with
  | nil => simp
  | cons a cells ih =>
    rw [writeAll_cons, ih, write]
    by_cases hlt : w.pos < limit
    · rw [if_pos hlt]
      dsimp only
      rcases Nat.lt_trichotomy i w.pos with hi | rfl | hi
      · rw [if_neg (by omega), if_neg (by omega)]
        exact Function.update_of_ne (by omega) _ _
      · rw [if_neg (by omega), if_pos ⟨le_rfl, hlt⟩, Nat.sub_self]
        exact Function.update_self _ _ _
      · rw [Function.update_of_ne (by omega), show i - w.pos = i - (w.pos + 1) + 1 by omega,
          List.getElem?_cons_succ]
        by_cases hin : i < limit
        · rw [if_pos (by omega), if_pos (by omega)]
        · rw [if_neg (by omega), if_neg (by omega)]
    · rw [if_neg hlt, if_neg (by omega), if_neg (by omega)]

/-- Cells written from the start of the memory, and a terminator for which one place more
is left: what fits is there, then the terminator, and behind the limit nothing changes. -/
theorem terminated (stop : α) (cells : List α) (mem : ℕ → α) :
    let w := write (limit + 1) stop (writeAll limit cells ⟨mem, 0⟩)
    (∀ i < min cells.length limit, cells[i]? = some (w.mem i)) ∧
      w.mem (min cells.length limit) = stop ∧ ∀ i, limit + 1 ≤ i → w.mem i = mem i := by
  intro w
  have hpos : (writeAll limit cells ⟨mem, 0⟩).pos = min cells.length limit := by
    rw [writeAll_pos limit (Nat.zero_le _), Nat.zero_add, Nat.min_comm]
  have hw : w = ⟨Function.update (writeAll limit cells ⟨mem, 0⟩).mem (min cells.length limit) stop,
      min cells.length limit + 1⟩ := by
    rw [← hpos]
    exact if_pos (by rw [hpos]; omega)
  rw [hw]
  refine ⟨?_, Function.update_self _ _ _, ?_⟩
  · intro i hi
    dsimp only
    rw [Function.update_of_ne (by omega), writeAll_mem, if_pos ⟨Nat.zero_le i, by omega⟩,
      Nat.sub_zero, List.getElem?_eq_getElem (by omega), Option.getD_some]
  · intro i hi
    dsimp only
    rw [Function.update_of_ne (by omega), writeAll_mem, if_neg (by omega)]

end BoundedWriter
