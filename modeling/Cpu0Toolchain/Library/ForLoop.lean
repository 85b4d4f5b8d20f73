import Mathlib.Data.List.Range
import Mathlib.Tactic.Ring

/-!
# Counted loops and runs that may stop early

Two shapes of loop that C-like programs are made of. `ForLoop.indices` is the
list of values the counter of `for (i = start; i < stop; i += step)` takes, and
`StopRun.run` executes a body over a list until the body stops with an error.
The rules for both are stated once here, over arbitrary states and errors, and
so is how a property of every place in the list is taken apart at its head.
-/

namespace ForLoop

/-- The counter values of `for (i = start; i < stop; i += step)`. -/
def indices (start stop step : ℕ) : List ℕ :=
  List.range' start ((stop - start + step - 1) / step) step

variable {start stop step : ℕ}

/-- The test fails at once. -/
@[simp] theorem indices_of_le (h : stop ≤ start) (hs : 0 < step) : indices start stop step = [] := by
  have hn : (stop - start + step - 1) / step = 0 := Nat.div_eq_of_lt (by omega)
  simp [indices, hn]

/-- One round of the loop, then the loop from the next counter value. -/
theorem indices_of_lt (h : start < stop) (hs : 0 < step) :
    indices start stop step = start :: indices (start + step) stop step := by
  have hn : (stop - start + step - 1) / step = (stop - (start + step) + step - 1) / step + 1 := by
    by_cases hle : start + step ≤ stop
    · rw [← Nat.add_div_right _ hs]
      congr 1
      omega
    · have h0 : (stop - (start + step) + step - 1) / step = 0 := Nat.div_eq_of_lt (by omega)
      rw [h0, show stop - start + step - 1 = (stop - start - 1) + step by omega,
        Nat.add_div_right _ hs, Nat.div_eq_of_lt (by omega)]
  rw [indices, hn, List.range'_succ]
  rfl

theorem mem_indices (hs : 0 < step) {i : ℕ} :
    i ∈ indices start stop step ↔ i < stop ∧ ∃ k, i = start + step * k := by
  constructor
  · intro h
    obtain ⟨k, hk, rfl⟩ := List.mem_range'.mp h
    have h1 := (Nat.le_div_iff_mul_le hs).mp (Nat.succ_le_of_lt hk)
    rw [Nat.succ_mul, Nat.mul_comm] at h1
    exact ⟨by omega, k, rfl⟩
  · rintro ⟨hlt, k, rfl⟩
    refine List.mem_range'.mpr ⟨k, ?_, rfl⟩
    refine Nat.lt_of_succ_le ((Nat.le_div_iff_mul_le hs).mpr ?_)
    rw [Nat.succ_mul, Nat.mul_comm]
    omega

/-- A loop over a whole number of steps, split at a whole number of steps. -/
theorem indices_append (m n : ℕ) (hs : 0 < step) :
    indices start (start + step * (m + n)) step =
      indices start (start + step * m) step ++
        indices (start + step * m) (start + step * m + step * n) step := by
  have hcount : ∀ a k, (a + step * k - a + step - 1) / step = k := by
    intro a k
    rw [show a + step * k - a + step - 1 = (step - 1) + step * k by omega,
      Nat.add_mul_div_left _ _ hs, Nat.div_eq_of_lt (by omega), Nat.zero_add]
  simp only [indices, hcount]
  rw [← List.range'_append, Nat.mul_comm step m]

/-- The last round of a loop that makes one, with the rounds before it. -/
theorem exists_last_index {start stop step : ℕ} (h : start < stop) (hs : 0 < step) :
    ∃ init last, indices start stop step = init ++ [last] ∧ (∀ i ∈ init, i + step < stop) ∧
      last < stop ∧ stop ≤ last + step := by
  by_cases hnext : start + step < stop
  · obtain ⟨init, last, heq, hinit, hlast⟩ := exists_last_index hnext hs
    refine ⟨start :: init, last, by rw [indices_of_lt h hs, heq, List.cons_append], ?_, hlast⟩
    intro i hi
    rcases List.mem_cons.mp hi with rfl | hi
    · exact hnext
    · exact hinit i hi
  · refine ⟨[], start, ?_, by simp, h, by omega⟩
    rw [indices_of_lt h hs, indices_of_le (by omega) hs, List.nil_append]
termination_by stop - start

end ForLoop

namespace StopRun

variable {σ ε α : Type*}

/-- Run the body over the list, threading the state, until it stops. -/
def run (body : σ → α → Except ε σ) : σ → List α → Except ε σ
  | s, [] => .ok s
  | s, a :: rest =>
    match body s a with
    | .ok s' => run body s' rest
    | .error e => .error e

variable {body : σ → α → Except ε σ}

@[simp] theorem run_nil (s : σ) : run body s [] = .ok s := rfl

theorem run_cons_ok {s s' : σ} {a : α} {rest : List α} (h : body s a = .ok s') :
    run body s (a :: rest) = run body s' rest := by
  simp [run, h]

theorem run_cons_error {s : σ} {e : ε} {a : α} {rest : List α} (h : body s a = .error e) :
    run body s (a :: rest) = .error e := by
  simp [run, h]

/-- A run that ends well made a first round that ended well. -/
theorem run_cons_inv {s t : σ} {a : α} {rest : List α} (h : run body s (a :: rest) = .ok t) :
    ∃ s', body s a = .ok s' ∧ run body s' rest = .ok t := by
  cases hb : body s a with
  | ok s' => exact ⟨s', rfl, by rwa [run_cons_ok hb] at h⟩
  | error e => rw [run_cons_error hb] at h; cases h

theorem run_append_ok {s t : σ} {xs ys : List α} (h : run body s xs = .ok t) :
    run body s (xs ++ ys) = run body t ys := by
  induction xs generalizing s with
  | nil => cases h; rfl
  | cons x xs ih =>
    obtain ⟨s', hb, hrest⟩ := run_cons_inv h
    rw [List.cons_append, run_cons_ok hb, ih hrest]

theorem run_append_error {s : σ} {e : ε} {xs ys : List α} (h : run body s xs = .error e) :
    run body s (xs ++ ys) = .error e := by
  induction xs generalizing s with
  | nil => cases h
  | cons x xs ih =>
    cases hb : body s x with
    | ok s' => rw [run_cons_ok hb] at h; rw [List.cons_append, run_cons_ok hb, ih h]
    | error e' => rw [run_cons_error hb] at h; rw [List.cons_append, run_cons_error hb, h]

theorem run_append (s : σ) (xs ys : List α) :
    run body s (xs ++ ys) = run body s xs >>= fun t => run body t ys := by
  cases h : run body s xs with
  | ok t => exact run_append_ok h
  | error e => exact run_append_error h

/-- A run over a concatenation that ends well passes through a middle state. -/
theorem run_append_inv {s t : σ} {xs ys : List α} (h : run body s (xs ++ ys) = .ok t) :
    ∃ u, run body s xs = .ok u ∧ run body u ys = .ok t := by
  cases hx : run body s xs with
  | ok u => exact ⟨u, rfl, by rwa [run_append_ok hx] at h⟩
  | error e => rw [run_append_error hx] at h; cases h

/-- Invariant rule. What the body keeps on every element of the list, the run keeps. -/
theorem run_invariant (P : σ → Prop) {xs : List α} {s t : σ}
    (hbody : ∀ a ∈ xs, ∀ u v, P u → body u a = .ok v → P v)
    (hs : P s) (h : run body s xs = .ok t) : P t := by
  induction xs generalizing s with
  | nil => cases h; exact hs
  | cons x xs ih =>
    obtain ⟨s', hb, hrest⟩ := run_cons_inv h
    exact ih (fun a ha => hbody a (List.mem_cons_of_mem _ ha))
      (hbody x List.mem_cons_self s s' hs hb) hrest

/-- Total rule. A body that never stops from a state that satisfies the invariant
carries the run through the whole list. -/
theorem run_total (P : σ → Prop) {xs : List α} {s : σ}
    (hbody : ∀ a ∈ xs, ∀ u, P u → ∃ v, body u a = .ok v ∧ P v)
    (hs : P s) : ∃ t, run body s xs = .ok t ∧ P t := by
  induction xs generalizing s with
  | nil => exact ⟨s, rfl, hs⟩
  | cons x xs ih =>
    obtain ⟨s', hb, hs'⟩ := hbody x List.mem_cons_self s hs
    obtain ⟨t, ht, hp⟩ := ih (fun a ha => hbody a (List.mem_cons_of_mem _ ha)) hs'
    exact ⟨t, by rw [run_cons_ok hb, ht], hp⟩

/-- A run that ends well had every element's round end well. -/
theorem run_ok_mem {xs : List α} {s t : σ} (h : run body s xs = .ok t) {a : α} (ha : a ∈ xs) :
    ∃ u v, body u a = .ok v := by
  induction xs generalizing s with
  | nil => cases ha
  | cons x xs ih =>
    obtain ⟨s', hb, hrest⟩ := run_cons_inv h
    rcases List.mem_cons.mp ha with rfl | ha
    · exact ⟨s, s', hb⟩
    · exact ih hrest ha

/-- The state a computation ends in, whether it ends well or stops. -/
def final : Except (ε × σ) σ → σ
  | .ok s => s
  | .error (_, s) => s

/-- Invariant rule for a run that may stop: what the body keeps however it ends, the run
keeps however it ends. -/
theorem run_final {body : σ → α → Except (ε × σ) σ} (P : σ → Prop) {xs : List α} {s : σ}
    (hbody : ∀ a ∈ xs, ∀ u, P u → P (final (body u a))) (hs : P s) :
    P (final (run body s xs)) := by
  induction xs generalizing s with
  | nil => exact hs
  | cons x xs ih =>
    have hx := hbody x List.mem_cons_self s hs
    cases hb : body s x with
    | ok s' =>
      rw [hb] at hx
      rw [run_cons_ok hb]
      exact ih (fun a ha => hbody a (List.mem_cons_of_mem _ ha)) hx
    | error e =>
      rw [hb] at hx
      rw [run_cons_error hb]
      exact hx

section Places

variable {ι κ : Type*} {f : ι → κ → α} {P : List α → ι → κ → List α → Prop}

theorem forall_places_nil :
    ∀ before i j after, [] = before ++ f i j :: after → P before i j after := by
  intro before i j after hsplit
  cases before <;> cases hsplit

/-- What holds of every element of the form `f i j`, with what stands before it and behind it,
holds at the head of the list and of every such element behind the head. -/
theorem forall_places_cons {a : α} {rest : List α} :
    (∀ before i j after, a :: rest = before ++ f i j :: after → P before i j after) ↔
      (∀ i j, a = f i j → P [] i j rest) ∧
        ∀ before i j after, rest = before ++ f i j :: after → P (a :: before) i j after := by
  constructor
  · intro h
    refine ⟨fun i j hhead => h [] i j rest (congrArg (· :: rest) hhead), ?_⟩
    rintro before i j after rfl
    exact h (a :: before) i j after rfl
  · rintro ⟨hhead, hrest⟩ before i j after hsplit
    cases before with
    | nil =>
      obtain ⟨hfirst, rfl⟩ := List.cons.inj hsplit
      exact hhead i j hfirst
    | cons first before =>
      obtain ⟨rfl, rfl⟩ := List.cons.inj hsplit
      exact hrest before i j after rfl

end Places

/-- A property of every state the run passes through, the first and the last included. -/
def Always (body : σ → α → Except ε σ) (P : σ → Prop) (s : σ) (xs : List α) : Prop :=
  ∀ done left, xs = done ++ left → ∀ t, run body s done = .ok t → P t

theorem always_nil {P : σ → Prop} {s : σ} (h : P s) : Always body P s [] := by
  intro done left hsplit t ht
  obtain ⟨rfl, -⟩ := List.append_eq_nil_iff.mp hsplit.symm
  cases ht
  exact h

theorem always_cons {P : σ → Prop} {s : σ} {a : α} {rest : List α} (h : P s)
    (hrest : ∀ t, body s a = .ok t → Always body P t rest) : Always body P s (a :: rest) := by
  intro done left hsplit t ht
  cases done with
  | nil => cases ht; exact h
  | cons d done =>
    rw [List.cons_append, List.cons.injEq] at hsplit
    obtain ⟨rfl, hsplit⟩ := hsplit
    obtain ⟨u, hu, hrun⟩ := run_cons_inv ht
    exact hrest u hu done left hsplit t hrun

theorem always_append {P : σ → Prop} {s : σ} {xs ys : List α} (hx : Always body P s xs)
    (hy : ∀ t, run body s xs = .ok t → Always body P t ys) : Always body P s (xs ++ ys) := by
  induction xs generalizing s with
  | nil => exact hy s rfl
  | cons x xs ih =>
    refine always_cons (hx [] _ rfl s rfl) fun t ht => ih ?_ ?_
    · intro done left hsplit u hu
      exact hx (x :: done) left (by rw [hsplit, List.cons_append]) u (by rw [run_cons_ok ht, hu])
    · intro u hu
      exact hy u (by rw [run_cons_ok ht, hu])

end StopRun
