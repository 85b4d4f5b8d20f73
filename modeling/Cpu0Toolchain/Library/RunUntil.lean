import Mathlib.Logic.Basic
import Mathlib.Data.Nat.Init

/-!
# Running a machine up to a last step

For a machine with a partial step function, `Ends` relates a state to the one the
machine is in after the first step it makes from a state that is marked as last.

`Run` lets interrupts come in between: from a state of a window the machine may be put
into another state. A run without interrupts ends as `Ends` says; a run with some stays
within whatever an interrupt establishes and a step keeps.
-/

namespace RunUntil

variable {σ : Type*} (step : σ → Option σ) (last : σ → Prop)

inductive Ends : σ → σ → Prop
  | last {s t : σ} (hlast : last s) (hstep : step s = some t) : Ends s t
  | more {s u t : σ} (hmore : ¬last s) (hstep : step s = some u) (hrest : Ends u t) : Ends s t

variable {step last}

/-- From a last state there is one step. -/
theorem ends_iff_of_last {s t : σ} (hlast : last s) : Ends step last s t ↔ step s = some t := by
  constructor
  · intro h
    cases h with
    | last _ hstep => exact hstep
    | more hmore => exact absurd hlast hmore
  · exact Ends.last hlast

/-- From any other state the run goes on behind the step. -/
theorem ends_iff_of_step {s u t : σ} (hmore : ¬last s) (hstep : step s = some u) :
    Ends step last s t ↔ Ends step last u t := by
  constructor
  · intro h
    cases h with
    | last hlast => exact absurd hlast hmore
    | more _ hstep' hrest =>
      obtain rfl := Option.some.inj (hstep.symm.trans hstep')
      exact hrest
  · exact Ends.more hmore hstep

/-! ## Interrupts -/

section Interrupts

variable (step last) (window : σ → Prop) (interrupt : σ → σ)

/-- Runs with a number of interrupts. Without any, the run is over at the first last state. -/
inductive Run (s : σ) : ℕ → σ → Prop
  | start : Run s 0 s
  | step {k : ℕ} {t u : σ} (h : Run s k t) (hmore : k = 0 → ¬last t) (hstep : step t = some u) :
    Run s k u
  | interrupt {k : ℕ} {t : σ} (h : Run s k t) (hwindow : window t) : Run s (k + 1) (interrupt t)

/-- The machine makes a step from a last state. -/
def Resumes (s : σ) (k : ℕ) (t : σ) : Prop :=
  ∃ m, Run step last window interrupt s k m ∧ last m ∧ step m = some t

variable {step last window interrupt}

theorem Run.cons {s u m : σ} {k : ℕ} (hmore : ¬last s) (hstep : step s = some u)
    (h : Run step last window interrupt u k m) : Run step last window interrupt s k m := by
  induction h with
  | start => exact .step .start (fun _ => hmore) hstep
  | step _ hmore' hstep' ih => exact .step ih hmore' hstep'
  | interrupt _ hwindow ih => exact .interrupt ih hwindow

theorem Run.ends {s m t : σ} {k : ℕ} (h : Run step last window interrupt s k m) (hk : k = 0)
    (hends : Ends step last m t) : Ends step last s t := by
  induction h with
  | start => exact hends
  | step _ hmore hstep ih => exact ih hk (.more (hmore hk) hstep hends)
  | interrupt => exact absurd hk (Nat.succ_ne_zero _)

theorem resumes_zero_iff {s t : σ} :
    Resumes step last window interrupt s 0 t ↔ Ends step last s t := by
  constructor
  · rintro ⟨m, hrun, hlast, hstep⟩
    exact hrun.ends rfl (.last hlast hstep)
  · intro h
    induction h with
    | last hlast hstep => exact ⟨_, .start, hlast, hstep⟩
    | more hmore hstep _ ih =>
      obtain ⟨m, hrun, hlast, hend⟩ := ih
      exact ⟨m, hrun.cons hmore hstep, hlast, hend⟩

/-- What an interrupt establishes and a step keeps holds after the first interrupt. -/
theorem Run.invariant {P : σ → Prop} (hinterrupt : ∀ t, window t → P (interrupt t))
    (hstep : ∀ t u, P t → step t = some u → P u) {s m : σ} {k : ℕ}
    (h : Run step last window interrupt s k m) (hk : k ≠ 0) : P m := by
  induction h with
  | start => exact absurd rfl hk
  | step _ _ hu ih => exact hstep _ _ (ih hk) hu
  | interrupt _ hwindow => exact hinterrupt _ hwindow

end Interrupts

end RunUntil
