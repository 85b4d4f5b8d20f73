import Cpu0Toolchain.ClangTools.VectorDsl

/-!
# When the vector DSL computes with values

The reference is an expression over the elements of the variables. The program agrees with
it as long as no operator overwrites the array `t` while a value in it is still needed.

## Main results

- `eval_yields`: an expression whose operands are spared refers to its value.
- `valueSemantics_of_sparing`: a run of such assignments computes with values.
-/

namespace Cpu0Toolchain.ClangTools
open ArrayLoop

variable {V : Type}

/-! ## The reference -/

namespace Expr

/-- An element of the expression, from the elements of the variables. -/
def denote (σ : V → UInt32) : Expr V → UInt32
  | var x => σ x
  | scaleLeft scalar e => scalar * e.denote σ
  | scaleRight e scalar => e.denote σ * scalar
  | mul _ l r => l.denote σ * r.denote σ
  | plus _ l r => l.denote σ + r.denote σ

/-- The expression calls an operator, and so writes to `t`. -/
def Compound : Expr V → Prop
  | var _ => False
  | _ => True

/-- What one operand holds is not overwritten by the other: only one of them calls an
operator, and the variable beside it does not point to `t`. -/
def OperandsSpared (shared : V → Prop) : Expr V → Expr V → Prop
  | var x, e => e.Compound → ¬shared x
  | _, var y => ¬shared y
  | _, _ => False

def Spared (shared : V → Prop) : Expr V → Prop
  | var _ => True
  | scaleLeft _ e => e.Spared shared
  | scaleRight e _ => e.Spared shared
  | mul _ l r => l.Spared shared ∧ r.Spared shared ∧ OperandsSpared shared l r
  | plus _ l r => l.Spared shared ∧ r.Spared shared ∧ OperandsSpared shared l r

section Mono

variable {shared shared' : V → Prop} (h : ∀ x, shared x → shared' x)
include h

theorem OperandsSpared.mono {l r : Expr V} (hspared : OperandsSpared shared' l r) :
    OperandsSpared shared l r := by
  cases l with
  | var x => exact fun he hx => hspared he (h x hx)
  | _ =>
    cases r with
    | var y => exact fun hy => hspared (h y hy)
    | _ => exact hspared

/-- Fewer variables that point to `t` are less to spare. -/
theorem Spared.mono {e : Expr V} (hspared : e.Spared shared') : e.Spared shared := by
  induction e with
  | var x => trivial
  | scaleLeft scalar e ih => exact ih hspared
  | scaleRight e scalar ih => exact ih hspared
  | mul _ l r ihl ihr =>
    exact ⟨ihl hspared.1, ihr hspared.2.1, OperandsSpared.mono h hspared.2.2⟩
  | plus _ l r ihl ihr =>
    exact ⟨ihl hspared.1, ihr hspared.2.1, OperandsSpared.mono h hspared.2.2⟩

end Mono

end Expr

variable [DecidableEq V]

namespace State

/-- The variable points to the array `t`. -/
def Shared (st : State V) (x : V) : Prop := (st.vars x).data = .t

/-- The assignment spares its operands, and what the other variables hold. -/
def Sparing (st : State V) (a : Assignment V) : Prop :=
  a.source.Spared st.Shared ∧ (a.source.Compound → ∀ y, y ≠ a.target → ¬st.Shared y)

/-- Each variable over its own array, before the first call of an operator. -/
structure Declared (n : ℕ) (st : State V) : Prop where
  vars : ∀ x, st.vars x = ⟨n, .own x⟩
  res : ∀ op, st.res op = none

/-- The target gets the value of the source, and all other variables keep theirs. -/
def AssignsValue (n : ℕ) (st : State V) (a : Assignment V) (st' : State V) : Prop :=
  (∀ i < n, st'.value a.target i = a.source.denote fun x => st.value x i) ∧
    ∀ y, y ≠ a.target → ∀ i < n, st'.value y i = st.value y i

/-- Every assignment of the run ends, and assigns a value. -/
def ValueSemantics (n : ℕ) : State V → List (Assignment V) → Prop
  | _, [] => True
  | st, a :: rest => ∃ st', st.assign n a = some st' ∧ st.AssignsValue n a st' ∧
      ValueSemantics n st' rest

/-- Every assignment of the run is sparing in the state before it. -/
def SparingRun (n : ℕ) : State V → List (Assignment V) → Prop
  | _, [] => True
  | st, a :: rest => st.Sparing a ∧ ∀ st', st.assign n a = some st' → SparingRun n st' rest

/-! ## What an operator does -/

/-- All objects have the common size, and the static ones point to `t`. -/
structure Sized (n : ℕ) (st : State V) : Prop where
  vars : ∀ x, (st.vars x).size = n
  res : ∀ op object, st.res op = some object → object = ⟨n, .t⟩

omit [DecidableEq V] in
theorem Declared.sized {n : ℕ} {st : State V} (h : st.Declared n) : st.Sized n where
  vars x := by rw [h.vars x]
  res op object hres := by
    rw [h.res op] at hres
    cases hres

/-- The state behind an operator that has put `g` into `t`. -/
def computed (st : State V) (op : Operator) (n : ℕ) (g : ℕ → UInt32) : State V :=
  { st with res := Function.update st.res op (some ⟨n, .t⟩), memory := filled st.memory .t n g }

section Operator

variable {n : ℕ} {st : State V}

@[simp] theorem computed_res (op : Operator) (g : ℕ → UInt32) :
    (st.computed op n g).res = Function.update st.res op (some ⟨n, .t⟩) := rfl

@[simp] theorem computed_memory (op : Operator) (g : ℕ → UInt32) :
    (st.computed op n g).memory = filled st.memory .t n g := rfl

@[simp] theorem deref_computed (op : Operator) (g : ℕ → UInt32) :
    (st.computed op n g).deref (.res op) = some ⟨n, .t⟩ := Function.update_self ..

omit [DecidableEq V] in
theorem le_length (hn : n ≤ 33) (b : Buffer V) : n ≤ length n b := by
  cases b with
  | t => exact hn
  | own x => exact le_rfl

theorem load_spec (hn : n ≤ 33) (b : Buffer V) (g : ℕ → UInt32) {i : ℕ} (hi : i < n) :
    load (length n) (filled st.memory .t i g) b i = some (st.memory b i) :=
  load_filled (hi.trans_le (le_length hn b))

theorem callOperator_eq (hn : n ≤ 33) (hst : st.Sized n) {op : Operator} {g : ℕ → UInt32}
    {value : Memory (Buffer V) UInt32 → ℕ → Option UInt32}
    (hvalue : ∀ i < n, value (filled st.memory .t i g) i = some (g i)) :
    st.callOperator n op n value = some (.res op, st.computed op n g) := by
  have hres : (st.res op).getD ⟨n, .t⟩ = ⟨n, .t⟩ := by
    cases h : st.res op with
    | none => rfl
    | some object => exact hst.res op object h
  have hfill : fill (length n) Buffer.t value n st.memory = some (filled st.memory .t n g) :=
    fill_eq (le_length hn _) hvalue
  simp only [callOperator, hres, hfill]
  rfl

theorem mulScalar_eq (hn : n ≤ 33) (hst : st.Sized n) {this : Place V} {b : Buffer V}
    (hthis : st.deref this = some ⟨n, b⟩) (scalar : UInt32) :
    st.mulScalar n this scalar =
      some (.res .mulScalar, st.computed .mulScalar n fun i => scalar * st.memory b i) := by
  rw [mulScalar, hthis]
  apply callOperator_eq hn hst
  intro i hi
  rw [load_spec hn b _ hi]
  rfl

theorem elementwise_eq (hn : n ≤ 33) (hst : st.Sized n) {this arg : Place V} {b c : Buffer V}
    (hthis : st.deref this = some ⟨n, b⟩) (harg : st.deref arg = some ⟨n, c⟩) (op : Operator)
    (f : UInt32 → UInt32 → UInt32) :
    st.elementwise n op f this arg =
      some (.res op, st.computed op n fun i => f (st.memory b i) (st.memory c i)) := by
  rw [elementwise, hthis, harg]
  show (if n = n then _ else none) = _
  rw [if_pos rfl]
  apply callOperator_eq hn hst
  intro i hi
  rw [load_spec hn b _ hi, load_spec hn c _ hi]
  rfl

end Operator

/-! ## Expressions -/

/-- The variables are as they were, and so are their own arrays. -/
structure Frame (n : ℕ) (st st' : State V) : Prop where
  vars : st'.vars = st.vars
  own : ∀ x, st'.memory (.own x) = st.memory (.own x)
  sized : st'.Sized n

/-- The place holds the value that the expression had in an earlier state. -/
def Holds (n : ℕ) (st st' : State V) (place : Place V) (e : Expr V) : Prop :=
  ∃ data, st'.deref place = some ⟨n, data⟩ ∧
    ∀ i < n, st'.memory data i = e.denote fun x => st.value x i

/-- What an expression refers to. A variable is no change, and an operator leaves its result
in `t`. -/
structure Yields (n : ℕ) (st : State V) (e : Expr V) (place : Place V) (st' : State V) : Prop where
  frame : st.Frame n st'
  holds : Holds n st st' place e
  unchanged : ¬e.Compound → st' = st
  result : e.Compound → st'.deref place = some ⟨n, .t⟩

section Yields

variable {n : ℕ} {st st' : State V}

omit [DecidableEq V] in
theorem Frame.refl (hst : st.Sized n) : st.Frame n st := ⟨rfl, fun _ => rfl, hst⟩

theorem Frame.computed (h : st.Frame n st') (op : Operator) (g : ℕ → UInt32) :
    st.Frame n (st'.computed op n g) := by
  refine ⟨h.vars, ?_, h.sized.vars, ?_⟩
  · intro x
    have hx : Buffer.own x ≠ .t := fun heq => by cases heq
    rw [computed_memory, filled_of_ne hx, h.own x]
  · intro op' object hobject
    by_cases hop : op' = op
    · subst hop
      rw [computed_res, Function.update_self] at hobject
      exact (Option.some.inj hobject).symm
    · rw [computed_res, Function.update_of_ne hop] at hobject
      exact h.sized.res op' object hobject

omit [DecidableEq V] in
/-- A variable that does not point to `t` holds what it held. -/
theorem Frame.holds_var (h : st.Frame n st') {x : V} (hx : st' = st ∨ ¬st.Shared x) :
    Holds n st st' (.var x) (.var x) := by
  have hobject : st'.vars x = ⟨n, (st.vars x).data⟩ := by
    rw [← h.sized.vars x, h.vars]
  refine ⟨(st.vars x).data, congrArg some hobject, ?_⟩
  intro i _
  rcases hx with rfl | hx
  · rfl
  · show st'.memory (st.vars x).data i = st.memory (st.vars x).data i
    cases hdata : (st.vars x).data with
    | t => exact absurd hdata hx
    | own y => rw [h.own y]

omit [DecidableEq V] in
theorem yields_var (hst : st.Sized n) (x : V) : Yields n st (.var x) (.var x) st where
  frame := Frame.refl hst
  holds := (Frame.refl hst).holds_var (.inl rfl)
  unchanged _ := rfl
  result h := h.elim

theorem yields_computed (h : st.Frame n st') {e : Expr V} (he : e.Compound) {op : Operator}
    {g : ℕ → UInt32} (hg : ∀ i < n, g i = e.denote fun x => st.value x i) :
    Yields n st e (.res op) (st'.computed op n g) := by
  refine ⟨h.computed op g, ⟨.t, deref_computed op g, ?_⟩, fun hnot => absurd he hnot,
    fun _ => deref_computed op g⟩
  intro i hi
  rw [computed_memory, filled_same hi, hg i hi]

omit [DecidableEq V] in
/-- A variable beside an expression keeps its value while that is evaluated, if an operator in
it does not write over it. -/
theorem Yields.holds_var {e : Expr V} {place : Place V} (h : Yields n st e place st') {x : V}
    (hx : e.Compound → ¬st.Shared x) : Holds n st st' (.var x) (.var x) := by
  apply h.frame.holds_var
  by_cases he : e.Compound
  · exact .inr (hx he)
  · exact .inl (h.unchanged he)

theorem operands_var_right {l : Expr V} {this : Place V} (y : V) (rightFirst : Bool)
    (h : eval n l st = some (this, st')) :
    operands rightFirst (eval n l) (eval n (.var y)) st = some (this, .var y, st') := by
  have hbind : operands rightFirst (eval n l) (eval n (.var y)) st =
      (eval n l st).bind fun r => some (r.1, Place.var y, r.2) := by
    cases rightFirst <;> rfl
  rw [hbind, h]
  rfl

theorem operands_var_left {r : Expr V} {arg : Place V} (x : V) (rightFirst : Bool)
    (h : eval n r st = some (arg, st')) :
    operands rightFirst (eval n (.var x)) (eval n r) st = some (.var x, arg, st') := by
  have hbind : operands rightFirst (eval n (.var x)) (eval n r) st =
      (eval n r st).bind fun r => some (Place.var x, r.1, r.2) := by
    cases rightFirst <;> rfl
  rw [hbind, h]
  rfl

/-- Both operands hold their values when the operator is called, in whichever order they
were evaluated. -/
theorem operands_spec {l r : Expr V} (hspared : Expr.OperandsSpared st.Shared l r)
    (hl : ∃ place st', eval n l st = some (place, st') ∧ Yields n st l place st')
    (hr : ∃ place st', eval n r st = some (place, st') ∧ Yields n st r place st')
    (rightFirst : Bool) :
    ∃ this arg st', operands rightFirst (eval n l) (eval n r) st = some (this, arg, st') ∧
      st.Frame n st' ∧ Holds n st st' this l ∧ Holds n st st' arg r := by
  by_cases hleft : l.Compound
  · -- the variable is on the right
    have hright : ∃ y, r = .var y ∧ ¬st.Shared y := by
      cases l with
      | var x => exact hleft.elim
      | _ =>
        cases r with
        | var y => exact ⟨y, rfl, hspared⟩
        | _ => exact hspared.elim
    obtain ⟨y, rfl, hy⟩ := hright
    obtain ⟨this, st', heval, hyields⟩ := hl
    exact ⟨this, .var y, st', operands_var_right y rightFirst heval, hyields.frame, hyields.holds,
      hyields.holds_var fun _ => hy⟩
  · have hvar : ∃ x, l = .var x := by
      cases l with
      | var x => exact ⟨x, rfl⟩
      | _ => exact absurd trivial hleft
    obtain ⟨x, rfl⟩ := hvar
    obtain ⟨arg, st', heval, hyields⟩ := hr
    exact ⟨.var x, arg, st', operands_var_left x rightFirst heval, hyields.frame,
      hyields.holds_var hspared, hyields.holds⟩

variable (hn : n ≤ 33)
include hn

theorem mulScalar_yields {e : Expr V} {place : Place V} (he : Yields n st e place st')
    (e' : Expr V) (he' : e'.Compound) (scalar : UInt32)
    (hdenote : ∀ σ, e'.denote σ = scalar * e.denote σ) :
    ∃ place' st'', st'.mulScalar n place scalar = some (place', st'') ∧
      Yields n st e' place' st'' := by
  obtain ⟨b, hb, hvalue⟩ := he.holds
  refine ⟨_, _, mulScalar_eq hn he.frame.sized hb scalar, yields_computed he.frame he' ?_⟩
  intro i hi
  rw [hvalue i hi, hdenote]

theorem elementwise_yields {l r : Expr V} {this arg : Place V} (hframe : st.Frame n st')
    (hthis : Holds n st st' this l) (harg : Holds n st st' arg r) (e : Expr V) (he : e.Compound)
    (op : Operator) (f : UInt32 → UInt32 → UInt32)
    (hdenote : ∀ σ, e.denote σ = f (l.denote σ) (r.denote σ)) :
    ∃ place st'', st'.elementwise n op f this arg = some (place, st'') ∧
      Yields n st e place st'' := by
  obtain ⟨b, hb, hleft⟩ := hthis
  obtain ⟨c, hc, hright⟩ := harg
  refine ⟨_, _, elementwise_eq hn hframe.sized hb hc op f, yields_computed hframe he ?_⟩
  intro i hi
  rw [hleft i hi, hright i hi, hdenote]

/-- An expression whose operands are spared refers to its value. -/
theorem eval_yields (hst : st.Sized n) (e : Expr V) (hspared : e.Spared st.Shared) :
    ∃ place st', eval n e st = some (place, st') ∧ Yields n st e place st' := by
  induction e with
  | var x => exact ⟨_, _, rfl, yields_var hst x⟩
  | scaleLeft scalar e ih =>
    obtain ⟨place, st₁, heval, hyields⟩ := ih hspared
    obtain ⟨place', st₂, hcall, hresult⟩ := mulScalar_yields hn hyields
      (.scaleLeft scalar e) trivial scalar fun _ => rfl
    refine ⟨place', st₂, ?_, hresult⟩
    rw [eval, heval]
    exact hcall
  | scaleRight e scalar ih =>
    obtain ⟨place, st₁, heval, hyields⟩ := ih hspared
    obtain ⟨place', st₂, hcall, hresult⟩ := mulScalar_yields hn hyields
      (.scaleRight e scalar) trivial scalar fun _ => UInt32.mul_comm ..
    refine ⟨place', st₂, ?_, hresult⟩
    rw [eval, heval]
    exact hcall
  | mul rightFirst l r ihl ihr =>
    obtain ⟨hl, hr, hboth⟩ := hspared
    obtain ⟨this, arg, st₁, hoperands, hframe, hthis, harg⟩ :=
      operands_spec hboth (ihl hl) (ihr hr) rightFirst
    obtain ⟨place, st₂, hcall, hresult⟩ := elementwise_yields hn hframe hthis harg
      (.mul rightFirst l r) trivial .mul (· * ·) fun _ => rfl
    refine ⟨place, st₂, ?_, hresult⟩
    rw [eval, hoperands]
    exact hcall
  | plus rightFirst l r ihl ihr =>
    obtain ⟨hl, hr, hboth⟩ := hspared
    obtain ⟨this, arg, st₁, hoperands, hframe, hthis, harg⟩ :=
      operands_spec hboth (ihl hl) (ihr hr) rightFirst
    obtain ⟨place, st₂, hcall, hresult⟩ := elementwise_yields hn hframe hthis harg
      (.plus rightFirst l r) trivial .plus (· + ·) fun _ => rfl
    refine ⟨place, st₂, ?_, hresult⟩
    rw [eval, hoperands]
    exact hcall

/-! ## Runs -/

/-- One sparing assignment. -/
theorem assign_value (hst : st.Sized n) {a : Assignment V} (hsparing : st.Sparing a) :
    ∃ st', st.assign n a = some st' ∧ st.AssignsValue n a st' ∧ st'.Sized n := by
  obtain ⟨place, st₁, heval, hyields⟩ := eval_yields hn hst a.source hsparing.1
  obtain ⟨data, hplace, hdata⟩ := hyields.holds
  refine ⟨{ st₁ with vars := Function.update st₁.vars a.target ⟨n, data⟩ }, ?_, ⟨?_, ?_⟩, ?_, ?_⟩
  · rw [assign, heval]
    show (do let source ← st₁.deref place; return _) = _
    rw [hplace]
    rfl
  · intro i hi
    show st₁.memory (Function.update st₁.vars a.target ⟨n, data⟩ a.target).data i = _
    rw [Function.update_self, hdata i hi]
  · intro y hy i _
    show st₁.memory (Function.update st₁.vars a.target ⟨n, data⟩ y).data i =
      st.memory (st.vars y).data i
    rw [Function.update_of_ne hy, hyields.frame.vars]
    by_cases hsource : a.source.Compound
    · cases hbuffer : (st.vars y).data with
      | t => exact absurd hbuffer (hsparing.2 hsource y hy)
      | own z => rw [hyields.frame.own z]
    · rw [hyields.unchanged hsource]
  · intro x
    show (Function.update st₁.vars a.target ⟨n, data⟩ x).size = n
    by_cases hx : x = a.target
    · rw [hx, Function.update_self]
    · rw [Function.update_of_ne hx]
      exact hyields.frame.sized.vars x
  · exact hyields.frame.sized.res

theorem sized_valueSemantics (hst : st.Sized n) (run : List (Assignment V))
    (hrun : st.SparingRun n run) : st.ValueSemantics n run := by
  induction run generalizing st with
  | nil => trivial
  | cons a rest ih =>
    obtain ⟨st₁, hassign, hvalue, hsized⟩ := assign_value hn hst hrun.1
    exact ⟨st₁, hassign, hvalue, ih hsized (hrun.2 st₁ hassign)⟩

/-- In every run whose assignments are sparing, each one assigns the value of its expression
and nothing else. -/
theorem valueSemantics_of_sparing (hst : st.Declared n) (run : List (Assignment V))
    (hrun : st.SparingRun n run) : st.ValueSemantics n run :=
  sized_valueSemantics hn hst.sized run hrun

end Yields

/-! ## Runs that assign one variable -/

section Vars

variable {n : ℕ} {st st' : State V}

theorem callOperator_vars {op : Operator} {size : ℕ} {place : Place V}
    {value : Memory (Buffer V) UInt32 → ℕ → Option UInt32}
    (h : st.callOperator n op size value = some (place, st')) : st'.vars = st.vars := by
  obtain ⟨memory, -, hmemory⟩ := Option.bind_eq_some_iff.mp h
  cases hmemory
  rfl

theorem mulScalar_vars {this place : Place V} {scalar : UInt32}
    (h : st.mulScalar n this scalar = some (place, st')) : st'.vars = st.vars := by
  obtain ⟨b, -, hcall⟩ := Option.bind_eq_some_iff.mp h
  exact callOperator_vars hcall

theorem elementwise_vars {op : Operator} {f : UInt32 → UInt32 → UInt32} {this arg place : Place V}
    (h : st.elementwise n op f this arg = some (place, st')) : st'.vars = st.vars := by
  obtain ⟨b, -, h⟩ := Option.bind_eq_some_iff.mp h
  obtain ⟨c, -, h⟩ := Option.bind_eq_some_iff.mp h
  split at h
  · exact callOperator_vars h
  · cases h

omit [DecidableEq V] in
theorem operands_vars {rightFirst : Bool} {l r : State V → Option (Place V × State V)}
    (hl : ∀ {st st' place}, l st = some (place, st') → st'.vars = st.vars)
    (hr : ∀ {st st' place}, r st = some (place, st') → st'.vars = st.vars) {this arg : Place V}
    (h : operands rightFirst l r st = some (this, arg, st')) : st'.vars = st.vars := by
  unfold operands at h
  split at h
  · obtain ⟨first, hfirst, h⟩ := Option.bind_eq_some_iff.mp h
    obtain ⟨second, hsecond, h⟩ := Option.bind_eq_some_iff.mp h
    cases h
    exact (hl hsecond).trans (hr hfirst)
  · obtain ⟨first, hfirst, h⟩ := Option.bind_eq_some_iff.mp h
    obtain ⟨second, hsecond, h⟩ := Option.bind_eq_some_iff.mp h
    cases h
    exact (hr hsecond).trans (hl hfirst)

/-- No expression changes what a variable points to. -/
theorem eval_vars {e : Expr V} {place : Place V} (h : eval n e st = some (place, st')) :
    st'.vars = st.vars := by
  induction e generalizing st st' place with
  | var x =>
    cases h
    rfl
  | scaleLeft scalar e ih =>
    obtain ⟨first, hfirst, h⟩ := Option.bind_eq_some_iff.mp h
    exact (mulScalar_vars h).trans (ih hfirst)
  | scaleRight e scalar ih =>
    obtain ⟨first, hfirst, h⟩ := Option.bind_eq_some_iff.mp h
    exact (mulScalar_vars h).trans (ih hfirst)
  | mul rightFirst l r ihl ihr =>
    obtain ⟨both, hboth, h⟩ := Option.bind_eq_some_iff.mp h
    exact (elementwise_vars h).trans (operands_vars ihl ihr hboth)
  | plus rightFirst l r ihl ihr =>
    obtain ⟨both, hboth, h⟩ := Option.bind_eq_some_iff.mp h
    exact (elementwise_vars h).trans (operands_vars ihl ihr hboth)

theorem assign_vars {a : Assignment V} (h : st.assign n a = some st') {y : V} (hy : y ≠ a.target) :
    st'.vars y = st.vars y := by
  obtain ⟨first, hfirst, h⟩ := Option.bind_eq_some_iff.mp h
  obtain ⟨source, -, h⟩ := Option.bind_eq_some_iff.mp h
  cases h
  show Function.update first.2.vars a.target source y = st.vars y
  rw [Function.update_of_ne hy, eval_vars hfirst]

end Vars

/-- A run that assigns one variable, and does not use it beside the result of an operator,
is sparing. -/
theorem sparingRun_of_target {n : ℕ} {st : State V} {x : V} {run : List (Assignment V)}
    (hst : ∀ y, y ≠ x → ¬st.Shared y)
    (hrun : ∀ a ∈ run, a.target = x ∧ a.source.Spared (· = x)) : st.SparingRun n run := by
  induction run generalizing st with
  | nil => trivial
  | cons a rest ih =>
    obtain ⟨htarget, hspared⟩ := hrun a List.mem_cons_self
    have hshared : ∀ y, st.Shared y → y = x := fun y hy => by_contra fun hne => hst y hne hy
    refine ⟨⟨Expr.Spared.mono hshared hspared, fun _ y hy => hst y (htarget ▸ hy)⟩, ?_⟩
    intro st' hassign
    refine ih ?_ fun b hb => hrun b (List.mem_cons_of_mem _ hb)
    intro y hy
    rw [Shared, assign_vars hassign (htarget.symm ▸ hy)]
    exact hst y hy

end State

/-! ## The demonstration -/

/-- The variables of `main`. -/
inductive Demo
  | A | B | C
  deriving DecidableEq

/-- Every array of the demonstration counts from 0. -/
def demoStart (n : ℕ) : State Demo where
  vars x := ⟨n, .own x⟩
  res _ := none
  memory _ i := UInt32.ofNat i

/-- `A = B + C; A = B * C; A = alpha*B; A = alpha*B + C;` -/
def demoRun (alpha : UInt32) : List (Assignment Demo) :=
  [⟨.A, .plus false (.var .B) (.var .C)⟩, ⟨.A, .mul false (.var .B) (.var .C)⟩,
    ⟨.A, .scaleLeft alpha (.var .B)⟩, ⟨.A, .plus false (.scaleLeft alpha (.var .B)) (.var .C)⟩]

theorem demoStart_declared (n : ℕ) : (demoStart n).Declared n := ⟨fun _ => rfl, fun _ => rfl⟩

theorem demoRun_sparing (alpha : UInt32) : (demoStart 33).SparingRun 33 (demoRun alpha) := by
  apply State.sparingRun_of_target (x := .A)
  · intro y _ hy
    cases hy
  · simp [demoRun, Expr.Spared, Expr.OperandsSpared, Expr.Compound]

theorem demoRun_valueSemantics : (demoStart 33).ValueSemantics 33 (demoRun 2) :=
  State.valueSemantics_of_sparing (by decide) (demoStart_declared 33) (demoRun 2)
    (demoRun_sparing 2)

/-- `A = B + C; B = B * C;` changes `A`. -/
theorem not_valueSemantics_product :
    ¬(demoStart 2).ValueSemantics 2
      [⟨.A, .plus false (.var .B) (.var .C)⟩, ⟨.B, .mul false (.var .B) (.var .C)⟩] := by
  rintro ⟨st₁, h₁, -, st₂, h₂, ⟨-, hothers⟩, -⟩
  obtain rfl := Option.some.inj h₁
  obtain rfl := Option.some.inj h₂
  have hkept := hothers .A (by decide) 1 (by decide)
  exact absurd hkept (by decide)

end Cpu0Toolchain.ClangTools
