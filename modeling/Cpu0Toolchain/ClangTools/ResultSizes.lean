import Cpu0Toolchain.ClangTools.VectorDsl

/-!
# The sizes of the results of the vector DSL

A run of calls of the operators, on vectors of any sizes. The static object of an operator keeps
the size of the first call, and the array `t` behind it has 33 elements. The abstract run only
knows the sizes: of the vectors, and of the first call of each operator.

## Main results

- `Call.run_eq`, `Call.run_none`: a call behind calls that were within bounds.
- `resultsSized_iff`: when every call returns a vector of its operands' size.
-/

namespace Cpu0Toolchain.ClangTools
open ArrayLoop

/-- A call of an operator of the class. -/
inductive Call (V : Type)
  | mulScalar (this : Place V) (scalar : UInt32)
  | mul (this arg : Place V)
  | plus (this arg : Place V)

namespace Call

variable {V : Type}

def op : Call V → Operator
  | mulScalar _ _ => .mulScalar
  | mul _ _ => .mul
  | plus _ _ => .plus

/-- The vectors that the call reads. -/
def operands : Call V → List (Place V)
  | mulScalar this _ => [this]
  | mul this arg => [this, arg]
  | plus this arg => [this, arg]

def run [DecidableEq V] (n : ℕ) : Call V → State V → Option (Place V × State V)
  | mulScalar this scalar, st => st.mulScalar n this scalar
  | mul this arg, st => st.mul n this arg
  | plus this arg, st => st.plus n this arg

end Call

namespace State

variable {V : Type}

def sizeAt (st : State V) (p : Place V) : Option ℕ := (st.deref p).map UVec32.size

/-- Vectors over storage of their own, before the first call of an operator. -/
structure Vectors (n : ℕ) (st : State V) : Prop where
  vars : ∀ x, (st.vars x).data = .own x ∧ (st.vars x).size ≤ n
  res : ∀ op, st.res op = none

/-- Every call of the run ends without an access outside of an array, and the vector it returns
has the size of its operands. -/
def ResultsSized [DecidableEq V] (n : ℕ) : State V → List (Call V) → Prop
  | _, [] => True
  | st, call :: calls => ∃ place st', call.run n st = some (place, st') ∧
      (∀ p ∈ call.operands, st'.sizeAt place = st.sizeAt p) ∧ ResultsSized n st' calls

end State

/-! ## The abstract run -/

/-- The size of each variable, and of the first call of each operator that was called. -/
structure Sizes (V : Type) where
  vars : V → ℕ
  first : Operator → Option ℕ

namespace Sizes

variable {V : Type}

def sizeAt (sizes : Sizes V) : Place V → Option ℕ
  | .var x => some (sizes.vars x)
  | .res op => sizes.first op

/-- The sizes behind a call on vectors of this size. -/
def call (sizes : Sizes V) (op : Operator) (size : ℕ) : Sizes V :=
  { sizes with first := Function.update sizes.first op (some ((sizes.first op).getD size)) }

@[simp] theorem first_call (sizes : Sizes V) (op : Operator) (size : ℕ) :
    (sizes.call op size).first =
      Function.update sizes.first op (some ((sizes.first op).getD size)) := rfl

/-- The operands of each call are there and have one size. -/
def Equal : Sizes V → List (Call V) → Prop
  | _, [] => True
  | sizes, c :: calls => ∃ size, (∀ p ∈ c.operands, sizes.sizeAt p = some size) ∧
      Equal (sizes.call c.op size) calls

/-- No call is on more than 33 elements, and all calls of one operator are on as many. -/
def Kept : Sizes V → List (Call V) → Prop
  | _, [] => True
  | sizes, c :: calls => ∀ size, (∀ p ∈ c.operands, sizes.sizeAt p = some size) →
      size ≤ 33 ∧ (sizes.first c.op).getD size = size ∧ Kept (sizes.call c.op size) calls

end Sizes

/-! ## The refinement -/

namespace State

variable {V : Type} {n : ℕ} {st : State V}

/-- The sizes that a state knows. -/
def sizes (st : State V) : Sizes V where
  vars x := (st.vars x).size
  first op := (st.res op).map UVec32.size

theorem first_sizes (op : Operator) : st.sizes.first op = (st.res op).map UVec32.size := rfl

theorem sizeAt_sizes (p : Place V) : st.sizes.sizeAt p = st.sizeAt p := by
  cases p <;> rfl

/-- Every vector has the storage that its size says, and the results are in `t`. -/
structure Stored (n : ℕ) (st : State V) : Prop where
  vars : ∀ x, (st.vars x).size ≤ length n (st.vars x).data
  res : ∀ op object, st.res op = some object → object.data = .t ∧ object.size ≤ 33

theorem Vectors.stored (h : st.Vectors n) : st.Stored n where
  vars x := by
    rw [(h.vars x).1]
    exact (h.vars x).2
  res op object hobject := by
    rw [h.res op] at hobject
    cases hobject

theorem Stored.deref (h : st.Stored n) {p : Place V} {b : UVec32 V} (hb : st.deref p = some b) :
    b.size ≤ length n b.data := by
  cases p with
  | var x =>
    cases hb
    exact h.vars x
  | res op =>
    obtain ⟨hdata, hsize⟩ := h.res op b hb
    rw [hdata]
    exact hsize

/-- The static object that a call on vectors of this size uses. -/
def object (st : State V) (op : Operator) (size : ℕ) : UVec32 V := (st.res op).getD ⟨size, .t⟩

theorem Stored.object_data (h : st.Stored n) (op : Operator) (size : ℕ) :
    (st.object op size).data = .t := by
  cases hres : st.res op with
  | none => rw [object, hres]; rfl
  | some object => rw [State.object, hres]; exact (h.res op object hres).1

theorem object_size (st : State V) (op : Operator) (size : ℕ) :
    (st.object op size).size = (st.sizes.first op).getD size := by
  rw [object, first_sizes]
  cases st.res op <;> rfl

variable [DecidableEq V]

/-- The state behind a call that put `g` into `t`. -/
def called (st : State V) (op : Operator) (size : ℕ) (g : ℕ → UInt32) : State V :=
  { st with
    res := Function.update st.res op (some (st.object op size)),
    memory := filled st.memory .t size g }

@[simp] theorem called_res (op : Operator) (size : ℕ) (g : ℕ → UInt32) :
    (st.called op size g).res = Function.update st.res op (some (st.object op size)) := rfl

theorem sizes_called (op : Operator) (size : ℕ) (g : ℕ → UInt32) :
    (st.called op size g).sizes = st.sizes.call op size := by
  have hfirst : (st.called op size g).sizes.first = (st.sizes.call op size).first := by
    funext op'
    by_cases hop : op' = op
    · subst hop
      rw [first_sizes, called_res, Function.update_self, Option.map_some, object_size,
        Sizes.first_call, Function.update_self]
    · rw [first_sizes, called_res, Function.update_of_ne hop, Sizes.first_call,
        Function.update_of_ne hop, first_sizes]
  exact congrArg (Sizes.mk st.sizes.vars) hfirst

theorem Stored.called (h : st.Stored n) {op : Operator} {size : ℕ} (hsize : size ≤ 33)
    (g : ℕ → UInt32) : (st.called op size g).Stored n where
  vars := h.vars
  res op' object hobject := by
    by_cases hop : op' = op
    · subst hop
      rw [called_res, Function.update_self, Option.some.injEq] at hobject
      subst hobject
      refine ⟨h.object_data op' size, ?_⟩
      cases hres : st.res op' with
      | none => rw [State.object, hres]; exact hsize
      | some object => rw [State.object, hres]; exact (h.res op' object hres).2
    · rw [called_res, Function.update_of_ne hop] at hobject
      exact h.res op' object hobject

theorem Stored.callOperator_eq (h : st.Stored n) {op : Operator} {size : ℕ} (hsize : size ≤ 33)
    {g : ℕ → UInt32} {value : Memory (Buffer V) UInt32 → ℕ → Option UInt32}
    (hvalue : ∀ i < size, value (filled st.memory .t i g) i = some (g i)) :
    st.callOperator n op size value = some (.res op, st.called op size g) := by
  have hfill : fill (length n) (st.object op size).data value size st.memory =
      some (filled st.memory .t size g) := by
    rw [h.object_data op size]
    exact fill_eq hsize hvalue
  rw [object] at hfill
  simp only [callOperator, hfill, Option.bind_eq_bind, Option.bind_some]
  rfl

theorem Stored.callOperator_none (h : st.Stored n) {op : Operator} {size : ℕ} (hsize : 33 < size)
    (value : Memory (Buffer V) UInt32 → ℕ → Option UInt32) :
    st.callOperator n op size value = none := by
  have hfill : fill (length n) (st.object op size).data value size st.memory = none := by
    rw [h.object_data op size]
    exact fill_none value hsize
  rw [object] at hfill
  simp only [callOperator, hfill, Option.bind_eq_bind, Option.bind_none]

omit [DecidableEq V] in
theorem exists_of_sizeAt {p : Place V} {size : ℕ} (h : st.sizeAt p = some size) :
    ∃ data, st.deref p = some ⟨size, data⟩ := by
  obtain ⟨b, hb, rfl⟩ := Option.map_eq_some_iff.mp h
  exact ⟨b.data, hb⟩

/-- An operand is still there when the loop comes to its element, also when it is in `t`. -/
theorem Stored.load (h : st.Stored n) {p : Place V} {size i : ℕ} {data : Buffer V}
    (hp : st.deref p = some ⟨size, data⟩) (hi : i < size) (g : ℕ → UInt32) :
    ArrayLoop.load (length n) (filled st.memory .t i g) data i = some (st.memory data i) :=
  load_filled (Nat.lt_of_lt_of_le hi (h.deref hp))

end State

namespace Call

variable {V : Type} [DecidableEq V] {n : ℕ} {st : State V}

theorem elementwise_eq (h : st.Stored n) {this arg : Place V} {size : ℕ}
    (hthis : st.sizeAt this = some size) (harg : st.sizeAt arg = some size) (op : Operator)
    (f : UInt32 → UInt32 → UInt32) (hsize : size ≤ 33) :
    ∃ g, st.elementwise n op f this arg = some (.res op, st.called op size g) := by
  obtain ⟨b, hb⟩ := State.exists_of_sizeAt hthis
  obtain ⟨c, hc⟩ := State.exists_of_sizeAt harg
  refine ⟨fun i => f (st.memory b i) (st.memory c i), ?_⟩
  rw [State.elementwise, hb, hc]
  simp only [Option.bind_eq_bind, Option.bind_some, if_true]
  apply h.callOperator_eq hsize
  intro i hi
  rw [h.load hb hi, h.load hc hi]
  rfl

theorem elementwise_none (h : st.Stored n) {this arg : Place V} {size : ℕ}
    (hthis : st.sizeAt this = some size) (harg : st.sizeAt arg = some size) (op : Operator)
    (f : UInt32 → UInt32 → UInt32) (hsize : 33 < size) :
    st.elementwise n op f this arg = none := by
  obtain ⟨b, hb⟩ := State.exists_of_sizeAt hthis
  obtain ⟨c, hc⟩ := State.exists_of_sizeAt harg
  rw [State.elementwise, hb, hc]
  simp only [Option.bind_eq_bind, Option.bind_some, if_true]
  exact h.callOperator_none hsize _

/-- A call on vectors that fit into `t` ends, and refers to the static object. -/
theorem run_eq (h : st.Stored n) (c : Call V) {size : ℕ}
    (hoperands : ∀ p ∈ c.operands, st.sizeAt p = some size) (hsize : size ≤ 33) :
    ∃ g, c.run n st = some (.res c.op, st.called c.op size g) := by
  cases c with
  | mulScalar this scalar =>
    obtain ⟨b, hb⟩ := State.exists_of_sizeAt (hoperands this (by simp [operands]))
    refine ⟨fun i => scalar * st.memory b i, ?_⟩
    rw [run, State.mulScalar, hb]
    simp only [Option.bind_eq_bind, Option.bind_some]
    apply h.callOperator_eq hsize
    intro i hi
    rw [h.load hb hi]
    rfl
  | mul this arg =>
    exact elementwise_eq h (hoperands this (by simp [operands])) (hoperands arg (by simp [operands]))
      .mul (· * ·) hsize
  | plus this arg =>
    exact elementwise_eq h (hoperands this (by simp [operands])) (hoperands arg (by simp [operands]))
      .plus (· + ·) hsize

/-- A call on longer vectors writes past the end of `t`. -/
theorem run_none (h : st.Stored n) (c : Call V) {size : ℕ}
    (hoperands : ∀ p ∈ c.operands, st.sizeAt p = some size) (hsize : 33 < size) :
    c.run n st = none := by
  cases c with
  | mulScalar this scalar =>
    obtain ⟨b, hb⟩ := State.exists_of_sizeAt (hoperands this (by simp [operands]))
    rw [run, State.mulScalar, hb]
    simp only [Option.bind_eq_bind, Option.bind_some]
    exact h.callOperator_none hsize _
  | mul this arg =>
    exact elementwise_none h (hoperands this (by simp [operands]))
      (hoperands arg (by simp [operands])) .mul (· * ·) hsize
  | plus this arg =>
    exact elementwise_none h (hoperands this (by simp [operands]))
      (hoperands arg (by simp [operands])) .plus (· + ·) hsize

omit [DecidableEq V] in
theorem exists_mem_operands (c : Call V) : ∃ p, p ∈ c.operands := by
  cases c with
  | mulScalar this _ => exact ⟨this, List.mem_cons_self⟩
  | mul this _ => exact ⟨this, List.mem_cons_self⟩
  | plus this _ => exact ⟨this, List.mem_cons_self⟩

end Call

section Runs

variable {V : Type} [DecidableEq V] {n : ℕ} {st : State V} {calls : List (Call V)}

/-- From any state in which the vectors have their storage, the sizes decide about the run. -/
theorem State.Stored.sized_iff_kept (h : st.Stored n) (hequal : st.sizes.Equal calls) :
    st.ResultsSized n calls ↔ st.sizes.Kept calls := by
  induction calls generalizing st with
  | nil => exact Iff.rfl
  | cons c calls ih =>
    obtain ⟨size, hsizes, hrest⟩ := hequal
    obtain ⟨p, hp⟩ := c.exists_mem_operands
    have hoperands : ∀ p ∈ c.operands, st.sizeAt p = some size :=
      fun p hp => (State.sizeAt_sizes p).symm.trans (hsizes p hp)
    constructor
    · rintro ⟨place, st', hrun, hsame, hafter⟩ size' hsize'
      obtain rfl : size = size' := Option.some.inj ((hsizes p hp).symm.trans (hsize' p hp))
      have hle : size ≤ 33 := by
        -- a longer call would not have ended
        by_contra hlt
        rw [c.run_none h hoperands (Nat.lt_of_not_le hlt)] at hrun
        cases hrun
      obtain ⟨g, hcall⟩ := c.run_eq h hoperands hle
      obtain ⟨rfl, rfl⟩ := Prod.mk.inj (Option.some.inj (hcall.symm.trans hrun))
      have hobject := hsame p hp
      rw [hoperands p hp, State.sizeAt, State.deref, State.called_res, Function.update_self,
        Option.map_some, Option.some.injEq, State.object_size] at hobject
      -- the abstract run goes on, whatever elements `g` the call has computed
      refine ⟨hle, hobject, ?_⟩
      rw [← State.sizes_called (g := g)]
      exact (ih (h.called hle g) (by rwa [State.sizes_called])).mp hafter
    · intro hkept
      obtain ⟨hle, hobject, hafter⟩ := hkept size hsizes
      obtain ⟨g, hcall⟩ := c.run_eq h hoperands hle
      refine ⟨_, _, hcall, ?_, ?_⟩
      · intro p hp
        rw [hoperands p hp, State.sizeAt, State.deref, State.called_res, Function.update_self,
          Option.map_some, State.object_size, hobject]
      · exact (ih (h.called hle g) (by rwa [State.sizes_called])).mpr (by rwa [State.sizes_called])

/-- In a run of calls on vectors that have one size in each call, every call stays within bounds
and returns a vector of that size exactly when no call is on more than 33 elements and all calls
of one operator are on vectors of one size. -/
theorem resultsSized_iff (hst : st.Vectors n) (hequal : st.sizes.Equal calls) :
    st.ResultsSized n calls ↔ st.sizes.Kept calls :=
  hst.stored.sized_iff_kept hequal

end Runs

section Lengths

/-- A vector of three elements and one of two. -/
def threeAndTwo : State Bool where
  vars x := ⟨if x then 3 else 2, .own x⟩
  res _ := none
  memory _ i := .ofNat i

theorem threeAndTwo_vectors : threeAndTwo.Vectors 3 where
  vars x := ⟨rfl, by cases x <;> decide⟩
  res _ := rfl

/-- A sum of the longer vectors, and a multiple of the sum. -/
theorem resultsSized_iff_sum : threeAndTwo.ResultsSized 3
      [.plus (.var true) (.var true), .mulScalar (.res .plus) 5] ↔
    threeAndTwo.sizes.Kept [.plus (.var true) (.var true), .mulScalar (.res .plus) 5] :=
  resultsSized_iff threeAndTwo_vectors
    ⟨3, by simp [Call.operands, Sizes.sizeAt, State.sizes, threeAndTwo],
      3, by simp [Call.operands, Sizes.sizeAt, State.sizes, Sizes.call, Call.op, threeAndTwo],
      trivial⟩

/-- A multiple of the shorter vector behind one of the longer is returned with three elements. -/
theorem not_resultsSized_threeAndTwo : ¬threeAndTwo.ResultsSized 3
    [.mulScalar (.var true) 5, .mulScalar (.var false) 5] := by
  rintro ⟨place, st, hfirst, -, place', st', hsecond, hsame, -⟩
  have hoperand : (Call.run 3 (.mulScalar (.var true) 5) threeAndTwo).map
      (fun r => r.2.sizeAt (.var false)) = some (some 2) := by rfl
  have hresult : (Call.run 3 (.mulScalar (.var true) 5) threeAndTwo).bind (fun r =>
      (Call.run 3 (.mulScalar (.var false) 5) r.2).bind fun r => r.2.sizeAt r.1) = some 3 := by rfl
  rw [hfirst, Option.map_some, Option.some.injEq] at hoperand
  rw [hfirst, Option.bind_some, hsecond, Option.bind_some] at hresult
  have hsize := hsame (.var false) List.mem_cons_self
  rw [hresult, hoperand] at hsize
  cases hsize

end Lengths

end Cpu0Toolchain.ClangTools
