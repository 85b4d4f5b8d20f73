import Cpu0Toolchain.Library.ArrayLoop

/-!
# The vector DSL

The class `UVec32` of `clang-tools/vector-dsl.cpp`, built without `USE_RVV`. An operator
gives back a reference to a static object of its own, all of these objects point to the one
array `t`, and an assignment copies the pointer.
-/

namespace Cpu0Toolchain.ClangTools
open ArrayLoop

/-- The array `t`, and the array that each variable is constructed with. -/
inductive Buffer (V : Type)
  | t
  | own (x : V)
  deriving DecidableEq

structure UVec32 (V : Type) where
  size : ℕ
  data : Buffer V

/-- The functions with a `static UVec32 res`. -/
inductive Operator
  | mulScalar | mul | plus
  deriving DecidableEq

/-- What a `UVec32&` refers to. -/
inductive Place (V : Type)
  | var (x : V)
  | res (op : Operator)

structure State (V : Type) where
  vars : V → UVec32 V
  /-- The static objects, which the first call constructs. -/
  res : Operator → Option (UVec32 V)
  memory : Memory (Buffer V) UInt32

/-- An expression, with the operand that the compiler evaluates first where C++ leaves the
order open. -/
inductive Expr (V : Type)
  | var (x : V)
  | scaleLeft (scalar : UInt32) (e : Expr V)
  | scaleRight (e : Expr V) (scalar : UInt32)
  | mul (rightFirst : Bool) (l r : Expr V)
  | plus (rightFirst : Bool) (l r : Expr V)

/-- `target = source;` -/
structure Assignment (V : Type) where
  target : V
  source : Expr V

variable {V : Type} [DecidableEq V]

/-- The array `t` has 33 elements, and that of a variable as many as it is declared with. -/
def length (n : ℕ) : Buffer V → ℕ
  | .t => 33
  | .own _ => n

namespace State

def deref (st : State V) : Place V → Option (UVec32 V)
  | .var x => some (st.vars x)
  | .res op => st.res op

/-- The static object of an operator, a loop over it, and the reference to it. -/
def callOperator (n : ℕ) (op : Operator) (size : ℕ)
    (value : Memory (Buffer V) UInt32 → ℕ → Option UInt32) (st : State V) :
    Option (Place V × State V) := do
  let res := (st.res op).getD ⟨size, .t⟩
  let memory ← fill (length n) res.data value size st.memory
  return (.res op, { st with res := Function.update st.res op (some res), memory })

/-- `UVec32::Mul(const uint32_t Scalar)` -/
def mulScalar (n : ℕ) (this : Place V) (scalar : UInt32) (st : State V) :
    Option (Place V × State V) := do
  let b ← st.deref this
  st.callOperator n .mulScalar b.size fun m i => do
    return scalar * (← load (length n) m b.data i)

/-- The loop of the operators on two vectors, behind the assertion that they have one size. -/
def elementwise (n : ℕ) (op : Operator) (f : UInt32 → UInt32 → UInt32) (this arg : Place V)
    (st : State V) : Option (Place V × State V) := do
  let b ← st.deref this
  let c ← st.deref arg
  if b.size = c.size then
    st.callOperator n op b.size fun m i => do
      return f (← load (length n) m b.data i) (← load (length n) m c.data i)
  else none

/-- `UVec32::Mul(const UVec32 &arg)` -/
def mul (n : ℕ) : Place V → Place V → State V → Option (Place V × State V) :=
  elementwise n .mul (· * ·)

/-- `UVec32::operator+(const UVec32 &arg)` -/
def plus (n : ℕ) : Place V → Place V → State V → Option (Place V × State V) :=
  elementwise n .plus (· + ·)

/-- Two operands, in one order or the other. -/
def operands (rightFirst : Bool) (l r : State V → Option (Place V × State V)) (st : State V) :
    Option (Place V × Place V × State V) :=
  if rightFirst then do
    let (arg, st) ← r st
    let (this, st) ← l st
    return (this, arg, st)
  else do
    let (this, st) ← l st
    let (arg, st) ← r st
    return (this, arg, st)

/-- The reference that an expression yields. -/
def eval (n : ℕ) : Expr V → State V → Option (Place V × State V)
  | .var x, st => some (.var x, st)
  | .scaleLeft scalar e, st => do
    let (b, st) ← eval n e st
    st.mulScalar n b scalar
  | .scaleRight e scalar, st => do
    let (b, st) ← eval n e st
    st.mulScalar n b scalar
  | .mul rightFirst l r, st => do
    let (this, arg, st) ← operands rightFirst (eval n l) (eval n r) st
    st.mul n this arg
  | .plus rightFirst l r, st => do
    let (this, arg, st) ← operands rightFirst (eval n l) (eval n r) st
    st.plus n this arg

/-- The implicit copy assignment, which copies the size and the pointer. -/
def assign (n : ℕ) (a : Assignment V) (st : State V) : Option (State V) := do
  let (place, st) ← eval n a.source st
  let source ← st.deref place
  return { st with vars := Function.update st.vars a.target source }

/-- The element of a variable. -/
def value (st : State V) (x : V) (i : ℕ) : UInt32 := st.memory (st.vars x).data i

end State

end Cpu0Toolchain.ClangTools
