import Cpu0Toolchain.Library.StripMine
import Cpu0Toolchain.ClangTools.VectorDsl

/-!
# The vector DSL with `USE_RVV`

The strip-mined loops of the operators of `clang-tools/vector-dsl.cpp`, beside the scalar ones,
over any memory of arrays and for any answers of the hardware. An operator of the class built
with `USE_RVV` does what the one built without does.
-/

namespace Cpu0Toolchain.ClangTools
open ArrayLoop StripMine

section Loops

variable {β : Type} [DecidableEq β] (length : β → ℕ)

/-- `vmul(vb, vc, vl)` -/
def vmul (vb vc : ℕ → UInt32) (j : ℕ) : UInt32 := vb j * vc j

/-- `vadd(vb, vc, vl)` -/
def vadd (vb vc : ℕ → UInt32) (j : ℕ) : UInt32 := vb j + vc j

/-- `vmul(vb, Scalar, vl)` -/
def vmulScalar (scalar : UInt32) (vb : ℕ → UInt32) (j : ℕ) : UInt32 := vb j * scalar

/-- The scalar loop of `UVec32::Mul(const uint32_t Scalar)`. -/
def mulScalarLoop (scalar : UInt32) (a b : Pointer β) (size : ℕ) :
    Memory β UInt32 → Option (Memory β UInt32) :=
  scalarLoop length a (fun m i => do
    return scalar * (← loadAt length b i m)) size

/-- The scalar loop of the operators on two vectors. -/
def elementwiseLoop (f : UInt32 → UInt32 → UInt32) (a b c : Pointer β) (size : ℕ) :
    Memory β UInt32 → Option (Memory β UInt32) :=
  scalarLoop length a (fun m i => do
    return f (← loadAt length b i m) (← loadAt length c i m)) size

/-- The scalar loop of `UVec32::Mul(const UVec32 &arg)`. -/
def mulLoop : Pointer β → Pointer β → Pointer β → ℕ → Memory β UInt32 → Option (Memory β UInt32) :=
  elementwiseLoop length (· * ·)

/-- The scalar loop of `UVec32::operator+(const UVec32 &arg)`. -/
def plusLoop : Pointer β → Pointer β → Pointer β → ℕ → Memory β UInt32 → Option (Memory β UInt32) :=
  elementwiseLoop length (· + ·)

variable (v : Vsetvl) (fuel : ℕ)

/-- The loop of `UVec32::Mul(const uint32_t Scalar)` under `USE_RVV`. -/
def mulScalarRvv (scalar : UInt32) (a b : Pointer β) (n : ℕ) (m : Memory β UInt32) :
    Option (Memory β UInt32) :=
  (stripLoop v (unaryStrip length (vmulScalar scalar)) fuel 0 n ⟨a, b, m⟩).map UnaryLocals.memory

/-- The loop of `UVec32::Mul(const UVec32 &arg)` under `USE_RVV`. -/
def mulRvv (a b c : Pointer β) (n : ℕ) (m : Memory β UInt32) : Option (Memory β UInt32) :=
  (stripLoop v (binaryStrip length fun _ => vmul) fuel 0 n ⟨a, b, c, m⟩).map Locals.memory

/-- The loop of `UVec32::operator+(const UVec32 &arg)` under `USE_RVV`. -/
def plusRvv (a b c : Pointer β) (n : ℕ) (m : Memory β UInt32) : Option (Memory β UInt32) :=
  (stripLoop v (binaryStrip length fun _ => vadd) fuel 0 n ⟨a, b, c, m⟩).map Locals.memory

end Loops

section Equal

variable {β : Type} [DecidableEq β] {length : β → ℕ} {v : Vsetvl} {fuel n : ℕ}
  {a b c : Pointer β} {m : Memory β UInt32}

/-- The buffer behind a pointer holds so many elements. -/
def Holds (length : β → ℕ) (n : ℕ) (p : Pointer β) : Prop := p.offset + n ≤ length p.array

theorem loadAt_overwritten {p : Pointer β} {i : ℕ} {g : ℕ → UInt32} (hp : SameOrDisjoint n p a)
    (hlength : Holds length n p) (hi : i < n) :
    loadAt length p i (overwritten m a i g) = some (m p.array (p.offset + i)) := by
  rw [loadAt_ok (Nat.lt_of_lt_of_le (Nat.add_lt_add_left hi _) hlength),
    overwritten_ahead hp le_rfl hi]

theorem mulScalarLoop_eq (scalar : UInt32) (hba : SameOrDisjoint n b a)
    (ha : Holds length n a) (hb : Holds length n b) :
    mulScalarLoop length scalar a b n m =
      some (overwritten m a n fun i => scalar * m b.array (b.offset + i)) := by
  apply scalarLoop_eq ha
  intro i hi
  rw [loadAt_overwritten hba hb hi]
  rfl

theorem elementwiseLoop_eq (f : UInt32 → UInt32 → UInt32) (hba : SameOrDisjoint n b a)
    (hca : SameOrDisjoint n c a) (ha : Holds length n a) (hb : Holds length n b)
    (hc : Holds length n c) :
    elementwiseLoop length f a b c n m = some (overwritten m a n fun i =>
      f (m b.array (b.offset + i)) (m c.array (c.offset + i))) := by
  apply scalarLoop_eq ha
  intro i hi
  rw [loadAt_overwritten hba hb hi, loadAt_overwritten hca hc hi]
  rfl

theorem mulScalarRvv_eq (scalar : UInt32) (hba : SameOrDisjoint n b a) (ha : Holds length n a)
    (hb : Holds length n b) (hfuel : n < fuel) :
    mulScalarRvv length v fuel scalar a b n m =
      some (overwritten m a n fun i => scalar * m b.array (b.offset + i)) := by
  refine stripLoop_unary (f := fun x => scalar * x) (fun vb j => ?_) hba ha hb hfuel
  exact UInt32.mul_comm (vb j) scalar

theorem mulRvv_eq (hba : SameOrDisjoint n b a) (hca : SameOrDisjoint n c a)
    (ha : Holds length n a) (hb : Holds length n b) (hc : Holds length n c) (hfuel : n < fuel) :
    mulRvv length v fuel a b c n m = some (overwritten m a n fun i =>
      m b.array (b.offset + i) * m c.array (c.offset + i)) :=
  stripLoop_binary (f := fun _ _ x y => x * y) (fun _ _ _ _ => rfl) hba hca ha hb hc hfuel

theorem plusRvv_eq (hba : SameOrDisjoint n b a) (hca : SameOrDisjoint n c a)
    (ha : Holds length n a) (hb : Holds length n b) (hc : Holds length n c) (hfuel : n < fuel) :
    plusRvv length v fuel a b c n m = some (overwritten m a n fun i =>
      m b.array (b.offset + i) + m c.array (c.offset + i)) :=
  stripLoop_binary (f := fun _ _ x y => x + y) (fun _ _ _ _ => rfl) hba hca ha hb hc hfuel

end Equal

section Class

variable {V : Type} [DecidableEq V] (v : Vsetvl) (fuel n : ℕ)

namespace State

/-- The static object of an operator, its strip-mined loop, and the reference to it. -/
def callOperatorRvv (op : Operator) (size : ℕ)
    (loop : Pointer (Buffer V) → Memory (Buffer V) UInt32 → Option (Memory (Buffer V) UInt32))
    (st : State V) : Option (Place V × State V) := do
  let res := (st.res op).getD ⟨size, .t⟩
  let memory ← loop ⟨res.data, 0⟩ st.memory
  return (.res op, { st with res := Function.update st.res op (some res), memory })

/-- `UVec32::Mul(const uint32_t Scalar)` under `USE_RVV`. -/
def mulScalarRvv (this : Place V) (scalar : UInt32) (st : State V) :
    Option (Place V × State V) := do
  let b ← st.deref this
  st.callOperatorRvv .mulScalar b.size fun a =>
    ClangTools.mulScalarRvv (length n) v fuel scalar a ⟨b.data, 0⟩ b.size

/-- The operators on two vectors under `USE_RVV`, behind the assertion on the sizes. -/
def elementwiseRvv (op : Operator) (loop : Pointer (Buffer V) → Pointer (Buffer V) →
      Pointer (Buffer V) → ℕ → Memory (Buffer V) UInt32 → Option (Memory (Buffer V) UInt32))
    (this arg : Place V) (st : State V) : Option (Place V × State V) := do
  let b ← st.deref this
  let c ← st.deref arg
  if b.size = c.size then
    st.callOperatorRvv op b.size fun a => loop a ⟨b.data, 0⟩ ⟨c.data, 0⟩ b.size
  else none

/-- `UVec32::Mul(const UVec32 &arg)` under `USE_RVV`. -/
def mulRvv : Place V → Place V → State V → Option (Place V × State V) :=
  elementwiseRvv .mul (ClangTools.mulRvv (length n) v fuel)

/-- `UVec32::operator+(const UVec32 &arg)` under `USE_RVV`. -/
def plusRvv : Place V → Place V → State V → Option (Place V × State V) :=
  elementwiseRvv .plus (ClangTools.plusRvv (length n) v fuel)

end State

variable {v fuel n} {op : Operator} {size : ℕ} {st : State V}

/-- The loop of the class is the scalar loop from the first elements on. -/
theorem fill_mulScalar (scalar : UInt32) (a b : Buffer V) (m : Memory (Buffer V) UInt32) :
    fill (length n) a (fun m i => do return scalar * (← load (length n) m b i)) size m =
      mulScalarLoop (length n) scalar ⟨a, 0⟩ ⟨b, 0⟩ size m := by
  rw [fill_eq_scalarLoop, mulScalarLoop]
  simp only [loadAt, Nat.zero_add]

theorem fill_elementwise (f : UInt32 → UInt32 → UInt32) (a b c : Buffer V)
    (m : Memory (Buffer V) UInt32) :
    fill (length n) a (fun m i => do
        return f (← load (length n) m b i) (← load (length n) m c i)) size m =
      elementwiseLoop (length n) f ⟨a, 0⟩ ⟨b, 0⟩ ⟨c, 0⟩ size m := by
  rw [fill_eq_scalarLoop, elementwiseLoop]
  simp only [loadAt, Nat.zero_add]

/-- Two loops that leave the same memory make the same call. -/
theorem callOperatorRvv_eq {loop : Pointer (Buffer V) → Memory (Buffer V) UInt32 →
      Option (Memory (Buffer V) UInt32)} {value : Memory (Buffer V) UInt32 → ℕ → Option UInt32}
    (h : loop ⟨((st.res op).getD ⟨size, .t⟩).data, 0⟩ st.memory =
      fill (length n) ((st.res op).getD ⟨size, .t⟩).data value size st.memory) :
    st.callOperatorRvv op size loop = st.callOperator n op size value := by
  simp only [State.callOperatorRvv, State.callOperator, h]

omit [DecidableEq V]

/-- Two arrays of the program are the same one or have no element in common. -/
theorem sameOrDisjoint_array (k : ℕ) (x y : Buffer V) : SameOrDisjoint k ⟨x, 0⟩ ⟨y, 0⟩ := by
  by_cases h : x = y
  · exact .inl (by rw [h])
  · exact .inr (.inl h)

/-- The arrays that a call reads and writes hold as many elements as the vectors say. -/
def Fits (n : ℕ) (st : State V) (op : Operator) (size : ℕ) (operands : List (UVec32 V)) : Prop :=
  ∀ x ∈ ((st.res op).getD ⟨size, .t⟩).data :: operands.map UVec32.data, size ≤ length n x

theorem Fits.holds {operands : List (UVec32 V)} (h : Fits n st op size operands) {x : UVec32 V}
    (hx : x ∈ operands) : Holds (length n) size ⟨x.data, 0⟩ := by
  rw [Holds, Nat.zero_add]
  exact h x.data (List.mem_cons_of_mem _ (List.mem_map_of_mem hx))

theorem Fits.holds_res {operands : List (UVec32 V)} (h : Fits n st op size operands) :
    Holds (length n) size ⟨((st.res op).getD ⟨size, .t⟩).data, 0⟩ := by
  rw [Holds, Nat.zero_add]
  exact h _ List.mem_cons_self

variable [DecidableEq V]

/-- Built with `USE_RVV` or without, a product with a scalar has the same effect. -/
theorem mulScalarRvv_eq_mulScalar {this : Place V} (scalar : UInt32)
    (hfits : ∀ b, st.deref this = some b → b.size < fuel ∧ Fits n st .mulScalar b.size [b]) :
    st.mulScalarRvv v fuel n this scalar = st.mulScalar n this scalar := by
  rw [State.mulScalarRvv, State.mulScalar]
  cases hb : st.deref this with
  | none => rfl
  | some b =>
    obtain ⟨hfuel, hfit⟩ := hfits b hb
    have hholds := hfit.holds (List.mem_singleton_self b)
    have hloop : ClangTools.mulScalarRvv (length n) v fuel scalar _ ⟨b.data, 0⟩ b.size st.memory =
        mulScalarLoop (length n) scalar _ ⟨b.data, 0⟩ b.size st.memory :=
      (mulScalarRvv_eq scalar (sameOrDisjoint_array _ _ _) hfit.holds_res hholds hfuel).trans
        (mulScalarLoop_eq scalar (sameOrDisjoint_array _ _ _) hfit.holds_res hholds).symm
    simp only [Option.bind_eq_bind, Option.bind_some]
    refine callOperatorRvv_eq ?_
    exact hloop.trans (fill_mulScalar scalar _ b.data st.memory).symm

/-- Two loops over pairs of elements that leave the same memory give the same operator. -/
theorem elementwiseRvv_eq {this arg : Place V} {f : UInt32 → UInt32 → UInt32}
    {loop : Pointer (Buffer V) → Pointer (Buffer V) → Pointer (Buffer V) → ℕ →
      Memory (Buffer V) UInt32 → Option (Memory (Buffer V) UInt32)}
    (hloop : ∀ {k : ℕ} {a b c : Pointer (Buffer V)}, SameOrDisjoint k b a → SameOrDisjoint k c a →
      Holds (length n) k a → Holds (length n) k b → Holds (length n) k c → k < fuel →
      loop a b c k st.memory = elementwiseLoop (length n) f a b c k st.memory)
    (hfits : ∀ b c, st.deref this = some b → st.deref arg = some c →
      b.size < fuel ∧ Fits n st op b.size [b, c]) :
    st.elementwiseRvv op loop this arg = st.elementwise n op f this arg := by
  rw [State.elementwiseRvv, State.elementwise]
  cases hb : st.deref this with
  | none => rfl
  | some b =>
    cases hc : st.deref arg with
    | none => rfl
    | some c =>
      simp only [Option.bind_eq_bind, Option.bind_some]
      split
      · obtain ⟨hfuel, hfit⟩ := hfits b c hb hc
        refine callOperatorRvv_eq ?_
        refine Eq.trans ?_ (fill_elementwise f _ b.data c.data st.memory).symm
        exact hloop (sameOrDisjoint_array _ _ _) (sameOrDisjoint_array _ _ _) hfit.holds_res
          (hfit.holds (by simp)) (hfit.holds (by simp)) hfuel
      · rfl

theorem mulRvv_eq_mul {this arg : Place V}
    (hfits : ∀ b c, st.deref this = some b → st.deref arg = some c →
      b.size < fuel ∧ Fits n st .mul b.size [b, c]) :
    st.mulRvv v fuel n this arg = st.mul n this arg :=
  elementwiseRvv_eq (fun hba hca ha hb hc hfuel =>
    (mulRvv_eq hba hca ha hb hc hfuel).trans (elementwiseLoop_eq _ hba hca ha hb hc).symm) hfits

theorem plusRvv_eq_plus {this arg : Place V}
    (hfits : ∀ b c, st.deref this = some b → st.deref arg = some c →
      b.size < fuel ∧ Fits n st .plus b.size [b, c]) :
    st.plusRvv v fuel n this arg = st.plus n this arg :=
  elementwiseRvv_eq (fun hba hca ha hb hc hfuel =>
    (plusRvv_eq hba hca ha hb hc hfuel).trans (elementwiseLoop_eq _ hba hca ha hb hc).symm) hfits

end Class

end Cpu0Toolchain.ClangTools
