import Cpu0Toolchain.ClangTools.Rvv

/-!
# The RISC-V vector kernels

`vOp` of `riscv/vadd1.c` and `vadd_mask` of `riscv/vadd-full.c`. The masked sum loads the mask of
every strip from the same place, so a strip that is not the first one uses the bits of the first
elements.
-/

namespace Cpu0Toolchain.Riscv
open ArrayLoop StripMine ClangTools

section VOp

/-- The first of `enum {VADD, VMUL}`. -/
def VADD : ℤ := 0

/-- The second of `enum {VADD, VMUL}`. -/
def VMUL : ℤ := 1

/-- The register that a round of `vOp` stores. It is `undefined` when the operation is neither
of the two. -/
def vOpCompute (undefined : ℕ → ℕ → UInt32) (VectorOp : ℤ) (k : ℕ) (vb vc : ℕ → UInt32) :
    ℕ → UInt32 :=
  if VectorOp = VADD then vadd vb vc
  else if VectorOp = VMUL then vmul vb vc
  else undefined k

variable {β : Type} [DecidableEq β] (length : β → ℕ) (v : Vsetvl) (undefined : ℕ → ℕ → UInt32)
  (fuel : ℕ)

/-- `vOp(a, b, c, n, VectorOp)` -/
def vOp (a b c : Pointer β) (n : ℕ) (VectorOp : ℤ) (m : Memory β UInt32) :
    Option (Memory β UInt32) :=
  (stripLoop v (binaryStrip length (vOpCompute undefined VectorOp)) fuel 0 n ⟨a, b, c, m⟩).map
    Locals.memory

end VOp

section Refinement

variable {β : Type} [DecidableEq β] {length : β → ℕ} {v : Vsetvl} {undefined : ℕ → ℕ → UInt32}
  {n fuel : ℕ} {a b c : Pointer β} {m : Memory β UInt32}

/-- Whatever the strips are, the loops of the vector operators end and leave what the scalar
loops leave: the products or sums in the elements of the result, and all else as it was. The
sum and the product of `vOp` do the same. -/
theorem strip_mined_eq_scalar (scalar : UInt32) (ha : Holds length n a) (hb : Holds length n b)
    (hc : Holds length n c) (hba : SameOrDisjoint n b a) (hca : SameOrDisjoint n c a)
    (hfuel : n < fuel) :
    (mulScalarRvv length v fuel scalar a b n m = mulScalarLoop length scalar a b n m ∧
      mulScalarLoop length scalar a b n m =
        some (overwritten m a n fun i => scalar * m b.array (b.offset + i))) ∧
    (mulRvv length v fuel a b c n m = mulLoop length a b c n m ∧
      vOp length v undefined fuel a b c n VMUL m = mulLoop length a b c n m ∧
      mulLoop length a b c n m = some (overwritten m a n fun i =>
        m b.array (b.offset + i) * m c.array (c.offset + i))) ∧
    plusRvv length v fuel a b c n m = plusLoop length a b c n m ∧
      vOp length v undefined fuel a b c n VADD m = plusLoop length a b c n m ∧
      plusLoop length a b c n m = some (overwritten m a n fun i =>
        m b.array (b.offset + i) + m c.array (c.offset + i)) := by
  have hscalar := mulScalarLoop_eq (m := m) scalar hba ha hb
  have hmul : mulLoop length a b c n m = _ := elementwiseLoop_eq (· * ·) hba hca ha hb hc
  have hplus : plusLoop length a b c n m = _ := elementwiseLoop_eq (· + ·) hba hca ha hb hc
  refine ⟨⟨?_, hscalar⟩, ⟨?_, ?_, hmul⟩, ?_, ?_, hplus⟩
  · exact (mulScalarRvv_eq scalar hba ha hb hfuel).trans hscalar.symm
  · exact (mulRvv_eq hba hca ha hb hc hfuel).trans hmul.symm
  · exact (mulRvv_eq (v := v) hba hca ha hb hc hfuel).trans hmul.symm
  · exact (plusRvv_eq hba hca ha hb hc hfuel).trans hplus.symm
  · exact (plusRvv_eq (v := v) hba hca ha hb hc hfuel).trans hplus.symm

/-- A sum in place, on hardware that takes two elements at a time. -/
theorem strip_mined_eq_scalar_five :
    plusRvv (fun _ => 5) (.ofMax 2 Nat.two_pos) 6 ⟨(), 0⟩ ⟨(), 0⟩ ⟨(), 0⟩ 5 (fun _ i => .ofNat i) =
        plusLoop (fun _ => 5) ⟨(), 0⟩ ⟨(), 0⟩ ⟨(), 0⟩ 5 (fun _ i => .ofNat i) ∧
      vOp (fun _ => 5) (.ofMax 2 Nat.two_pos) (fun _ _ => 0) 6 ⟨(), 0⟩ ⟨(), 0⟩ ⟨(), 0⟩ 5 VADD
          (fun _ i => .ofNat i) =
        plusLoop (fun _ => 5) ⟨(), 0⟩ ⟨(), 0⟩ ⟨(), 0⟩ 5 (fun _ i => .ofNat i) ∧
      plusLoop (fun _ => 5) ⟨(), 0⟩ ⟨(), 0⟩ ⟨(), 0⟩ 5 (fun _ i => .ofNat i) =
        some (overwritten (fun _ i => .ofNat i) ⟨(), 0⟩ 5 fun i =>
          UInt32.ofNat (0 + i) + UInt32.ofNat (0 + i)) := by
  have hholds : Holds (fun _ => 5) 5 (⟨(), 0⟩ : Pointer Unit) := Nat.le_refl 5
  exact (strip_mined_eq_scalar 7 hholds hholds hholds (.inl rfl) (.inl rfl) (by decide)).2.2

end Refinement

section Masked

/-- Bit `j` of a mask, eight to a byte. -/
def maskBit (bytes : ℕ → UInt8) (j : ℕ) : Bool :=
  (bytes (j / 8)).toNat.testBit (j % 8)

/-- The bytes that a mask of `vl` bits is loaded from and stored to. -/
def maskBytes (vl : ℕ) : ℕ := (vl + 7) / 8

/-- `vadd(mask, maskedoff, vb, vc, vl)` -/
def vaddMasked (mask : ℕ → UInt8) (maskedoff vb vc : ℕ → UInt32) (j : ℕ) : UInt32 :=
  if maskBit mask j then vb j + vc j else maskedoff j

variable {β γ : Type} [DecidableEq β] [DecidableEq γ] (length : β → ℕ) (mlength : γ → ℕ)
  (v : Vsetvl) (undefined : ℕ → ℕ → UInt32) (fuel : ℕ)

/-- A round of `vadd_mask`. It leaves the pointer to the mask where it is. -/
def vaddMaskStrip (m : Pointer γ) (k vl : ℕ) (s : Locals β UInt32 × Memory γ UInt8) :
    Option (Locals β UInt32 × Memory γ UInt8) := do
  let mask ← vle mlength m (maskBytes vl) s.2
  let vb ← vle length s.1.b vl s.1.memory
  let vc ← vle length s.1.c vl s.1.memory
  let memory ← vse length s.1.a vl (vaddMasked mask (undefined k) vb vc) s.1.memory
  let bytes ← vse mlength m (maskBytes vl) mask s.2
  return (⟨s.1.a.add vl, s.1.b.add vl, s.1.c.add vl, memory⟩, bytes)

/-- `vadd_mask(a, b, c, m, n)`, the words and the bytes it leaves. -/
def vaddMask (a b c : Pointer β) (m : Pointer γ) (n : ℕ) (words : Memory β UInt32)
    (bytes : Memory γ UInt8) : Option (Memory β UInt32 × Memory γ UInt8) :=
  (stripLoop v (vaddMaskStrip length mlength undefined m) fuel 0 n (⟨a, b, c, words⟩, bytes)).map
    fun s => (s.1.memory, s.2)

end Masked

section MaskedSum

variable {β γ : Type} [DecidableEq β] [DecidableEq γ] {length : β → ℕ} {mlength : γ → ℕ}
  {v : Vsetvl} {undefined : ℕ → ℕ → UInt32} {fuel n : ℕ} {a b c : Pointer β} {m : Pointer γ}
  {words : Memory β UInt32} {bytes : Memory γ UInt8}

/-- The mask behind its pointer, as a register holds it. -/
def maskAt (m : Pointer γ) (bytes : Memory γ UInt8) (j : ℕ) : UInt8 := bytes m.array (m.offset + j)

/-- What a lane gets: the bits are those of the first elements, in every strip. -/
def maskedLane (undefined : ℕ → ℕ → UInt32) (mask : ℕ → UInt8) (k j : ℕ) (x y : UInt32) : UInt32 :=
  if maskBit mask j then x + y else undefined k j

/-- A round of `vadd_mask` is one of a sum without a mask in memory, and keeps the mask. -/
theorem vaddMaskStrip_eq {k vl : ℕ} (s : Locals β UInt32)
    (hm : m.offset + maskBytes vl ≤ mlength m.array) :
    vaddMaskStrip length mlength undefined m k vl (s, bytes) =
      (binaryStrip length (fun k => vaddMasked (maskAt m bytes) (undefined k)) k vl s).map
        (·, bytes) := by
  have hload : vle mlength m (maskBytes vl) bytes = some (maskAt m bytes) := vle_ok hm
  have hkeep : vse mlength m (maskBytes vl) (maskAt m bytes) bytes = some bytes :=
    (vse_ok hm).trans (congrArg some (overwritten_self _))
  simp only [vaddMaskStrip, binaryStrip, hload, hkeep, Option.bind_eq_bind, Option.bind_some]
  cases vle length s.b vl s.memory with
  | none => rfl
  | some vb =>
    cases vle length s.c vl s.memory with
    | none => rfl
    | some vc =>
      simp only [Option.bind_some]
      cases vse length s.a vl (vaddMasked (maskAt m bytes) (undefined k) vb vc) s.memory <;> rfl

/-- The loop ends with the mask as it was, and with each element as its lane in its strip
says. -/
theorem vaddMask_eq (ha : Holds length n a) (hb : Holds length n b) (hc : Holds length n c)
    (hm : m.offset + maskBytes n ≤ mlength m.array) (hba : SameOrDisjoint n b a)
    (hca : SameOrDisjoint n c a) (hfuel : n < fuel) :
    vaddMask length mlength v undefined fuel a b c m n words bytes = some (overwritten words a n
      (lanewise v n (maskedLane undefined (maskAt m bytes)) b c words), bytes) := by
  have hsum : (stripLoop v (binaryStrip length fun k => vaddMasked (maskAt m bytes) (undefined k))
      fuel 0 n ⟨a, b, c, words⟩).map Locals.memory = some (overwritten words a n
        (lanewise v n (maskedLane undefined (maskAt m bytes)) b c words)) :=
    stripLoop_binary (fun _ _ _ _ => rfl) hba hca ha hb hc hfuel
  have hmask : ∀ k vl (s : Locals β UInt32), vl ≤ n →
      vaddMaskStrip length mlength undefined m k vl (s, bytes) =
        (binaryStrip length (fun k => vaddMasked (maskAt m bytes) (undefined k)) k vl s).map
          (·, bytes) := by
    intro k vl s hvl
    have hbytes : maskBytes vl ≤ maskBytes n :=
      Nat.div_le_div_right (Nat.add_le_add_right hvl 7)
    exact vaddMaskStrip_eq s (Nat.le_trans (Nat.add_le_add_left hbytes _) hm)
  have hview := stripLoop_map (v := v) (·, bytes) fuel 0 ⟨a, b, c, words⟩ hmask
  obtain ⟨s, hrun, hs⟩ := Option.map_eq_some_iff.mp hsum
  rw [vaddMask, hview, hrun, ← hs]
  rfl

/-- What is meant by a masked sum: the elements with a bit set are the sums, and every bit is as
it was. The others are not specified. -/
def MaskedSum (n : ℕ) (a b c : Pointer β) (mask : ℕ → UInt8) (words : Memory β UInt32)
    (words' : Memory β UInt32) (mask' : ℕ → UInt8) : Prop :=
  (∀ i < n, maskBit mask i = true →
    words' a.array (a.offset + i) = words b.array (b.offset + i) + words c.array (c.offset + i)) ∧
  ∀ i < n, maskBit mask' i = maskBit mask i

/-- The loop ends with a masked sum, whatever the undefined elements are, exactly when each bit
that is set is also set for the same lane of the first strip. -/
theorem vaddMask_correct_iff (ha : Holds length n a) (hb : Holds length n b)
    (hc : Holds length n c) (hm : m.offset + maskBytes n ≤ mlength m.array)
    (hba : SameOrDisjoint n b a) (hca : SameOrDisjoint n c a) (hfuel : n < fuel) :
    (∀ undefined, ∃ words' bytes',
      vaddMask length mlength v undefined fuel a b c m n words bytes = some (words', bytes') ∧
        MaskedSum n a b c (maskAt m bytes) words words' (maskAt m bytes')) ↔
      ∀ i < n, maskBit (maskAt m bytes) i = true →
        maskBit (maskAt m bytes) (i - start v n (stripOf v n i)) = true := by
  have hvalue : ∀ undefined, ∀ i < n, overwritten words a n
      (lanewise v n (maskedLane undefined (maskAt m bytes)) b c words) a.array (a.offset + i) =
        maskedLane undefined (maskAt m bytes) (stripOf v n i) (i - start v n (stripOf v n i))
          (words b.array (b.offset + i)) (words c.array (c.offset + i)) :=
    fun undefined i hi => overwritten_at hi
  constructor
  · intro h i hi hset
    -- an undefined element that is not the sum
    obtain ⟨words', bytes', hrun, hsum, -⟩ := h fun k j =>
      words b.array (b.offset + (start v n k + j)) + words c.array (c.offset + (start v n k + j)) + 1
    rw [vaddMask_eq ha hb hc hm hba hca hfuel, Option.some.injEq, Prod.mk.injEq] at hrun
    have hi' := hsum i hi hset
    rw [← hrun.1, hvalue _ i hi, maskedLane] at hi'
    by_contra hclear
    rw [if_neg hclear, Nat.add_sub_cancel' (start_stripOf_le i)] at hi'
    simp at hi'
  · intro h undefined
    refine ⟨_, bytes, vaddMask_eq ha hb hc hm hba hca hfuel, ?_, fun i _ => rfl⟩
    intro i hi hset
    rw [hvalue undefined i hi, maskedLane, if_pos (h i hi hset)]

/-- All bits set, on hardware that takes eight elements at a time. -/
theorem vaddMask_correct_iff_ones :
    (∀ undefined, ∃ words' bytes', vaddMask (fun _ => 16) (fun _ => 2) (.ofMax 8 (by decide))
      undefined 17 ⟨(), 0⟩ ⟨(), 0⟩ ⟨(), 0⟩ ⟨(), 0⟩ 16 (fun _ i => .ofNat i) (fun _ _ => 255) =
        some (words', bytes') ∧ MaskedSum 16 ⟨(), 0⟩ ⟨(), 0⟩ ⟨(), 0⟩ (maskAt ⟨(), 0⟩ fun _ _ => 255)
          (fun _ i => .ofNat i) words' (maskAt ⟨(), 0⟩ bytes')) ↔
      ∀ i < 16, maskBit (maskAt ⟨(), 0⟩ fun _ _ => 255) i = true →
        maskBit (maskAt ⟨(), 0⟩ fun _ _ => 255)
          (i - start (.ofMax 8 (by decide)) 16 (stripOf (.ofMax 8 (by decide)) 16 i)) = true := by
  have hholds : Holds (fun _ => 16) 16 (⟨(), 0⟩ : Pointer Unit) := Nat.le_refl 16
  exact vaddMask_correct_iff hholds hholds hholds (by decide) (.inl rfl) (.inl rfl) (by decide)

/-- Two strips of eight elements, and the bit of element 8 alone set: the element is not the
sum. -/
theorem vaddMask_second_strip :
    ¬∀ undefined, ∃ words' bytes', vaddMask (fun _ => 16) (fun _ => 2) (.ofMax 8 (by decide))
      undefined 17 ⟨(), 0⟩ ⟨(), 0⟩ ⟨(), 0⟩ ⟨(), 0⟩ 16 (fun _ i => .ofNat i)
        (fun _ i => if i = 1 then 1 else 0) = some (words', bytes') ∧
          MaskedSum 16 ⟨(), 0⟩ ⟨(), 0⟩ ⟨(), 0⟩ (maskAt ⟨(), 0⟩ fun _ i => if i = 1 then 1 else 0)
            (fun _ i => .ofNat i) words' (maskAt ⟨(), 0⟩ bytes') := by
  intro h
  obtain ⟨words', bytes', hrun, hsum, -⟩ := h fun _ _ => 0
  have hzero : (vaddMask (fun _ => 16) (fun _ => 2) (.ofMax 8 (by decide)) (fun _ _ => 0) 17
      (⟨(), 0⟩ : Pointer Unit) ⟨(), 0⟩ ⟨(), 0⟩ (⟨(), 0⟩ : Pointer Unit) 16 (fun _ i => .ofNat i)
        (fun _ i => if i = 1 then 1 else 0)).map (fun r => r.1 () 8) = some 0 := by decide
  rw [hrun, Option.map_some, Option.some.injEq] at hzero
  have height := hsum 8 (by decide) (by decide)
  exact absurd (hzero.symm.trans height) (by decide)

end MaskedSum

end Cpu0Toolchain.Riscv
