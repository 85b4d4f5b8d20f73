import Cpu0Toolchain.Library.PcRelative
import Cpu0Toolchain.Lld.Cpu0

/-!
# Branches

The relocation `R_CPU0_PC24` puts the distance to a target into the 24 low bits of a branch.
It drops the bits above them, and none of the places where lld can report or repair a branch
that is too long does so for Cpu0.

## Main results

- `pc24_lands`: a branch in range goes to its target.
- `notSilent_iff`: the other ones go elsewhere without a report.
-/

namespace Cpu0Toolchain.Lld
open EndianWord

inductive RelExpr where
  | R_ABS | R_PC
  deriving DecidableEq, Repr

def getRelExpr : RelType → RelExpr
  | .R_CPU0_32 => .R_ABS
  | .R_CPU0_HI16 => .R_ABS
  | .R_CPU0_LO16 => .R_ABS
  | .R_CPU0_PC24 => .R_PC
  | .other _ => .R_ABS

/-- The value of an expression for a target `S + A` and a place `P`. -/
def relocValue (expr : RelExpr) (target place : ℤ) : BitVec 64 :=
  match expr with
  | .R_ABS => BitVec.ofInt 64 target
  | .R_PC => BitVec.ofInt 64 (target - place)

/-- The opcode of a branch. -/
def opcode (instr : BitVec 32) : BitVec 8 := instr.extractLsb' 24 8

def offset24 (instr : BitVec 32) : BitVec 24 := instr.extractLsb' 0 24

/-- Where the hardware goes from a branch at `P`. -/
def branchTarget (P instr : BitVec 32) : BitVec 32 := PcRelative.target 4 P (offset24 instr)

/-! ## The word -/

theorem pc24_mask_bit {i : ℕ} (hi : i < 32) :
    (0xffffff : BitVec 32).getLsbD i = decide (i < 24) := by
  revert i
  decide

theorem eq_of_parts {v w : BitVec 32} (hop : opcode v = opcode w) (hoff : offset24 v = offset24 w) :
    v = w := by
  ext i hi
  by_cases hlow : i < 24
  · have hbit := congrArg (·.getLsbD i) hoff
    simpa [offset24, hlow, hi] using hbit
  · have hbit := congrArg (·.getLsbD (i - 24)) hop
    simpa [opcode, show i - 24 < 8 by omega, show 24 + (i - 24) = i by omega, hi] using hbit

/-- The patched word has the old opcode and the low bits of the value. -/
theorem pc24_word (Instr : BitVec 32) (V : BitVec 64) :
    let Mask : BitVec 32 := 0xffffffff >>> (32 - 24)
    let word := ((Instr &&& ~~~Mask).setWidth 64 ||| ((V >>> 0) &&& Mask.setWidth 64)).setWidth 32
    opcode word = opcode Instr ∧ offset24 word = V.setWidth 24 := by
  intro Mask word
  have hword : ∀ i, i < 32 → word.getLsbD i =
      (Instr.getLsbD i && !decide (i < 24) || V.getLsbD i && decide (i < 24)) := by
    intro i hi
    have hmask : Mask[i] = decide (i < 24) := by
      rw [← BitVec.getLsbD_eq_getElem hi, ← pc24_mask_bit hi]
      rfl
    simp [word, hmask, hi, show i < 64 by omega]
  constructor
  · ext i hi
    have hbit := hword (24 + i) (by omega)
    simpa [opcode, show ¬24 + i < 24 by omega] using hbit
  · ext i hi
    have hbit := hword i (by omega)
    simpa [offset24, hi] using hbit

/-- The relocation, as a write of the patched word. -/
theorem relocate_pc24 (e : Endianness) (mem : Bytes) (loc : ℕ) (val : BitVec 64) :
    ∃ word, relocate e mem loc .R_CPU0_PC24 val = some (write32 e mem loc word) ∧
      opcode word = opcode (read32 e mem loc) ∧ offset24 word = (val - 4).setWidth 24 :=
  ⟨_, rfl, pc24_word (read32 e mem loc) (val - 4)⟩

/-! ## Branches in range -/

/-- The branch goes to its target, keeps its opcode, and is not changed by a second
relocation, and no other byte is changed by the first. -/
def BranchLands (e : Endianness) (mem : Bytes) (loc : ℕ) (P T : ℤ) : Prop :=
  ∃ mem', relocate e mem loc .R_CPU0_PC24 (relocValue (getRelExpr .R_CPU0_PC24) T P) = some mem' ∧
    opcode (read32 e mem' loc) = opcode (read32 e mem loc) ∧
    branchTarget (BitVec.ofInt 32 P) (read32 e mem' loc) = BitVec.ofInt 32 T ∧
    relocate e mem' loc .R_CPU0_PC24 (relocValue (getRelExpr .R_CPU0_PC24) T P) = some mem' ∧
    ∀ a, a < loc ∨ loc + 4 ≤ a → mem' a = mem a

theorem pc24_lands (e : Endianness) (mem : Bytes) (loc : ℕ) (P T : ℤ)
    (hlow : -2 ^ 23 ≤ T - P - 4) (hhigh : T - P - 4 < 2 ^ 23) : BranchLands e mem loc P T := by
  obtain ⟨word, hrel, hop, hoff⟩ :=
    relocate_pc24 e mem loc (relocValue (getRelExpr .R_CPU0_PC24) T P)
  refine ⟨write32 e mem loc word, hrel, ?_, ?_, ?_, fun a ha => write32_outside ha⟩
  · rw [read32_write32, hop]
  · have hfield : offset24 word = BitVec.ofInt 24 (T - P - 4) := by
      have hval : relocValue (getRelExpr .R_CPU0_PC24) T P - 4 = BitVec.ofInt 64 (T - P - 4) := by
        show BitVec.ofInt 64 (T - P) - BitVec.ofInt 64 4 = _
        rw [BitVec.sub_eq_add_neg, ← BitVec.ofInt_neg, ← BitVec.ofInt_add]
        rfl
      rw [hoff, hval, PcRelative.setWidth_ofInt (by decide)]
    rw [read32_write32, branchTarget, hfield, PcRelative.target_ofInt (by decide) _ _ hlow hhigh]
    show BitVec.ofInt 32 P + BitVec.ofInt 32 4 + BitVec.ofInt 32 (T - P - 4) = _
    rw [← BitVec.ofInt_add, ← BitVec.ofInt_add]
    congr 1
    omega
  · -- the second relocation gives a word with the same two parts
    obtain ⟨word', hrel', hop', hoff'⟩ := relocate_pc24 e (write32 e mem loc word) loc
      (relocValue (getRelExpr .R_CPU0_PC24) T P)
    have hsame : word' = word := by
      apply eq_of_parts
      · rw [hop', read32_write32]
      · rw [hoff', hoff]
    rw [hrel', hsame, write32_write32]

/-- `jmp 0` in big-endian bytes at 0. -/
def jmpZero : Bytes := fun a => if a = 0 then 0x36 else 0

/-- The shortest branch backwards that needs all bits of the field. -/
theorem jmpZero_lands_backwards : BranchLands .big jmpZero 0 0x800000 4 :=
  pc24_lands .big jmpZero 0 0x800000 4 (by decide) (by decide)

/-! ## Branches out of range -/

/-- A range error: the value, and the least and the greatest one that are accepted. -/
structure RangeError where
  v : ℤ
  min : ℤ
  max : ℤ

/-- `checkInt`, as the list of what it reports. -/
def checkInt (v : BitVec 64) (n : ℕ) : List RangeError :=
  if v ≠ (v.setWidth n).signExtend 64 then [⟨v.toInt, -2 ^ (n - 1), 2 ^ (n - 1) - 1⟩] else []

/-- The range errors that `relocate` reports: no case of it makes a check. -/
def relocateErrors (_type : RelType) (_val : BitVec 64) : List RangeError := []

/-- `TargetInfo::needsThunk`. The declaration that would override it is commented out in
`Cpu0.cpp`. -/
def needsThunk (_expr : RelExpr) (_type : RelType) (_branchAddr : BitVec 64) (_a : ℤ) : Bool := false

/-- `TargetInfo::inBranchRange`, which Cpu0 does not override. -/
def inBranchRange (_type : RelType) (_src _dst : BitVec 64) : Bool := true

/-- The value for 32-bit addresses, as `uint64_t`. -/
def branchValue (P T : BitVec 32) : BitVec 64 := T.setWidth 64 - P.setWidth 64

/-- The branch goes to its target, or something is said about it. -/
def NotSilent (e : Endianness) (mem : Bytes) (loc : ℕ) (P T : BitVec 32) : Prop :=
  ∃ mem', relocate e mem loc .R_CPU0_PC24 (branchValue P T) = some mem' ∧
    (branchTarget P (read32 e mem' loc) = T ∨
      relocateErrors .R_CPU0_PC24 (branchValue P T) ≠ [] ∨
      needsThunk .R_PC .R_CPU0_PC24 (P.setWidth 64) 0 = true ∨
      inBranchRange .R_CPU0_PC24 (P.setWidth 64) (T.setWidth 64) = false)

/-- The distance that the 32-bit program counter has to be changed by. -/
def distance (P T : BitVec 32) : BitVec 32 := T - P - 4

theorem branchValue_setWidth (P T : BitVec 32) :
    (branchValue P T - 4).setWidth 32 = distance P T := by
  have hback : ∀ x : BitVec 32, (x.setWidth 64).setWidth 32 = x := fun x => by simp
  rw [branchValue, PcRelative.setWidth_sub (by decide), PcRelative.setWidth_sub (by decide),
    hback, hback]
  rfl

theorem branchTarget_iff (e : Endianness) (mem : Bytes) (loc : ℕ) (P T : BitVec 32) :
    (∃ mem', relocate e mem loc .R_CPU0_PC24 (branchValue P T) = some mem' ∧
      branchTarget P (read32 e mem' loc) = T) ↔
        -2 ^ 23 ≤ (distance P T).toInt ∧ (distance P T).toInt < 2 ^ 23 := by
  obtain ⟨word, hrel, -, hoff⟩ := relocate_pc24 e mem loc (branchValue P T)
  have hfield : offset24 word = (distance P T).setWidth 24 := by
    rw [hoff, ← branchValue_setWidth, BitVec.setWidth_setWidth_of_le _ (by decide)]
  have hreach := PcRelative.target_setWidth_iff (n := 24) (by decide) (by decide) 4 P T
  constructor
  · rintro ⟨mem', hmem, htarget⟩
    obtain rfl := Option.some.inj (hrel.symm.trans hmem)
    rw [read32_write32, branchTarget, hfield] at htarget
    exact hreach.mp htarget
  · intro hrange
    refine ⟨_, hrel, ?_⟩
    rw [read32_write32, branchTarget, hfield]
    exact hreach.mpr hrange

/-- Exactly the branches whose distance fits the field are not mis-linked in silence. -/
theorem notSilent_iff (e : Endianness) (mem : Bytes) (loc : ℕ) (P T : BitVec 32) :
    NotSilent e mem loc P T ↔
      -2 ^ 23 ≤ (distance P T).toInt ∧ (distance P T).toInt < 2 ^ 23 := by
  rw [← branchTarget_iff e mem loc P T]
  constructor
  · rintro ⟨mem', hmem, htarget | herror | hthunk | hrange⟩
    · exact ⟨mem', hmem, htarget⟩
    · exact absurd rfl herror
    · cases hthunk
    · cases hrange
  · rintro ⟨mem', hmem, htarget⟩
    exact ⟨mem', hmem, .inl htarget⟩

/-- A call of `checkInt` would report every one of them. -/
theorem checkInt_reports {e : Endianness} {mem : Bytes} {loc : ℕ} {P T : BitVec 32}
    (h : ¬∃ mem', relocate e mem loc .R_CPU0_PC24 (branchValue P T) = some mem' ∧
      branchTarget P (read32 e mem' loc) = T) : checkInt (branchValue P T - 4) 24 ≠ [] := by
  intro hnone
  have hfits : ((branchValue P T - 4).setWidth 24).signExtend 64 = branchValue P T - 4 := by
    by_contra hne
    rw [checkInt, if_pos (Ne.symm hne)] at hnone
    cases hnone
  obtain ⟨hlow, hhigh⟩ :=
    (PcRelative.signExtend_setWidth_iff (by decide) (by decide) _).mp hfits
  -- a distance of 24 bits is the same in 32 and in 64 bits
  have hint : (distance P T).toInt = (branchValue P T - 4).toInt := by
    have hleast : (-2 ^ (32 - 1) : ℤ) ≤ -2 ^ (24 - 1) := by decide
    have hgreatest : (2 ^ (24 - 1) : ℤ) ≤ 2 ^ (32 - 1) := by decide
    rw [← branchValue_setWidth, PcRelative.toInt_setWidth_bmod (by decide), ← BitVec.toInt_ofInt]
    exact BitVec.toInt_ofInt_eq_self (by decide) (Int.le_trans hleast hlow)
      (Int.lt_of_lt_of_le hhigh hgreatest)
  rw [branchTarget_iff, hint] at h
  exact h ⟨hlow, hhigh⟩

/-- A branch over 16 MiB goes to the next instruction, and nothing is reported. -/
theorem far_branch_silent :
    ¬∀ (e : Endianness) (mem : Bytes) (loc : ℕ) (P T : BitVec 32), NotSilent e mem loc P T := by
  intro h
  obtain ⟨mem', hmem, htarget | herror | hthunk | hrange⟩ := h .big jmpZero 0 0 0x1000004
  · obtain rfl := Option.some.inj hmem
    revert htarget
    decide
  · exact absurd rfl herror
  · cases hthunk
  · cases hrange

end Cpu0Toolchain.Lld
