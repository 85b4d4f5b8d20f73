import Cpu0Toolchain.Library.EndianWord

/-!
# Relocations of the Cpu0 linker

`CPU0::relocate` of `lld/ELF/Arch/Cpu0.cpp`. A section's bytes are an
`EndianWord.Bytes`, and C++'s mixed 32-bit and 64-bit arithmetic is `BitVec`
arithmetic with the conversions written out.
-/

namespace Cpu0Toolchain.Lld
open EndianWord

inductive RelType where
  | R_CPU0_32 | R_CPU0_HI16 | R_CPU0_LO16 | R_CPU0_PC24
  | other (code : ℕ)
  deriving DecidableEq, Repr

def applyCpu0PcReloc (BSIZE SHIFT : ℕ) (e : Endianness) (mem : Bytes) (loc : ℕ) (V : BitVec 64) :
    Bytes :=
  let Mask : BitVec 32 := 0xffffffff >>> (32 - BSIZE)
  let Instr := read32 e mem loc
  write32 e mem loc
    (((Instr &&& ~~~Mask).setWidth 64 ||| ((V >>> SHIFT) &&& Mask.setWidth 64)).setWidth 32)

/-- The shifted value is not masked: what it has above bit 15 goes into the opcode half. -/
def writeCpu0Hi16 (e : Endianness) (mem : Bytes) (loc : ℕ) (V : BitVec 64) : Bytes :=
  let Instr := read32 e mem loc
  write32 e mem loc (((Instr &&& 0xffff0000).setWidth 64 ||| (V >>> 16)).setWidth 32)

def writeCpu0Lo16 (e : Endianness) (mem : Bytes) (loc : ℕ) (V : BitVec 64) : Bytes :=
  let Instr := read32 e mem loc
  write32 e mem loc (((Instr &&& 0xffff0000).setWidth 64 ||| (V &&& 0xffff)).setWidth 32)

/-- `relocate`; a type it does not know is `llvm_unreachable`. -/
def relocate (e : Endianness) (mem : Bytes) (loc : ℕ) (type : RelType) (val : BitVec 64) :
    Option Bytes :=
  match type with
  | .R_CPU0_32 => some (write32 e mem loc (val.setWidth 32))
  | .R_CPU0_LO16 => some (writeCpu0Lo16 e mem loc val)
  | .R_CPU0_HI16 => some (writeCpu0Hi16 e mem loc val)
  | .R_CPU0_PC24 => some (applyCpu0PcReloc 24 0 e mem loc (val - 4))
  | .other _ => none

/-- The opcode and the registers of an instruction word. -/
def opcodeHalf (instr : BitVec 32) : BitVec 16 := instr.extractLsb' 16 16

def imm16 (instr : BitVec 32) : BitVec 16 := instr.extractLsb' 0 16

/-! ## The two halves -/

theorem relocate_apart {e : Endianness} {mem mem' : Bytes} {loc other : ℕ} {type : RelType}
    {val : BitVec 64} (h : relocate e mem loc type val = some mem')
    (hapart : other + 4 ≤ loc ∨ loc + 4 ≤ other) : read32 e mem' other = read32 e mem other := by
  cases type <;> cases h <;> exact read32_write32_apart hapart

theorem mask_bit {i : ℕ} (hi : i < 32) : (0xffff0000 : BitVec 32).getLsbD i = decide (16 ≤ i) := by
  revert i
  decide

theorem low_mask_bit {i : ℕ} (hi : i < 32) : (0xffff : BitVec 64).getLsbD i = decide (i < 16) := by
  revert i
  decide

/-- A bit of an instruction whose low half is replaced by or-ing a value into it. -/
theorem patched_bit (Instr : BitVec 32) (X : BitVec 64) {i : ℕ} (hi : i < 32) :
    (((Instr &&& 0xffff0000).setWidth 64 ||| X).setWidth 32).getLsbD i =
      (Instr.getLsbD i && decide (16 ≤ i) || X.getLsbD i) := by
  rw [BitVec.getLsbD_setWidth, BitVec.getLsbD_or, BitVec.getLsbD_setWidth, BitVec.getLsbD_and,
    mask_bit hi]
  simp [hi, show i < 64 by omega]

/-- The high relocation puts bits 16 to 31 of the value into the immediate, and the bits
above them on top of the opcode and the registers. -/
theorem hi16_word (Instr : BitVec 32) (V : BitVec 64) :
    let word := ((Instr &&& 0xffff0000).setWidth 64 ||| (V >>> 16)).setWidth 32
    opcodeHalf word = opcodeHalf Instr ||| V.extractLsb' 32 16 ∧
      imm16 word = V.extractLsb' 16 16 := by
  intro word
  constructor
  · ext i hi
    have hbit : word.getLsbD (16 + i) = _ := patched_bit Instr (V >>> 16) (by omega)
    rw [BitVec.getLsbD_ushiftRight, show 16 + (16 + i) = 32 + i by omega] at hbit
    simpa [opcodeHalf] using hbit
  · ext i hi
    have hbit : word.getLsbD i = _ := patched_bit Instr (V >>> 16) (by omega)
    rw [BitVec.getLsbD_ushiftRight] at hbit
    simpa [imm16, show ¬16 ≤ i by omega] using hbit

/-- The low relocation puts the low half of the value into the immediate, and nothing else. -/
theorem lo16_word (Instr : BitVec 32) (V : BitVec 64) :
    let word := ((Instr &&& 0xffff0000).setWidth 64 ||| (V &&& 0xffff)).setWidth 32
    opcodeHalf word = opcodeHalf Instr ∧ imm16 word = V.extractLsb' 0 16 := by
  intro word
  constructor
  · ext i hi
    have hbit : word.getLsbD (16 + i) = _ := patched_bit Instr (V &&& 0xffff) (by omega)
    rw [BitVec.getLsbD_and, low_mask_bit (by omega)] at hbit
    simpa [opcodeHalf, show ¬16 + i < 16 by omega] using hbit
  · ext i hi
    have hbit : word.getLsbD i = _ := patched_bit Instr (V &&& 0xffff) (by omega)
    rw [BitVec.getLsbD_and, low_mask_bit (by omega)] at hbit
    simpa [imm16, show ¬16 ≤ i by omega, hi] using hbit

/-- A 32-bit value from its halves. -/
theorem join_halves (V : BitVec 64) :
    (V.extractLsb' 16 16).setWidth 32 <<< 16 ||| (V.extractLsb' 0 16).setWidth 32 =
      V.setWidth 32 := by
  ext i hi
  by_cases hlow : i < 16
  · simp [hlow]
  · simp [hlow, show i - 16 < 16 by omega, show 16 + (i - 16) = i by omega]

/-! ## The pair -/

/-- After both relocations the upper halves of both words are what they were, and the two
immediates make up the value. -/
def LoadsAddress (e : Endianness) (mem : Bytes) (hi lo : ℕ) (val : BitVec 64) : Prop :=
  ∃ mem₁ mem₂, relocate e mem hi .R_CPU0_HI16 val = some mem₁ ∧
    relocate e mem₁ lo .R_CPU0_LO16 val = some mem₂ ∧
    opcodeHalf (read32 e mem₂ hi) = opcodeHalf (read32 e mem hi) ∧
    opcodeHalf (read32 e mem₂ lo) = opcodeHalf (read32 e mem lo) ∧
    (imm16 (read32 e mem₂ hi)).setWidth 32 <<< 16 ||| (imm16 (read32 e mem₂ lo)).setWidth 32 =
      val.setWidth 32

/-- Or-ing bits into a word leaves it alone exactly when it has them already. -/
theorem or_eq_left_iff {w : ℕ} (x y : BitVec w) : x ||| y = x ↔ y &&& ~~~x = 0 := by
  constructor
  · intro h
    ext i hi
    have hbit := congrArg (·[i]) h
    simp only [BitVec.getElem_or] at hbit
    cases hx : x[i] <;> simp_all
  · intro h
    ext i hi
    have hbit := congrArg (·[i]) h
    simp only [BitVec.getElem_and, BitVec.getElem_not] at hbit
    cases hx : x[i] <;> simp_all

/-- The pair loads the value and keeps both instructions exactly when bits 32 to 47 of the
value are bits the upper half of the first word has already. -/
theorem loadsAddress_iff (e : Endianness) (mem : Bytes) {hi lo : ℕ} (val : BitVec 64)
    (hapart : hi + 4 ≤ lo ∨ lo + 4 ≤ hi) :
    LoadsAddress e mem hi lo val ↔
      val.extractLsb' 32 16 &&& ~~~opcodeHalf (read32 e mem hi) = 0 := by
  have hi₁ : read32 e (writeCpu0Hi16 e mem hi val) hi = _ := read32_write32
  have lo₁ : read32 e (writeCpu0Hi16 e mem hi val) lo = read32 e mem lo :=
    read32_write32_apart hapart.symm
  have hi₂ : read32 e (writeCpu0Lo16 e (writeCpu0Hi16 e mem hi val) lo val) hi = _ :=
    (read32_write32_apart hapart).trans hi₁
  have lo₂ : read32 e (writeCpu0Lo16 e (writeCpu0Hi16 e mem hi val) lo val) lo = _ :=
    read32_write32
  rw [lo₁] at lo₂
  obtain ⟨hop, himm⟩ := hi16_word (read32 e mem hi) val
  obtain ⟨lop, limm⟩ := lo16_word (read32 e mem lo) val
  rw [← or_eq_left_iff, ← hop]
  constructor
  · rintro ⟨mem₁, mem₂, h₁, h₂, hkeep, -⟩
    obtain rfl := Option.some.inj h₁
    obtain rfl := Option.some.inj h₂
    rwa [hi₂] at hkeep
  · intro hkeep
    refine ⟨_, _, rfl, rfl, ?_, ?_, ?_⟩
    · rw [hi₂, hkeep]
    · rw [lo₂, lop]
    · rw [hi₂, lo₂, himm, limm]
      exact join_halves val

/-- `lui $at, 0` and `ori $at, $at, 0` in big-endian bytes at 0 and 4. -/
def luiOri : Bytes := fun a =>
  match a with
  | 0 => 0x0f
  | 1 => 0x10
  | 4 => 0x0d
  | 5 => 0x11
  | _ => 0

/-- An address below 2 ^ 31 is loaded. -/
theorem luiOri_loads_low_address : LoadsAddress .big luiOri 0 4 0x12345678 :=
  (loadsAddress_iff .big luiOri 0x12345678 (by decide)).mpr (by decide)

/-- The sign extension of an address from 2 ^ 31 on turns the `lui` into another word. -/
theorem high_address_overwrites_lui :
    ¬∀ (e : Endianness) (mem : Bytes) (hi lo : ℕ) (val : BitVec 64),
      (hi + 4 ≤ lo ∨ lo + 4 ≤ hi) → LoadsAddress e mem hi lo val := by
  intro h
  obtain ⟨mem₁, mem₂, h₁, h₂, hkeep, -⟩ := h .big luiOri 0 4 0xffffffff80000000 (by decide)
  obtain rfl := Option.some.inj h₁
  obtain rfl := Option.some.inj h₂
  revert hkeep
  decide

end Cpu0Toolchain.Lld
