import Cpu0Toolchain.Lld.Branch
import Cpu0Toolchain.Elf2Hex.ObjectImage

/-!
# The boot block runs

The dump is loaded at address 0, and its first four words are jumps. The hardware adds the
offset of a jump to the address behind it, modulo 2 ^ 32, in either byte order.

## Main results

- `bootSection_reaches`: the jumps go to `.text`, to the interrupt routine and to
  themselves.
- `dump_reaches`: so they do in the dump of an object, whatever comes behind them.
-/

namespace Cpu0Toolchain.Elf2Hex
open EndianWord
open Lld (opcode offset24 branchTarget)

def endianness (littleEndian : Bool) : Endianness := if littleEndian then .little else .big

/-- The memory of the hardware after `$readmemh`. -/
def loadImage (image : List UInt8) : Bytes := fun a => (image.getD a 0).toBitVec

/-- One instruction of a machine that knows `jmp`. -/
def jmpStep (e : Endianness) (mem : Bytes) (pc : BitVec 32) : Option (BitVec 32) :=
  let instr := read32 e mem pc.toNat
  if opcode instr = 0x36 then some (branchTarget pc instr) else none

/-- So many instructions, one after the other. -/
def jmpRun (e : Endianness) (mem : Bytes) : ℕ → BitVec 32 → Option (BitVec 32)
  | 0, pc => some pc
  | n + 1, pc => (jmpStep e mem pc).bind (jmpRun e mem n)

/-- Where execution goes from the entries of the boot block. -/
structure BootReaches (e : Endianness) (mem : Bytes) (textOffset isrAddr : ℕ) : Prop where
  text : jmpStep e mem 0 = some (BitVec.ofNat 32 textOffset)
  isr : jmpStep e mem 8 = some (BitVec.ofNat 32 isrAddr)
  abort : ∀ n, jmpRun e mem (n + 1) 4 = some 0xc

/-- A row of the dump. -/
def row (image : List UInt8) (r : ℕ) : List UInt8 := (image.drop (4 * r)).take 4

/-! ## A jump in memory -/

theorem jmpRun_fixed {e : Endianness} {mem : Bytes} {pc : BitVec 32}
    (h : jmpStep e mem pc = some pc) (n : ℕ) : jmpRun e mem n pc = some pc := by
  induction n with
  | zero => rfl
  | succ n ih => rw [jmpRun, h, Option.bind_some, ih]

/-- A byte of a word, as the program masks it out. -/
theorem byte_of_word (word k : ℕ) (h : k + 8 ≤ 32) :
    (UInt8.ofNat (word / 2 ^ k)).toBitVec = (BitVec.ofNat 32 word).extractLsb' k 8 := by
  change BitVec.ofNat 8 (word / 2 ^ k) = _
  apply BitVec.eq_of_getLsbD_eq
  intro i hi
  rw [BitVec.getLsbD_extractLsb', BitVec.getLsbD_ofNat, BitVec.getLsbD_ofNat,
    ← Nat.shiftRight_eq_div_pow, Nat.testBit_shiftRight]
  simp [hi, show k + i < 32 by omega]

theorem loadImage_inside {before bytes after : List UInt8} {i : ℕ} (hi : i < bytes.length) :
    loadImage (before ++ bytes ++ after) (before.length + i) = (bytes.getD i 0).toBitVec := by
  rw [loadImage, List.getD_eq_getElem?_getD, List.getD_eq_getElem?_getD, List.append_assoc,
    List.getElem?_append_right (Nat.le_add_right _ _), Nat.add_sub_cancel_left,
    List.getElem?_append_left hi]

/-- The word of a jump, read in its byte order. -/
theorem read32_jumpWord (littleEndian : Bool) (before after : List UInt8) (offset : ℕ) :
    read32 (endianness littleEndian)
        (loadImage (before ++ jumpWord littleEndian offset ++ after)) before.length =
      BitVec.ofNat 32 (0x36 * 2 ^ 24 + offset % 2 ^ 24) := by
  have hload : ∀ i < 4, loadImage (before ++ jumpWord littleEndian offset ++ after)
      (before.length + i) = ((jumpWord littleEndian offset).getD i 0).toBitVec := by
    intro i hi
    apply loadImage_inside
    cases littleEndian <;> exact hi
  have hload0 := hload 0 (by decide)
  rw [Nat.add_zero] at hload0
  -- the word is put together from its bytes, and the bytes are read in either order
  generalize hword : 0x36 * 2 ^ 24 + offset % 2 ^ 24 = word
  have hbyte0 := byte_of_word word 0 (by decide)
  rw [Nat.pow_zero, Nat.div_one] at hbyte0
  rw [← join_bytes (BitVec.ofNat 32 word), ← byte_of_word word 24 (by decide),
    ← byte_of_word word 16 (by decide), ← byte_of_word word 8 (by decide), ← hbyte0, ← hword]
  cases littleEndian with
  | false =>
    change read32 .big _ _ = _
    rw [read32, hload0, hload 1 (by decide), hload 2 (by decide), hload 3 (by decide)]
    rfl
  | true =>
    change read32 .little _ _ = _
    rw [read32, hload0, hload 1 (by decide), hload 2 (by decide), hload 3 (by decide)]
    rfl

theorem opcode_jump (offset : ℕ) :
    opcode (BitVec.ofNat 32 (0x36 * 2 ^ 24 + offset % 2 ^ 24)) = 0x36 := by
  apply BitVec.eq_of_toNat_eq
  rw [opcode, BitVec.extractLsb'_toNat, BitVec.toNat_ofNat, Nat.shiftRight_eq_div_pow]
  show _ = 0x36
  omega

theorem offset24_jump (offset : ℕ) :
    offset24 (BitVec.ofNat 32 (0x36 * 2 ^ 24 + offset % 2 ^ 24)) = BitVec.ofNat 24 offset := by
  apply BitVec.eq_of_toNat_eq
  rw [offset24, BitVec.extractLsb'_toNat, BitVec.toNat_ofNat, BitVec.toNat_ofNat, Nat.shiftRight_zero]
  omega

/-- The 64-bit subtraction of the program wraps, and its low bits do not notice. -/
theorem ofInt_sub64 (a b : ℕ) (hb : b ≤ 2 ^ 64) :
    BitVec.ofInt 24 (sub64 a b) = BitVec.ofInt 24 (a - b) := by
  apply BitVec.eq_of_toNat_eq
  rw [BitVec.toNat_ofInt, BitVec.toNat_ofInt, sub64]
  omega

/-- A jump with the offset `d` goes to `d` behind the next word. -/
theorem jmpStep_jumpWord {littleEndian : Bool} {before after : List UInt8} {pc : BitVec 32}
    {offset : ℕ} {d : ℤ} (hpc : pc.toNat = before.length)
    (hoffset : BitVec.ofInt 24 offset = BitVec.ofInt 24 d) (hlow : -2 ^ 23 ≤ d)
    (hhigh : d < 2 ^ 23) :
    jmpStep (endianness littleEndian)
        (loadImage (before ++ jumpWord littleEndian offset ++ after)) pc =
      some (BitVec.ofInt 32 (pc.toNat + 4 + d)) := by
  have hread := read32_jumpWord littleEndian before after offset
  have hfield : branchTarget pc (BitVec.ofNat 32 (0x36 * 2 ^ 24 + offset % 2 ^ 24)) =
      BitVec.ofInt 32 (pc.toNat + 4 + d) := by
    rw [branchTarget, offset24_jump, ← BitVec.ofInt_natCast, hoffset,
      PcRelative.target_ofInt (by decide) _ _ hlow hhigh, BitVec.ofInt_add, BitVec.ofInt_add,
      BitVec.ofInt_natCast, BitVec.ofNat_toNat, BitVec.setWidth_eq]
    rfl
  rw [jmpStep, hpc, hread, if_pos (opcode_jump offset), hfield, hpc]

/-! ## The block -/

section Block

variable {littleEndian : Bool} {textOffset isrAddr : ℕ} {rest : List UInt8}

theorem bootBlock_text (h4 : 4 ≤ textOffset) (htext : textOffset < 2 ^ 23) :
    jmpStep (endianness littleEndian)
        (loadImage (bootBlock littleEndian textOffset isrAddr ++ rest)) 0 =
      some (BitVec.ofNat 32 textOffset) := by
  obtain ⟨after, hword⟩ : ∃ after, bootBlock littleEndian textOffset isrAddr ++ rest =
      [] ++ jumpWord littleEndian (sub64 textOffset 4) ++ after := by
    simp only [bootBlock, List.append_assoc, List.nil_append]
    exact ⟨_, rfl⟩
  rw [hword, jmpStep_jumpWord rfl (ofInt_sub64 textOffset 4 (by decide)) (by omega) (by omega),
    ← BitVec.ofInt_natCast]
  congr 2
  simp

theorem bootBlock_abort :
    jmpStep (endianness littleEndian)
        (loadImage (bootBlock littleEndian textOffset isrAddr ++ rest)) 4 = some 0xc := by
  obtain ⟨after, hword⟩ : ∃ after, bootBlock littleEndian textOffset isrAddr ++ rest =
      jumpWord littleEndian (sub64 textOffset 4) ++ jumpWord littleEndian 4 ++ after := by
    simp only [bootBlock, List.append_assoc, List.append_cancel_left_eq]
    exact ⟨_, rfl⟩
  rw [hword, jmpStep_jumpWord (d := 4) (by rw [jumpWord_length]; rfl) rfl (by decide) (by decide)]
  rfl

theorem bootBlock_isr (hisr : isrAddr < 2 ^ 23) :
    jmpStep (endianness littleEndian)
        (loadImage (bootBlock littleEndian textOffset isrAddr ++ rest)) 8 =
      some (BitVec.ofNat 32 isrAddr) := by
  obtain ⟨after, hword⟩ : ∃ after, bootBlock littleEndian textOffset isrAddr ++ rest =
      (jumpWord littleEndian (sub64 textOffset 4) ++ jumpWord littleEndian 4) ++
        jumpWord littleEndian (sub64 (sub64 isrAddr 8) 4) ++ after := by
    simp only [bootBlock, List.append_assoc, List.append_cancel_left_eq]
    exact ⟨_, rfl⟩
  have hoffset : BitVec.ofInt 24 (sub64 (sub64 isrAddr 8) 4) = BitVec.ofInt 24 (isrAddr - 12) := by
    rw [ofInt_sub64 _ 4 (by decide), Int.sub_eq_add_neg, BitVec.ofInt_add,
      ofInt_sub64 isrAddr 8 (by decide), ← BitVec.ofInt_add]
    congr 1
    omega
  rw [hword, jmpStep_jumpWord (by rw [List.length_append, jumpWord_length, jumpWord_length]; rfl)
    hoffset (by omega) (by omega), ← BitVec.ofInt_natCast]
  congr 2
  simp

/-- The last jump goes to itself. -/
theorem bootBlock_stays :
    jmpStep (endianness littleEndian)
        (loadImage (bootBlock littleEndian textOffset isrAddr ++ rest)) 0xc = some 0xc := by
  obtain ⟨after, hword⟩ : ∃ after, bootBlock littleEndian textOffset isrAddr ++ rest =
      (jumpWord littleEndian (sub64 textOffset 4) ++ jumpWord littleEndian 4 ++
        jumpWord littleEndian (sub64 (sub64 isrAddr 8) 4)) ++ jumpWord littleEndian (sub64 0 4) ++
          after := by
    simp only [bootBlock, List.append_assoc, List.append_cancel_left_eq]
    exact ⟨_, rfl⟩
  rw [hword, jmpStep_jumpWord (d := -4)
    (by simp only [List.length_append, jumpWord_length]; rfl) (by decide) (by decide) (by decide)]
  rfl

theorem bootBlock_reaches (h4 : 4 ≤ textOffset) (htext : textOffset < 2 ^ 23)
    (hisr : isrAddr < 2 ^ 23) :
    BootReaches (endianness littleEndian)
      (loadImage (bootBlock littleEndian textOffset isrAddr ++ rest)) textOffset isrAddr where
  text := bootBlock_text h4 htext
  isr := bootBlock_isr hisr
  abort n := by rw [jmpRun, bootBlock_abort, Option.bind_some, jmpRun_fixed bootBlock_stays]

end Block

/-- Row by row, one byte order is the other one backwards. -/
theorem bootBlock_row (textOffset isrAddr : ℕ) {r : ℕ} (hr : r < 4) :
    row (bootBlock true textOffset isrAddr) r =
      (row (bootBlock false textOffset isrAddr) r).reverse := by
  have hcases : r = 0 ∨ r = 1 ∨ r = 2 ∨ r = 3 := by omega
  rcases hcases with rfl | rfl | rfl | rfl <;> rfl

theorem bootSection_reaches {textOffset isrAddr : ℕ} (h4 : 4 ≤ textOffset)
    (htext : textOffset < 2 ^ 23) (hisr : isrAddr < 2 ^ 23) :
    (∀ (littleEndian : Bool) (rest : List Readmemh.Token), BootReaches (endianness littleEndian)
      (loadImage (Readmemh.image (printBootSection textOffset isrAddr littleEndian ++ rest)))
      textOffset isrAddr) ∧
    ∀ r < 4, row (Readmemh.image (printBootSection textOffset isrAddr true)) r =
      (row (Readmemh.image (printBootSection textOffset isrAddr false)) r).reverse := by
  constructor
  · intro littleEndian rest
    rw [Readmemh.image_append, image_printBootSection]
    exact bootBlock_reaches h4 htext hisr
  · intro r hr
    rw [image_printBootSection, image_printBootSection]
    exact bootBlock_row textOffset isrAddr hr

/-- The interrupt routine right at the reset address, behind which the offset wraps. -/
theorem bootSection_reaches_zero :
    (∀ (littleEndian : Bool) (rest : List Readmemh.Token), BootReaches (endianness littleEndian)
      (loadImage (Readmemh.image (printBootSection 0x7fffff 0 littleEndian ++ rest))) 0x7fffff 0) ∧
    ∀ r < 4, row (Readmemh.image (printBootSection 0x7fffff 0 true)) r =
      (row (Readmemh.image (printBootSection 0x7fffff 0 false)) r).reverse :=
  bootSection_reaches (by decide) (by decide) (by decide)

/-- The dump of an object starts with the block, also when the process stops on the way. -/
theorem dump_reaches (host : Host) (littleEndian : Bool) (si : ℕ) {obj : ObjectFile}
    (h4 : 4 ≤ sectionOffset obj ".text") (htext : sectionOffset obj ".text" < 2 ^ 23)
    (hisr : getSymbolAddress obj "ISR" < 2 ^ 23) :
    BootReaches (endianness littleEndian)
      (loadImage (StopRun.final (disassembleObject host littleEndian si obj)).image)
      (sectionOffset obj ".text") (getSymbolAddress obj "ISR") := by
  obtain ⟨rest, himage⟩ := image_prefix_run host (VerilogHex.create obj littleEndian si)
    (Reader.initial.disassembleSections obj obj.sections).2
  rw [disassembleObject, ← himage, create_image, objectBoot, List.append_assoc]
  exact bootBlock_reaches h4 htext hisr

end Cpu0Toolchain.Elf2Hex
