import Cpu0Toolchain.Library.ForLoop
import Cpu0Toolchain.Library.Readmemh
import Cpu0Toolchain.Elf2Hex.Object

/-!
# The hex writer of elf2hex

`VerilogHex` of `elf2hex.cpp`: the constructor with its boot block, the zero
fill, and the two `Process` entry points the reader calls. What is written to
`outs()` is a list of `Readmemh.Token`.
-/

namespace Cpu0Toolchain.Elf2Hex
open Readmemh (Token)

/-- What the program gets from outside: LLVM's Cpu0 disassembler, which fails on words
it cannot decode, and the characters the C library prints for the conversion `%8:`,
which C leaves undefined. -/
structure Host where
  disas : List UInt8 → Option (List Char)
  colonConversion : List Char

/-- Ways to stop early: `exit(1)` in `reportError`, or a failed assertion in LLVM. -/
inductive Stop where
  | exit1 | assertion
  deriving DecidableEq, Repr

structure VerilogHex where
  outs : List Token
  lastDumpAddr : ℕ
  si : ℕ
  sectionName : String
  deriving DecidableEq

/-- What has been written so far, as the bytes outside the comments. -/
def VerilogHex.image (hex : VerilogHex) : List UInt8 := Readmemh.image hex.outs

def VerilogHex.write (toks : List Token) (hex : VerilogHex) : VerilogHex :=
  { hex with outs := hex.outs ++ toks }

def bootSize : ℕ := 16

/-- `format("%8" PRIx64, n)`. -/
def hex8 (n : ℕ) : List Char := (Nat.toDigits 16 n).leftpad 8 ' '

def newline : Token := .blank ['\n']

/-- One row of the boot block: address, four bytes, and the instruction as a comment. -/
def bootRow (address : String) (b₀ b₁ b₂ b₃ : UInt8) (asm : List Char) : List Token :=
  [.comment (address.toList ++ [':']), .blank ['\t'],
    .byte b₀, .blank [' '], .byte b₁, .blank [' '], .byte b₂, .blank [' '], .byte b₃,
    .blank (List.replicate 34 ' '), .comment ("\tjmp\t".toList ++ asm ++ [' ']), newline]

/-- `0x` and the three bytes of a jump offset. -/
def jumpComment (b₂ b₁ b₀ : UInt8) : List Char :=
  "0x".toList ++ (Readmemh.hexByte b₂ ++ Readmemh.hexByte b₁ ++ Readmemh.hexByte b₀)

def printBootSection (textOffset isrAddr : ℕ) (isLittleEndian : Bool) : List Token :=
  let offset := sub64 textOffset 4
  -- isr instruction at 0x8 and PC counter point to next instruction
  let isrOffset := sub64 (sub64 isrAddr 8) 4
  let low (n : ℕ) := UInt8.ofNat (n &&& 0xff)
  let mid (n : ℕ) := UInt8.ofNat ((n &&& 0xff00) >>> 8)
  let high (n : ℕ) := UInt8.ofNat ((n &&& 0xff0000) >>> 16)
  if isLittleEndian then
    bootRow "       0" (low offset) (mid offset) (high offset) 0x36
        (jumpComment (high offset) (mid offset) (low offset)) ++
      bootRow "       4" 0x04 0x00 0x00 0x36 ['4'] ++
      bootRow "       8" (low isrOffset) (mid isrOffset) (high isrOffset) 0x36
        (jumpComment (high isrOffset) (mid isrOffset) (low isrOffset)) ++
      bootRow "       c" 0xfc 0xff 0xff 0x36 ['-', '4']
  else
    bootRow "       0" 0x36 (high offset) (mid offset) (low offset)
        (jumpComment (high offset) (mid offset) (low offset)) ++
      bootRow "       4" 0x36 0x00 0x00 0x04 ['4'] ++
      bootRow "       8" 0x36 (high isrOffset) (mid isrOffset) (low isrOffset)
        (jumpComment (high isrOffset) (mid isrOffset) (low isrOffset)) ++
      bootRow "       c" 0x36 0xff 0xff 0xfc ['-', '4']

/-- One line of `Fill0s`. -/
def fill0sLine (addr : ℕ) : List Token :=
  [.comment (hex8 addr ++ [':']), .blank ['\t'], .byte 0, .blank [' '], .byte 0, .blank [' '],
    .byte 0, .blank [' '], .byte 0, .blank [' '], newline]

/-- `Fill0s`, whose assertion is the hypothesis. -/
def fill0s (startAddr endAddr : ℕ) (_ : startAddr ≤ endAddr) : List Token :=
  (ForLoop.indices startAddr endAddr 4).flatMap fill0sLine

/-- The constructor. It leaves `si` as it finds it. -/
def VerilogHex.create (obj : ObjectFile) (littleEndian : Bool) (si : ℕ) : VerilogHex :=
  let isrAddr := getSymbolAddress obj "ISR"
  let textOffset := sectionOffset obj ".text"
  { outs := printBootSection textOffset isrAddr littleEndian ++
      fill0s bootSize 0x100 (by decide)
    lastDumpAddr := 0x100
    si := si
    sectionName := "" }

/-- The gap before a section, filled when the section starts behind the last byte. -/
def VerilogHex.fillGap (address : ℕ) (hex : VerilogHex) : VerilogHex :=
  if h : hex.lastDumpAddr < address then
    { hex.write (fill0s hex.lastDumpAddr (address - 1) (by omega)) with lastDumpAddr := address }
  else hex

/-- The answers of the reader's `Current` accessors during a call. -/
structure Current where
  sec : SectionRef
  index : ℕ
  si : ℕ
  symbol : String
  deriving DecidableEq

/-- `ArrayRef::slice(N, M)`, with its assertion. -/
def slice (bytes : List UInt8) (n m : ℕ) : Option (List UInt8) :=
  if n + m ≤ bytes.length then some ((bytes.drop n).take m) else none

/-- `llvm::dumpBytes`: the bytes in hex, a blank between them. -/
def dumpBytes : List UInt8 → List Token
  | [] => []
  | [b] => [.byte b]
  | b :: rest => .byte b :: .blank [' '] :: dumpBytes rest

/-- print section name when meeting it first time -/
def VerilogHex.printSectionName (sec : SectionRef) (hex : VerilogHex) : VerilogHex :=
  if hex.sectionName ≠ sec.name then
    { hex.write [.comment ("Disassembly of section ".toList ++ sec.name.toList ++ [':'])] with
      sectionName := sec.name }
  else hex

/-- print function name in section .text just before the first instruction is printed -/
def VerilogHex.printSymbol (si : ℕ) (symbol : String) (hex : VerilogHex) : VerilogHex :=
  if hex.si ≠ si then
    { hex.write [newline, .comment (symbol.toList ++ [':']), newline] with si := si }
  else hex

/-- What stands before the bytes of an instruction. -/
def VerilogHex.printPlace (cur : Current) (hex : VerilogHex) : VerilogHex :=
  ((hex.printSectionName cur.sec).printSymbol cur.si cur.symbol).write
    [.comment (hex8 (cur.sec.address + cur.index) ++ [':']), .blank ['\t']]

def processDisAsmInstruction (host : Host) (cur : Current) (size : ℕ) (bytes : List UInt8)
    (hex : VerilogHex) : Except (Stop × VerilogHex) VerilogHex :=
  let sectionAddr := cur.sec.address
  -- `Contents` is declared and never assigned: the result of getContents() is dropped.
  let contents : List UInt8 := []
  let hex := (hex.fillGap sectionAddr).printPlace cur
  match slice bytes cur.index size with
  | none => .error (.assertion, hex)
  | some word =>
    let hex := hex.write (dumpBytes word)
    match host.disas (bytes.drop cur.index) with
    | none => .error (.exit1, hex)
    | some asm =>
      let hex := hex.write [.comment (' ' :: asm), newline]
      .ok { hex with lastDumpAddr :=
        if contents.length < sectionAddr + cur.index + 4 then sectionAddr + cur.index + 4
        else sectionAddr + contents.length }

/-- `isprint` in the C locale. -/
def isPrint (b : UInt8) : Bool := 0x20 ≤ b ∧ b ≤ 0x7e

/-- One character of the printable column. -/
def asciiChar (b : UInt8) : Char := if isPrint b then Char.ofNat b.toNat else '.'

def hexColumn (contents : List UInt8) (addr : ℕ) : List Token :=
  (List.range 16).flatMap fun i =>
    (if i ≠ 0 ∧ i % 4 = 0 then [.blank [' ']] else []) ++
    -- the loop's `addr + i < end` is the lookup that succeeds
    contents[addr + i]?.toList.flatMap fun b => [.byte b, .blank [' ']]

def asciiColumn (contents : List UInt8) (addr : ℕ) : List Char :=
  (List.range 16).flatMap fun i => contents[addr + i]?.toList.map asciiChar

/-- One line of `PrintDataSection`. Its address comment has the format
`"/*%8:" PRIx64 ":*/\t"`, a slip for `"/*%8" PRIx64 ":*/\t"`: the address is not printed. -/
def dataLine (host : Host) (contents : List UInt8) (addr : ℕ) : List Token :=
  [.comment (host.colonConversion ++ "lx:".toList), .blank ['\t']] ++ hexColumn contents addr ++
    [.comment ("  ".toList ++ asciiColumn contents addr), newline]

/-- The text `PrintDataSection` writes for contents that are not empty. -/
def dataText (host : Host) (name : String) (contents : List UInt8) : List Token :=
  [.comment ("Contents of section ".toList ++ name.toList ++ [':']), newline] ++
    (ForLoop.indices 0 contents.length 16).flatMap (dataLine host contents) ++
    (ForLoop.indices contents.length (wordCeil contents.length) 1).flatMap
      (fun _ => [.byte 0, .blank [' ']]) ++ [newline]

def printDataSection (host : Host) (sec : SectionRef) (hex : VerilogHex) : VerilogHex :=
  let name := getName sec ""
  let contents := sec.contents
  if contents.length ≤ 0 then hex
  else
    let hex := hex.write (dataText host name contents)
    { hex with lastDumpAddr := sec.address + wordCeil contents.length }

def processDataSection (host : Host) (sec : SectionRef) (hex : VerilogHex) : VerilogHex :=
  let name := getName sec ""
  -- `Contents` is declared and never assigned here either.
  let contents : List UInt8 := []
  let baseAddr := sec.address
  let hex := hex.fillGap baseAddr
  if h : (name = ".bss" ∨ name = ".sbss") ∧ 0 < contents.length then
    let size := wordCeil contents.length
    { hex.write (fill0s baseAddr (baseAddr + size - 1)
        (by have := le_wordCeil contents.length; omega)) with
      lastDumpAddr := baseAddr + size }
  else printDataSection host sec hex

end Cpu0Toolchain.Elf2Hex
