import Mathlib.Data.List.Sort
import Mathlib.Data.String.Basic

/-!
# Object files as elf2hex reads them

The part of LLVM's `ObjectFile` interface that `elf2hex.cpp` asks for: sections
with address, size, kind and contents, and symbols. Cpu0 objects are ELF32, so
the fields of the file are 32-bit words and `uint64_t` sums of them do not wrap;
the `uint64_t` differences the program takes may, and are `sub64`.
-/

namespace Cpu0Toolchain.Elf2Hex

/-- What `SectionRef::isText` and the `SHT_NOBITS` test of `getContents` tell apart. -/
inductive SectionKind where
  | text | data | nobits
  deriving DecidableEq, Repr

structure SectionRef where
  /-- Position in the section header table. -/
  index : ℕ
  name : String
  address : ℕ
  size : ℕ
  kind : SectionKind
  /-- What `getContents` returns. -/
  contents : List UInt8
  address_lt : address < 2 ^ 32
  size_lt : size < 2 ^ 32
  contents_length : contents.length = if kind = .nobits then 0 else size
  deriving DecidableEq

structure SymbolRef where
  name : String
  address : ℕ
  /-- The section header the symbol refers to, none for undefined and absolute symbols. -/
  sectionIndex : Option ℕ
  /-- `getType` answers `ST_Debug`. -/
  debug : Bool
  deriving DecidableEq

structure ObjectFile where
  sections : List SectionRef
  symbols : List SymbolRef
  deriving DecidableEq

/-- `uint64_t` subtraction. -/
def sub64 (a b : ℕ) : ℕ := (a + (2 ^ 64 - b)) % 2 ^ 64

def SectionRef.isText (sec : SectionRef) : Bool := sec.kind = .text

def SectionRef.containsSymbol (sec : SectionRef) (symbol : SymbolRef) : Bool :=
  symbol.sectionIndex = some sec.index

/-- The section a symbol refers to. -/
def SymbolRef.getSection (obj : ObjectFile) (symbol : SymbolRef) : Option SectionRef :=
  symbol.sectionIndex.bind fun i => obj.sections.find? fun sec => sec.index = i

/-- The name `GetSymbolAddress` compares: a debug symbol goes by its section's name. -/
def SymbolRef.lookupName (obj : ObjectFile) (symbol : SymbolRef) : String :=
  match symbol.debug, symbol.getSection obj with
  | true, some sec => sec.name
  | _, _ => symbol.name

def getSymbolAddress (obj : ObjectFile) (symbolName : String) : ℕ :=
  match obj.symbols.find? fun symbol => symbol.lookupName obj = symbolName with
  | some symbol => symbol.address
  | none => 0

def sectionOffset (obj : ObjectFile) (secName : String) : ℕ :=
  match obj.sections.find? fun sec => sec.name = secName with
  | some sec => sec.address
  | none => 0

/-- `static void getName(SectionRef const &Section, StringRef Name)` takes `Name` by
value: the assignment in its body is lost and the caller's variable keeps its value. -/
def getName (_section : SectionRef) (callersName : String) : String := callersName

/-- A section `DisassembleObject` does not skip. -/
def SectionRef.dumped (sec : SectionRef) : Bool := sec.size ≠ 0 ∧ 0x100 ≤ sec.address

/-- A size rounded up to whole words, `(n + 3)/4*4`. -/
def wordCeil (n : ℕ) : ℕ := (n + 3) / 4 * 4

theorem le_wordCeil (n : ℕ) : n ≤ wordCeil n := by
  rw [wordCeil]
  omega

theorem dvd_wordCeil (n : ℕ) : 4 ∣ wordCeil n := Nat.dvd_mul_left 4 _

theorem wordCeil_of_dvd {n : ℕ} (h : 4 ∣ n) : wordCeil n = n := by
  rw [wordCeil]
  omega

/-- A word-aligned end of a rounded size does not pass a word-aligned address behind it. -/
theorem add_wordCeil_le {a n b : ℕ} (ha : 4 ∣ a) (hb : 4 ∣ b) (h : a + n ≤ b) :
    a + wordCeil n ≤ b := by
  rw [wordCeil]
  omega

end Cpu0Toolchain.Elf2Hex
