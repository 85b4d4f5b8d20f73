import Cpu0Toolchain.Elf2Hex.VerilogHex

/-!
# The reader of elf2hex

`Reader::DisassembleObject` walks the sections of an object and calls the two
entry points of the `HexOut` interface. The calls do not change what the reader
does next, so the reader is the list of calls it makes, and `VerilogHex` executes
that list until it is through or stops.
-/

namespace Cpu0Toolchain.Elf2Hex

/-- A call of the `HexOut` interface. -/
inductive Call where
  | processDataSection (sec : SectionRef)
  | processDisAsmInstruction (cur : Current) (size : ℕ) (bytes : List UInt8)
  deriving DecidableEq

def VerilogHex.call (host : Host) (hex : VerilogHex) : Call → Except (Stop × VerilogHex) VerilogHex
  | .processDataSection sec => .ok (processDataSection host sec hex)
  | .processDisAsmInstruction cur size bytes => processDisAsmInstruction host cur size bytes hex

def VerilogHex.run (host : Host) : VerilogHex → List Call → Except (Stop × VerilogHex) VerilogHex :=
  StopRun.run (VerilogHex.call host)

/-- An entry of `Symbols`: offset in the section, and name. -/
abbrev Symbol := ℕ × String

/-- The order of `std::pair<uint64_t, StringRef>`. -/
def symbolLe (a b : Symbol) : Prop := a.1 < b.1 ∨ (a.1 = b.1 ∧ a.2 ≤ b.2)

instance : DecidableRel symbolLe := fun a b =>
  inferInstanceAs (Decidable (a.1 < b.1 ∨ (a.1 = b.1 ∧ a.2 ≤ b.2)))

instance : Std.Total symbolLe where
  total a b := by
    rcases lt_trichotomy a.1 b.1 with h | h | h
    · exact Or.inl (Or.inl h)
    · rcases le_total a.2 b.2 with h2 | h2
      · exact Or.inl (Or.inr ⟨h, h2⟩)
      · exact Or.inr (Or.inr ⟨h.symm, h2⟩)
    · exact Or.inr (Or.inl h)

instance : IsTrans Symbol symbolLe where
  trans a b c := by
    rintro (hab | ⟨hab, hab2⟩) (hbc | ⟨hbc, hbc2⟩)
    · exact Or.inl (hab.trans hbc)
    · exact Or.inl (hbc ▸ hab)
    · exact Or.inl (hab ▸ hbc)
    · exact Or.inr ⟨hab.trans hbc, hab2.trans hbc2⟩

/-- `array_pod_sort`. -/
def sortSymbols (symbols : List Symbol) : List Symbol := symbols.insertionSort symbolLe

/-- The reader's fields that outlive a section. `si` and `Index` are loop counters,
written before they are read, and travel in the calls. -/
structure Reader where
  symbols : List Symbol
  deriving DecidableEq

/-- The symbols of one section, as offsets below its size, in symbol table order. -/
def sectionSymbols (obj : ObjectFile) (sec : SectionRef) : List Symbol :=
  obj.symbols.filterMap fun symbol =>
    if sec.containsSymbol symbol then
      let address := sub64 symbol.address sec.address
      if address ≥ sec.size then none else some (address, symbol.name)
    else none

/-- The symbol list is appended to and sorted, never cleared. The dummy's name is the
variable that `getName` leaves empty. -/
def Reader.loadSymbols (obj : ObjectFile) (sec : SectionRef) (reader : Reader) : Reader :=
  let symbols := sortSymbols (reader.symbols ++ sectionSymbols obj sec)
  if symbols.isEmpty then ⟨[(0, getName sec "")]⟩ else ⟨symbols⟩

/-- `for (Index = Start; Index < End; Index += Size)`, as what the reader's `Current`
accessors answer in each round. -/
def rangeLoop (sec : SectionRef) (si : ℕ) (symbol : String) (start stop : ℕ) : List Current :=
  (ForLoop.indices start stop 4).map fun index => ⟨sec, index, si, symbol⟩

/-- The loop over `Symbols`, from its entry number `si` on. -/
def symbolLoop (sec : SectionRef) : ℕ → List Symbol → List Current
  | _, [] => []
  | si, [symbol] => rangeLoop sec si symbol.2 symbol.1 sec.size
  | si, symbol :: next :: rest =>
    -- Make sure this symbol takes up space.
    (if next.1 ≠ symbol.1 then rangeLoop sec si symbol.2 symbol.1 (next.1 - 1) else []) ++
      symbolLoop sec (si + 1) (next :: rest)

def textCall (sec : SectionRef) (cur : Current) : Call :=
  .processDisAsmInstruction cur 4 sec.contents

def Reader.disassembleSection (obj : ObjectFile) (reader : Reader) (sec : SectionRef) :
    Reader × List Call :=
  if sec.size = 0 then (reader, [])
  else if sec.address < 0x100 then (reader, [])
  else if !sec.isText then (reader, [.processDataSection sec])
  else
    let reader := reader.loadSymbols obj sec
    (reader, (symbolLoop sec 0 reader.symbols).map (textCall sec))

def Reader.disassembleSections (obj : ObjectFile) : Reader → List SectionRef → Reader × List Call
  | reader, [] => (reader, [])
  | reader, sec :: rest =>
    let here := reader.disassembleSection obj sec
    let next := Reader.disassembleSections obj here.1 rest
    (next.1, here.2 ++ next.2)

/-- The global `reader` before the first object. -/
def Reader.initial : Reader := ⟨[]⟩

/-- `Reader::DisassembleObject` on the first object of a process. -/
def disassembleObject (host : Host) (littleEndian : Bool) (si : ℕ) (obj : ObjectFile) :
    Except (Stop × VerilogHex) VerilogHex :=
  (VerilogHex.create obj littleEndian si).run host
    (Reader.initial.disassembleSections obj obj.sections).2

/-- The reader over the input files of one process, with the calls for each of them. -/
def Reader.disassembleFiles : Reader → List ObjectFile → Reader × List (List Call)
  | reader, [] => (reader, [])
  | reader, obj :: rest =>
    let here := reader.disassembleSections obj obj.sections
    let next := Reader.disassembleFiles here.1 rest
    (next.1, here.2 :: next.2)

theorem disassembleSections_append (obj : ObjectFile) (reader : Reader) (xs ys : List SectionRef) :
    reader.disassembleSections obj (xs ++ ys) =
      let first := reader.disassembleSections obj xs
      let second := first.1.disassembleSections obj ys
      (second.1, first.2 ++ second.2) := by
  induction xs generalizing reader with
  | nil => rfl
  | cons x xs ih => simp [Reader.disassembleSections, ih]

theorem disassembleSection_skipped {obj : ObjectFile} {reader : Reader} {sec : SectionRef}
    (h : sec.dumped = false) : reader.disassembleSection obj sec = (reader, []) := by
  simp only [SectionRef.dumped, decide_eq_false_iff_not] at h
  unfold Reader.disassembleSection
  by_cases h0 : sec.size = 0
  · rw [if_pos h0]
  · rw [if_neg h0, if_pos (by omega)]

theorem disassembleSection_data {obj : ObjectFile} {reader : Reader} {sec : SectionRef}
    (h : sec.dumped = true) (ht : sec.isText = false) :
    reader.disassembleSection obj sec = (reader, [.processDataSection sec]) := by
  simp only [SectionRef.dumped, decide_eq_true_eq] at h
  simp [Reader.disassembleSection, h.1, Nat.not_lt.mpr h.2, ht]

theorem disassembleSection_text {obj : ObjectFile} {reader : Reader} {sec : SectionRef}
    (h : sec.dumped = true) (ht : sec.isText = true) :
    reader.disassembleSection obj sec =
      (reader.loadSymbols obj sec,
        (symbolLoop sec 0 (reader.loadSymbols obj sec).symbols).map (textCall sec)) := by
  simp only [SectionRef.dumped, decide_eq_true_eq] at h
  simp [Reader.disassembleSection, h.1, Nat.not_lt.mpr h.2, ht]

end Cpu0Toolchain.Elf2Hex
