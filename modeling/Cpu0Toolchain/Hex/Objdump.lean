import Cpu0Toolchain.Hex.Filterhex
import Cpu0Toolchain.Library.Readmemh

/-!
# filterhex behind llvm-objdump

The lines of a listing as `llvm-objdump.cpp` prints them, and what `filterHex` takes out of
them. The address stands in a column of eight, so that a line begins with a blank only as long
as the address has seven digits at most.

## Main results

- `filterHex_listing`: what is written for a listing.
- `extracts_iff`: the listings whose instructions are all written.
-/

namespace Cpu0Toolchain.Hex
open TextStream HexLine Readmemh

/-! ## Listings -/

/-- A line of a listing. What the disassembler, the symbol table and the source files give is
free, but for newlines. -/
inductive ListingLine
  | instruction (address : UInt32) (b₀ b₁ b₂ b₃ : UInt8) (more : ℕ) (asm : Text)
      (whole : '\n' ∉ asm)
  | symbol (address : UInt32) (label : Text) (whole : '\n' ∉ label)
  | sectionHeading (name : Text) (whole : '\n' ∉ name)
  | source (text : Text) (whole : '\n' ∉ text)
  | blank

/-- `dumpBytes` -/
def dumpBytes (b₀ b₁ b₂ b₃ : UInt8) : Text :=
  hexByte b₀ ++ ' ' :: (hexByte b₁ ++ ' ' :: (hexByte b₂ ++ ' ' :: hexByte b₃))

/-- `format("%8" PRIx64, address)` -/
def addressColumn (address : UInt32) : Text := (Nat.toDigits 16 address.toNat).leftpad 8 ' '

/-- `format("%08" PRIx64, address)` -/
def addressZeros (address : UInt32) : Text := (Nat.toDigits 16 address.toNat).leftpad 8 '0'

namespace ListingLine

/-- An instruction is printed by `printInst`, two blanks at least before its tab. -/
def text : ListingLine → Text
  | instruction address b₀ b₁ b₂ b₃ more asm _ =>
    addressColumn address ++ ':' :: ' ' :: (dumpBytes b₀ b₁ b₂ b₃ ++
      ' ' :: ' ' :: (List.replicate more ' ' ++ '\t' :: asm))
  | symbol address label _ => addressZeros address ++ ' ' :: label
  | sectionHeading name _ => "Disassembly of section ".toList ++ (name ++ [':'])
  | source text _ => ';' :: text
  | blank => []

/-- The line that is to be written: the four bytes of an instruction. -/
def bytesLine : ListingLine → List Text
  | instruction _ b₀ b₁ b₂ b₃ _ _ _ => [' ' :: dumpBytes b₀ b₁ b₂ b₃]
  | _ => []

/-- The address does not fill its column. -/
def Low : ListingLine → Prop
  | instruction address _ _ _ _ _ _ _ => address.toNat < 2 ^ 28
  | _ => True

instance : DecidablePred Low
  | instruction _ _ _ _ _ _ _ _ => inferInstanceAs (Decidable (_ < _))
  | symbol _ _ _ => .isTrue trivial
  | sectionHeading _ _ => .isTrue trivial
  | source _ _ => .isTrue trivial
  | blank => .isTrue trivial

end ListingLine

/-- A listing, with a newline behind each line. -/
def listing (lines : List ListingLine) : Text := unlines (lines.map ListingLine.text)

/-- Exactly the lines of the instructions are written, in order. -/
def Extracts (lines : List ListingLine) : Prop :=
  filterHex (listing lines) = unlines (lines.flatMap ListingLine.bytesLine)

/-! ## Digits -/

theorem digitChar_ne {v : ℕ} (h : v < 16) :
    Nat.digitChar v ≠ ' ' ∧ Nat.digitChar v ≠ ':' ∧ Nat.digitChar v ≠ ';' ∧
      Nat.digitChar v ≠ '\n' := by
  interval_cases v <;> decide

theorem mem_toDigits {n : ℕ} {c : Char} (h : c ∈ Nat.toDigits 16 n) :
    ∃ v < 16, c = Nat.digitChar v := by
  induction n using Nat.strongRecOn with
  | ind n ih =>
    by_cases hn : n < 16
    · rw [Nat.toDigits_of_lt_base hn] at h
      exact ⟨n, hn, List.mem_singleton.mp h⟩
    · rw [Nat.toDigits_of_base_le (by decide) (Nat.not_lt.mp hn)] at h
      rcases List.mem_append.mp h with h | h
      · exact ih (n / 16) (by omega) h
      · exact ⟨n % 16, Nat.mod_lt _ (by decide), List.mem_singleton.mp h⟩

/-- A padded number has digits and pads. -/
theorem mem_leftpad {n : ℕ} {c pad : Char} (h : c ∈ (Nat.toDigits 16 n).leftpad 8 pad) :
    c = pad ∨ ∃ v < 16, c = Nat.digitChar v := by
  rcases List.mem_append.mp h with h | h
  · exact .inl (List.mem_replicate.mp h).2
  · exact .inr (mem_toDigits h)

theorem colon_not_mem_addressColumn (address : UInt32) : ':' ∉ addressColumn address := by
  intro h
  rcases mem_leftpad h with h | ⟨v, hv, h⟩
  · cases h
  · exact (digitChar_ne hv).2.1 h.symm

theorem blank_not_mem_addressZeros (address : UInt32) : ' ' ∉ addressZeros address := by
  intro h
  rcases mem_leftpad h with h | ⟨v, hv, h⟩
  · cases h
  · exact (digitChar_ne hv).1 h.symm

theorem newline_not_mem_leftpad {n : ℕ} {pad : Char} (hpad : pad ≠ '\n') :
    '\n' ∉ (Nat.toDigits 16 n).leftpad 8 pad := by
  intro h
  rcases mem_leftpad h with h | ⟨v, hv, h⟩
  · exact hpad h.symm
  · exact (digitChar_ne hv).2.2.2 h.symm

/-- A column of eight holds every address. -/
theorem length_leftpad (address : UInt32) (pad : Char) :
    ((Nat.toDigits 16 address.toNat).leftpad 8 pad).length = 8 := by
  have h : (Nat.toDigits 16 address.toNat).length ≤ 8 :=
    (Nat.length_toDigits_le_iff (by decide) (by decide)).mpr address.toNat_lt
  rw [List.leftpad, List.length_append, List.length_replicate]
  omega

theorem length_addressColumn (address : UInt32) : (addressColumn address).length = 8 :=
  length_leftpad address ' '

theorem length_addressZeros (address : UInt32) : (addressZeros address).length = 8 :=
  length_leftpad address '0'

/-- The column begins with a blank as long as the number has seven digits. -/
theorem head_addressColumn (address : UInt32) :
    (addressColumn address).head? = some ' ' ↔ address.toNat < 2 ^ 28 := by
  have hseven : (Nat.toDigits 16 address.toNat).length ≤ 7 ↔ address.toNat < 16 ^ 7 :=
    Nat.length_toDigits_le_iff (by decide) (by decide)
  rw [show (2 : ℕ) ^ 28 = 16 ^ 7 by decide, ← hseven, addressColumn, List.leftpad]
  by_cases h : (Nat.toDigits 16 address.toNat).length ≤ 7
  · obtain ⟨k, hk⟩ : ∃ k, 8 - (Nat.toDigits 16 address.toNat).length = k + 1 :=
      ⟨7 - (Nat.toDigits 16 address.toNat).length, by omega⟩
    rw [hk]
    exact ⟨fun _ => h, fun _ => rfl⟩
  · rw [show 8 - (Nat.toDigits 16 address.toNat).length = 0 by omega]
    refine ⟨fun hhead => ?_, fun h' => absurd h' h⟩
    obtain ⟨v, hv, hblank⟩ := mem_toDigits (List.mem_of_mem_head? hhead)
    exact absurd hblank.symm (digitChar_ne hv).1

theorem hexByte_eq (b : UInt8) :
    ∃ v < 16, ∃ w < 16, hexByte b = [Nat.digitChar v, Nat.digitChar w] := by
  have hb := b.toNat_lt
  exact ⟨b.toNat / 16, by omega, b.toNat % 16, by omega, rfl⟩

theorem newline_not_mem_hexByte (b : UInt8) : '\n' ∉ hexByte b := by
  obtain ⟨v, hv, w, hw, hb⟩ := hexByte_eq b
  intro h
  rw [hb] at h
  rcases List.mem_pair.mp h with h | h
  · exact (digitChar_ne hv).2.2.2 h.symm
  · exact (digitChar_ne hw).2.2.2 h.symm

/-! ## One line -/

section Instruction

variable (b₀ b₁ b₂ b₃ : UInt8)

/-- The bytes end at the first two blanks behind the colon. -/
theorem findAt_dumpBytes (after : Text) (i : ℕ) :
    findAt "  ".toList (' ' :: (dumpBytes b₀ b₁ b₂ b₃ ++ ' ' :: ' ' :: after)) i = i + 12 := by
  obtain ⟨v₀, hv₀, w₀, hw₀, h₀⟩ := hexByte_eq b₀
  obtain ⟨v₁, hv₁, w₁, hw₁, h₁⟩ := hexByte_eq b₁
  obtain ⟨v₂, hv₂, w₂, hw₂, h₂⟩ := hexByte_eq b₂
  obtain ⟨v₃, hv₃, w₃, hw₃, h₃⟩ := hexByte_eq b₃
  have hblank : "  ".toList = [' ', ' '] := rfl
  have hne : ∀ {v : ℕ}, v < 16 → ' ' ≠ Nat.digitChar v := fun hv h => (digitChar_ne hv).1 h.symm
  rw [dumpBytes, h₀, h₁, h₂, h₃, hblank]
  simp [findAt, hne hv₀, hne hw₀, hne hv₁, hne hw₁, hne hv₂, hne hw₂, hne hv₃, hne hw₃]

theorem checkInput_dumpBytes : checkInput (' ' :: dumpBytes b₀ b₁ b₂ b₃) = true := by
  have hdigit : ∀ {v : ℕ}, v < 16 → ∃ v', IsDigit v' (Nat.digitChar v) :=
    fun {v} hv => ⟨v, hv, .inl rfl⟩
  obtain ⟨v₀, hv₀, w₀, hw₀, h₀⟩ := hexByte_eq b₀
  obtain ⟨v₁, hv₁, w₁, hw₁, h₁⟩ := hexByte_eq b₁
  obtain ⟨v₂, hv₂, w₂, hw₂, h₂⟩ := hexByte_eq b₂
  obtain ⟨v₃, hv₃, w₃, hw₃, h₃⟩ := hexByte_eq b₃
  have hcount : countDigits (' ' :: dumpBytes b₀ b₁ b₂ b₃) 0 = some 8 := by
    have hblank : ∀ (rest : Text) (n : ℕ), countDigits (' ' :: rest) n = countDigits rest n :=
      fun _ _ => rfl
    rw [dumpBytes, h₀, h₁, h₂, h₃]
    simp only [List.cons_append, List.nil_append, hblank]
    rw [countDigits_digit _ _ (hdigit hv₀), countDigits_digit _ _ (hdigit hw₀), hblank,
      countDigits_digit _ _ (hdigit hv₁), countDigits_digit _ _ (hdigit hw₁), hblank,
      countDigits_digit _ _ (hdigit hv₂), countDigits_digit _ _ (hdigit hw₂), hblank,
      countDigits_digit _ _ (hdigit hv₃), countDigits_digit _ _ (hdigit hw₃), countDigits]
  rw [checkInput, hcount]
  rfl

/-- The first colon ends the address, whatever the text of the instruction has. -/
theorem getHex_low {address : UInt32} (hlow : address.toNat < 2 ^ 28) (after : Text) :
    getHex (addressColumn address ++ ':' :: ' ' :: (dumpBytes b₀ b₁ b₂ b₃ ++ ' ' :: ' ' :: after)) =
      (true, ' ' :: dumpBytes b₀ b₁ b₂ b₃) := by
  generalize htext : addressColumn address ++ ':' :: ' ' ::
    (dumpBytes b₀ b₁ b₂ b₃ ++ ' ' :: ' ' :: after) = text
  have hlen := length_addressColumn address
  have hhead : text.getD 0 '\x00' = ' ' := by
    have hblank := (head_addressColumn address).mpr hlow
    rw [← htext]
    generalize addressColumn address = column at hlen hblank
    cases column with
    | nil => cases hblank
    | cons c column => exact Option.some.inj hblank
  have hfirst : find ": ".toList text 0 = 8 := by
    rw [find, if_pos (Nat.zero_le _), List.drop_zero, ← htext, ← Nat.zero_add 8, ← hlen]
    exact findAt_append (colon_not_mem_addressColumn address) [' '] _ 0
  have hdrop : text.drop 9 = ' ' :: (dumpBytes b₀ b₁ b₂ b₃ ++ ' ' :: ' ' :: after) := by
    rw [← htext, show addressColumn address ++ ':' :: ' ' ::
      (dumpBytes b₀ b₁ b₂ b₃ ++ ' ' :: ' ' :: after) = (addressColumn address ++ [':']) ++ (' ' ::
      (dumpBytes b₀ b₁ b₂ b₃ ++ ' ' :: ' ' :: after)) by rw [List.append_assoc]; rfl]
    apply List.drop_left'
    rw [List.length_append, hlen]
    rfl
  -- between the bytes there are single blanks, so the two in a row are behind them
  have hlast : find "  ".toList text 9 = 21 := by
    have hle : 9 ≤ text.length := by
      rw [← htext, List.length_append, hlen, List.length_cons]
      omega
    rw [find, if_pos hle, hdrop, findAt_dumpBytes]
  unfold getHex
  rw [hhead, if_neg (by decide), if_neg (by decide)]
  dsimp only
  rw [hfirst, hlast, if_neg (by decide), if_neg (by decide), substr, hdrop]
  rfl

/-- From 0x10000000 on the address fills its column, and the line is taken for no output of
llvm-objdump. -/
theorem getHex_high {address : UInt32} (hhigh : ¬address.toNat < 2 ^ 28) (after : Text) :
    getHex (addressColumn address ++ after) = (false, []) := by
  have hhead : (addressColumn address ++ after).getD 0 '\x00' ≠ ' ' := by
    intro hblank
    apply hhigh
    apply (head_addressColumn address).mp
    have hlen := length_addressColumn address
    generalize addressColumn address = column at hlen hblank
    cases column with
    | nil => cases hlen
    | cons c column => exact congrArg some hblank
  rw [getHex, if_pos hhead, ite_self]

end Instruction

/-- A line that begins with no blank has no bytes. -/
theorem getHex_cons {c : Char} (hc : c ≠ ' ') (rest : Text) : getHex (c :: rest) = (false, []) := by
  rw [getHex, if_pos (show (c :: rest).getD 0 '\x00' ≠ ' ' from hc), ite_self]

/-! ## All lines -/

namespace ListingLine

/-- What is written for a line. -/
def kept (l : ListingLine) : List Text := if l.Low then l.bytesLine else []

theorem text_instruction (address : UInt32) (b₀ b₁ b₂ b₃ : UInt8) (more : ℕ) (asm : Text)
    (hasm : '\n' ∉ asm) :
    text (.instruction address b₀ b₁ b₂ b₃ more asm hasm) = addressColumn address ++
      ':' :: ' ' :: (dumpBytes b₀ b₁ b₂ b₃ ++
        ' ' :: ' ' :: (List.replicate more ' ' ++ '\t' :: asm)) := rfl

theorem text_symbol (address : UInt32) (label : Text) (hlabel : '\n' ∉ label) :
    text (.symbol address label hlabel) = addressZeros address ++ ' ' :: label := rfl

theorem whole (l : ListingLine) : '\n' ∉ l.text := by
  cases l with
  | instruction address b₀ b₁ b₂ b₃ more asm hasm =>
    have hpads : '\n' ∉ List.replicate more ' ' := by
      intro h
      cases (List.mem_replicate.mp h).2
    have hcolumn : '\n' ∉ addressColumn address := by
      rw [addressColumn]
      exact newline_not_mem_leftpad (by decide)
    have hbytes : '\n' ∉ dumpBytes b₀ b₁ b₂ b₃ := by
      simp [dumpBytes, newline_not_mem_hexByte]
    simp [text_instruction, hcolumn, hbytes, hpads, hasm]
  | symbol address label hlabel =>
    have hzeros : '\n' ∉ addressZeros address := by
      rw [addressZeros]
      exact newline_not_mem_leftpad (by decide)
    simp [text_symbol, hzeros, hlabel]
  | sectionHeading name hname =>
    change '\n' ∉ "Disassembly of section ".toList ++ (name ++ [':'])
    simp [hname]
  | source text htext =>
    change '\n' ∉ ';' :: text
    simp [htext]
  | blank => exact List.not_mem_nil

theorem filterLine_text (l : ListingLine) (os : Text) :
    filterLine l.text os = os ++ unlines l.kept := by
  -- a line that begins with no blank leaves the output as it is
  have hnone : ∀ {t : Text}, getHex t = (false, []) → filterLine t os = os ++ unlines [] := by
    intro t h
    rw [filterLine, h]
    exact (List.append_nil os).symm
  cases l with
  | instruction address b₀ b₁ b₂ b₃ more asm hasm =>
    by_cases hlow : address.toNat < 2 ^ 28
    · have hkept : kept (.instruction address b₀ b₁ b₂ b₃ more asm hasm) =
          [' ' :: dumpBytes b₀ b₁ b₂ b₃] := if_pos hlow
      rw [hkept, text_instruction, filterLine, getHex_low b₀ b₁ b₂ b₃ hlow]
      dsimp only
      rw [if_pos rfl, if_pos (checkInput_dumpBytes b₀ b₁ b₂ b₃), unlines, List.flatMap_singleton]
    · have hkept : kept (.instruction address b₀ b₁ b₂ b₃ more asm hasm) = [] := if_neg hlow
      rw [hkept, text_instruction]
      exact hnone (getHex_high hlow _)
  | symbol address label hlabel =>
    have hlen := length_addressZeros address
    have hzeros : ' ' ∉ addressZeros address := blank_not_mem_addressZeros address
    generalize hcolumn : addressZeros address = column at hlen hzeros
    cases column with
    | nil => cases hlen
    | cons c column =>
      have hc : c ≠ ' ' := fun h => hzeros (h ▸ List.mem_cons_self)
      apply hnone
      rw [text_symbol, hcolumn]
      exact getHex_cons hc _
  | sectionHeading name hname => exact hnone (getHex_cons (by decide) _)
  | source text htext => exact hnone (getHex_cons (by decide) _)
  | blank => exact hnone rfl

end ListingLine

theorem filterHexLoop_listing (lines : List ListingLine) (inLine os : Text) :
    filterHexLoop (ofText (listing lines)) inLine os =
      os ++ unlines (lines.flatMap ListingLine.kept) := by
  induction lines generalizing inLine os with
  | nil =>
    rw [filterHexLoop]
    exact (List.append_nil os).symm
  | cons l lines ih =>
    have hread : getline (ofText (listing (l :: lines))) inLine = (l.text, ofText (listing lines)) := by
      rw [listing, List.map_cons, unlines, List.flatMap_cons, List.append_assoc]
      exact getline_line l.whole _ inLine
    rw [filterHexLoop, hread]
    dsimp only
    rw [if_neg (by exact Bool.false_ne_true), l.filterLine_text, ih, List.flatMap_cons, unlines, unlines,
      unlines, List.flatMap_append, List.append_assoc]

/-- What is written for a listing. -/
theorem filterHex_listing (lines : List ListingLine) :
    filterHex (listing lines) = unlines (lines.flatMap ListingLine.kept) :=
  filterHexLoop_listing lines [] []

/-- Each instruction at a high address costs a line. -/
theorem length_kept (lines : List ListingLine) :
    (unlines (lines.flatMap ListingLine.kept)).length + 13 * lines.countP (fun l => ¬l.Low) =
      (unlines (lines.flatMap ListingLine.bytesLine)).length := by
  induction lines with
  | nil => rfl
  | cons l lines ih =>
    have hsplit : ∀ f : ListingLine → List Text,
        (unlines ((l :: lines).flatMap f)).length =
          (unlines (f l)).length + (unlines (lines.flatMap f)).length := by
      intro f
      rw [List.flatMap_cons, unlines, List.flatMap_append, List.length_append]
      rfl
    rw [hsplit, hsplit, ← ih]
    by_cases hlow : l.Low
    · have hkept : l.kept = l.bytesLine := if_pos hlow
      rw [hkept, List.countP_cons_of_neg (by simpa using hlow), Nat.add_assoc]
    · have hkept : l.kept = [] := if_neg hlow
      have hline : (unlines l.bytesLine).length = 13 := by
        cases l with
        | instruction => rfl
        | _ => exact absurd trivial hlow
      rw [hkept, hline, List.countP_cons_of_pos (by simpa using hlow)]
      change 0 + _ + _ = _
      omega

/-- Exactly the lines of the instructions are written if and only if each of them stands below
0x10000000. -/
theorem extracts_iff (lines : List ListingLine) : Extracts lines ↔ ∀ l ∈ lines, l.Low := by
  rw [Extracts, filterHex_listing]
  have hlen := length_kept lines
  constructor
  · intro h
    rw [h] at hlen
    have hzero : lines.countP (fun l => ¬l.Low) = 0 := by omega
    intro l hl
    exact not_not.mp (of_decide_eq_false (eq_false_of_ne_true (List.countP_eq_zero.mp hzero l hl)))
  · intro h
    have hkept : ∀ l ∈ lines, l.kept = l.bytesLine := fun l hl => if_pos (h l hl)
    rw [List.flatMap_congr hkept]

/-- The first address of the upper part of the memory. -/
theorem not_extracts_high :
    ¬Extracts [.instruction 0x10000000 0x09 0xdd 0xff 0xf8 0 "addiu\t$sp, $sp, -8".toList (by decide)] := by
  rw [Extracts, filterHex_listing]
  decide

end Cpu0Toolchain.Hex
