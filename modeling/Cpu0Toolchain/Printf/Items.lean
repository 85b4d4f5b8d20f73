import Cpu0Toolchain.Printf.FormatGrammar
import Cpu0Toolchain.Printf.Text

/-!
# Formats as lists of items

A format that uses the supported conversions only is a list of items, each a literal
character or a conversion together with the argument it takes. The scan steps through
such a format item by item and prints the text of each.
-/

namespace Cpu0Toolchain.Printf
open BoundedWriter

/-- An integer argument with its length modifier. -/
inductive IntArg where
  | int (v : BitVec 32)
  | z (v : BitVec 32)
  | ll (v : BitVec 64)
  deriving DecidableEq

def IntArg.modifier : IntArg → List Char
  | .int _ => []
  | .z _ => ['z']
  | .ll _ => ['l', 'l']

def IntArg.arg : IntArg → Arg
  | .int v => .int v
  | .z v => .long v
  | .ll v => .longLong v

/-- The value as `s64`. -/
def IntArg.signed : IntArg → BitVec 64
  | .int v | .z v => v.signExtend 64
  | .ll v => v

/-- The value as `u64`. -/
def IntArg.unsigned : IntArg → BitVec 64
  | .int v | .z v => v.setWidth 64
  | .ll v => v

/-- A conversion letter with the argument it takes. -/
inductive Operand where
  | d (v : IntArg)
  | u (v : IntArg)
  | x (v : IntArg)
  | X (v : IntArg)
  | p (v : BitVec 32)
  | s (v : Option CString)
  | c (v : BitVec 32)
  | percent
  deriving DecidableEq

def Operand.letter : Operand → Char
  | .d _ => 'd'
  | .u _ => 'u'
  | .x _ => 'x'
  | .X _ => 'X'
  | .p _ => 'p'
  | .s _ => 's'
  | .c _ => 'c'
  | .percent => '%'

def Operand.modifier : Operand → List Char
  | .d v | .u v | .x v | .X v => v.modifier
  | _ => []

def Operand.args : Operand → List Arg
  | .d v | .u v | .x v | .X v => [v.arg]
  | .p v => [.long v]
  | .s v => [.pointer v]
  | .c v => [.int v]
  | .percent => []

def Operand.isNumber : Operand → Bool
  | .d _ | .u _ | .x _ | .X _ => true
  | _ => false

/-- A decimal digit. -/
def digit (n : ℕ) : Fin 10 := Fin.ofNat 10 n

structure Conversion where
  leftJustified : Bool
  /-- The digits between the `-` and the rest, a leading zero included. -/
  digits : List (Fin 10)
  /-- The argument of `.*`, where there is one. -/
  precision : Option (BitVec 32)
  operand : Operand
  deriving DecidableEq

/-- The flag for padding with zeros is a zero as the first digit of the width. -/
def Conversion.zeroFlag (conv : Conversion) : Bool := conv.digits.head? = some 0

def Conversion.width (conv : Conversion) : ℕ := conv.digits.foldl pushDigit 0

/-- What stands behind the digits. -/
def Conversion.ending (conv : Conversion) : List Char :=
  (if conv.precision.isSome then ['.', '*'] else []) ++ conv.operand.modifier ++
    [conv.operand.letter]

def Conversion.spell (conv : Conversion) : List Char :=
  '%' :: ((if conv.leftJustified then ['-'] else []) ++
    conv.digits.map (fun d : Fin 10 => Nat.digitChar d) ++ conv.ending)

def Conversion.args (conv : Conversion) : List Arg :=
  conv.precision.toList.map Arg.int ++ conv.operand.args

/-- What the scan reads from the conversion. -/
def Conversion.directive (conv : Conversion) : Directive where
  leftJustified := conv.leftJustified
  padWithZero := conv.zeroFlag
  width := BitVec.ofNat 32 conv.width
  precision := conv.precision.getD (-1)
  haveZ := conv.operand.modifier = ['z']
  haveLl := conv.operand.modifier = ['l', 'l']

/-- The text of a conversion that is read as the directive. -/
def Operand.text (d : Directive) : Operand → List Char
  | .d v => numberText v.signed.toInt.natAbs 10 (d.width.setWidth 8).toNat d.padWithZero
      (v.signed.toInt < 0) false d.leftJustified
  | .u v => numberText v.unsigned.toNat 10 (d.width.setWidth 8).toNat d.padWithZero false false
      d.leftJustified
  | .x v => numberText v.unsigned.toNat 16 (d.width.setWidth 8).toNat d.padWithZero false false
      d.leftJustified
  | .X v => numberText v.unsigned.toNat 16 (d.width.setWidth 8).toNat d.padWithZero false true
      d.leftJustified
  | .p v => pointerText (v.setWidth 64).toNat d.leftJustified
  | .s v => stringText (if d.leftJustified then -d.width else d.width).toInt d.precision.toInt
      (stringChars v) d.leftJustified
  | .c v => [Char.ofNat (v.setWidth 8).toNat]
  | .percent => ['%']

inductive Item where
  | literal (c : Char) (not_percent : c ≠ '%')
  | conversion (conv : Conversion)
  deriving DecidableEq

def Item.spell : Item → List Char
  | .literal c _ => [c]
  | .conversion conv => conv.spell

def Item.args : Item → List Arg
  | .literal _ _ => []
  | .conversion conv => conv.args

def Item.text : Item → List Char
  | .literal c _ => [c]
  | .conversion conv => conv.operand.text conv.directive

/-! ## Reading a conversion -/

/-- The length modifier, as one of the flags. -/
def IntArg.flag : IntArg → LengthModifier
  | .int _ => .none
  | .z _ => .z
  | .ll _ => .ll

def Operand.flag : Operand → LengthModifier
  | .d v | .u v | .x v | .X v => v.flag
  | _ => .none

theorem Operand.spell_flag (operand : Operand) : operand.flag.spell = operand.modifier := by
  rcases operand with v | v | v | v | v | v | v | -
  case d | u | x | X => cases v <;> rfl
  all_goals rfl

def Conversion.flags (conv : Conversion) : Flags where
  minus := conv.leftJustified
  digits := conv.digits
  star := conv.precision.isSome
  modifier := conv.operand.flag

theorem Conversion.spell_flags (conv : Conversion) :
    conv.spell = '%' :: (conv.flags.spell ++ [conv.operand.letter]) := by
  rw [Conversion.spell, Conversion.ending, ← Operand.spell_flag]
  simp only [Flags.spell, Flags.minusText, Flags.digitsText, Flags.starText, Conversion.flags,
    List.append_assoc]
  rfl

/-- A conversion letter is none of the flags. -/
theorem Conversion.stopsAt_letter (conv : Conversion) (rest : List Char) :
    conv.flags.StopsAt (conv.operand.letter :: rest) := by
  have hletter : ∀ operand : Operand, operand.letter ≠ 'z' ∧ operand.letter ≠ 'l' ∧
      operand.letter ≠ '.' ∧ operand.letter ≠ '-' ∧ isDigit operand.letter = false := by
    intro operand
    cases operand <;> simp only [Operand.letter] <;> decide
  obtain ⟨hz, hl, hdot, hminus, hdigit⟩ := hletter conv.operand
  constructor
  · exact fun _ => ⟨hz, fun h => hl h.1⟩
  · exact fun _ _ h => hdot h.1
  · exact fun _ _ => hdigit
  · exact fun _ _ _ _ => hminus

theorem Conversion.directive_flags (conv : Conversion) :
    conv.directive = conv.flags.directive (conv.precision.getD (-1)) := by
  have hz : decide (conv.operand.modifier = ['z']) = decide (conv.operand.flag = .z) ∧
      decide (conv.operand.modifier = ['l', 'l']) = decide (conv.operand.flag = .ll) := by
    rcases conv.operand with v | v | v | v | v | v | v | -
    case d | u | x | X => cases v <;> exact ⟨rfl, rfl⟩
    all_goals exact ⟨rfl, rfl⟩
  have hzero : conv.zeroFlag = decide (conv.digits.head?.map Fin.val = some 0) := by
    rw [Conversion.zeroFlag]
    cases conv.digits.head? with
    | none => rfl
    | some d =>
      revert d
      decide
  rw [Conversion.directive, hz.1, hz.2, hzero]
  rfl

/-- The scan reads a conversion as its directive and stops at its letter. -/
theorem readDirective_spell (conv : Conversion) (rest : List Char) (more : List Arg) :
    readDirective (conv.spell.tail ++ rest) (conv.args ++ more) =
      .ok (conv.directive, conv.operand.letter :: rest, conv.operand.args ++ more) := by
  have hprecision : conv.flags.takePrecision (conv.args ++ more) =
      .ok (conv.precision.getD (-1), conv.operand.args ++ more) := by
    rw [Flags.takePrecision, Conversion.flags, Conversion.args]
    cases conv.precision <;> rfl
  rw [conv.spell_flags, List.tail_cons, List.append_assoc, List.singleton_append,
    readDirective_flags (conv.stopsAt_letter rest), hprecision, conv.directive_flags]
  rfl

/-! ## Printing an item -/

variable {buffEnd : ℕ}

theorem vaSigned_arg {d : Directive} {v : IntArg} (hz : d.haveZ = decide (v.modifier = ['z']))
    (hl : d.haveLl = decide (v.modifier = ['l', 'l'])) (more : List Arg) :
    vaSigned d (v.arg :: more) = .ok (v.signed, more) := by
  unfold vaSigned
  rw [hz, hl]
  cases v <;> rfl

theorem vaUnsigned_arg {d : Directive} {v : IntArg} (hz : d.haveZ = decide (v.modifier = ['z']))
    (hl : d.haveLl = decide (v.modifier = ['l', 'l'])) (more : List Arg) :
    vaUnsigned d (v.arg :: more) = .ok (v.unsigned, more) := by
  unfold vaUnsigned
  rw [hz, hl]
  cases v <;> rfl

theorem Conversion.minimal_le (conv : Conversion) :
    (conv.directive.width.setWidth 8).toNat ≤ conv.width := by
  have hwidth : conv.directive.width.toNat = conv.width % 2 ^ 32 := BitVec.toNat_ofNat _ _
  rw [BitVec.toNat_setWidth, hwidth]
  exact (Nat.mod_le _ _).trans (Nat.mod_le _ _)

theorem bind_ok {α β : Type} {x : Except Fault α} {a : α} {f : α → Except Fault β} (h : x = .ok a) :
    (x >>= f) = f a := by
  rw [h]
  rfl

/-- A conversion prints its text and takes its argument. -/
theorem convert_eq (conv : Conversion) (more : List Arg) (p : Printed)
    (hwidth : conv.operand.isNumber → conv.width ≤ kMaxLen) :
    convert buffEnd conv.directive conv.operand.letter (conv.operand.args ++ more) p =
      .ok (put buffEnd (conv.operand.text conv.directive) p, more) := by
  have hmin : conv.operand.isNumber → (conv.directive.width.setWidth 8).toNat ≤ kMaxLen :=
    fun h => conv.minimal_le.trans (hwidth h)
  have hz : conv.directive.haveZ = decide (conv.operand.modifier = ['z']) := rfl
  have hl : conv.directive.haveLl = decide (conv.operand.modifier = ['l', 'l']) := rfl
  generalize conv.directive = d at hmin hz hl ⊢
  rcases hop : conv.operand with v | v | v | v | v | v | v | - <;> rw [hop] at hmin hz hl
  case d =>
    refine (bind_ok (vaSigned_arg hz hl more)).trans ?_
    exact (bind_ok (countM_eq_put (appendSignedDecimal_eq (hmin rfl) _))).trans rfl
  case u =>
    refine (bind_ok (vaUnsigned_arg hz hl more)).trans ?_
    exact (bind_ok (countM_eq_put (appendUnsigned_eq (Or.inl rfl) (hmin rfl) _))).trans rfl
  case x | X =>
    refine (bind_ok (vaUnsigned_arg hz hl more)).trans ?_
    exact (bind_ok (countM_eq_put (appendUnsigned_eq (Or.inr rfl) (hmin rfl) _))).trans rfl
  case p => exact (bind_ok (countM_eq_put (appendPointer_eq _ _ _))).trans rfl
  case s =>
    exact congrArg (fun q => Except.ok (q, more)) (count_eq_put (appendString_eq _ _ _ _ _))
  case c | percent => rfl

/-- One item of the format: the scan prints its text and goes on behind it. -/
theorem scan_item (item : Item) (fuel : ℕ) (rest : List Char) (more : List Arg) (p : Printed)
    (hwidth : ∀ conv, item = .conversion conv → conv.operand.isNumber → conv.width ≤ kMaxLen) :
    scan buffEnd (fuel + 1) (item.spell ++ rest) (item.args ++ more) p =
      scan buffEnd fuel rest more (put buffEnd item.text p) := by
  cases item with
  | literal c hc =>
    change (if c ≠ '%' then _ else _) = _
    rw [if_pos hc]
    rfl
  | conversion conv =>
    have hread := readDirective_spell conv rest more
    exact (bind_ok hread).trans ((bind_ok (convert_eq conv more p (hwidth conv rfl))).trans rfl)

/-- A whole format: the texts of its items, in order. -/
theorem scan_items (items : List Item) {fuel : ℕ} (hfuel : items.length < fuel) (p : Printed)
    (hwidth : ∀ conv, .conversion conv ∈ items → conv.operand.isNumber → conv.width ≤ kMaxLen) :
    scan buffEnd fuel (items.flatMap Item.spell) (items.flatMap Item.args) p =
      .ok (put buffEnd (items.flatMap Item.text) p) := by
  induction items generalizing fuel p with
  | nil =>
    cases fuel with
    | zero => cases hfuel
    | succ fuel => rfl
  | cons item items ih =>
    cases fuel with
    | zero => cases hfuel
    | succ fuel =>
      rw [List.flatMap_cons, List.flatMap_cons, scan_item, ih (Nat.lt_of_succ_lt_succ hfuel), put_put,
        List.flatMap_cons]
      · intro conv hconv
        exact hwidth conv (List.mem_cons_of_mem _ hconv)
      · rintro conv rfl
        exact hwidth conv List.mem_cons_self

theorem length_le_spell (items : List Item) :
    items.length ≤ (items.flatMap Item.spell).length := by
  induction items with
  | nil => exact le_rfl
  | cons item items ih =>
    have hpos : 0 < item.spell.length := by cases item <;> exact Nat.succ_pos _
    rw [List.length_cons, List.flatMap_cons, List.length_append]
    omega

end Cpu0Toolchain.Printf
