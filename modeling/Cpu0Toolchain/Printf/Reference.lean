import Cpu0Toolchain.Printf.Truncation

/-!
# The reference rendering

What the documented conversions are to print, stated without reference to the program:
a number is its minimal digits with its sign in front, padded on the left to the width
with blanks in front of the sign or with zeros behind it, and a string is padded with
blanks on the left.
-/

namespace Cpu0Toolchain.Printf
open BoundedWriter

/-- A signed or unsigned number in a base, padded on the left. -/
def renderNumber (uppercase zeroPad : Bool) (base width : ℕ) (value : ℤ) : List Char :=
  let sign := if value < 0 then ['-'] else []
  let digits := numberDigits uppercase base value.natAbs
  let pads := width - (sign.length + digits.length)
  if zeroPad then sign ++ List.replicate pads '0' ++ digits
  else List.replicate pads ' ' ++ sign ++ digits

def renderString (width : ℕ) (s : List Char) : List Char :=
  List.replicate (width - s.length) ' ' ++ s

/-- The value of a signed argument. -/
def IntArg.toInt : IntArg → ℤ
  | .int v | .z v => v.toInt
  | .ll v => v.toInt

/-- The value of an unsigned argument. -/
def IntArg.toNat : IntArg → ℕ
  | .int v | .z v => v.toNat
  | .ll v => v.toNat

/-- The conversions that are documented for right-justified printing: `%c` and `%%` plain,
strings with any width that is an `int`, numbers with a width the digit buffer has room for. -/
def Conversion.Documented (conv : Conversion) : Prop :=
  conv.leftJustified = false ∧ conv.precision = none ∧
    match conv.operand with
    | .d _ | .u _ | .x _ | .X _ => conv.width ≤ 29
    | .s _ => conv.width < 2 ^ 31
    | .c _ | .percent => conv.digits = []
    | .p _ => False

/-- The reference rendering of a conversion. -/
def Conversion.render (conv : Conversion) : List Char :=
  match conv.operand with
  | .d v => renderNumber false conv.zeroFlag 10 conv.width v.toInt
  | .u v => renderNumber false conv.zeroFlag 10 conv.width v.toNat
  | .x v => renderNumber false conv.zeroFlag 16 conv.width v.toNat
  | .X v => renderNumber true conv.zeroFlag 16 conv.width v.toNat
  | .s v => renderString conv.width (stringChars v)
  | .c v => [Char.ofNat (v.toNat % 256)]
  | .percent => ['%']
  | .p _ => []

def Item.render : Item → List Char
  | .literal c _ => [c]
  | .conversion conv => conv.render

/-! ## The text is the reference rendering -/

theorem numberText_eq_render (uppercase zeroPad : Bool) (base width : ℕ) (value : ℤ) :
    numberText value.natAbs base width zeroPad (value < 0) uppercase false =
      renderNumber uppercase zeroPad base width value := by
  unfold numberText renderNumber
  by_cases hneg : value < 0
  · cases zeroPad <;> simp [hneg, Nat.sub_sub]
  · cases zeroPad <;> simp [hneg]

/-- The same for a number without a sign. -/
theorem unsignedText_eq_render (uppercase zeroPad : Bool) (base width value : ℕ) :
    numberText value base width zeroPad false uppercase false =
      renderNumber uppercase zeroPad base width value := by
  have h := numberText_eq_render uppercase zeroPad base width value
  rwa [Int.natAbs_natCast, decide_eq_false (Int.not_lt.mpr (Int.natCast_nonneg value))] at h

theorem stringText_eq_render {width : ℕ} (s : List Char) :
    stringText width (-1) s false = renderString width s := by
  simp [stringText, renderString]

theorem IntArg.signed_toInt (v : IntArg) : v.signed.toInt = v.toInt := by
  cases v with
  | int v | z v => exact BitVec.toInt_signExtend_of_le (by decide)
  | ll v => rfl

theorem IntArg.unsigned_toNat (v : IntArg) : v.unsigned.toNat = v.toNat := by
  cases v with
  | int v | z v => exact BitVec.toNat_setWidth_of_le (by decide)
  | ll v => rfl

theorem Conversion.minimal_eq {conv : Conversion} (h : conv.width ≤ 29) :
    (conv.directive.width.setWidth 8).toNat = conv.width := by
  have hwidth : conv.directive.width.toNat = conv.width % 2 ^ 32 := BitVec.toNat_ofNat _ _
  rw [BitVec.toNat_setWidth, hwidth]
  omega

theorem Conversion.text_eq_render {conv : Conversion} (h : conv.Documented) :
    conv.operand.text conv.directive = conv.render := by
  obtain ⟨hleft, hprecision, hoperand⟩ := h
  have hd : conv.directive.leftJustified = false := hleft
  have hp : conv.directive.precision = -1 := by
    rw [Conversion.directive, hprecision]
    rfl
  have hz : conv.directive.padWithZero = conv.zeroFlag := rfl
  unfold Conversion.render
  cases hop : conv.operand with
  | d v =>
    rw [hop] at hoperand
    simp only [Operand.text, hd, hz, Conversion.minimal_eq hoperand, v.signed_toInt]
    exact numberText_eq_render _ _ _ _ _
  | u v | x v | X v =>
    rw [hop] at hoperand
    simp only [Operand.text, hd, hz, Conversion.minimal_eq hoperand, v.unsigned_toNat]
    exact unsignedText_eq_render _ _ _ _ _
  | p v =>
    rw [hop] at hoperand
    exact hoperand.elim
  | s v =>
    rw [hop] at hoperand
    have hwidth : conv.directive.width.toInt = conv.width := by
      have hnat : conv.directive.width.toNat = conv.width % 2 ^ 32 := BitVec.toNat_ofNat _ _
      have hlt : conv.width < 2 ^ 31 := hoperand
      rw [BitVec.toInt_eq_toNat_cond, hnat]
      split <;> omega
    simp only [Operand.text, hd, hp, Bool.false_eq_true, if_false, hwidth]
    exact stringText_eq_render _
  | c v => simp only [Operand.text, BitVec.toNat_setWidth]
  | percent => rfl

theorem output_eq_render {items : List Item}
    (h : ∀ conv, .conversion conv ∈ items → conv.Documented) :
    output items = items.flatMap Item.render := by
  apply List.flatMap_congr
  intro item hitem
  cases item with
  | literal c hc => rfl
  | conversion conv => exact Conversion.text_eq_render (h conv hitem)

/-- Formatted output is the concatenation of its parts: in a buffer that is longer than the
output, `VSNPrintf` leaves the reference rendering of each item in order, and a NUL. -/
theorem vsnPrintf_renders {format : CString} {items : List Item}
    (hformat : format.chars = items.flatMap Item.spell)
    (hitems : ∀ conv, .conversion conv ∈ items → conv.Documented)
    (buff : ℕ → Char) {buffLength : ℕ}
    (hlength : (items.flatMap Item.render).length + 1 ≤ buffLength) :
    ∃ mem, vsnPrintf buff buffLength format (items.flatMap Item.args) =
        .ok (mem, (items.flatMap Item.render).length) ∧
      (∀ i, i < (items.flatMap Item.render).length →
        (items.flatMap Item.render)[i]? = some (mem i)) ∧
      mem (items.flatMap Item.render).length = '\x00' := by
  have hwidth : ∀ conv, .conversion conv ∈ items → conv.operand.isNumber →
      conv.width ≤ kMaxLen := by
    intro conv hconv hnumber
    have hdoc := (hitems conv hconv).2.2
    cases hop : conv.operand <;> rw [hop] at hdoc hnumber
    case d | u | x | X => exact hdoc.trans (by decide)
    all_goals cases hnumber
  obtain ⟨mem, hrun, hcells, hnul, -⟩ :=
    vsnPrintf_items hformat hwidth buff (show 1 ≤ buffLength by omega)
  rw [output_eq_render hitems] at hrun hcells hnul
  have hmin : min (items.flatMap Item.render).length (buffLength - 1) =
      (items.flatMap Item.render).length := by omega
  rw [hmin] at hcells hnul
  exact ⟨mem, hrun, hcells, hnul⟩

/-- The format `%04d %s`. -/
def numberAndString : List Item := [
  .conversion ⟨false, [digit 0, digit 4], none, .d (.int (-3))⟩,
  .literal ' ' (by decide),
  .conversion ⟨false, [], none, .s none⟩]

theorem numberAndString_renders :
    ∃ mem, vsnPrintf (fun _ => '#') 16 ⟨['%', '0', '4', 'd', ' ', '%', 's'], by decide⟩
        [.int (-3), .pointer none] = .ok (mem, 11) ∧
      (∀ i, i < 11 → "-003 <null>".toList[i]? = some (mem i)) ∧ mem 11 = '\x00' := by
  have hformat : (⟨['%', '0', '4', 'd', ' ', '%', 's'], by decide⟩ : CString).chars =
      numberAndString.flatMap Item.spell := rfl
  refine vsnPrintf_renders hformat ?_ (fun _ => '#') (by decide)
  intro conv hconv
  simp only [numberAndString, List.mem_cons, reduceCtorEq, false_or, List.not_mem_nil, or_false,
    Item.conversion.injEq] at hconv
  rcases hconv with rfl | rfl
  · exact ⟨rfl, rfl, by decide⟩
  · exact ⟨rfl, rfl, by decide⟩

end Cpu0Toolchain.Printf
