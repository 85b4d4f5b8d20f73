import Cpu0Toolchain.Printf.Prints

/-!
# Strings with a width and a precision

`AppendString` counts in one variable what it prints: the precision is compared with the
characters and the blanks in front of them, and these blanks are reckoned from the length of
the whole string. The width is negated for printing on the left.

## Main result

- `prints_stringRender_iff`: the widths and precisions with which a string is printed right.
-/

namespace Cpu0Toolchain.Printf

/-- The characters of a string that are to be printed. -/
def truncated (precision : Option ℕ) (s : List Char) : List Char :=
  match precision with
  | some p => s.take p
  | none => s

/-- A text in a field, on the left or on the right. -/
def stringField (left : Bool) (width : ℕ) (text : List Char) : List Char :=
  let pads := List.replicate (width - text.length) ' '
  if left then text ++ pads else pads ++ text

theorem length_stringField (left : Bool) (width : ℕ) (text : List Char) :
    (stringField left width text).length = max width text.length := by
  cases left <;> simp [stringField] <;> omega

/-- The argument of `.*`; a negative one is as if there were none. -/
def Conversion.maxChars (conv : Conversion) : Option ℕ :=
  match conv.precision with
  | some p => if 0 ≤ p.toInt then some p.toInt.toNat else none
  | none => none

/-- `%[-][w][.*]s` -/
def stringConversion (left : Bool) (digits : List (Fin 10)) (precision : Option (BitVec 32))
    (v : Option CString) : Conversion :=
  ⟨left, digits, precision, .s v⟩

/-- Nothing is to be padded, or the blanks do not come before characters that the precision
cuts off. The width is an `int`, and so is its negation. -/
def Fits (left : Bool) (width : ℕ) (precision : Option ℕ) (s : List Char) : Prop :=
  width ≤ (truncated precision s).length ∨
    if left then width ≤ 2 ^ 31
    else width < 2 ^ 31 ∧ ∀ p ∈ precision, s = [] ∨ width ≤ p

theorem length_truncated_le (precision : Option ℕ) (s : List Char) :
    (truncated precision s).length ≤ s.length := by
  cases precision with
  | none => exact le_rfl
  | some p => exact List.length_take_le' p s

theorem le_length_truncated {precision : Option ℕ} {s : List Char} {w : ℕ} (hw : w ≤ s.length)
    (hp : ∀ p ∈ precision, s = [] ∨ w ≤ p) : w ≤ (truncated precision s).length := by
  cases precision with
  | none => exact hw
  | some p =>
    rw [truncated, List.length_take]
    rcases hp p rfl with rfl | hwp
    · exact le_min (hw.trans (Nat.zero_le p)) hw
    · exact le_min hwp hw

/-- A precision that cuts nothing off. -/
theorem truncated_eq_self {precision : Option ℕ} {s : List Char}
    (hp : ∀ p ∈ precision, s = [] ∨ s.length ≤ p) : truncated precision s = s := by
  cases precision with
  | none => rfl
  | some p =>
    rcases hp p rfl with rfl | hle
    · exact List.take_nil
    · exact List.take_of_length_le hle

/-! ## The two `int`s -/

theorem toInt_width (w : ℕ) : (BitVec.ofNat 32 w).toInt = w ∧ w < 2 ^ 31 ∨
    (BitVec.ofNat 32 w).toInt < 2 ^ 31 ∧ 2 ^ 31 ≤ w := by
  rw [BitVec.toInt_eq_toNat_cond, BitVec.toNat_ofNat]
  split <;> omega

/-- Negated the width may be one larger. -/
theorem toInt_neg_width (w : ℕ) : -(-BitVec.ofNat 32 w).toInt = w ∧ w ≤ 2 ^ 31 ∨
    -(-BitVec.ofNat 32 w).toInt ≤ 2 ^ 31 ∧ 2 ^ 31 < w := by
  rw [BitVec.toInt_eq_toNat_cond, BitVec.toNat_neg, BitVec.toNat_ofNat]
  split <;> omega

/-- `max_chars` stands for a precision, or for none if it is negative. -/
def Limits (maxChars : ℤ) : Option ℕ → Prop
  | some p => maxChars = p
  | none => maxChars < 0

theorem limits_maxChars (conv : Conversion) :
    Limits (conv.precision.getD (-1)).toInt conv.maxChars := by
  rw [Conversion.maxChars]
  cases conv.precision with
  | none => exact (by decide : (-1 : BitVec 32).toInt < 0)
  | some p =>
    rw [Option.getD_some]
    dsimp only
    split
    · next hp => exact (Int.toNat_of_nonneg hp).symm
    · next hp => exact Int.not_le.mp hp

/-! ## The text of a string -/

section Text

variable {maxChars : ℤ} {precision : Option ℕ} (h : Limits maxChars precision) (s : List Char)
include h

/-- On the left the precision is compared with the characters only. -/
theorem stringText_left (width : ℤ) :
    stringText width maxChars s true = truncated precision s ++
      List.replicate (-width - (truncated precision s).length).toNat ' ' := by
  cases precision with
  | none =>
    have hneg : ¬0 ≤ maxChars := Int.not_le.mpr h
    simp [stringText, truncated, hneg]
  | some p =>
    obtain rfl : maxChars = p := h
    simp [stringText, truncated]

/-- On the right the blanks come first, and count. -/
theorem stringText_right (width : ℤ) :
    stringText width maxChars s false = List.replicate (width - s.length).toNat ' ' ++
      truncated (precision.map fun p => p - (width - s.length).toNat) s := by
  cases precision with
  | none =>
    have hneg : ¬0 ≤ maxChars := Int.not_le.mpr h
    simp [stringText, truncated, hneg]
  | some p =>
    obtain rfl : maxChars = p := h
    simp [stringText, truncated]

theorem stringText_left_iff (w : ℕ) :
    stringText (-BitVec.ofNat 32 w).toInt maxChars s true =
        stringField true w (truncated precision s) ↔ Fits true w precision s := by
  rw [stringText_left h]
  have hwidth := toInt_neg_width w
  constructor
  · intro heq
    have hlen := congrArg List.length heq
    rw [length_stringField, List.length_append, List.length_replicate] at hlen
    rw [Fits, if_pos rfl]
    omega
  · intro hfits
    rw [Fits, if_pos rfl] at hfits
    have hpads : (-(-BitVec.ofNat 32 w).toInt - (truncated precision s).length).toNat =
        w - (truncated precision s).length := by omega
    rw [hpads]
    rfl

theorem fits_of_stringText_right {w : ℕ}
    (heq : stringText (BitVec.ofNat 32 w).toInt maxChars s false =
      stringField false w (truncated precision s)) : Fits false w precision s := by
  have hwidth := toInt_width w
  -- the lengths alone tell
  have hlen := congrArg List.length heq
  rw [stringText_right h, length_stringField, List.length_append, List.length_replicate] at hlen
  rw [Fits, if_neg Bool.false_ne_true]
  cases precision with
  | none =>
    change _ + s.length = max w s.length at hlen
    refine or_iff_not_imp_left.mpr fun hw => ⟨?_, fun p hp => by cases hp⟩
    change ¬w ≤ s.length at hw
    omega
  | some p =>
    simp only [truncated, Option.map_some, List.length_take] at hlen ⊢
    refine or_iff_not_imp_left.mpr fun hw => ⟨by omega, fun q hq => ?_⟩
    obtain rfl := Option.some.inj hq
    by_cases hnil : s = []
    · exact .inl hnil
    · have hpos : 0 < s.length := List.length_pos_iff.mpr hnil
      exact .inr (by omega)

/-- Without blanks in front the precision counts characters only. -/
theorem stringText_right_short {width : ℤ} (hlead : width ≤ s.length) {w : ℕ}
    (hw : w ≤ (truncated precision s).length) :
    stringText width maxChars s false = stringField false w (truncated precision s) := by
  have hzero : (width - s.length).toNat = 0 := by omega
  have hmap : precision.map (fun p => p - 0) = precision := by cases precision <;> rfl
  rw [stringText_right h, hzero, hmap, stringField, Nat.sub_eq_zero_of_le hw]
  rfl

/-- Behind blanks the precision is to cut nothing off. -/
theorem stringText_right_long {w : ℕ} (hlead : s.length < w)
    (hp : ∀ p ∈ precision, s = [] ∨ w ≤ p) :
    stringText w maxChars s false = stringField false w (truncated precision s) := by
  have hself : truncated precision s = s := by
    apply truncated_eq_self
    intro p hmem
    exact (hp p hmem).imp_right hlead.le.trans
  have hrest : truncated (precision.map fun p => p - ((w : ℤ) - s.length).toNat) s = s := by
    apply truncated_eq_self
    intro q hq
    obtain ⟨p, hmem, rfl⟩ := Option.mem_map.mp hq
    rcases hp p hmem with hnil | hwp
    · exact .inl hnil
    · exact .inr (by omega)
  have hpads : ((w : ℤ) - s.length).toNat = w - s.length := by omega
  rw [stringText_right h, hrest, hself, hpads]
  rfl

theorem stringText_right_iff (w : ℕ) :
    stringText (BitVec.ofNat 32 w).toInt maxChars s false =
        stringField false w (truncated precision s) ↔ Fits false w precision s := by
  constructor
  · exact fits_of_stringText_right h s
  · intro hfits
    rw [Fits, if_neg Bool.false_ne_true] at hfits
    have hle := length_truncated_le precision s
    rcases toInt_width w with ⟨hwidth, hw⟩ | ⟨hwidth, hw⟩
    · rw [hwidth]
      rcases Nat.lt_or_ge s.length w with hlead | hlead
      · exact stringText_right_long h s hlead (hfits.resolve_left (by omega)).2
      · refine stringText_right_short h s (by omega) ?_
        rcases hfits with hnone | ⟨-, hp⟩
        · exact hnone
        · exact le_length_truncated hlead hp
    · -- a width that is no `int` fits only where it does not matter
      have hnone := hfits.resolve_right fun hint => by omega
      exact stringText_right_short h s (by omega) hnone

end Text

/-! ## The conversion -/

/-- What is to be printed. -/
def stringRender (conv : Conversion) (v : Option CString) : List Char :=
  stringField conv.leftJustified conv.width (truncated conv.maxChars (stringChars v))

theorem length_stringRender (conv : Conversion) (v : Option CString) :
    (stringRender conv v).length = max conv.width
      (conv.maxChars.elim (stringChars v).length fun p => min p (stringChars v).length) := by
  rw [stringRender, length_stringField]
  cases conv.maxChars with
  | none => rfl
  | some p => simp [truncated]

/-- A string is printed as it is to be exactly if its width and its precision fit. -/
theorem prints_stringRender_iff (left : Bool) (digits : List (Fin 10))
    (precision : Option (BitVec 32)) (v : Option CString) :
    (stringConversion left digits precision v).Prints
        (stringRender (stringConversion left digits precision v) v) ↔
      Fits left (stringConversion left digits precision v).width
        (stringConversion left digits precision v).maxChars (stringChars v) := by
  set conv := stringConversion left digits precision v
  have hlimits := limits_maxChars conv
  have hprints : conv.Prints (conv.operand.text conv.directive) :=
    conv.prints_text fun hnumber => by cases hnumber
  have htext : conv.operand.text conv.directive = stringText
      (if left then -BitVec.ofNat 32 conv.width else BitVec.ofNat 32 conv.width).toInt
      (conv.precision.getD (-1)).toInt (stringChars v) left := rfl
  have hiff : conv.operand.text conv.directive = stringRender conv v ↔
      Fits left conv.width conv.maxChars (stringChars v) := by
    rw [htext, stringRender]
    cases left with
    | true => exact stringText_left_iff hlimits _ _
    | false => exact stringText_right_iff hlimits _ _
  rw [← hiff]
  constructor
  · exact fun h => Conversion.prints_unique hprints h
  · exact fun h => h ▸ hprints

/-- `%5.*s` with 2 and `abc`: the three blanks use the precision up. -/
theorem not_prints_five_two :
    ¬(stringConversion false [digit 5] (some 2) (some ⟨['a', 'b', 'c'], by decide⟩)).Prints
      (stringRender (stringConversion false [digit 5] (some 2) (some ⟨['a', 'b', 'c'], by decide⟩))
        (some ⟨['a', 'b', 'c'], by decide⟩)) := by
  intro h
  have hprints := Conversion.prints_text
    (stringConversion false [digit 5] (some 2) (some ⟨['a', 'b', 'c'], by decide⟩))
    fun hnumber => by cases hnumber
  have heq := Conversion.prints_unique hprints h
  revert heq
  decide

end Cpu0Toolchain.Printf
