import Cpu0Toolchain.Printf.Reference
import Cpu0Toolchain.Printf.StdargPrintf

/-!
# What the small printf prints

The text of each conversion of `printf-stdarg.c`, which does not depend on the output, and the
formats that are lists of items. The number of digits is bounded by what `print_buf` has room for.

## Main results

- `printi_ok_iff`: `print_buf` is long enough for the bases from eight on, and for no smaller one.
- `print_items`: both outputs get the texts of the items.
-/

namespace Cpu0Toolchain.Printf.Stdarg

/-- Print a text and count it. -/
def put (text : List Char) (p : Output) : Output :=
  (text.foldl (fun out c => printchar c out) p.1, p.2 + text.length)

@[simp] theorem put_nil (p : Output) : put [] p = p := rfl

@[simp] theorem put_put (xs ys : List Char) (p : Output) :
    put ys (put xs p) = put (xs ++ ys) p := by
  simp only [put, List.foldl_append, List.length_append, Nat.add_assoc]

@[simp] theorem one_eq (c : Char) (p : Output) : one c p = put [c] p := rfl

theorem add_put (text : List Char) (p : Output) : add p.2 (put text (p.1, 0)) = put text p := by
  rw [add, put, put, Nat.zero_add]

theorem repeatChar_eq (c : Char) (n : ℕ) (p : Output) :
    repeatChar c n p = put (List.replicate n c) p := by
  induction n with
  | zero => rfl
  | succ n ih =>
    rw [repeatChar, List.range_succ, List.foldl_append, ← repeatChar, ih, List.replicate_succ']
    exact put_put (List.replicate n c) [c] p

theorem foldl_one (text : List Char) (p : Output) :
    text.foldl (fun p c => one c p) p = put text p := by
  induction text generalizing p with
  | nil => rfl
  | cons c text ih => exact (ih _).trans (put_put [c] text p)

/-- A string in a field of a width. -/
def field (string : List Char) (width : ℕ) (pad : Pad) : List Char :=
  let pads := List.replicate (width - string.length) (if pad.zero then '0' else ' ')
  if pad.right then string ++ pads else pads ++ string

theorem prints_eq (out : Out) (string : List Char) (width : ℕ) (pad : Pad) :
    prints out string width pad = put (field string width pad) (out, 0) := by
  have hpads : List.replicate (if string.length ≥ width then 0 else width - string.length)
      (if width > 0 && pad.zero then '0' else ' ') =
        List.replicate (width - string.length) (if pad.zero then '0' else ' ') := by
    by_cases hle : string.length ≥ width
    · rw [if_pos hle, Nat.sub_eq_zero_of_le hle]
      rfl
    · rw [if_neg hle, decide_eq_true (show width > 0 by omega), Bool.true_and]
  obtain ⟨right, zero⟩ := pad
  cases right with
  | false =>
    simp only [prints, Bool.not_false, if_true, repeatChar_eq, foldl_one, put_put, hpads]
    rw [List.replicate_zero, List.append_nil]
    rfl
  | true =>
    simp only [prints, Bool.not_true, Bool.false_eq_true, if_false, repeatChar_eq, foldl_one,
      put_put, hpads]
    rfl

/-! ## Numbers -/

/-- The letter `letbase` for the digit ten. -/
def letterTen (uppercase : Bool) : Char := if uppercase then 'A' else 'a'

theorem digitLetter_inCase (uppercase : Bool) {d : ℕ} (h : d < 16) :
    [digitLetter (letterTen uppercase) d] = inCase uppercase [Nat.digitChar d] := by
  revert d uppercase
  decide

theorem digitLoop_error {b room u : ℕ} (hb : 1 < b) (hu : b ^ room ≤ u) (letbase : Char)
    (s : List Char) : digitLoop b letbase room u s = .error .printBufOverrun := by
  induction room generalizing u s with
  | zero =>
    rw [Nat.pow_zero] at hu
    rw [digitLoop, if_neg (by omega)]
  | succ room ih =>
    have hpos : 0 < b ^ (room + 1) := Nat.pow_pos (by omega)
    rw [digitLoop, if_neg (by omega)]
    exact ih ((Nat.le_div_iff_mul_le (by omega)).mpr hu) _

/-- The loop puts the digits in front of `s`. -/
theorem digitLoop_ok {b room u : ℕ} (hb : 1 < b) (hu : u < b ^ room) (letbase : Char)
    (s : List Char) : ∃ digits, digits.length ≤ room ∧
      digitLoop b letbase room u s = .ok (room - digits.length, digits ++ s) ∧
        (u = 0 → digits = []) ∧ ∀ uppercase, letbase = letterTen uppercase → b ≤ 16 → u ≠ 0 →
          digits = numberDigits uppercase b u := by
  induction room generalizing u s with
  | zero =>
    rw [Nat.pow_zero, Nat.lt_one_iff] at hu
    exact ⟨[], le_rfl, by rw [digitLoop, if_pos hu]; rfl, fun _ => rfl,
      fun _ _ _ h => absurd hu h⟩
  | succ room ih =>
    by_cases hzero : u = 0
    · exact ⟨[], Nat.zero_le _, by rw [digitLoop, if_pos hzero]; rfl, fun _ => rfl,
        fun _ _ _ h => absurd hzero h⟩
    have hdiv : u / b < b ^ room := (Nat.div_lt_iff_lt_mul (by omega)).mpr hu
    obtain ⟨digits, hlength, hloop, hempty, htext⟩ := ih hdiv (digitLetter letbase (u % b) :: s)
    refine ⟨digits ++ [digitLetter letbase (u % b)], ?_, ?_, fun h => absurd h hzero, ?_⟩
    · rw [List.length_append]
      exact Nat.succ_le_succ hlength
    · rw [digitLoop, if_neg hzero, hloop, List.length_append, List.append_assoc,
        List.singleton_append, List.length_singleton, Nat.add_sub_add_right]
    · rintro uppercase rfl hb16 -
      rw [digitLetter_inCase uppercase ((Nat.mod_lt u (by omega)).trans_le hb16)]
      by_cases hlt : u < b
      · rw [hempty (Nat.div_eq_of_lt hlt), numberDigits, Nat.toDigits_of_lt_base hlt,
          Nat.mod_eq_of_lt hlt]
        rfl
      · have hpos : u / b ≠ 0 := (Nat.div_pos (by omega) (by omega)).ne'
        have hsplit : Nat.toDigits b u = _ := Nat.toDigits_of_base_le hb (by omega)
        rw [htext uppercase rfl hb16 hpos, numberDigits, numberDigits, hsplit, inCase_append]

/-- The text of a number. -/
def numberText (uppercase : Bool) (b width : ℕ) (value : ℤ) (pad : Pad) : List Char :=
  let digits := numberDigits uppercase b value.natAbs
  if value < 0 then
    if width ≠ 0 && pad.zero then '-' :: field digits (width - 1) pad
    else field ('-' :: digits) width pad
  else field digits width pad

/-- `i` as `printi` takes it. -/
def value (i : BitVec 32) (b : ℕ) (sg : Bool) : ℤ := if sg && b = 10 then i.toInt else i.toNat

theorem length_numberDigits (uppercase : Bool) (b n : ℕ) :
    (numberDigits uppercase b n).length = (Nat.toDigits b n).length := by
  cases uppercase
  · rfl
  · exact List.length_map _

/-- A negative number is written in decimal only, and leaves room for its sign. -/
theorem printi_negative {i : BitVec 32} (hneg : i.toInt < 0) (out : Out) (width : ℕ) (pad : Pad)
    (uppercase : Bool) : printi out i 10 true width pad (letterTen uppercase) =
      .ok (put (numberText uppercase 10 width i.toInt pad) (out, 0)) := by
  have hi : i ≠ 0#32 := by
    rintro rfl
    exact absurd hneg (by decide)
  have habs : (-i).toNat = i.toInt.natAbs := by
    rw [BitVec.toNat_neg, BitVec.toInt_eq_toNat_cond]
    rw [BitVec.toInt_eq_toNat_cond] at hneg
    split at hneg <;> omega
  have hlt : i.toInt.natAbs < 10 ^ 10 := by
    have hlow := BitVec.le_toInt i
    omega
  have hlt11 : i.toInt.natAbs < 10 ^ 11 := hlt.trans (by decide)
  have hslt : i.slt 0#32 = true := BitVec.slt_iff_toInt_lt.mpr hneg
  obtain ⟨digits, -, hloop, -, htext⟩ :=
    digitLoop_ok (by decide) hlt11 (letterTen uppercase) []
  have hdigits := htext uppercase rfl (by decide) (by omega)
  have hroom : 11 - (numberDigits uppercase 10 i.toInt.natAbs).length ≠ 0 := by
    have hten := (Nat.length_toDigits_le_iff (by decide) (by decide)).mpr hlt
    rw [length_numberDigits]
    omega
  rw [hdigits, List.append_nil] at hloop
  rw [printi, if_neg hi]
  simp only [hslt, decide_true, Bool.and_true, if_true, habs]
  rw [show printBufLen - 1 = 11 from rfl, hloop, numberText, if_pos hneg]
  simp only [bind, Except.bind, pure, Except.pure]
  by_cases hzero : (decide (width ≠ 0) && pad.zero) = true
  · rw [if_pos hzero, if_pos hzero, prints_eq]
    exact congrArg Except.ok ((add_put _ (one '-' (out, 0))).trans (put_put ['-'] _ _))
  · rw [if_neg hzero, if_neg hzero, if_neg hroom, prints_eq]

theorem printi_unsigned {b : ℕ} (hb : 8 ≤ b) (hb16 : b ≤ 16) {i : BitVec 32} {sg : Bool}
    (hneg : (sg && decide (b = 10) && i.slt 0#32) = false) (out : Out) (width : ℕ) (pad : Pad)
    (uppercase : Bool) : printi out i b sg width pad (letterTen uppercase) =
      .ok (put (numberText uppercase b width i.toNat pad) (out, 0)) := by
  have hsign : ¬((i.toNat : ℤ) < 0) := Int.not_lt.mpr (Int.natCast_nonneg _)
  rw [numberText, if_neg hsign, Int.natAbs_natCast]
  by_cases hi : i = 0#32
  · rw [printi, if_pos hi, prints_eq, hi, BitVec.toNat_zero, numberDigits_zero]
  have hlt : i.toNat < b ^ 11 := i.isLt.trans_le
    ((by decide : 2 ^ 32 ≤ 8 ^ 11).trans (Nat.pow_le_pow_left hb 11))
  have hne : i.toNat ≠ 0 := fun h => hi (BitVec.eq_of_toNat_eq h)
  obtain ⟨digits, -, hloop, -, htext⟩ := digitLoop_ok (by omega) hlt (letterTen uppercase) []
  rw [printi, if_neg hi]
  simp only [hneg, Bool.false_eq_true, if_false]
  rw [show printBufLen - 1 = 11 from rfl, hloop, List.append_nil, htext uppercase rfl hb16 hne]
  exact congrArg Except.ok (prints_eq out _ width pad)

theorem printi_eq {b : ℕ} (hb : 8 ≤ b) (hb16 : b ≤ 16) (out : Out) (i : BitVec 32) (sg : Bool)
    (width : ℕ) (pad : Pad) (uppercase : Bool) :
    printi out i b sg width pad (letterTen uppercase) =
      .ok (put (numberText uppercase b width (value i b sg) pad) (out, 0)) := by
  cases hneg : sg && decide (b = 10) && i.slt 0#32 with
  | true =>
    simp only [Bool.and_eq_true, decide_eq_true_eq] at hneg
    obtain ⟨⟨rfl, rfl⟩, hslt⟩ := hneg
    exact printi_negative (BitVec.slt_iff_toInt_lt.mp hslt) out width pad uppercase
  | false =>
    rw [printi_unsigned hb hb16 hneg, value]
    split
    case isFalse => rfl
    case isTrue hsigned =>
      rw [hsigned, Bool.true_and] at hneg
      have hslt : ¬i.toInt < 0 := fun h => by
        rw [BitVec.slt_iff_toInt_lt.mpr h] at hneg
        cases hneg
      have hcond := BitVec.toInt_eq_toNat_cond i
      split at hcond
      · rw [hcond]
      · exact absurd (hcond.trans_lt (by omega)) hslt

theorem printi_error {b : ℕ} (hb : 1 < b) (hb8 : b < 8) (out : Out) (width : ℕ) (pad : Pad)
    (sg : Bool) (letbase : Char) :
    printi out (-1#32) b sg width pad letbase = .error .printBufOverrun := by
  have hroom : b ^ (printBufLen - 1) ≤ 7 ^ 11 := Nat.pow_le_pow_left (by omega) _
  have hneg : (sg && decide (b = 10) && (-1#32).slt 0#32) = false := by
    rw [decide_eq_false (by omega), Bool.and_false, Bool.false_and]
  rw [printi, if_neg (by decide)]
  simp only [hneg, Bool.false_eq_true, if_false]
  rw [digitLoop_error hb (hroom.trans (by decide))]
  rfl

/-- "should be enough for 32 bit int": it is for the bases from eight on. -/
theorem printi_ok_iff {b : ℕ} (hb : 1 < b) (hb16 : b ≤ 16) :
    (∀ out i sg width pad uppercase,
      ∃ p, printi out i b sg width pad (letterTen uppercase) = .ok p) ↔ 8 ≤ b := by
  constructor
  · intro hok
    by_contra hlt
    obtain ⟨p, hp⟩ := hok (.device []) (-1#32) false 0 ⟨false, false⟩ false
    rw [printi_error hb (Nat.lt_of_not_le hlt)] at hp
    cases hp
  · intro hb8 out i sg width pad uppercase
    exact ⟨_, printi_eq hb8 hb16 out i sg width pad uppercase⟩

theorem printi_ok_iff_ten : (1 < 10 ∧ 10 ≤ 16) ∧
    ((∀ out i sg width pad uppercase,
      ∃ p, printi out i 10 sg width pad (letterTen uppercase) = .ok p) ↔ 8 ≤ 10) :=
  ⟨by decide, printi_ok_iff (by decide) (by decide)⟩

/-! ## Conversions -/

/-- The letters and arguments that `print` has a test for. -/
inductive HasTest : Operand → Prop where
  | d (v : BitVec 32) : HasTest (.d (.int v))
  | u (v : BitVec 32) : HasTest (.u (.int v))
  | x (v : BitVec 32) : HasTest (.x (.int v))
  | X (v : BitVec 32) : HasTest (.X (.int v))
  | s (v : Option CString) : HasTest (.s v)
  | c (v : BitVec 32) : HasTest (.c v)

theorem HasTest.letter {operand : Operand} (h : HasTest operand) :
    operand.modifier = [] ∧ isDigit operand.letter = false ∧ operand.letter ≠ '-' ∧
      operand.letter ≠ '%' := by
  constructor
  · cases h <;> rfl
  · cases h <;> simp only [Operand.letter] <;> decide

/-- A conversion with a width that is an `int`, or a plain `%%`. -/
structure Supported (conv : Conversion) : Prop where
  precision : conv.precision = none
  width_lt : conv.width < 2 ^ 31
  operand : HasTest conv.operand ∨
    conv.operand = .percent ∧ conv.leftJustified = false ∧ conv.digits = []

def conversionText (pad : Pad) (width : ℕ) : Operand → List Char
  | .d v => numberText false 10 width v.toInt pad
  | .u v => numberText false 10 width v.toNat pad
  | .x v => numberText false 16 width v.toNat pad
  | .X v => numberText true 16 width v.toNat pad
  | .s v => field (stringChars v) width pad
  | .c v => field (charString v) width pad
  | .percent => ['%']
  | .p _ => []

def itemText : Item → List Char
  | .literal c _ => [c]
  | .conversion conv => conversionText ⟨conv.leftJustified, conv.zeroFlag⟩ conv.width conv.operand

theorem convert_eq {operand : Operand} (h : HasTest operand) (width : ℕ) (pad : Pad)
    (more : List Arg) (p : Output) :
    convert operand.letter width pad (operand.args ++ more) p =
      .ok (put (conversionText pad width operand) p, more) := by
  have hprinti : ∀ {b : ℕ} (v : BitVec 32) (sg uppercase : Bool), 8 ≤ b → b ≤ 16 →
      (do let r ← printi p.1 v b sg width pad (letterTen uppercase)
          return (add p.2 r, more) : Except Fault (Output × List Arg)) =
        .ok (put (numberText uppercase b width (value v b sg) pad) p, more) := by
    intro b v sg uppercase hb hb16
    rw [printi_eq hb hb16]
    exact congrArg (fun q => Except.ok (q, more)) (add_put _ p)
  have hprints : ∀ string : List Char,
      add p.2 (prints p.1 string width pad) = put (field string width pad) p := fun string =>
    (congrArg (add p.2) (prints_eq p.1 string width pad)).trans (add_put _ p)
  cases h with
  | d v => exact hprinti v true false (by decide) (by decide)
  | u v => exact hprinti v false false (by decide) (by decide)
  | x v => exact hprinti v false false (by decide) (by decide)
  | X v => exact hprinti v false true (by decide) (by decide)
  | s v => exact congrArg (fun q => Except.ok (q, more)) (hprints _)
  | c v => exact congrArg (fun q => Except.ok (q, more)) (hprints _)

/-! ## Reading a directive -/

/-- The zeros in front of a width are the flag; the rest reads as the same width. -/
theorem readZeros_digits (digits : List (Fin 10)) {rest : List Char} (hrest : peek rest 0 ≠ '0')
    (zero : Bool) : ∃ others : List (Fin 10),
      readZeros (digits.map (fun d : Fin 10 => Nat.digitChar d) ++ rest) zero =
        (zero || digits.head? = some 0, others.map (fun d : Fin 10 => Nat.digitChar d) ++ rest) ∧
      others.foldl pushDigit 0 = digits.foldl pushDigit 0 := by
  induction digits generalizing zero with
  | nil =>
    refine ⟨[], ?_, rfl⟩
    cases rest with
    | nil => exact congrArg (·, []) (Bool.or_false zero).symm
    | cons c rest =>
      have hc : c ≠ '0' := hrest
      rw [List.map_nil, List.nil_append, readZeros, if_neg hc]
      exact congrArg (·, c :: rest) (Bool.or_false zero).symm
  | cons d digits ih =>
    by_cases hd : d = 0
    · obtain ⟨others, hread, hfold⟩ := ih true
      refine ⟨others, ?_, ?_⟩
      · rw [hd, List.map_cons, List.cons_append, readZeros, if_pos (by decide), hread]
        simp
      · rw [hfold, hd]
        rfl
    · have hchar : Nat.digitChar d ≠ '0' := by
        revert d
        decide
      refine ⟨d :: digits, ?_, rfl⟩
      rw [List.map_cons, List.cons_append, readZeros, if_neg hchar]
      simp [hd]

theorem pushDigit_le (digits : List (Fin 10)) (w : ℕ) : w ≤ digits.foldl pushDigit w := by
  induction digits generalizing w with
  | nil => exact le_rfl
  | cons d digits ih =>
    refine le_trans ?_ (ih (pushDigit w d))
    rw [pushDigit]
    omega

theorem readWidth_digits (digits : List (Fin 10)) {rest : List Char}
    (hrest : isDigit (peek rest 0) = false) {w : ℕ} (h : digits.foldl pushDigit w < 2 ^ 31) :
    readWidth (digits.map (fun d : Fin 10 => Nat.digitChar d) ++ rest) w =
      .ok (digits.foldl pushDigit w, rest) := by
  induction digits generalizing w with
  | nil =>
    cases rest with
    | nil => rfl
    | cons c rest =>
      have hc : isDigit c = false := hrest
      rw [List.map_nil, List.nil_append, readWidth, hc]
      rfl
  | cons d digits ih =>
    rw [List.foldl_cons] at h
    have hpush : w * 10 + ((Nat.digitChar d).toNat - '0'.toNat) = pushDigit w d := by
      rw [digitChar_toNat, pushDigit, Nat.mul_comm]
      exact congrArg _ (Nat.add_sub_cancel_left 48 d)
    have hlt : pushDigit w d < 2 ^ 31 := (pushDigit_le digits _).trans_lt h
    rw [List.map_cons, List.cons_append, readWidth, if_pos (isDigit_digitChar d)]
    simp only [hpush]
    rw [if_pos hlt, ih h, List.foldl_cons]

/-! ## The scan -/

/-- Behind the flag `-`, the zeros and the width the scan finds the letter. -/
theorem scan_directive {letter : Char} (hdigit : isDigit letter = false) (hminus : letter ≠ '-')
    (hpercent : letter ≠ '%') (left : Bool) {digits : List (Fin 10)}
    (hwidth : digits.foldl pushDigit 0 < 2 ^ 31) (fuel : ℕ) (rest : List Char) (args : List Arg)
    (p : Output) :
    scan (fuel + 1) ('%' :: ((if left then ['-'] else []) ++
        (digits.map (fun d : Fin 10 => Nat.digitChar d) ++ letter :: rest))) args p =
      (convert letter (digits.foldl pushDigit 0) ⟨left, digits.head? = some 0⟩ args p >>=
        fun r => scan fuel rest r.2 r.1) := by
  have hzero : letter ≠ '0' := by
    rintro rfl
    exact absurd hdigit (by decide)
  have hrest : peek (letter :: rest) 0 ≠ '0' ∧ isDigit (peek (letter :: rest) 0) = false :=
    ⟨hzero, hdigit⟩
  obtain ⟨others, hzeros, hfold⟩ := readZeros_digits digits hrest.1 false
  have hread := readWidth_digits others hrest.2 (hfold.trans_lt hwidth)
  rw [hfold] at hread
  generalize hbody : digits.map (fun d : Fin 10 => Nat.digitChar d) ++ letter :: rest = body at *
  have hhead : body ≠ [] ∧ peek body 0 ≠ '%' ∧ peek body 0 ≠ '-' := by
    rw [← hbody]
    cases digits with
    | nil => exact ⟨List.cons_ne_nil _ _, hpercent, hminus⟩
    | cons d digits =>
      have hflag : ∀ d : Fin 10, Nat.digitChar d ≠ '%' ∧ Nat.digitChar d ≠ '-' := by decide
      exact ⟨List.cons_ne_nil _ _, hflag d⟩
  obtain ⟨hne, hnotPercent, hnotMinus⟩ := hhead
  cases left with
  | false =>
    rw [if_neg Bool.false_ne_true, List.nil_append, scan, if_neg (by decide), if_neg hne,
      if_neg hnotPercent]
    simp only [hnotMinus, decide_false, if_false, hzeros, hread, Bool.false_or]
    rfl
  | true =>
    have hpeek : peek ('-' :: body) 0 = '-' := rfl
    rw [if_pos rfl, List.singleton_append, scan, if_neg (by decide), if_neg (List.cons_ne_nil _ _),
      hpeek, if_neg (by decide)]
    simp only [decide_true, if_true, List.drop_succ_cons, List.drop_zero, hzeros, hread,
      Bool.false_or]
    rfl

/-- One item of the format: the scan prints its text and goes on behind it. -/
theorem scan_item (item : Item) (fuel : ℕ) (rest : List Char) (more : List Arg) (p : Output)
    (h : ∀ conv, item = .conversion conv → Supported conv) :
    scan (fuel + 1) (item.spell ++ rest) (item.args ++ more) p =
      scan fuel rest more (put (itemText item) p) := by
  cases item with
  | literal c hc =>
    change (if c ≠ '%' then _ else _) = _
    rw [if_pos hc]
    rfl
  | conversion conv =>
    obtain ⟨hprecision, hwidth, hoperand⟩ := h conv rfl
    obtain ⟨left, digits, precision, operand⟩ := conv
    cases hprecision
    rcases hoperand with htest | ⟨hpercent, hleft, hdigits⟩
    · obtain ⟨hmodifier, hdigit, hminus, hpercent⟩ := htest.letter
      have hspell : (⟨left, digits, none, operand⟩ : Conversion).spell ++ rest =
          '%' :: ((if left then ['-'] else []) ++
            (digits.map (fun d : Fin 10 => Nat.digitChar d) ++ operand.letter :: rest)) := by
        simp [Conversion.spell, Conversion.ending, hmodifier]
      rw [Item.spell, hspell, scan_directive hdigit hminus hpercent left hwidth]
      have hconvert := convert_eq htest (digits.foldl pushDigit 0)
        ⟨left, digits.head? = some 0⟩ more p
      exact (congrArg (· >>= _) hconvert).trans rfl
    · cases hpercent
      cases hleft
      cases hdigits
      rfl

/-- A whole format, where a `%` may stand behind the items. -/
theorem scan_items (items : List Item) {ending : List Char} (hending : ending = [] ∨ ending = ['%'])
    {fuel : ℕ} (hfuel : items.length < fuel) (p : Output)
    (h : ∀ conv, .conversion conv ∈ items → Supported conv) :
    scan fuel (items.flatMap Item.spell ++ ending) (items.flatMap Item.args) p =
      .ok (put (items.flatMap itemText) p) := by
  induction items generalizing fuel p with
  | nil =>
    cases fuel with
    | zero => cases hfuel
    | succ fuel =>
      rcases hending with rfl | rfl <;> rfl
  | cons item items ih =>
    cases fuel with
    | zero => cases hfuel
    | succ fuel =>
      rw [List.flatMap_cons, List.flatMap_cons, List.append_assoc, scan_item,
        ih (Nat.lt_of_succ_lt_succ hfuel), put_put, List.flatMap_cons]
      · exact fun conv hconv => h conv (List.mem_cons_of_mem _ hconv)
      · rintro conv rfl
        exact h conv List.mem_cons_self

theorem print_items {format : CString} {items : List Item} {ending : List Char}
    (hformat : format.chars = items.flatMap Item.spell ++ ending)
    (hending : ending = [] ∨ ending = ['%'])
    (h : ∀ conv, .conversion conv ∈ items → Supported conv) (out : Out) :
    print out format (items.flatMap Item.args) =
      .ok (terminate (put (items.flatMap itemText) (out, 0)).1,
        (items.flatMap itemText).length) := by
  have hfuel : items.length < format.chars.length + 1 := by
    have hle := length_le_spell items
    rw [hformat, List.length_append]
    omega
  rw [print, hformat] at *
  rw [scan_items items hending hfuel (out, 0) h]
  exact congrArg (fun n => Except.ok (_, n)) (Nat.zero_add _)

end Cpu0Toolchain.Printf.Stdarg
