import Mathlib.Data.Nat.Digits.Defs
import Cpu0Toolchain.Printf.SanitizerPrintf

/-!
# The text each function prints

What an `Append` function prints does not depend on the buffer: each of them puts
a list of characters behind what is there already. The lists are given here in
closed form, those of numbers in terms of `Nat.toDigits`.
-/

namespace Cpu0Toolchain.Printf
open BoundedWriter

/-- Print a text: write what fits, count it all. -/
def put (buffEnd : ℕ) (text : List Char) (p : Printed) : Printed :=
  (writeAll buffEnd text p.1, p.2 + text.length)

section Put

variable {buffEnd : ℕ}

@[simp] theorem put_nil (p : Printed) : put buffEnd [] p = p := rfl

@[simp] theorem put_put (xs ys : List Char) (p : Printed) :
    put buffEnd ys (put buffEnd xs p) = put buffEnd (xs ++ ys) p := by
  simp only [put, writeAll_append, List.length_append, Nat.add_assoc]

@[simp] theorem count_appendChar (c : Char) (p : Printed) :
    count (appendChar buffEnd c) p = put buffEnd [c] p := rfl

/-- A function that prints a text from a fresh count prints it into a running one. -/
theorem count_eq_put {append : Writer Char → Printed} {text : List Char} {p : Printed}
    (h : append p.1 = put buffEnd text (p.1, 0)) : count append p = put buffEnd text p := by
  rw [count, h, put, Nat.zero_add]
  rfl

theorem countM_eq_put {append : Writer Char → Except Fault Printed} {text : List Char} {p : Printed}
    (h : append p.1 = .ok (put buffEnd text (p.1, 0))) :
    countM append p = .ok (put buffEnd text p) := by
  rw [countM, h, put, Nat.zero_add]
  rfl

theorem repeatChar_eq (c : Char) (n : ℕ) (p : Printed) :
    repeatChar buffEnd c n p = put buffEnd (List.replicate n c) p := by
  induction n with
  | zero => rfl
  | succ n ih =>
    rw [repeatChar, List.range_succ, List.foldl_append, ← repeatChar, ih, List.replicate_succ']
    exact put_put (List.replicate n c) [c] p

theorem appendDigits_eq (uppercase : Bool) (digits : List ℕ) (p : Printed) :
    appendDigits buffEnd uppercase digits p =
      put buffEnd (digits.map (digitLetter uppercase)) p := by
  induction digits generalizing p with
  | nil => rfl
  | cons d digits ih =>
    rw [List.map_cons]
    exact (ih _).trans (put_put [digitLetter uppercase d] _ p)

/-! ## Numbers -/

/-- Letters in the case asked for. -/
def inCase (uppercase : Bool) (text : List Char) : List Char :=
  if uppercase then text.map Char.toUpper else text

/-- The minimal digits of a number. -/
def numberDigits (uppercase : Bool) (base value : ℕ) : List Char :=
  inCase uppercase (Nat.toDigits base value)

theorem inCase_append (uppercase : Bool) (xs ys : List Char) :
    inCase uppercase (xs ++ ys) = inCase uppercase xs ++ inCase uppercase ys := by
  cases uppercase
  · rfl
  · exact List.map_append

theorem numberDigits_zero (uppercase : Bool) (base : ℕ) :
    numberDigits uppercase base 0 = ['0'] := by
  rw [numberDigits, Nat.toDigits_zero]
  cases uppercase <;> rfl

theorem digitLetter_eq (uppercase : Bool) {d : ℕ} (h : d < 16) :
    [digitLetter uppercase d] = inCase uppercase [Nat.digitChar d] := by
  revert d uppercase
  decide

/-- A value below the base is its own digit. -/
theorem digitLoop_of_lt {base value : ℕ} (hb16 : base ≤ 16) (room : ℕ) (h : value < base) :
    digitLoop base (room + 1) value = .ok [value] ∧
      ∀ uppercase, [value].reverse.map (digitLetter uppercase) =
        numberDigits uppercase base value := by
  constructor
  · rw [digitLoop, Nat.div_eq_of_lt h, Nat.mod_eq_of_lt h]
    rfl
  · intro uppercase
    rw [numberDigits, Nat.toDigits_of_lt_base h]
    exact digitLetter_eq uppercase (h.trans_le hb16)

/-- The digit loop finds the minimal digits, and a zero on top only for the number zero. -/
theorem digitLoop_eq {base room value : ℕ} (hb : 1 < base) (hb16 : base ≤ 16)
    (h : value < base ^ (room + 1)) :
    ∃ digits top low, digitLoop base (room + 1) value = .ok digits ∧ digits.reverse = top :: low ∧
      (top = 0 ↔ value = 0) ∧ (value = 0 → low = []) ∧
      ∀ uppercase, digits.reverse.map (digitLetter uppercase) =
        numberDigits uppercase base value := by
  induction room generalizing value with
  | zero =>
    rw [Nat.zero_add, Nat.pow_one] at h
    obtain ⟨hloop, hletters⟩ := digitLoop_of_lt hb16 0 h
    exact ⟨[value], value, [], hloop, rfl, Iff.rfl, fun _ => rfl, hletters⟩
  | succ room ih =>
    by_cases hlt : value < base
    · obtain ⟨hloop, hletters⟩ := digitLoop_of_lt hb16 (room + 1) hlt
      exact ⟨[value], value, [], hloop, rfl, Iff.rfl, fun _ => rfl, hletters⟩
    · have hpos : 0 < value / base := Nat.div_pos (by omega) (by omega)
      have hdiv : value / base < base ^ (room + 1) := by
        rw [Nat.div_lt_iff_lt_mul (by omega), ← Nat.pow_succ]
        exact h
      obtain ⟨digits, top, low, hloop, hrev, htop, -, hletters⟩ := ih hdiv
      refine ⟨value % base :: digits, top, low ++ [value % base], ?_, ?_, ?_, ?_, ?_⟩
      · rw [digitLoop, if_pos hpos, hloop]
        rfl
      · rw [List.reverse_cons, hrev, List.cons_append]
      · rw [htop]
        exact iff_of_false hpos.ne' (by omega)
      · intro h0
        omega
      · intro uppercase
        have hmod : value % base < 16 := (Nat.mod_lt _ (by omega)).trans_le hb16
        have hlast : Nat.toDigits base value = _ := Nat.toDigits_of_base_le hb (by omega)
        rw [List.reverse_cons, List.map_append, hletters, numberDigits, numberDigits, hlast,
          inCase_append, ← digitLetter_eq uppercase hmod]
        rfl

/-- The text of a number, from its absolute value. -/
def numberText (value base minimal : ℕ) (padWithZero negative uppercase leftJustified : Bool) :
    List Char :=
  let digits := numberDigits uppercase base value
  let pads := minimal - negative.toNat - digits.length
  (if negative && padWithZero then ['-'] else []) ++
    (if leftJustified then [] else List.replicate pads (if padWithZero then '0' else ' ')) ++
    (if negative && !padWithZero then ['-'] else []) ++
    -- a zero is taken for padding, and padding on the left is not printed
    (if leftJustified && value = 0 then [] else digits) ++
    (if leftJustified then List.replicate pads ' ' else [])

theorem skipZeros_pads (padWithZero leftJustified : Bool) (n : ℕ) {rest : List ℕ}
    (hrest : rest ≠ []) (p : Printed) :
    skipZeros buffEnd padWithZero leftJustified (List.replicate n 0 ++ rest) p =
      skipZeros buffEnd padWithZero leftJustified rest
        (put buffEnd (if leftJustified then []
          else List.replicate n (if padWithZero then '0' else ' ')) p) := by
  induction n generalizing p with
  | zero => cases leftJustified <;> rfl
  | succ n ih =>
    have hmore : (List.replicate n 0 ++ rest).isEmpty = false := by
      simp [hrest]
    rw [List.replicate_succ, List.cons_append, skipZeros, if_pos rfl, hmore, ih]
    cases leftJustified <;> simp [List.replicate_succ]

/-- At the first digit the loop stops, unless the number is zero: then it prints it. -/
theorem skipZeros_top {value top : ℕ} {low : List ℕ} (htop : top = 0 ↔ value = 0)
    (hlow : value = 0 → low = []) (padWithZero leftJustified : Bool) (p : Printed) :
    skipZeros buffEnd padWithZero leftJustified (top :: low) p =
      if value = 0 then ([], put buffEnd (if leftJustified then [] else ['0']) p)
      else (top :: low, p) := by
  by_cases h0 : value = 0
  · rw [if_pos h0, hlow h0, htop.mpr h0]
    cases leftJustified <;> simp [skipZeros]
  · rw [if_neg h0, skipZeros, if_neg (mt htop.mp h0)]

/-- `AppendNumber` prints its text. -/
theorem appendNumber_eq {absoluteValue : BitVec 64} {base : ℕ} {minimalNumLength : BitVec 8}
    {padWithZero negative uppercase leftJustified : Bool} (hbase : base = 10 ∨ base = 16)
    (hneg : negative = true → absoluteValue.toNat ≠ 0) (hmin : minimalNumLength.toNat ≤ kMaxLen)
    (w : Writer Char) :
    appendNumber buffEnd absoluteValue base minimalNumLength padWithZero negative uppercase
        leftJustified w =
      .ok (put buffEnd (numberText absoluteValue.toNat base minimalNumLength.toNat padWithZero
        negative uppercase leftJustified) (w, 0)) := by
  have hb : 1 < base ∧ base ≤ 16 ∧ 10 ≤ base := by omega
  -- thirty digits are enough for any 64-bit number
  have hvalue : absoluteValue.toNat < base ^ (29 + 1) :=
    absoluteValue.isLt.trans_le ((by decide : 2 ^ 64 ≤ 10 ^ 30).trans
      (Nat.pow_le_pow_left hb.2.2 30))
  obtain ⟨digits, top, low, hloop, hrev, htop, hlow, hletters⟩ := digitLoop_eq hb.1 hb.2.1 hvalue
  have hlen : (numberDigits uppercase base absoluteValue.toNat).length = digits.length := by
    rw [← hletters uppercase, List.length_map, List.length_reverse]
  have hminimal : (if negative && minimalNumLength.toNat ≠ 0 then minimalNumLength.toNat - 1
      else minimalNumLength.toNat) = minimalNumLength.toNat - negative.toNat := by
    cases negative
    · rfl
    · by_cases h0 : minimalNumLength.toNat = 0 <;> simp [h0]
  have hloop' : digitLoop base kMaxLen absoluteValue.toNat = .ok digits := hloop
  have hroom : ¬(digits.length < minimalNumLength.toNat - negative.toNat ∧
      kMaxLen < minimalNumLength.toNat - negative.toNat) := by omega
  unfold appendNumber
  simp only [hminimal, hloop', bind, Except.bind, if_neg hroom, pure, Except.pure,
    List.reverse_append, List.reverse_replicate, hrev]
  rw [skipZeros_pads _ _ _ (List.cons_ne_nil top low)]
  rw [skipZeros_top htop hlow]
  have hdigits := hletters uppercase
  rw [hrev] at hdigits
  -- only the number zero keeps a zero on top, and it has no sign
  by_cases hzero : absoluteValue.toNat = 0
  · have hpos : negative = false := by
      cases negative
      · rfl
      · exact absurd hzero (hneg rfl)
    subst hpos
    simp only [numberText, hzero, numberDigits_zero, ← hlen]
    cases padWithZero <;> cases leftJustified <;> simp [repeatChar_eq, appendDigits_eq]
  · simp only [numberText, hzero, ← hlen]
    cases padWithZero <;> cases leftJustified <;> cases negative <;>
      simp [repeatChar_eq, appendDigits_eq, hdigits]

theorem natAbs_toInt (num : BitVec 64) :
    (if num.slt 0 then -num else num).toNat = num.toInt.natAbs := by
  have hslt : num.slt 0 = decide (num.toInt < 0) := rfl
  have hlt := num.isLt
  rw [hslt]
  by_cases hneg : num.toInt < 0
  · rw [decide_eq_true hneg, if_pos rfl, BitVec.toNat_neg]
    rw [BitVec.toInt_eq_toNat_cond] at hneg ⊢
    split at hneg <;> omega
  · rw [decide_eq_false hneg, if_neg Bool.false_ne_true]
    rw [BitVec.toInt_eq_toNat_cond] at hneg ⊢
    split at hneg <;> omega

/-- `AppendSignedDecimal` prints the sign of the argument and its absolute value, also for
the least value, whose negation wraps to itself. -/
theorem appendSignedDecimal_eq {num : BitVec 64} {minimalNumLength : BitVec 8}
    {padWithZero leftJustified : Bool} (hmin : minimalNumLength.toNat ≤ kMaxLen) (w : Writer Char) :
    appendSignedDecimal buffEnd num minimalNumLength padWithZero leftJustified w =
      .ok (put buffEnd (numberText num.toInt.natAbs 10 minimalNumLength.toNat padWithZero
        (num.toInt < 0) false leftJustified) (w, 0)) := by
  have hslt : num.slt 0 = decide (num.toInt < 0) := rfl
  rw [appendSignedDecimal, hslt, ← natAbs_toInt num, hslt]
  refine appendNumber_eq (Or.inl rfl) ?_ hmin w
  intro hneg
  have habs := natAbs_toInt num
  rw [hslt] at habs
  rw [habs]
  have := of_decide_eq_true hneg
  omega

theorem appendUnsigned_eq {num : BitVec 64} {base : ℕ} {minimalNumLength : BitVec 8}
    {padWithZero uppercase leftJustified : Bool} (hbase : base = 10 ∨ base = 16)
    (hmin : minimalNumLength.toNat ≤ kMaxLen) (w : Writer Char) :
    appendUnsigned buffEnd num base minimalNumLength padWithZero uppercase leftJustified w =
      .ok (put buffEnd (numberText num.toNat base minimalNumLength.toNat padWithZero false uppercase
        leftJustified) (w, 0)) :=
  appendNumber_eq hbase (fun h => absurd h Bool.false_ne_true) hmin w

/-! ## Strings -/

/-- The text of a string. The precision is compared with everything printed so far, the
padding on the left included. -/
def stringText (width maxChars : ℤ) (s : List Char) (leftJustified : Bool) : List Char :=
  let lead := if leftJustified then [] else List.replicate (width - s.length).toNat ' '
  let body := if 0 ≤ maxChars then s.take (maxChars - lead.length).toNat else s
  lead ++ body ++ (if leftJustified then List.replicate (-width - body.length).toNat ' ' else [])

theorem stringLoop_eq (maxChars : ℤ) (s : List Char) (p : Printed) :
    stringLoop buffEnd maxChars s p =
      put buffEnd (if 0 ≤ maxChars then s.take (maxChars - p.2).toNat else s) p := by
  induction s generalizing p with
  | nil => simp [stringLoop]
  | cons c s ih =>
    rw [stringLoop]
    by_cases hstop : 0 ≤ maxChars ∧ maxChars ≤ p.2
    · have hnone : (maxChars - p.2).toNat = 0 := by omega
      rw [if_pos hstop, if_pos hstop.1, hnone, List.take_zero, put_nil]
    · rw [if_neg hstop, count_appendChar, ih, put_put]
      by_cases hmax : 0 ≤ maxChars
      · have hmore : (maxChars - p.2).toNat =
            (maxChars - (put buffEnd [c] p).2).toNat + 1 := by
          simp only [put, List.length_singleton]
          omega
        rw [if_pos hmax, if_pos hmax, hmore, List.take_succ_cons, List.singleton_append]
      · rw [if_neg hmax, if_neg hmax, List.singleton_append]

theorem padWhile_eq (bound : ℤ) (p : Printed) :
    padWhile buffEnd bound p = put buffEnd (List.replicate (bound - p.2).toNat ' ') p :=
  repeatChar_eq ' ' _ p

/-- `AppendString` prints its text. -/
theorem appendString_eq (width maxChars : BitVec 32) (s : Option CString) (leftJustified : Bool)
    (w : Writer Char) :
    appendString buffEnd width maxChars s leftJustified w =
      put buffEnd (stringText width.toInt maxChars.toInt (stringChars s) leftJustified) (w, 0) := by
  unfold appendString stringText
  cases leftJustified with
  | false => simp [stringLoop_eq, padWhile_eq, put, writeAll_append]
  | true => simp [stringLoop_eq, padWhile_eq, put, writeAll_append]

/-- The text of a pointer. -/
def pointerText (value : ℕ) (leftJustified : Bool) : List Char :=
  '0' :: 'x' :: numberText value 16 12 true false false leftJustified

theorem appendPointer_eq (ptrValue : BitVec 64) (leftJustified : Bool) (w : Writer Char) :
    appendPointer buffEnd ptrValue leftJustified w =
      .ok (put buffEnd (pointerText ptrValue.toNat leftJustified) (w, 0)) := by
  have hprefix : count (appendString buffEnd 0 (-1) (some ⟨['0', 'x'], by decide⟩) leftJustified)
      (w, 0) = put buffEnd ['0', 'x'] (w, 0) := by
    refine count_eq_put ((appendString_eq _ _ _ _ _).trans ?_)
    cases leftJustified <;> rfl
  have hnumber : countM (appendUnsigned buffEnd ptrValue 16 12 true false leftJustified)
      (put buffEnd ['0', 'x'] (w, 0)) = _ :=
    countM_eq_put (appendUnsigned_eq (Or.inr rfl) (by decide) _)
  rw [put_put] at hnumber
  rw [appendPointer, hprefix]
  exact hnumber

end Put

end Cpu0Toolchain.Printf
