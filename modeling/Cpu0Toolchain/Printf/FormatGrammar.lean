import Cpu0Toolchain.Printf.SanitizerPrintf

/-!
# The grammar of formats

Any text is a format, and it is complete if it does not end inside a directive. The flags of
a directive are the longest that the text has behind its `%`.

## Main results

- `exists_flags`: every text behind a `%` begins with flags.
- `complete_of_vsnPrintf`: `VSNPrintf` returns from complete formats only.
-/

namespace Cpu0Toolchain.Printf

/-! ## Formats that end outside of their directives -/

/-- One more digit behind a decimal number. -/
def pushDigit (w : ℕ) (d : Fin 10) : ℕ := 10 * w + d

inductive LengthModifier where
  | none
  | z
  | ll
  deriving DecidableEq

def LengthModifier.spell : LengthModifier → List Char
  | .none => []
  | .z => ['z']
  | .ll => ['l', 'l']

/-- What stands between a `%` and its conversion letter. -/
structure Flags where
  minus : Bool
  digits : List (Fin 10)
  star : Bool
  modifier : LengthModifier
  deriving DecidableEq

namespace Flags

def minusText (flags : Flags) : List Char := if flags.minus then ['-'] else []

def digitsText (flags : Flags) : List Char := flags.digits.map fun d : Fin 10 => Nat.digitChar d

def starText (flags : Flags) : List Char := if flags.star then ['.', '*'] else []

def spell (flags : Flags) : List Char :=
  flags.minusText ++ (flags.digitsText ++ (flags.starText ++ flags.modifier.spell))

def width (flags : Flags) : ℕ := flags.digits.foldl pushDigit 0

/-- What the scan reads from the flags, and the argument of `.*`. -/
def directive (flags : Flags) (precision : BitVec 32) : Directive where
  leftJustified := flags.minus
  padWithZero := flags.digits.head?.map Fin.val = some 0
  width := BitVec.ofNat 32 flags.width
  precision := precision
  haveZ := flags.modifier = .z
  haveLl := flags.modifier = .ll

def takePrecision (flags : Flags) (args : List Arg) : Except Fault (BitVec 32 × List Arg) :=
  if flags.star then vaInt args else .ok (-1, args)

/-- The text behind the flags does not go on with them. -/
structure StopsAt (flags : Flags) (text : List Char) : Prop where
  modifier : flags.modifier = .none →
    peek text 0 ≠ 'z' ∧ ¬(peek text 0 = 'l' ∧ peek text 1 = 'l')
  star : flags.modifier = .none → flags.star = false →
    ¬(peek text 0 = '.' ∧ peek text 1 = '*')
  digits : flags.modifier = .none → flags.star = false → isDigit (peek text 0) = false
  minus : flags.modifier = .none → flags.star = false → flags.digits = [] →
    flags.minus = false → peek text 0 ≠ '-'

end Flags

/-- Characters and directives with their letters, known or not. -/
inductive Complete : List Char → Prop
  | nil : Complete []
  | literal {c : Char} {rest : List Char} (hc : c ≠ '%') (hrest : Complete rest) :
    Complete (c :: rest)
  | directive (flags : Flags) {letter : Char} {rest : List Char}
    (hstop : flags.StopsAt (letter :: rest)) (hrest : Complete rest) :
    Complete ('%' :: (flags.spell ++ letter :: rest))

/-! ## The flags of a text -/

theorem exists_digit {c : Char} (h : isDigit c = true) :
    ∃ d : Fin 10, Nat.digitChar d = c := by
  obtain ⟨hlo, hhi⟩ := Bool.and_eq_true_iff.mp h
  have hlo' : 48 ≤ c.toNat := of_decide_eq_true hlo
  have hhi' : c.toNat ≤ 57 := of_decide_eq_true hhi
  refine ⟨⟨c.toNat - 48, by omega⟩, ?_⟩
  apply Char.toNat_inj.mp
  rw [Nat.toNat_digitChar_of_lt_ten (show c.toNat - 48 < 10 by omega)]
  omega

theorem exists_digits (text : List Char) :
    ∃ (digits : List (Fin 10)) (rest : List Char),
      text = digits.map (fun d : Fin 10 => Nat.digitChar d) ++ rest ∧
        isDigit (peek rest 0) = false := by
  induction text with
  | nil => exact ⟨[], [], rfl, rfl⟩
  | cons c text ih =>
    by_cases hc : isDigit c = true
    · obtain ⟨d, rfl⟩ := exists_digit hc
      obtain ⟨digits, rest, htext, hrest⟩ := ih
      exact ⟨d :: digits, rest, congrArg (Nat.digitChar d :: ·) htext, hrest⟩
    · exact ⟨[], c :: text, rfl, eq_false_of_ne_true hc⟩

theorem cons_of_peek {c : Char} {text : List Char} (hc : c ≠ '\x00') (h : peek text 0 = c) :
    ∃ rest, text = c :: rest := by
  cases text with
  | nil => exact absurd h.symm hc
  | cons d rest =>
    obtain rfl : d = c := h
    exact ⟨rest, rfl⟩

theorem exists_minus (text : List Char) :
    ∃ (b : Bool) (rest : List Char), text = (if b then ['-'] else []) ++ rest ∧
      (b = false → peek rest 0 ≠ '-') := by
  by_cases h : peek text 0 = '-'
  · obtain ⟨rest, rfl⟩ := cons_of_peek (by decide) h
    exact ⟨true, rest, rfl, fun hb => by cases hb⟩
  · exact ⟨false, text, rfl, fun _ => h⟩

theorem exists_star (text : List Char) :
    ∃ (b : Bool) (rest : List Char), text = (if b then ['.', '*'] else []) ++ rest ∧
      (b = false → ¬(peek rest 0 = '.' ∧ peek rest 1 = '*')) := by
  by_cases h : peek text 0 = '.' ∧ peek text 1 = '*'
  · obtain ⟨tail, rfl⟩ := cons_of_peek (by decide) h.1
    obtain ⟨rest, rfl⟩ := cons_of_peek (by decide) (show peek tail 0 = '*' from h.2)
    exact ⟨true, rest, rfl, fun hb => by cases hb⟩
  · exact ⟨false, text, rfl, fun _ => h⟩

theorem exists_modifier (text : List Char) :
    ∃ (m : LengthModifier) (rest : List Char), text = m.spell ++ rest ∧
      (m = .none → peek rest 0 ≠ 'z' ∧ ¬(peek rest 0 = 'l' ∧ peek rest 1 = 'l')) := by
  by_cases hz : peek text 0 = 'z'
  · obtain ⟨rest, rfl⟩ := cons_of_peek (by decide) hz
    exact ⟨.z, rest, rfl, fun hm => by cases hm⟩
  · by_cases hl : peek text 0 = 'l' ∧ peek text 1 = 'l'
    · obtain ⟨tail, rfl⟩ := cons_of_peek (by decide) hl.1
      obtain ⟨rest, rfl⟩ := cons_of_peek (by decide) (show peek tail 0 = 'l' from hl.2)
      exact ⟨.ll, rest, rfl, fun hm => by cases hm⟩
    · exact ⟨.none, text, rfl, fun _ => ⟨hz, hl⟩⟩

/-- Every text behind a `%` begins with flags. -/
theorem exists_flags (text : List Char) :
    ∃ (flags : Flags) (rest : List Char), text = flags.spell ++ rest ∧ flags.StopsAt rest := by
  obtain ⟨minus, t₁, rfl, hminus⟩ := exists_minus text
  obtain ⟨digits, t₂, rfl, hdigits⟩ := exists_digits t₁
  obtain ⟨star, t₃, rfl, hstar⟩ := exists_star t₂
  obtain ⟨modifier, rest, rfl, hmodifier⟩ := exists_modifier t₃
  refine ⟨⟨minus, digits, star, modifier⟩, rest, ?_, ?_⟩
  · simp only [Flags.spell, Flags.minusText, Flags.digitsText, Flags.starText, List.append_assoc]
  · constructor
    · exact hmodifier
    · rintro rfl hs
      exact hstar hs
    · rintro rfl rfl
      exact hdigits
    · rintro rfl rfl rfl hm
      exact hminus hm

namespace Flags

variable {flags : Flags} {rest : List Char} (h : flags.StopsAt rest)
include h

theorem StopsAt.not_star (hstar : flags.star = false) :
    ¬(peek (flags.modifier.spell ++ rest) 0 = '.' ∧ peek (flags.modifier.spell ++ rest) 1 = '*') := by
  cases hm : flags.modifier with
  | none => exact h.star hm hstar
  | z => exact fun hdot => absurd hdot.1 (by decide : 'z' ≠ '.')
  | ll => exact fun hdot => absurd hdot.1 (by decide : 'l' ≠ '.')

theorem StopsAt.not_digit :
    isDigit (peek (flags.starText ++ (flags.modifier.spell ++ rest)) 0) = false := by
  cases hs : flags.star with
  | true => simp [starText, hs, peek, isDigit]
  | false =>
    cases hm : flags.modifier with
    | none => simpa [starText, hs, LengthModifier.spell] using h.digits hm hs
    | z => simp [starText, hs, LengthModifier.spell, peek, isDigit]
    | ll => simp [starText, hs, LengthModifier.spell, peek, isDigit]

/-- A zero in front is the first of the digits. -/
theorem StopsAt.zero_iff :
    peek (flags.digitsText ++ (flags.starText ++ (flags.modifier.spell ++ rest))) 0 = '0' ↔
      flags.digits.head?.map Fin.val = some 0 := by
  have hdigit := h.not_digit
  rw [digitsText]
  cases flags.digits with
  | nil =>
    refine iff_of_false ?_ (by simp)
    intro hzero
    rw [List.map_nil, List.nil_append] at hzero
    rw [hzero] at hdigit
    revert hdigit
    decide
  | cons d digits =>
    change Nat.digitChar d = '0' ↔ some d.val = some 0
    revert d
    decide

theorem StopsAt.not_minus (hminus : flags.minus = false) :
    peek (flags.digitsText ++ (flags.starText ++ (flags.modifier.spell ++ rest))) 0 ≠ '-' := by
  have hdigit : ∀ d : Fin 10, Nat.digitChar d ≠ '-' := by decide
  cases hd : flags.digits with
  | cons d digits => simp [digitsText, hd, peek, hdigit]
  | nil =>
    cases hs : flags.star with
    | true => simp [digitsText, hd, starText, hs, peek]
    | false =>
      cases hm : flags.modifier with
      | none => simpa [digitsText, hd, starText, hs, LengthModifier.spell] using h.minus hm hs hd hminus
      | z => simp [digitsText, hd, starText, hs, LengthModifier.spell, peek]
      | ll => simp [digitsText, hd, starText, hs, LengthModifier.spell, peek]

end Flags

/-! ## The functions that read a directive -/

section ReadDirective

theorem isDigit_digitChar (d : Fin 10) : isDigit (Nat.digitChar d) = true := by
  revert d
  decide

theorem digitChar_toNat (d : Fin 10) : (Nat.digitChar d).toNat = 48 + d := by
  revert d
  decide

theorem readWidth_digits (digits : List (Fin 10)) {rest : List Char}
    (hrest : isDigit (peek rest 0) = false) (w : ℕ) :
    readWidth (digits.map (fun d : Fin 10 => Nat.digitChar d) ++ rest) (BitVec.ofNat 32 w) =
      (BitVec.ofNat 32 (digits.foldl pushDigit w), rest) := by
  induction digits generalizing w with
  | nil =>
    cases rest with
    | nil => rfl
    | cons c rest =>
      have hc : isDigit c = false := hrest
      simp [readWidth, hc]
  | cons d digits ih =>
    have hstep : BitVec.ofNat 32 w * 10 + BitVec.ofNat 32 (48 + d) - BitVec.ofNat 32 '0'.toNat =
        BitVec.ofNat 32 (pushDigit w d) := by
      have hzero : '0'.toNat = 48 := rfl
      have hmul : BitVec.ofNat 32 w * 10 = BitVec.ofNat 32 (10 * w) :=
        (BitVec.mul_comm _ _).trans (BitVec.ofNat_mul 10 w).symm
      rw [hzero, hmul, ← BitVec.ofNat_add, pushDigit, Nat.add_left_comm, BitVec.ofNat_add,
        BitVec.add_comm]
      exact BitVec.add_sub_cancel _ _
    rw [List.map_cons, List.cons_append, readWidth, if_pos (isDigit_digitChar d),
      digitChar_toNat, hstep, ih, List.foldl_cons]

variable {flags : Flags} {rest : List Char} (hstop : flags.StopsAt rest)
include hstop

theorem readPrecision_flags (args : List Arg) :
    readPrecision (flags.starText ++ (flags.modifier.spell ++ rest)) args =
      (fun r => (r.1, flags.modifier.spell ++ rest, r.2)) <$> flags.takePrecision args := by
  rw [Flags.starText, Flags.takePrecision]
  cases hs : flags.star with
  | true => rfl
  | false => exact if_neg (hstop.not_star hs)

theorem readLength_flags :
    readLength (flags.modifier.spell ++ rest) =
      (decide (flags.modifier = .z), decide (flags.modifier = .ll), rest) := by
  cases hm : flags.modifier with
  | none =>
    obtain ⟨hz, hl⟩ := hstop.modifier hm
    rw [LengthModifier.spell, List.nil_append, readLength, if_neg hz, if_neg hl]
    rfl
  | z => rfl
  | ll => rfl

/-- The flags are what `readDirective` steps over. -/
theorem readDirective_flags (args : List Arg) :
    readDirective (flags.spell ++ rest) args =
      (fun r => (flags.directive r.1, rest, r.2)) <$> flags.takePrecision args := by
  -- `body` is the text behind the optional minus
  set body := flags.digitsText ++ (flags.starText ++ (flags.modifier.spell ++ rest)) with hbody
  have hspell : flags.spell ++ rest = flags.minusText ++ body := by
    simp only [Flags.spell, List.append_assoc, hbody]
  have hleft : decide (peek (flags.minusText ++ body) 0 = '-') = flags.minus := by
    cases hm : flags.minus with
    | true => simp [Flags.minusText, hm, peek]
    | false => simpa [Flags.minusText, hm] using hstop.not_minus hm
  have hskip : (if peek (flags.minusText ++ body) 0 = '-' then (flags.minusText ++ body).drop 1
      else flags.minusText ++ body) = body := by
    cases hm : flags.minus with
    | true => simp [Flags.minusText, hm, peek]
    | false => simpa [Flags.minusText, hm] using fun hminus => absurd hminus (hstop.not_minus hm)
  have hzero : peek body 0 = '0' ↔ flags.digits.head?.map Fin.val = some 0 := hstop.zero_iff
  have hwidth : readWidth body 0 = (BitVec.ofNat 32 flags.width,
      flags.starText ++ (flags.modifier.spell ++ rest)) :=
    readWidth_digits flags.digits hstop.not_digit 0
  rw [hspell, readDirective]
  simp only [hskip, hleft, hwidth, hzero, readPrecision_flags hstop, bind, Except.bind, pure,
    Except.pure]
  cases flags.takePrecision args with
  | error e => rfl
  | ok r =>
    change Except.ok _ = Except.ok _
    rw [readLength_flags hstop]
    rfl

theorem readDirective_ok {cur : List Char} {args more : List Arg} {d : Directive}
    (h : readDirective (flags.spell ++ rest) args = .ok (d, cur, more)) :
    cur = rest ∧ d.width = BitVec.ofNat 32 flags.width := by
  rw [readDirective_flags hstop] at h
  cases hprecision : flags.takePrecision args with
  | error e =>
    rw [hprecision] at h
    cases h
  | ok r =>
    rw [hprecision] at h
    cases h
    exact ⟨rfl, rfl⟩

end ReadDirective

/-! ## The scan over a directive -/

section Scan

variable {buffEnd fuel : ℕ} {text : List Char} {args : List Arg} {p q : Printed}

/-- `cur++` behind the `switch`, and the loop from there. -/
def scanBehind (buffEnd fuel : ℕ) : List Char → List Arg → Printed → Except Fault Printed
  | [], _, _ => .error .formatOverrun
  | _ :: cur, args, p => scan buffEnd fuel cur args p

theorem scan_directive {cur : List Char} {more : List Arg} {d : Directive}
    (hread : readDirective text args = .ok (d, cur, more)) :
    scan buffEnd (fuel + 1) ('%' :: text) args p =
      (convert buffEnd d (peek cur 0) more p).bind fun r => scanBehind buffEnd fuel cur r.2 r.1 := by
  rw [scan, if_neg (not_not.mpr rfl), hread]
  cases cur <;> rfl

theorem scan_directive_error {e : Fault} (hread : readDirective text args = .error e) :
    scan buffEnd (fuel + 1) ('%' :: text) args p = .error e := by
  rw [scan, if_neg (not_not.mpr rfl), hread]
  rfl

/-- A scan that returns has read a complete format. -/
theorem complete_of_scan (h : scan buffEnd fuel text args p = .ok q) : Complete text := by
  induction fuel generalizing text args p with
  | zero => cases h
  | succ fuel ih =>
    cases text with
    | nil => exact .nil
    | cons c text =>
      by_cases hc : c = '%'
      · subst hc
        obtain ⟨flags, rest, rfl, hstop⟩ := exists_flags text
        cases hread : readDirective (flags.spell ++ rest) args with
        | error e =>
          rw [scan_directive_error hread] at h
          cases h
        | ok r =>
          obtain ⟨d, cur, more⟩ := r
          obtain ⟨rfl, -⟩ := readDirective_ok hstop hread
          rw [scan_directive hread] at h
          cases hconvert : convert buffEnd d (peek cur 0) more p with
          | error e =>
            rw [hconvert] at h
            cases h
          | ok r =>
            rw [hconvert] at h
            -- without a letter behind the flags the scan steps over the end
            cases cur with
            | nil => cases h
            | cons letter cur => exact .directive flags hstop (ih h)
      · rw [scan, if_pos hc] at h
        exact .literal hc (ih h)

end Scan

theorem complete_of_vsnPrintf {buff : ℕ → Char} {buffLength : ℕ} {format : CString}
    {args : List Arg} {r : (ℕ → Char) × ℕ} (h : vsnPrintf buff buffLength format args = .ok r) :
    Complete format.chars := by
  rw [vsnPrintf] at h
  cases hscan : scan (buffLength - 1) (format.chars.length + 1) format.chars args (⟨buff, 0⟩, 0) with
  | error e =>
    simp only [hscan] at h
    cases h
  | ok q => exact complete_of_scan hscan

end Cpu0Toolchain.Printf
