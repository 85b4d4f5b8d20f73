import Cpu0Toolchain.Printf.FormatGrammar
import Cpu0Toolchain.Printf.NumBuffer

/-!
# The calls of `AppendNumber`

The calls that the scan of a format makes with the arguments it is given, up to the end of the
format or a missing argument.

## Main results

- `numBufferSafe_iff`: the formats and arguments with which no access leaves the array.
- `vsnPrintf_overrun_iff`: `vsnPrintf` reports all others.
-/

namespace Cpu0Toolchain.Printf
open BoundedWriter

/-! ## The calls of a run -/

/-- `AppendSignedDecimal` -/
def signedCall (num : BitVec 64) (minimalNumLength : BitVec 8) : NumberCall where
  absoluteValue := if num.slt 0 then -num else num
  base := 10
  minimalNumLength := minimalNumLength
  negative := num.slt 0
  base_eq := Or.inl rfl

/-- `AppendUnsigned` -/
def unsignedCall (num : BitVec 64) (hex : Bool) (minimalNumLength : BitVec 8) : NumberCall where
  absoluteValue := num
  base := if hex then 16 else 10
  minimalNumLength := minimalNumLength
  negative := false
  base_eq := by cases hex <;> simp

/-- The call of `AppendNumber` in the `switch` over the conversion letter, if there is one. -/
def numberCall (d : Directive) (letter : Char) (args : List Arg) :
    Except Fault (Option NumberCall × List Arg) :=
  match letter with
  | 'd' => (fun r => (some (signedCall r.1 (d.width.setWidth 8)), r.2)) <$> vaSigned d args
  | 'u' => (fun r => (some (unsignedCall r.1 false (d.width.setWidth 8)), r.2)) <$> vaUnsigned d args
  | 'x' => (fun r => (some (unsignedCall r.1 true (d.width.setWidth 8)), r.2)) <$> vaUnsigned d args
  | 'X' => (fun r => (some (unsignedCall r.1 true (d.width.setWidth 8)), r.2)) <$> vaUnsigned d args
  | 'p' => (fun r => (some (unsignedCall (r.1.setWidth 64) true 12), r.2)) <$> vaLong args
  | 's' => (fun r => (none, r.2)) <$> vaPointer args
  | 'c' => (fun r => (none, r.2)) <$> vaInt args
  | _ => .ok (none, args)

/-- The scan of a text with arguments comes to a call of `AppendNumber`. -/
inductive Calls (call : NumberCall) : List Char → List Arg → Prop
  | literal {c : Char} {cur : List Char} {args : List Arg} (hc : c ≠ '%')
    (hrest : Calls call cur args) : Calls call (c :: cur) args
  | here {text cur : List Char} {args more rest : List Arg} {d : Directive}
    (hread : readDirective text args = .ok (d, cur, more))
    (hcall : numberCall d (peek cur 0) more = .ok (some call, rest)) : Calls call ('%' :: text) args
  | later {text cur : List Char} {letter : Char} {args more rest : List Arg} {d : Directive}
    {passed : Option NumberCall}
    (hread : readDirective text args = .ok (d, letter :: cur, more))
    (hcall : numberCall d letter more = .ok (passed, rest)) (hrest : Calls call cur rest) :
    Calls call ('%' :: text) args

/-! ## The calls of the model -/

/-- A conversion with the call that it makes: it fails where there is no argument, and where
the call leaves the buffer. -/
def Agrees (called : Except Fault (Option NumberCall × List Arg))
    (converted : Except Fault (Printed × List Arg)) : Prop :=
  match called with
  | .error e => e = .argument ∧ converted = .error e
  | .ok r =>
    ((∀ c ∈ r.1, c.Roomy) → ∃ q, converted = .ok (q, r.2)) ∧
      ∀ c ∈ r.1, ¬c.Roomy → converted = .error .numBufferOverrun

/-- What `va_arg` fails with. -/
def NeedsArgument {α : Type} (x : Except Fault α) : Prop := ∀ e, x = .error e → e = .argument

section Arguments

variable (d : Directive) (args : List Arg)

theorem vaInt_needs : NeedsArgument (vaInt args) := by
  unfold vaInt
  split <;> simp [NeedsArgument, eq_comm]

theorem vaLong_needs : NeedsArgument (vaLong args) := by
  unfold vaLong
  split <;> simp [NeedsArgument, eq_comm]

theorem vaLongLong_needs : NeedsArgument (vaLongLong args) := by
  unfold vaLongLong
  split <;> simp [NeedsArgument, eq_comm]

theorem vaPointer_needs : NeedsArgument (vaPointer args) := by
  unfold vaPointer
  split <;> simp [NeedsArgument, eq_comm]

theorem NeedsArgument.map {α β : Type} {x : Except Fault α} (h : NeedsArgument x) (f : α → β) :
    NeedsArgument (f <$> x) := by
  intro e he
  cases x with
  | error e' =>
    obtain rfl : e' = e := Except.error.inj he
    exact h e' rfl
  | ok a => cases he

theorem vaSigned_needs : NeedsArgument (vaSigned d args) := by
  unfold vaSigned
  split
  · exact vaLongLong_needs args
  · split
    · exact (vaLong_needs args).map _
    · exact (vaInt_needs args).map _

theorem vaUnsigned_needs : NeedsArgument (vaUnsigned d args) := by
  unfold vaUnsigned
  split
  · exact vaLongLong_needs args
  · split
    · exact (vaLong_needs args).map _
    · exact (vaInt_needs args).map _

theorem readPrecision_needs (cur : List Char) : NeedsArgument (readPrecision cur args) := by
  unfold readPrecision
  split
  · exact (vaInt_needs args).map _
  · intro e he
    cases he

theorem readDirective_needs (cur : List Char) : NeedsArgument (readDirective cur args) := by
  intro e he
  unfold readDirective at he
  dsimp only at he
  generalize readWidth _ 0 = r at he
  cases hprecision : readPrecision r.2 args with
  | error e' =>
    simp only [hprecision] at he
    obtain rfl : e' = e := Except.error.inj he
    exact readPrecision_needs args r.2 e' hprecision
  | ok q =>
    simp only [hprecision] at he
    cases he

end Arguments

section Conversions

variable {α : Type} {x : Except Fault (α × List Arg)} (hx : NeedsArgument x)
include hx

/-- A conversion that appends a number. -/
theorem agrees_number {call : α → NumberCall} {append : α → Writer Char → Except Fault Printed}
    (happend : ∀ a w, ((call a).Roomy → ∃ q, append a w = .ok q) ∧
      (¬(call a).Roomy → append a w = .error .numBufferOverrun)) (p : Printed) :
    Agrees ((fun r => (some (call r.1), r.2)) <$> x)
      (x.bind fun r => (countM (append r.1) p).bind fun q => .ok (q, r.2)) := by
  cases x with
  | error e => exact ⟨hx e rfl, rfl⟩
  | ok r =>
    obtain ⟨hok, herror⟩ := happend r.1 p.1
    constructor
    · intro hroomy
      obtain ⟨q, hq⟩ := hok (hroomy _ rfl)
      refine ⟨(q.1, p.2 + q.2), ?_⟩
      simp only [Except.bind, countM, hq]
      rfl
    · intro c hc hover
      obtain rfl := Option.some.inj hc
      simp only [Except.bind, countM, herror hover]
      rfl

/-- A conversion that appends something else. -/
theorem agrees_other (print : α → Printed) :
    Agrees ((fun r => (none, r.2)) <$> x) (x.bind fun r => .ok (print r.1, r.2)) := by
  cases x with
  | error e => exact ⟨hx e rfl, rfl⟩
  | ok r => exact ⟨fun _ => ⟨print r.1, rfl⟩, fun c hc => by cases hc⟩

end Conversions

theorem appendPointer_call (buffEnd : ℕ) (leftJustified : Bool) (ptr : BitVec 32) (w : Writer Char) :
    ((unsignedCall (ptr.setWidth 64) true 12).Roomy →
        ∃ q, appendPointer buffEnd (ptr.setWidth 64) leftJustified w = .ok q) ∧
      (¬(unsignedCall (ptr.setWidth 64) true 12).Roomy →
        appendPointer buffEnd (ptr.setWidth 64) leftJustified w = .error .numBufferOverrun) := by
  have hroomy : (unsignedCall (ptr.setWidth 64) true 12).Roomy :=
    Or.inl (by decide : (12 : BitVec 8).toNat ≤ 30)
  exact ⟨fun _ => ⟨_, appendPointer_eq _ _ _⟩, fun hover => absurd hroomy hover⟩

/-- What is printed does not matter for the calls. -/
theorem convert_agrees (buffEnd : ℕ) (d : Directive) (letter : Char) (args : List Arg) (p : Printed) :
    Agrees (numberCall d letter args) (convert buffEnd d letter args p) := by
  unfold convert
  split
  · exact @agrees_number _ _ (vaSigned_needs d args) (fun a => signedCall a (d.width.setWidth 8))
      (fun a => appendSignedDecimal buffEnd a (d.width.setWidth 8) d.padWithZero d.leftJustified)
      (fun a w => (signedCall a (d.width.setWidth 8)).appendNumber_call buffEnd _ _ _ w) p
  · exact @agrees_number _ _ (vaUnsigned_needs d args)
      (fun a => unsignedCall a false (d.width.setWidth 8))
      (fun a => appendUnsigned buffEnd a 10 (d.width.setWidth 8) d.padWithZero false d.leftJustified)
      (fun a w => (unsignedCall a false (d.width.setWidth 8)).appendNumber_call buffEnd _ _ _ w) p
  · exact @agrees_number _ _ (vaUnsigned_needs d args)
      (fun a => unsignedCall a true (d.width.setWidth 8))
      (fun a => appendUnsigned buffEnd a 16 (d.width.setWidth 8) d.padWithZero false d.leftJustified)
      (fun a w => (unsignedCall a true (d.width.setWidth 8)).appendNumber_call buffEnd _ _ _ w) p
  · exact @agrees_number _ _ (vaUnsigned_needs d args)
      (fun a => unsignedCall a true (d.width.setWidth 8))
      (fun a => appendUnsigned buffEnd a 16 (d.width.setWidth 8) d.padWithZero true d.leftJustified)
      (fun a w => (unsignedCall a true (d.width.setWidth 8)).appendNumber_call buffEnd _ _ _ w) p
  · exact @agrees_number _ _ (vaLong_needs args) (fun a => unsignedCall (a.setWidth 64) true 12)
      (fun a => appendPointer buffEnd (a.setWidth 64) d.leftJustified)
      (appendPointer_call buffEnd d.leftJustified) p
  · exact agrees_other (vaPointer_needs args) fun s => count (appendString buffEnd
      (if d.leftJustified then -d.width else d.width) d.precision s d.leftJustified) p
  · exact agrees_other (vaInt_needs args) fun c =>
      count (appendChar buffEnd (Char.ofNat (c.setWidth 8).toNat)) p
  · exact ⟨fun _ => ⟨_, rfl⟩, fun c hc => by cases hc⟩
  · -- a letter that is no conversion takes no argument
    next hd hu hx hX hp hs hc _ =>
    have hnone : numberCall d letter args = .ok (none, args) := by
      unfold numberCall
      split
      case h_8 => rfl
      all_goals contradiction
    rw [hnone]
    exact ⟨fun _ => ⟨_, rfl⟩, fun c hc => by cases hc⟩

/-! ## The run -/

section Run

variable {buffEnd : ℕ} {call : NumberCall} {text : List Char} {args : List Arg}

theorem scan_of_calls (h : Calls call text args) (hover : ¬call.Roomy) {fuel : ℕ}
    (hfuel : text.length < fuel) (p : Printed) :
    scan buffEnd fuel text args p = .error .numBufferOverrun := by
  induction h generalizing fuel p with
  | @literal c cur args hc _ ih =>
    cases fuel with
    | zero => cases hfuel
    | succ fuel =>
      rw [scan, if_pos hc]
      exact ih (Nat.lt_of_succ_lt_succ hfuel) _
  | @here text cur args more rest d hread hcall =>
    cases fuel with
    | zero => cases hfuel
    | succ fuel =>
      have hagrees := convert_agrees buffEnd d (peek cur 0) more p
      rw [hcall] at hagrees
      rw [scan_directive hread, hagrees.2 call rfl hover]
      rfl
  | @later text cur letter args more rest d passed hread hcall _ ih =>
    cases fuel with
    | zero => cases hfuel
    | succ fuel =>
      have hagrees := convert_agrees buffEnd d letter more p
      rw [hcall] at hagrees
      have hshort : cur.length < fuel := by
        obtain ⟨flags, tail, rfl, hstop⟩ := exists_flags text
        obtain ⟨rfl, -⟩ := readDirective_ok hstop hread
        simp only [List.length_cons, List.length_append] at hfuel
        omega
      have hpeek : peek (letter :: cur) 0 = letter := rfl
      rw [scan_directive hread, hpeek]
      by_cases hroomy : ∀ c ∈ passed, c.Roomy
      · obtain ⟨q, hq⟩ := hagrees.1 hroomy
        rw [hq]
        exact ih hshort q
      · -- the call before leaves the buffer as well, and the scan ends there
        obtain ⟨c, hc, hcover⟩ : ∃ c ∈ passed, ¬c.Roomy := by
          simpa only [not_forall, exists_prop] using hroomy
        rw [hagrees.2 c hc hcover]
        rfl

theorem calls_of_scan {fuel : ℕ} {p : Printed}
    (h : scan buffEnd fuel text args p = .error .numBufferOverrun) :
    ∃ call, Calls call text args ∧ ¬call.Roomy := by
  induction fuel generalizing text args p with
  | zero => cases h
  | succ fuel ih =>
    cases text with
    | nil => cases h
    | cons c text =>
      by_cases hc : c = '%'
      · subst hc
        cases hread : readDirective text args with
        | error e =>
          -- a missing argument ends the scan before any call
          rw [scan_directive_error hread] at h
          obtain rfl : e = .numBufferOverrun := Except.error.inj h
          cases readDirective_needs args text _ hread
        | ok r =>
          obtain ⟨d, cur, more⟩ := r
          rw [scan_directive hread] at h
          have hagrees := convert_agrees buffEnd d (peek cur 0) more p
          cases hcall : numberCall d (peek cur 0) more with
          | error e =>
            rw [hcall] at hagrees
            obtain ⟨rfl, hconvert⟩ := hagrees
            rw [hconvert] at h
            cases h
          | ok r =>
            rw [hcall] at hagrees
            by_cases hroomy : ∀ c ∈ r.1, c.Roomy
            · -- this call returns, so that the overrun is behind it
              obtain ⟨q, hq⟩ := hagrees.1 hroomy
              rw [hq] at h
              cases cur with
              | nil => cases h
              | cons letter cur =>
                obtain ⟨call, hcalls, hover⟩ := ih h
                exact ⟨call, .later hread hcall hcalls, hover⟩
            · obtain ⟨c, hc, hover⟩ : ∃ c ∈ r.1, ¬c.Roomy := by
                simpa only [not_forall, exists_prop] using hroomy
              have hsome : r = (some c, r.2) := Prod.ext hc rfl
              exact ⟨c, .here hread (hcall.trans (congrArg Except.ok hsome)), hover⟩
      · rw [scan, if_pos hc] at h
        obtain ⟨call, hcalls, hover⟩ := ih h
        exact ⟨call, .literal hc hcalls, hover⟩

theorem numberCall_width {d : Directive} {letter : Char} {rest : List Arg}
    (h : numberCall d letter args = .ok (some call, rest)) :
    call.minimalNumLength = d.width.setWidth 8 ∨ call.minimalNumLength = 12 := by
  have hcall : ∀ {α : Type} {x : Except Fault α} {f : α → Option NumberCall × List Arg},
      f <$> x = .ok (some call, rest) → ∃ a, (f a).1 = some call := by
    intro α x f hmap
    cases x with
    | error e => cases hmap
    | ok a => exact ⟨a, congrArg Prod.fst (Except.ok.inj hmap)⟩
  unfold numberCall at h
  split at h
  case h_5 =>
    obtain ⟨r, hr⟩ := hcall h
    obtain rfl := Option.some.inj hr
    exact .inr rfl
  case h_6 | h_7 =>
    obtain ⟨r, hr⟩ := hcall h
    cases hr
  case h_8 => cases h
  all_goals
    obtain ⟨r, hr⟩ := hcall h
    obtain rfl := Option.some.inj hr
    exact .inl rfl

/-- The width of a call is the decimal number in the format, modulo 256, or that of a pointer. -/
theorem Calls.width (h : Calls call text args) :
    call.minimalNumLength = 12 ∨ ∃ (before : List Char) (flags : Flags) (rest : List Char),
      text = before ++ '%' :: (flags.spell ++ rest) ∧ flags.StopsAt rest ∧
        call.minimalNumLength.toNat = flags.width % 256 := by
  induction h with
  | @literal c cur args _ _ ih =>
    rcases ih with h12 | ⟨before, flags, rest, rfl, hstop, hwidth⟩
    · exact .inl h12
    · exact .inr ⟨c :: before, flags, rest, rfl, hstop, hwidth⟩
  | @here text cur args more rest d hread hcall =>
    obtain ⟨flags, tail, rfl, hstop⟩ := exists_flags text
    obtain ⟨-, hd⟩ := readDirective_ok hstop hread
    rcases numberCall_width hcall with hwidth | h12
    · refine .inr ⟨[], flags, tail, rfl, hstop, ?_⟩
      rw [hwidth, hd, BitVec.toNat_setWidth, BitVec.toNat_ofNat]
      omega
    · exact .inl h12
  | @later text cur letter args more rest d passed hread _ _ ih =>
    obtain ⟨outer, tail, rfl, houter⟩ := exists_flags text
    obtain ⟨rfl, -⟩ := readDirective_ok houter hread
    rcases ih with h12 | ⟨before, flags, rest, rfl, hstop, hwidth⟩
    · exact .inl h12
    · refine .inr ⟨'%' :: (outer.spell ++ letter :: before), flags, rest, ?_, hstop, hwidth⟩
      simp only [List.cons_append, List.append_assoc]

end Run

/-- `vsnPrintf` reports an overrun exactly if a call leaves the buffer. -/
theorem vsnPrintf_overrun_iff (buff : ℕ → Char) (buffLength : ℕ) (format : CString) (args : List Arg) :
    vsnPrintf buff buffLength format args = .error .numBufferOverrun ↔
      ∃ call, Calls call format.chars args ∧ ¬call.Roomy := by
  have hrun : vsnPrintf buff buffLength format args = .error .numBufferOverrun ↔
      scan (buffLength - 1) (format.chars.length + 1) format.chars args (⟨buff, 0⟩, 0) =
        .error .numBufferOverrun := by
    rw [vsnPrintf]
    cases hscan : scan (buffLength - 1) (format.chars.length + 1) format.chars args (⟨buff, 0⟩, 0) with
    | error e =>
      exact ⟨fun h => congrArg Except.error (Except.error.inj h),
        fun h => congrArg Except.error (Except.error.inj h)⟩
    | ok q =>
      constructor
      · intro h
        cases h
      · intro h
        cases h
  rw [hrun]
  constructor
  · exact calls_of_scan
  · rintro ⟨call, hcalls, hover⟩
    exact scan_of_calls hcalls hover (Nat.lt_succ_self _) _

/-- Every access of every call in the run of a format is within `num_buffer`. -/
def NumBufferSafe (format : CString) (args : List Arg) : Prop :=
  ∀ call, Calls call format.chars args → ∀ stale, ∀ a ∈ call.accesses stale, a.index < kMaxLen

/-- The buffer is overrun if and only if a width that has no room comes to `AppendNumber`. -/
theorem numBufferSafe_iff (format : CString) (args : List Arg) :
    NumBufferSafe format args ↔ ∀ call, Calls call format.chars args → call.Roomy := by
  constructor
  · intro h call hcalls
    exact (call.accesses_lt_iff fun _ => 0).mp (h call hcalls fun _ => 0)
  · intro h call hcalls stale
    exact (call.accesses_lt_iff stale).mpr (h call hcalls)

/-- `%31d` with 0: the range that is cleared ends one cell behind the array. -/
theorem not_numBufferSafe_thirtyOne :
    ¬NumBufferSafe ⟨['%', '3', '1', 'd'], by decide⟩ [.int 0] := by
  intro h
  have hcalls : Calls (signedCall 0 31) ['%', '3', '1', 'd'] [.int 0] := .here rfl rfl
  have hroomy := ((signedCall 0 31).accesses_lt_iff fun _ => 0).mp (h _ hcalls fun _ => 0)
  revert hroomy
  simp [NumberCall.Roomy, signedCall]

end Cpu0Toolchain.Printf
