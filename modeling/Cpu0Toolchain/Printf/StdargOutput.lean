import Cpu0Toolchain.Printf.StdargText

/-!
# The two outputs of the small printf

`printf` and `sprintf` run the same `print`: whatever the format and the arguments are, the string
gets the characters that go to the device. Where the printf of the runtime is documented too, it
leaves the same string.

## Main results

- `sprintf_eq_printf`: the two outputs get one text, or the two runs end with one fault.
- `sprintf_items`: what the string holds for a format made of items.
- `sprintf_eq_vsnPrintf`: the agreement with `VSNPrintf`.
-/

namespace Cpu0Toolchain.Printf.Stdarg

/-- A memory with a text from the cursor on. -/
def store (text : List Char) (mem : ℕ → Char) (cursor : ℕ) : ℕ → Char :=
  fun i => if i < cursor then mem i else text.getD (i - cursor) (mem i)

theorem put_device (text printed : List Char) (pc : ℕ) :
    put text (.device printed, pc) = (.device (printed ++ text), pc + text.length) := by
  induction text generalizing printed pc with
  | nil => rw [List.append_nil]; rfl
  | cons c text ih =>
    rw [← List.singleton_append, ← put_put]
    exact (ih (printed ++ [c]) (pc + 1)).trans (by simp [Nat.add_assoc, Nat.add_comm 1])

theorem put_string (text : List Char) (mem : ℕ → Char) (cursor pc : ℕ) :
    put text (.string mem cursor, pc) =
      (.string (store text mem cursor) (cursor + text.length), pc + text.length) := by
  induction text generalizing mem cursor pc with
  | nil =>
    have hstore : store [] mem cursor = mem := by
      funext i
      simp [store]
    rw [hstore]
    rfl
  | cons c text ih =>
    have hstore : store text (Function.update mem cursor c) (cursor + 1) =
        store (c :: text) mem cursor := by
      funext i
      rcases Nat.lt_trichotomy i cursor with hlt | rfl | hgt
      · simp [store, hlt, hlt.ne, Nat.lt_succ_of_lt hlt]
      · simp [store]
      · obtain ⟨k, rfl⟩ := Nat.exists_eq_add_of_lt hgt
        have hk : cursor + k + 1 - (cursor + 1) = k := by omega
        have hk' : cursor + k + 1 - cursor = k + 1 := by omega
        simp [store, hk, hk', show ¬cursor + k + 1 < cursor by omega,
          show ¬cursor + k + 1 < cursor + 1 by omega, show cursor + k + 1 ≠ cursor by omega]
    rw [← List.singleton_append, ← put_put]
    refine (ih (Function.update mem cursor c) (cursor + 1) (pc + 1)).trans ?_
    rw [hstore, List.singleton_append, List.length_cons]
    simp only [Nat.add_assoc, Nat.add_comm 1]

/-! ## One text for both outputs -/

theorem printi_text (i : BitVec 32) (b : ℕ) (sg : Bool) (width : ℕ) (pad : Pad) (letbase : Char) :
    ∃ r : Except Fault (List Char), ∀ out,
      printi out i b sg width pad letbase = (fun text => put text (out, 0)) <$> r := by
  by_cases hi : i = 0#32
  · refine ⟨.ok (field ['0'] width pad), fun out => ?_⟩
    rw [printi, if_pos hi, prints_eq]
    rfl
  simp only [printi, if_neg hi]
  generalize (sg && decide (b = 10) && i.slt 0#32) = neg
  cases digitLoop b letbase (printBufLen - 1) (if neg then -i else i).toNat [] with
  | error e => exact ⟨.error e, fun out => rfl⟩
  | ok left =>
    obtain ⟨room, s⟩ := left
    simp only [bind, Except.bind, pure, Except.pure, prints_eq]
    cases neg with
    | false => exact ⟨.ok (field s width pad), fun out => rfl⟩
    | true =>
      simp only [if_true]
      by_cases hzero : (decide (width ≠ 0) && pad.zero) = true
      · refine ⟨.ok ('-' :: field s (width - 1) pad), fun out => ?_⟩
        rw [if_pos hzero]
        exact congrArg Except.ok ((add_put _ (one '-' (out, 0))).trans (put_put ['-'] _ _))
      simp only [if_neg hzero]
      by_cases hroom : room = 0
      · exact ⟨.error .printBufOverrun, fun out => if_pos hroom⟩
      · exact ⟨.ok (field ('-' :: s) width pad), fun out => if_neg hroom⟩

/-- A conversion prints a text that does not depend on the output, or ends with a fault that does
not. -/
theorem convert_text (letter : Char) (width : ℕ) (pad : Pad) (args : List Arg) :
    ∃ r : Except Fault (List Char × List Arg), ∀ p,
      convert letter width pad args p = (fun t => (put t.1 p, t.2)) <$> r := by
  have hnumber : ∀ (b : ℕ) (sg : Bool) (letbase : Char),
      ∃ r : Except Fault (List Char × List Arg), ∀ p : Output,
        (vaInt args >>= fun taken => printi p.1 taken.1 b sg width pad letbase >>=
          fun r => .ok (add p.2 r, taken.2)) = (fun t => (put t.1 p, t.2)) <$> r := by
    intro b sg letbase
    cases vaInt args with
    | error e => exact ⟨.error e, fun p => rfl⟩
    | ok taken =>
      obtain ⟨r, hr⟩ := printi_text taken.1 b sg width pad letbase
      simp only [bind, Except.bind, hr]
      cases r with
      | error e => exact ⟨.error e, fun p => rfl⟩
      | ok text =>
        refine ⟨.ok (text, taken.2), fun p => ?_⟩
        exact congrArg (fun q => Except.ok (q, taken.2)) (add_put text p)
  have hstring : ∀ (s : List Char) (more : List Arg),
      ∃ r : Except Fault (List Char × List Arg), ∀ p : Output,
        Except.ok (add p.2 (prints p.1 s width pad), more) = (fun t => (put t.1 p, t.2)) <$> r := by
    intro s more
    refine ⟨.ok (field s width pad, more), fun p => ?_⟩
    rw [prints_eq, add_put]
    rfl
  unfold convert
  split
  case h_1 =>
    cases vaPointer args with
    | error e => exact ⟨.error e, fun p => rfl⟩
    | ok taken => exact hstring (stringChars taken.1) taken.2
  case h_6 =>
    cases vaInt args with
    | error e => exact ⟨.error e, fun p => rfl⟩
    | ok taken => exact hstring (charString taken.1) taken.2
  case h_7 => exact ⟨.ok ([], args), fun p => rfl⟩
  all_goals exact hnumber _ _ _

theorem scan_text (fuel : ℕ) (format : List Char) (args : List Arg) :
    ∃ r : Except Fault (List Char), ∀ p, scan fuel format args p = (put · p) <$> r := by
  induction fuel generalizing format args with
  | zero => exact ⟨.error .outOfFuel, fun p => rfl⟩
  | succ fuel ih =>
    -- a text in front of what the rest of the scan prints
    have hfront : ∀ (front format : List Char) (args : List Arg),
        ∃ r : Except Fault (List Char), ∀ p,
          scan fuel format args (put front p) = (put · p) <$> r := by
      intro front format args
      obtain ⟨r, hr⟩ := ih format args
      cases r with
      | error e => exact ⟨.error e, fun p => (hr (put front p)).trans rfl⟩
      | ok text =>
        refine ⟨.ok (front ++ text), fun p => (hr (put front p)).trans ?_⟩
        exact congrArg Except.ok (put_put front text p)
    cases format with
    | nil => exact ⟨.ok [], fun p => rfl⟩
    | cons c format =>
      simp only [scan]
      by_cases hc : c ≠ '%'
      · simp only [if_pos hc]
        exact hfront [c] format args
      simp only [if_neg hc]
      by_cases hend : format = []
      · simp only [if_pos hend]
        exact ⟨.ok [], fun p => rfl⟩
      simp only [if_neg hend]
      by_cases hpercent : peek format 0 = '%'
      · simp only [if_pos hpercent]
        exact hfront ['%'] (format.drop 1) args
      simp only [if_neg hpercent]
      obtain ⟨zero, widthText⟩ :=
        readZeros (if peek format 0 = '-' then format.drop 1 else format) false
      cases readWidth widthText 0 with
      | error e => exact ⟨.error e, fun p => rfl⟩
      | ok read =>
        obtain ⟨width, body⟩ := read
        obtain ⟨r, hr⟩ := convert_text (peek body 0) width ⟨decide (peek format 0 = '-'), zero⟩ args
        simp only [bind, Except.bind, hr]
        cases r with
        | error e => exact ⟨.error e, fun p => rfl⟩
        | ok converted =>
          obtain ⟨text, more⟩ := converted
          cases body with
          | nil => exact ⟨.error .formatOverrun, fun p => rfl⟩
          | cons letter rest => exact hfront text rest more

theorem print_text (format : CString) (args : List Arg) :
    ∃ r : Except Fault (List Char), ∀ out,
      print out format args =
        (fun text => (terminate (put text (out, 0)).1, text.length)) <$> r := by
  obtain ⟨r, hr⟩ := scan_text (format.chars.length + 1) format.chars args
  refine ⟨r, fun out => ?_⟩
  simp only [print, hr, bind, Except.bind]
  cases r with
  | error e => rfl
  | ok text => exact congrArg (fun n => Except.ok (_, n)) (Nat.zero_add _)

/-! ## The string -/

/-- A string in a memory that is otherwise as before. -/
def stringAt (text : List Char) (out : ℕ → Char) : ℕ → Char :=
  fun i => (text ++ ['\x00']).getD i (out i)

theorem terminate_string (text : List Char) (out : ℕ → Char) :
    terminate (put text (.string out 0, 0)).1 = .string (stringAt text out) text.length := by
  rw [put_string, terminate, Nat.zero_add]
  congr 1
  funext i
  rcases Nat.lt_trichotomy i text.length with hlt | rfl | hgt
  · simp [stringAt, store, hlt, hlt.ne, Nat.lt_succ_of_lt hlt]
  · simp [stringAt]
  · have hend : (text ++ ['\x00']).length ≤ i := by
      rw [List.length_append]
      exact hgt
    simp [stringAt, store, hgt.ne', List.getElem?_eq_none hgt.le, List.getElem?_eq_none hend]

/-- The string gets what goes to the device, for any format and arguments. -/
theorem sprintf_eq_printf (out : ℕ → Char) (format : CString) (args : List Arg) :
    ∃ r : Except Fault (List Char),
      printf format args = (fun text => (.device text, text.length)) <$> r ∧
      sprintf out format args =
        (fun text => (.string (stringAt text out) text.length, text.length)) <$> r := by
  obtain ⟨r, hr⟩ := print_text format args
  refine ⟨r, ?_, ?_⟩
  · rw [printf, hr]
    congr 1
    funext text
    rw [put_device]
    rfl
  · rw [sprintf, hr]
    congr 1
    funext text
    rw [terminate_string]

theorem stringAt_text (text : List Char) (out : ℕ → Char) :
    (∀ i, i < text.length → text[i]? = some (stringAt text out i)) ∧
      stringAt text out text.length = '\x00' ∧
        ∀ i, text.length < i → stringAt text out i = out i := by
  refine ⟨fun i hi => ?_, by simp [stringAt], fun i hi => ?_⟩
  · simp [stringAt, hi, List.getElem?_append_left hi]
  · have hend : (text ++ ['\x00']).length ≤ i := by
      rw [List.length_append]
      exact hi
    simp [stringAt, List.getElem?_eq_none hend]

/-- The string holds the texts of the items and a NUL, and nothing else changes. A `%` at the end
of the format prints nothing. -/
theorem sprintf_items {format : CString} {items : List Item} {ending : List Char}
    (hformat : format.chars = items.flatMap Item.spell ++ ending)
    (hending : ending = [] ∨ ending = ['%'])
    (h : ∀ conv, .conversion conv ∈ items → Supported conv) (out : ℕ → Char) :
    sprintf out format (items.flatMap Item.args) =
      .ok (.string (stringAt (items.flatMap itemText) out) (items.flatMap itemText).length,
        (items.flatMap itemText).length) := by
  rw [sprintf, print_items hformat hending h, terminate_string]

/-! ## The printf of the runtime -/

/-- The conversions that both document, with one text. -/
structure Shared (conv : Conversion) : Prop where
  documented : conv.Documented
  modifier : conv.operand.modifier = []
  -- a string that is null, or padded with zeros, is where the two differ
  string : ∀ v, conv.operand = .s v → v ≠ none ∧ conv.zeroFlag = false
  char : ∀ v, conv.operand = .c v → v.setWidth 8 ≠ 0#8

theorem Shared.supported {conv : Conversion} (h : Shared conv) : Supported conv := by
  obtain ⟨⟨hleft, hprecision, hoperand⟩, hmodifier, -, -⟩ := h
  obtain ⟨left, digits, precision, operand⟩ := conv
  refine ⟨hprecision, ?_, ?_⟩
  · rcases operand with v | v | v | v | v | v | v | -
    case d | u | x | X => exact hoperand.trans_lt (by decide)
    case p => exact hoperand.elim
    case s => exact hoperand
    case c | percent =>
      have hdigits : digits = [] := hoperand
      rw [hdigits]
      exact Nat.two_pow_pos 31
  · rcases operand with v | v | v | v | v | v | v | -
    case d | u | x | X =>
      cases v with
      | int v => exact .inl (by constructor)
      | z v | ll v => cases hmodifier
    case p => exact hoperand.elim
    case s => exact .inl (.s v)
    case c => exact .inl (.c v)
    case percent => exact .inr ⟨rfl, hleft, hoperand⟩

theorem numberText_eq_render (uppercase zero : Bool) (b width : ℕ) (value : ℤ) :
    numberText uppercase b width value ⟨false, zero⟩ =
      renderNumber uppercase zero b width value := by
  unfold numberText renderNumber field
  by_cases hneg : value < 0
  · cases zero with
    | false => simp [hneg, Nat.add_comm 1]
    | true =>
      by_cases hwidth : width = 0
      · simp [hneg, hwidth]
      · simp [hneg, hwidth, Nat.sub_sub]
  · cases zero <;> simp [hneg]

theorem Shared.text_eq_render {conv : Conversion} (h : Shared conv) :
    itemText (.conversion conv) = conv.render := by
  obtain ⟨⟨hleft, -, hoperand⟩, hmodifier, hstring, hchar⟩ := h
  unfold Conversion.render
  rw [itemText.eq_2, hleft]
  cases hop : conv.operand with
  | d v => exact numberText_eq_render false conv.zeroFlag 10 conv.width v.toInt
  | u v => exact numberText_eq_render false conv.zeroFlag 10 conv.width v.toNat
  | x v => exact numberText_eq_render false conv.zeroFlag 16 conv.width v.toNat
  | X v => exact numberText_eq_render true conv.zeroFlag 16 conv.width v.toNat
  | p v =>
    rw [hop] at hoperand
    exact hoperand.elim
  | s v =>
    obtain ⟨hv, hzero⟩ := hstring v hop
    cases v with
    | none => exact absurd rfl hv
    | some s =>
      rw [hzero]
      rfl
  | c v =>
    rw [hop] at hoperand
    have hdigits : conv.digits = [] := hoperand
    have hwidth : conv.width = 0 := by
      rw [Conversion.width, hdigits]
      rfl
    rw [hwidth]
    simp [conversionText, charString, hchar v hop, field, BitVec.toNat_setWidth]
  | percent => rfl

theorem items_eq_render {items : List Item} (h : ∀ conv, .conversion conv ∈ items → Shared conv) :
    items.flatMap itemText = items.flatMap Item.render := by
  apply List.flatMap_congr
  intro item hitem
  cases item with
  | literal c hc => rfl
  | conversion conv => exact (h conv hitem).text_eq_render

/-- Where both printfs document the conversions, both leave the same string and count the same. -/
theorem sprintf_eq_vsnPrintf {format : CString} {items : List Item}
    (hformat : format.chars = items.flatMap Item.spell)
    (h : ∀ conv, .conversion conv ∈ items → Shared conv) (out buff : ℕ → Char) :
    ∃ n mem, sprintf out format (items.flatMap Item.args) = .ok (.string mem n, n) ∧
      ∀ buffLength, n + 1 ≤ buffLength →
        ∃ mem', vsnPrintf buff buffLength format (items.flatMap Item.args) = .ok (mem', n) ∧
          ∀ i, i ≤ n → mem' i = mem i := by
  have hdocumented : ∀ conv, .conversion conv ∈ items → conv.Documented :=
    fun conv hconv => (h conv hconv).documented
  have hwidth : ∀ conv, .conversion conv ∈ items → conv.operand.isNumber →
      conv.width ≤ kMaxLen := by
    intro conv hconv hnumber
    have hoperand := (hdocumented conv hconv).2.2
    cases hop : conv.operand <;> rw [hop] at hoperand hnumber
    case d | u | x | X => exact hoperand.trans (by decide)
    all_goals cases hnumber
  have hrun := sprintf_items (hformat.trans (List.append_nil _).symm) (.inl rfl)
    (fun conv hconv => (h conv hconv).supported) out
  rw [items_eq_render h] at hrun
  obtain ⟨hcells, hnul, -⟩ := stringAt_text (items.flatMap Item.render) out
  refine ⟨_, _, hrun, fun buffLength hlength => ?_⟩
  obtain ⟨mem', hrun', hcells', hnul', -⟩ :=
    vsnPrintf_items hformat hwidth buff (show 1 ≤ buffLength by omega)
  rw [output_eq_render hdocumented] at hrun' hcells' hnul'
  rw [min_eq_left (by omega)] at hcells' hnul'
  refine ⟨mem', hrun', fun i hi => ?_⟩
  rcases Nat.lt_or_eq_of_le hi with hlt | rfl
  · exact Option.some.inj ((hcells' i hlt).symm.trans (hcells i hlt))
  · exact hnul'.trans hnul.symm

/-- The format `:%04d`. -/
def paddedNumber : List Item := [
  .literal ':' (by decide),
  .conversion ⟨false, [digit 0, digit 4], none, .d (.int (-3))⟩]

theorem sprintf_eq_vsnPrintf_paddedNumber :
    ∃ n mem, sprintf (fun _ => '#') ⟨[':', '%', '0', '4', 'd'], by decide⟩ [.int (-3)] =
        .ok (.string mem n, n) ∧
      ∀ buffLength, n + 1 ≤ buffLength →
        ∃ mem', vsnPrintf (fun _ => '?') buffLength ⟨[':', '%', '0', '4', 'd'], by decide⟩
            [.int (-3)] = .ok (mem', n) ∧ ∀ i, i ≤ n → mem' i = mem i := by
  have hformat : (⟨[':', '%', '0', '4', 'd'], by decide⟩ : CString).chars =
      paddedNumber.flatMap Item.spell := rfl
  refine sprintf_eq_vsnPrintf hformat ?_ (fun _ => '#') fun _ => '?'
  intro conv hconv
  simp only [paddedNumber, List.mem_cons, reduceCtorEq, false_or, List.not_mem_nil, or_false,
    Item.conversion.injEq] at hconv
  rw [hconv]
  refine ⟨⟨rfl, rfl, by decide⟩, rfl, ?_, ?_⟩
  · intro v hv
    cases hv
  · intro v hv
    cases hv

end Cpu0Toolchain.Printf.Stdarg
