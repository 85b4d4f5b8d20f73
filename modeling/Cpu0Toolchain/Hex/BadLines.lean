import Cpu0Toolchain.Hex.Coverage

/-!
# Bad lines in the input of dishex

`checkInput` and `disassemble` give back `false` for a line that is no instruction, and
`HexToAsm::run` has a branch for each that goes on with the next line. `reportError` ends the
program before either of them returns.

## Main results

- `exists_input`: every stream is a list of such lines with an ending.
- `run_until_bad`: the run ends with the first bad line.
- `tolerates_iff`: when bad lines are skipped.
- `disassembles_iff`: when the other lines have been disassembled all the same.
-/

namespace Cpu0Toolchain.Hex
open TextStream HexLine

namespace HexToAsm

variable {decoder : Decoder}

/-- A character is wrong, or the number of digits, or the decoder rejects the word. -/
def Rejected (decoder : Decoder) (line : Text) : Prop :=
  line ≠ "quit".toList ∧ line.head? ≠ some '#' ∧
    ((∃ c ∈ digits line, ¬∃ v, IsDigit v c) ∨ (digits line).length ≠ 8 ∨
      ∃ word, word.length = 4 ∧ Spells line word ∧ decoder word = none)

/-- A line that a newline ends, and that is not `quit`. -/
inductive Line (decoder : Decoder)
  | good (item : Item decoder)
  | bad (line : Text) (whole : '\n' ∉ line) (rejected : Rejected decoder line)

/-- What stands behind them. -/
inductive Tail (decoder : Decoder)
  | good (ending : Ending decoder)
  | bad (line : Text) (nonempty : line ≠ []) (whole : '\n' ∉ line)
      (rejected : Rejected decoder line)

def Line.text : Line decoder → Text
  | .good item => item.line
  | .bad line _ _ => line

def Line.isBad : Line decoder → Bool
  | .good _ => false
  | .bad _ _ _ => true

/-- The line, unless it is bad. -/
def Line.item : Line decoder → List (Item decoder)
  | .good item => [item]
  | .bad _ _ _ => []

def Tail.text : Tail decoder → Text
  | .good ending => ending.text
  | .bad line _ _ _ => line

def Tail.isBad : Tail decoder → Bool
  | .good _ => false
  | .bad _ _ _ _ => true

/-- The ending without the bad line. -/
def Tail.ending : Tail decoder → Ending decoder
  | .good ending => ending
  | .bad _ _ _ _ => .eof

/-- The text of a stream with bad lines in it. -/
def badInput (lines : List (Line decoder)) (tail : Tail decoder) : Text :=
  unlines (lines.map Line.text) ++ tail.text

/-- How many lines before `quit` are bad. -/
def badLines (lines : List (Line decoder)) (tail : Tail decoder) : ℕ :=
  lines.countP Line.isBad + if tail.isBad then 1 else 0

/-- The decoder knows the word. -/
def decodes (decoder : Decoder) (word : List UInt8) : Bool := (decoder word).isSome

/-- The run goes on to the end and reports each bad line. The other lines are disassembled as in
the stream without the bad ones, and shown as there. -/
def Tolerates (lines : List (Line decoder)) (tail : Tail decoder) (p : Session) : Prop :=
  ∃ q q', run decoder (ofText (badInput lines tail)) p = .ok q ∧
    run decoder (ofText (input (lines.flatMap Line.item) tail.ending)) p = .ok q' ∧
    q.errs.length = q'.errs.length + badLines lines tail ∧
    q.decoded.filter (decodes decoder) = q'.decoded.filter (decodes decoder) ∧
    q'.outs.Sublist q.outs

/-! ## All streams -/

theorem rejected_or_item (line : Text) (hwhole : '\n' ∉ line) (hquit : line ≠ "quit".toList) :
    Rejected decoder line ∨ ∃ item : Item decoder, item.line = line := by
  by_cases hhash : line.head? = some '#'
  · exact .inr ⟨.comment line hwhole hhash, rfl⟩
  by_cases hdigits : ∀ c ∈ digits line, ∃ v, IsDigit v c
  · by_cases hlength : (digits line).length = 8
    · obtain ⟨word, hfour, hspells⟩ := exists_bytes (n := 4) hlength hdigits
      cases hword : decoder word with
      | none => exact .inl ⟨hquit, hhash, .inr (.inr ⟨word, hfour, hspells, hword⟩)⟩
      | some asm => exact .inr ⟨.instruction line word asm hfour hspells hword, rfl⟩
    · exact .inl ⟨hquit, hhash, .inr (.inl hlength)⟩
  · simp only [not_forall, exists_prop] at hdigits
    exact .inl ⟨hquit, hhash, .inl hdigits⟩

/-- Every text is a stream of this kind. -/
theorem exists_input (decoder : Decoder) (text : Text) :
    ∃ (lines : List (Line decoder)) (tail : Tail decoder), text = badInput lines tail := by
  by_cases hnewline : '\n' ∈ text
  · obtain ⟨line, rest, rfl, hwhole⟩ := List.eq_append_cons_of_mem hnewline
    by_cases hquit : line = "quit".toList
    · subst hquit
      exact ⟨[], .good (.quit (some rest)), rfl⟩
    · obtain ⟨lines, tail, hrest⟩ := exists_input decoder rest
      have hcons : ∀ l : Line decoder, l.text = line →
          line ++ '\n' :: rest = badInput (l :: lines) tail := by
        rintro l rfl
        rw [badInput, List.map_cons, unlines, List.flatMap_cons, List.append_assoc,
          List.append_assoc, hrest]
        rfl
      rcases rejected_or_item line hwhole hquit with hbad | ⟨item, hitem⟩
      · exact ⟨.bad line hwhole hbad :: lines, tail, hcons _ rfl⟩
      · exact ⟨.good item :: lines, tail, hcons _ hitem⟩
  · by_cases hempty : text = []
    · exact ⟨[], .good .eof, hempty⟩
    · by_cases hquit : text = "quit".toList
      · exact ⟨[], .good (.quit none), hquit⟩
      · rcases @rejected_or_item decoder text hnewline hquit with hbad | ⟨item, hitem⟩
        · exact ⟨[], .bad text hempty hnewline hbad, rfl⟩
        · exact ⟨[], .good (.unterminated item), hitem.symm⟩
termination_by text.length
decreasing_by
  subst_vars
  rw [List.length_append, List.length_cons]
  omega

/-! ## The first bad line -/

/-- A bad line is reported, and the program is left. -/
theorem processLine_rejected {line : Text} (h : Rejected decoder line) (p : Session) :
    ∃ q, processLine decoder line [] p = .error q ∧ q.outs = p.outs ∧
      q.errs.length = p.errs.length + 1 ∧
      ∃ words, q.decoded = p.decoded ++ words ∧ ∀ word ∈ words, decodes decoder word = false := by
  obtain ⟨-, hhash, hbad⟩ := h
  have hcomment : line.getD 0 '\x00' ≠ '#' := by
    cases line with
    | nil => decide
    | cons c rest => exact fun hc => hhash (congrArg some hc)
  rw [processLine, if_neg hcomment]
  rcases checkInput_cases line p with ⟨word, hfour, hspells, hcheck⟩ | ⟨-, message, hcheck⟩
  · -- the digits are those of a word, which the decoder rejects
    have hword : decoder word = none := by
      rcases hbad with ⟨c, hc, hnot⟩ | hlength | ⟨word', -, hspells', hword'⟩
      · exact absurd (exists_isDigit_of_spells hspells c hc) hnot
      · exact absurd (by rw [length_of_spells hspells, hfour]) hlength
      · rwa [hspells.unique hspells']
    have hdis : disassemble decoder line [] p = .error ⟨p.outs,
        p.errs ++ ["error: DisAsm->getInstruction".toList], p.decoded ++ [word]⟩ := by
      rw [disassemble_eq p ((accepted_of_spells hfour hspells).bytes p), disassembleBytes, hword]
      rfl
    rw [hcheck, hdis]
    refine ⟨_, rfl, rfl, List.length_append, [word], rfl, ?_⟩
    intro w hw
    obtain rfl := List.mem_singleton.mp hw
    rw [decodes, hword]
    rfl
  · rw [hcheck]
    exact ⟨_, rfl, rfl, List.length_append, [], (List.append_nil _).symm, by simp⟩

/-- The run ends with the first bad line. What stands before it has been disassembled, and
nothing behind it is. -/
theorem run_until_bad (items : List (Item decoder)) {line : Text} (hwhole : '\n' ∉ line)
    (hbad : Rejected decoder line) (rest : Text) (p : Session) :
    ∃ q, run decoder (ofText (unlines (items.map Item.line) ++ (line ++ '\n' :: rest))) p =
        .error q ∧ q.errs.length = p.errs.length + 1 ∧
      q.decoded.filter (decodes decoder) =
        (p.decoded ++ items.flatMap Item.words).filter (decodes decoder) := by
  obtain ⟨line', hitems⟩ := resume_lines items (line ++ '\n' :: rest) [] p
  obtain ⟨q, hq, -, herrs, words, hdecoded, hwords⟩ := processLine_rejected hbad
    ⟨p.outs ++ items.flatMap Item.shown ++ echo line, p.errs,
      p.decoded ++ items.flatMap Item.words⟩
  refine ⟨q, ?_, herrs, ?_⟩
  · change resume decoder _ [] p = _
    rw [hitems, resume, nextLine_eq (getline_line hwhole rest line'), loop,
      if_pos ⟨hbad.1, rfl⟩, hq]
  · have hnone : words.filter (decodes decoder) = [] := by
      refine List.filter_eq_nil_iff.mpr fun word hword => ?_
      rw [hwords word hword]
      exact Bool.false_ne_true
    rw [hdecoded, List.filter_append, hnone, List.append_nil]

/-! ## The condition -/

/-- Lines without a bad one, or those before the first bad one. -/
theorem items_or_bad (lines : List (Line decoder)) :
    lines = (lines.flatMap Line.item).map .good ∨
      ∃ (items : List (Item decoder)) (line : Text) (whole : '\n' ∉ line)
        (rejected : Rejected decoder line) (rest : List (Line decoder)),
        lines = items.map .good ++ .bad line whole rejected :: rest := by
  induction lines with
  | nil => exact .inl rfl
  | cons l lines ih =>
    cases l with
    | bad line whole rejected => exact .inr ⟨[], line, whole, rejected, lines, rfl⟩
    | good item =>
      rcases ih with hitems | ⟨items, line, whole, rejected, rest, rfl⟩
      · exact .inl (congrArg (Line.good item :: ·) hitems)
      · exact .inr ⟨item :: items, line, whole, rejected, rest, rfl⟩

theorem text_good (items : List (Item decoder)) :
    (items.map Line.good).map Line.text = items.map Item.line := by
  rw [List.map_map]
  rfl

/-- A last line without a newline is not looked at, bad or not. -/
theorem run_bad_tail (items : List (Item decoder)) {line : Text} (hwhole : '\n' ∉ line)
    (p : Session) :
    ∃ q, run decoder (ofText (unlines (items.map Item.line) ++ line)) p = .ok q ∧
      q.errs = p.errs := by
  obtain ⟨line', hitems⟩ := resume_lines items line [] p
  exact ⟨_, hitems.trans (resume_last hwhole line' _), rfl⟩

theorem run_input_errs (items : List (Item decoder)) (ending : Ending decoder) (p : Session) :
    ∃ q, run decoder (ofText (input items ending)) p = .ok q ∧ q.errs = p.errs :=
  ⟨_, run_input items ending p, rfl⟩

theorem flatMap_item_good (items : List (Item decoder)) :
    (items.map Line.good).flatMap Line.item = items := by
  induction items with
  | nil => rfl
  | cons item items ih => rw [List.map_cons, List.flatMap_cons, ih]; rfl

theorem countP_good (items : List (Item decoder)) :
    (items.map Line.good).countP Line.isBad = 0 := by
  rw [List.countP_map]
  exact List.countP_eq_zero.mpr fun _ _ => Bool.false_ne_true

theorem badInput_bad (items : List (Item decoder)) {line : Text} (whole : '\n' ∉ line)
    (rejected : Rejected decoder line) (rest : List (Line decoder)) (tail : Tail decoder) :
    badInput (items.map .good ++ .bad line whole rejected :: rest) tail =
      unlines (items.map Item.line) ++
        (line ++ '\n' :: (unlines (rest.map Line.text) ++ tail.text)) := by
  rw [badInput, List.map_append, text_good, unlines, List.flatMap_append, List.map_cons,
    List.flatMap_cons]
  simp only [List.append_assoc]
  rfl

/-- Without a bad line there is nothing to skip. -/
theorem tolerates_good (items : List (Item decoder)) (ending : Ending decoder) (p : Session) :
    Tolerates (items.map .good) (.good ending) p := by
  have htext : badInput (items.map .good) (.good ending) = input items ending := by
    rw [badInput, text_good]
    rfl
  have hrun := run_input items ending p
  rw [Tolerates, htext, flatMap_item_good, badLines, countP_good]
  exact ⟨_, _, hrun, hrun, rfl, rfl, List.Sublist.refl _⟩

/-- The first bad line ends the program. -/
theorem not_tolerates_line (items : List (Item decoder)) {line : Text} (whole : '\n' ∉ line)
    (rejected : Rejected decoder line) (rest : List (Line decoder)) (tail : Tail decoder)
    (p : Session) : ¬Tolerates (items.map .good ++ .bad line whole rejected :: rest) tail p := by
  rintro ⟨q, q', hrun, -⟩
  obtain ⟨r, hr, -, -⟩ := run_until_bad items whole rejected
    (unlines (rest.map Line.text) ++ tail.text) p
  rw [badInput_bad, hr] at hrun
  cases hrun

/-- A bad line without a newline is left without a report. -/
theorem not_tolerates_tail (items : List (Item decoder)) {line : Text} (nonempty : line ≠ [])
    (whole : '\n' ∉ line) (rejected : Rejected decoder line) (p : Session) :
    ¬Tolerates (items.map .good) (.bad line nonempty whole rejected) p := by
  rintro ⟨q, q', hrun, hrun', herrs, -, -⟩
  obtain ⟨r, hr, hrerrs⟩ := run_bad_tail items whole p
  obtain ⟨r', hr', hrerrs'⟩ := run_input_errs ((items.map Line.good).flatMap Line.item) .eof p
  rw [badInput, text_good] at hrun
  obtain rfl := Except.ok.inj (hr.symm.trans hrun)
  obtain rfl := Except.ok.inj (hr'.symm.trans hrun')
  rw [badLines, countP_good, hrerrs, hrerrs'] at herrs
  change p.errs.length = p.errs.length + 1 at herrs
  omega

/-- Bad lines are skipped only in streams that have none before `quit`. -/
theorem tolerates_iff (lines : List (Line decoder)) (tail : Tail decoder) (p : Session) :
    Tolerates lines tail p ↔ (∀ line ∈ lines, line.isBad = false) ∧ tail.isBad = false := by
  rcases items_or_bad lines with hitems | ⟨items, line, whole, rejected, rest, rfl⟩
  · generalize lines.flatMap Line.item = items at hitems
    subst hitems
    have hgood : ∀ line ∈ items.map Line.good, line.isBad = false :=
      List.forall_mem_map.mpr fun _ _ => rfl
    cases tail with
    | good ending => exact iff_of_true (tolerates_good items ending p) ⟨hgood, rfl⟩
    | bad line nonempty whole rejected =>
      refine iff_of_false (not_tolerates_tail items nonempty whole rejected p) ?_
      rintro ⟨-, htail⟩
      cases htail
  · refine iff_of_false (not_tolerates_line items whole rejected rest tail p) ?_
    rintro ⟨hlines, -⟩
    have hbad := hlines (.bad line whole rejected) (by simp)
    cases hbad

/-- What the program has done when it ends, in one way or the other. -/
def ended : Except Session Session → Session
  | .ok q => q
  | .error q => q

theorem filter_words (items : List (Item decoder)) :
    (items.flatMap Item.words).filter (decodes decoder) = items.flatMap Item.words := by
  refine List.filter_eq_self.mpr fun word hword => ?_
  obtain ⟨item, -, hitem⟩ := List.mem_flatMap.mp hword
  cases item with
  | comment _ _ _ => cases hitem
  | instruction _ word' asm _ _ hdecodes =>
    obtain rfl := List.mem_singleton.mp hitem
    rw [decodes, hdecodes]
    rfl

/-- Behind a bad line, all instructions of the stream have been disassembled only if none is
left. -/
theorem disassembles_iff (items : List (Item decoder)) {line : Text} (whole : '\n' ∉ line)
    (rejected : Rejected decoder line) (rest : List (Line decoder)) (tail : Tail decoder)
    (p : Session) :
    (ended (run decoder (ofText (badInput (items.map .good ++ .bad line whole rejected :: rest)
        tail)) p)).decoded.filter (decodes decoder) =
      (p.decoded ++ (items ++ rest.flatMap Line.item).flatMap Item.words).filter
        (decodes decoder) ↔ (rest.flatMap Line.item).flatMap Item.words = [] := by
  obtain ⟨q, hq, -, hdecoded⟩ := run_until_bad items whole rejected
    (unlines (rest.map Line.text) ++ tail.text) p
  rw [badInput_bad, hq, ended, hdecoded, List.flatMap_append, List.filter_append,
    List.filter_append, List.filter_append, filter_words, filter_words, List.append_cancel_left_eq,
    eq_comm, List.append_right_eq_self]

theorem rejected_dots (decoder : Decoder) : Rejected decoder "...".toList :=
  ⟨by decide, by decide, .inr (.inl (by decide))⟩

/-- A line of three dots hides the example of the usage message behind it. -/
theorem not_tolerates_dots :
    ¬Tolerates [.bad "...".toList (by decide) (rejected_dots _), .good usageLine] (.good .eof)
      ⟨[], [], []⟩ := by
  rintro ⟨q, q', hrun, -⟩
  have hdots : '\n' ∉ "...".toList := by decide
  obtain ⟨r, hr, -⟩ := run_until_bad [] hdots (rejected_dots fun _ => some
    "\taddiu\t$2, $zero, 0".toList) (usageLine.line ++ ['\n']) ⟨[], [], []⟩
  cases hr.symm.trans hrun

end HexToAsm

end Cpu0Toolchain.Hex
