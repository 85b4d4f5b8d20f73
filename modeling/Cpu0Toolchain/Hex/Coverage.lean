import Cpu0Toolchain.Hex.HexToAsm

/-!
# The lines that dishex covers

A stream for `HexToAsm::run` is a list of comments and instructions that newlines end, and
behind them the end of the file, a line `quit`, or one more line that no newline ends. The
loop tests `eof` before it looks at the line that was read with it, so this last line is
echoed and then left.

## Main result

- `covers_iff`: the run covers its input except where the line without a newline is an
  instruction.
-/

namespace Cpu0Toolchain.Hex
open TextStream HexLine

namespace HexToAsm

/-! ## Lines of a stream -/

/-- A line that the program is meant for. -/
inductive Item (decoder : Decoder)
  | comment (line : Text) (whole : '\n' ∉ line) (hash : line.head? = some '#')
  | instruction (line : Text) (word : List UInt8) (asm : Text) (four : word.length = 4)
      (spells : Spells line word) (decodes : decoder word = some asm)

/-- What stands behind the lines that a newline ends. Behind `quit` the file may go on. -/
inductive Ending (decoder : Decoder)
  | eof
  | unterminated (last : Item decoder)
  | quit (behind : Option Text)

section Input

variable {decoder : Decoder}

def Item.line : Item decoder → Text
  | .comment line _ _ => line
  | .instruction line _ _ _ _ _ => line

def Item.words : Item decoder → List (List UInt8)
  | .comment _ _ _ => []
  | .instruction _ word _ _ _ _ => [word]

/-- The assembly of the line, and of no other. -/
def Item.assembly : Item decoder → Text
  | .comment _ _ _ => []
  | .instruction _ _ asm _ _ _ => asm ++ ['\n']

/-- The prompt with the line that is read behind it. -/
def echo (line : Text) : Text := "\ninput: ".toList ++ (line ++ ['\n'])

def Item.shown (item : Item decoder) : Text := echo item.line ++ item.assembly

def Ending.text : Ending decoder → Text
  | .eof => []
  | .unterminated last => last.line
  | .quit none => "quit".toList
  | .quit (some behind) => "quit".toList ++ '\n' :: behind

/-- The line without a newline, where there is one. -/
def Ending.items : Ending decoder → List (Item decoder)
  | .unterminated last => [last]
  | _ => []

/-- The last prompt, unless the file ended before it. -/
def Ending.shown : Ending decoder → Text
  | .eof => echo []
  | .unterminated _ => []
  | .quit _ => echo "quit".toList

/-- The line without a newline is not an instruction. -/
def Ending.Complete : Ending decoder → Prop
  | .unterminated (.instruction _ _ _ _ _ _) => False
  | _ => True

/-- The text of a stream. -/
def input (lines : List (Item decoder)) (ending : Ending decoder) : Text :=
  unlines (lines.map Item.line) ++ ending.text

/-- The run disassembles the word of each line once and in order, and shows each line with
its own assembly and nothing else. -/
def Covers (lines : List (Item decoder)) (ending : Ending decoder) (p : Session) : Prop :=
  run decoder (ofText (input lines ending)) p = .ok
    { p with
      outs := p.outs ++ (lines ++ ending.items).flatMap Item.shown ++ ending.shown
      decoded := p.decoded ++ (lines ++ ending.items).flatMap Item.words }

end Input

/-! ## The loop -/

theorem loop_stop (decoder : Decoder) {is : Stream} {line : Text} (asm : Text) (p : Session)
    (h : line = "quit".toList ∨ is.eof = true) : loop decoder is line asm p = .ok p := by
  rw [loop, if_neg]
  rintro ⟨hquit, heof⟩
  rcases h with h | h
  · exact hquit h
  · rw [heof] at h
    cases h

section Run

variable {decoder : Decoder}

/-- The loop from a prompt on, with the line that stood before it. -/
def resume (decoder : Decoder) (is : Stream) (line : Text) (p : Session) : Except Session Session :=
  loop decoder (nextLine is line p).1.2 (nextLine is line p).1.1 [] (nextLine is line p).2

theorem nextLine_eq {is is' : Stream} {line l : Text} (h : getline is line = (l, is'))
    (p : Session) : nextLine is line p = ((l, is'), { p with outs := p.outs ++ echo l }) := by
  rw [nextLine, h]
  show ((l, is'), Session.mk (p.outs ++ "\ninput: ".toList ++ (l ++ ['\n'])) p.errs p.decoded) = _
  rw [List.append_assoc]
  rfl

theorem whole (item : Item decoder) : '\n' ∉ item.line := by
  cases item with
  | comment _ whole _ => exact whole
  | instruction _ _ _ four spells _ => exact (accepted_of_spells four spells).whole

theorem line_ne_quit (item : Item decoder) : item.line ≠ "quit".toList := by
  cases item with
  | comment line _ hash =>
    rintro rfl
    cases hash
  | instruction _ _ _ four spells _ => exact (accepted_of_spells four spells).quit

/-- One round keeps the string behind `RSO` empty, and leaves the line behind. -/
theorem processLine_item (item : Item decoder) (p : Session) :
    ∃ line, processLine decoder item.line [] p =
      .ok (line, [], { p with
        outs := p.outs ++ item.assembly
        decoded := p.decoded ++ item.words }) := by
  cases item with
  | comment line _ hash =>
    refine ⟨line, ?_⟩
    have hfirst : line.getD 0 '\x00' = '#' := by
      cases line with
      | nil => cases hash
      | cons c rest => exact Option.some.inj hash
    show processLine decoder line [] p = .ok (line, [], ⟨p.outs ++ [], p.errs, p.decoded ++ []⟩)
    rw [processLine, if_pos hfirst, List.append_nil, List.append_nil]
  | instruction line word asm four spells decodes =>
    exact ⟨digits line, processLine_accepted p (accepted_of_spells four spells) decodes []⟩

theorem resume_item (item : Item decoder) (rest line : Text) (p : Session) :
    ∃ line', resume decoder (ofText (item.line ++ '\n' :: rest)) line p =
      resume decoder (ofText rest) line' { p with
        outs := p.outs ++ item.shown
        decoded := p.decoded ++ item.words } := by
  obtain ⟨line', hline⟩ := processLine_item item { p with outs := p.outs ++ echo item.line }
  refine ⟨line', ?_⟩
  rw [resume, nextLine_eq (getline_line (whole item) rest line), loop,
    if_pos ⟨line_ne_quit item, rfl⟩, hline]
  show resume decoder (ofText rest) line'
    ⟨p.outs ++ echo item.line ++ item.assembly, p.errs, p.decoded ++ item.words⟩ = _
  rw [List.append_assoc]
  rfl

/-- All lines with a newline are covered, whatever stands behind them. -/
theorem resume_lines (lines : List (Item decoder)) (rest line : Text) (p : Session) :
    ∃ line', resume decoder (ofText (unlines (lines.map Item.line) ++ rest)) line p =
      resume decoder (ofText rest) line' { p with
        outs := p.outs ++ lines.flatMap Item.shown
        decoded := p.decoded ++ lines.flatMap Item.words } := by
  induction lines generalizing line p with
  | nil =>
    refine ⟨line, ?_⟩
    show _ = resume decoder (ofText rest) line ⟨p.outs ++ [], p.errs, p.decoded ++ []⟩
    rw [List.append_nil, List.append_nil]
    rfl
  | cons item lines ih =>
    obtain ⟨line₁, hitem⟩ :=
      resume_item item (unlines (lines.map Item.line) ++ rest) line p
    obtain ⟨line₂, hlines⟩ := ih line₁ { p with
      outs := p.outs ++ item.shown
      decoded := p.decoded ++ item.words }
    refine ⟨line₂, ?_⟩
    have htext : unlines ((item :: lines).map Item.line) ++ rest =
        item.line ++ '\n' :: (unlines (lines.map Item.line) ++ rest) := by
      rw [unlines, List.map_cons, List.flatMap_cons, List.append_assoc, List.append_assoc]
      rfl
    rw [htext, hitem, hlines, List.flatMap_cons, List.flatMap_cons, List.append_assoc,
      List.append_assoc]

/-- A line that no newline ends is read together with the end, and left. -/
theorem resume_last {l : Text} (hl : '\n' ∉ l) (line : Text) (p : Session) :
    resume decoder (ofText l) line p = .ok { p with outs := p.outs ++ echo l } := by
  -- `eof` is set by the read that gives the line
  obtain ⟨hfst, heof⟩ := getline_last hl line
  rw [resume, nextLine_eq (Prod.ext hfst rfl : _ = (l, (getline (ofText l) line).2))]
  exact loop_stop decoder [] _ (.inr heof)

/-- At the ending the loop stops with the line it has read. -/
theorem resume_ending (ending : Ending decoder) (line : Text) (p : Session) :
    resume decoder (ofText ending.text) line p = .ok
      { p with outs := p.outs ++ ending.items.flatMap (fun item => echo item.line) ++ ending.shown } := by
  cases ending with
  | eof =>
    rw [Ending.text, resume_last List.not_mem_nil]
    show _ = Except.ok { p with outs := p.outs ++ [] ++ echo [] }
    rw [List.append_nil]
  | unterminated last =>
    rw [Ending.text, resume_last (whole last)]
    show _ = Except.ok { p with outs := p.outs ++ (echo last.line ++ []) ++ [] }
    rw [List.append_nil, List.append_nil]
  | quit behind =>
    have hwhole : '\n' ∉ "quit".toList := by decide
    show _ = Except.ok { p with outs := p.outs ++ [] ++ echo "quit".toList }
    rw [List.append_nil]
    cases behind with
    | none => exact resume_last hwhole line p
    | some behind =>
      rw [Ending.text, resume, nextLine_eq (getline_line hwhole behind line)]
      exact loop_stop decoder [] _ (.inl rfl)

/-- What a run does on every stream. -/
theorem run_input (lines : List (Item decoder)) (ending : Ending decoder) (p : Session) :
    run decoder (ofText (input lines ending)) p = .ok
      { p with
        outs := p.outs ++ lines.flatMap Item.shown ++
          ending.items.flatMap (fun item => echo item.line) ++ ending.shown
        decoded := p.decoded ++ lines.flatMap Item.words } := by
  obtain ⟨line, hlines⟩ := resume_lines lines ending.text [] p
  have hrun : run decoder (ofText (input lines ending)) p =
      resume decoder (ofText (input lines ending)) [] p := rfl
  rw [hrun, input, hlines, resume_ending]

end Run

/-- The run covers its stream unless the file ends within an instruction. -/
theorem covers_iff {decoder : Decoder} (lines : List (Item decoder)) (ending : Ending decoder)
    (p : Session) : Covers lines ending p ↔ ending.Complete := by
  rw [Covers, run_input]
  constructor
  · intro h
    -- the decoded words of the two sides differ by the one of an unterminated instruction
    match ending with
    | .unterminated (.instruction _ word _ _ _ _) =>
      have hdecoded : lines.flatMap Item.words = (lines ++ [_]).flatMap Item.words :=
        List.append_cancel_left (congrArg Session.decoded (Except.ok.inj h))
      rw [List.flatMap_append] at hdecoded
      have hnil : [word] = [] := (List.append_right_eq_self.mp hdecoded.symm)
      cases hnil
    | .unterminated (.comment _ _ _) => trivial
    | .eof => trivial
    | .quit _ => trivial
  · intro h
    have hshown : ending.items.flatMap (fun item => echo item.line) =
        ending.items.flatMap Item.shown := by
      match ending, h with
      | .unterminated (.comment line _ _), _ =>
        show echo line ++ [] = (echo line ++ []) ++ []
        rw [List.append_nil, List.append_nil]
      | .eof, _ => rfl
      | .quit _, _ => rfl
    have hwords : ending.items.flatMap Item.words = [] := by
      match ending, h with
      | .unterminated (.comment _ _ _), _ => rfl
      | .eof, _ => rfl
      | .quit _, _ => rfl
    rw [hshown, List.flatMap_append, List.flatMap_append, hwords, List.append_nil,
      List.append_assoc p.outs]

/-- The example of the usage message, with the text that `printInst` gives it. -/
def usageLine : Item fun _ => some "\taddiu\t$2, $zero, 0".toList :=
  .instruction "09 20 00 00".toList [0x09, 0x20, 0x00, 0x00] _ rfl (by unfold Spells; decide) rfl

/-- Without a newline the only line of a file is never disassembled. -/
theorem not_covers_usageLine : ¬Covers [] (.unterminated usageLine) ⟨[], [], []⟩ := by
  rw [Covers, run_input]
  intro h
  have hdecoded : ([] : List (List UInt8)) = [[0x09, 0x20, 0x00, 0x00]] :=
    congrArg Session.decoded (Except.ok.inj h)
  cases hdecoded

end HexToAsm

end Cpu0Toolchain.Hex
