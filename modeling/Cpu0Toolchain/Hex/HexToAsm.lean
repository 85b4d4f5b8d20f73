import Cpu0Toolchain.Hex.Filterhex

/-!
# dishex

The class `HexToAsm` of `dishex/dishex.cpp`, which disassembles lines of hex bytes. LLVM's
decoder and printer stand open. `DisAs::reportError` leaves the program, so nothing behind
a call of it is run.
-/

namespace Cpu0Toolchain.Hex
open TextStream HexLine

/-- What the program has put out, and the words it has given to the decoder. -/
structure Session where
  outs : Text
  /-- The messages of `reportError`. -/
  errs : List Text
  decoded : List (List UInt8)

/-- `getInstruction` and `printInst`: the text of an instruction, if the word is one. -/
abbrev Decoder := List UInt8 → Option Text

namespace HexToAsm

/-- `exit(1)` behind a message. -/
def reportError {α : Type} (message : Text) (p : Session) : Except Session α :=
  .error { p with errs := p.errs ++ [message] }

def print (text : Text) (p : Session) : Session := { p with outs := p.outs ++ text }

def checkInput (line : Text) (p : Session) : Except Session Unit :=
  match countDigits line 0 with
  | none =>
    reportError ("error: input must in [0..9, A..F, a..f, ' '], Hex: ".toList ++ line ++ ['\n']) p
  | some length =>
    if length ≠ 8 then
      reportError ("error: The length of input must be 8 and seperated with blank, input: ".toList ++
        line ++ ['\n']) p
    else .ok ()

/-- The value of `Hex[i]`, by the range it lies in. -/
def digitValue (hex : Text) (i : ℕ) (p : Session) : Except Session ℕ :=
  let c := hex.getD i '\x00'
  if '0' ≤ c ∧ c ≤ '9' then .ok (c.toNat - '0'.toNat)
  else if 'A' ≤ c ∧ c ≤ 'F' then .ok (c.toNat - 'A'.toNat + 10)
  else if 'a' ≤ c ∧ c ≤ 'f' then .ok (c.toNat - 'a'.toNat + 10)
  else reportError ("error: VByte must in [0..9, A..F, a..f], Hex: ".toList ++ hex) p

/-- One round of the loop of `hexToBytes`. -/
def byteAt (hex : Text) (i : ℕ) (p : Session) : Except Session UInt8 := do
  let high ← digitValue hex i p
  let low ← digitValue hex (i + 1) p
  return UInt8.ofNat (high <<< 4 + low)

def hexToBytes (hex : Text) (p : Session) : Except Session (List UInt8) :=
  [0, 2, 4, 6].mapM fun i => byteAt hex i p

/-- `DisAs::disassemble`, which appends to the string behind `RSO`. -/
def disassembleBytes (decoder : Decoder) (bytes : List UInt8) (rso : Text) (p : Session) :
    Except Session (Text × Session) :=
  match decoder bytes with
  | none => reportError "error: DisAsm->getInstruction".toList
      { p with decoded := p.decoded ++ [bytes] }
  | some text => .ok (rso ++ text, { p with decoded := p.decoded ++ [bytes] })

/-- The line without blanks, the string behind `RSO` and the output. -/
def disassemble (decoder : Decoder) (line rso : Text) (p : Session) :
    Except Session (Text × Text × Session) := do
  let line := line.filter (· ≠ ' ')
  let bytes ← hexToBytes line p
  let r ← disassembleBytes decoder bytes rso p
  return (line, r)

/-- The prompt for the next line. -/
def nextLine (is : Stream) (line : Text) (p : Session) : (Text × Stream) × Session :=
  let r := getline is line
  (r, print (r.1 ++ ['\n']) (print "\ninput: ".toList p))

/-- The body of the loop up to the prompt that ends it. -/
def processLine (decoder : Decoder) (line asm : Text) (p : Session) :
    Except Session (Text × Text × Session) :=
  if line.getD 0 '\x00' = '#' then .ok (line, asm, p)
  else do
    checkInput line p
    let r ← disassemble decoder line asm p
    return (r.1, [], print (r.2.1 ++ ['\n']) r.2.2)

def loop (decoder : Decoder) (is : Stream) (line asm : Text) (p : Session) : Except Session Session :=
  if line ≠ "quit".toList ∧ is.eof = false then
    match processLine decoder line asm p with
    | .error p => .error p
    | .ok r =>
      let n := nextLine is r.1 r.2.2
      loop decoder n.1.2 n.1.1 r.2.1 n.2
  else .ok p
termination_by is.left
decreasing_by
  next hmore => exact getline_left hmore.2 _

/-- A run is over when the loop ends, and an error when `exit(1)` ends it. -/
def run (decoder : Decoder) (is : Stream) (p : Session) : Except Session Session :=
  let n := nextLine is [] p
  loop decoder n.1.2 n.1.1 [] n.2

/-! ## One line -/

section Line

variable (p : Session)

theorem digitValue_digit {hex : Text} {i v : ℕ} (h : IsDigit v (hex.getD i '\x00')) :
    digitValue hex i p = .ok v := by
  unfold digitValue
  generalize hex.getD i '\x00' = c at h
  dsimp only
  rcases isDigit_iff.mp h with ⟨hlo, hhi, rfl⟩ | ⟨hlo, hhi, rfl⟩ | ⟨hlo, hhi, rfl⟩
  · rw [if_pos ⟨hlo, hhi⟩]
  · have h9 : ¬('0' ≤ c ∧ c ≤ '9') := by
      intro h9
      have hle : 'A' ≤ '9' := Char.le_trans hlo h9.2
      exact absurd hle (by decide)
    rw [if_neg h9, if_pos ⟨hlo, hhi⟩]
  · have h9 : ¬('0' ≤ c ∧ c ≤ '9') := by
      intro h9
      have hle : 'a' ≤ '9' := Char.le_trans hlo h9.2
      exact absurd hle (by decide)
    have hF : ¬('A' ≤ c ∧ c ≤ 'F') := by
      intro hF
      have hle : 'a' ≤ 'F' := Char.le_trans hlo hF.2
      exact absurd hle (by decide)
    rw [if_neg h9, if_neg hF, if_pos ⟨hlo, hhi⟩]

theorem byteAt_nibbles {hex : Text} {i : ℕ} {b : UInt8}
    (hhigh : IsDigit (b.toNat / 16) (hex.getD i '\x00'))
    (hlow : IsDigit (b.toNat % 16) (hex.getD (i + 1) '\x00')) : byteAt hex i p = .ok b := by
  have hbyte : (b.toNat / 16) <<< 4 + b.toNat % 16 = b.toNat := by
    rw [Nat.shiftLeft_eq]
    omega
  rw [byteAt, digitValue_digit p hhigh, digitValue_digit p hlow]
  show Except.ok (UInt8.ofNat ((b.toNat / 16) <<< 4 + b.toNat % 16)) = _
  rw [hbyte, UInt8.ofNat_toNat]

/-- The digits of four bytes are read without an error. -/
theorem hexToBytes_nibbles {hex : Text} {bytes : List UInt8} (hlen : bytes.length = 4)
    (h : List.Forall₂ IsDigit (bytes.flatMap nibbles) hex) : hexToBytes hex p = .ok bytes := by
  match bytes, hlen with
  | [b0, b1, b2, b3], _ =>
    have hat : ∀ i (hi : i < 8), IsDigit (([b0, b1, b2, b3].flatMap nibbles).get ⟨i, hi⟩) (hex.getD i '\x00') :=
      fun i hi => isDigit_getD h hi '\x00'
    have h0 : byteAt hex 0 p = .ok b0 := byteAt_nibbles p (hat 0 (by decide)) (hat 1 (by decide))
    have h1 : byteAt hex 2 p = .ok b1 := byteAt_nibbles p (hat 2 (by decide)) (hat 3 (by decide))
    have h2 : byteAt hex 4 p = .ok b2 := byteAt_nibbles p (hat 4 (by decide)) (hat 5 (by decide))
    have h3 : byteAt hex 6 p = .ok b3 := byteAt_nibbles p (hat 6 (by decide)) (hat 7 (by decide))
    simp only [hexToBytes, List.mapM_cons, List.mapM_nil, h0, h1, h2, h3]
    rfl

/-- A line that is a word: neither a comment nor `quit`, and read without an error. -/
structure Accepted (line : Text) (word : List UInt8) : Prop where
  whole : '\n' ∉ line
  comment : line.getD 0 '\x00' ≠ '#'
  quit : line ≠ "quit".toList
  check : ∀ p, checkInput line p = .ok ()
  bytes : ∀ p, hexToBytes (digits line) p = .ok word
  spells : word.length = 4 ∧ Spells line word

/-- The decoder gets the bytes, and any error behind them is the decoder's. -/
theorem disassemble_eq {line : Text} {word : List UInt8} (h : hexToBytes (digits line) p = .ok word)
    (decoder : Decoder) (asm : Text) :
    disassemble decoder line asm p =
      (digits line, ·) <$> disassembleBytes decoder word asm p := by
  rw [disassemble, show line.filter (· ≠ ' ') = digits line from rfl, h]
  show (do let r ← disassembleBytes decoder word asm p; return (digits line, r)) = _
  cases disassembleBytes decoder word asm p <;> rfl

/-- The decoder is given these bytes and no others, whether or not they are an instruction. -/
theorem disassemble_decoded {line : Text} {word : List UInt8}
    (h : hexToBytes (digits line) p = .ok word) (decoder : Decoder) (asm : Text) :
    match disassemble decoder line asm p with
    | .ok r => r.2.2.decoded = p.decoded ++ [word]
    | .error q => q.decoded = p.decoded ++ [word] := by
  rw [disassemble_eq p h, disassembleBytes]
  cases decoder word <;> rfl

/-- Such a line gives its word to the decoder. -/
theorem processLine_accepted {decoder : Decoder} {line text : Text} {word : List UInt8}
    (hline : Accepted line word) (htext : decoder word = some text) (asm : Text) :
    processLine decoder line asm p =
      .ok (digits line, [], print (asm ++ text ++ ['\n']) { p with decoded := p.decoded ++ [word] }) := by
  have hword : disassembleBytes decoder word asm p =
      .ok (asm ++ text, { p with decoded := p.decoded ++ [word] }) := by
    rw [disassembleBytes, htext]
  have hdis : disassemble decoder line asm p =
      .ok (digits line, asm ++ text, { p with decoded := p.decoded ++ [word] }) := by
    rw [disassemble_eq p (hline.bytes p), hword]
    rfl
  rw [processLine, if_neg hline.comment, hline.check p, hdis]
  rfl

end Line

/-! ## Words that a line spells -/

theorem exists_isDigit_of_spells {line : Text} {word : List UInt8} (h : Spells line word) :
    ∀ c ∈ digits line, ∃ v, IsDigit v c := by
  have hall : ∀ {vs : List ℕ} {ds : Text}, List.Forall₂ IsDigit vs ds →
      ∀ c ∈ ds, ∃ v, IsDigit v c := by
    intro vs ds hds
    induction hds with
    | nil => exact fun c hc => absurd hc List.not_mem_nil
    | cons hv _ ih => exact List.forall_mem_cons.mpr ⟨⟨_, hv⟩, ih⟩
  exact hall h

theorem length_of_spells {line : Text} {word : List UInt8} (h : Spells line word) :
    (digits line).length = 2 * word.length := by
  have hlen : ∀ bytes : List UInt8, (bytes.flatMap nibbles).length = 2 * bytes.length := by
    intro bytes
    induction bytes with
    | nil => rfl
    | cons b bytes ih =>
      rw [List.flatMap_cons, List.length_append, ih, List.length_cons]
      show 2 + 2 * bytes.length = 2 * (bytes.length + 1)
      omega
  rw [← List.Forall₂.length_eq h, hlen]

/-- A character of a spelled line is a blank or a digit. -/
theorem ne_of_spells {line : Text} {word : List UInt8} (h : Spells line word) {c d : Char}
    (hc : c ∈ line) (hblank : d ≠ ' ') (hdigit : ¬∃ v, IsDigit v d) : c ≠ d := by
  rintro rfl
  exact hdigit (exists_isDigit_of_spells h c (List.mem_filter.mpr ⟨hc, decide_eq_true hblank⟩))

theorem not_isDigit {c : Char} (h0 : ¬('0' ≤ c ∧ c ≤ '9')) (hA : ¬('A' ≤ c ∧ c ≤ 'F'))
    (ha : ¬('a' ≤ c ∧ c ≤ 'f')) : ¬∃ v, IsDigit v c := by
  rintro ⟨v, hv⟩
  rcases isDigit_iff.mp hv with h | h | h
  · exact h0 ⟨h.1, h.2.1⟩
  · exact hA ⟨h.1, h.2.1⟩
  · exact ha ⟨h.1, h.2.1⟩

theorem accepted_of_spells {line : Text} {word : List UInt8} (hlen : word.length = 4)
    (h : Spells line word) : Accepted line word := by
  have hdigits := exists_isDigit_of_spells h
  have hlength : (digits line).length = 8 := by rw [length_of_spells h, hlen]
  have hnewline : ¬∃ v, IsDigit v '\n' := not_isDigit (by decide) (by decide) (by decide)
  have hhash : ¬∃ v, IsDigit v '#' := not_isDigit (by decide) (by decide) (by decide)
  refine ⟨?_, ?_, ?_, ?_, ?_, hlen, h⟩
  · intro hmem
    exact ne_of_spells h hmem (by decide) hnewline rfl
  · cases line with
    | nil => cases hlength
    | cons c rest => exact ne_of_spells h List.mem_cons_self (by decide) hhash
  · rintro rfl
    cases hlength
  · intro p
    rw [checkInput, countDigits_of_digits hdigits, hlength]
    rfl
  · intro p
    exact hexToBytes_nibbles p hlen h

/-! ## The lines that `checkInput` accepts -/

/-- A line that spells a word is accepted, and any other is reported. -/
theorem checkInput_cases (line : Text) (p : Session) :
    (∃ word : List UInt8, word.length = 4 ∧ Spells line word ∧ checkInput line p = .ok ()) ∨
      (¬∃ word : List UInt8, word.length = 4 ∧ Spells line word) ∧
        ∃ message, checkInput line p = reportError message p := by
  by_cases hspelled : ∃ word : List UInt8, word.length = 4 ∧ Spells line word
  · obtain ⟨word, hlen, hspells⟩ := hspelled
    exact .inl ⟨word, hlen, hspells, (accepted_of_spells hlen hspells).check p⟩
  · refine .inr ⟨hspelled, ?_⟩
    rw [checkInput]
    -- a character that is no digit is reported first, then a wrong number of digits
    cases hcount : countDigits line 0 with
    | none => exact ⟨_, rfl⟩
    | some length =>
      obtain ⟨hdigits, hlength⟩ := countDigits_eq_some hcount
      rw [Nat.zero_add] at hlength
      have height : length ≠ 8 := fun height =>
        hspelled (exists_bytes (n := 4) (hlength.symm.trans height) hdigits)
      dsimp only
      rw [if_pos height]
      exact ⟨_, rfl⟩

theorem checkInput_iff (line : Text) (p : Session) :
    checkInput line p = .ok () ↔ ∃ word : List UInt8, word.length = 4 ∧ Spells line word := by
  rcases checkInput_cases line p with ⟨word, hlen, hspells, hcheck⟩ | ⟨hspelled, message, hcheck⟩
  · exact iff_of_true hcheck ⟨word, hlen, hspells⟩
  · refine iff_of_false ?_ hspelled
    intro hok
    cases hcheck.symm.trans hok

/-- A line with the digits of a word, in any case and among any blanks, gives these four bytes
to the decoder. Those are the lines that are accepted, and each is a line of one word. -/
theorem line_roundTrip (decoder : Decoder) (line : Text) (p : Session) :
    (∀ word : List UInt8, word.length = 4 → Spells line word →
      checkInput line p = .ok () ∧ hexToBytes (digits line) p = .ok word ∧
        ∀ asm, disassemble decoder line asm p =
            (digits line, ·) <$> disassembleBytes decoder word asm p ∧
          match disassemble decoder line asm p with
          | .ok r => r.2.2.decoded = p.decoded ++ [word]
          | .error q => q.decoded = p.decoded ++ [word]) ∧
    (checkInput line p = .ok () → ∃! word : List UInt8, word.length = 4 ∧ Spells line word) ∧
    ∀ q, checkInput line p = .error q →
      ¬∃ word : List UInt8, word.length = 4 ∧ Spells line word := by
  refine ⟨?_, ?_, ?_⟩
  · intro word hlen hspells
    have haccepted := accepted_of_spells hlen hspells
    have hbytes := haccepted.bytes p
    exact ⟨haccepted.check p, hbytes, fun asm =>
      ⟨disassemble_eq p hbytes decoder asm, disassemble_decoded p hbytes decoder asm⟩⟩
  · intro hcheck
    obtain ⟨word, hlen, hspells⟩ := (checkInput_iff line p).mp hcheck
    refine ⟨word, ⟨hlen, hspells⟩, ?_⟩
    rintro word' ⟨-, hspells'⟩
    exact hspells'.unique hspells
  · intro q hcheck hword
    rw [(checkInput_iff line p).mpr hword] at hcheck
    cases hcheck

/-! ## All lines -/

/-- From the prompt on, each line gives its word to the decoder, and the end stops the run. -/
theorem loop_accepted {decoder : Decoder} {lines : List Text} {words : List (List UInt8)}
    (h : List.Forall₂ Accepted lines words) (hdecoder : ∀ word ∈ words, (decoder word).isSome)
    (line : Text) (p : Session) :
    ∃ q, loop decoder (getline (ofText (unlines lines)) line).2 (getline (ofText (unlines lines)) line).1
        [] p = .ok q ∧ q.decoded = p.decoded ++ words ∧ q.errs = p.errs := by
  induction h generalizing line p with
  | nil =>
    obtain ⟨-, heof⟩ := getline_last (l := []) List.not_mem_nil line
    refine ⟨p, ?_, (List.append_nil _).symm, rfl⟩
    rw [loop, if_neg]
    intro hmore
    exact absurd (heof.symm.trans hmore.2) (by decide)
  | @cons l word lines words hl _ ih =>
    have hread : getline (ofText (unlines (l :: lines))) line = (l, ofText (unlines lines)) := by
      rw [unlines, List.flatMap_cons, List.append_assoc]
      exact getline_line hl.whole _ line
    obtain ⟨text, htext⟩ := Option.isSome_iff_exists.mp (hdecoder word List.mem_cons_self)
    obtain ⟨q, hq, hdecoded, herrs⟩ := ih (fun w hw => hdecoder w (List.mem_cons_of_mem _ hw))
      (digits l) (nextLine (ofText (unlines lines)) (digits l)
        (print (text ++ ['\n']) { p with decoded := p.decoded ++ [word] })).2
    refine ⟨q, ?_, ?_, herrs⟩
    · rw [hread, loop, if_pos ⟨hl.quit, rfl⟩, processLine_accepted p hl htext]
      exact hq
    · rw [hdecoded]
      show p.decoded ++ [word] ++ words = p.decoded ++ (word :: words)
      rw [List.append_assoc]
      rfl

theorem run_accepted {decoder : Decoder} {lines : List Text} {words : List (List UInt8)}
    (h : List.Forall₂ Accepted lines words) (hdecoder : ∀ word ∈ words, (decoder word).isSome)
    (p : Session) :
    ∃ q, run decoder (ofText (unlines lines)) p = .ok q ∧ q.decoded = p.decoded ++ words ∧
      q.errs = p.errs :=
  loop_accepted h hdecoder [] (nextLine (ofText (unlines lines)) [] p).2

end HexToAsm

end Cpu0Toolchain.Hex
