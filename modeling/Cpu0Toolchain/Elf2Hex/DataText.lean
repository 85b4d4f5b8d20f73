import Cpu0Toolchain.Elf2Hex.Emitters

/-!
# Reading a data section's text back

`PrintDataSection` puts the printable characters of each line into a comment behind
the hex column. The characters are raw, so they may hold the `*/` that closes the
comment early, and what follows it on the line is then read as data.
-/

namespace Cpu0Toolchain.Elf2Hex
open Readmemh
open ForLoop (indices)

mutual

/-- The rest of a printable column does no harm, read from inside the comment:
`*/` may occur only where the characters behind it do no harm outside. -/
def insideSafe (lastLine : Bool) : List Char → Bool
  | [] => true
  | [_] => true
  | c :: d :: rest =>
    if c = '*' ∧ d = '/' then outsideSafe lastLine rest else insideSafe lastLine (d :: rest)

/-- The rest of a printable column does no harm, read from outside the comment: only
blanks before a `/*` that opens the comment again. A final `/` opens one together with
the star of the program's own `*/`, which the next line closes, if there is one. -/
def outsideSafe (lastLine : Bool) : List Char → Bool
  | [] => false
  | [c] => c = '/' ∧ lastLine = false
  | c :: d :: rest =>
    if c = ' ' then outsideSafe lastLine (d :: rest)
    else if c = '/' ∧ d = '*' then insideSafe lastLine rest
    else false

end

/-- No line of the contents has a printable column that ends its comment early, except
where the column itself makes up for it. -/
def SafeColumns (contents : List UInt8) : Prop :=
  ∀ addr ∈ indices 0 contents.length 16,
    insideSafe (contents.length ≤ addr + 16) (asciiColumn contents addr) = true

example : insideSafe true "ab*/".toList = false := by decide
example : insideSafe true "a*/  /*b".toList = true := by decide

/-- What closes the printable column's comment. -/
def lineEnd : List Char := closer ++ ['\n']

/-- From state `st` the scanner reads `text` without taking a byte, and ends outside a
comment if this is the last line. -/
def ReadsQuietly (lastLine : Bool) (st : Scan) (text : List Char) : Prop :=
  ∃ q, run st text = some (q, []) ∧ (lastLine = true → q = .gap)

theorem not_readsQuietly {lastLine : Bool} {st : Scan} {text : List Char}
    (h : ∀ q, run st text ≠ some (q, [])) : false = true ↔ ReadsQuietly lastLine st text := by
  constructor
  · intro hf
    cases hf
  · rintro ⟨q, hq, -⟩
    exact absurd hq (h q)

/-- The column's own verdicts are the scanner's, inside a comment and outside. -/
structure ColumnRun (lastLine : Bool) (col : List Char) : Prop where
  inside : insideSafe lastLine col = true ↔ ReadsQuietly lastLine .comment (col ++ lineEnd)
  outside : outsideSafe lastLine col = true ↔ ReadsQuietly lastLine .gap (col ++ lineEnd)

theorem column_run_nil (lastLine : Bool) : ColumnRun lastLine [] := by
  have hstop : ∀ q, run .gap lineEnd ≠ some (q, []) := by
    intro q h
    cases h
  exact ⟨⟨fun _ => ⟨.gap, rfl, fun _ => rfl⟩, fun _ => rfl⟩, not_readsQuietly hstop⟩

theorem column_run_singleton (lastLine : Bool) (c : Char) (hblank : Readmemh.isBlank c → c = ' ') :
    ColumnRun lastLine [c] := by
  refine ⟨⟨fun _ => ⟨.gap, ?_, fun _ => rfl⟩, fun _ => rfl⟩, ?_⟩
  · by_cases hc : c = '*'
    · subst hc
      rfl
    · exact run_comment_cons hc _
  · by_cases hc : c = '/'
    · -- the final slash opens a comment together with the star of the closer
      subst hc
      have hrun : run .gap (['/'] ++ lineEnd) = some (.comment, []) := rfl
      rw [ReadsQuietly, hrun]
      cases lastLine <;> simp [outsideSafe]
    · rw [show outsideSafe lastLine [c] = false by simp [outsideSafe, hc]]
      refine not_readsQuietly fun q h => ?_
      by_cases hs : Readmemh.isBlank c
      · rw [hblank hs] at h
        cases h
      · exact run_gap_other (by simpa using hs) hc _ q h

section Column

variable {lastLine : Bool} {c d : Char} {rest : List Char} (htail : ColumnRun lastLine (d :: rest))
  (hskip : ColumnRun lastLine rest)
include htail hskip

theorem inside_step : insideSafe lastLine (c :: d :: rest) = true ↔
    ReadsQuietly lastLine .comment (c :: d :: rest ++ lineEnd) := by
  by_cases hcd : c = '*' ∧ d = '/'
  · obtain ⟨rfl, rfl⟩ := hcd
    rw [show insideSafe lastLine ('*' :: '/' :: rest) = outsideSafe lastLine rest by
      simp [insideSafe], ReadsQuietly, List.cons_append, List.cons_append, run_comment_close]
    exact hskip.outside
  · have hrun : run .comment (c :: d :: rest ++ lineEnd) =
        run .comment (d :: rest ++ lineEnd) := by
      by_cases hc : c = '*'
      · subst hc
        exact run_comment_star (fun hd => hcd ⟨rfl, hd⟩) _
      · exact run_comment_cons hc _
    rw [show insideSafe lastLine (c :: d :: rest) = insideSafe lastLine (d :: rest) by
      simp [insideSafe, hcd], ReadsQuietly, hrun]
    exact htail.inside

theorem outside_step (hblank : Readmemh.isBlank c → c = ' ') :
    outsideSafe lastLine (c :: d :: rest) = true ↔
      ReadsQuietly lastLine .gap (c :: d :: rest ++ lineEnd) := by
  by_cases hc : c = ' '
  · subst hc
    rw [show outsideSafe lastLine (' ' :: d :: rest) = outsideSafe lastLine (d :: rest) by
      simp [outsideSafe], ReadsQuietly, List.cons_append, run_cons_silent (r := .gap) _ rfl]
    exact htail.outside
  · by_cases hcd : c = '/' ∧ d = '*'
    · obtain ⟨rfl, rfl⟩ := hcd
      rw [show outsideSafe lastLine ('/' :: '*' :: rest) = insideSafe lastLine rest by
        simp [outsideSafe], ReadsQuietly, List.cons_append, List.cons_append, run_gap_open]
      exact hskip.inside
    · rw [show outsideSafe lastLine (c :: d :: rest) = false by
        simp [outsideSafe, hc, hcd]]
      refine not_readsQuietly fun q h => ?_
      by_cases hslash : c = '/'
      · subst hslash
        rw [List.cons_append, List.cons_append, run_gap_slash (fun hd => hcd ⟨rfl, hd⟩)] at h
        cases h
      · have hnb : Readmemh.isBlank c = false := by
          by_contra hb
          exact hc (hblank (by simpa using hb))
        exact run_gap_other hnb hslash _ q h

end Column

/-- The induction is on the length, since the column is consumed by one or two characters at
a time. -/
theorem column_run (lastLine : Bool) (n : ℕ) (col : List Char) (hn : col.length ≤ n)
    (hblank : ∀ c ∈ col, Readmemh.isBlank c → c = ' ') : ColumnRun lastLine col := by
  induction n generalizing col with
  | zero =>
    obtain rfl := List.eq_nil_of_length_eq_zero (Nat.le_zero.mp hn)
    exact column_run_nil lastLine
  | succ n ih =>
    match col, hn, hblank with
    | [], _, _ => exact column_run_nil lastLine
    | [c], _, hblank => exact column_run_singleton lastLine c (hblank c List.mem_cons_self)
    | c :: d :: rest, hn, hblank =>
      simp only [List.length_cons] at hn
      have hblank' : ∀ x ∈ d :: rest, Readmemh.isBlank x → x = ' ' :=
        fun x hx => hblank x (List.mem_cons_of_mem _ hx)
      have htail := ih (d :: rest) (by simp only [List.length_cons]; omega) hblank'
      have hskip := ih rest (by omega) fun x hx => hblank' x (List.mem_cons_of_mem _ hx)
      exact ⟨inside_step htail hskip, outside_step htail hskip (hblank c List.mem_cons_self)⟩

/-! ## One line -/

/-- Between lines the scanner stands between two bytes, or in a comment a column opened. -/
def BetweenLines (q : Scan) : Prop := q = .gap ∨ q = .comment

/-- Where a column leaves the scanner, if the scanner takes it. -/
theorem column_end {q q' : Scan} {col : List Char} {bs : List UInt8}
    (h : run q (col ++ lineEnd) = some (q', bs)) : BetweenLines q' := by
  obtain ⟨mid, b₁, b₂, -, hend, -⟩ := Readmemh.run_append_inv h
  cases mid with
  | gap => cases hend
  | digit v => cases hend
  | pair => cases hend
  | slash => cases hend; exact Or.inr rfl
  | comment => cases hend; exact Or.inl rfl
  | star => cases hend; exact Or.inl rfl

theorem hexColumn_run (contents : List UInt8) (addr : ℕ) :
    run .gap (render (hexColumn contents addr)) = some (.gap, (contents.drop addr).take 16) := by
  rw [hexColumn, Readmemh.render_flatMap, ← flatMap_window]
  refine Readmemh.run_flatMap_gap (fun i => ?_) _
  have hsep : run .gap (render (if i ≠ 0 ∧ i % 4 = 0 then [Token.blank [' ']] else [])) =
      some (.gap, []) := by
    split <;> rfl
  rw [Readmemh.render_append, run_append_silent _ hsep]
  cases contents[addr + i]? with
  | none => rfl
  | some b => exact run_hexByte_space b

variable {host : Host}

/-- What the C library may print for the undefined conversion in an address comment. -/
def PlainConversion (host : Host) : Prop :=
  '*' ∉ host.colonConversion ∧ '/' ∉ host.colonConversion

instance : Decidable (PlainConversion host) := inferInstanceAs (Decidable (_ ∧ _))

/-- A line gives its bytes, and then what its column gives. -/
theorem dataLine_run (hconv : PlainConversion host) (contents : List UInt8) (addr : ℕ) {q : Scan}
    (hq : BetweenLines q) :
    run q (render (dataLine host contents addr)) =
      (run .comment (asciiColumn contents addr ++ lineEnd)).map fun r =>
        (r.1, (contents.drop addr).take 16 ++ r.2) := by
  have hstar : '*' ∉ host.colonConversion ++ "lx:".toList := by
    simpa using hconv.1
  have hslash : '/' ∉ host.colonConversion ++ "lx:".toList := by
    simpa using hconv.2
  have haddr : run q (opener ++ ((host.colonConversion ++ "lx:".toList) ++ closer)) =
      some (.gap, []) := by
    rcases hq with rfl | rfl
    · exact run_comment_body hstar
    · exact run_comment_nested hstar hslash
  have htext : render (dataLine host contents addr) =
      (opener ++ ((host.colonConversion ++ "lx:".toList) ++ closer)) ++ (['\t'] ++
        (render (hexColumn contents addr) ++
          ((opener ++ [' ', ' ']) ++ (asciiColumn contents addr ++ lineEnd)))) := by
    simp [dataLine, Token.render, lineEnd, newline, List.append_assoc]
  have htab : run .gap ['\t'] = some (.gap, []) := rfl
  have hopen : run .gap (opener ++ [' ', ' ']) = some (.comment, []) := rfl
  rw [htext, run_append_silent _ haddr, run_append_silent _ htab,
    run_append _ (hexColumn_run contents addr), run_append_silent _ hopen]

/-! ## All lines -/

/-- The bytes of a list of lines. -/
def lineBytes (contents : List UInt8) (l : List ℕ) : List UInt8 :=
  l.flatMap fun addr => (contents.drop addr).take 16

def QuietLine (contents : List UInt8) (addr : ℕ) : Prop :=
  ReadsQuietly false .comment (asciiColumn contents addr ++ lineEnd)

/-- Lines with quiet columns give their bytes and nothing else. -/
theorem lines_run (hconv : PlainConversion host) {contents : List UInt8} {l : List ℕ}
    (hquiet : ∀ addr ∈ l, QuietLine contents addr) {q : Scan} (hq : BetweenLines q) :
    ∃ q', BetweenLines q' ∧
      run q (render (l.flatMap (dataLine host contents))) = some (q', lineBytes contents l) := by
  induction l generalizing q with
  | nil => exact ⟨q, hq, rfl⟩
  | cons addr l ih =>
    obtain ⟨q₁, hcol, -⟩ := hquiet addr List.mem_cons_self
    have hline := dataLine_run hconv contents addr hq
    rw [hcol] at hline
    obtain ⟨q', hq', hrest⟩ := ih (fun a ha => hquiet a (List.mem_cons_of_mem _ ha))
      (column_end hcol)
    refine ⟨q', hq', ?_⟩
    rw [List.flatMap_cons, Readmemh.render_append, run_append _ hline, hrest]
    simp [lineBytes]

/-- Lines that are taken give at least their bytes, and no more only if their columns
are quiet. -/
theorem lines_run_inv (hconv : PlainConversion host) {contents : List UInt8} {l : List ℕ}
    {q q' : Scan} {bs : List UInt8} (hq : BetweenLines q)
    (h : run q (render (l.flatMap (dataLine host contents))) = some (q', bs)) :
    BetweenLines q' ∧ (lineBytes contents l).length ≤ bs.length ∧
      (bs.length = (lineBytes contents l).length → ∀ addr ∈ l, QuietLine contents addr) := by
  induction l generalizing q bs with
  | nil =>
    cases h
    exact ⟨hq, le_rfl, by simp⟩
  | cons addr l ih =>
    rw [List.flatMap_cons, Readmemh.render_append] at h
    obtain ⟨mid, b₁, b₂, hline, hrest, rfl⟩ := Readmemh.run_append_inv h
    rw [dataLine_run hconv contents addr hq] at hline
    obtain ⟨⟨q₁, extra⟩, hcol, heq⟩ := Option.map_eq_some_iff.mp hline
    cases heq
    obtain ⟨hend, hle, hquiet⟩ := ih (column_end hcol) hrest
    have hcons : (lineBytes contents (addr :: l)).length =
        ((contents.drop addr).take 16).length + (lineBytes contents l).length :=
      List.length_append
    refine ⟨hend, ?_, fun hlen a ha => ?_⟩
    · simp only [hcons, List.length_append]
      omega
    · simp only [hcons, List.length_append] at hlen
      rcases List.mem_cons.mp ha with rfl | ha
      · have hnil : extra = [] := List.eq_nil_of_length_eq_zero (by omega)
        exact ⟨q₁, by rw [hcol, hnil], fun hf => by cases hf⟩
      · exact hquiet (by omega) a ha

/-! ## The whole text -/

/-- The text `PrintDataSection` writes for contents that are not empty. The section's name
in its first comment is always empty. -/
def sectionText (host : Host) (contents : List UInt8) : List Char :=
  render (dataText host "" contents)

theorem printDataSection_text (host : Host) {sec : SectionRef} (h : sec.contents ≠ [])
    (hex : VerilogHex) :
    render (printDataSection host sec hex).outs =
      render hex.outs ++ sectionText host sec.contents := by
  rw [printDataSection_of_ne_nil h]
  exact Readmemh.render_append _ _

/-- The bytes behind the lines, which pad the section to whole words. -/
def padText (n : ℕ) : List Char :=
  (List.replicate n ['0', '0', ' ']).flatten ++ ['\n']

theorem padText_run (n : ℕ) : run .gap (padText n) = some (.gap, zeros n) := by
  induction n with
  | zero => rfl
  | succ n ih =>
    have hpad : padText (n + 1) = ['0', '0', ' '] ++ padText n := by
      simp [padText, List.replicate_succ]
    have hone : run .gap ['0', '0', ' '] = some (.gap, [0]) := rfl
    rw [hpad, run_append _ hone, ih]
    rfl

theorem padText_no_star (n : ℕ) : '*' ∉ padText n := by
  simp [padText]

theorem pad_render (l : List ℕ) :
    render (l.flatMap fun _ => [Token.byte 0, .blank [' ']]) ++ ['\n'] = padText l.length := by
  induction l with
  | nil => rfl
  | cons a l ih =>
    rw [List.flatMap_cons, Readmemh.render_append, List.append_assoc, ih, List.length_cons]
    rfl

/-- The text in the order it is read: the header, all lines but the last, the last line,
the padding. -/
theorem sectionText_eq (host : Host) {contents : List UInt8} {init : List ℕ} {last : ℕ}
    (h : indices 0 contents.length 16 = init ++ [last]) :
    sectionText host contents =
      "/*Contents of section :*/\n".toList ++
        (render (init.flatMap (dataLine host contents)) ++
          (render (dataLine host contents last) ++
            padText (wordCeil contents.length - contents.length))) := by
  have hcount : (indices contents.length (wordCeil contents.length) 1).length =
      wordCeil contents.length - contents.length := by
    rw [ForLoop.indices, List.length_range']
    omega
  rw [sectionText, dataText, h, ← hcount, ← pad_render]
  simp only [Readmemh.render_append, List.flatMap_append, List.flatMap_singleton,
    List.append_assoc]
  rfl

theorem asciiChar_toNat (b : UInt8) : 0x20 ≤ (asciiChar b).toNat := by
  unfold asciiChar isPrint
  split
  · next h =>
    simp only [decide_eq_true_eq, UInt8.le_iff_toNat_le] at h
    have hvalid : b.toNat.isValidChar := Or.inl (by have := b.toNat_lt; omega)
    have hchar : Char.ofNat b.toNat = Char.ofNatAux b.toNat hvalid := dif_pos hvalid
    have hnat : (Char.ofNatAux b.toNat hvalid).toNat = b.toNat := rfl
    rw [hchar, hnat]
    exact h.1
  · decide

/-- The printable characters hold no blank but the space. -/
theorem asciiColumn_blank {contents : List UInt8} {addr : ℕ} :
    ∀ c ∈ asciiColumn contents addr, Readmemh.isBlank c → c = ' ' := by
  intro c hc hblank
  rw [asciiColumn_eq] at hc
  obtain ⟨b, -, rfl⟩ := List.mem_map.mp hc
  have hlow := asciiChar_toNat b
  simp only [Readmemh.isBlank, decide_eq_true_eq] at hblank
  rcases hblank with h | h | h | h
  · exact h
  all_goals
    rw [h] at hlow
    exact absurd hlow (by decide)

theorem safe_iff_quiet {contents : List UInt8} {addr : ℕ} (lastLine : Bool) :
    insideSafe lastLine (asciiColumn contents addr) = true ↔
      ReadsQuietly lastLine .comment (asciiColumn contents addr ++ lineEnd) :=
  (column_run lastLine _ _ le_rfl asciiColumn_blank).inside

section Last

variable {contents : List UInt8} {init : List ℕ} {last : ℕ}
  (hsplit : indices 0 contents.length 16 = init ++ [last])
include hsplit

theorem lineBytes_split : lineBytes contents init ++ (contents.drop last).take 16 = contents := by
  have hlines := flatMap_lines contents 0
  rwa [hsplit, List.flatMap_append, List.flatMap_singleton, List.drop_zero] at hlines

/-- What the condition says of the lines before the last and of the last. -/
theorem safeColumns_iff (hinit : ∀ addr ∈ init, addr + 16 < contents.length)
    (hend : contents.length ≤ last + 16) :
    SafeColumns contents ↔ (∀ addr ∈ init, QuietLine contents addr) ∧
      ReadsQuietly true .comment (asciiColumn contents last ++ lineEnd) := by
  unfold SafeColumns
  rw [hsplit, List.forall_mem_append, List.forall_mem_singleton, ← safe_iff_quiet,
    decide_eq_true hend]
  refine and_congr_left fun _ => forall₂_congr fun addr haddr => ?_
  rw [decide_eq_false (Nat.not_le.mpr (hinit addr haddr))]
  exact safe_iff_quiet false

end Last

/-- The last line and the padding, when its column is quiet. -/
theorem lastLine_run (hconv : PlainConversion host) {contents : List UInt8} {last : ℕ} (n : ℕ)
    {q : Scan} (hq : BetweenLines q)
    (h : ReadsQuietly true .comment (asciiColumn contents last ++ lineEnd)) :
    run q (render (dataLine host contents last) ++ padText n) =
      some (.gap, (contents.drop last).take 16 ++ zeros n) := by
  obtain ⟨q', hcol, hgap⟩ := h
  have hline := dataLine_run hconv contents last hq
  rw [hcol, hgap rfl] at hline
  rw [run_append _ hline, padText_run]
  simp only [Option.map_some, List.append_nil]

/-- When they are accepted, the column has not left a comment open: it would swallow the
padding and never be closed. -/
theorem lastLine_run_inv (hconv : PlainConversion host) {contents : List UInt8} {last n : ℕ}
    {q q' : Scan} {bs : List UInt8} (hq : BetweenLines q) (haccepts : q'.accepts = true)
    (h : run q (render (dataLine host contents last) ++ padText n) = some (q', bs)) :
    ∃ extra, run .comment (asciiColumn contents last ++ lineEnd) = some (.gap, extra) ∧
      bs = (contents.drop last).take 16 ++ extra ++ zeros n := by
  obtain ⟨mid, b₁, b₂, hline, hpad, rfl⟩ := Readmemh.run_append_inv h
  rw [dataLine_run hconv contents last hq] at hline
  obtain ⟨⟨mid', extra⟩, hcol, heq⟩ := Option.map_eq_some_iff.mp hline
  obtain ⟨rfl, rfl⟩ := Prod.mk.inj heq
  rcases column_end hcol with hgap | hopen
  · rw [hgap, padText_run] at hpad
    cases hpad
    exact ⟨extra, by rw [hcol, hgap], rfl⟩
  · rw [hopen, run_comment_of_no_star (padText_no_star _)] at hpad
    cases hpad
    cases haccepts

/-- The text of a data section is accepted and gives the padded contents exactly when no
printable column does harm. -/
theorem read_sectionText_iff (hconv : PlainConversion host) {contents : List UInt8}
    (hne : contents ≠ []) :
    Readmemh.read (sectionText host contents) =
        some (contents ++ zeros (wordCeil contents.length - contents.length)) ↔
      SafeColumns contents := by
  obtain ⟨init, last, hsplit, hinit, -, hend⟩ :=
    ForLoop.exists_last_index (List.length_pos_of_ne_nil hne) (show 0 < 16 by decide)
  have hbytes := lineBytes_split hsplit
  have hhead : run .gap "/*Contents of section :*/\n".toList = some (.gap, []) := rfl
  rw [safeColumns_iff hsplit hinit hend, Readmemh.read, sectionText_eq host hsplit,
    run_append_silent _ hhead]
  constructor
  · intro h
    cases hrun : run .gap (render (init.flatMap (dataLine host contents)) ++
        (render (dataLine host contents last) ++
          padText (wordCeil contents.length - contents.length))) with
    | none =>
      rw [hrun] at h
      cases h
    | some r =>
      obtain ⟨q, bs⟩ := r
      rw [hrun] at h
      obtain ⟨haccepts, hbs⟩ := Option.ite_none_right_eq_some.mp h
      obtain ⟨mid, b₁, b₂, hfirst, hrest, rfl⟩ := Readmemh.run_append_inv hrun
      obtain ⟨hmid, hle, hquiet⟩ := lines_run_inv hconv (Or.inl rfl) hfirst
      obtain ⟨extra, hcol, rfl⟩ := lastLine_run_inv hconv hmid haccepts hrest
      have hlen := congrArg List.length (Option.some.inj hbs)
      have hblen := congrArg List.length hbytes
      simp only [List.length_append, zeros_length] at hlen hblen
      have hnil : extra = [] := List.eq_nil_of_length_eq_zero (by omega)
      exact ⟨hquiet (by omega), .gap, by rw [hcol, hnil], fun _ => rfl⟩
  · rintro ⟨hquiet, hlast⟩
    obtain ⟨mid, hmid, hfirst⟩ := lines_run hconv hquiet (Or.inl rfl)
    rw [run_append _ hfirst, lastLine_run hconv _ hmid hlast]
    simp only [Option.map_some, Scan.accepts, if_true]
    rw [← List.append_assoc, hbytes]

/-- What `PrintDataSection` writes is the section's text, and that text reads back as the
padded contents exactly when no printable column does harm. -/
theorem printDataSection_reads_back_iff (hconv : PlainConversion host) {contents : List UInt8}
    (hne : contents ≠ []) :
    (∀ (sec : SectionRef) (hex : VerilogHex), sec.contents = contents →
      render (printDataSection host sec hex).outs = render hex.outs ++ sectionText host contents) ∧
    (Readmemh.read (sectionText host contents) =
        some (contents ++ zeros (wordCeil contents.length - contents.length)) ↔
      SafeColumns contents) := by
  refine ⟨?_, read_sectionText_iff hconv hne⟩
  rintro sec hex rfl
  exact printDataSection_text host hne hex

/-- A C library that prints an undefined conversion as it stands. -/
def literalHost : Host where
  disas _ := none
  colonConversion := ['%', '8', ':']

/-- The contents `hi!` read back. -/
theorem greeting_reads_back :
    Readmemh.read (sectionText literalHost [0x68, 0x69, 0x21]) =
      some ([0x68, 0x69, 0x21] ++ zeros (wordCeil 3 - 3)) :=
  (printDataSection_reads_back_iff (show PlainConversion literalHost by decide) (by decide)).2.mpr
    (by unfold SafeColumns; decide)

/-- The contents `*/` close their own comment: the program's `*/` behind them is read
as data and the text is refused. -/
theorem comment_closer_refused :
    ¬∀ (host : Host) (contents : List UInt8), PlainConversion host → contents ≠ [] →
      Readmemh.read (sectionText host contents) =
        some (contents ++ zeros (wordCeil contents.length - contents.length)) := by
  intro h
  have hread := h literalHost [0x2a, 0x2f] (by decide) (by decide)
  have hnone : Readmemh.read (sectionText literalHost [0x2a, 0x2f]) = none := by decide
  rw [hnone] at hread
  cases hread

end Cpu0Toolchain.Elf2Hex
