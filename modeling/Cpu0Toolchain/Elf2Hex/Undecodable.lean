import Cpu0Toolchain.Elf2Hex.WrittenBytes

/-!
# Words that the decoder rejects

`ProcessDisAsmInstruction` ignores what `disassemble` gives back, so that a rejected word
would only lose its comment. But `getInstruction` has left the program by then. What the
dump lacks is compared here with the dump under a host that accepts every word.

## Main results

- `bytesIndependent_iff`: no byte depends on the decoder exactly if the walk has a call for every
  byte and the calls behind the first rejected word write nothing.
- `bytesIndependent_iff_harmless`: where the executable sections are independent, the second part
  is all that matters.
-/

namespace Cpu0Toolchain.Elf2Hex

/-- The host whose decoder rejects no word, and gives an empty text instead. -/
def Host.tolerant (host : Host) : Host :=
  { host with disas := fun bytes => some ((host.disas bytes).getD []) }

/-- The calls write no byte, from a value of `lastDumpAddr` on: sections without contents and
without a gap of two bytes before them, up to a slice that fails. -/
def Silent : ℕ → List Call → Prop
  | _, [] => True
  | last, .processDataSection sec :: rest =>
    -- `Fill0s` writes the first word of a gap of two bytes
    sec.address ≤ last + 1 ∧ sec.contents = [] ∧ Silent (max last sec.address) rest
  | last, .processDisAsmInstruction cur size bytes :: _ =>
    cur.sec.address ≤ last + 1 ∧ bytes.length < cur.index + size

/-- Behind the first rejected word nothing is written. -/
def Harmless (host : Host) (calls : List Call) : Prop :=
  ∀ before cur bytes after, calls = before ++ .processDisAsmInstruction cur 4 bytes :: after →
    (∀ call ∈ before, Passes host call) → cur.index + 4 ≤ bytes.length →
    host.disas (bytes.drop cur.index) = none → Silent (cur.sec.address + cur.index + 4) after

/-! ## Calls that write nothing -/

theorem fillGap_image_eq_iff {address : ℕ} {hex : VerilogHex} :
    (hex.fillGap address).image = hex.image ↔ address ≤ hex.lastDumpAddr + 1 := by
  unfold VerilogHex.fillGap
  split
  · next h =>
    have himage : (hex.write (fill0s hex.lastDumpAddr (address - 1) (by omega))).image = hex.image ++
        zeros (4 * (ForLoop.indices hex.lastDumpAddr (address - 1) 4).length) := by
      rw [image_write, image_fill0s_words]
    show (hex.write _).image = hex.image ↔ _
    rw [himage, List.append_right_eq_self, zeros, List.replicate_eq_nil_iff, ForLoop.indices,
      List.length_range']
    omega
  · exact ⟨fun _ => by omega, fun _ => rfl⟩

theorem fillGap_lastDumpAddr_max (address : ℕ) (hex : VerilogHex) :
    (hex.fillGap address).lastDumpAddr = max hex.lastDumpAddr address := by
  rcases Nat.le_total hex.lastDumpAddr address with h | h
  · rw [fillGap_lastDumpAddr h, Nat.max_eq_right h]
  · rw [fillGap_of_le h, Nat.max_eq_left h]

section Run

variable (host : Host)

/-- What is written behind a step comes back to the start only if neither part wrote. -/
theorem image_chain {a b c : List UInt8} (hab : a <+: b) (hbc : b <+: c) :
    c = a ↔ b = a ∧ c = b := by
  constructor
  · rintro rfl
    have hba : b = c := hbc.eq_of_length_le hab.length_le
    exact ⟨hba, hba.symm⟩
  · rintro ⟨rfl, rfl⟩
    rfl

theorem processDataSection_image_eq_iff {sec : SectionRef} {hex : VerilogHex} :
    (processDataSection host sec hex).image = hex.image ↔
      sec.address ≤ hex.lastDumpAddr + 1 ∧ sec.contents = [] := by
  have hcontents : (hex.fillGap sec.address).image ++ (sec.contents ++
      zeros (wordCeil sec.contents.length - sec.contents.length)) =
      (hex.fillGap sec.address).image ↔ sec.contents = [] := by
    rw [List.append_right_eq_self, List.append_eq_nil_iff]
    constructor
    · exact And.left
    · intro hnil
      rw [hnil]
      exact ⟨rfl, rfl⟩
  rw [processDataSection_eq, printDataSection_image,
    image_chain (image_prefix_fillGap sec.address hex) (List.prefix_append _ _), hcontents,
    fillGap_image_eq_iff]

theorem text_call_image_ne {cur : Current} {bytes : List UInt8} {hex hex' : VerilogHex}
    (h : cur.index + 4 ≤ bytes.length)
    (himage : hex'.image = (hex.fillGap cur.sec.address).image ++ (bytes.drop cur.index).take 4) :
    hex'.image ≠ hex.image := by
  intro heq
  have hlen := congrArg List.length (himage.symm.trans heq)
  have hle := (image_prefix_fillGap cur.sec.address hex).length_le
  rw [List.length_append, List.length_take, List.length_drop] at hlen
  omega

/-- Where every word is accepted, a run that writes nothing makes silent calls only. -/
theorem run_image_eq_iff {hex : VerilogHex} {calls : List Call} (hword : WordCalls calls)
    (hall : ∀ bytes, (host.disas bytes).isSome) :
    (StopRun.final (hex.run host calls)).image = hex.image ↔ Silent hex.lastDumpAddr calls := by
  induction calls generalizing hex with
  | nil => exact ⟨fun _ => trivial, fun _ => rfl⟩
  | cons call calls ih =>
    cases call with
    | processDataSection sec =>
      have hrun : hex.run host (.processDataSection sec :: calls) =
          (processDataSection host sec hex).run host calls := StopRun.run_cons_ok rfl
      have hfirst : hex.image <+: (processDataSection host sec hex).image :=
        image_prefix_call host hex (.processDataSection sec)
      rw [hrun, image_chain hfirst (image_prefix_run host _ calls), ih hword.tail,
        processDataSection_image_eq_iff, Silent, and_assoc]
      refine and_congr_right fun _ => and_congr_right fun hnil => ?_
      rw [processDataSection_eq, printDataSection_of_nil hnil, fillGap_lastDumpAddr_max]
    | processDisAsmInstruction cur size bytes =>
      obtain rfl := hword cur size bytes List.mem_cons_self
      rw [Silent]
      by_cases hin : cur.index + 4 ≤ bytes.length
      · -- the word is written, whatever follows
        obtain ⟨hex', hcall⟩ := processDisAsmInstruction_returns hin (hall _) hex
        have hrun : hex.run host (.processDisAsmInstruction cur 4 bytes :: calls) =
            hex'.run host calls := StopRun.run_cons_ok hcall
        have hne := text_call_image_ne hin (processDisAsmInstruction_ok hcall).2.2.1
        have hfirst : hex.image <+:
            (StopRun.final (Except.ok hex' : Except (Stop × VerilogHex) _)).image :=
          hcall ▸ image_prefix_call host hex (.processDisAsmInstruction cur 4 bytes)
        rw [hrun, image_chain hfirst (image_prefix_run host hex' calls)]
        exact ⟨fun h => absurd h.1 hne, fun h => absurd hin (Nat.not_le.mpr h.2)⟩
      · -- the assertion ends the run behind the gap
        have hout : bytes.length < cur.index + 4 := Nat.not_le.mp hin
        have hrun : hex.run host (.processDisAsmInstruction cur 4 bytes :: calls) = _ :=
          StopRun.run_cons_error (processDisAsmInstruction_assertion host hout hex)
        rw [hrun]
        show ((hex.fillGap cur.sec.address).printPlace cur).image = hex.image ↔ _
        rw [printPlace_image, fillGap_image_eq_iff]
        exact ⟨fun h => ⟨h, hout⟩, And.left⟩

/-! ## The first rejected word -/

theorem harmless_nil : Harmless host [] :=
  StopRun.forall_places_nil (f := fun cur bytes => Call.processDisAsmInstruction cur 4 bytes)

/-- Behind a call that returns, the condition is on the calls after it. -/
theorem harmless_cons_of_passes {call : Call} {calls : List Call} (h : Passes host call) :
    Harmless host (call :: calls) ↔ Harmless host calls := by
  refine (StopRun.forall_places_cons
    (f := fun cur bytes => Call.processDisAsmInstruction cur 4 bytes)).trans ?_
  rw [and_iff_right ?_]
  · refine forall₅_congr fun before cur bytes after _ => imp_congr_left ?_
    rw [List.forall_mem_cons, and_iff_right h]
  · rintro cur bytes rfl - - hnone
    have hsome := h.2
    rw [hnone] at hsome
    cases hsome

/-- A call that does not return is the one that is rejected, or there is none. -/
theorem harmless_cons_of_stops {cur : Current} {bytes : List UInt8} {calls : List Call}
    (h : ¬Passes host (.processDisAsmInstruction cur 4 bytes)) :
    Harmless host (.processDisAsmInstruction cur 4 bytes :: calls) ↔
      (cur.index + 4 ≤ bytes.length → Silent (cur.sec.address + cur.index + 4) calls) := by
  refine (StopRun.forall_places_cons
    (f := fun cur bytes => Call.processDisAsmInstruction cur 4 bytes)).trans ?_
  rw [and_iff_left ?_]
  · constructor
    · intro hhead hin
      refine hhead cur bytes rfl (fun _ hc => absurd hc List.not_mem_nil) hin ?_
      by_contra hne
      exact h ⟨hin, Option.isSome_iff_ne_none.mpr hne⟩
    · rintro hsilent _ _ ⟨⟩ - hin -
      exact hsilent hin
  · intro before cur' bytes' after _ hbefore
    exact absurd (List.forall_mem_cons.mp hbefore).1 h

theorem tolerant_isSome (bytes : List UInt8) : (host.tolerant.disas bytes).isSome := rfl

/-- A call that returns does the same under both hosts. -/
theorem call_tolerant {call : Call} (h : Passes host call) (hex : VerilogHex) :
    hex.call host.tolerant call = hex.call host call := by
  cases call with
  | processDataSection sec => rfl
  | processDisAsmInstruction cur size bytes =>
    obtain ⟨asm, hasm⟩ := Option.isSome_iff_exists.mp h.2
    have htolerant : host.tolerant.disas (bytes.drop cur.index) = some asm := by
      show some ((host.disas (bytes.drop cur.index)).getD []) = some asm
      rw [hasm]
      rfl
    show processDisAsmInstruction host.tolerant cur size bytes hex =
      processDisAsmInstruction host cur size bytes hex
    rw [processDisAsmInstruction, processDisAsmInstruction]
    dsimp only
    rw [htolerant, hasm]

/-- Both runs write the rejected word, and only the tolerant one goes on behind it. -/
theorem run_rejected_iff {cur : Current} {bytes : List UInt8} {calls : List Call}
    (hword : WordCalls calls) (hin : cur.index + 4 ≤ bytes.length)
    (hnone : host.disas (bytes.drop cur.index) = none) (hex : VerilogHex) :
    (StopRun.final (hex.run host (.processDisAsmInstruction cur 4 bytes :: calls))).image =
        (StopRun.final (hex.run host.tolerant
          (.processDisAsmInstruction cur 4 bytes :: calls))).image ↔
      Silent (cur.sec.address + cur.index + 4) calls := by
  obtain ⟨stopped, hstop, himage⟩ := processDisAsmInstruction_rejected host hin hnone hex
  obtain ⟨hex', hcall⟩ := processDisAsmInstruction_returns hin (tolerant_isSome host _) hex
  obtain ⟨-, -, himage', hlast⟩ := processDisAsmInstruction_ok hcall
  have hrun : hex.run host (.processDisAsmInstruction cur 4 bytes :: calls) =
      .error (.exit1, stopped) := StopRun.run_cons_error hstop
  have hrun' : hex.run host.tolerant (.processDisAsmInstruction cur 4 bytes :: calls) =
      hex'.run host.tolerant calls := StopRun.run_cons_ok hcall
  rw [hrun, hrun', ← hlast, ← run_image_eq_iff host.tolerant hword (tolerant_isSome host)]
  show stopped.image = _ ↔ _
  rw [himage, ← himage', eq_comm]

/-- Both runs end at the assertion. -/
theorem run_assertion_eq {cur : Current} {bytes : List UInt8} (calls : List Call)
    (hout : bytes.length < cur.index + 4) (hex : VerilogHex) :
    hex.run host (.processDisAsmInstruction cur 4 bytes :: calls) =
      hex.run host.tolerant (.processDisAsmInstruction cur 4 bytes :: calls) :=
  (StopRun.run_cons_error (processDisAsmInstruction_assertion host hout hex)).trans
    (StopRun.run_cons_error (processDisAsmInstruction_assertion host.tolerant hout hex)).symm

/-- The two runs write the same bytes exactly if nothing is lost behind the first rejected
word. -/
theorem run_tolerant_iff {hex : VerilogHex} {calls : List Call} (hword : WordCalls calls) :
    (StopRun.final (hex.run host calls)).image =
      (StopRun.final (hex.run host.tolerant calls)).image ↔ Harmless host calls := by
  induction calls generalizing hex with
  | nil => exact ⟨fun _ => harmless_nil host, fun _ => rfl⟩
  | cons call calls ih =>
    by_cases hpass : Passes host call
    · obtain ⟨hex', hcall⟩ := call_returns host (hword.of_mem List.mem_cons_self) hpass hex
      have hrun : hex.run host (call :: calls) = hex'.run host calls := StopRun.run_cons_ok hcall
      have hrun' : hex.run host.tolerant (call :: calls) = hex'.run host.tolerant calls :=
        StopRun.run_cons_ok ((call_tolerant host hpass hex).trans hcall)
      rw [hrun, hrun', ih hword.tail, harmless_cons_of_passes host hpass]
    · cases call with
      | processDataSection sec => exact absurd trivial hpass
      | processDisAsmInstruction cur size bytes =>
        obtain rfl := hword cur size bytes List.mem_cons_self
        rw [harmless_cons_of_stops host hpass]
        by_cases hin : cur.index + 4 ≤ bytes.length
        · have hnone : host.disas (bytes.drop cur.index) = none := by
            by_contra hne
            exact hpass ⟨hin, Option.isSome_iff_ne_none.mpr hne⟩
          rw [run_rejected_iff host hword.tail hin hnone]
          exact ⟨fun h _ => h, fun h => h hin⟩
        · rw [run_assertion_eq host calls (Nat.not_le.mp hin)]
          exact ⟨fun _ h => absurd h hin, fun _ => rfl⟩

/-! ## No byte is lost -/

theorem not_silent {last : ℕ} {before after : List Call} {call : Call} {sec : SectionRef} {k j : ℕ}
    (hbefore : ∀ c ∈ before, c.Within) (hwithin : call.Within) (htakes : call.Takes sec k j)
    (hk : k < sec.contents.length) : ¬Silent last (before ++ call :: after) := by
  induction before generalizing last with
  | nil =>
    cases call with
    | processDataSection s =>
      obtain ⟨rfl, -⟩ := htakes
      rintro ⟨-, hnil, -⟩
      rw [hnil] at hk
      exact absurd hk (Nat.not_lt_zero k)
    | processDisAsmInstruction cur size bytes => exact fun h => absurd hwithin (Nat.not_le.mpr h.2)
  | cons first before ih =>
    obtain ⟨hfirst, hrest⟩ := List.forall_mem_cons.mp hbefore
    cases first with
    | processDataSection s => exact fun h => ih hrest h.2.2
    | processDisAsmInstruction cur size bytes => exact fun h => absurd hfirst (Nat.not_le.mpr h.2)

/-- The first call that does not return. -/
theorem exists_first_stop {calls : List Call} (h : ¬∀ c ∈ calls, Passes host c) :
    ∃ before call after, calls = before ++ call :: after ∧ (∀ c ∈ before, Passes host c) ∧
      ¬Passes host call := by
  induction calls with
  | nil => exact absurd (fun c hc => absurd hc List.not_mem_nil) h
  | cons first rest ih =>
    by_cases hfirst : Passes host first
    · obtain ⟨before, call, after, rfl, hbefore, hcall⟩ :=
        ih fun hrest => h (List.forall_mem_cons.mpr ⟨hfirst, hrest⟩)
      exact ⟨first :: before, call, after, rfl, List.forall_mem_cons.mpr ⟨hfirst, hbefore⟩, hcall⟩
    · exact ⟨[], first, rest, rfl, fun c hc => absurd hc List.not_mem_nil, hfirst⟩

/-- Where the calls behind a rejected word write nothing, no call before one that writes is
rejected. -/
theorem passes_of_harmless {calls before after : List Call} {call : Call} {sec : SectionRef}
    {k j : ℕ} (hword : WordCalls calls) (h : Harmless host calls)
    (hsplit : calls = before ++ call :: after) (hbefore : ∀ c ∈ before, c.Within)
    (hwithin : call.Within) (htakes : call.Takes sec k j) (hk : k < sec.contents.length) :
    ∀ c ∈ before, Passes host c := by
  by_contra hstops
  obtain ⟨front, stop, back, rfl, hfront, hstop⟩ := exists_first_stop host hstops
  obtain ⟨hin, hback⟩ := List.forall_mem_cons.mp (List.forall_mem_append.mp hbefore).2
  cases stop with
  | processDataSection s => exact hstop trivial
  | processDisAsmInstruction cur size bytes =>
    rw [List.append_assoc, List.cons_append] at hsplit
    obtain rfl := hword cur size bytes
      (hsplit ▸ List.mem_append_right _ List.mem_cons_self)
    refine not_silent hback hwithin htakes hk (h front cur bytes _ hsplit hfront hin ?_)
    by_contra hsome
    exact hstop ⟨hin, Option.isSome_iff_ne_none.mpr hsome⟩

end Run

/-- The dump has the bytes that it has when every word is disassembled, and every byte of every
section is among them. -/
structure BytesIndependent (host : Host) (littleEndian : Bool) (si : ℕ) (obj : ObjectFile) :
    Prop where
  same : (StopRun.final (disassembleObject host littleEndian si obj)).image =
    (StopRun.final (disassembleObject host.tolerant littleEndian si obj)).image
  whole : ∀ sec ∈ dumpedSections obj, ∀ k < sec.contents.length,
    Written host littleEndian si obj sec k

/-- Every byte is written, and none depends on the decoder, exactly if the walk has a call for
every byte and the calls behind the first word that is rejected write nothing. -/
theorem bytesIndependent_iff (host : Host) (littleEndian : Bool) (si : ℕ) (obj : ObjectFile) :
    BytesIndependent host littleEndian si obj ↔
      DumpedWhole obj ∧ Harmless host (objectCalls obj) := by
  have hsame : (StopRun.final (disassembleObject host littleEndian si obj)).image =
      (StopRun.final (disassembleObject host.tolerant littleEndian si obj)).image ↔
        Harmless host (objectCalls obj) := run_tolerant_iff host (objectCalls_word obj)
  constructor
  · intro h
    exact ⟨fun sec hsec k hk => within_of_written (h.whole sec hsec k hk) hk, hsame.mp h.same⟩
  · rintro ⟨hwhole, hharmless⟩
    refine ⟨hsame.mpr hharmless, ?_⟩
    intro sec hsec k hk
    obtain ⟨before, call, after, j, hsplit, htakes, hwithin, hbefore⟩ := hwhole sec hsec k hk
    exact written_of_passes hsplit htakes hwithin hk
      (passes_of_harmless host (objectCalls_word obj) hharmless hsplit hbefore hwithin htakes hk)

/-- Where the executable sections are independent, only the calls behind the first rejected word
matter. -/
theorem bytesIndependent_iff_harmless {obj : ObjectFile} (h : SectionsIndependent [obj])
    (host : Host) (littleEndian : Bool) (si : ℕ) :
    BytesIndependent host littleEndian si obj ↔ Harmless host (objectCalls obj) := by
  rw [bytesIndependent_iff]
  exact and_iff_right (dumpedWhole_of_independent h)

/-- The data behind an instruction that is rejected is lost. -/
theorem undecodable_dump_differs :
    ¬∀ (host : Host) (littleEndian : Bool) (si : ℕ) (obj : ObjectFile),
      BytesIndependent host littleEndian si obj := by
  intro h
  have hharmless := (run_tolerant_iff refusingHost (objectCalls_word undecodableObject)).mp
    (h refusingHost false 0 undecodableObject).same
  have hsilent := hharmless [] ⟨undecodableObject.sections.get ⟨0, by decide⟩, 0, 0, ""⟩
    [0xff, 0xff, 0xff, 0xff] [.processDataSection (undecodableObject.sections.get ⟨1, by decide⟩)]
    (by decide) (fun _ hc => absurd hc List.not_mem_nil) (by decide) (by decide)
  exact absurd hsilent.2.1 (by decide)

end Cpu0Toolchain.Elf2Hex
