import Cpu0Toolchain.Elf2Hex.Sections

/-!
# The bytes that a dump is to have

The calls of the reader depend on the object alone, and each of them is there for some bytes of
a section. A byte is written if the process comes to its call, and the slice of that call is
within the section: the word is written before it is disassembled.

## Main results

- `written_of_passes`, `within_of_written`: when a byte is written.
- `dumpedWhole_of_independent`: the walk comes to every byte where the executable sections are
  independent.
-/

namespace Cpu0Toolchain.Elf2Hex
open ForLoop (indices)

/-- The calls of the reader for an object. -/
def objectCalls (obj : ObjectFile) : List Call :=
  (Reader.initial.disassembleSections obj obj.sections).2

/-- The call writes byte `k` of the section, as its byte number `j`. -/
def Call.Takes (sec : SectionRef) (k j : ℕ) : Call → Prop
  | .processDataSection s => s = sec ∧ k = j
  | .processDisAsmInstruction cur size _ => cur.sec = sec ∧ k = cur.index + j ∧ j < size

/-- The slice of the call is within the section. -/
def Call.Within : Call → Prop
  | .processDataSection _ => True
  | .processDisAsmInstruction cur size bytes => cur.index + size ≤ bytes.length

/-- The call returns. -/
def Passes (host : Host) : Call → Prop
  | .processDataSection _ => True
  | .processDisAsmInstruction cur size bytes =>
    cur.index + size ≤ bytes.length ∧ (host.disas (bytes.drop cur.index)).isSome

/-- The process comes to a call for the byte, and what it leaves has the byte behind the gap
before the section and the bytes that the call writes first. -/
def Written (host : Host) (littleEndian : Bool) (si : ℕ) (obj : ObjectFile) (sec : SectionRef)
    (k : ℕ) : Prop :=
  ∃ before call after hex j, objectCalls obj = before ++ call :: after ∧ call.Takes sec k j ∧
    (VerilogHex.create obj littleEndian si).run host before = .ok hex ∧
    (StopRun.final (disassembleObject host littleEndian si obj)).image[
      (hex.fillGap sec.address).image.length + j]? = sec.contents[k]?

/-- The walk has a call for every byte of every section, before any slice that is not within its
section. -/
def DumpedWhole (obj : ObjectFile) : Prop :=
  ∀ sec ∈ dumpedSections obj, ∀ k < sec.contents.length, ∃ before call after j,
    objectCalls obj = before ++ call :: after ∧ call.Takes sec k j ∧ call.Within ∧
      ∀ c ∈ before, c.Within

/-! ## One call -/

section Call

variable (host : Host)

/-- A slice that fails ends the run behind the gap. -/
theorem processDisAsmInstruction_assertion {cur : Current} {size : ℕ} {bytes : List UInt8}
    (h : bytes.length < cur.index + size) (hex : VerilogHex) :
    processDisAsmInstruction host cur size bytes hex =
      .error (.assertion, (hex.fillGap cur.sec.address).printPlace cur) := by
  have hslice : slice bytes cur.index size = none := if_neg (Nat.not_le.mpr h)
  rw [processDisAsmInstruction]
  dsimp only
  rw [hslice]

/-- A rejected word is written before the run ends. -/
theorem processDisAsmInstruction_rejected {cur : Current} {bytes : List UInt8}
    (h : cur.index + 4 ≤ bytes.length) (hnone : host.disas (bytes.drop cur.index) = none)
    (hex : VerilogHex) :
    ∃ hex', processDisAsmInstruction host cur 4 bytes hex = .error (.exit1, hex') ∧
      hex'.image = (hex.fillGap cur.sec.address).image ++ (bytes.drop cur.index).take 4 := by
  have hslice : slice bytes cur.index 4 = some ((bytes.drop cur.index).take 4) := if_pos h
  refine ⟨((hex.fillGap cur.sec.address).printPlace cur).write
    (dumpBytes ((bytes.drop cur.index).take 4)), ?_, ?_⟩
  · rw [processDisAsmInstruction]
    dsimp only
    rw [hslice]
    dsimp only
    rw [hnone]
  · rw [image_write, printPlace_image, image_dumpBytes]

/-- The instruction size of the reader. -/
def WordCalls (calls : List Call) : Prop :=
  ∀ cur size bytes, Call.processDisAsmInstruction cur size bytes ∈ calls → size = 4

theorem WordCalls.tail {call : Call} {calls : List Call} (h : WordCalls (call :: calls)) :
    WordCalls calls := fun cur size bytes hmem => h cur size bytes (List.mem_cons_of_mem _ hmem)

theorem WordCalls.of_mem {call : Call} {calls : List Call} (h : WordCalls calls)
    (hmem : call ∈ calls) : WordCalls [call] := by
  intro cur size bytes hcall
  exact h cur size bytes (List.mem_singleton.mp hcall ▸ hmem)

theorem call_returns {call : Call} (hword : WordCalls [call]) (h : Passes host call)
    (hex : VerilogHex) : ∃ hex', hex.call host call = .ok hex' := by
  cases call with
  | processDataSection sec => exact ⟨_, rfl⟩
  | processDisAsmInstruction cur size bytes =>
    obtain rfl := hword cur size bytes List.mem_cons_self
    exact processDisAsmInstruction_returns h.1 h.2 hex

theorem within_of_returns {call : Call} (hword : WordCalls [call]) {hex hex' : VerilogHex}
    (h : hex.call host call = .ok hex') : call.Within := by
  cases call with
  | processDataSection sec => trivial
  | processDisAsmInstruction cur size bytes =>
    obtain rfl := hword cur size bytes List.mem_cons_self
    exact (processDisAsmInstruction_ok h).1

/-- A call whose slice is within its section writes its bytes, whether it returns or not. -/
theorem call_takes {call : Call} (hword : WordCalls [call]) (h : call.Within) {sec : SectionRef}
    {k j : ℕ} (htakes : call.Takes sec k j) (hk : k < sec.contents.length)
    (hbytes : ∀ cur size bytes, call = .processDisAsmInstruction cur size bytes →
      bytes = cur.sec.contents) (hex : VerilogHex) :
    (StopRun.final (hex.call host call)).image[(hex.fillGap sec.address).image.length + j]? =
      sec.contents[k]? := by
  cases call with
  | processDataSection s =>
    obtain ⟨rfl, rfl⟩ := htakes
    have himage : (StopRun.final (hex.call host (.processDataSection s))).image =
        (hex.fillGap s.address).image ++ (s.contents ++
          zeros (wordCeil s.contents.length - s.contents.length)) := by
      change (processDataSection host s hex).image = _
      rw [processDataSection_eq, printDataSection_image]
    rw [himage, List.getElem?_append_right (Nat.le_add_right _ _), Nat.add_sub_cancel_left,
      List.getElem?_append_left hk]
  | processDisAsmInstruction cur size bytes =>
    obtain rfl := hword cur size bytes List.mem_cons_self
    obtain rfl := hbytes cur 4 bytes rfl
    obtain ⟨rfl, rfl, hj⟩ := htakes
    have himage : (StopRun.final (hex.call host
        (.processDisAsmInstruction cur 4 cur.sec.contents))).image =
          (hex.fillGap cur.sec.address).image ++ (cur.sec.contents.drop cur.index).take 4 := by
      cases hdisas : host.disas (cur.sec.contents.drop cur.index) with
      | none =>
        obtain ⟨hex', hcall, himage⟩ := processDisAsmInstruction_rejected host h hdisas hex
        have hstop : hex.call host (.processDisAsmInstruction cur 4 cur.sec.contents) =
            .error (.exit1, hex') := hcall
        rw [hstop]
        exact himage
      | some asm =>
        obtain ⟨hex', hcall⟩ := processDisAsmInstruction_returns h (by rw [hdisas]; rfl) hex
        have hok : hex.call host (.processDisAsmInstruction cur 4 cur.sec.contents) = .ok hex' :=
          hcall
        rw [hok]
        exact (processDisAsmInstruction_ok hcall).2.2.1
    rw [himage, List.getElem?_append_right (Nat.le_add_right _ _), Nat.add_sub_cancel_left,
      List.getElem?_take_of_lt hj, List.getElem?_drop]

/-- Where the slice fails, the process ends without a byte of the call. -/
theorem call_takes_none {call : Call} (h : ¬call.Within) {sec : SectionRef} {k j : ℕ}
    (htakes : call.Takes sec k j) (hex : VerilogHex) :
    ∃ stop hex', hex.call host call = .error (stop, hex') ∧
      hex'.image[(hex.fillGap sec.address).image.length + j]? = none := by
  cases call with
  | processDataSection s => exact absurd trivial h
  | processDisAsmInstruction cur size bytes =>
    obtain ⟨rfl, -, -⟩ := htakes
    refine ⟨_, _, processDisAsmInstruction_assertion host (Nat.not_le.mp h) hex, ?_⟩
    rw [printPlace_image]
    exact List.getElem?_eq_none (Nat.le_add_right _ _)

end Call

/-! ## The calls of an object -/

theorem objectCalls_text {obj : ObjectFile} {cur : Current} {size : ℕ} {bytes : List UInt8}
    (h : .processDisAsmInstruction cur size bytes ∈ objectCalls obj) :
    size = 4 ∧ bytes = cur.sec.contents := by
  rcases (disassembleSections_calls h).1 with hdata | ⟨cur', htext, hsec⟩
  · cases hdata
  · rw [textCall, Call.processDisAsmInstruction.injEq] at htext
    obtain ⟨rfl, hsize, hbytes⟩ := htext
    exact ⟨hsize, hbytes⟩

theorem objectCalls_word (obj : ObjectFile) : WordCalls (objectCalls obj) :=
  fun _ _ _ hmem => (objectCalls_text hmem).1

section Object

variable {host : Host} {littleEndian : Bool} {si : ℕ} {obj : ObjectFile} {sec : SectionRef}
  {before after : List Call} {call : Call} {k j : ℕ}

/-- A byte is written if all calls before its own return. -/
theorem written_of_passes (hsplit : objectCalls obj = before ++ call :: after)
    (htakes : call.Takes sec k j) (hwithin : call.Within) (hk : k < sec.contents.length)
    (hbefore : ∀ c ∈ before, Passes host c) : Written host littleEndian si obj sec k := by
  have hmem : ∀ c ∈ before ++ [call], c ∈ objectCalls obj := by
    intro c hc
    rw [hsplit, List.append_cons]
    exact List.mem_append_left _ hc
  have hcall : call ∈ objectCalls obj := hmem call (List.mem_append_right _ List.mem_cons_self)
  have hreturns : ∀ c ∈ before, ∀ u, True → ∃ v, VerilogHex.call host u c = .ok v ∧ True := by
    intro c hc u _
    obtain ⟨v, hv⟩ := call_returns host
      ((objectCalls_word obj).of_mem (hmem c (List.mem_append_left _ hc))) (hbefore c hc) u
    exact ⟨v, hv, trivial⟩
  obtain ⟨hex, hrun, -⟩ := StopRun.run_total (fun _ => True) hreturns
    (s := VerilogHex.create obj littleEndian si) trivial
  have hbyte := call_takes host ((objectCalls_word obj).of_mem hcall) hwithin htakes hk
    (fun cur size bytes heq => (objectCalls_text (heq ▸ hcall)).2) hex
  have hprefix : (StopRun.final (hex.call host call)).image <+:
      (StopRun.final (disassembleObject host littleEndian si obj)).image := by
    show _ <+: (StopRun.final ((VerilogHex.create obj littleEndian si).run host
      (objectCalls obj))).image
    rw [hsplit, VerilogHex.run, StopRun.run_append_ok hrun]
    cases hstep : hex.call host call with
    | ok hex' =>
      rw [StopRun.run_cons_ok hstep]
      exact image_prefix_run host hex' after
    | error e =>
      simp only [StopRun.run_cons_error hstep, List.prefix_rfl]
  refine ⟨before, call, after, hex, j, hsplit, htakes, hrun, ?_⟩
  obtain ⟨more, hmore⟩ := hprefix
  have hlt := List.getElem?_eq_getElem hk ▸ hbyte
  rw [← hmore, List.getElem?_append_left (List.getElem?_eq_some_iff.mp hlt).1]
  exact hbyte

/-- The slices up to the call for a byte that is written are within their sections. -/
theorem within_of_written (h : Written host littleEndian si obj sec k)
    (hk : k < sec.contents.length) : ∃ before call after j,
      objectCalls obj = before ++ call :: after ∧ call.Takes sec k j ∧ call.Within ∧
        ∀ c ∈ before, c.Within := by
  obtain ⟨before, call, after, hex, j, hsplit, htakes, hrun, hbyte⟩ := h
  refine ⟨before, call, after, j, hsplit, htakes, ?_, ?_⟩
  · by_contra hout
    obtain ⟨stop, hex', hstep, hnone⟩ := call_takes_none host hout htakes hex
    have hend : disassembleObject host littleEndian si obj = .error (stop, hex') := by
      show (VerilogHex.create obj littleEndian si).run host (objectCalls obj) = _
      rw [hsplit, VerilogHex.run, StopRun.run_append_ok hrun, StopRun.run_cons_error hstep]
    rw [hend, List.getElem?_eq_getElem hk] at hbyte
    exact absurd (hnone.symm.trans hbyte) (by simp)
  · intro c hc
    obtain ⟨u, v, huv⟩ := StopRun.run_ok_mem hrun hc
    refine within_of_returns host ((objectCalls_word obj).of_mem ?_) huv
    rw [hsplit]
    exact List.mem_append_left _ hc

end Object

/-! ## Objects with independent sections -/

section Independent

variable {obj : ObjectFile} (h : SectionsIndependent [obj])
include h

/-- Where the executable sections are independent, all slices are within their sections. -/
theorem objectCalls_within {secs later : List SectionRef} (hsecs : obj.sections = secs ++ later) :
    ∀ c ∈ ((Reader.at [] obj secs).disassembleSections obj later).2, c.Within := by
  induction later generalizing secs with
  | nil => exact fun c hc => absurd hc List.not_mem_nil
  | cons sec later ih =>
    have hnext : ((Reader.at [] obj secs).disassembleSection obj sec).1 =
        Reader.at [] obj (secs ++ [sec]) := by
      rw [Reader.at, Reader.at, disassembleSections_append]
      rfl
    rw [Reader.disassembleSections]
    dsimp only
    rw [hnext]
    refine List.forall_mem_append.mpr ⟨?_, ih (by rw [hsecs, List.append_assoc]; rfl)⟩
    intro c hc
    cases hd : sec.dumped with
    | false =>
      rw [disassembleSection_skipped hd] at hc
      cases hc
    | true =>
      cases ht : sec.isText with
      | false =>
        rw [disassembleSection_data hd ht] at hc
        obtain rfl := List.mem_singleton.mp hc
        trivial
      | true =>
        have halone := h [] obj [] secs sec later rfl hsecs hd ht
        rw [disassembleSection_text hd ht] at hc
        obtain ⟨cur, hcur, rfl⟩ := List.mem_map.mp hc
        exact halone.slices cur hcur

/-- The walk of such an object has a call for every byte. -/
theorem dumpedWhole_of_independent : DumpedWhole obj := by
  intro sec hsec k hk
  obtain ⟨hmem, hd⟩ := List.mem_filter.mp hsec
  obtain ⟨secs, later, hsecs⟩ := List.append_of_mem hmem
  have hwithin : ∀ c ∈ objectCalls obj, c.Within :=
    objectCalls_within h (show obj.sections = [] ++ obj.sections from rfl)
  have hcalls : objectCalls obj = (Reader.initial.disassembleSections obj secs).2 ++
      (((Reader.at [] obj secs).disassembleSection obj sec).2 ++
        (((Reader.at [] obj secs).disassembleSection obj sec).1.disassembleSections
          obj later).2) := by
    rw [objectCalls, hsecs, disassembleSections_append]
    rfl
  -- one of the calls of the section is for the byte
  obtain ⟨call, hcall, j, htakes⟩ : ∃ call ∈ ((Reader.at [] obj secs).disassembleSection obj sec).2,
      ∃ j, call.Takes sec k j := by
    cases ht : sec.isText with
    | false =>
      rw [disassembleSection_data hd ht]
      exact ⟨_, List.mem_singleton_self _, k, rfl, rfl⟩
    | true =>
      have halone := h [] obj [] secs sec later rfl hsecs hd ht
      have hindex : 4 * (k / 4) ∈ indices 0 sec.size 4 := by
        rw [text_contents_length ht] at hk
        exact (ForLoop.mem_indices (by decide)).mpr ⟨by omega, k / 4, by omega⟩
      rw [← halone.once] at hindex
      obtain ⟨cur, hcur, hcurIndex⟩ := List.mem_map.mp hindex
      rw [disassembleSection_text hd ht]
      refine ⟨_, List.mem_map_of_mem hcur, k % 4, symbolLoop_sec hcur, ?_, Nat.mod_lt _ (by decide)⟩
      omega
  obtain ⟨front, back, hfront⟩ := List.append_of_mem hcall
  rw [hfront, List.append_assoc, List.cons_append, ← List.append_assoc] at hcalls
  rw [hcalls] at hwithin
  obtain ⟨hbefore, hrest⟩ := List.forall_mem_append.mp hwithin
  exact ⟨_, call, _, j, hcalls, htakes, (List.forall_mem_cons.mp hrest).1, hbefore⟩

end Independent

end Cpu0Toolchain.Elf2Hex
