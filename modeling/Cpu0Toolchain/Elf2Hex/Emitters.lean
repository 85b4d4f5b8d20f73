import Cpu0Toolchain.Elf2Hex.Reader

/-!
# What each emitter adds to the image

One lemma for each emitter of the hex writer: the bytes it adds to the image and
the `lastDumpAddr` it leaves. `Synced` is the invariant that ties the two.
-/

namespace Cpu0Toolchain.Elf2Hex
open Readmemh (Token)

/-- `lastDumpAddr` is the number of bytes written. -/
def Synced (hex : VerilogHex) : Prop := hex.lastDumpAddr = hex.image.length

def zeros (n : ℕ) : List UInt8 := List.replicate n 0

@[simp] theorem zeros_length (n : ℕ) : (zeros n).length = n := List.length_replicate

@[simp] theorem image_write (toks : List Token) (hex : VerilogHex) :
    (hex.write toks).image = hex.image ++ Readmemh.image toks :=
  Readmemh.image_append _ _

@[simp] theorem lastDumpAddr_write (toks : List Token) (hex : VerilogHex) :
    (hex.write toks).lastDumpAddr = hex.lastDumpAddr := rfl

/-- A zero fill writes four bytes in each round. -/
theorem image_fill0s_words {start stop : ℕ} (h : start ≤ stop) :
    Readmemh.image (fill0s start stop h) = zeros (4 * (ForLoop.indices start stop 4).length) := by
  have hwords : ∀ l : List ℕ, Readmemh.image (l.flatMap fill0sLine) = zeros (4 * l.length) := by
    intro l
    induction l with
    | nil => rfl
    | cons a l ih =>
      rw [List.flatMap_cons, Readmemh.image_append, ih, List.length_cons, Nat.mul_succ,
        Nat.add_comm, zeros, zeros, List.replicate_add]
      rfl
  exact hwords _

/-- A zero fill of whole words, with the inclusive end the callers pass. -/
theorem image_fill0s {start stop : ℕ} (h : start ≤ stop) (hdvd : 4 ∣ stop + 1 - start) :
    Readmemh.image (fill0s start stop h) = zeros (stop + 1 - start) := by
  obtain ⟨m, hm⟩ := hdvd
  rw [image_fill0s_words, ForLoop.indices, List.length_range']
  congr 1
  omega

theorem fillGap_of_le {address : ℕ} {hex : VerilogHex} (h : address ≤ hex.lastDumpAddr) :
    hex.fillGap address = hex := dif_neg (by omega)

theorem fillGap_lastDumpAddr {address : ℕ} {hex : VerilogHex} (h : hex.lastDumpAddr ≤ address) :
    (hex.fillGap address).lastDumpAddr = address := by
  unfold VerilogHex.fillGap
  split
  · rfl
  · omega

theorem fillGap_image {address : ℕ} {hex : VerilogHex} (h : hex.lastDumpAddr ≤ address)
    (hdvd : 4 ∣ address - hex.lastDumpAddr) :
    (hex.fillGap address).image = hex.image ++ zeros (address - hex.lastDumpAddr) := by
  unfold VerilogHex.fillGap
  split
  · have hs : address - 1 + 1 - hex.lastDumpAddr = address - hex.lastDumpAddr := by omega
    rw [← hs] at hdvd ⊢
    rw [← image_fill0s (by omega) hdvd]
    exact image_write _ _
  · rw [show address - hex.lastDumpAddr = 0 by omega]
    simp [zeros]

@[simp] theorem printPlace_lastDumpAddr (cur : Current) (hex : VerilogHex) :
    (hex.printPlace cur).lastDumpAddr = hex.lastDumpAddr := by
  unfold VerilogHex.printPlace VerilogHex.printSymbol VerilogHex.printSectionName
  split <;> split <;> rfl

theorem printSectionName_image (sec : SectionRef) (hex : VerilogHex) :
    (hex.printSectionName sec).image = hex.image := by
  unfold VerilogHex.printSectionName
  split
  · exact (image_write _ hex).trans (List.append_nil _)
  · rfl

theorem printSymbol_image (si : ℕ) (symbol : String) (hex : VerilogHex) :
    (hex.printSymbol si symbol).image = hex.image := by
  unfold VerilogHex.printSymbol
  split
  · exact (image_write _ hex).trans (List.append_nil _)
  · rfl

@[simp] theorem printPlace_image (cur : Current) (hex : VerilogHex) :
    (hex.printPlace cur).image = hex.image := by
  rw [VerilogHex.printPlace, image_write, printSymbol_image, printSectionName_image]
  exact List.append_nil _

@[simp] theorem image_dumpBytes (bytes : List UInt8) : Readmemh.image (dumpBytes bytes) = bytes := by
  induction bytes with
  | nil => rfl
  | cons b rest ih =>
    cases rest with
    | nil => rfl
    | cons c rest =>
      rw [dumpBytes, Readmemh.image_byte, Readmemh.image_blank, ih]
      simp

/-- The instruction emitter, when it returns: the word was inside the section and was
decoded, its four bytes are written, and `lastDumpAddr` stands behind them. -/
theorem processDisAsmInstruction_ok {host : Host} {cur : Current} {bytes : List UInt8}
    {hex hex' : VerilogHex} (h : processDisAsmInstruction host cur 4 bytes hex = .ok hex') :
    cur.index + 4 ≤ bytes.length ∧ (host.disas (bytes.drop cur.index)).isSome ∧
      hex'.image = (hex.fillGap cur.sec.address).image ++ (bytes.drop cur.index).take 4 ∧
      hex'.lastDumpAddr = cur.sec.address + cur.index + 4 := by
  unfold processDisAsmInstruction slice at h
  by_cases hin : cur.index + 4 ≤ bytes.length
  · simp only [if_pos hin] at h
    cases hd : host.disas (bytes.drop cur.index) with
    | none => rw [hd] at h; cases h
    | some asm =>
      rw [hd] at h
      obtain rfl := Except.ok.inj h
      refine ⟨hin, rfl, ?_, ?_⟩
      · change (VerilogHex.write _ (VerilogHex.write _ _)).image = _
        simp [newline]
      · have hpos : ([] : List UInt8).length < cur.sec.address + cur.index + 4 := Nat.succ_pos _
        dsimp only
        rw [if_pos hpos]
  · simp only [if_neg hin] at h
    cases h

/-- The instruction emitter returns for a decodable word inside the section. -/
theorem processDisAsmInstruction_returns {host : Host} {cur : Current} {bytes : List UInt8}
    (hin : cur.index + 4 ≤ bytes.length) (hd : (host.disas (bytes.drop cur.index)).isSome)
    (hex : VerilogHex) : ∃ hex', processDisAsmInstruction host cur 4 bytes hex = .ok hex' := by
  obtain ⟨asm, ha⟩ := Option.isSome_iff_exists.mp hd
  simp [processDisAsmInstruction, slice, hin, ha]

/-- Looking up a window of a list entry by entry gives the window. -/
theorem flatMap_window {α : Type*} (l : List α) (a n : ℕ) :
    ((List.range n).flatMap fun i => l[a + i]?.toList) = (l.drop a).take n := by
  induction n with
  | zero => rfl
  | succ n ih =>
    rw [List.range_succ, List.flatMap_append, ih, List.take_add_one, List.getElem?_drop,
      List.flatMap_singleton]

/-- Cutting a list into windows of 16 and joining them gives the list back. -/
theorem flatMap_lines {α : Type*} (l : List α) (a : ℕ) :
    ((ForLoop.indices a l.length 16).flatMap fun i => (l.drop i).take 16) = l.drop a := by
  by_cases h : a < l.length
  · rw [ForLoop.indices_of_lt h (by decide), List.flatMap_cons, flatMap_lines l (a + 16),
      ← List.drop_drop, List.take_append_drop]
  · rw [ForLoop.indices_of_le (by omega) (by decide), List.drop_of_length_le (by omega)]
    rfl
termination_by l.length - a

theorem image_hexColumn (contents : List UInt8) (addr : ℕ) :
    Readmemh.image (hexColumn contents addr) = (contents.drop addr).take 16 := by
  rw [hexColumn, Readmemh.image_flatMap, ← flatMap_window]
  congr 1
  funext i
  rw [Readmemh.image_append]
  split <;> cases contents[addr + i]? <;> rfl

theorem asciiColumn_eq (contents : List UInt8) (addr : ℕ) :
    asciiColumn contents addr = ((contents.drop addr).take 16).map asciiChar := by
  rw [asciiColumn, ← flatMap_window, List.map_flatMap]

/-- A data section's text: the contents, padded to whole words. -/
theorem image_dataText (host : Host) (name : String) (contents : List UInt8) :
    Readmemh.image (dataText host name contents) =
      contents ++ zeros (wordCeil contents.length - contents.length) := by
  have hline : ∀ addr, Readmemh.image (dataLine host contents addr) =
      (contents.drop addr).take 16 := by
    intro addr
    simp [dataLine, image_hexColumn, newline]
  have hpad : ∀ l : List ℕ,
      (l.flatMap fun _ => Readmemh.image [Token.byte 0, .blank [' ']]) = zeros l.length := by
    intro l
    induction l with
    | nil => rfl
    | cons a l ih => rw [List.flatMap_cons, ih]; rfl
  have hlines := flatMap_lines contents 0
  rw [List.drop_zero] at hlines
  have hcount : (ForLoop.indices contents.length (wordCeil contents.length) 1).length =
      wordCeil contents.length - contents.length := by
    rw [ForLoop.indices, List.length_range']
    omega
  simp only [dataText, Readmemh.image_append, Readmemh.image_flatMap, hline, hpad, hlines, hcount]
  simp [newline]

/-- The data emitter fills the gap and writes the padded contents. `getName` leaves the
name empty, so the branch for `.bss` and `.sbss` is never taken. -/
theorem processDataSection_eq (host : Host) (sec : SectionRef) (hex : VerilogHex) :
    processDataSection host sec hex = printDataSection host sec (hex.fillGap sec.address) := by
  rw [processDataSection, dif_neg (by simp)]

theorem printDataSection_of_nil {sec : SectionRef} (h : sec.contents = []) (host : Host)
    (hex : VerilogHex) : printDataSection host sec hex = hex := by
  simp [printDataSection, h]

theorem printDataSection_of_ne_nil {sec : SectionRef} (h : sec.contents ≠ []) (host : Host)
    (hex : VerilogHex) :
    printDataSection host sec hex =
      { hex.write (dataText host (getName sec "") sec.contents) with
        lastDumpAddr := sec.address + wordCeil sec.contents.length } := by
  have hlen : ¬sec.contents.length ≤ 0 := by
    have := List.length_pos_of_ne_nil h
    omega
  exact if_neg hlen

theorem printDataSection_image (host : Host) (sec : SectionRef) (hex : VerilogHex) :
    (printDataSection host sec hex).image =
      hex.image ++ (sec.contents ++
        zeros (wordCeil sec.contents.length - sec.contents.length)) := by
  by_cases h : sec.contents = []
  · rw [printDataSection_of_nil h, h]
    exact (List.append_nil _).symm
  · rw [printDataSection_of_ne_nil h, ← image_dataText host (getName sec "")]
    exact image_write _ _

theorem printDataSection_lastDumpAddr (host : Host) (sec : SectionRef) (hex : VerilogHex)
    (h : hex.lastDumpAddr = sec.address) :
    (printDataSection host sec hex).lastDumpAddr = sec.address + wordCeil sec.contents.length := by
  by_cases hc : sec.contents = []
  · rw [printDataSection_of_nil hc, h, hc]
    rfl
  · rw [printDataSection_of_ne_nil hc]

/-! ## What is written stays -/

theorem image_prefix_write (toks : List Readmemh.Token) (hex : VerilogHex) :
    hex.image <+: (hex.write toks).image := by
  rw [image_write]
  exact List.prefix_append _ _

theorem image_prefix_fillGap (address : ℕ) (hex : VerilogHex) :
    hex.image <+: (hex.fillGap address).image := by
  unfold VerilogHex.fillGap
  split
  · exact image_prefix_write _ hex
  · exact List.prefix_rfl

/-- No call takes back what is written, also when it stops the process. -/
theorem image_prefix_call (host : Host) (hex : VerilogHex) (call : Call) :
    hex.image <+: (StopRun.final (hex.call host call)).image := by
  cases call with
  | processDataSection sec =>
    change hex.image <+: (processDataSection host sec hex).image
    rw [processDataSection_eq, printDataSection_image]
    exact (image_prefix_fillGap _ hex).trans (List.prefix_append _ _)
  | processDisAsmInstruction cur size bytes =>
    change hex.image <+: (StopRun.final (processDisAsmInstruction host cur size bytes hex)).image
    have hplace : hex.image <+: ((hex.fillGap cur.sec.address).printPlace cur).image := by
      rw [printPlace_image]
      exact image_prefix_fillGap _ hex
    unfold processDisAsmInstruction
    dsimp only
    cases slice bytes cur.index size with
    | none => exact hplace
    | some word =>
      refine hplace.trans ?_
      cases host.disas (bytes.drop cur.index) with
      | none => exact image_prefix_write _ _
      | some asm => exact (image_prefix_write _ _).trans (image_prefix_write _ _)

theorem image_prefix_run (host : Host) (hex : VerilogHex) (calls : List Call) :
    hex.image <+: (StopRun.final (hex.run host calls)).image :=
  StopRun.run_final (fun u => hex.image <+: u.image)
    (fun call _ u hu => hu.trans (image_prefix_call host u call)) List.prefix_rfl

end Cpu0Toolchain.Elf2Hex
