import Cpu0Toolchain.Elf2Hex.ObjectImage

/-!
# Sections without contents

`ProcessDataSection` means to fill `.bss` and `.sbss` with zeros, but asks for a name
that `getName` never sets and for contents that are never read. A section without
contents is therefore not written at all, and its space is zero in the image only
where the boot area is already zero.
-/

namespace Cpu0Toolchain.Elf2Hex

/-- The section is skipped, or what comes before it in the dump ends before it. -/
structure BssPlace (obj : ObjectFile) (secs : List SectionRef) (sec : SectionRef)
    (later : List SectionRef) : Prop where
  split : obj.sections = secs ++ sec :: later
  named : sec.name = ".bss" ∨ sec.name = ".sbss"
  nobits : sec.kind = .nobits
  nonempty : 0 < sec.size
  aligned : ∀ s ∈ secs.filter SectionRef.dumped ++ sec :: later.filter SectionRef.dumped,
    4 ∣ s.address
  ascending : (secs.filter SectionRef.dumped ++ sec :: later.filter SectionRef.dumped).Pairwise
    fun a b => a.address + a.size ≤ b.address

/-- After the section `lastDumpAddr` is its padded end, and what the process has written
when it ends holds zeros in all of its space. -/
def WritesZeros (host : Host) (littleEndian : Bool) (si : ℕ) (obj : ObjectFile)
    (secs : List SectionRef) (sec : SectionRef) : Prop :=
  (∃ hex, (VerilogHex.create obj littleEndian si).run host
      (Reader.initial.disassembleSections obj (secs ++ [sec])).2 = .ok hex ∧
    hex.lastDumpAddr = sec.address + wordCeil sec.size) ∧
  ∀ k, sec.address ≤ k → k < sec.address + wordCeil sec.size →
    (StopRun.final (disassembleObject host littleEndian si obj)).image[k]? = some 0

/-! ## How far the dump gets -/

/-- A call on a section that ends before an address keeps `lastDumpAddr` before it. -/
theorem call_lastDumpAddr_le {host : Host} {hex hex' : VerilogHex} {call : Call} {stop : ℕ}
    (hcall : call = .processDataSection call.sec ∨
      ∃ cur, call = textCall call.sec cur ∧ cur.sec = call.sec)
    (hstop : call.sec.address + wordCeil call.sec.size ≤ stop) (hle : hex.lastDumpAddr ≤ stop)
    (h : hex.call host call = .ok hex') : hex'.lastDumpAddr ≤ stop := by
  have hlen := contents_length_le call.sec
  have hceil := le_wordCeil call.sec.size
  rcases hcall with hcall | ⟨cur, hcall, hsec⟩
  · rw [hcall] at h
    obtain rfl := Except.ok.inj h
    rw [processDataSection_eq]
    have hgap : (hex.fillGap call.sec.address).lastDumpAddr ≤ stop := by
      unfold VerilogHex.fillGap
      split
      · exact (Nat.le_add_right _ _).trans hstop
      · exact hle
    by_cases hc : call.sec.contents = []
    · rwa [printDataSection_of_nil hc]
    · rw [printDataSection_of_ne_nil hc]
      have hmono : wordCeil call.sec.contents.length ≤ wordCeil call.sec.size := by
        unfold wordCeil
        omega
      exact (Nat.add_le_add_left hmono _).trans hstop
  · rw [hcall] at h
    obtain ⟨hin, -, -, hlast⟩ := processDisAsmInstruction_ok h
    rw [hlast, hsec]
    omega

/-- Whatever the symbols are, the dump of the sections before a place ends before it. -/
theorem sections_lastDumpAddr_le {host : Host} {obj : ObjectFile} {reader : Reader}
    {secs : List SectionRef} {hex hex' : VerilogHex} {stop : ℕ}
    (hsecs : ∀ s ∈ secs.filter SectionRef.dumped, s.address + wordCeil s.size ≤ stop)
    (hle : hex.lastDumpAddr ≤ stop)
    (hrun : hex.run host (reader.disassembleSections obj secs).2 = .ok hex') :
    hex'.lastDumpAddr ≤ stop := by
  refine StopRun.run_invariant (fun u => u.lastDumpAddr ≤ stop) ?_ hle hrun
  intro call hmem u v hu huv
  obtain ⟨hcall, hsec⟩ := disassembleSections_calls hmem
  exact call_lastDumpAddr_le hcall (hsecs _ hsec) hu huv

theorem disassembleSections_skipped {obj : ObjectFile} {reader : Reader} {secs : List SectionRef}
    (h : secs.filter SectionRef.dumped = []) : reader.disassembleSections obj secs = (reader, []) := by
  induction secs with
  | nil => rfl
  | cons sec secs ih =>
    have hd := List.filter_eq_nil_iff.mp h
    have hskip : reader.disassembleSection obj sec = (reader, []) :=
      disassembleSection_skipped (Bool.eq_false_iff.mpr (hd sec List.mem_cons_self))
    rw [Reader.disassembleSections, hskip]
    dsimp only
    rw [ih (List.filter_eq_nil_iff.mpr fun s hs => hd s (List.mem_cons_of_mem _ hs))]
    rfl

/-! ## The section itself -/

theorem nobits_contents {sec : SectionRef} (h : sec.kind = .nobits) : sec.contents = [] := by
  have hlen := sec.contents_length
  rw [h, if_pos rfl] at hlen
  exact List.length_eq_zero_iff.mp hlen

theorem wordCeil_pos {n : ℕ} (h : 0 < n) : 0 < wordCeil n := h.trans_le (le_wordCeil n)

/-- A dumped section without contents leaves `lastDumpAddr` at its start. -/
theorem nobits_lastDumpAddr {host : Host} {sec : SectionRef} (h : sec.kind = .nobits)
    {hex : VerilogHex} (hle : hex.lastDumpAddr ≤ sec.address) :
    (processDataSection host sec hex).lastDumpAddr = sec.address := by
  rw [processDataSection_eq, printDataSection_of_nil (nobits_contents h)]
  exact fillGap_lastDumpAddr hle

section Place

variable {host : Host} {littleEndian : Bool} {si : ℕ} {obj : ObjectFile}
  {secs later : List SectionRef} {sec : SectionRef}

theorem BssPlace.before (h : BssPlace obj secs sec later) :
    ∀ s ∈ secs.filter SectionRef.dumped, s.address + wordCeil s.size ≤ sec.address := by
  intro s hs
  have hasc := (List.pairwise_append.mp h.ascending).2.2 s hs sec List.mem_cons_self
  exact add_wordCeil_le (h.aligned s (List.mem_append_left _ hs))
    (h.aligned sec (List.mem_append_right _ List.mem_cons_self)) hasc

/-- Where a section without contents is dumped, the dump stands at its start behind it. -/
theorem BssPlace.dumped_last (h : BssPlace obj secs sec later) (hd : sec.dumped = true)
    {hex : VerilogHex}
    (hrun : (VerilogHex.create obj littleEndian si).run host
      (Reader.initial.disassembleSections obj (secs ++ [sec])).2 = .ok hex) :
    hex.lastDumpAddr = sec.address := by
  have ht : sec.isText = false := by simp [SectionRef.isText, h.nobits]
  have haddr : 0x100 ≤ sec.address := by
    simp only [SectionRef.dumped, decide_eq_true_eq] at hd
    exact hd.2
  rw [disassembleSections_append] at hrun
  obtain ⟨mid, hmid, hlast⟩ := StopRun.run_append_inv hrun
  have hle := sections_lastDumpAddr_le h.before (show 0x100 ≤ sec.address from haddr) hmid
  rw [Reader.disassembleSections, disassembleSection_data hd ht] at hlast
  obtain ⟨hex', hcall, hnil⟩ := StopRun.run_cons_inv hlast
  obtain rfl := Except.ok.inj hnil
  obtain rfl := Except.ok.inj hcall
  exact nobits_lastDumpAddr h.nobits hle

/-- In front of a skipped section nothing is dumped. -/
theorem BssPlace.skipped_before (h : BssPlace obj secs sec later) (hlow : sec.address < 0x100) :
    (secs ++ [sec]).filter SectionRef.dumped = [] := by
  apply List.filter_eq_nil_iff.mpr
  intro s hs hd
  simp only [SectionRef.dumped, decide_eq_true_eq] at hd
  rcases List.mem_append.mp hs with hs | hs
  · have := h.before s (List.mem_filter.mpr ⟨hs, by simpa [SectionRef.dumped] using hd⟩)
    omega
  · obtain rfl := List.mem_singleton.mp hs
    omega

end Place

/-- Every jump word of the boot block holds an opcode, so none of them is zero. -/
theorem bootBlock_word_ne_zero (littleEndian : Bool) (textOffset isrAddr : ℕ) {a : ℕ}
    (h4 : 4 ∣ a) (ha : a < bootSize) :
    ∃ i < 4, (bootBlock littleEndian textOffset isrAddr)[a + i]? = some 0x36 := by
  have hword : ∀ n, ∃ b₁ b₂ b₃, jumpWord littleEndian n =
      if littleEndian then [b₃, b₂, b₁, 0x36] else [0x36, b₁, b₂, b₃] := by
    intro n
    rw [jumpWord_eq]
    cases littleEndian
    · exact ⟨_, _, _, rfl⟩
    · exact ⟨_, _, _, rfl⟩
  obtain ⟨a₁, a₂, a₃, h₀⟩ := hword (sub64 textOffset 4)
  obtain ⟨b₁, b₂, b₃, h₁⟩ := hword 4
  obtain ⟨c₁, c₂, c₃, h₂⟩ := hword (sub64 (sub64 isrAddr 8) 4)
  obtain ⟨d₁, d₂, d₃, h₃⟩ := hword (sub64 0 4)
  rw [bootBlock, h₀, h₁, h₂, h₃]
  obtain ⟨m, rfl⟩ := h4
  have hm : m = 0 ∨ m = 1 ∨ m = 2 ∨ m = 3 := by
    rw [bootSize] at ha
    omega
  cases littleEndian
  · refine ⟨0, by decide, ?_⟩
    rcases hm with rfl | rfl | rfl | rfl <;> rfl
  · refine ⟨3, by decide, ?_⟩
    rcases hm with rfl | rfl | rfl | rfl <;> rfl

/-- The image starts with what `VerilogHex` writes when it is built. -/
theorem image_below (host : Host) (littleEndian : Bool) (si : ℕ) (obj : ObjectFile) {k : ℕ}
    (hk : k < 0x100) :
    (StopRun.final (disassembleObject host littleEndian si obj)).image[k]? =
      (objectBoot littleEndian obj ++ zeros 0xf0)[k]? := by
  obtain ⟨rest, himage⟩ := image_prefix_run host (VerilogHex.create obj littleEndian si)
    (Reader.initial.disassembleSections obj obj.sections).2
  rw [disassembleObject, ← himage, List.getElem?_append_left, create_image]
  rw [create_length]
  exact hk

/-- Below 0x100 the section and all before it are skipped, and the dump stays where it is. -/
theorem BssPlace.skipped_last {host : Host} {littleEndian : Bool} {si : ℕ} {obj : ObjectFile}
    {secs later : List SectionRef} {sec : SectionRef} (h : BssPlace obj secs sec later)
    (hlow : sec.address < 0x100) :
    (∃ hex, (VerilogHex.create obj littleEndian si).run host
        (Reader.initial.disassembleSections obj (secs ++ [sec])).2 = .ok hex ∧
      hex.lastDumpAddr = sec.address + wordCeil sec.size) ↔
      sec.address + wordCeil sec.size = 0x100 := by
  have hskip : Reader.initial.disassembleSections obj (secs ++ [sec]) = (Reader.initial, []) :=
    disassembleSections_skipped (h.skipped_before hlow)
  rw [hskip]
  constructor
  · rintro ⟨hex, hrun, hlast⟩
    obtain rfl := Except.ok.inj hrun
    exact hlast.symm
  · intro hend
    exact ⟨_, rfl, hend.symm⟩

/-- The space of a `.bss` or `.sbss` section is written as zeros, with `lastDumpAddr` behind
it, exactly when it is the end of the zeros behind the boot block. -/
theorem writesZeros_iff (host : Host) (littleEndian : Bool) (si : ℕ) {obj : ObjectFile}
    {secs later : List SectionRef} {sec : SectionRef} (h : BssPlace obj secs sec later) :
    WritesZeros host littleEndian si obj secs sec ↔
      bootSize ≤ sec.address ∧ sec.address + wordCeil sec.size = 0x100 := by
  have hpos := wordCeil_pos h.nonempty
  by_cases hd : sec.dumped = true
  · -- the section is processed, and the dump stands at its start behind it
    have haddr : 0x100 ≤ sec.address := by
      simp only [SectionRef.dumped, decide_eq_true_eq] at hd
      exact hd.2
    refine iff_of_false ?_ (by omega)
    rintro ⟨⟨hex, hrun, hlast⟩, -⟩
    have := h.dumped_last hd hrun
    omega
  · -- the section is skipped, and so is all before it
    have hlow : sec.address < 0x100 := by
      have hn := h.nonempty
      simp only [SectionRef.dumped, decide_eq_true_eq] at hd
      omega
    have hboot : (objectBoot littleEndian obj).length = bootSize := bootBlock_length _ _ _
    have h4 := h.aligned sec (List.mem_append_right _ List.mem_cons_self)
    rw [WritesZeros, h.skipped_last hlow]
    constructor
    · rintro ⟨hend, hzero⟩
      refine ⟨?_, hend⟩
      by_contra hlt
      obtain ⟨i, hi, hword⟩ := bootBlock_word_ne_zero littleEndian (sectionOffset obj ".text")
        (getSymbolAddress obj "ISR") h4 (Nat.lt_of_not_le hlt)
      have hceil := Nat.le_of_dvd hpos (dvd_wordCeil sec.size)
      have hk := hzero (sec.address + i) (by omega) (by omega)
      have hin : (objectBoot littleEndian obj)[sec.address + i]? = some 0x36 := hword
      rw [image_below _ _ _ _ (by omega), List.getElem?_append_left (List.getElem?_eq_some_iff.mp hin).1,
        hin] at hk
      revert hk
      decide
    · rintro ⟨hstart, hend⟩
      refine ⟨hend, ?_⟩
      intro k hlow hhigh
      rw [image_below _ _ _ _ (by omega), List.getElem?_append_right (by omega), zeros,
        List.getElem?_replicate, if_pos (by rw [hboot, bootSize]; omega)]

/-- A `.bss` section that ends at 0x100, right behind the boot block, is there. -/
def lowBssObject : ObjectFile where
  sections := [
    { index := 1, name := ".bss", address := 0xf0, size := 14, kind := .nobits, contents := [],
      address_lt := by decide, size_lt := by decide, contents_length := by decide }]
  symbols := []

theorem lowBss_writesZeros :
    WritesZeros refusingHost true 0 lowBssObject [] (lowBssObject.sections.get ⟨0, by decide⟩) :=
  (writesZeros_iff refusingHost true 0
    (show BssPlace lowBssObject [] _ [] from
      ⟨rfl, Or.inl rfl, rfl, by decide, by decide, by decide⟩)).mpr (by decide)

/-- A `.bss` section behind nothing and before nothing. -/
def lastBssObject : ObjectFile where
  sections := [
    { index := 1, name := ".bss", address := 0x200, size := 12, kind := .nobits, contents := [],
      address_lt := by decide, size_lt := by decide, contents_length := by decide }]
  symbols := []

/-- The gap before it is filled, and its own bytes are missing. -/
theorem last_bss_missing :
    ¬∀ (host : Host) (littleEndian : Bool) (si : ℕ) (obj : ObjectFile)
      (secs later : List SectionRef) (sec : SectionRef), BssPlace obj secs sec later →
      WritesZeros host littleEndian si obj secs sec := by
  intro h
  obtain ⟨⟨hex, hrun, hlast⟩, -⟩ := h refusingHost true 0 lastBssObject [] []
    (lastBssObject.sections.get ⟨0, by decide⟩)
    ⟨rfl, Or.inl rfl, rfl, by decide, by decide, by decide⟩
  obtain rfl := Except.ok.inj hrun
  revert hlast
  decide

end Cpu0Toolchain.Elf2Hex
