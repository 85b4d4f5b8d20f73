import Cpu0Toolchain.Elf2Hex.ObjectImage

/-!
# Data sections at any address

`Fill0s` writes whole words and its callers pass the last address of the gap, so that a gap
is filled to its end only where it is a number of words. The padding behind a section runs
into a section that starts within its last word.

## Main result

- `dataLands_iff`: the data sections of an object land at their addresses exactly if all of
  these are word-aligned.
-/

namespace Cpu0Toolchain.Elf2Hex

/-- An object of data sections, in order and behind the boot area. -/
structure DataObject (obj : ObjectFile) : Prop where
  data : ∀ sec ∈ obj.sections, sec.isText = false
  contents : ∀ sec ∈ obj.sections, sec.contents ≠ []
  address : ∀ sec ∈ obj.sections, 0x100 ≤ sec.address
  ascending : obj.sections.Pairwise fun a b => a.address + a.size ≤ b.address

/-- The dump of a section starts at or before its address, fills the gap exactly, writes the
contents and the padding, and the bytes are at their positions in the final image. -/
def DataLands (host : Host) (littleEndian : Bool) (si : ℕ) (obj : ObjectFile) : Prop :=
  ∀ before sec after, obj.sections = before ++ sec :: after →
    ∃ hex hex',
      (VerilogHex.create obj littleEndian si).run host
        (Reader.initial.disassembleSections obj before).2 = .ok hex ∧
      hex.run host (Reader.initial.disassembleSections obj [sec]).2 = .ok hex' ∧
      hex.image.length ≤ sec.address ∧ hex'.image = BlockImage.append 0 hex.image sec.block ∧
      ∀ i < sec.contents.length,
        (StopRun.final (disassembleObject host littleEndian si obj)).image[sec.address + i]? =
          sec.contents[i]?

/-! ## Sections one after the other -/

/-- The dump of data sections. -/
def dumpData (host : Host) (hex : VerilogHex) (secs : List SectionRef) : VerilogHex :=
  secs.foldl (fun hex sec => processDataSection host sec hex) hex

/-- Every section lands where it should when its turn comes. -/
def Lands (host : Host) : VerilogHex → List SectionRef → Prop
  | _, [] => True
  | hex, sec :: rest => hex.image.length ≤ sec.address ∧
    (processDataSection host sec hex).image = BlockImage.append 0 hex.image sec.block ∧
    Lands host (processDataSection host sec hex) rest

section Dump

variable (host : Host)

theorem run_data (hex : VerilogHex) (secs : List SectionRef) :
    hex.run host (secs.map Call.processDataSection) = .ok (dumpData host hex secs) := by
  induction secs generalizing hex with
  | nil => rfl
  | cons sec rest ih => exact (StopRun.run_cons_ok rfl).trans (ih _)

theorem DataObject.calls {obj : ObjectFile} (h : DataObject obj) (reader : Reader)
    {secs : List SectionRef} (hsecs : ∀ sec ∈ secs, sec ∈ obj.sections) :
    (reader.disassembleSections obj secs).2 = secs.map Call.processDataSection := by
  induction secs generalizing reader with
  | nil => rfl
  | cons sec rest ih =>
    obtain ⟨hsec, hrest⟩ := List.forall_mem_cons.mp hsecs
    have hd : sec.dumped = true := by
      have hlen := List.length_pos_of_ne_nil (h.contents sec hsec)
      have hsize := contents_length_le sec
      have haddr := h.address sec hsec
      simp only [SectionRef.dumped, decide_eq_true_eq]
      omega
    show (reader.disassembleSection obj sec).2 ++ _ = _
    rw [disassembleSection_data hd (h.data sec hsec)]
    exact congrArg (Call.processDataSection sec :: ·) (ih reader hrest)

theorem lands_iff_split (hex : VerilogHex) (secs : List SectionRef) :
    Lands host hex secs ↔ ∀ before sec after, secs = before ++ sec :: after →
      (dumpData host hex before).image.length ≤ sec.address ∧
        (processDataSection host sec (dumpData host hex before)).image =
          BlockImage.append 0 (dumpData host hex before).image sec.block := by
  induction secs generalizing hex with
  | nil =>
    refine ⟨fun _ before sec after hsplit => ?_, fun _ => trivial⟩
    exact absurd (congrArg List.length hsplit) (by simp)
  | cons sec rest ih =>
    rw [Lands, ih]
    constructor
    · rintro ⟨hlen, himage, hrest⟩ before sec' after hsplit
      cases before with
      | nil =>
        obtain ⟨rfl, -⟩ := List.cons.inj hsplit
        exact ⟨hlen, himage⟩
      | cons first before =>
        obtain ⟨rfl, rfl⟩ := List.cons.inj hsplit
        exact hrest before sec' after rfl
    · intro h
      obtain ⟨hlen, himage⟩ := h [] sec rest rfl
      refine ⟨hlen, himage, ?_⟩
      rintro before sec' after rfl
      exact h (sec :: before) sec' after rfl

/-- The gap is filled with whole words. -/
theorem fillGap_image_length (address : ℕ) (hex : VerilogHex) :
    ∃ k, (hex.fillGap address).image.length = hex.image.length + 4 * k := by
  unfold VerilogHex.fillGap
  split
  · next h =>
    refine ⟨(ForLoop.indices hex.lastDumpAddr (address - 1) 4).length, ?_⟩
    show (hex.write (fill0s hex.lastDumpAddr (address - 1) (by omega))).image.length = _
    rw [image_write, image_fill0s_words, List.length_append, zeros_length]
  · exact ⟨0, rfl⟩

/-- A section that lands has its address a whole number of words behind the image. -/
theorem address_of_lands {sec : SectionRef} {hex : VerilogHex} (hlen : hex.image.length ≤ sec.address)
    (himage : (processDataSection host sec hex).image = BlockImage.append 0 hex.image sec.block) :
    ∃ k, sec.address = hex.image.length + 4 * k := by
  obtain ⟨k, hk⟩ := fillGap_image_length sec.address hex
  refine ⟨k, ?_⟩
  -- both sides end with the contents and the padding, so that the lengths of the gaps agree
  have hlength := congrArg List.length himage
  have hceil := le_wordCeil sec.contents.length
  have haddr : sec.block.address = sec.address := rfl
  rw [BlockImage.append_length 0 (by rw [haddr]; exact hlen), block_stop, processDataSection_eq,
    printDataSection_image, List.length_append, List.length_append, zeros_length, hk] at hlength
  omega

/-- From an image of whole words on, sections land exactly at aligned addresses. Its last
word may hold the start of the first gap. -/
theorem lands_iff_aligned {hex : VerilogHex} {secs : List SectionRef} (stop : ℕ)
    (hsync : Synced hex) (hwords : 4 ∣ hex.image.length) (hstop : hex.image.length < stop + 4)
    (hsecs : ∀ sec ∈ secs, stop ≤ sec.address ∧ sec.contents.length = sec.size)
    (hascending : secs.Pairwise fun a b => a.address + a.size ≤ b.address) :
    Lands host hex secs ↔ ∀ sec ∈ secs, 4 ∣ sec.address := by
  induction secs generalizing hex stop with
  | nil => exact ⟨fun _ sec hsec => absurd hsec List.not_mem_nil, fun _ => trivial⟩
  | cons sec rest ih =>
    obtain ⟨⟨hfrom, hsize⟩, hrest⟩ := List.forall_mem_cons.mp hsecs
    obtain ⟨hbehind, htail⟩ := List.pairwise_cons.mp hascending
    have hnext : hex.image.length ≤ sec.address → 4 ∣ sec.address →
        (processDataSection host sec hex).image = BlockImage.append 0 hex.image sec.block ∧
        (Lands host (processDataSection host sec hex) rest ↔ ∀ s ∈ rest, 4 ∣ s.address) := by
      intro hlen haligned
      obtain ⟨himage, hsync'⟩ := processDataSection_lays host hsync hlen (Nat.dvd_sub haligned hwords)
      have haddr : sec.block.address = sec.address := rfl
      have hend : (processDataSection host sec hex).image.length =
          sec.address + wordCeil sec.contents.length := by
        rw [himage, BlockImage.append_length 0 (by rw [haddr]; exact hlen), block_stop]
      refine ⟨himage, ih (sec.address + sec.size) hsync' ?_ ?_ ?_ htail⟩
      · rw [hend]
        exact Nat.dvd_add haligned (dvd_wordCeil _)
      · rw [hend, hsize, wordCeil]
        omega
      · exact fun s hs => ⟨hbehind s hs, (hrest s hs).2⟩
    rw [Lands, List.forall_mem_cons]
    constructor
    · -- the image is a number of words long, and so is the gap
      rintro ⟨hlen, himage, hlands⟩
      obtain ⟨k, hk⟩ := address_of_lands host hlen himage
      have haligned : 4 ∣ sec.address := by omega
      exact ⟨haligned, (hnext hlen haligned).2.mp hlands⟩
    · -- the padding ends at a word boundary, less than a word behind the last section
      rintro ⟨haligned, hall⟩
      have hlen : hex.image.length ≤ sec.address := by omega
      obtain ⟨himage, hiff⟩ := hnext hlen haligned
      exact ⟨hlen, himage, hiff.mpr hall⟩

end Dump

/-! ## The object -/

section Object

variable (host : Host) (littleEndian : Bool) (si : ℕ) {obj : ObjectFile} (h : DataObject obj)
include h

theorem DataObject.disassembleObject_eq :
    disassembleObject host littleEndian si obj =
      .ok (dumpData host (VerilogHex.create obj littleEndian si) obj.sections) := by
  rw [disassembleObject, h.calls Reader.initial fun _ hs => hs]
  exact run_data host _ _

/-- A section that lands keeps its bytes through the sections behind it. -/
theorem DataObject.final_cell {before after : List SectionRef} {sec : SectionRef}
    (hsplit : obj.sections = before ++ sec :: after) {hex : VerilogHex}
    (hex_eq : dumpData host (VerilogHex.create obj littleEndian si) before = hex)
    (hlen : hex.image.length ≤ sec.address)
    (himage : (processDataSection host sec hex).image = BlockImage.append 0 hex.image sec.block)
    {i : ℕ} (hi : i < sec.contents.length) :
    (StopRun.final (disassembleObject host littleEndian si obj)).image[sec.address + i]? =
      sec.contents[i]? := by
  have hfinal : StopRun.final (disassembleObject host littleEndian si obj) =
      dumpData host (processDataSection host sec hex) after := by
    rw [h.disassembleObject_eq, hsplit, dumpData, List.foldl_append, ← hex_eq]
    rfl
  obtain ⟨tail, htail⟩ := image_prefix_run host (processDataSection host sec hex)
    (after.map Call.processDataSection)
  rw [run_data, StopRun.final] at htail
  have hin : sec.address + i < (processDataSection host sec hex).image.length := by
    rw [himage, BlockImage.append_length 0 hlen, block_stop]
    have hceil := le_wordCeil sec.contents.length
    omega
  rw [hfinal, ← htail, List.getElem?_append_left hin, himage]
  exact BlockImage.append_cell 0 (b := sec.block) hlen hi

theorem DataObject.dataLands_iff_lands :
    DataLands host littleEndian si obj ↔
      Lands host (VerilogHex.create obj littleEndian si) obj.sections := by
  have hcalls : ∀ before sec after, obj.sections = before ++ sec :: after →
      (Reader.initial.disassembleSections obj before).2 = before.map Call.processDataSection ∧
      (Reader.initial.disassembleSections obj [sec]).2 = [sec].map Call.processDataSection := by
    intro before sec after hsplit
    refine ⟨h.calls _ fun s hs => ?_, h.calls _ fun s hs => ?_⟩
    · exact hsplit ▸ List.mem_append_left _ hs
    · exact hsplit ▸ List.mem_append_right _ (List.mem_singleton.mp hs ▸ List.mem_cons_self)
  rw [lands_iff_split]
  constructor
  · intro hlands before sec after hsplit
    obtain ⟨hex, hex', hrun, hrun', hlen, himage, -⟩ := hlands before sec after hsplit
    obtain ⟨hbefore, hone⟩ := hcalls before sec after hsplit
    rw [hbefore, run_data] at hrun
    rw [hone, run_data] at hrun'
    obtain rfl := Except.ok.inj hrun
    obtain rfl := Except.ok.inj hrun'
    exact ⟨hlen, himage⟩
  · intro hlands before sec after hsplit
    obtain ⟨hlen, himage⟩ := hlands before sec after hsplit
    obtain ⟨hbefore, hone⟩ := hcalls before sec after hsplit
    exact ⟨_, _, hbefore ▸ run_data host _ before, hone ▸ run_data host _ [sec], hlen, himage,
      fun i hi => h.final_cell host littleEndian si hsplit rfl hlen himage hi⟩

theorem DataObject.lands_iff :
    Lands host (VerilogHex.create obj littleEndian si) obj.sections ↔
      ∀ sec ∈ obj.sections, 4 ∣ sec.address := by
  have hlength := create_length obj littleEndian si
  refine lands_iff_aligned host 0x100 ?_ ?_ ?_ ?_ h.ascending
  · exact hlength.symm
  · rw [hlength]
    decide
  · rw [hlength]
    decide
  · intro sec hsec
    refine ⟨h.address sec hsec, ?_⟩
    have hlen := sec.contents_length
    split at hlen
    · exact absurd (List.length_eq_zero_iff.mp hlen) (h.contents sec hsec)
    · exact hlen

/-- The data sections of an object land at their addresses exactly if these are word-aligned. -/
theorem dataLands_iff :
    DataLands host littleEndian si obj ↔ ∀ sec ∈ obj.sections, 4 ∣ sec.address := by
  rw [h.dataLands_iff_lands, h.lands_iff]

end Object

/-- A string section somewhere behind six bytes of data. -/
def stringObject (address : ℕ) (haddress : address < 2 ^ 32) : ObjectFile where
  sections := [
    { index := 1, name := ".data", address := 0x120, size := 6, kind := .data,
      contents := [1, 2, 3, 4, 5, 6],
      address_lt := by decide, size_lt := by decide, contents_length := by decide },
    { index := 2, name := ".rodata.str1.1", address := address, size := 3, kind := .data,
      contents := [0x68, 0x69, 0],
      address_lt := haddress, size_lt := by decide, contents_length := by decide }]
  symbols := []

theorem stringObject_data {address : ℕ} (haddress : address < 2 ^ 32) (h : 0x126 ≤ address) :
    DataObject (stringObject address haddress) where
  data := by simp [stringObject, SectionRef.isText]
  contents := by simp [stringObject]
  address := by
    simp only [stringObject, List.forall_mem_cons]
    exact ⟨by decide, by omega, fun _ hs => absurd hs List.not_mem_nil⟩
  ascending := by simpa [stringObject] using h

/-- At an even address the gap of two bytes is filled with four. -/
theorem stringObject_misplaced :
    ¬∀ (host : Host) (littleEndian : Bool) (si : ℕ) (obj : ObjectFile), DataObject obj →
      DataLands host littleEndian si obj := by
  intro h
  have hobj : DataObject (stringObject 0x12a (by decide)) := stringObject_data _ (by decide)
  have hlands := (hobj.dataLands_iff_lands refusingHost false 0).mp (h refusingHost false 0 _ hobj)
  have haligned := (hobj.lands_iff refusingHost false 0).mp hlands
  exact absurd (haligned _ (List.mem_cons_of_mem _ List.mem_cons_self)) (by decide)

theorem stringObject_lands : DataLands refusingHost false 0 (stringObject 0x12c (by decide)) :=
  (dataLands_iff refusingHost false 0 (stringObject_data (by decide) (by decide))).mpr
    (by simp [stringObject])

end Cpu0Toolchain.Elf2Hex
