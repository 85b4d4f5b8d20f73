import Cpu0Toolchain.Elf2Hex.Image

/-!
# The image of a whole object

`DisassembleObject` lays the sections of an object behind the boot block one by one.
For objects whose sections come in order the image holds every byte at its address,
provided LLVM decodes every instruction word: the first word it rejects ends the
process with the rest of the image unwritten.
-/

namespace Cpu0Toolchain.Elf2Hex
open ForLoop (indices)

def dumpedSections (obj : ObjectFile) : List SectionRef := obj.sections.filter SectionRef.dumped

/-- What belongs at position `k`: a boot byte, the byte of the section that has contents
there, or zero. -/
def imageByte (littleEndian : Bool) (obj : ObjectFile) (k : ℕ) : UInt8 :=
  if k < bootSize then (objectBoot littleEndian obj).getD k 0
  else
    match (dumpedSections obj).find? fun sec =>
      sec.address ≤ k ∧ k < sec.address + sec.contents.length with
    | some sec => sec.contents.getD (k - sec.address) 0
    | none => 0

/-- The end of the image: the padded end of the last section, where a section without
contents ends at its address. -/
def imageEnd (obj : ObjectFile) : ℕ :=
  match (dumpedSections obj).getLast? with
  | some sec => sec.address + wordCeil sec.contents.length
  | none => 0x100

/-- The dumped sections come in the order of their addresses, on whole words and without an overlap.
At most one is executable; it has whole words only, and its symbols stand on them. -/
structure WellLaid (obj : ObjectFile) : Prop where
  aligned : ∀ sec ∈ dumpedSections obj, 4 ∣ sec.address
  ascending : (dumpedSections obj).Pairwise fun a b => a.address + a.size ≤ b.address
  one_text : ((dumpedSections obj).filter SectionRef.isText).length ≤ 1
  text_words : ∀ sec ∈ dumpedSections obj, sec.isText → 4 ∣ sec.size
  text_symbols : ∀ sec ∈ dumpedSections obj, sec.isText → AlignedSymbols (sectionSymbols obj sec)

/-- The disassembler accepts every word of a section. -/
def SectionDecodes (host : Host) (sec : SectionRef) : Prop :=
  ∀ i, 4 * i < sec.size → (host.disas (sec.contents.drop (4 * i))).isSome

/-- The disassembler accepts every word of every executable section. -/
def Decodes (host : Host) (obj : ObjectFile) : Prop :=
  ∀ sec ∈ dumpedSections obj, sec.isText → SectionDecodes host sec

/-- `DisassembleObject` returns, the image holds at every position what belongs there,
up to its end, and after every call `lastDumpAddr` is the number of bytes written. -/
def WritesImage (host : Host) (littleEndian : Bool) (si : ℕ) (obj : ObjectFile) : Prop :=
  ∃ hex, disassembleObject host littleEndian si obj = .ok hex ∧
    hex.image.length = imageEnd obj ∧
    (∀ k, k < hex.image.length → hex.image[k]? = some (imageByte littleEndian obj k)) ∧
    StopRun.Always (VerilogHex.call host) Synced (VerilogHex.create obj littleEndian si)
      (Reader.initial.disassembleSections obj obj.sections).2

/-! ## Section by section -/

/-- What is left of an object's sections, with the reader that comes to them, when the
image so far ends before all of them and only one of them can still be executable. -/
structure Ahead (obj : ObjectFile) (reader : Reader) (n : ℕ) (secs : List SectionRef) : Prop where
  fits : BlockImage.Fits n ((secs.filter SectionRef.dumped).map SectionRef.block)
  here : 4 ∣ n
  aligned : ∀ sec ∈ secs, sec.dumped → 4 ∣ sec.address
  words : ∀ sec ∈ secs, sec.dumped → sec.isText → 4 ∣ sec.size
  symbols : ∀ sec ∈ secs, sec.dumped → sec.isText → AlignedSymbols (sectionSymbols obj sec)
  fresh : reader.symbols = [] ∧ (secs.filter fun sec => sec.dumped && sec.isText).length ≤ 1 ∨
    secs.filter (fun sec => sec.dumped && sec.isText) = []

theorem Ahead.skip {obj : ObjectFile} {reader : Reader} {n : ℕ} {sec : SectionRef}
    {secs : List SectionRef} (h : Ahead obj reader n (sec :: secs)) (hd : sec.dumped = false) :
    Ahead obj reader n secs := by
  have hfits := h.fits
  have hfresh := h.fresh
  simp only [List.filter_cons, hd, Bool.false_and, Bool.false_eq_true, if_false] at hfits hfresh
  exact ⟨hfits, h.here, fun s hs => h.aligned s (List.mem_cons_of_mem _ hs),
    fun s hs => h.words s (List.mem_cons_of_mem _ hs),
    fun s hs => h.symbols s (List.mem_cons_of_mem _ hs), hfresh⟩

theorem text_contents_length {sec : SectionRef} (ht : sec.isText) :
    sec.contents.length = sec.size := by
  have hk : sec.kind = .text := by simpa [SectionRef.isText] using ht
  have := sec.contents_length
  rw [hk] at this
  simpa using this

section Objects

variable {host : Host} {obj : ObjectFile} {reader : Reader} {sec : SectionRef}
  {secs : List SectionRef} {hex : VerilogHex}

theorem Ahead.fits_dumped {n : ℕ} (h : Ahead obj reader n (sec :: secs)) (hd : sec.dumped = true) :
    BlockImage.Fits n (sec.block :: (secs.filter SectionRef.dumped).map SectionRef.block) := by
  have hfits := h.fits
  rwa [List.filter_cons, if_pos hd, List.map_cons] at hfits

/-- The gap before a dumped section, once filled, ends at the section. -/
theorem Ahead.filled_length (h : Ahead obj reader hex.image.length (sec :: secs))
    (hd : sec.dumped = true) :
    (hex.image ++ zeros (sec.address - hex.image.length)).length = sec.address := by
  rw [List.length_append, zeros_length]
  exact Nat.add_sub_of_le (h.fits_dumped hd).1

/-- Behind a dumped section the rest is still ahead. -/
theorem Ahead.dump (h : Ahead obj reader hex.image.length (sec :: secs)) (hd : sec.dumped = true) :
    Ahead obj (reader.disassembleSection obj sec).1
      (BlockImage.append 0 hex.image sec.block).length secs := by
  have hfits := h.fits_dumped hd
  have hstop := BlockImage.append_length (0 : UInt8) hfits.1
  refine ⟨by rw [hstop]; exact hfits.2, ?_, fun s hs => h.aligned s (List.mem_cons_of_mem _ hs),
    fun s hs => h.words s (List.mem_cons_of_mem _ hs),
    fun s hs => h.symbols s (List.mem_cons_of_mem _ hs), ?_⟩
  · rw [hstop, block_stop]
    exact Nat.dvd_add (h.aligned sec List.mem_cons_self hd) (dvd_wordCeil _)
  · have hfresh := h.fresh
    cases ht : sec.isText with
    | false =>
      rw [disassembleSection_data hd ht]
      simpa only [List.filter_cons, hd, ht, Bool.and_false, Bool.false_eq_true, if_false]
        using hfresh
    | true =>
      apply Or.inr
      simp only [List.filter_cons, hd, ht, Bool.and_true, if_true] at hfresh
      rcases hfresh with ⟨-, hone⟩ | hnone
      · rw [List.length_cons] at hone
        exact List.eq_nil_of_length_eq_zero (by omega)
      · cases hnone

/-- A data section is laid by its one call. -/
theorem data_lays (host : Host) (h : Ahead obj reader hex.image.length (sec :: secs)) (hd : sec.dumped = true)
    (ht : sec.isText = false) (hsync : Synced hex) :
    ∃ hex', hex.run host (reader.disassembleSection obj sec).2 = .ok hex' ∧
      hex'.image = BlockImage.append 0 hex.image sec.block ∧ Synced hex' := by
  have hlays := processDataSection_lays host hsync (h.fits_dumped hd).1
    (Nat.dvd_sub (h.aligned sec List.mem_cons_self hd) h.here)
  rw [disassembleSection_data hd ht]
  exact ⟨_, rfl, hlays.1, hlays.2⟩

/-- The instruction loop of an executable section visits its words in order, with the
gap before the section still to be filled. -/
theorem text_starts (h : Ahead obj reader hex.image.length (sec :: secs)) (hd : sec.dumped = true)
    (ht : sec.isText = true) (hsync : Synced hex) :
    ∃ (curs : List Current) (n : ℕ), (reader.disassembleSection obj sec).2 = curs.map (textCall sec) ∧
      sec.size = 4 * n ∧ 0 < n ∧ (∀ cur ∈ curs, cur.sec = sec) ∧
      curs.map Current.index = indices 0 (4 * n) 4 ∧
      AtWord sec (hex.image ++ zeros (sec.address - hex.image.length)) 0 hex := by
  have hle : hex.image.length ≤ sec.address := (h.fits_dumped hd).1
  have hgap := fillGap_image_synced hsync hle
    (Nat.dvd_sub (h.aligned sec List.mem_cons_self hd) h.here)
  obtain ⟨n, hn⟩ := h.words sec List.mem_cons_self hd ht
  have hpos : 0 < sec.size := by
    simp only [SectionRef.dumped, decide_eq_true_eq] at hd
    omega
  have hfresh : reader.symbols = [] := by
    rcases h.fresh with ⟨hnil, -⟩ | hnone
    · exact hnil
    · simp [hd, ht] at hnone
  have hword := ownSymbols_word hpos (h.symbols sec List.mem_cons_self hd ht)
  refine ⟨symbolLoop sec 0 (ownSymbols obj sec), n, ?_, hn, by omega,
    fun cur hcur => symbolLoop_sec hcur, ?_, ⟨?_, ?_⟩⟩
  · rw [disassembleSection_text hd ht, loadSymbols_initial obj sec hfresh]
  · rw [← hn]
    exact hword.loop_index (h.words sec List.mem_cons_self hd ht) 0
  · rw [hgap]
    exact (List.append_nil _).symm
  · exact fillGap_lastDumpAddr (hsync.trans_le hle)

/-- An executable section whose instruction loop runs through is laid, and decodes. -/
theorem text_lays (h : Ahead obj reader hex.image.length (sec :: secs)) (hd : sec.dumped = true)
    (ht : sec.isText = true) (hsync : Synced hex) {hex' : VerilogHex}
    (hrun : hex.run host (reader.disassembleSection obj sec).2 = .ok hex') :
    hex'.image = BlockImage.append 0 hex.image sec.block ∧ Synced hex' ∧
      SectionDecodes host sec := by
  obtain ⟨curs, n, hcalls, hn, hpos, hsec, hindex, hat⟩ := text_starts h hd ht hsync
  have hlen : sec.contents.length = 4 * n := (text_contents_length ht).trans hn
  rw [hcalls] at hrun
  have hend := text_run hsec hindex (Nat.zero_le n) hat hrun
  refine ⟨?_, hend.synced (h.filled_length hd) (hend.fixed hpos) hlen.ge, ?_⟩
  · have himage := hend.image
    have htail : wordCeil sec.contents.length - sec.contents.length = 0 := by
      rw [wordCeil_of_dvd ⟨n, hlen⟩, Nat.sub_self]
    rw [hend.fixed hpos, List.take_of_length_le hlen.le] at himage
    rw [himage, BlockImage.append]
    simp only [SectionRef.block, htail, List.replicate_zero, List.append_nil]
    exact List.append_assoc _ _ _
  · intro i hi
    have hmem : 4 * i ∈ curs.map Current.index := by
      rw [hindex]
      exact (ForLoop.mem_indices (by decide)).mpr ⟨by omega, i, (Nat.zero_add _).symm⟩
    obtain ⟨cur, hcur, hci⟩ := List.mem_map.mp hmem
    obtain ⟨u, v, huv⟩ := StopRun.run_ok_mem hrun (List.mem_map_of_mem hcur)
    have hdec := (processDisAsmInstruction_ok huv).2.1
    rwa [hci] at hdec

/-- One dumped section keeps `lastDumpAddr` right after each of its calls. -/
theorem section_always (h : Ahead obj reader hex.image.length (sec :: secs))
    (hd : sec.dumped = true) (hsync : Synced hex) :
    StopRun.Always (VerilogHex.call host) Synced hex (reader.disassembleSection obj sec).2 := by
  cases ht : sec.isText with
  | false =>
    obtain ⟨hex', hrun, -, hsync'⟩ := data_lays host h hd ht hsync
    rw [disassembleSection_data hd ht] at hrun ⊢
    refine StopRun.always_cons hsync fun t htrun => StopRun.always_nil ?_
    have heq : t = hex' := by
      have hsame : Except.ok t = Except.ok hex' := (StopRun.run_cons_ok htrun).symm.trans hrun
      exact Except.ok.inj hsame
    rwa [heq]
  | true =>
    obtain ⟨curs, n, hcalls, hn, hpos, hsec, hindex, hat⟩ := text_starts h hd ht hsync
    rw [hcalls]
    exact text_always hsec hindex (h.filled_length hd) hsync hat

/-- One dumped section is run through when its words decode. -/
theorem section_returns (h : Ahead obj reader hex.image.length (sec :: secs))
    (hd : sec.dumped = true) (hsync : Synced hex)
    (hdec : sec.isText → SectionDecodes host sec) :
    ∃ hex', hex.run host (reader.disassembleSection obj sec).2 = .ok hex' := by
  cases ht : sec.isText with
  | false =>
    obtain ⟨hex', hrun, -⟩ := data_lays host h hd ht hsync
    exact ⟨hex', hrun⟩
  | true =>
    obtain ⟨curs, n, hcalls, hn, -, -, hindex, -⟩ := text_starts h hd ht hsync
    have hlen : sec.contents.length = 4 * n := (text_contents_length ht).trans hn
    rw [hcalls]
    exact text_returns hindex hlen (fun i hi => hdec ht i (hn ▸ hi)) hex

/-- A dumped section that is run through is laid. -/
theorem section_lays (h : Ahead obj reader hex.image.length (sec :: secs))
    (hd : sec.dumped = true) (hsync : Synced hex) {hex' : VerilogHex}
    (hrun : hex.run host (reader.disassembleSection obj sec).2 = .ok hex') :
    hex'.image = BlockImage.append 0 hex.image sec.block ∧ Synced hex' ∧
      (sec.isText → SectionDecodes host sec) := by
  cases ht : sec.isText with
  | false =>
    obtain ⟨hex'', hrun', himage, hsync'⟩ := data_lays host h hd ht hsync
    obtain rfl : hex'' = hex' := Except.ok.inj (hrun'.symm.trans hrun)
    exact ⟨himage, hsync', fun hf => by cases hf⟩
  | true =>
    obtain ⟨himage, hsync', hdec⟩ := text_lays h hd ht hsync hrun
    exact ⟨himage, hsync', fun _ => hdec⟩

/-! ## All sections -/

theorem sections_always (h : Ahead obj reader hex.image.length secs) (hsync : Synced hex) :
    StopRun.Always (VerilogHex.call host) Synced hex (reader.disassembleSections obj secs).2 := by
  induction secs generalizing reader hex with
  | nil => exact StopRun.always_nil hsync
  | cons sec secs ih =>
    cases hd : sec.dumped with
    | false =>
      have hskip : reader.disassembleSection obj sec = (reader, []) := disassembleSection_skipped hd
      simp only [Reader.disassembleSections, hskip, List.nil_append]
      exact ih (h.skip hd) hsync
    | true =>
      refine StopRun.always_append (section_always h hd hsync) fun mid hmid => ?_
      obtain ⟨himage, hsync', -⟩ := section_lays h hd hsync hmid
      exact ih (by rw [himage]; exact h.dump hd) hsync'

theorem sections_lay (h : Ahead obj reader hex.image.length secs) (hsync : Synced hex)
    {hex' : VerilogHex}
    (hrun : hex.run host (reader.disassembleSections obj secs).2 = .ok hex') :
    hex'.image =
      BlockImage.lay 0 hex.image ((secs.filter SectionRef.dumped).map SectionRef.block) ∧
      ∀ sec ∈ secs.filter SectionRef.dumped, sec.isText → SectionDecodes host sec := by
  induction secs generalizing reader hex with
  | nil =>
    cases hrun
    exact ⟨rfl, by simp⟩
  | cons sec secs ih =>
    cases hd : sec.dumped with
    | false =>
      have hskip : reader.disassembleSection obj sec = (reader, []) := disassembleSection_skipped hd
      simp only [Reader.disassembleSections, hskip, List.nil_append] at hrun
      simpa only [List.filter_cons, hd, Bool.false_eq_true, if_false] using
        ih (h.skip hd) hsync hrun
    | true =>
      obtain ⟨mid, hmid, hrest⟩ := StopRun.run_append_inv hrun
      obtain ⟨himage, hsync', hdec⟩ := section_lays h hd hsync hmid
      obtain ⟨hlay, hdecs⟩ := ih (by rw [himage]; exact h.dump hd) hsync' hrest
      simp only [List.filter_cons, hd, if_true, List.map_cons, BlockImage.lay_cons]
      refine ⟨by rw [hlay, himage], fun s hs => ?_⟩
      rcases List.mem_cons.mp hs with rfl | hs
      · exact hdec
      · exact hdecs s hs

theorem sections_return (h : Ahead obj reader hex.image.length secs) (hsync : Synced hex)
    (hdec : ∀ sec ∈ secs.filter SectionRef.dumped, sec.isText → SectionDecodes host sec) :
    ∃ hex', hex.run host (reader.disassembleSections obj secs).2 = .ok hex' := by
  induction secs generalizing reader hex with
  | nil => exact ⟨hex, rfl⟩
  | cons sec secs ih =>
    cases hd : sec.dumped with
    | false =>
      have hskip : reader.disassembleSection obj sec = (reader, []) := disassembleSection_skipped hd
      simp only [List.filter_cons, hd, Bool.false_eq_true, if_false] at hdec
      simp only [Reader.disassembleSections, hskip, List.nil_append]
      exact ih (h.skip hd) hsync hdec
    | true =>
      simp only [List.filter_cons, hd, if_true] at hdec
      obtain ⟨mid, hmid⟩ := section_returns h hd hsync (hdec sec List.mem_cons_self)
      obtain ⟨himage, hsync', -⟩ := section_lays h hd hsync hmid
      obtain ⟨hex', hrest⟩ := ih (by rw [himage]; exact h.dump hd) hsync'
        fun s hs => hdec s (List.mem_cons_of_mem _ hs)
      exact ⟨hex', (StopRun.run_append_ok hmid).trans hrest⟩

end Objects

/-! ## The whole object -/

theorem contents_length_le (sec : SectionRef) : sec.contents.length ≤ sec.size := by
  have := sec.contents_length
  split at this <;> omega

/-- Sections in ascending order at word-aligned addresses fit as blocks. -/
theorem blocks_fit {n : ℕ} {secs : List SectionRef} (hn : ∀ sec ∈ secs, n ≤ sec.address)
    (haligned : ∀ sec ∈ secs, 4 ∣ sec.address)
    (hasc : secs.Pairwise fun a b => a.address + a.size ≤ b.address) :
    BlockImage.Fits n (secs.map SectionRef.block) := by
  induction secs generalizing n with
  | nil => exact trivial
  | cons sec secs ih =>
    refine ⟨hn sec List.mem_cons_self, ih ?_ (fun s hs => haligned s (List.mem_cons_of_mem _ hs))
      hasc.of_cons⟩
    intro s hs
    have hle := List.rel_of_pairwise_cons hasc hs
    have hlen := contents_length_le sec
    rw [block_stop]
    exact add_wordCeil_le (haligned sec List.mem_cons_self)
      (haligned s (List.mem_cons_of_mem _ hs)) (by omega)

theorem dumped_address {obj : ObjectFile} {sec : SectionRef} (h : sec ∈ dumpedSections obj) :
    0x100 ≤ sec.address := by
  have := (List.mem_filter.mp h).2
  simp only [SectionRef.dumped, decide_eq_true_eq] at this
  exact this.2

theorem WellLaid.ahead {obj : ObjectFile} (h : WellLaid obj) :
    Ahead obj Reader.initial 0x100 obj.sections where
  fits := blocks_fit (fun _ hs => dumped_address hs) h.aligned h.ascending
  here := by decide
  aligned sec hs hd := h.aligned sec (List.mem_filter.mpr ⟨hs, hd⟩)
  words sec hs hd := h.text_words sec (List.mem_filter.mpr ⟨hs, hd⟩)
  symbols sec hs hd := h.text_symbols sec (List.mem_filter.mpr ⟨hs, hd⟩)
  fresh := Or.inl ⟨rfl, by
    have hone := h.one_text
    rw [dumpedSections, List.filter_filter] at hone
    simpa only [Bool.and_comm] using hone⟩

theorem imageEnd_eq (obj : ObjectFile) :
    BlockImage.endAt 0x100 ((dumpedSections obj).map SectionRef.block) = imageEnd obj := by
  rw [BlockImage.endAt_eq_getLast?, List.getLast?_map, imageEnd]
  cases (dumpedSections obj).getLast? with
  | none => rfl
  | some sec => exact block_stop sec

theorem cellAt_eq (obj : ObjectFile) (k : ℕ) :
    BlockImage.cellAt (0 : UInt8) ((dumpedSections obj).map SectionRef.block) k =
      match (dumpedSections obj).find? fun sec =>
        sec.address ≤ k ∧ k < sec.address + sec.contents.length with
      | some sec => sec.contents.getD (k - sec.address) 0
      | none => 0 := by
  rw [BlockImage.cellAt, List.find?_map]
  have hcontains : (fun b : BlockImage.Block UInt8 => b.contains k) ∘ SectionRef.block =
      fun sec => decide (sec.address ≤ k ∧ k < sec.address + sec.contents.length) := rfl
  rw [hcontains]
  cases (dumpedSections obj).find? fun sec =>
    decide (sec.address ≤ k ∧ k < sec.address + sec.contents.length) <;> rfl

/-- The laid image holds at every position what belongs there. -/
theorem lay_imageByte {obj : ObjectFile} (h : WellLaid obj) (littleEndian : Bool) (si k : ℕ)
    (hk : k < imageEnd obj) :
    (BlockImage.lay 0 (VerilogHex.create obj littleEndian si).image
      ((dumpedSections obj).map SectionRef.block))[k]? = some (imageByte littleEndian obj k) := by
  have hlen := create_length obj littleEndian si
  have hfits : BlockImage.Fits 0x100 ((dumpedSections obj).map SectionRef.block) := h.ahead.fits
  rw [← imageEnd_eq] at hk
  rw [BlockImage.lay_getElem? 0 (by rw [hlen]; exact hfits) (by rw [hlen]; exact hk), hlen,
    imageByte]
  have hboot : (objectBoot littleEndian obj).length = bootSize := bootBlock_length _ _ _
  by_cases hlow : k < 0x100
  · rw [if_pos hlow, create_image]
    by_cases hk16 : k < bootSize
    · rw [if_pos hk16, List.getElem?_append_left (by omega), List.getD_eq_getElem?_getD,
        List.getElem?_eq_getElem (by omega)]
      rfl
    · rw [if_neg hk16, ← cellAt_eq, BlockImage.cellAt_of_lt 0 hfits hlow,
        List.getElem?_append_right (by omega), zeros, List.getElem?_replicate, if_pos]
      rw [hboot, bootSize]
      rw [bootSize] at hk16
      omega
  · rw [if_neg hlow, cellAt_eq, if_neg]
    rw [bootSize]
    omega

/-- elf2hex writes the image of a well-laid object exactly when LLVM decodes every word
of its executable section. -/
theorem writesImage_iff_decodes (host : Host) (littleEndian : Bool) (si : ℕ) {obj : ObjectFile}
    (h : WellLaid obj) : WritesImage host littleEndian si obj ↔ Decodes host obj := by
  have hlen := create_length obj littleEndian si
  have hahead : Ahead obj Reader.initial (VerilogHex.create obj littleEndian si).image.length
      obj.sections := by
    rw [hlen]
    exact h.ahead
  have hsync : Synced (VerilogHex.create obj littleEndian si) := hlen.symm
  constructor
  · rintro ⟨hex, hrun, -⟩
    exact (sections_lay hahead hsync hrun).2
  · intro hdec
    obtain ⟨hex, hrun⟩ := sections_return hahead hsync hdec
    have himage : hex.image = BlockImage.lay 0 (VerilogHex.create obj littleEndian si).image
        ((dumpedSections obj).map SectionRef.block) := (sections_lay hahead hsync hrun).1
    have hend : hex.image.length = imageEnd obj := by
      rw [himage, BlockImage.lay_length 0 (by rw [hlen]; exact h.ahead.fits), hlen, imageEnd_eq]
    refine ⟨hex, hrun, hend, ?_, sections_always hahead hsync⟩
    intro k hk
    rw [himage]
    exact lay_imageByte h littleEndian si k (hend ▸ hk)

/-- One executable word that LLVM refuses, and a data word behind it. -/
def undecodableObject : ObjectFile where
  sections := [
    { index := 1, name := ".text", address := 0x100, size := 4, kind := .text,
      contents := [0xff, 0xff, 0xff, 0xff],
      address_lt := by decide, size_lt := by decide, contents_length := by decide },
    { index := 2, name := ".data", address := 0x104, size := 4, kind := .data,
      contents := [1, 2, 3, 4],
      address_lt := by decide, size_lt := by decide, contents_length := by decide }]
  symbols := []

/-- A disassembler that refuses the word `ff ff ff ff` only. -/
def refusingHost : Host where
  disas bytes := if bytes.take 4 = [0xff, 0xff, 0xff, 0xff] then none else some []
  colonConversion := ['%', '8', ':']

theorem undecodableObject_wellLaid : WellLaid undecodableObject where
  aligned := by decide
  ascending := by decide
  one_text := by decide
  text_words := by decide
  text_symbols := by
    intro sec _ _
    exact ⟨by simp [sectionSymbols, undecodableObject], Or.inl rfl⟩

/-- The refused word ends the process before the data word is written. -/
theorem undecodable_image_lost :
    ¬∀ (host : Host) (littleEndian : Bool) (si : ℕ) (obj : ObjectFile), WellLaid obj →
      WritesImage host littleEndian si obj := by
  intro h
  obtain ⟨hex, hrun, -⟩ := h refusingHost false 0 undecodableObject undecodableObject_wellLaid
  have hexit : ∃ e, disassembleObject refusingHost false 0 undecodableObject = .error e := ⟨_, rfl⟩
  obtain ⟨e, he⟩ := hexit
  rw [he] at hrun
  cases hrun

/-- The undecodable object under a disassembler that takes every word. -/
theorem writesImage_of_decodable :
    WritesImage ⟨fun _ => some [], ['%', '8', ':']⟩ false 0 undecodableObject :=
  (writesImage_iff_decodes ⟨fun _ => some [], ['%', '8', ':']⟩ false 0
    undecodableObject_wellLaid).mpr (by intro sec _ _ i _; rfl)

end Cpu0Toolchain.Elf2Hex
