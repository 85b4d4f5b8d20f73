import Cpu0Toolchain.Elf2Hex.ObjectImage
import Cpu0Toolchain.Elf2Hex.RangeSymbols

/-!
# The symbol list from section to section

The reader is one global object. Its symbol list is appended to by every executable
section of every input file and cleared by none, so a section is disassembled by its
own symbols only if nothing was left in the list before it, or nothing that matters.

## Main result

- `sectionsIndependent_iff`: the executable sections of a run do not depend on one another
  exactly if no symbol left in the list delimits a range in a later section.
-/

namespace Cpu0Toolchain.Elf2Hex
open ForLoop (indices)

/-- The demand on the executable sections of an input file. -/
structure Executables (obj : ObjectFile) : Prop where
  aligned : ∀ sec ∈ obj.sections, sec.isText → 4 ∣ sec.address
  ascending : (obj.sections.filter SectionRef.isText).Pairwise fun a b =>
    a.address + a.size ≤ b.address
  words : ∀ sec ∈ obj.sections, sec.isText → 4 ∣ sec.size
  symbols : ∀ sec ∈ obj.sections, sec.isText → AlignedSymbols (sectionSymbols obj sec)

/-- The reader when it comes to a section: behind some files, and behind some sections
of the next one. -/
def Reader.at (files : List ObjectFile) (obj : ObjectFile) (secs : List SectionRef) : Reader :=
  ((Reader.initial.disassembleFiles files).1.disassembleSections obj secs).1

/-- The section is disassembled by its own symbols: its words lie in the ranges that these (or
the dummy) delimit, every slice lies inside it, and each of its words is written once, and in
order, whatever stands before the section. -/
structure DisassembledAlone (obj : ObjectFile) (reader : Reader) (sec : SectionRef) : Prop where
  ranges : rangeWords sec (reader.loadSymbols obj sec).symbols =
    rangeWords sec (ownSymbols obj sec)
  slices : ∀ cur ∈ symbolLoop sec 0 (reader.loadSymbols obj sec).symbols,
    cur.index + 4 ≤ sec.contents.length
  once : (symbolLoop sec 0 (reader.loadSymbols obj sec).symbols).map Current.index =
    indices 0 sec.size 4
  written : ∀ (host : Host) (hex : VerilogHex), hex.lastDumpAddr ≤ sec.address →
    SectionDecodes host sec →
    ∃ hex', hex.run host (reader.disassembleSection obj sec).2 = .ok hex' ∧
      hex'.image = (hex.fillGap sec.address).image ++ sec.contents

/-- Every executable section of the run is disassembled alone. -/
def SectionsIndependent (files : List ObjectFile) : Prop :=
  ∀ done obj rest secs sec later, files = done ++ obj :: rest →
    obj.sections = secs ++ sec :: later → sec.dumped → sec.isText →
    DisassembledAlone obj (Reader.at done obj secs) sec

/-- The executable sections among some sections of an object. -/
def textsOf (obj : ObjectFile) (secs : List SectionRef) : List (ObjectFile × SectionRef) :=
  (secs.filter fun sec => sec.dumped && sec.isText).map (Prod.mk obj)

/-- The executable sections of a run, in the order the reader comes to them. -/
def executables (files : List ObjectFile) : List (ObjectFile × SectionRef) :=
  files.flatMap fun obj => textsOf obj obj.sections

/-- What some executable sections leave in the list: the first one its own symbols or the dummy,
the others their symbols. -/
def carried : List (ObjectFile × SectionRef) → List Symbol
  | [] => []
  | (obj, sec) :: rest => ownSymbols obj sec ++ rest.flatMap fun v => sectionSymbols v.1 v.2

/-- What is left in the list for a section delimits no range of it. -/
def CarriedHidden (visits : List (ObjectFile × SectionRef)) : Prop :=
  ∀ before v after, visits = before ++ v :: after →
    ∀ s ∈ carried before, Hidden v.2.size (ownSymbols v.1 v.2) s

/-! ## One section -/

section Alone

variable {obj : ObjectFile} {reader : Reader} {sec : SectionRef}

theorem dumped_size (h : sec.dumped) : 0 < sec.size := by
  simp only [SectionRef.dumped, decide_eq_true_eq] at h
  omega

/-- A symbol loop that visits every word once and in order stays inside the section, and
writes it. -/
theorem section_written (hd : sec.dumped) (ht : sec.isText) (hsize : 4 ∣ sec.size)
    (honce : (symbolLoop sec 0 (reader.loadSymbols obj sec).symbols).map Current.index =
      indices 0 sec.size 4) :
    (∀ cur ∈ symbolLoop sec 0 (reader.loadSymbols obj sec).symbols,
      cur.index + 4 ≤ sec.contents.length) ∧
    ∀ (host : Host) (hex : VerilogHex), hex.lastDumpAddr ≤ sec.address →
      SectionDecodes host sec →
      ∃ hex', hex.run host (reader.disassembleSection obj sec).2 = .ok hex' ∧
        hex'.image = (hex.fillGap sec.address).image ++ sec.contents := by
  have hlen := text_contents_length ht
  obtain ⟨n, hn⟩ := hsize
  refine ⟨?_, ?_⟩
  · intro cur hcur
    have hmem : cur.index ∈ indices 0 sec.size 4 := honce ▸ List.mem_map_of_mem hcur
    obtain ⟨hlt, i, hi⟩ := (ForLoop.mem_indices (by decide)).mp hmem
    omega
  · intro host hex hle hdec
    have hpos : 0 < n := by
      have hsec := dumped_size hd
      omega
    have hsec : ∀ cur ∈ symbolLoop sec 0 (reader.loadSymbols obj sec).symbols, cur.sec = sec :=
      fun cur hcur => symbolLoop_sec hcur
    rw [hn] at honce
    rw [disassembleSection_text hd ht]
    have hat : AtWord sec (hex.fillGap sec.address).image 0 hex :=
      ⟨(List.append_nil _).symm, fillGap_lastDumpAddr hle⟩
    obtain ⟨hex', hrun⟩ := text_returns honce (hlen.trans hn) (fun i hi => hdec i (hn ▸ hi)) hex
    have hend := text_run hsec honce (Nat.zero_le n) hat hrun
    have himage := hend.image
    rw [hend.fixed hpos, List.take_of_length_le (by omega)] at himage
    exact ⟨hex', hrun, himage⟩

/-- In the ranges of its own symbols, everything else follows. -/
theorem disassembledAlone_of_ranges (hd : sec.dumped) (ht : sec.isText) (hsize : 4 ∣ sec.size)
    (haligned : AlignedSymbols (sectionSymbols obj sec))
    (h : rangeWords sec (reader.loadSymbols obj sec).symbols =
      rangeWords sec (ownSymbols obj sec)) : DisassembledAlone obj reader sec := by
  have honce : (symbolLoop sec 0 (reader.loadSymbols obj sec).symbols).map Current.index =
      indices 0 sec.size 4 := by
    rw [symbolLoop_indices, ← rangeWords_indices, h, rangeWords_indices,
      ← symbolLoop_indices sec 0]
    exact (ownSymbols_word (dumped_size hd) haligned).loop_index hsize 0
  obtain ⟨hslices, hwritten⟩ := section_written hd ht hsize honce
  exact ⟨h, hslices, honce, hwritten⟩

theorem loadSymbols_of_ne_nil (h : reader.symbols ≠ []) :
    (reader.loadSymbols obj sec).symbols =
      sortSymbols (reader.symbols ++ sectionSymbols obj sec) := by
  have hne : sortSymbols (reader.symbols ++ sectionSymbols obj sec) ≠ [] := by
    intro hnil
    exact h (List.append_eq_nil_iff.mp (sortSymbols_eq_nil.mp hnil)).1
  simp [Reader.loadSymbols, hne]

theorem mem_ownSymbols {s : Symbol} (h : s ∈ sectionSymbols obj sec) : s ∈ ownSymbols obj sec := by
  rw [ownSymbols, if_neg (List.ne_nil_of_mem h)]
  exact (sortSymbols_perm _).mem_iff.mpr h

/-- The dummy delimits the ranges of a section without symbols if the others are hidden, since
one of these stands at its offset. -/
theorem dummy_mem {others : List Symbol} (hpos : 0 < sec.size) (hzero : FromZero others)
    (h : ∀ s ∈ others, Hidden sec.size [(0, "")] s) : (0, "") ∈ others := by
  obtain ⟨name, hname⟩ := hzero.zero
  rcases h _ hname with hend | ⟨o, ho, -, hle⟩
  · exact absurd hend hpos.ne
  · rw [List.mem_singleton.mp ho] at hle
    have hchars : name.toList ≤ [] := String.le_iff_toList_le.mp hle
    cases hname' : name.toList with
    | nil =>
      rw [String.toList_eq_nil_iff.mp hname'] at hname
      exact hname
    | cons c rest =>
      rw [hname'] at hchars
      exact absurd (List.nil_lt_cons c rest) (not_lt.mpr hchars)

/-- A section behind others is in the ranges of its own symbols exactly if those left in the list
are hidden. -/
theorem ranges_iff (hpos : 0 < sec.size) (hsize : 4 ∣ sec.size)
    (haligned : AlignedSymbols (sectionSymbols obj sec)) {others : List Symbol}
    (hperm : reader.symbols.Perm others) (hothers : others = [] ∨ FromZero others) :
    rangeWords sec (reader.loadSymbols obj sec).symbols = rangeWords sec (ownSymbols obj sec) ↔
      ∀ s ∈ others, Hidden sec.size (ownSymbols obj sec) s := by
  rcases hothers with rfl | hzero
  · rw [loadSymbols_initial obj sec (List.perm_nil.mp hperm)]
    exact ⟨fun _ s hs => absurd hs List.not_mem_nil, fun _ => rfl⟩
  · have hne : reader.symbols ≠ [] := by
      intro hnil
      obtain ⟨name, hname⟩ := hzero.zero
      rw [hnil] at hperm
      exact List.ne_nil_of_mem hname (List.nil_perm.mp hperm)
    have hmem : ∀ s, s ∈ (reader.loadSymbols obj sec).symbols ↔
        s ∈ others ∨ s ∈ sectionSymbols obj sec := by
      intro s
      rw [loadSymbols_of_ne_nil hne, (sortSymbols_perm _).mem_iff, List.mem_append, hperm.mem_iff]
    have hsorted : (reader.loadSymbols obj sec).symbols.Pairwise symbolLe := by
      rw [loadSymbols_of_ne_nil hne]
      exact sortSymbols_sorted _
    have hall : FromZero (reader.loadSymbols obj sec).symbols := by
      refine ⟨fun s hs => ((hmem s).mp hs).elim (hzero.aligned s) (haligned.1 s), ?_⟩
      obtain ⟨name, hname⟩ := hzero.zero
      exact ⟨name, (hmem _).mpr (.inl hname)⟩
    refine rangeWords_eq_iff (ownSymbols_word hpos haligned) hsize hsorted hall
      (fun s hs => (hmem s).mpr (.inl hs)) (fun s hs => ((hmem s).mp hs).imp_right mem_ownSymbols) ?_
    intro hhidden o ho
    rw [hmem]
    by_cases hnil : sectionSymbols obj sec = []
    · rw [ownSymbols, if_pos hnil] at hhidden ho
      rw [List.mem_singleton.mp ho]
      exact .inl (dummy_mem hpos hzero hhidden)
    · rw [ownSymbols, if_neg hnil] at ho
      exact .inr ((sortSymbols_perm _).mem_iff.mp ho)

end Alone

/-! ## The sections of a run -/

/-- The reader behind a list of sections, each with its object. -/
def Reader.behind (reader : Reader) (visits : List (ObjectFile × SectionRef)) : Reader :=
  visits.foldl (fun r v => r.loadSymbols v.1 v.2) reader

/-- Every section adds its symbols to a list that is not empty. -/
theorem behind_perm {reader : Reader} (hne : reader.symbols ≠ [])
    (visits : List (ObjectFile × SectionRef)) :
    (reader.behind visits).symbols.Perm
      (reader.symbols ++ visits.flatMap fun v => sectionSymbols v.1 v.2) := by
  induction visits generalizing reader with
  | nil => rw [List.flatMap_nil, List.append_nil]; rfl
  | cons v visits ih =>
    have hload : (reader.loadSymbols v.1 v.2).symbols.Perm
        (reader.symbols ++ sectionSymbols v.1 v.2) := by
      rw [loadSymbols_of_ne_nil hne]
      exact sortSymbols_perm _
    have hnext : (reader.loadSymbols v.1 v.2).symbols ≠ [] := by
      intro hnil
      rw [hnil] at hload
      exact hne (List.append_eq_nil_iff.mp (List.nil_perm.mp hload)).1
    rw [List.flatMap_cons, ← List.append_assoc]
    exact (ih hnext).trans (hload.append_right _)

theorem ownSymbols_ne_nil (obj : ObjectFile) (sec : SectionRef) : ownSymbols obj sec ≠ [] := by
  unfold ownSymbols
  split
  · exact List.cons_ne_nil _ _
  · next h => exact mt sortSymbols_eq_nil.mp h

/-- The symbols that the reader has behind some sections. -/
theorem initial_behind_perm (visits : List (ObjectFile × SectionRef)) :
    (Reader.initial.behind visits).symbols.Perm (carried visits) := by
  cases visits with
  | nil => rfl
  | cons v visits =>
    have hfirst := loadSymbols_initial v.1 v.2 (show Reader.initial.symbols = [] from rfl)
    have hne : (Reader.initial.loadSymbols v.1 v.2).symbols ≠ [] :=
      hfirst ▸ ownSymbols_ne_nil v.1 v.2
    have hrest := behind_perm hne visits
    rw [hfirst] at hrest
    exact hrest

/-- Behind sections as they are demanded, the list is empty or starts at offset 0. -/
theorem carried_fromZero {visits : List (ObjectFile × SectionRef)}
    (h : ∀ v ∈ visits, 0 < v.2.size ∧ AlignedSymbols (sectionSymbols v.1 v.2)) :
    carried visits = [] ∨ FromZero (carried visits) := by
  cases visits with
  | nil => exact .inl rfl
  | cons v visits =>
    obtain ⟨⟨hpos, haligned⟩, hrest⟩ := List.forall_mem_cons.mp h
    have hown := (ownSymbols_word hpos haligned).fromZero
    refine .inr ⟨?_, ?_⟩
    · intro s hs
      rcases List.mem_append.mp hs with hs | hs
      · exact hown.aligned s hs
      · obtain ⟨w, hw, hsw⟩ := List.mem_flatMap.mp hs
        exact (hrest w hw).2.1 s hsw
    · obtain ⟨name, hname⟩ := hown.zero
      exact ⟨name, List.mem_append_left _ hname⟩

/-! ## The whole run -/

theorem behind_append (reader : Reader) (xs ys : List (ObjectFile × SectionRef)) :
    reader.behind (xs ++ ys) = (reader.behind xs).behind ys :=
  List.foldl_append

theorem executables_append (xs ys : List ObjectFile) :
    executables (xs ++ ys) = executables xs ++ executables ys :=
  List.flatMap_append

/-- Only the executable sections change the reader. -/
theorem disassembleSections_reader (obj : ObjectFile) (reader : Reader) (secs : List SectionRef) :
    (reader.disassembleSections obj secs).1 = reader.behind (textsOf obj secs) := by
  induction secs generalizing reader with
  | nil => rfl
  | cons sec secs ih =>
    rw [Reader.disassembleSections, textsOf, List.filter_cons]
    dsimp only
    rw [ih]
    cases hd : sec.dumped with
    | false => rw [disassembleSection_skipped hd]; rfl
    | true =>
      cases ht : sec.isText with
      | false => rw [disassembleSection_data hd ht]; rfl
      | true => rw [disassembleSection_text hd ht]; rfl

theorem disassembleFiles_reader (reader : Reader) (files : List ObjectFile) :
    (reader.disassembleFiles files).1 = reader.behind (executables files) := by
  induction files generalizing reader with
  | nil => rfl
  | cons obj files ih =>
    rw [Reader.disassembleFiles]
    dsimp only
    rw [ih, disassembleSections_reader]
    exact (behind_append _ _ _).symm

theorem reader_at_eq (files : List ObjectFile) (obj : ObjectFile) (secs : List SectionRef) :
    Reader.at files obj secs = Reader.initial.behind (executables files ++ textsOf obj secs) := by
  rw [Reader.at, disassembleSections_reader, disassembleFiles_reader, behind_append]

/-- A section of the run and its place in the list of executable sections. -/
theorem executables_split {done rest : List ObjectFile} {obj : ObjectFile}
    {secs later : List SectionRef} {sec : SectionRef} (hsecs : obj.sections = secs ++ sec :: later)
    (hd : sec.dumped) (ht : sec.isText) :
    executables (done ++ obj :: rest) =
      (executables done ++ textsOf obj secs) ++
        (obj, sec) :: (textsOf obj later ++ executables rest) := by
  have hobj : executables (obj :: rest) =
      textsOf obj (secs ++ sec :: later) ++ executables rest := by
    rw [← hsecs]
    rfl
  rw [executables_append, hobj]
  simp [textsOf, hd, ht]

theorem exists_of_textsOf_split {obj : ObjectFile} {secs : List SectionRef}
    {before after : List (ObjectFile × SectionRef)} {v : ObjectFile × SectionRef}
    (h : textsOf obj secs = before ++ v :: after) :
    ∃ front sec later, secs = front ++ sec :: later ∧ v = (obj, sec) ∧ sec.dumped ∧ sec.isText ∧
      before = textsOf obj front := by
  obtain ⟨bs, rest, hfilter, hbefore, hrest⟩ := List.map_eq_append_iff.mp h
  obtain ⟨sec, tail, rfl, hv, -⟩ := List.map_eq_cons_iff.mp hrest
  obtain ⟨front, back, rfl, hfront, hback⟩ := List.filter_eq_append_iff.mp hfilter
  obtain ⟨skipped, later, rfl, hskipped, hsec, -⟩ := List.filter_eq_cons_iff.mp hback
  rw [Bool.and_eq_true] at hsec
  refine ⟨front ++ skipped, sec, later, by rw [List.append_assoc], hv.symm, hsec.1, hsec.2, ?_⟩
  have hnone : (skipped.filter fun sec => sec.dumped && sec.isText) = [] :=
    List.filter_eq_nil_iff.mpr hskipped
  rw [textsOf, List.filter_append, hfront, hnone, List.append_nil, hbefore]

/-- Conversely, every place in the list of executable sections is one in the run. -/
theorem exists_of_executables_split {files : List ObjectFile}
    {before after : List (ObjectFile × SectionRef)} {v : ObjectFile × SectionRef}
    (h : executables files = before ++ v :: after) :
    ∃ done obj rest secs sec later, files = done ++ obj :: rest ∧
      obj.sections = secs ++ sec :: later ∧ v = (obj, sec) ∧ sec.dumped ∧ sec.isText ∧
      before = executables done ++ textsOf obj secs := by
  induction files generalizing before with
  | nil => cases before <;> cases h
  | cons obj files ih =>
    rcases List.append_eq_append_iff.mp (show textsOf obj obj.sections ++ executables files =
      before ++ v :: after from h) with ⟨back, rfl, hfiles⟩ | ⟨back, htexts, hback⟩
    · obtain ⟨done, obj', rest, secs, sec, later, rfl, hsecs, hv, hd, ht, rfl⟩ := ih hfiles
      exact ⟨obj :: done, obj', rest, secs, sec, later, rfl, hsecs, hv, hd, ht,
        (List.append_assoc _ _ _).symm⟩
    · cases back with
      | nil =>
        -- the place is the first one of the files behind
        obtain ⟨done, obj', rest, secs, sec, later, rfl, hsecs, hv, hd, ht, hbefore⟩ :=
          ih (show executables files = [] ++ v :: after from hback.symm)
        refine ⟨obj :: done, obj', rest, secs, sec, later, rfl, hsecs, hv, hd, ht, ?_⟩
        rw [List.append_nil] at htexts
        rw [← htexts, ← List.append_nil (textsOf obj obj.sections), hbefore]
        exact (List.append_assoc _ _ _).symm
      | cons u back =>
        obtain ⟨rfl, -⟩ := List.cons.inj hback
        obtain ⟨secs, sec, later, hsecs, hv, hd, ht, rfl⟩ := exists_of_textsOf_split htexts
        exact ⟨[], obj, files, secs, sec, later, rfl, hsecs, hv, hd, ht, rfl⟩

theorem mem_executables {files : List ObjectFile} {v : ObjectFile × SectionRef}
    (h : v ∈ executables files) : v.1 ∈ files ∧ v.2 ∈ v.1.sections ∧ v.2.dumped ∧ v.2.isText := by
  obtain ⟨obj, hobj, hv⟩ := List.mem_flatMap.mp h
  obtain ⟨sec, hsec, rfl⟩ := List.mem_map.mp hv
  obtain ⟨hmem, hboth⟩ := List.mem_filter.mp hsec
  rw [Bool.and_eq_true] at hboth
  exact ⟨hobj, hmem, hboth⟩

/-- A section of the run is in the ranges of its own symbols exactly if those left by the sections
before it are hidden. -/
theorem visit_ranges_iff {files : List ObjectFile} (h : ∀ obj ∈ files, Executables obj)
    {before after : List (ObjectFile × SectionRef)} {obj : ObjectFile} {sec : SectionRef}
    (hsplit : executables files = before ++ (obj, sec) :: after) :
    rangeWords sec ((Reader.initial.behind before).loadSymbols obj sec).symbols =
        rangeWords sec (ownSymbols obj sec) ↔
      ∀ s ∈ carried before, Hidden sec.size (ownSymbols obj sec) s := by
  have hvisit : ∀ v ∈ executables files,
      0 < v.2.size ∧ 4 ∣ v.2.size ∧ AlignedSymbols (sectionSymbols v.1 v.2) := by
    intro v hv
    obtain ⟨hobj, hmem, hd, ht⟩ := mem_executables hv
    exact ⟨dumped_size hd, (h v.1 hobj).words v.2 hmem ht, (h v.1 hobj).symbols v.2 hmem ht⟩
  rw [hsplit] at hvisit
  obtain ⟨hbefore, hrest⟩ := List.forall_mem_append.mp hvisit
  obtain ⟨hpos, hsize, haligned⟩ := (List.forall_mem_cons.mp hrest).1
  exact ranges_iff hpos hsize haligned (initial_behind_perm before)
    (carried_fromZero fun v hv => ⟨(hbefore v hv).1, (hbefore v hv).2.2⟩)

/-- The executable sections of a run are disassembled independently exactly when no symbol that
is carried from one to another delimits a range there. -/
theorem sectionsIndependent_iff {files : List ObjectFile} (h : ∀ obj ∈ files, Executables obj) :
    SectionsIndependent files ↔ CarriedHidden (executables files) := by
  constructor
  · intro hind before v after heq
    obtain ⟨done, obj, rest, secs, sec, later, hfiles, hsecs, rfl, hd, ht, rfl⟩ :=
      exists_of_executables_split heq
    have halone := hind done obj rest secs sec later hfiles hsecs hd ht
    rw [reader_at_eq] at halone
    exact (visit_ranges_iff h heq).mp halone.ranges
  · intro hhidden done obj rest secs sec later hfiles hsecs hd ht
    have hobj := h obj (hfiles ▸ List.mem_append_right _ List.mem_cons_self)
    have hmem : sec ∈ obj.sections := hsecs ▸ List.mem_append_right _ List.mem_cons_self
    have hsplit : executables files = (executables done ++ textsOf obj secs) ++
        (obj, sec) :: (textsOf obj later ++ executables rest) :=
      hfiles ▸ executables_split hsecs hd ht
    apply disassembledAlone_of_ranges hd ht (hobj.words sec hmem ht) (hobj.symbols sec hmem ht)
    rw [reader_at_eq]
    exact (visit_ranges_iff h hsplit).mpr (hhidden _ _ _ hsplit)

/-- Two executable sections, each with one symbol at its first byte. -/
def twoSectionObject : ObjectFile where
  sections := [
    { index := 1, name := ".init", address := 0x400, size := 8, kind := .text,
      contents := [0, 0, 0, 0, 0, 0, 0, 0],
      address_lt := by decide, size_lt := by decide, contents_length := by decide },
    { index := 2, name := ".text", address := 0x408, size := 8, kind := .text,
      contents := [1, 1, 1, 1, 1, 1, 1, 1],
      address_lt := by decide, size_lt := by decide, contents_length := by decide }]
  symbols := [⟨"_init", 0x400, some 1, false⟩, ⟨"_start", 0x408, some 2, false⟩]

theorem twoSectionObject_executables : Executables twoSectionObject where
  aligned := by decide
  ascending := by decide
  words := by decide
  symbols := by
    have hsyms : ∀ sec ∈ twoSectionObject.sections, ∃ name,
        sectionSymbols twoSectionObject sec = [(0, name)] := by
      intro sec hsec
      simp only [twoSectionObject, List.mem_cons, List.not_mem_nil, or_false] at hsec
      rcases hsec with rfl | rfl
      · exact ⟨"_init", by decide⟩
      · exact ⟨"_start", by decide⟩
    intro sec hsec _
    obtain ⟨name, hname⟩ := hsyms sec hsec
    rw [hname]
    exact ⟨by simp, Or.inr ⟨name, List.mem_singleton_self _⟩⟩

/-- The symbol of the first section stands in the list at the second one, and is hidden there. -/
theorem two_sections_independent : SectionsIndependent [twoSectionObject] := by
  have hexec : ∀ obj ∈ [twoSectionObject], Executables obj := by
    intro obj hobj
    rw [List.mem_singleton.mp hobj]
    exact twoSectionObject_executables
  refine (sectionsIndependent_iff hexec).mpr ?_
  intro before v after hsplit
  have hcount : (before ++ v :: after).length = 2 := hsplit ▸ (by decide)
  cases before with
  | nil => exact fun s hs => absurd hs List.not_mem_nil
  | cons first before =>
    obtain ⟨rfl, htail⟩ := List.cons.inj hsplit
    cases before with
    | nil =>
      obtain ⟨rfl, -⟩ := List.cons.inj htail
      decide
    | cons second before =>
      rw [List.length_append, List.length_cons, List.length_cons, List.length_cons] at hcount
      omega

/-- Two executable sections, and a symbol in the middle of the first one. -/
def strayRangeObject : ObjectFile where
  sections := [
    { index := 1, name := ".init", address := 0x400, size := 24, kind := .text,
      contents := List.replicate 24 0,
      address_lt := by decide, size_lt := by decide, contents_length := by decide },
    { index := 2, name := ".text", address := 0x418, size := 8, kind := .text,
      contents := [1, 1, 1, 1, 1, 1, 1, 1],
      address_lt := by decide, size_lt := by decide, contents_length := by decide }]
  symbols := [⟨"_init", 0x400, some 1, false⟩, ⟨"mid", 0x410, some 1, false⟩,
    ⟨"main", 0x418, some 2, false⟩]

theorem strayRangeObject_executables : Executables strayRangeObject where
  aligned := by decide
  ascending := by decide
  words := by decide
  symbols := by
    intro sec hsec _
    simp only [strayRangeObject, List.mem_cons, List.not_mem_nil, or_false] at hsec
    rcases hsec with rfl | rfl
    · exact ⟨by decide, .inr ⟨"_init", by decide⟩⟩
    · exact ⟨by decide, .inr ⟨"main", by decide⟩⟩

/-- The symbol in the middle of the first section delimits a range of the second one, which goes
beyond the section. -/
theorem mid_symbol_carried_into_text :
    ¬∀ files : List ObjectFile, (∀ obj ∈ files, Executables obj) → SectionsIndependent files := by
  intro h
  have hind := h [strayRangeObject] (by
    intro obj hobj
    rw [List.mem_singleton.mp hobj]
    exact strayRangeObject_executables)
  have halone := hind [] strayRangeObject [] (strayRangeObject.sections.take 1)
    (strayRangeObject.sections.get ⟨1, by decide⟩) [] rfl rfl rfl rfl
  have hslices := halone.slices
  revert hslices
  decide

end Cpu0Toolchain.Elf2Hex
