import Cpu0Toolchain.Elf2Hex.Sections

/-!
# Symbols at any offset

What the walk of the symbol loop means for the bytes of a section: each of them lies in one
word of the ranges exactly if the walk goes through all words.

## Main result

- `tiles_iff`: the symbol loop covers the first executable section of an object once
  exactly if its symbols lead from its first byte to word boundaries.
-/

namespace Cpu0Toolchain.Elf2Hex
open ForLoop (indices)

/-! ## The bytes of the words -/

/-- The four bytes from each index on. -/
def wordBytes (starts : List ℕ) : List ℕ := starts.flatMap fun i => List.range' i 4

theorem wordBytes_injective : Function.Injective wordBytes := by
  intro xs ys h
  induction xs generalizing ys with
  | nil =>
    cases ys with
    | nil => rfl
    | cons y ys => cases h
  | cons x xs ih =>
    cases ys with
    | nil => cases h
    | cons y ys =>
      have hhead : x = y := (List.cons.inj h).1
      subst hhead
      have hwords : List.range' x 4 ++ wordBytes xs = List.range' x 4 ++ wordBytes ys := h
      rw [ih (List.append_cancel_left hwords)]

theorem wordBytes_indices (a n : ℕ) : wordBytes (indices a (a + 4 * n) 4) = List.range' a (4 * n) := by
  induction n generalizing a with
  | zero =>
    have hnone : indices a (a + 4 * 0) 4 = [] := ForLoop.indices_of_le le_rfl (by decide)
    rw [hnone]
    rfl
  | succ n ih =>
    have hend : a + 4 * (n + 1) = a + 4 + 4 * n := by omega
    have hlen : 4 * (n + 1) = 4 + 4 * n := by omega
    rw [ForLoop.indices_of_lt (by omega) (by decide), hend]
    show List.range' a 4 ++ wordBytes (indices (a + 4) (a + 4 + 4 * n) 4) = _
    rw [ih, hlen, ← List.range'_append, Nat.one_mul]

theorem wordBytes_eq_range_iff {size : ℕ} (hsize : 4 ∣ size) (starts : List ℕ) :
    wordBytes starts = List.range size ↔ starts = indices 0 size 4 := by
  obtain ⟨n, rfl⟩ := hsize
  have hwords := wordBytes_indices 0 n
  rw [Nat.zero_add, ← List.range_eq_range'] at hwords
  rw [← hwords]
  exact wordBytes_injective.eq_iff

/-! ## The first executable section -/

/-- The first executable section that the reader does not skip, and the sections before it. -/
structure FirstExecutable (obj : ObjectFile) (before : List SectionRef) (sec : SectionRef) :
    Prop where
  sections : ∃ later, obj.sections = before ++ sec :: later
  first : ∀ s ∈ before, (s.dumped && s.isText) = false
  dumped : sec.dumped
  text : sec.isText

/-- The ranges of the symbol loop. -/
def symbolRanges (obj : ObjectFile) (before : List SectionRef) (sec : SectionRef) : List Current :=
  symbolLoop sec 0 ((Reader.at [] obj before).loadSymbols obj sec).symbols

/-- Each byte of the section lies in one word of the ranges, in order, no word is sliced past
the end, and the section is what is written for a host that knows its words. -/
structure Tiles (obj : ObjectFile) (before : List SectionRef) (sec : SectionRef) : Prop where
  bytes : wordBytes ((symbolRanges obj before sec).map Current.index) = List.range sec.size
  slices : ∀ cur ∈ symbolRanges obj before sec, cur.index + 4 ≤ sec.contents.length
  written : ∀ (host : Host) (hex : VerilogHex), hex.lastDumpAddr ≤ sec.address →
    SectionDecodes host sec →
    ∃ hex', hex.run host ((Reader.at [] obj before).disassembleSection obj sec).2 = .ok hex' ∧
      hex'.image = (hex.fillGap sec.address).image ++ sec.contents

/-- No symbols, or one at the first byte and every other one on a word boundary or leading up
to one. -/
def Tileable (symbols : List Symbol) : Prop :=
  symbols = [] ∨ LeadsFrom 0 (symbols.map Prod.fst)

theorem leadsFrom_perm {b : ℕ} {xs ys : List ℕ} (h : xs.Perm ys) : LeadsFrom b xs ↔ LeadsFrom b ys := by
  simp only [LeadsFrom, Leads, h.mem_iff]

section First

variable {obj : ObjectFile} {before : List SectionRef} {sec : SectionRef}
  (h : FirstExecutable obj before sec)
include h

theorem FirstExecutable.symbols :
    ((Reader.at [] obj before).loadSymbols obj sec).symbols = ownSymbols obj sec := by
  apply loadSymbols_initial
  have hnone : textsOf obj before = [] := by
    rw [textsOf, List.filter_eq_nil_iff.mpr fun s hs => by rw [h.first s hs]; decide]
    rfl
  rw [reader_at_eq, hnone]
  rfl

theorem FirstExecutable.ranges_iff (hsize : 4 ∣ sec.size) :
    (symbolRanges obj before sec).map Current.index = indices 0 sec.size 4 ↔
      Tileable (sectionSymbols obj sec) := by
  have hpos : 0 < sec.size := by
    have hd := h.dumped
    simp only [SectionRef.dumped, decide_eq_true_eq] at hd
    omega
  rw [symbolRanges, h.symbols, symbolLoop_indices, ownSymbols, Tileable]
  by_cases hnil : sectionSymbols obj sec = []
  · rw [if_pos hnil]
    exact ⟨fun _ => .inl hnil, fun _ => rfl⟩
  · have hsorted := sorted_offsets (sortSymbols_sorted (sectionSymbols obj sec))
    have hperm := (sortSymbols_perm (sectionSymbols obj sec)).map Prod.fst
    have hlt : ∀ d ∈ (sortSymbols (sectionSymbols obj sec)).map Prod.fst, d < sec.size := by
      intro d hd
      obtain ⟨symbol, hsymbol, rfl⟩ := List.mem_map.mp hd
      exact sectionSymbols_inside ((sortSymbols_perm _).mem_iff.mp hsymbol)
    have hne : (sortSymbols (sectionSymbols obj sec)).map Prod.fst ≠ [] := by
      intro hmap
      exact hnil (sortSymbols_eq_nil.mp (List.map_eq_nil_iff.mp hmap))
    rw [if_neg hnil, loopIndices_eq_words_iff hsize hne hsorted hlt, leadsFrom_perm hperm]
    exact ⟨.inr, fun hor => hor.resolve_left hnil⟩

/-- The symbol loop tiles the section exactly if its symbols start at the first byte and lead
to word boundaries. -/
theorem tiles_iff (hsize : 4 ∣ sec.size) :
    Tiles obj before sec ↔ Tileable (sectionSymbols obj sec) := by
  rw [← h.ranges_iff hsize]
  constructor
  · exact fun htiles => (wordBytes_eq_range_iff hsize _).mp htiles.bytes
  · intro honce
    obtain ⟨hslices, hwritten⟩ := section_written h.dumped h.text hsize honce
    exact ⟨(wordBytes_eq_range_iff hsize _).mpr honce, hslices, hwritten⟩

end First

/-- The symbols that a word boundary is reached by may lead to it. -/
example : Tileable [(0, "f"), (6, "g"), (7, "h"), (8, "k")] := by
  unfold Tileable LeadsFrom
  decide

theorem init_firstExecutable :
    FirstExecutable twoSectionObject [] (twoSectionObject.sections.get ⟨0, by decide⟩) where
  sections := ⟨_, rfl⟩
  first _ hs := absurd hs List.not_mem_nil
  dumped := rfl
  text := rfl

theorem init_tiles : Tiles twoSectionObject [] (twoSectionObject.sections.get ⟨0, by decide⟩) :=
  (tiles_iff init_firstExecutable (by decide)).mpr (by unfold Tileable LeadsFrom; decide)

/-- Four instructions, and a label at the second one only. -/
def unlabelledStart : ObjectFile where
  sections := [
    { index := 1, name := ".text", address := 0x110, size := 16, kind := .text,
      contents := [9, 32, 0, 1, 9, 32, 0, 2, 9, 32, 0, 3, 9, 32, 0, 4],
      address_lt := by decide, size_lt := by decide, contents_length := by decide }]
  symbols := [⟨"loop", 0x114, some 1, false⟩]

/-- The instruction before the first label is in no range. -/
theorem unlabelledStart_not_tiled :
    ¬∀ (obj : ObjectFile) (before : List SectionRef) (sec : SectionRef),
      FirstExecutable obj before sec → 4 ∣ sec.size → Tiles obj before sec := by
  intro h
  have htiles := h unlabelledStart [] (unlabelledStart.sections.get ⟨0, by decide⟩)
    ⟨⟨[], rfl⟩, fun _ hs => absurd hs List.not_mem_nil, rfl, rfl⟩ (by decide)
  have hbytes := htiles.bytes
  revert hbytes
  decide

end Cpu0Toolchain.Elf2Hex
