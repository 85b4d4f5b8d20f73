import Cpu0Toolchain.Elf2Hex.Emitters

/-!
# The instruction ranges of the symbol loop

The range of a symbol ends one byte short of the next one, and bytes before the first symbol
belong to no range. The ranges walk through the words of a section once and in order if one
symbol stands at its first byte and every other one stands on a word boundary, or in a run of
symbols on neighbouring bytes up to a word boundary, whose own ranges are empty.

## Main results

- `loopIndices_eq_words_iff`: the walk is right exactly under this condition.
- `WordSymbols.loop_index`: so it is for symbols on word boundaries.
-/

namespace Cpu0Toolchain.Elf2Hex
open ForLoop (indices)

/-- The list the symbol loop expects: sorted, from offset 0, on word boundaries inside
the section. -/
structure WordSymbols (size : ℕ) (symbols : List Symbol) : Prop where
  sorted : symbols.Pairwise symbolLe
  aligned : ∀ symbol ∈ symbols, 4 ∣ symbol.1
  inside : ∀ symbol ∈ symbols, symbol.1 < size
  zero : ∃ name, (0, name) ∈ symbols

theorem sortSymbols_perm (symbols : List Symbol) : (sortSymbols symbols).Perm symbols :=
  List.perm_insertionSort _ _

theorem sortSymbols_sorted (symbols : List Symbol) : (sortSymbols symbols).Pairwise symbolLe :=
  List.pairwise_insertionSort _ _

theorem sortSymbols_eq_nil {symbols : List Symbol} : sortSymbols symbols = [] ↔ symbols = [] := by
  constructor
  · intro h
    exact List.nil_perm.mp (h ▸ sortSymbols_perm symbols)
  · rintro rfl
    rfl

@[simp] theorem rangeLoop_index (sec : SectionRef) (si : ℕ) (symbol : String) (start stop : ℕ) :
    (rangeLoop sec si symbol start stop).map Current.index = indices start stop 4 := by
  rw [rangeLoop, List.map_map]
  exact List.map_id _

/-- The offsets of sorted symbols are sorted. -/
theorem sorted_offsets {symbols : List Symbol} (h : symbols.Pairwise symbolLe) :
    (symbols.map Prod.fst).Pairwise (· ≤ ·) := by
  refine List.pairwise_map.mpr (h.imp ?_)
  rintro a b (hlt | heq)
  · exact hlt.le
  · exact heq.1.le

theorem rangeLoop_sec {sec : SectionRef} {si start stop : ℕ} {symbol : String} {cur : Current}
    (h : cur ∈ rangeLoop sec si symbol start stop) : cur.sec = sec := by
  obtain ⟨index, -, rfl⟩ := List.mem_map.mp h
  rfl

theorem symbolLoop_sec {sec : SectionRef} {si : ℕ} {symbols : List Symbol} {cur : Current}
    (h : cur ∈ symbolLoop sec si symbols) : cur.sec = sec := by
  induction symbols generalizing si with
  | nil => cases h
  | cons symbol rest ih =>
    cases rest with
    | nil => exact rangeLoop_sec h
    | cons next rest =>
      rcases List.mem_append.mp h with h | h
      · split at h
        · exact rangeLoop_sec h
        · cases h
      · exact ih h

/-! ## Ranges between sorted offsets -/

/-- The symbol loop on the offsets alone. -/
def loopIndices (size : ℕ) : List ℕ → List ℕ
  | [] => []
  | [s] => indices s size 4
  | s :: next :: rest =>
    (if next ≠ s then indices s (next - 1) 4 else []) ++ loopIndices size (next :: rest)

theorem symbolLoop_indices (sec : SectionRef) (si : ℕ) (symbols : List Symbol) :
    (symbolLoop sec si symbols).map Current.index = loopIndices sec.size (symbols.map Prod.fst) := by
  induction symbols generalizing si with
  | nil => rfl
  | cons symbol rest ih =>
    cases rest with
    | nil => exact rangeLoop_index sec si symbol.2 symbol.1 sec.size
    | cons next rest =>
      rw [symbolLoop, List.map_append, ih]
      show _ = (if next.1 ≠ symbol.1 then indices symbol.1 (next.1 - 1) 4 else []) ++ _
      split
      · rw [rangeLoop_index]
        rfl
      · rfl

/-- No range starts before the first offset. -/
theorem le_of_mem_loopIndices {size s i : ℕ} {rest : List ℕ} (hsorted : (s :: rest).Pairwise (· ≤ ·))
    (hi : i ∈ loopIndices size (s :: rest)) : s ≤ i := by
  induction rest generalizing s with
  | nil =>
    obtain ⟨-, k, rfl⟩ := (ForLoop.mem_indices (by decide)).mp hi
    exact Nat.le_add_right s _
  | cons next rest ih =>
    have hnext : s ≤ next := List.rel_of_pairwise_cons hsorted List.mem_cons_self
    rw [loopIndices] at hi
    rcases List.mem_append.mp hi with hi | hi
    · split at hi
      · obtain ⟨-, k, rfl⟩ := (ForLoop.mem_indices (by decide)).mp hi
        exact Nat.le_add_right s _
      · cases hi
    · exact hnext.trans (ih hsorted.of_cons hi)

/-- An offset inside a word is not its second byte, and has a symbol on the next byte. -/
def Leads (offsets : List ℕ) (d : ℕ) : Prop := d % 4 ≠ 1 ∧ (d % 4 = 0 ∨ d + 1 ∈ offsets)

instance (offsets : List ℕ) (d : ℕ) : Decidable (Leads offsets d) :=
  inferInstanceAs (Decidable (_ ∧ _))

/-- What the ranges of the offsets must do from a word boundary on. -/
def LeadsFrom (b : ℕ) (offsets : List ℕ) : Prop := b ∈ offsets ∧ ∀ d ∈ offsets, Leads offsets d

theorem leads_cons_iff {s d : ℕ} {offsets : List ℕ} (h : s ≤ d) :
    Leads (s :: offsets) d ↔ Leads offsets d := by
  have hne : d + 1 ≠ s := Nat.ne_of_gt (Nat.lt_succ_of_le h)
  rw [Leads, Leads, List.mem_cons]
  constructor
  · exact fun hd => ⟨hd.1, hd.2.imp_right fun hmem => hmem.resolve_left hne⟩
  · exact fun hd => ⟨hd.1, hd.2.imp_right .inr⟩

section Tail

variable {s next : ℕ} {rest : List ℕ} (hsorted : (s :: next :: rest).Pairwise (· ≤ ·))
include hsorted

theorem forall_leads_cons :
    (∀ d ∈ s :: next :: rest, Leads (s :: next :: rest) d) ↔
      Leads (s :: next :: rest) s ∧ ∀ d ∈ next :: rest, Leads (next :: rest) d := by
  rw [List.forall_mem_cons]
  have htail : ∀ d ∈ next :: rest, Leads (s :: next :: rest) d ↔ Leads (next :: rest) d :=
    fun d hd => leads_cons_iff (List.rel_of_pairwise_cons hsorted hd)
  constructor
  · exact fun h => ⟨h.1, fun d hd => (htail d hd).mp (h.2 d hd)⟩
  · exact fun h => ⟨h.1, fun d hd => (htail d hd).mpr (h.2 d hd)⟩

theorem succ_not_mem (h : s + 1 < next) : s + 1 ∉ s :: next :: rest := by
  intro hmem
  rcases List.mem_cons.mp hmem with heq | hmem
  · exact Nat.succ_ne_self s heq
  · rcases List.mem_cons.mp hmem with rfl | hmem
    · exact Nat.lt_irrefl _ h
    · have hle : next ≤ s + 1 := List.rel_of_pairwise_cons hsorted.of_cons hmem
      omega

end Tail

/-- The range from a word boundary up to an offset, and the boundary where the next one has
to start. -/
theorem indices_boundary {size b next : ℕ} (hsize : 4 ∣ size) (hb : 4 ∣ b) (hnext : b + 1 < next)
    (hlt : next < size) :
    ∃ b', 4 ∣ b' ∧ b' ≤ next + 2 ∧ next ≤ b' + 1 ∧ b < b' ∧
      indices b size 4 = indices b (next - 1) 4 ++ indices b' size 4 := by
  obtain ⟨m, rfl⟩ := hb
  obtain ⟨n, rfl⟩ := hsize
  obtain ⟨k, hk⟩ : ∃ k, 4 * k < next - 1 + 4 - 4 * m ∧ next - 1 ≤ 4 * m + 4 * k :=
    ⟨(next - 1 - 4 * m + 3) / 4, by omega, by omega⟩
  refine ⟨4 * m + 4 * k, by omega, by omega, by omega, by omega, ?_⟩
  have hcut : indices (4 * m) (next - 1) 4 = indices (4 * m) (4 * m + 4 * k) 4 := by
    simp only [indices]
    congr 1
    omega
  have hend : 4 * n = 4 * m + 4 * (k + (n - m - k)) := by omega
  rw [hcut, hend, ForLoop.indices_append k (n - m - k) (by decide), Nat.mul_add, Nat.add_assoc]

/-- A run of offsets that leads on reaches the boundary near which it starts. -/
theorem boundary_mem {b next : ℕ} {offsets : List ℕ} (hb : 4 ∣ b) (hlow : b ≤ next + 2)
    (hhigh : next ≤ b + 1) (hmem : next ∈ offsets) (h : ∀ d ∈ offsets, Leads offsets d) :
    b ∈ offsets := by
  have hstep : ∀ d ∈ offsets, d % 4 ≠ 0 → d + 1 ∈ offsets :=
    fun d hd hne => (h d hd).2.resolve_left hne
  have hone := (h next hmem).1
  -- the boundary is at most two bytes ahead, since an offset is not the second byte of a word
  have hplace : next = b ∨ next + 1 = b ∨ next + 2 = b := by omega
  rcases hplace with rfl | rfl | rfl
  · exact hmem
  · exact hstep next hmem (by omega)
  · exact hstep (next + 1) (hstep next hmem (by omega)) (by omega)

theorem start_of_indices {first b size : ℕ} {l : List ℕ} (h : first :: l = indices b size 4) :
    first = b := by
  by_cases hlt : b < size
  · rw [ForLoop.indices_of_lt hlt (by decide)] at h
    exact (List.cons.inj h).1
  · rw [ForLoop.indices_of_le (Nat.not_lt.mp hlt) (by decide)] at h
    cases h

section Lead

variable {b s next : ℕ} {rest : List ℕ} (hsorted : (s :: next :: rest).Pairwise (· ≤ ·))
include hsorted

theorem le_of_mem_offsets {d : ℕ} (hd : d ∈ s :: next :: rest) : s ≤ d := by
  rcases List.mem_cons.mp hd with rfl | hd
  · exact le_rfl
  · exact List.rel_of_pairwise_cons hsorted hd

/-- A second symbol at an offset changes nothing. -/
theorem leadsFrom_same (h : next = s) :
    LeadsFrom b (s :: next :: rest) ↔ LeadsFrom b (next :: rest) := by
  subst h
  have hmem : b ∈ next :: next :: rest ↔ b ∈ next :: rest := by simp
  rw [LeadsFrom, forall_leads_cons hsorted, hmem, LeadsFrom]
  constructor
  · exact fun h => ⟨h.1, h.2.2⟩
  · refine fun h => ⟨h.1, ?_, h.2⟩
    exact (leads_cons_iff le_rfl).mpr (h.2 next List.mem_cons_self)

/-- A symbol right before the next one leads there if the boundary is behind it. -/
theorem leadsFrom_succ (h : next = s + 1) (hb : 4 ∣ b) (hlow : b ≤ s + 2) (hsb : s < b) :
    LeadsFrom b (s :: next :: rest) ↔ LeadsFrom b (next :: rest) := by
  have hmem : b ∈ s :: next :: rest ↔ b ∈ next :: rest :=
    ⟨fun h => (List.mem_cons.mp h).resolve_left (by omega), List.mem_cons_of_mem s⟩
  rw [LeadsFrom, forall_leads_cons hsorted, hmem, LeadsFrom]
  constructor
  · exact fun h => ⟨h.1, h.2.2⟩
  · refine fun htail => ⟨htail.1, ⟨by omega, .inr ?_⟩, htail.2⟩
    rw [← h]
    exact List.mem_cons_of_mem s List.mem_cons_self

/-- At the boundary it cuts the word off. -/
theorem not_leadsFrom_succ (h : next = s + 1) (hb : 4 ∣ b) (hbs : b ≤ s) :
    ¬LeadsFrom b (s :: next :: rest) := by
  rintro ⟨hmem, hleads⟩
  have hle := le_of_mem_offsets hsorted hmem
  have hone := (hleads next (List.mem_cons_of_mem s List.mem_cons_self)).1
  omega

/-- The range of a symbol at the boundary ends near the boundary where the next one starts. -/
theorem leadsFrom_gap {b' : ℕ} (hs : 4 ∣ s) (hb' : 4 ∣ b') (hlow : b' ≤ next + 2)
    (hhigh : next ≤ b' + 1) : LeadsFrom s (s :: next :: rest) ↔ LeadsFrom b' (next :: rest) := by
  rw [LeadsFrom, forall_leads_cons hsorted, LeadsFrom]
  constructor
  · exact fun h => ⟨boundary_mem hb' hlow hhigh List.mem_cons_self h.2.2, h.2.2⟩
  · exact fun h => ⟨List.mem_cons_self, ⟨by omega, .inl (by omega)⟩, h.2⟩

/-- A range that does not start at the boundary is not led up to. -/
theorem not_leadsFrom_gap (h : s + 1 < next) (hb : 4 ∣ b) (hlow : b ≤ s + 2) (hsb : s ≠ b) :
    ¬LeadsFrom b (s :: next :: rest) := by
  rintro ⟨hmem, hleads⟩
  have hle := le_of_mem_offsets hsorted hmem
  have hword := (hleads s List.mem_cons_self).2.resolve_right (succ_not_mem hsorted h)
  omega

end Lead

/-- From a word boundary on, sorted offsets near it walk through all words behind it exactly
if they lead from it. -/
theorem loopIndices_eq_iff {size b s : ℕ} {rest : List ℕ} (hsize : 4 ∣ size) (hb : 4 ∣ b)
    (hsorted : (s :: rest).Pairwise (· ≤ ·)) (hlt : ∀ d ∈ s :: rest, d < size) (hlow : b ≤ s + 2)
    (hhigh : s ≤ b + 1) :
    loopIndices size (s :: rest) = indices b size 4 ↔ LeadsFrom b (s :: rest) := by
  induction rest generalizing s b with
  | nil =>
    rw [loopIndices]
    constructor
    · intro heq
      rw [ForLoop.indices_of_lt (hlt s List.mem_cons_self) (by decide)] at heq
      obtain rfl := start_of_indices heq
      refine ⟨List.mem_singleton_self s, ?_⟩
      intro d hd
      obtain rfl := List.mem_singleton.mp hd
      exact ⟨by omega, .inl (by omega)⟩
    · rintro ⟨hmem, -⟩
      rw [List.mem_singleton.mp hmem]
  | cons next rest ih =>
    have hnext : s ≤ next := List.rel_of_pairwise_cons hsorted List.mem_cons_self
    have htail : ∀ d ∈ next :: rest, d < size := fun d hd => hlt d (List.mem_cons_of_mem s hd)
    have hnextlt : next < size := htail next List.mem_cons_self
    rw [loopIndices]
    rcases Nat.lt_trichotomy next (s + 1) with hcase | hcase | hcase
    · have hsame : next = s := by omega
      rw [if_neg (not_not.mpr hsame), List.nil_append, leadsFrom_same hsorted hsame]
      exact ih hb hsorted.of_cons htail (by omega) (by omega)
    · -- the range of the first symbol is empty
      rw [if_pos (by omega), ForLoop.indices_of_le (by omega) (by decide), List.nil_append]
      by_cases hsb : b ≤ s
      · -- nothing walks through the word at the boundary
        refine iff_of_false ?_ (not_leadsFrom_succ hsorted hcase hb hsb)
        intro heq
        have hmem : b ∈ loopIndices size (next :: rest) := by
          rw [heq]
          exact (ForLoop.mem_indices (by decide)).mpr ⟨by omega, 0, rfl⟩
        have hle := le_of_mem_loopIndices hsorted.of_cons hmem
        omega
      · rw [leadsFrom_succ hsorted hcase hb hlow (Nat.not_le.mp hsb)]
        exact ih hb hsorted.of_cons htail (by omega) (by omega)
    · rw [if_pos (by omega)]
      by_cases hsb : s = b
      · -- the range walks up to the boundary near the next offset
        subst hsb
        obtain ⟨b', hb', hlow', hhigh', -, hsplit⟩ := indices_boundary hsize hb hcase hnextlt
        rw [hsplit, List.append_cancel_left_eq, leadsFrom_gap hsorted hb hb' hlow' hhigh']
        exact ih hb' hsorted.of_cons htail hlow' hhigh'
      · refine iff_of_false ?_ (not_leadsFrom_gap hsorted hcase hb hlow hsb)
        intro heq
        rw [ForLoop.indices_of_lt (by omega) (by decide), List.cons_append] at heq
        exact hsb (start_of_indices heq)

theorem loopIndices_eq_words_iff {size : ℕ} {offsets : List ℕ} (hsize : 4 ∣ size)
    (hne : offsets ≠ []) (hsorted : offsets.Pairwise (· ≤ ·)) (hlt : ∀ d ∈ offsets, d < size) :
    loopIndices size offsets = indices 0 size 4 ↔ LeadsFrom 0 offsets := by
  cases offsets with
  | nil => exact absurd rfl hne
  | cons s rest =>
    by_cases hs : s ≤ 1
    · exact loopIndices_eq_iff hsize (Nat.dvd_zero 4) hsorted hlt (Nat.zero_le _) hs
    · have hpos := hlt s List.mem_cons_self
      constructor
      · intro heq
        have hmem : 0 ∈ loopIndices size (s :: rest) := by
          rw [heq]
          exact (ForLoop.mem_indices (by decide)).mpr ⟨by omega, 0, rfl⟩
        have hle := le_of_mem_loopIndices hsorted hmem
        omega
      · rintro ⟨hmem, -⟩
        rcases List.mem_cons.mp hmem with heq | hmem
        · omega
        · have hle : s ≤ 0 := List.rel_of_pairwise_cons hsorted hmem
          omega

/-! ## Symbols on word boundaries -/

/-- With the symbols the loop expects, every word of the section is visited once and in order. -/
theorem WordSymbols.loop_index {sec : SectionRef} {symbols : List Symbol}
    (h : WordSymbols sec.size symbols) (hsize : 4 ∣ sec.size) (si : ℕ) :
    (symbolLoop sec si symbols).map Current.index = indices 0 sec.size 4 := by
  obtain ⟨name, hzero⟩ := h.zero
  have hmem : 0 ∈ symbols.map Prod.fst := List.mem_map_of_mem hzero
  have hinside : ∀ d ∈ symbols.map Prod.fst, d < sec.size := by
    intro d hd
    obtain ⟨symbol, hsymbol, rfl⟩ := List.mem_map.mp hd
    exact h.inside symbol hsymbol
  rw [symbolLoop_indices,
    loopIndices_eq_words_iff hsize (List.ne_nil_of_mem hmem) (sorted_offsets h.sorted) hinside]
  refine ⟨hmem, ?_⟩
  intro d hd
  obtain ⟨symbol, hsymbol, rfl⟩ := List.mem_map.mp hd
  have haligned := h.aligned symbol hsymbol
  exact ⟨by omega, .inl (Nat.mod_eq_zero_of_dvd haligned)⟩

/-- The symbol list of a section that starts from an empty list: its own symbols, or the dummy. -/
def ownSymbols (obj : ObjectFile) (sec : SectionRef) : List Symbol :=
  if sectionSymbols obj sec = [] then [(0, "")] else sortSymbols (sectionSymbols obj sec)

theorem loadSymbols_initial (obj : ObjectFile) (sec : SectionRef) {reader : Reader}
    (h : reader.symbols = []) : (reader.loadSymbols obj sec).symbols = ownSymbols obj sec := by
  unfold Reader.loadSymbols ownSymbols
  rw [h, List.nil_append]
  by_cases hnil : sectionSymbols obj sec = []
  · rw [hnil]
    rfl
  · have hne : sortSymbols (sectionSymbols obj sec) ≠ [] := mt sortSymbols_eq_nil.mp hnil
    simp [hnil, hne]

theorem sectionSymbols_inside {obj : ObjectFile} {sec : SectionRef} {symbol : Symbol}
    (h : symbol ∈ sectionSymbols obj sec) : symbol.1 < sec.size := by
  obtain ⟨s, -, hs⟩ := List.mem_filterMap.mp h
  split at hs
  · dsimp only at hs
    split at hs
    · cases hs
    · next hlt =>
      obtain rfl := Option.some.inj hs
      exact Nat.lt_of_not_le hlt
  · cases hs

/-- The demand on a section's symbols: word-aligned, one at offset 0 or none at all. -/
def AlignedSymbols (symbols : List Symbol) : Prop :=
  (∀ symbol ∈ symbols, 4 ∣ symbol.1) ∧ (symbols = [] ∨ ∃ name, (0, name) ∈ symbols)

theorem ownSymbols_word {obj : ObjectFile} {sec : SectionRef} (hpos : 0 < sec.size)
    (h : AlignedSymbols (sectionSymbols obj sec)) : WordSymbols sec.size (ownSymbols obj sec) := by
  unfold ownSymbols
  split
  · exact ⟨List.pairwise_singleton _ _, by simp, by simpa using hpos, "", List.mem_singleton_self _⟩
  · next hne =>
    have hmem : ∀ s, s ∈ sortSymbols (sectionSymbols obj sec) ↔ s ∈ sectionSymbols obj sec :=
      fun s => (sortSymbols_perm _).mem_iff
    obtain ⟨name, hzero⟩ := h.2.resolve_left hne
    refine ⟨sortSymbols_sorted _, ?_, ?_, name, (hmem _).mpr hzero⟩
    · intro s hs
      exact h.1 s ((hmem s).mp hs)
    · intro s hs
      exact sectionSymbols_inside ((hmem s).mp hs)

/-! ## The calls of the reader -/

/-- The section a call is about. -/
def Call.sec : Call → SectionRef
  | .processDataSection sec => sec
  | .processDisAsmInstruction cur _ _ => cur.sec

theorem disassembleSections_calls {obj : ObjectFile} {reader : Reader} {secs : List SectionRef}
    {call : Call} (h : call ∈ (reader.disassembleSections obj secs).2) :
    (call = .processDataSection call.sec ∨ ∃ cur, call = textCall call.sec cur ∧ cur.sec = call.sec) ∧
      call.sec ∈ secs.filter SectionRef.dumped := by
  induction secs generalizing reader with
  | nil => cases h
  | cons sec secs ih =>
    rcases List.mem_append.mp (show call ∈ (reader.disassembleSection obj sec).2 ++ _ from h) with
      h | h
    · cases hd : sec.dumped with
      | false =>
        rw [disassembleSection_skipped hd] at h
        cases h
      | true =>
        have hmem : sec ∈ (sec :: secs).filter SectionRef.dumped :=
          List.mem_filter.mpr ⟨List.mem_cons_self, hd⟩
        cases ht : sec.isText with
        | false =>
          rw [disassembleSection_data hd ht] at h
          obtain rfl := List.mem_singleton.mp h
          exact ⟨Or.inl rfl, hmem⟩
        | true =>
          rw [disassembleSection_text hd ht] at h
          obtain ⟨cur, hcur, rfl⟩ := List.mem_map.mp h
          obtain rfl := symbolLoop_sec hcur
          exact ⟨Or.inr ⟨cur, rfl, rfl⟩, hmem⟩
    · obtain ⟨hcall, hmem⟩ := ih h
      obtain ⟨hmem, hd⟩ := List.mem_filter.mp hmem
      exact ⟨hcall, List.mem_filter.mpr ⟨List.mem_cons_of_mem _ hmem, hd⟩⟩

end Cpu0Toolchain.Elf2Hex
