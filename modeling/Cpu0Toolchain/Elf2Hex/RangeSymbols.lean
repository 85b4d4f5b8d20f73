import Cpu0Toolchain.Elf2Hex.SymbolRanges

/-!
# The symbol of a word

In a sorted list the range that a word lies in is that of the last symbol not behind it: an
entry with the same offset as the next one has no range. So an entry more in the list does no
harm where an own symbol of the section stands at its offset and comes after it, or where the
section is over.

## Main result

- `rangeWords_eq_iff`: the ranges of a section's own symbols are the same among other
  symbols exactly if these all are of that kind.
-/

namespace Cpu0Toolchain.Elf2Hex
open ForLoop (indices)

/-- The words that the symbol loop goes through, each with the symbol in whose range it lies. -/
def rangeWords (sec : SectionRef) (symbols : List Symbol) : List (Option Symbol × ℕ) :=
  (symbolLoop sec 0 symbols).map fun cur => (symbols[cur.si]?, cur.index)

/-- The last symbol that is not behind an index. -/
structure LastSymbol (symbols : List Symbol) (index : ℕ) (symbol : Symbol) : Prop where
  mem : symbol ∈ symbols
  le : symbol.1 ≤ index
  last : ∀ s ∈ symbols, s.1 ≤ index → symbolLe s symbol

theorem symbolLe_refl (s : Symbol) : symbolLe s s := .inr ⟨rfl, le_rfl⟩

theorem symbolLe_antisymm {a b : Symbol} (hab : symbolLe a b) (hba : symbolLe b a) : a = b := by
  rcases hab with hlt | ⟨heq, hname⟩
  · rcases hba with hlt' | ⟨heq', -⟩
    · exact absurd hlt' hlt.asymm
    · exact absurd heq' hlt.ne'
  · rcases hba with hlt' | ⟨-, hname'⟩
    · exact absurd heq hlt'.ne'
    · exact Prod.ext heq (le_antisymm hname hname')

theorem symbolLe.fst_le {a b : Symbol} (h : symbolLe a b) : a.1 ≤ b.1 := by
  rcases h with hlt | ⟨heq, -⟩
  · exact hlt.le
  · exact heq.le

theorem LastSymbol.unique {symbols : List Symbol} {index : ℕ} {a b : Symbol}
    (ha : LastSymbol symbols index a) (hb : LastSymbol symbols index b) : a = b :=
  symbolLe_antisymm (hb.last a ha.mem ha.le) (ha.last b hb.mem hb.le)

section Sorted

variable {sec : SectionRef}

/-- The loop stands in the range of the last symbol that is not behind the word. -/
theorem symbolLoop_lastSymbol {si : ℕ} {symbols : List Symbol} (hsorted : symbols.Pairwise symbolLe)
    {cur : Current} (h : cur ∈ symbolLoop sec si symbols) :
    ∃ k symbol, cur.si = si + k ∧ symbols[k]? = some symbol ∧
      LastSymbol symbols cur.index symbol := by
  induction symbols generalizing si with
  | nil => cases h
  | cons symbol rest ih =>
    cases rest with
    | nil =>
      obtain ⟨index, hindex, rfl⟩ := List.mem_map.mp h
      obtain ⟨-, k, rfl⟩ := (ForLoop.mem_indices (by decide)).mp hindex
      refine ⟨0, symbol, rfl, rfl, List.mem_singleton_self symbol, Nat.le_add_right _ _, ?_⟩
      intro s hs _
      rw [List.mem_singleton.mp hs]
      exact symbolLe_refl symbol
    | cons next rest =>
      rcases List.mem_append.mp h with h | h
      · split at h
        · obtain ⟨index, hindex, rfl⟩ := List.mem_map.mp h
          obtain ⟨hlt, k, rfl⟩ := (ForLoop.mem_indices (by decide)).mp hindex
          refine ⟨0, symbol, rfl, rfl, List.mem_cons_self, Nat.le_add_right _ _, ?_⟩
          intro s hs hle
          rcases List.mem_cons.mp hs with rfl | hs
          · exact symbolLe_refl s
          · -- all others are at the next offset or behind it
            have hnext : next.1 ≤ s.1 := by
              rcases List.mem_cons.mp hs with rfl | hs
              · exact le_rfl
              · exact (List.rel_of_pairwise_cons hsorted.of_cons hs).fst_le
            dsimp only at hle
            omega
        · cases h
      · obtain ⟨k, s, hsi, hget, hs⟩ := ih hsorted.of_cons h
        refine ⟨k + 1, s, by omega, hget, List.mem_cons_of_mem _ hs.mem, hs.le, ?_⟩
        intro t ht hle
        rcases List.mem_cons.mp ht with rfl | ht
        · exact List.rel_of_pairwise_cons hsorted hs.mem
        · exact hs.last t ht hle

theorem rangeWords_lastSymbol {symbols : List Symbol} (hsorted : symbols.Pairwise symbolLe)
    {word : Option Symbol × ℕ} (h : word ∈ rangeWords sec symbols) :
    ∃ symbol, word.1 = some symbol ∧ LastSymbol symbols word.2 symbol := by
  obtain ⟨cur, hcur, rfl⟩ := List.mem_map.mp h
  obtain ⟨k, symbol, hsi, hget, hlast⟩ := symbolLoop_lastSymbol hsorted hcur
  refine ⟨symbol, ?_, hlast⟩
  dsimp only
  rw [hsi, Nat.zero_add, hget]

theorem rangeWords_indices (sec : SectionRef) (symbols : List Symbol) :
    (rangeWords sec symbols).map Prod.snd = loopIndices sec.size (symbols.map Prod.fst) := by
  rw [← symbolLoop_indices sec 0, rangeWords, List.map_map]
  rfl

/-- Pairs with the same second components are the same if these determine the first ones. -/
theorem eq_of_map_snd_eq {α β : Type*} {xs ys : List (α × β)}
    (hsnd : xs.map Prod.snd = ys.map Prod.snd) (hfst : ∀ x ∈ xs, ∀ y ∈ ys, x.2 = y.2 → x.1 = y.1) :
    xs = ys := by
  induction xs generalizing ys with
  | nil => exact (List.map_eq_nil_iff.mp hsnd.symm).symm
  | cons x xs ih =>
    cases ys with
    | nil => cases hsnd
    | cons y ys =>
      obtain ⟨hhead, htail⟩ := List.cons.inj hsnd
      have hxy : x = y :=
        Prod.ext (hfst x List.mem_cons_self y List.mem_cons_self hhead) hhead
      rw [hxy, ih htail fun x hx y hy =>
        hfst x (List.mem_cons_of_mem _ hx) y (List.mem_cons_of_mem _ hy)]

end Sorted

/-! ## Offsets on word boundaries -/

/-- Ranges between word boundaries go through all words up to the end of the section, or up to
the last offset if that is behind it. -/
theorem loopIndices_words {size stop s : ℕ} {rest : List ℕ} (hsorted : (s :: rest).Pairwise (· ≤ ·))
    (haligned : ∀ d ∈ s :: rest, 4 ∣ d) (hsize : 4 ∣ size) (hle : size ≤ stop)
    (hstop : stop = size ∨ stop ∈ s :: rest) (hlast : ∀ d ∈ s :: rest, d ≤ stop) :
    loopIndices size (s :: rest) = indices s stop 4 := by
  induction rest generalizing s with
  | nil =>
    rw [loopIndices]
    rcases hstop with rfl | hstop
    · rfl
    · rw [List.mem_singleton.mp hstop] at hle ⊢
      rw [ForLoop.indices_of_le hle (by decide), ForLoop.indices_of_le le_rfl (by decide)]
  | cons next rest ih =>
    have hnext : s ≤ next := List.rel_of_pairwise_cons hsorted List.mem_cons_self
    have hnextle : next ≤ stop := hlast next (List.mem_cons_of_mem s List.mem_cons_self)
    have htail : loopIndices size (next :: rest) = indices next stop 4 := by
      refine ih hsorted.of_cons (fun d hd => haligned d (List.mem_cons_of_mem s hd)) ?_
        fun d hd => hlast d (List.mem_cons_of_mem s hd)
      refine hstop.imp_right fun hmem => ?_
      rcases List.mem_cons.mp hmem with rfl | hmem
      · rw [show stop = next by omega]
        exact List.mem_cons_self
      · exact hmem
    have hdvd : 4 ∣ stop := hstop.elim (fun h => h ▸ hsize) (haligned stop)
    obtain ⟨a, rfl⟩ := haligned s List.mem_cons_self
    obtain ⟨b, rfl⟩ := haligned next (List.mem_cons_of_mem _ List.mem_cons_self)
    obtain ⟨c, rfl⟩ := hdvd
    rw [loopIndices, htail]
    by_cases hsame : 4 * b = 4 * a
    · rw [if_neg (not_not.mpr hsame), hsame, List.nil_append]
    · -- the range ends a byte short of the boundary, behind the last index
      have hshort : indices (4 * a) (4 * b - 1) 4 = indices (4 * a) (4 * b) 4 := by
        simp only [indices]
        congr 1
        omega
      obtain ⟨m, rfl⟩ : ∃ m, b = a + m := ⟨b - a, by omega⟩
      obtain ⟨n, rfl⟩ : ∃ n, c = a + m + n := ⟨c - (a + m), by omega⟩
      have happend := @ForLoop.indices_append (4 * a) 4 m n (by decide)
      rw [if_pos hsame, hshort, Nat.mul_add 4 a m, Nat.mul_add 4 (a + m) n, Nat.mul_add 4 a m,
        ← happend]
      congr 1
      omega

/-- Symbols on word boundaries, one at the first byte. -/
structure FromZero (symbols : List Symbol) : Prop where
  aligned : ∀ symbol ∈ symbols, 4 ∣ symbol.1
  zero : ∃ name, (0, name) ∈ symbols

theorem WordSymbols.fromZero {size : ℕ} {symbols : List Symbol} (h : WordSymbols size symbols) :
    FromZero symbols := ⟨h.aligned, h.zero⟩

/-- The ranges go through the words of the section and no others if no symbol is behind it. -/
theorem loopIndices_fromZero_iff {size : ℕ} {symbols : List Symbol} (hsize : 4 ∣ size)
    (hsorted : symbols.Pairwise symbolLe) (h : FromZero symbols) :
    loopIndices size (symbols.map Prod.fst) = indices 0 size 4 ↔ ∀ s ∈ symbols, s.1 ≤ size := by
  obtain ⟨name, hzero⟩ := h.zero
  have hmem : 0 ∈ symbols.map Prod.fst := List.mem_map_of_mem hzero
  have haligned : ∀ d ∈ symbols.map Prod.fst, 4 ∣ d := List.forall_mem_map.mpr h.aligned
  have hoffsets := sorted_offsets hsorted
  rw [← List.forall_mem_map (P := fun d => d ≤ size)]
  generalize symbols.map Prod.fst = offsets at hmem haligned hoffsets ⊢
  obtain ⟨hmax, hlast⟩ := List.max?_eq_some_iff.mp
    (show (size :: offsets).max? = some (offsets.foldl max size) from rfl)
  generalize offsets.foldl max size = stop at hmax hlast
  obtain ⟨hle, hlast⟩ := List.forall_mem_cons.mp hlast
  cases offsets with
  | nil => cases hmem
  | cons s rest =>
    obtain rfl : s = 0 := by
      rcases List.mem_cons.mp hmem with h0 | h0
      · exact h0.symm
      · exact Nat.le_zero.mp (List.rel_of_pairwise_cons hoffsets h0)
    rw [loopIndices_words hoffsets haligned hsize hle (List.mem_cons.mp hmax) hlast]
    constructor
    · intro heq d hd
      by_contra hgt
      have hlt : size < stop := lt_of_lt_of_le (Nat.not_le.mp hgt) (hlast d hd)
      have hword : size ∈ indices 0 size 4 := by
        rw [← heq]
        obtain ⟨n, hn⟩ := hsize
        exact (ForLoop.mem_indices (by decide)).mpr ⟨hlt, n, by omega⟩
      exact absurd ((ForLoop.mem_indices (by decide)).mp hword).1 (Nat.lt_irrefl size)
    · intro hinside
      rcases List.mem_cons.mp hmax with rfl | hstop
      · rfl
      · rw [le_antisymm (hinside stop hstop) hle]

/-! ## Symbols of other sections in the list -/

/-- A symbol that delimits nothing among `own`: it stands at the end of the section, or one of
`own` stands at its offset and comes after it. -/
def Hidden (size : ℕ) (own : List Symbol) (s : Symbol) : Prop :=
  s.1 = size ∨ ∃ o ∈ own, o.1 = s.1 ∧ s.2 ≤ o.2

instance (size : ℕ) (own : List Symbol) (s : Symbol) : Decidable (Hidden size own s) :=
  inferInstanceAs (Decidable (_ ∨ _))

section Among

variable {sec : SectionRef} {own symbols : List Symbol}

/-- The last symbol before a word is an own one, if the others are hidden. -/
theorem LastSymbol.of_own {index : ℕ} {symbol : Symbol} (h : LastSymbol own index symbol)
    (hindex : index < sec.size) (hsub : symbol ∈ symbols)
    (hhidden : ∀ s ∈ symbols, s ∈ own ∨ Hidden sec.size own s) :
    LastSymbol symbols index symbol := by
  refine ⟨hsub, h.le, ?_⟩
  intro s hs hle
  rcases hhidden s hs with hown | hend | ⟨o, ho, hoffset, hname⟩
  · exact h.last s hown hle
  · omega
  · have hso : symbolLe s o := .inr ⟨hoffset.symm, hname⟩
    exact trans_of symbolLe hso (h.last o ho (hoffset.trans_le hle))

/-- A word-aligned symbol inside the section does not delimit a range only if it is hidden. -/
theorem hidden_of_rangeWords_eq (hown : WordSymbols sec.size own) (hsize : 4 ∣ sec.size)
    (hsorted : symbols.Pairwise symbolLe) (h : rangeWords sec symbols = rangeWords sec own)
    {s : Symbol} (hs : s ∈ symbols) (haligned : 4 ∣ s.1) (hle : s.1 ≤ sec.size) :
    Hidden sec.size own s := by
  rcases Nat.eq_or_lt_of_le hle with heq | hlt
  · exact .inl heq
  · have hindices : (rangeWords sec own).map Prod.snd = indices 0 sec.size 4 :=
      (symbolLoop_indices sec 0 own ▸ rangeWords_indices sec own).trans (hown.loop_index hsize 0)
    obtain ⟨n, hn⟩ := haligned
    have hword : s.1 ∈ (rangeWords sec own).map Prod.snd := by
      rw [hindices]
      exact (ForLoop.mem_indices (by decide)).mpr ⟨hlt, n, by omega⟩
    obtain ⟨word, hmem, hindex⟩ := List.mem_map.mp hword
    obtain ⟨o, hfst, ho⟩ := rangeWords_lastSymbol hown.sorted hmem
    obtain ⟨o', hfst', ho'⟩ := rangeWords_lastSymbol hsorted (h.symm ▸ hmem)
    obtain rfl : o = o' := Option.some.inj (hfst.symm.trans hfst')
    rw [hindex] at ho ho'
    refine .inr ⟨o, ho.mem, ?_⟩
    rcases ho'.last s hs le_rfl with hbefore | ⟨hoffset, hname⟩
    · exact absurd ho.le (Nat.not_le.mpr hbefore)
    · exact ⟨hoffset.symm, hname⟩

/-- Among other symbols, the ranges of a section's own symbols stay as they are if and only if
the others are hidden. -/
theorem rangeWords_eq_iff (hown : WordSymbols sec.size own) (hsize : 4 ∣ sec.size)
    (hsorted : symbols.Pairwise symbolLe) (hzero : FromZero symbols) {others : List Symbol}
    (hothers : ∀ s ∈ others, s ∈ symbols) (hmem : ∀ s ∈ symbols, s ∈ others ∨ s ∈ own)
    (hsub : (∀ s ∈ others, Hidden sec.size own s) → ∀ o ∈ own, o ∈ symbols) :
    rangeWords sec symbols = rangeWords sec own ↔ ∀ s ∈ others, Hidden sec.size own s := by
  have hindices : loopIndices sec.size (own.map Prod.fst) = indices 0 sec.size 4 :=
    (loopIndices_fromZero_iff hsize hown.sorted hown.fromZero).mpr fun s hs => (hown.inside s hs).le
  constructor
  · intro h s hs
    have hinside : ∀ s ∈ symbols, s.1 ≤ sec.size := by
      rw [← loopIndices_fromZero_iff hsize hsorted hzero, ← rangeWords_indices, h,
        rangeWords_indices, hindices]
    have hsym := hothers s hs
    exact hidden_of_rangeWords_eq hown hsize hsorted h hsym (hzero.aligned s hsym) (hinside s hsym)
  · intro hhidden
    have hall : ∀ s ∈ symbols, s ∈ own ∨ Hidden sec.size own s :=
      fun s hs => (hmem s hs).symm.imp_right (hhidden s)
    have hinside : ∀ s ∈ symbols, s.1 ≤ sec.size := by
      intro s hs
      rcases hall s hs with hin | hend | ⟨o, ho, hoffset, -⟩
      · exact (hown.inside s hin).le
      · exact hend.le
      · exact hoffset ▸ (hown.inside o ho).le
    have hwords := (loopIndices_fromZero_iff hsize hsorted hzero).mpr hinside
    refine eq_of_map_snd_eq ?_ ?_
    · rw [rangeWords_indices, rangeWords_indices, hwords, hindices]
    · intro x hx y hy hxy
      obtain ⟨s, hsx, hlast⟩ := rangeWords_lastSymbol hsorted hx
      obtain ⟨o, hoy, hown'⟩ := rangeWords_lastSymbol hown.sorted hy
      have hindex : x.2 ∈ indices 0 sec.size 4 := by
        rw [← hwords, ← rangeWords_indices]
        exact List.mem_map_of_mem hx
      have hlt := ((ForLoop.mem_indices (by decide)).mp hindex).1
      rw [← hxy] at hown'
      rw [hsx, hoy, hlast.unique (hown'.of_own hlt (hsub hhidden o hown'.mem) hall)]

end Among

end Cpu0Toolchain.Elf2Hex
