import Cpu0Toolchain.Hex.HexToAsm

/-!
# filterhex before dishex

The pipeline of `dishex/README.txt`. Whatever `filterHex` writes, `HexToAsm::run` takes
every line of it as a word and stops behind the last one.
-/

namespace Cpu0Toolchain.Hex
open TextStream HexLine

/-- A line that `filterHex` writes is a word for dishex. -/
theorem exists_accepted {line : Text} (h : Written line) : ∃ word, HexToAsm.Accepted line word := by
  obtain ⟨hdigits, hlen⟩ := countDigits_eq_some h.count
  obtain ⟨word, hword, hspells⟩ := exists_bytes (n := 4) (by omega) hdigits
  exact ⟨word, HexToAsm.accepted_of_spells hword hspells⟩

theorem exists_forall₂_accepted {lines : List Text} (h : ∀ line ∈ lines, Written line) :
    ∃ words, List.Forall₂ HexToAsm.Accepted lines words := by
  induction lines with
  | nil => exact ⟨[], .nil⟩
  | cons line lines ih =>
    obtain ⟨word, hword⟩ := exists_accepted (h line List.mem_cons_self)
    obtain ⟨words, hwords⟩ := ih fun l hl => h l (List.mem_cons_of_mem _ hl)
    exact ⟨word :: words, .cons hword hwords⟩

/-- dishex accepts each line that filterhex writes and gives exactly the words of the lines
to the decoder. -/
theorem filterHex_disassembles (input : Text) :
    ∃ lines words, filterHex input = unlines lines ∧
      List.Forall₂ HexToAsm.Accepted lines words ∧
      ∀ decoder : Decoder, (∀ word ∈ words, (decoder word).isSome) → ∀ p,
        ∃ q, HexToAsm.run decoder (ofText (filterHex input)) p = .ok q ∧
          q.decoded = p.decoded ++ words ∧ q.errs = p.errs := by
  obtain ⟨lines, hfilter, hwritten⟩ := filterHex_written input
  obtain ⟨words, hwords⟩ := exists_forall₂_accepted hwritten
  refine ⟨lines, words, hfilter, hwords, ?_⟩
  intro decoder hdecoder p
  rw [hfilter]
  exact HexToAsm.run_accepted hwords hdecoder p

end Cpu0Toolchain.Hex
