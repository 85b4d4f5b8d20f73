import Cpu0Toolchain.Printf.Truncation

/-!
# What a conversion prints

`Conversion.Prints` says what `VSNPrintf` leaves of one conversion among other characters.

## Main results

- `Conversion.prints_text`: a conversion prints its text.
- `Conversion.prints_unique`: it prints one text only.
-/

namespace Cpu0Toolchain.Printf

/-- In any buffer that is longer than the output, `VSNPrintf` leaves the output and a NUL. -/
def Leaves (format : CString) (args : List Arg) (out : List Char) : Prop :=
  ∀ (buff : ℕ → Char) (buffLength : ℕ), out.length + 1 ≤ buffLength →
    ∃ mem, vsnPrintf buff buffLength format args = .ok (mem, out.length) ∧
      (∀ i < out.length, out[i]? = some (mem i)) ∧ mem out.length = '\x00'

/-- The conversion prints the text, whatever characters stand around it. -/
def Conversion.Prints (conv : Conversion) (text : List Char) : Prop :=
  ∀ (format : CString) (before after : List Char), '%' ∉ before → '%' ∉ after →
    format.chars = before ++ conv.spell ++ after →
    Leaves format conv.args (before ++ text ++ after)

theorem exists_literals {text : List Char} (h : '%' ∉ text) :
    ∃ items : List Item, items.flatMap Item.spell = text ∧ items.flatMap Item.args = [] ∧
      output items = text ∧ ∀ conv, .conversion conv ∉ items := by
  induction text with
  | nil => exact ⟨[], rfl, rfl, rfl, fun _ => List.not_mem_nil⟩
  | cons c text ih =>
    obtain ⟨hc, htext⟩ := List.ne_and_not_mem_of_not_mem_cons h
    obtain ⟨items, hspell, hargs, hout, hconv⟩ := ih htext
    refine ⟨.literal c hc.symm :: items, ?_, ?_, ?_, ?_⟩
    · exact congrArg (c :: ·) hspell
    · exact hargs
    · exact congrArg (c :: ·) hout
    · intro conv hmem
      rcases List.mem_cons.mp hmem with heq | hmem
      · cases heq
      · exact hconv conv hmem

theorem Conversion.prints_text (conv : Conversion)
    (hwidth : conv.operand.isNumber → conv.width ≤ kMaxLen) :
    conv.Prints (conv.operand.text conv.directive) := by
  intro format before after hbefore hafter hformat buff buffLength hlength
  obtain ⟨pre, hpre, hpreArgs, hpreOut, hpreConv⟩ := exists_literals hbefore
  obtain ⟨post, hpost, hpostArgs, hpostOut, hpostConv⟩ := exists_literals hafter
  -- the format as items, of which only the conversion takes arguments
  set items := pre ++ [.conversion conv] ++ post with hitems
  have hout : output items = before ++ conv.operand.text conv.directive ++ after := by
    rw [output] at hpreOut hpostOut ⊢
    rw [hitems, List.flatMap_append, List.flatMap_append, hpreOut, hpostOut, List.flatMap_singleton]
    rfl
  have hargs : items.flatMap Item.args = conv.args := by
    rw [hitems, List.flatMap_append, List.flatMap_append, hpreArgs, hpostArgs,
      List.flatMap_singleton, List.nil_append, List.append_nil]
    rfl
  have hspell : format.chars = items.flatMap Item.spell := by
    rw [hformat, hitems, List.flatMap_append, List.flatMap_append, hpre, hpost,
      List.flatMap_singleton]
    rfl
  have hwidths : ∀ c, .conversion c ∈ items → c.operand.isNumber → c.width ≤ kMaxLen := by
    intro c hmem
    rcases List.mem_append.mp hmem with hmem | hmem
    · rcases List.mem_append.mp hmem with hmem | hmem
      · exact absurd hmem (hpreConv c)
      · obtain rfl := Item.conversion.inj (List.mem_singleton.mp hmem)
        exact hwidth
    · exact absurd hmem (hpostConv c)
  obtain ⟨mem, hrun, hcells, hnul, -⟩ :=
    vsnPrintf_items hspell hwidths buff (show 1 ≤ buffLength by omega)
  rw [hargs, hout] at hrun
  rw [hout, Nat.min_eq_left (by omega)] at hcells hnul
  exact ⟨mem, hrun, hcells, hnul⟩

theorem nul_notMem_spell (conv : Conversion) : '\x00' ∉ conv.spell := by
  have hdigit : ∀ d : Fin 10, Nat.digitChar d ≠ '\x00' := by decide
  have hoperand : '\x00' ∉ conv.operand.modifier ++ [conv.operand.letter] := by
    rcases conv.operand with v | v | v | v | v | v | v | -
    case d | u | x | X => cases v <;> simp [Operand.modifier, IntArg.modifier, Operand.letter]
    all_goals simp [Operand.modifier, Operand.letter]
  have hprecision : '\x00' ∉ (if conv.precision.isSome then ['.', '*'] else []) := by
    cases conv.precision.isSome <;> simp
  have hminus : '\x00' ∉ (if conv.leftJustified then ['-'] else []) := by
    cases conv.leftJustified <;> simp
  intro hmem
  rw [Conversion.spell, Conversion.ending, List.append_assoc _ conv.operand.modifier] at hmem
  rcases List.mem_cons.mp hmem with hpercent | hmem
  · exact absurd hpercent (by decide)
  · rcases List.mem_append.mp hmem with hmem | hmem
    · rcases List.mem_append.mp hmem with hmem | hmem
      · exact hminus hmem
      · obtain ⟨d, -, hd⟩ := List.mem_map.mp hmem
        exact hdigit d hd
    · exact (List.mem_append.mp hmem).elim hprecision hoperand

/-- What a conversion prints is fixed by the program. -/
theorem Conversion.prints_unique {conv : Conversion} {xs ys : List Char} (hx : conv.Prints xs)
    (hy : conv.Prints ys) : xs = ys := by
  have hall : ∀ zs, conv.Prints zs → Leaves ⟨conv.spell, nul_notMem_spell conv⟩ conv.args zs := by
    intro zs hz
    have hleaves := hz ⟨conv.spell, nul_notMem_spell conv⟩ [] [] List.not_mem_nil List.not_mem_nil
      (List.append_nil _).symm
    rwa [List.nil_append, List.append_nil] at hleaves
  have hlong : xs.length + 1 ≤ xs.length + ys.length + 1 ∧ ys.length + 1 ≤ xs.length + ys.length + 1 :=
    ⟨by omega, by omega⟩
  -- one run in a buffer with room for either text
  obtain ⟨mem, hrun, hcells, -⟩ := hall xs hx (fun _ => ' ') _ hlong.1
  obtain ⟨mem', hrun', hcells', -⟩ := hall ys hy (fun _ => ' ') _ hlong.2
  obtain ⟨rfl, hlen⟩ := Prod.mk.inj (Except.ok.inj (hrun.symm.trans hrun'))
  apply List.ext_getElem?
  intro i
  by_cases hi : i < xs.length
  · rw [hcells i hi, hcells' i (hlen ▸ hi)]
  · rw [List.getElem?_eq_none (by omega), List.getElem?_eq_none (by omega)]

end Cpu0Toolchain.Printf
