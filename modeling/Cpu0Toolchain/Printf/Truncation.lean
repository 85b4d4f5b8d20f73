import Cpu0Toolchain.Printf.Items

/-!
# Truncation

The length `VSNPrintf` returns is that of the whole output, whatever the buffer holds of
it. Behind what is written the buffer is as before.
-/

namespace Cpu0Toolchain.Printf
open BoundedWriter

/-- The output of a format, from its items. -/
def output (items : List Item) : List Char := items.flatMap Item.text

/-- What `VSNPrintf` does with a format made of items: the buffer gets what fits of the
output and a NUL, and nothing else changes. -/
theorem vsnPrintf_items {format : CString} {items : List Item}
    (hformat : format.chars = items.flatMap Item.spell)
    (hwidth : ∀ conv, .conversion conv ∈ items → conv.operand.isNumber → conv.width ≤ kMaxLen)
    (buff : ℕ → Char) {buffLength : ℕ} (hlength : 1 ≤ buffLength) :
    ∃ mem, vsnPrintf buff buffLength format (items.flatMap Item.args) =
        .ok (mem, (output items).length) ∧
      (∀ i, i < min (output items).length (buffLength - 1) → (output items)[i]? = some (mem i)) ∧
      mem (min (output items).length (buffLength - 1)) = '\x00' ∧
      ∀ i, buffLength ≤ i → mem i = buff i := by
  have hfuel : items.length < format.chars.length + 1 := by
    have := length_le_spell items
    rw [hformat]
    omega
  have hscan : scan (buffLength - 1) (format.chars.length + 1) format.chars
      (items.flatMap Item.args) (⟨buff, 0⟩, 0) = .ok (put (buffLength - 1) (output items) (⟨buff, 0⟩, 0)) := by
    rw [hformat] at hfuel ⊢
    exact scan_items items hfuel _ hwidth
  obtain ⟨hcells, hnul, hframe⟩ := terminated (buffLength - 1) '\x00' (output items) buff
  refine ⟨(write (buffLength - 1 + 1) '\x00' (writeAll (buffLength - 1) (output items) ⟨buff, 0⟩)).mem,
    ?_, hcells, hnul, fun i hi => hframe i (by omega)⟩
  refine (bind_ok hscan).trans ?_
  rw [put, Nat.zero_add]
  rfl

/-- Truncation and frame of `VSNPrintf`, for widths that `AppendNumber` has room for: the
result is the length of the output for every buffer length, the buffer holds as much of the
output as fits in front of the NUL, and is not touched behind its length. -/
theorem vsnPrintf_truncates {format : CString} {items : List Item}
    (hformat : format.chars = items.flatMap Item.spell)
    (hwidth : ∀ conv, .conversion conv ∈ items → conv.width ≤ 29) (buff : ℕ → Char)
    {buffLength : ℕ} (hlength : 1 ≤ buffLength) :
    ∃ mem, vsnPrintf buff buffLength format (items.flatMap Item.args) =
        .ok (mem, (output items).length) ∧
      (∀ i, i < min (output items).length (buffLength - 1) → (output items)[i]? = some (mem i)) ∧
      mem (min (output items).length (buffLength - 1)) = '\x00' ∧
      ∀ i, buffLength ≤ i → mem i = buff i := by
  refine vsnPrintf_items hformat ?_ buff hlength
  intro conv hconv _
  exact (hwidth conv hconv).trans (by decide)

/-- The format `<%-5.*s>`. -/
def angledString : List Item := [
  .literal '<' (by decide),
  .conversion ⟨true, [digit 5], some 2, .s (some ⟨['a', 'b', 'c'], by decide⟩)⟩,
  .literal '>' (by decide)]

/-- Four of the seven characters of `<ab   >` fit into five. -/
theorem angledString_truncates :
    ∃ mem, vsnPrintf (fun _ => '#') 5 ⟨['<', '%', '-', '5', '.', '*', 's', '>'], by decide⟩
        [.int 2, .pointer (some ⟨['a', 'b', 'c'], by decide⟩)] = .ok (mem, 7) ∧
      (∀ i, i < 4 → "<ab   >".toList[i]? = some (mem i)) ∧ mem 4 = '\x00' ∧
      ∀ i, 5 ≤ i → mem i = '#' := by
  have hformat : (⟨['<', '%', '-', '5', '.', '*', 's', '>'], by decide⟩ : CString).chars =
      angledString.flatMap Item.spell := rfl
  refine vsnPrintf_truncates hformat ?_ (fun _ => '#') (by decide)
  intro conv hconv
  simp only [angledString, List.mem_cons, reduceCtorEq, false_or, List.not_mem_nil, or_false,
    Item.conversion.injEq] at hconv
  subst hconv
  decide

end Cpu0Toolchain.Printf
