import Cpu0Toolchain.Library.HexLine
import Cpu0Toolchain.Library.TextStream

/-!
# filterhex

`filterhex/filterhex.cpp` takes the hex bytes out of the lines of an assembly listing.
The loop of `checkInput` stands here for both programs that have it.
-/

namespace Cpu0Toolchain.Hex
open TextStream HexLine

/-- The loop of `checkInput`: the count of the digits, unless a character is neither a digit
nor a blank. -/
def countDigits : Text → ℕ → Option ℕ
  | [], length => some length
  | c :: rest, length =>
    if '0' ≤ c ∧ c ≤ '9' then countDigits rest (length + 1)
    else if 'A' ≤ c ∧ c ≤ 'F' then countDigits rest (length + 1)
    else if 'a' ≤ c ∧ c ≤ 'f' then countDigits rest (length + 1)
    else if c = ' ' then countDigits rest length
    else none

def checkInput (line : Text) : Bool :=
  match countDigits line 0 with
  | none => false
  | some length => if length ≠ 8 then false else true

/-- The result, and what is left in `Out`. -/
def getHex (input : Text) : Bool × Text :=
  if input.getD 0 '\x00' = ';' then (false, [])
  else if input.getD 0 '\x00' ≠ ' ' then (false, [])
  else
    let first := find ": ".toList input 0
    if first = npos then (false, [])
    else
      let last := find "  ".toList input (first + 1)
      if last < first then (false, [])
      else (true, substr input (first + 1) (last - first - 1))

/-- The body of the loop, with what has been written. -/
def filterLine (inLine os : Text) : Text :=
  let hex := getHex inLine
  if hex.1 = true then
    if checkInput hex.2 = true then os ++ (hex.2 ++ ['\n']) else os
  else os

def filterHexLoop (is : Stream) (inLine os : Text) : Text :=
  let r := getline is inLine
  if r.2.fail = true then os else filterHexLoop r.2 r.1 (filterLine r.1 os)
termination_by is.left
decreasing_by
  next hfail =>
    exact getline_left (eof_of_getline (Bool.not_eq_true _ ▸ hfail)) inLine

def filterHex (input : Text) : Text := filterHexLoop (ofText input) [] []

/-! ## Lines of hex digits -/

section Count

variable {c : Char} (rest : Text) (n : ℕ)

theorem countDigits_digit (h : ∃ v, IsDigit v c) :
    countDigits (c :: rest) n = countDigits rest (n + 1) := by
  obtain ⟨v, hv⟩ := h
  rw [countDigits]
  split
  · rfl
  · next h0 =>
    split
    · rfl
    · next hA =>
      split
      · rfl
      · next ha =>
        rcases isDigit_iff.mp hv with h | h | h
        · exact absurd ⟨h.1, h.2.1⟩ h0
        · exact absurd ⟨h.1, h.2.1⟩ hA
        · exact absurd ⟨h.1, h.2.1⟩ ha

theorem countDigits_other (h : ¬∃ v, IsDigit v c) (hblank : c ≠ ' ') :
    countDigits (c :: rest) n = none := by
  rw [countDigits, if_neg hblank]
  split
  · next hc => exact absurd ⟨_, isDigit_iff.mpr (.inl ⟨hc.1, hc.2, rfl⟩)⟩ h
  · split
    · next hc => exact absurd ⟨_, isDigit_iff.mpr (.inr (.inl ⟨hc.1, hc.2, rfl⟩))⟩ h
    · split
      · next hc => exact absurd ⟨_, isDigit_iff.mpr (.inr (.inr ⟨hc.1, hc.2, rfl⟩))⟩ h
      · rfl

end Count

/-- A counted line has digits and blanks only. -/
theorem countDigits_eq_some {line : Text} {n m : ℕ} (h : countDigits line n = some m) :
    (∀ c ∈ digits line, ∃ v, IsDigit v c) ∧ m = n + (digits line).length := by
  induction line generalizing n with
  | nil =>
    obtain rfl := Option.some.inj h
    exact ⟨fun c hc => absurd hc List.not_mem_nil, rfl⟩
  | cons c rest ih =>
    by_cases hblank : c = ' '
    · subst hblank
      exact ih h
    · by_cases hdigit : ∃ v, IsDigit v c
      · rw [countDigits_digit rest n hdigit] at h
        obtain ⟨hall, hlen⟩ := ih h
        have hcons : digits (c :: rest) = c :: digits rest :=
          List.filter_cons_of_pos (decide_eq_true hblank)
        rw [hcons]
        refine ⟨List.forall_mem_cons.mpr ⟨hdigit, hall⟩, ?_⟩
        rw [List.length_cons, hlen]
        omega
      · rw [countDigits_other rest n hdigit hblank] at h
        cases h

/-- A line of digits and blanks is counted. -/
theorem countDigits_of_digits {line : Text} (h : ∀ c ∈ digits line, ∃ v, IsDigit v c) {n : ℕ} :
    countDigits line n = some (n + (digits line).length) := by
  induction line generalizing n with
  | nil => rfl
  | cons c rest ih =>
    by_cases hblank : c = ' '
    · subst hblank
      exact ih h
    · have hcons : digits (c :: rest) = c :: digits rest :=
        List.filter_cons_of_pos (decide_eq_true hblank)
      rw [hcons] at h ⊢
      rw [countDigits_digit rest n (h c List.mem_cons_self),
        ih fun d hd => h d (List.mem_cons_of_mem c hd), List.length_cons]
      congr 1
      omega

/-- What `filterHex` writes as a line: a blank, and eight digits among further blanks. -/
structure Written (line : Text) : Prop where
  blank : line.head? = some ' '
  count : countDigits line 0 = some 8

/-- What `getHex` takes starts with the blank behind the colon. -/
theorem getHex_eq_true {input : Text} (h : (getHex input).1 = true) :
    ∃ after n, (getHex input).2 = (' ' :: after).take n := by
  unfold getHex at h ⊢
  split at h
  · cases h
  split at h
  · cases h
  dsimp only at h
  split at h
  · cases h
  next hcomment hblank hfound =>
  split at h
  · cases h
  next hlast =>
  obtain ⟨after, hafter⟩ := find_spec rfl hfound
  rw [if_neg hcomment, if_neg hblank]
  dsimp only
  rw [if_neg hfound, if_neg hlast, substr, ← List.drop_drop, hafter]
  exact ⟨after, _, rfl⟩

theorem written_getHex {input : Text} (h : (getHex input).1 = true)
    (hcheck : checkInput (getHex input).2 = true) : Written (getHex input).2 := by
  have hcount : countDigits (getHex input).2 0 = some 8 := by
    unfold checkInput at hcheck
    split at hcheck
    · cases hcheck
    · next length hlength =>
      split at hcheck
      · cases hcheck
      · next height => rw [hlength, not_not.mp height]
  refine ⟨?_, hcount⟩
  obtain ⟨after, n, hout⟩ := getHex_eq_true h
  cases n with
  | zero =>
    rw [hout] at hcount
    cases hcount
  | succ n =>
    rw [hout]
    rfl

/-- The body of the loop writes a line of that kind or none. -/
theorem filterLine_written (inLine : Text) {os : Text} {lines : List Text}
    (hos : os = unlines lines) (hlines : ∀ l ∈ lines, Written l) :
    ∃ written, filterLine inLine os = unlines written ∧ ∀ l ∈ written, Written l := by
  unfold filterLine
  dsimp only
  split
  · next hget =>
    split
    · next hcheck =>
      refine ⟨lines ++ [(getHex inLine).2], ?_, ?_⟩
      · rw [hos, unlines, unlines, List.flatMap_append, List.flatMap_singleton]
      · intro l hl
        rcases List.mem_append.mp hl with hl | hl
        · exact hlines l hl
        · obtain rfl := List.mem_singleton.mp hl
          exact written_getHex hget hcheck
    · exact ⟨lines, hos, hlines⟩
  · exact ⟨lines, hos, hlines⟩

theorem filterHexLoop_written {is : Stream} {inLine os : Text} {lines : List Text}
    (hos : os = unlines lines) (hlines : ∀ l ∈ lines, Written l) :
    ∃ written, filterHexLoop is inLine os = unlines written ∧ ∀ l ∈ written, Written l := by
  fun_induction filterHexLoop is inLine os generalizing lines with
  | case1 => exact ⟨lines, hos, hlines⟩
  | case2 is inLine os r hfail =>
    next ih =>
      obtain ⟨written, hwritten, hall⟩ := filterLine_written r.1 hos hlines
      exact ih hwritten hall

theorem filterHex_written (input : Text) :
    ∃ lines, filterHex input = unlines lines ∧ ∀ l ∈ lines, Written l :=
  by
  have hnone : ∀ l ∈ ([] : List Text), Written l := fun _ hl => absurd hl List.not_mem_nil
  exact filterHexLoop_written rfl hnone

example : filterLine "       0: 09 dd ff f8    \taddiu $sp, $sp, -8".toList [] =
    " 09 dd ff f8\n".toList := by decide

end Cpu0Toolchain.Hex
