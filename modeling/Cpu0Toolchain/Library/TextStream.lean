import Mathlib.Data.List.TakeWhile

/-!
# Strings and input streams

The parts of `std::string` and `std::istream` that line-oriented filters use: the search
for a substring, and `getline` with the two flags it leaves in the stream.

## Main results

- `getline_line` and `getline_last` read a line that a newline ends, and one that the end
  of the text does.
- `getline_left` bounds the loops over the lines of a stream.
-/

namespace TextStream

abbrev Text := List Char

/-- Lines with a newline behind each. -/
def unlines (lines : List Text) : Text := lines.flatMap fun l => l ++ ['\n']

/-! ## Strings -/

/-- The index that stands for no place. -/
def npos : ℕ := 0xffffffffffffffff

/-- The search in what is left of a string, which starts at index `i`. -/
def findAt (pattern : Text) : Text → ℕ → ℕ
  | [], i => if pattern = [] then i else npos
  | c :: rest, i => if pattern.isPrefixOf (c :: rest) then i else findAt pattern rest (i + 1)

/-- `find(pattern, pos)` -/
def find (pattern s : Text) (pos : ℕ) : ℕ :=
  if pos ≤ s.length then findAt pattern (s.drop pos) pos else npos

/-- `substr(pos, length)` of a string that reaches to `pos`. -/
def substr (s : Text) (pos length : ℕ) : Text := (s.drop pos).take length

theorem findAt_spec {pattern s : Text} {i k : ℕ} (h : findAt pattern s i = k) (hk : k ≠ npos) :
    ∃ before after, s = before ++ pattern ++ after ∧ k = i + before.length := by
  induction s generalizing i with
  | nil =>
    rw [findAt] at h
    split at h
    · next hnil =>
      subst hnil
      exact ⟨[], [], rfl, h.symm⟩
    · exact absurd h.symm hk
  | cons c rest ih =>
    rw [findAt] at h
    split at h
    · next hprefix =>
      obtain ⟨after, hafter⟩ := List.isPrefixOf_iff_prefix.mp hprefix
      exact ⟨[], after, hafter.symm, h.symm⟩
    · obtain ⟨before, after, hrest, hlen⟩ := ih h
      refine ⟨c :: before, after, ?_, ?_⟩
      · rw [hrest]
        rfl
      · rw [List.length_cons, hlen]
        omega

/-- A pattern that is found stands where it is found. -/
theorem find_spec {pattern s : Text} {pos k : ℕ} (h : find pattern s pos = k) (hk : k ≠ npos) :
    ∃ after, s.drop k = pattern ++ after := by
  unfold find at h
  split at h
  · obtain ⟨before, after, hs, hlen⟩ := findAt_spec h hk
    refine ⟨after, ?_⟩
    rw [hlen, ← List.drop_drop, hs, List.append_assoc, List.drop_left]
  · exact absurd h.symm hk

/-- A pattern whose first character is nowhere before it is found where it stands. -/
theorem findAt_append {c : Char} {before : Text} (h : c ∉ before) (pattern after : Text) (i : ℕ) :
    findAt (c :: pattern) (before ++ (c :: pattern ++ after)) i = i + before.length := by
  induction before generalizing i with
  | nil =>
    have hprefix : (c :: pattern).isPrefixOf (c :: (pattern ++ after)) = true :=
      List.isPrefixOf_iff_prefix.mpr (List.prefix_append _ _)
    exact if_pos hprefix
  | cons d before ih =>
    have hne : c ≠ d := fun hcd => h (hcd ▸ List.mem_cons_self)
    have hbefore : c ∉ before := fun hc => h (List.mem_cons_of_mem d hc)
    have hprefix : ¬(c :: pattern).isPrefixOf (d :: (before ++ (c :: pattern ++ after))) = true := by
      intro hd
      exact hne (List.cons_prefix_cons.mp (List.isPrefixOf_iff_prefix.mp hd)).1
    rw [List.cons_append, findAt, if_neg hprefix, ih hbefore, List.length_cons]
    omega

/-! ## Streams -/

/-- A stream over a text: a read fails only behind the end. -/
structure Stream where
  rest : Text
  eof : Bool
  fail : Bool
  fail_eof : fail = true → eof = true

/-- A stream before the first read. -/
def ofText (text : Text) : Stream where
  rest := text
  eof := false
  fail := false
  fail_eof h := h

/-- `getline`: the next line without its newline. With nothing left to read, the old
string stays. -/
def getline (s : Stream) (line : Text) : Text × Stream :=
  if heof : s.eof = true then (line, ⟨s.rest, s.eof, true, fun _ => heof⟩)
  else
    match s.rest.dropWhile (· ≠ '\n') with
    | [] => (s.rest, ⟨[], true, s.rest.isEmpty, fun _ => rfl⟩)
    | _ :: rest => (s.rest.takeWhile (· ≠ '\n'), ofText rest)

/-- How many reads are possible at most. -/
def Stream.left (s : Stream) : ℕ := if s.eof = true then 0 else s.rest.length + 1

theorem getline_left {s : Stream} (h : s.eof = false) (line : Text) :
    (getline s line).2.left < s.left := by
  have hs : s.left = s.rest.length + 1 := by
    rw [Stream.left, h]
    rfl
  rw [getline, dif_neg (by rw [h]; exact Bool.false_ne_true), hs]
  split
  · exact Nat.succ_pos _
  · next c rest hrest =>
    have hle : (s.rest.dropWhile (· ≠ '\n')).length ≤ s.rest.length :=
      (List.dropWhile_suffix _).length_le
    rw [hrest, List.length_cons] at hle
    exact Nat.succ_lt_succ hle

/-- A read that does not fail was not behind the end. -/
theorem eof_of_getline {s : Stream} {line : Text} (h : (getline s line).2.fail = false) :
    s.eof = false := by
  by_contra heof
  rw [getline, dif_pos (Bool.not_eq_false _ ▸ heof)] at h
  cases h

theorem getline_ofText (text line : Text) :
    getline (ofText text) line =
      match text.dropWhile (· ≠ '\n') with
      | [] => (text, ⟨[], true, text.isEmpty, fun _ => rfl⟩)
      | _ :: rest => (text.takeWhile (· ≠ '\n'), ofText rest) := rfl

section Lines

variable {l : Text} (hl : '\n' ∉ l)
include hl

theorem getline_line (rest line : Text) :
    getline (ofText (l ++ '\n' :: rest)) line = (l, ofText rest) := by
  have hall : ∀ c ∈ l, decide (c ≠ '\n') = true :=
    fun c hc => decide_eq_true (fun h => hl (h ▸ hc))
  have hdrop : (l ++ '\n' :: rest).dropWhile (· ≠ '\n') = '\n' :: rest := by
    rw [List.dropWhile_append_of_pos hall]
    rfl
  have htake : (l ++ '\n' :: rest).takeWhile (· ≠ '\n') = l := by
    rw [List.takeWhile_append_of_pos hall]
    exact List.append_nil l
  rw [getline_ofText, hdrop, htake]

theorem getline_last (line : Text) :
    (getline (ofText l) line).1 = l ∧ (getline (ofText l) line).2.eof = true := by
  have hdrop : l.dropWhile (· ≠ '\n') = [] := by
    apply List.dropWhile_eq_nil_iff.mpr
    intro c hc
    exact decide_eq_true (fun h => hl (h ▸ hc))
  rw [getline_ofText, hdrop]
  exact ⟨rfl, rfl⟩

end Lines

end TextStream
