import Mathlib.Logic.Relation
import Cpu0Toolchain.Printf.FormatGrammar

/-!
# The cursor of `VSNPrintf`

The scan of the format as a machine over the memory that the format lies in: at each place
of the loop the characters it reads and the cursor it goes on with. What lies behind the NUL
is anything.

## Main result

- `staysWithin_iff`: no character behind the NUL is read exactly if the format does not end
  inside a directive.
-/

namespace Cpu0Toolchain.Printf

/-- The memory with a format at its start. -/
def CString.memory (format : CString) (behind : ℕ → Char) (i : ℕ) : Char :=
  if i ≤ format.chars.length then peek format.chars i else behind i

/-- The places of the loop that read from the format. -/
inductive Place where
  /-- `*cur` and `*cur != '%'`. -/
  | loop
  /-- `*cur == '-'` -/
  | leftJustified
  /-- `have_width`, `pad_with_zero` and the loop over the digits. -/
  | width
  /-- `cur[0] == '.' && cur[1] == '*'` -/
  | precision
  /-- `have_z` and `have_ll`. -/
  | length
  /-- `switch (*cur)` -/
  | conversion
  deriving DecidableEq

structure Cursor where
  place : Place
  cur : ℕ
  deriving DecidableEq

namespace Cursor

variable (mem : ℕ → Char)

/-- The indices that are read. What stands behind `&&` is read only if it has to be. -/
def reads : Cursor → List ℕ
  | ⟨.loop, cur⟩ | ⟨.leftJustified, cur⟩ | ⟨.width, cur⟩ | ⟨.conversion, cur⟩ => [cur]
  | ⟨.precision, cur⟩ => cur :: if mem cur = '.' then [cur + 1] else []
  | ⟨.length, cur⟩ => cur :: if mem cur = 'l' then [cur + 1] else []

def next : Cursor → Option Cursor
  | ⟨.loop, cur⟩ =>
    if mem cur = '\x00' then none
    else if mem cur ≠ '%' then some ⟨.loop, cur + 1⟩
    else some ⟨.leftJustified, cur + 1⟩
  | ⟨.leftJustified, cur⟩ => some ⟨.width, if mem cur = '-' then cur + 1 else cur⟩
  | ⟨.width, cur⟩ =>
    if isDigit (mem cur) then some ⟨.width, cur + 1⟩ else some ⟨.precision, cur⟩
  | ⟨.precision, cur⟩ =>
    some ⟨.length, if mem cur = '.' ∧ mem (cur + 1) = '*' then cur + 2 else cur⟩
  | ⟨.length, cur⟩ =>
    some ⟨.conversion,
      if mem cur = 'z' then cur + 1
      else if mem cur = 'l' ∧ mem (cur + 1) = 'l' then cur + 2
      else cur⟩
  -- behind the `switch` the loop steps over whatever stood there
  | ⟨.conversion, cur⟩ => some ⟨.loop, cur + 1⟩

def start : Cursor := ⟨.loop, 0⟩

def Reaches : Cursor → Cursor → Prop := Relation.ReflTransGen fun c d => next mem c = some d

/-- Nothing behind the terminator is read, and the scan ends on it. -/
structure StaysWithin (terminator : ℕ) : Prop where
  reads : ∀ c, Reaches mem start c → ∀ i ∈ c.reads mem, i ≤ terminator
  reached : Reaches mem start ⟨.loop, terminator⟩
  ends : next mem ⟨.loop, terminator⟩ = none

end Cursor

/-! ## Walks of the cursor -/

namespace Cursor

variable {mem : ℕ → Char} {limit : ℕ}

/-- A step that reads up to the limit. -/
def Steps (mem : ℕ → Char) (limit : ℕ) (c d : Cursor) : Prop :=
  (∀ i ∈ c.reads mem, i ≤ limit) ∧ next mem c = some d

def Walks (mem : ℕ → Char) (limit : ℕ) : Cursor → Cursor → Prop :=
  Relation.ReflTransGen (Steps mem limit)

/-- The memory holds a text and behind it the NUL, which stands at the limit. -/
structure Holds (mem : ℕ → Char) (limit cur : ℕ) (text : List Char) : Prop where
  chars : ∀ i ≤ text.length, mem (cur + i) = peek text i
  limit : cur + text.length = limit

namespace Holds

variable {cur : ℕ} {text : List Char}

theorem append {xs ys : List Char} (h : Holds mem limit cur (xs ++ ys)) :
    Holds mem limit (cur + xs.length) ys := by
  have hlimit := h.limit
  rw [List.length_append] at hlimit
  refine ⟨?_, by omega⟩
  intro i hi
  rw [Nat.add_assoc, h.chars (xs.length + i) (by rw [List.length_append]; omega)]
  simp [peek, List.getElem?_append_right]

theorem head (h : Holds mem limit cur text) : mem cur = peek text 0 := h.chars 0 (Nat.zero_le _)

theorem cur_le (h : Holds mem limit cur text) : cur ≤ limit := by
  have := h.limit
  omega

theorem ne_nil (h : Holds mem limit cur text) {c : Char} (hc : c ≠ '\x00') (hmem : mem cur = c) :
    1 ≤ text.length := by
  rw [h.head] at hmem
  obtain ⟨rest, rfl⟩ := cons_of_peek hc hmem
  exact Nat.succ_pos _

theorem second (h : Holds mem limit cur text) {c : Char} (hc : c ≠ '\x00') (hmem : mem cur = c) :
    mem (cur + 1) = peek text 1 :=
  h.chars 1 (h.ne_nil hc hmem)

theorem pair (h : Holds mem limit cur text) {c d : Char} (hc : c ≠ '\x00') :
    mem cur = c ∧ mem (cur + 1) = d ↔ peek text 0 = c ∧ peek text 1 = d := by
  rw [h.head]
  constructor
  · rintro ⟨hfirst, hsecond⟩
    exact ⟨hfirst, h.second hc (h.head.trans hfirst) ▸ hsecond⟩
  · rintro ⟨hfirst, hsecond⟩
    exact ⟨hfirst, (h.second hc (h.head.trans hfirst)).trans hsecond⟩

/-- Where a second character is read, the first one is not the NUL. -/
theorem reads_second (h : Holds mem limit cur text) {c : Char} (hc : c ≠ '\x00') :
    ∀ i ∈ (cur :: if mem cur = c then [cur + 1] else []), i ≤ limit := by
  intro i hi
  rcases List.mem_cons.mp hi with rfl | hi
  · exact h.cur_le
  · split at hi
    · next hmem =>
      obtain rfl := List.mem_singleton.mp hi
      have := h.ne_nil hc hmem
      have := h.limit
      omega
    · cases hi

theorem reads_one (h : Holds mem limit cur text) : ∀ i ∈ [cur], i ≤ limit := by
  intro i hi
  obtain rfl := List.mem_singleton.mp hi
  exact h.cur_le

end Holds

section Stages

variable {cur : ℕ} {body rest : List Char}

theorem walks_leftJustified {flags : Flags} (h : Holds mem limit cur (flags.minusText ++ body))
    (hminus : flags.minus = false → peek body 0 ≠ '-') :
    Walks mem limit ⟨.leftJustified, cur⟩ ⟨.width, cur + flags.minusText.length⟩ := by
  refine .single ⟨h.reads_one, ?_⟩
  rw [next, h.head]
  cases hm : flags.minus with
  | true => simp [Flags.minusText, hm, peek]
  | false => simpa [Flags.minusText, hm] using hminus hm

/-- The loop over the digits of the width. -/
theorem walks_width (digits : List (Fin 10))
    (h : Holds mem limit cur (digits.map (fun d : Fin 10 => Nat.digitChar d) ++ body))
    (hdigit : isDigit (peek body 0) = false) :
    Walks mem limit ⟨.width, cur⟩ ⟨.precision, cur + digits.length⟩ := by
  induction digits generalizing cur with
  | nil =>
    refine .single ⟨h.reads_one, ?_⟩
    have hend : isDigit (mem cur) = false := h.head ▸ hdigit
    rw [next, hend]
    rfl
  | cons d digits ih =>
    have hhead : isDigit (mem cur) = true := h.head ▸ isDigit_digitChar d
    have hstep : Steps mem limit ⟨.width, cur⟩ ⟨.width, cur + 1⟩ := by
      refine ⟨h.reads_one, ?_⟩
      rw [next, if_pos hhead]
    have hcons : Holds mem limit cur
        ([Nat.digitChar d] ++ (digits.map (fun d : Fin 10 => Nat.digitChar d) ++ body)) := h
    have htail := hcons.append
    rw [List.length_cons, Nat.add_comm digits.length, ← Nat.add_assoc]
    exact .head hstep (ih htail)

theorem walks_precision {flags : Flags} (h : Holds mem limit cur (flags.starText ++ body))
    (hstar : flags.star = false → ¬(peek body 0 = '.' ∧ peek body 1 = '*')) :
    Walks mem limit ⟨.precision, cur⟩ ⟨.length, cur + flags.starText.length⟩ := by
  refine .single ⟨h.reads_second (by decide), ?_⟩
  simp only [next, h.pair (c := '.') (by decide)]
  cases hs : flags.star with
  | true => simp [Flags.starText, hs, peek]
  | false => simpa [Flags.starText, hs] using hstar hs

theorem walks_length {flags : Flags} (h : Holds mem limit cur (flags.modifier.spell ++ rest))
    (hmodifier : flags.modifier = .none →
      peek rest 0 ≠ 'z' ∧ ¬(peek rest 0 = 'l' ∧ peek rest 1 = 'l')) :
    Walks mem limit ⟨.length, cur⟩ ⟨.conversion, cur + flags.modifier.spell.length⟩ := by
  refine .single ⟨h.reads_second (by decide), ?_⟩
  simp only [next, h.pair (c := 'l') (by decide)]
  rw [h.head]
  cases hm : flags.modifier with
  | none =>
    obtain ⟨hz, hl⟩ := hmodifier hm
    rw [LengthModifier.spell, List.nil_append, if_neg hz, if_neg hl]
    rfl
  | z => rfl
  | ll => rfl

theorem walks_flags {flags : Flags} (hstop : flags.StopsAt rest)
    (h : Holds mem limit cur (flags.spell ++ rest)) :
    Walks mem limit ⟨.leftJustified, cur⟩ ⟨.conversion, cur + flags.spell.length⟩ := by
  simp only [Flags.spell, List.append_assoc] at h
  have hwidth := h.append
  have hprecision := hwidth.append
  have hlength := hprecision.append
  have hdigits := walks_width flags.digits hwidth hstop.not_digit
  rw [← List.length_map (f := fun d : Fin 10 => Nat.digitChar d)] at hdigits
  have hwalks := (walks_leftJustified h hstop.not_minus).trans (hdigits.trans
    ((walks_precision hprecision hstop.not_star).trans (walks_length hlength hstop.modifier)))
  rw [Nat.add_assoc, Nat.add_assoc, Nat.add_assoc] at hwalks
  rw [Flags.spell, List.length_append, List.length_append, List.length_append]
  exact hwalks

/-- From the loop over a directive to its letter. -/
theorem walks_directive {flags : Flags} (hstop : flags.StopsAt rest)
    (h : Holds mem limit cur ('%' :: (flags.spell ++ rest))) :
    Walks mem limit ⟨.loop, cur⟩ ⟨.conversion, cur + 1 + flags.spell.length⟩ := by
  have hpercent : mem cur = '%' := h.head
  have hcons : Holds mem limit cur (['%'] ++ (flags.spell ++ rest)) := h
  have hstep : Steps mem limit ⟨.loop, cur⟩ ⟨.leftJustified, cur + 1⟩ := by
    refine ⟨h.reads_one, ?_⟩
    rw [next, hpercent]
    rfl
  exact .head hstep (walks_flags hstop hcons.append)

theorem walks_literal {c : Char} (hc : c ≠ '%') (hnul : c ≠ '\x00')
    (h : Holds mem limit cur (c :: rest)) : Walks mem limit ⟨.loop, cur⟩ ⟨.loop, cur + 1⟩ := by
  have hhead : mem cur = c := h.head
  refine .single ⟨h.reads_one, ?_⟩
  rw [next, hhead, if_neg hnul, if_pos hc]

/-- The step over what stands where a letter should. -/
theorem walks_conversion (h : Holds mem limit cur rest) :
    Walks mem limit ⟨.conversion, cur⟩ ⟨.loop, cur + 1⟩ :=
  .single ⟨h.reads_one, rfl⟩

end Stages

/-! ## The whole format -/

/-- A format that is complete is left at its NUL. -/
theorem walks_of_complete {text : List Char} (hcomplete : Complete text) {cur : ℕ}
    (hnul : '\x00' ∉ text) (h : Holds mem limit cur text) :
    Walks mem limit ⟨.loop, cur⟩ ⟨.loop, limit⟩ := by
  induction hcomplete generalizing cur with
  | nil =>
    obtain rfl : cur = limit := h.limit
    exact .refl
  | @literal c rest hc _ ih =>
    have hcons : Holds mem limit cur ([c] ++ rest) := h
    obtain ⟨hne, hrest⟩ := List.ne_and_not_mem_of_not_mem_cons hnul
    exact (walks_literal hc hne.symm h).trans (ih hrest hcons.append)
  | @directive flags letter rest hstop _ ih =>
    have hcons : Holds mem limit cur (['%'] ++ (flags.spell ++ ([letter] ++ rest))) := h
    have hletter := hcons.append.append
    have hrest : '\x00' ∉ rest := fun hmem => hnul (by simp [hmem])
    exact (walks_directive hstop h).trans ((walks_conversion hletter).trans
      (ih hrest hletter.append))

/-- Any other format is left behind its NUL. -/
theorem complete_or_overruns (text : List Char) {cur : ℕ} (hnul : '\x00' ∉ text)
    (h : Holds mem limit cur text) :
    Complete text ∨ Walks mem limit ⟨.loop, cur⟩ ⟨.loop, limit + 1⟩ := by
  induction hlen : text.length using Nat.strongRecOn generalizing text cur with
  | ind n ih =>
    cases text with
    | nil => exact .inl .nil
    | cons c text =>
      obtain ⟨hne, htext⟩ := List.ne_and_not_mem_of_not_mem_cons hnul
      by_cases hc : c = '%'
      · subst hc
        obtain ⟨flags, rest, rfl, hstop⟩ := exists_flags text
        have hcons : Holds mem limit cur (['%'] ++ (flags.spell ++ rest)) := h
        have hletter := hcons.append.append
        -- whatever stands behind the flags, the cursor steps over it
        have hwalk := (walks_directive hstop h).trans (walks_conversion hletter)
        cases rest with
        | nil =>
          -- the NUL stands for the letter
          obtain rfl := hletter.limit
          exact .inr hwalk
        | cons letter rest =>
          have hletter' : Holds mem limit _ ([letter] ++ rest) := hletter
          have hshort : rest.length < n := by
            simp only [List.length_cons, List.length_append] at hlen
            omega
          have hrest : '\x00' ∉ rest := fun hmem => htext (by simp [hmem])
          rcases ih rest.length hshort rest hrest hletter'.append rfl with hdone | hover
          · exact .inl (.directive flags hstop hdone)
          · exact .inr (hwalk.trans hover)
      · have hcons : Holds mem limit cur ([c] ++ text) := h
        have hshort : text.length < n := by
          rw [← hlen]
          exact Nat.lt_succ_self _
        rcases ih text.length hshort text htext hcons.append rfl with hdone | hover
        · exact .inl (.literal hc hdone)
        · exact .inr ((walks_literal hc hne.symm h).trans hover)

theorem Walks.reaches {c d : Cursor} (h : Walks mem limit c d) : Reaches mem c d :=
  Relation.ReflTransGen.mono (fun _ _ hstep => hstep.2) _ _ h

/-- A walk to the end passes every cursor that is reached. -/
theorem Walks.reads_le {c e : Cursor} (h : Walks mem limit c e) (hend : next mem e = none)
    (hlast : ∀ i ∈ e.reads mem, i ≤ limit) {d : Cursor} (hd : Reaches mem c d) :
    ∀ i ∈ d.reads mem, i ≤ limit := by
  induction h using Relation.ReflTransGen.head_induction_on with
  | refl =>
    rcases Relation.ReflTransGen.cases_head hd with rfl | ⟨b, hb, _⟩
    · exact hlast
    · rw [hend] at hb
      cases hb
  | head hstep _ ih =>
    rcases Relation.ReflTransGen.cases_head hd with rfl | ⟨b, hb, hrest⟩
    · exact hstep.1
    · obtain rfl := Option.some.inj (hstep.2.symm.trans hb)
      exact ih hrest

/-- The scan reads nothing behind the NUL, and ends on it, if and only if the format does not end
inside a directive. -/
theorem staysWithin_iff (format : CString) (behind : ℕ → Char) :
    StaysWithin (format.memory behind) format.chars.length ↔ Complete format.chars := by
  have hholds : Holds (format.memory behind) format.chars.length 0 format.chars := by
    refine ⟨fun i hi => ?_, Nat.zero_add _⟩
    rw [Nat.zero_add]
    exact if_pos hi
  constructor
  · intro h
    rcases complete_or_overruns format.chars format.no_nul hholds with hcomplete | hover
    · exact hcomplete
    · have hle := h.reads _ hover.reaches (format.chars.length + 1) (List.mem_singleton.mpr rfl)
      omega
  · intro hcomplete
    have hwalk := walks_of_complete hcomplete format.no_nul hholds
    have hnul : format.memory behind format.chars.length = '\x00' := by
      rw [CString.memory, if_pos le_rfl, peek]
      simp
    have hend : next (format.memory behind) ⟨.loop, format.chars.length⟩ = none := by
      rw [next, if_pos hnul]
    refine ⟨?_, hwalk.reaches, hend⟩
    intro c hc
    refine hwalk.reads_le hend ?_ hc
    intro i hi
    exact (List.mem_singleton.mp hi).le

/-- A `%` alone. -/
theorem not_staysWithin_percent :
    ¬StaysWithin (CString.memory ⟨['%'], by decide⟩ fun _ => '\x00') 1 := by
  intro h
  have hover : Reaches (CString.memory ⟨['%'], by decide⟩ fun _ => '\x00') start ⟨.loop, 2⟩ :=
    .head (b := ⟨.leftJustified, 1⟩) (by decide) <| .head (b := ⟨.width, 1⟩) (by decide) <|
      .head (b := ⟨.precision, 1⟩) (by decide) <| .head (b := ⟨.length, 1⟩) (by decide) <|
        .head (b := ⟨.conversion, 1⟩) (by decide) <| .single rfl
  exact absurd (h.reads _ hover 2 (List.mem_singleton.mpr rfl)) (by decide)

end Cursor

end Cpu0Toolchain.Printf
