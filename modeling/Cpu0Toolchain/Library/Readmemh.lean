import Mathlib.Data.List.Basic
import Mathlib.Tactic.IntervalCases

/-!
# The `$readmemh` text format

A hex memory file is a text of two-digit bytes separated by blanks, with
comments between `/*` and the first following `*/`. `Token` is the text as a
writer means it, `Token.render` the characters it writes, and `read` the bytes
a simulator takes from the characters.

## Main results

- `run_append` composes the scanner over a concatenation of texts.
- `run_comment_body` says that a comment is closed by its first `*/` only.
-/

namespace Readmemh

/-- What a writer of a hex file puts out: a comment, a byte, or blanks. -/
inductive Token where
  | comment (body : List Char)
  | byte (b : UInt8)
  | blank (ws : List Char)
  deriving DecidableEq

/-- The two lower-case hex digits of a byte. -/
def hexByte (b : UInt8) : List Char :=
  [Nat.digitChar (b.toNat / 16), Nat.digitChar (b.toNat % 16)]

def opener : List Char := ['/', '*']

def closer : List Char := ['*', '/']

/-- The characters a token is written as. -/
def Token.render : Token → List Char
  | .comment body => opener ++ (body ++ closer)
  | .byte b => hexByte b
  | .blank ws => ws

/-- The text of a list of tokens. -/
def render (toks : List Token) : List Char := toks.flatMap Token.render

/-- The byte a token means, if it is one. -/
def Token.byte? : Token → Option UInt8
  | .byte b => some b
  | _ => none

/-- The bytes outside the comments the writer opens. -/
def image (toks : List Token) : List UInt8 := toks.filterMap Token.byte?

@[simp] theorem image_nil : image [] = [] := rfl

@[simp] theorem image_append (xs ys : List Token) : image (xs ++ ys) = image xs ++ image ys :=
  List.filterMap_append

@[simp] theorem image_comment (body : List Char) (toks : List Token) :
    image (.comment body :: toks) = image toks := rfl

@[simp] theorem image_blank (ws : List Char) (toks : List Token) :
    image (.blank ws :: toks) = image toks := rfl

@[simp] theorem image_byte (b : UInt8) (toks : List Token) :
    image (.byte b :: toks) = b :: image toks := rfl

@[simp] theorem image_flatMap {α : Type*} (f : α → List Token) (l : List α) :
    image (l.flatMap f) = l.flatMap fun a => image (f a) := by
  induction l with
  | nil => rfl
  | cons a l ih => simp [ih]

@[simp] theorem render_nil : render [] = [] := rfl

@[simp] theorem render_cons (t : Token) (toks : List Token) :
    render (t :: toks) = t.render ++ render toks := rfl

@[simp] theorem render_append (xs ys : List Token) : render (xs ++ ys) = render xs ++ render ys :=
  List.flatMap_append

@[simp] theorem render_flatMap {α : Type*} (f : α → List Token) (l : List α) :
    render (l.flatMap f) = l.flatMap fun a => render (f a) :=
  List.flatMap_assoc

/-- Where the scanner stands in the text. -/
inductive Scan where
  | gap | digit (high : ℕ) | pair | slash | comment | star
  deriving DecidableEq

/-- The value of a hex digit. -/
def hexValue (c : Char) : Option ℕ :=
  if '0' ≤ c ∧ c ≤ '9' then some (c.toNat - '0'.toNat)
  else if 'a' ≤ c ∧ c ≤ 'f' then some (c.toNat - 'a'.toNat + 10)
  else if 'A' ≤ c ∧ c ≤ 'F' then some (c.toNat - 'A'.toNat + 10)
  else none

/-- The blanks between two bytes. -/
def isBlank (c : Char) : Bool := c = ' ' ∨ c = '\t' ∨ c = '\n' ∨ c = '\r'

/-- One character. The scanner stops at a character that is neither a comment
delimiter, nor a blank, nor a digit of a two-digit byte. -/
def step : Scan → Char → Option (Scan × List UInt8)
  | .gap, c =>
    if isBlank c then some (.gap, [])
    else if c = '/' then some (.slash, [])
    else (hexValue c).map fun v => (.digit v, [])
  | .digit high, c => (hexValue c).map fun v => (.pair, [UInt8.ofNat (16 * high + v)])
  | .pair, c =>
    if isBlank c then some (.gap, [])
    else if c = '/' then some (.slash, [])
    else none
  | .slash, c => if c = '*' then some (.comment, []) else none
  | .comment, c => if c = '*' then some (.star, []) else some (.comment, [])
  | .star, c =>
    if c = '/' then some (.gap, [])
    else if c = '*' then some (.star, [])
    else some (.comment, [])

/-- The scanner over a text, with the bytes it takes. -/
def run : Scan → List Char → Option (Scan × List UInt8)
  | q, [] => some (q, [])
  | q, c :: cs =>
    match step q c with
    | none => none
    | some (q', bs) => (run q' cs).map fun r => (r.1, bs ++ r.2)

/-- The text may end between two bytes, not inside one and not inside a comment. -/
def Scan.accepts : Scan → Bool
  | .gap | .pair => true
  | _ => false

/-- The bytes of a text, when the text is accepted. -/
def read (text : List Char) : Option (List UInt8) :=
  match run .gap text with
  | some (q, bs) => if q.accepts then some bs else none
  | none => none

@[simp] theorem run_nil (q : Scan) : run q [] = some (q, []) := rfl

theorem run_cons {q q' : Scan} {c : Char} {bs : List UInt8} (cs : List Char)
    (h : step q c = some (q', bs)) : run q (c :: cs) = (run q' cs).map fun r => (r.1, bs ++ r.2) := by
  simp [run, h]

theorem run_cons_none {q : Scan} {c : Char} (cs : List Char) (h : step q c = none) :
    run q (c :: cs) = none := by
  simp [run, h]

/-- Reading a concatenation reads the first text, then the second from where the
first one left the scanner. -/
theorem run_append {q q' : Scan} {bs : List UInt8} {xs : List Char} (ys : List Char)
    (h : run q xs = some (q', bs)) : run q (xs ++ ys) = (run q' ys).map fun r => (r.1, bs ++ r.2) := by
  induction xs generalizing q bs with
  | nil =>
    cases h
    simp
  | cons c cs ih =>
    cases hs : step q c with
    | none => rw [run_cons_none cs hs] at h; cases h
    | some r =>
      obtain ⟨q₁, b₁⟩ := r
      rw [run_cons cs hs] at h
      cases hr : run q₁ cs with
      | none => rw [hr] at h; cases h
      | some r =>
        obtain ⟨q₂, b₂⟩ := r
        rw [hr] at h
        cases h
        rw [List.cons_append, run_cons _ hs, ih hr]
        simp [Function.comp_def]

/-- A text the scanner stops in cannot be repaired by what follows it. -/
theorem run_append_none {q : Scan} {xs : List Char} (ys : List Char) (h : run q xs = none) :
    run q (xs ++ ys) = none := by
  induction xs generalizing q with
  | nil => cases h
  | cons c cs ih =>
    cases hs : step q c with
    | none => rw [List.cons_append, run_cons_none _ hs]
    | some r =>
      rw [run_cons cs hs] at h
      rw [List.cons_append, run_cons _ hs, ih (by simpa using h)]
      rfl

/-- A text read without taking a byte composes without changing the bytes. -/
theorem run_append_silent {q q' : Scan} {xs : List Char} (ys : List Char)
    (h : run q xs = some (q', [])) : run q (xs ++ ys) = run q' ys := by
  rw [run_append ys h]
  simp

/-! ## Characters that give no byte -/

theorem run_cons_silent {q r : Scan} {c : Char} (cs : List Char)
    (h : step q c = some (r, [])) : run q (c :: cs) = run r cs := by
  rw [run_cons cs h]
  simp

theorem run_comment_cons {c : Char} (h : c ≠ '*') (cs : List Char) :
    run .comment (c :: cs) = run .comment cs :=
  run_cons_silent cs (if_neg h)

theorem run_comment_close (cs : List Char) : run .comment ('*' :: '/' :: cs) = run .gap cs := by
  rw [run_cons_silent (r := .star) _ rfl, run_cons_silent (r := .gap) _ rfl]

/-- A star that does not close the comment leaves it open. -/
theorem run_comment_star {d : Char} (h : d ≠ '/') (cs : List Char) :
    run .comment ('*' :: d :: cs) = run .comment (d :: cs) := by
  rw [run_cons_silent (r := .star) _ rfl]
  by_cases hd : d = '*'
  · subst hd
    rw [run_cons_silent (r := .star) _ rfl, run_cons_silent (r := .star) _ rfl]
  · rw [run_comment_cons hd, run_cons_silent (r := .comment)]
    simp only [step, if_neg h, if_neg hd]

theorem run_gap_open (cs : List Char) : run .gap ('/' :: '*' :: cs) = run .comment cs := by
  rw [run_cons_silent (r := .slash) _ rfl, run_cons_silent (r := .comment) _ rfl]

theorem run_gap_slash {d : Char} (h : d ≠ '*') (cs : List Char) :
    run .gap ('/' :: d :: cs) = none := by
  have hstep : step .slash d = none := if_neg h
  rw [run_cons_silent (r := .slash) _ rfl, run_cons_none _ hstep]

/-- A character between two bytes that is no blank and opens no comment is refused, or
starts a byte, which the characters behind it must complete. -/
theorem run_gap_other {c d : Char} (hblank : isBlank c = false) (hslash : c ≠ '/')
    (cs : List Char) : ∀ q, run .gap (c :: d :: cs) ≠ some (q, []) := by
  intro q h
  have hstep : step .gap c = (hexValue c).map fun v => (.digit v, []) := by
    simp only [step, hblank, Bool.false_eq_true, if_false, if_neg hslash]
  cases hc : hexValue c with
  | none =>
    rw [run_cons_none _ (by rw [hstep, hc]; rfl)] at h
    cases h
  | some v =>
    rw [run_cons_silent (r := .digit v) _ (by rw [hstep, hc]; rfl)] at h
    cases hd : hexValue d with
    | none =>
      rw [run_cons_none _ (by simp only [step, hd, Option.map_none])] at h
      cases h
    | some w =>
      have hpair : step (.digit v) d = some (.pair, [UInt8.ofNat (16 * v + w)]) := by
        simp only [step, hd, Option.map_some]
      rw [run_cons cs hpair] at h
      cases hr : run .pair cs with
      | none => rw [hr] at h; cases h
      | some r => rw [hr] at h; simp at h

/-! ## Written bytes and comments -/

theorem hexValue_digitChar {n : ℕ} (h : n < 16) : hexValue (Nat.digitChar n) = some n := by
  interval_cases n <;> rfl

theorem isBlank_digitChar {n : ℕ} (h : n < 16) : isBlank (Nat.digitChar n) = false := by
  interval_cases n <;> rfl

theorem digitChar_ne_slash {n : ℕ} (h : n < 16) : Nat.digitChar n ≠ '/' := by
  interval_cases n <;> decide

/-- A written byte is read back. -/
theorem run_hexByte (b : UInt8) : run .gap (hexByte b) = some (.pair, [b]) := by
  have hb : b.toNat < 256 := b.toNat_lt
  have hh : b.toNat / 16 < 16 := by omega
  have hl : b.toNat % 16 < 16 := by omega
  have h1 : step .gap (Nat.digitChar (b.toNat / 16)) = some (.digit (b.toNat / 16), []) := by
    simp [step, isBlank_digitChar hh, digitChar_ne_slash hh, hexValue_digitChar hh]
  have h2 : step (.digit (b.toNat / 16)) (Nat.digitChar (b.toNat % 16)) = some (.pair, [b]) := by
    have hv : 16 * (b.toNat / 16) + b.toNat % 16 = b.toNat := Nat.div_add_mod _ _
    simp only [step, hexValue_digitChar hl, Option.map_some, hv, UInt8.ofNat_toNat]
  rw [hexByte, run_cons _ h1, run_cons _ h2]
  simp

/-- A written byte followed by a blank leaves the scanner between two bytes. -/
theorem run_hexByte_space (b : UInt8) : run .gap (hexByte b ++ [' ']) = some (.gap, [b]) := by
  rw [run_append _ (run_hexByte b)]
  rfl

/-- Without a star a comment goes on. -/
theorem run_comment_of_no_star {cs : List Char} (h : '*' ∉ cs) :
    run .comment cs = some (.comment, []) := by
  induction cs with
  | nil => rfl
  | cons c cs ih =>
    have hc : step .comment c = some (.comment, []) := by
      simp only [step, if_neg fun he : c = '*' => h (he ▸ List.mem_cons_self)]
    rw [run_cons cs hc, ih fun hm => h (List.mem_cons_of_mem _ hm)]
    rfl

/-- A comment without a star in its body is read as nothing. -/
theorem run_comment_body {body : List Char} (h : '*' ∉ body) :
    run .gap (opener ++ (body ++ closer)) = some (.gap, []) := by
  have ho : run .gap opener = some (.comment, []) := rfl
  rw [run_append_silent _ ho, run_append_silent _ (run_comment_of_no_star h)]
  rfl


/-- A comment met inside a comment ends the outer one with its own closer. -/
theorem run_comment_nested {body : List Char} (h : '*' ∉ body) (hslash : '/' ∉ body) :
    run .comment (opener ++ (body ++ closer)) = some (.gap, []) := by
  have hin : run .comment (body ++ closer) = some (.gap, []) := by
    rw [run_append_silent _ (run_comment_of_no_star h)]
    rfl
  have hfirst : ∃ d rest, body ++ closer = d :: rest ∧ d ≠ '/' := by
    cases body with
    | nil => exact ⟨'*', ['/'], rfl, by decide⟩
    | cons d rest => exact ⟨d, rest ++ closer, rfl, fun hd => hslash (hd ▸ List.mem_cons_self)⟩
  obtain ⟨d, rest, heq, hd⟩ := hfirst
  rw [heq] at hin ⊢
  change run .comment ('/' :: '*' :: d :: rest) = _
  rw [run_comment_cons (by decide), run_comment_star hd, hin]

/-- Pieces that start and end between two bytes compose. -/
theorem run_flatMap_gap {α : Type*} {f : α → List Char} {g : α → List UInt8}
    (h : ∀ a, run .gap (f a) = some (.gap, g a)) (l : List α) :
    run .gap (l.flatMap f) = some (.gap, l.flatMap g) := by
  induction l with
  | nil => rfl
  | cons a l ih =>
    rw [List.flatMap_cons, run_append _ (h a), ih]
    rfl

/-- A text that is taken was taken piece by piece. -/
theorem run_append_inv {q r : Scan} {bs : List UInt8} {xs ys : List Char}
    (h : run q (xs ++ ys) = some (r, bs)) :
    ∃ q' b₁ b₂, run q xs = some (q', b₁) ∧ run q' ys = some (r, b₂) ∧ bs = b₁ ++ b₂ := by
  cases hx : run q xs with
  | none => rw [run_append_none ys hx] at h; cases h
  | some p =>
    obtain ⟨q', b₁⟩ := p
    rw [run_append ys hx] at h
    cases hy : run q' ys with
    | none => rw [hy] at h; cases h
    | some p =>
      obtain ⟨r', b₂⟩ := p
      rw [hy] at h
      cases h
      exact ⟨q', b₁, b₂, rfl, hy, rfl⟩

end Readmemh
