import Mathlib.Data.List.Forall2
import Mathlib.Tactic.IntervalCases

/-!
# Bytes written as a line of hex digits

`Spells line bytes` says that a line is the hex digits of the bytes in any case, with
blanks anywhere.
-/

namespace HexLine

/-- The character stands for a value, as a lower-case or an upper-case digit. -/
def IsDigit (v : ℕ) (c : Char) : Prop :=
  v < 16 ∧ (c = Nat.digitChar v ∨ c = (Nat.digitChar v).toUpper)

instance (v : ℕ) (c : Char) : Decidable (IsDigit v c) := inferInstanceAs (Decidable (_ ∧ _))

/-- The line without its blanks. -/
def digits (line : List Char) : List Char := line.filter (· ≠ ' ')

def nibbles (b : UInt8) : List ℕ := [b.toNat / 16, b.toNat % 16]

def Spells (line : List Char) (bytes : List UInt8) : Prop :=
  List.Forall₂ IsDigit (bytes.flatMap nibbles) (digits line)

theorem char_le_iff {c d : Char} : c ≤ d ↔ c.toNat ≤ d.toNat := Iff.rfl

/-- The digits lie in three ranges of characters. -/
theorem isDigit_iff {v : ℕ} {c : Char} : IsDigit v c ↔
    ('0' ≤ c ∧ c ≤ '9' ∧ v = c.toNat - '0'.toNat) ∨
    ('A' ≤ c ∧ c ≤ 'F' ∧ v = c.toNat - 'A'.toNat + 10) ∨
    ('a' ≤ c ∧ c ≤ 'f' ∧ v = c.toNat - 'a'.toNat + 10) := by
  constructor
  · rintro ⟨hv, rfl | rfl⟩
    · interval_cases v <;> decide
    · interval_cases v <;> decide
  · have hc : c = Char.ofNat c.toNat := (Char.ofNat_toNat c).symm
    generalize hn : c.toNat = n at hc
    rintro (⟨hlo, hhi, rfl⟩ | ⟨hlo, hhi, rfl⟩ | ⟨hlo, hhi, rfl⟩)
    all_goals
      rw [char_le_iff, hn] at hlo hhi
      subst hc
      clear hn
    · change 48 ≤ n at hlo
      change n ≤ 57 at hhi
      interval_cases n <;> decide
    · change 65 ≤ n at hlo
      change n ≤ 70 at hhi
      interval_cases n <;> decide
    · change 97 ≤ n at hlo
      change n ≤ 102 at hhi
      interval_cases n <;> decide

theorem isDigit_getD {vs : List ℕ} {ds : List Char} (h : List.Forall₂ IsDigit vs ds) {i : ℕ}
    (hi : i < vs.length) (d : Char) : IsDigit vs[i] (ds.getD i d) := by
  induction h generalizing i with
  | nil => exact absurd hi (Nat.not_lt_zero i)
  | cons hv _ ih =>
    cases i with
    | zero => exact hv
    | succ i => exact ih (Nat.lt_of_succ_lt_succ hi)

/-- An even number of digits spells half as many bytes. -/
theorem exists_bytes {n : ℕ} {ds : List Char} (hlen : ds.length = 2 * n)
    (hds : ∀ c ∈ ds, ∃ v, IsDigit v c) :
    ∃ bytes : List UInt8, bytes.length = n ∧ List.Forall₂ IsDigit (bytes.flatMap nibbles) ds := by
  induction n generalizing ds with
  | zero =>
    obtain rfl := List.length_eq_zero_iff.mp hlen
    exact ⟨[], rfl, .nil⟩
  | succ n ih =>
    match ds, hlen with
    | hi :: lo :: rest, hlen =>
      have hrest : rest.length = 2 * n := by
        rw [List.length_cons, List.length_cons] at hlen
        omega
      obtain ⟨bytes, hbytes, hspells⟩ := ih hrest fun c hc => hds c (by simp [hc])
      obtain ⟨v, hv⟩ := hds hi (by simp)
      obtain ⟨w, hw⟩ := hds lo (by simp)
      have hnat : (UInt8.ofNat (16 * v + w)).toNat = 16 * v + w := by
        rw [UInt8.toNat_ofNat']
        have := hv.1
        have := hw.1
        omega
      refine ⟨UInt8.ofNat (16 * v + w) :: bytes, by rw [List.length_cons, hbytes], ?_⟩
      have hhi : (16 * v + w) / 16 = v := by
        have := hw.1
        omega
      have hlo : (16 * v + w) % 16 = w := by
        have := hw.1
        omega
      rw [List.flatMap_cons, nibbles, hnat, hhi, hlo]
      exact .cons hv (.cons hw hspells)

/-! ## One list of bytes -/

theorem isDigit_unique : Relator.LeftUnique IsDigit := by
  intro v c w hv hw
  have h9A : '9'.toNat < 'A'.toNat := by decide
  have hFa : 'F'.toNat < 'a'.toNat := by decide
  have h9a : '9'.toNat < 'a'.toNat := by decide
  rcases isDigit_iff.mp hv with ⟨hlo, hhi, rfl⟩ | ⟨hlo, hhi, rfl⟩ | ⟨hlo, hhi, rfl⟩
  all_goals
    rcases isDigit_iff.mp hw with ⟨hlo', hhi', rfl⟩ | ⟨hlo', hhi', rfl⟩ | ⟨hlo', hhi', rfl⟩
  all_goals
    simp only [char_le_iff] at hlo hhi hlo' hhi'
    omega

theorem flatMap_nibbles_injective : Function.Injective (List.flatMap nibbles) := by
  intro bytes
  induction bytes with
  | nil =>
    intro bytes' h
    cases bytes' with
    | nil => rfl
    | cons b' bytes' => cases h
  | cons b bytes ih =>
    intro bytes' h
    cases bytes' with
    | nil => cases h
    | cons b' bytes' =>
      obtain ⟨hhigh, hrest⟩ := List.cons.inj h
      obtain ⟨hlow, htail⟩ := List.cons.inj hrest
      have hbyte : b = b' := by
        apply UInt8.toNat_inj.mp
        omega
      rw [hbyte, ih htail]

/-- A line spells no other bytes. -/
theorem Spells.unique {line : List Char} {bytes bytes' : List UInt8} (h : Spells line bytes)
    (h' : Spells line bytes') : bytes = bytes' :=
  flatMap_nibbles_injective (isDigit_unique.forall₂ h h')

end HexLine
