import Mathlib.Data.Nat.Basic

/-!
# Words in byte memory

Reading and writing 32-bit words in either byte order.
-/

namespace EndianWord

inductive Endianness where
  | little | big
  deriving DecidableEq, Repr

abbrev Bytes := ℕ → BitVec 8

/-- The number of the byte, counted from the low end of the word, that lies at an offset. -/
def lane : Endianness → ℕ → ℕ
  | .little, i => i
  | .big, i => 3 - i

def read32 (e : Endianness) (mem : Bytes) (loc : ℕ) : BitVec 32 :=
  match e with
  | .little => mem (loc + 3) ++ mem (loc + 2) ++ mem (loc + 1) ++ mem loc
  | .big => mem loc ++ mem (loc + 1) ++ mem (loc + 2) ++ mem (loc + 3)

def write32 (e : Endianness) (mem : Bytes) (loc : ℕ) (v : BitVec 32) : Bytes := fun a =>
  if loc ≤ a ∧ a < loc + 4 then v.extractLsb' (8 * lane e (a - loc)) 8 else mem a

variable {e : Endianness} {mem : Bytes} {loc : ℕ} {v : BitVec 32}

theorem write32_inside {i : ℕ} (hi : i < 4) :
    write32 e mem loc v (loc + i) = v.extractLsb' (8 * lane e i) 8 := by
  rw [write32, if_pos (by omega), Nat.add_sub_cancel_left]

/-- A write touches its four bytes only. -/
theorem write32_outside {a : ℕ} (h : a < loc ∨ loc + 4 ≤ a) : write32 e mem loc v a = mem a :=
  if_neg (by omega)

/-- The four bytes of a word, put together again. -/
theorem join_bytes (v : BitVec 32) :
    v.extractLsb' 24 8 ++ v.extractLsb' 16 8 ++ v.extractLsb' 8 8 ++ v.extractLsb' 0 8 = v := by
  ext i hi
  simp only [BitVec.getElem_append, BitVec.getElem_extractLsb']
  split
  · rw [Nat.zero_add, BitVec.getLsbD_eq_getElem hi]
  · split
    · rw [show 8 + (i - 8) = i by omega, BitVec.getLsbD_eq_getElem hi]
    · split
      · rw [show 16 + (i - 8 - 8) = i by omega, BitVec.getLsbD_eq_getElem hi]
      · rw [show 24 + (i - 8 - 8 - 8) = i by omega, BitVec.getLsbD_eq_getElem hi]

theorem read32_write32 : read32 e (write32 e mem loc v) loc = v := by
  have hbyte : ∀ i < 4, write32 e mem loc v (loc + i) = v.extractLsb' (8 * lane e i) 8 :=
    fun i hi => write32_inside hi
  have h0 : write32 e mem loc v loc = v.extractLsb' (8 * lane e 0) 8 := hbyte 0 (by decide)
  have h1 := hbyte 1 (by decide)
  have h2 := hbyte 2 (by decide)
  have h3 := hbyte 3 (by decide)
  cases e with
  | little =>
    simp only [read32, h0, h1, h2, h3]
    exact join_bytes v
  | big =>
    simp only [read32, h0, h1, h2, h3]
    exact join_bytes v

/-- Writing a word again changes nothing. -/
theorem write32_write32 : write32 e (write32 e mem loc v) loc v = write32 e mem loc v := by
  funext a
  by_cases ha : loc ≤ a ∧ a < loc + 4
  · rw [write32, if_pos ha, write32, if_pos ha]
  · exact write32_outside (by omega)

/-- A word apart from the written one keeps its value. -/
theorem read32_write32_apart {other : ℕ} (h : other + 4 ≤ loc ∨ loc + 4 ≤ other) :
    read32 e (write32 e mem loc v) other = read32 e mem other := by
  have hout : ∀ i < 4, write32 e mem loc v (other + i) = mem (other + i) := by
    intro i hi
    exact write32_outside (by omega)
  have h0 : write32 e mem loc v other = mem other := hout 0 (by decide)
  cases e <;>
    simp only [read32, h0, hout 1 (by decide), hout 2 (by decide), hout 3 (by decide)]

end EndianWord
