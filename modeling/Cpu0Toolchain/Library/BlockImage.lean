import Mathlib.Order.Basic
import Mathlib.Data.List.Basic
import Mathlib.Data.Nat.Basic

/-!
# Images laid out block by block

An image is a list of cells without addresses, so a cell's address is its
position. `append` puts a block at its address behind the image so far, filling
the gap before it, and `cellAt` says what a list of blocks puts at a position.

## Main result

- `lay_getElem?` reads every cell of an image laid out from fitting blocks.
-/

namespace BlockImage

/-- Cells for one address, and the number of filler cells behind them. -/
structure Block (α : Type*) where
  address : ℕ
  cells : List α
  tail : ℕ

variable {α : Type*} (zero : α)

/-- The position behind a block and its filler. -/
def Block.stop (b : Block α) : ℕ := b.address + b.cells.length + b.tail

/-- A block contains a position if one of its own cells is there. -/
def Block.contains (b : Block α) (k : ℕ) : Bool :=
  b.address ≤ k ∧ k < b.address + b.cells.length

def append (image : List α) (b : Block α) : List α :=
  image ++ (List.replicate (b.address - image.length) zero ++ (b.cells ++ List.replicate b.tail zero))

def lay (image : List α) (bs : List (Block α)) : List α := bs.foldl (append zero) image

/-- Every block starts at or behind the end of what is there already. -/
def Fits : ℕ → List (Block α) → Prop
  | _, [] => True
  | n, b :: bs => n ≤ b.address ∧ Fits b.stop bs

/-- Where an image of length `n` ends after the blocks. -/
def endAt : ℕ → List (Block α) → ℕ
  | n, [] => n
  | _, b :: bs => endAt b.stop bs

/-- What the blocks put at a position. -/
def cellAt (bs : List (Block α)) (k : ℕ) : α :=
  match bs.find? (·.contains k) with
  | some b => b.cells.getD (k - b.address) zero
  | none => zero

@[simp] theorem lay_nil (image : List α) : lay zero image [] = image := rfl

@[simp] theorem lay_cons (image : List α) (b : Block α) (bs : List (Block α)) :
    lay zero image (b :: bs) = lay zero (append zero image b) bs := rfl

theorem append_length {image : List α} {b : Block α} (h : image.length ≤ b.address) :
    (append zero image b).length = b.stop := by
  simp only [append, List.length_append, List.length_replicate, Block.stop]
  omega

theorem lay_length {image : List α} {bs : List (Block α)} (h : Fits image.length bs) :
    (lay zero image bs).length = endAt image.length bs := by
  induction bs generalizing image with
  | nil => rfl
  | cons b bs ih =>
    rw [lay_cons, endAt, ← append_length zero h.1]
    exact ih (by rw [append_length zero h.1]; exact h.2)

theorem endAt_eq_getLast? (n : ℕ) (bs : List (Block α)) :
    endAt n bs = (bs.getLast?.map Block.stop).getD n := by
  induction bs generalizing n with
  | nil => rfl
  | cons b bs ih =>
    rw [endAt, ih, List.getLast?_cons]
    cases bs.getLast? <;> rfl

/-- Blocks that fit behind position `n` put nothing before it. -/
theorem cellAt_of_lt {n k : ℕ} {bs : List (Block α)} (h : Fits n bs) (hk : k < n) :
    cellAt zero bs k = zero := by
  have hnone : ∀ b ∈ bs, b.contains k = false := by
    induction bs generalizing n with
    | nil => simp
    | cons b bs ih =>
      have h1 := h.1
      intro c hc
      rcases List.mem_cons.mp hc with rfl | hc
      · simp only [Block.contains, decide_eq_false_iff_not]
        omega
      · exact ih h.2 (by simp only [Block.stop]; omega) c hc
  have hf : bs.find? (·.contains k) = none := by
    rw [List.find?_eq_none]
    intro b hb
    simp [hnone b hb]
  rw [cellAt, hf]

theorem cellAt_cons_of_not_contains {b : Block α} {bs : List (Block α)} {k : ℕ}
    (h : b.contains k = false) : cellAt zero (b :: bs) k = cellAt zero bs k := by
  simp [cellAt, h]

/-- A position at or behind the end of a block is left to the blocks after it. -/
theorem cellAt_cons_of_stop_le {b : Block α} {bs : List (Block α)} {k : ℕ} (h : b.stop ≤ k) :
    cellAt zero (b :: bs) k = cellAt zero bs k := by
  apply cellAt_cons_of_not_contains zero
  simp only [Block.stop] at h
  simp only [Block.contains, decide_eq_false_iff_not]
  omega

/-- The cells an appended block adds to the image. -/
theorem append_getElem? {image : List α} {b : Block α} {bs : List (Block α)} {k : ℕ}
    (h : image.length ≤ b.address) (hfit : Fits b.stop bs) (hlow : image.length ≤ k)
    (hhigh : k < b.stop) : (append zero image b)[k]? = some (cellAt zero (b :: bs) k) := by
  have hout : b.contains k = false → cellAt zero (b :: bs) k = zero := fun hb => by
    rw [cellAt_cons_of_not_contains zero hb, cellAt_of_lt zero hfit hhigh]
  rw [append, List.getElem?_append_right hlow]
  by_cases hgap : k < b.address
  · have hb : b.contains k = false := by
      simp only [Block.contains, decide_eq_false_iff_not]
      omega
    rw [hout hb, List.getElem?_append_left (by simp; omega), List.getElem?_replicate,
      if_pos (by omega)]
  · have hoff : k - image.length - (b.address - image.length) = k - b.address := by omega
    rw [List.getElem?_append_right (by simp; omega), List.length_replicate, hoff]
    by_cases hin : k - b.address < b.cells.length
    · have hb : b.contains k = true := by
        simp only [Block.contains, decide_eq_true_eq]
        omega
      rw [List.getElem?_append_left hin]
      simp [cellAt, hb, List.getElem?_eq_getElem hin]
    · have hb : b.contains k = false := by
        simp only [Block.contains, decide_eq_false_iff_not]
        omega
      simp only [Block.stop] at hhigh
      rw [hout hb, List.getElem?_append_right (by omega), List.getElem?_replicate,
        if_pos (by omega)]

/-- The block's own cells stand at its address. -/
theorem append_cell {image : List α} {b : Block α} (h : image.length ≤ b.address) {i : ℕ}
    (hi : i < b.cells.length) : (append zero image b)[b.address + i]? = b.cells[i]? := by
  have hoff : b.address + i - image.length - (b.address - image.length) = i := by omega
  rw [append, List.getElem?_append_right (by omega),
    List.getElem?_append_right (by rw [List.length_replicate]; omega), List.length_replicate, hoff,
    List.getElem?_append_left hi]

/-- Reading an image laid out from fitting blocks: the cells that were there
stay, and behind them every position holds what the blocks put there. -/
theorem lay_getElem? {image : List α} {bs : List (Block α)} {k : ℕ}
    (h : Fits image.length bs) (hk : k < endAt image.length bs) :
    (lay zero image bs)[k]? =
      if k < image.length then image[k]? else some (cellAt zero bs k) := by
  induction bs generalizing image with
  | nil =>
    have hk' : k < image.length := hk
    simp [hk']
  | cons b bs ih =>
    have hlen := append_length zero h.1
    rw [lay_cons, ih (by rw [hlen]; exact h.2) (by rw [hlen]; exact hk), hlen]
    by_cases hlow : k < image.length
    · have hle : image.length ≤ b.stop := by
        have := h.1
        simp only [Block.stop]
        omega
      rw [if_pos (by omega), if_pos hlow, append, List.getElem?_append_left hlow]
    · rw [if_neg hlow]
      by_cases hhigh : k < b.stop
      · rw [if_pos hhigh, append_getElem? zero h.1 h.2 (by omega) hhigh]
      · rw [if_neg hhigh, cellAt_cons_of_stop_le zero (by omega)]

end BlockImage
