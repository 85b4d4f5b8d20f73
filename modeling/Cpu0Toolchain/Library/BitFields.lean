import Mathlib.Algebra.Order.Ring.Int
import Mathlib.Data.Nat.Bitwise
import Mathlib.Data.Nat.ModEq
import Mathlib.Tactic.Common

/-!
# Counting bits in the fields of a number

A number is read as fields of `k` bits, the lowest first. The usual counts of bits add each field to
its neighbour, all of them at once with masks and shifts, until few fields are left.

## Main results

- `pairSums_eq`, `pairSums_of_fieldsLe`: what the masks and shifts compute.
- `fieldSum_pairSums`: the sum of the fields stays.
- `fieldSum_xor`: its parity under the exclusive or.
-/

namespace BitFields

/-- The sum of the first `m` fields. -/
def fieldSum (k : ℕ) : ℕ → ℕ → ℕ
  | 0, _ => 0
  | m + 1, n => n % 2 ^ k + fieldSum k m (n / 2 ^ k)

/-- Ones in every other field, in `m` of them. -/
def evenMask (k : ℕ) : ℕ → ℕ
  | 0 => 0
  | m + 1 => 2 ^ k - 1 + 2 ^ (2 * k) * evenMask k m

/-- The sums of neighbours as fields of double width. -/
def pairSums (k : ℕ) : ℕ → ℕ → ℕ
  | 0, _ => 0
  | m + 1, n => n % 2 ^ k + n / 2 ^ k % 2 ^ k + 2 ^ (2 * k) * pairSums k m (n / 2 ^ (2 * k))

def FieldsLe (k b n : ℕ) : Prop := ∀ i, n / 2 ^ (k * i) % 2 ^ k ≤ b

variable {k m n b : ℕ}

theorem two_pow_double (k : ℕ) : 2 ^ (2 * k) = 2 ^ k * 2 ^ k := by
  rw [Nat.two_mul, Nat.pow_add]

theorem two_pow_succ (k i : ℕ) : 2 ^ (k * (i + 1)) = 2 ^ k * 2 ^ (k * i) := by
  rw [Nat.mul_succ, Nat.add_comm (k * i), Nat.pow_add]

/-- The first two fields and the rest. -/
theorem fields_split (n k : ℕ) :
    n % 2 ^ k + 2 ^ k * (n / 2 ^ k % 2 ^ k) + 2 ^ (2 * k) * (n / 2 ^ (2 * k)) = n := by
  have hrest : n / 2 ^ (2 * k) = n / 2 ^ k / 2 ^ k := by
    rw [two_pow_double, Nat.div_div_eq_div_mul]
  rw [hrest, two_pow_double, Nat.mul_assoc, Nat.add_assoc, ← Nat.mul_add, Nat.mod_add_div,
    Nat.mod_add_div]

theorem fieldSum_add (k l m n : ℕ) :
    fieldSum k (l + m) n = fieldSum k l n + fieldSum k m (n / 2 ^ (k * l)) := by
  induction l generalizing n with
  | zero => rw [Nat.zero_add, fieldSum, Nat.zero_add, Nat.mul_zero, Nat.pow_zero, Nat.div_one]
  | succ l ih =>
    rw [Nat.succ_add, fieldSum, fieldSum, ih, Nat.div_div_eq_div_mul, ← Nat.pow_add,
      Nat.mul_succ, Nat.add_comm k, Nat.add_assoc]

/-! ## The masks -/

theorem and_evenMask_succ (n k m : ℕ) : n &&& evenMask k (m + 1) =
    n % 2 ^ k + 2 ^ (2 * k) * (n / 2 ^ (2 * k) &&& evenMask k m) := by
  have hpos := Nat.two_pow_pos k
  have hsmall : 2 ^ k - 1 < 2 ^ (2 * k) := by
    rw [two_pow_double]
    have hle := Nat.le_mul_of_pos_left (2 ^ k) hpos
    omega
  have hmod : evenMask k (m + 1) % 2 ^ (2 * k) = 2 ^ k - 1 := by
    rw [evenMask, Nat.add_mul_mod_self_left, Nat.mod_eq_of_lt hsmall]
  have hdiv : evenMask k (m + 1) / 2 ^ (2 * k) = evenMask k m := by
    rw [evenMask, Nat.add_mul_div_left _ _ (Nat.two_pow_pos _), Nat.div_eq_of_lt hsmall,
      Nat.zero_add]
  have hlow : n % 2 ^ (2 * k) % 2 ^ k = n % 2 ^ k := by
    rw [two_pow_double, Nat.mod_mul_right_mod]
  rw [← Nat.mod_add_div (n &&& evenMask k (m + 1)) (2 ^ (2 * k)), Nat.and_mod_two_pow,
    Nat.and_div_two_pow, hmod, hdiv, Nat.and_two_pow_sub_one_eq_mod, hlow]

theorem shiftRight_div (n k : ℕ) : n >>> k / 2 ^ (2 * k) = (n / 2 ^ (2 * k)) >>> k := by
  rw [Nat.shiftRight_eq_div_pow, Nat.shiftRight_eq_div_pow, Nat.div_div_eq_div_mul,
    Nat.div_div_eq_div_mul, Nat.mul_comm]

/-- The fields that the mask leaves, with the others moved down to them. -/
theorem pairSums_eq (k m n : ℕ) :
    (n &&& evenMask k m) + (n >>> k &&& evenMask k m) = pairSums k m n := by
  induction m generalizing n with
  | zero => rw [evenMask, Nat.and_zero, Nat.and_zero, pairSums]
  | succ m ih =>
    rw [and_evenMask_succ, and_evenMask_succ, shiftRight_div, Nat.shiftRight_eq_div_pow n, pairSums,
      ← ih, Nat.mul_add]
    omega

/-- The fields are those of the mask and the others. -/
theorem and_evenMask_add (h : n < 2 ^ (2 * k * m)) :
    (n &&& evenMask k m) + 2 ^ k * (n >>> k &&& evenMask k m) = n := by
  induction m generalizing n with
  | zero =>
    rw [Nat.mul_zero, Nat.pow_zero, Nat.lt_one_iff] at h
    rw [evenMask, Nat.and_zero, Nat.and_zero, Nat.mul_zero, h]
  | succ m ih =>
    have hdiv : n / 2 ^ (2 * k) < 2 ^ (2 * k * m) := by
      rw [Nat.mul_succ, Nat.pow_add, Nat.mul_comm] at h
      exact Nat.div_lt_of_lt_mul h
    rw [and_evenMask_succ, and_evenMask_succ, shiftRight_div, Nat.shiftRight_eq_div_pow n]
    generalize hlow : n / 2 ^ (2 * k) &&& evenMask k m = low
    generalize hhigh : (n / 2 ^ (2 * k)) >>> k &&& evenMask k m = high
    calc n % 2 ^ k + 2 ^ (2 * k) * low + 2 ^ k * (n / 2 ^ k % 2 ^ k + 2 ^ (2 * k) * high)
        = n % 2 ^ k + 2 ^ k * (n / 2 ^ k % 2 ^ k) + 2 ^ (2 * k) * (low + 2 ^ k * high) := by
          rw [Nat.mul_add, Nat.mul_add, Nat.mul_left_comm (2 ^ k)]
          omega
      _ = n := by
          rw [← hlow, ← hhigh, ih hdiv, fields_split]

/-- The first step saves a mask, as a pair of bits is its sum and once more the upper bit. -/
theorem sub_evenMask (h : n < 2 ^ (2 * m)) :
    n - (n >>> 1 &&& evenMask 1 m) = pairSums 1 m n := by
  have hsplit := and_evenMask_add (k := 1) (m := m) h
  rw [← pairSums_eq]
  omega

theorem pairSum_lt (h : 0 < k) (n : ℕ) : n % 2 ^ k + n / 2 ^ k % 2 ^ k < 2 ^ (2 * k) := by
  have hpos := Nat.two_pow_pos k
  have hlow := Nat.mod_lt n hpos
  have hhigh := Nat.mod_lt (n / 2 ^ k) hpos
  have htwo : 2 ≤ 2 ^ k := Nat.le_self_pow h.ne' 2
  have hdouble := Nat.mul_le_mul_right (2 ^ k) htwo
  rw [two_pow_double]
  omega

theorem fieldSum_pairSums (h : 0 < k) (m n : ℕ) :
    fieldSum (2 * k) m (pairSums k m n) = fieldSum k (2 * m) n := by
  induction m generalizing n with
  | zero => rfl
  | succ m ih =>
    have hrest : n / 2 ^ (2 * k) = n / 2 ^ k / 2 ^ k := by
      rw [two_pow_double, Nat.div_div_eq_div_mul]
    rw [fieldSum, pairSums, Nat.add_mul_mod_self_left, Nat.mod_eq_of_lt (pairSum_lt h n),
      Nat.add_mul_div_left _ _ (Nat.two_pow_pos _), Nat.div_eq_of_lt (pairSum_lt h n),
      Nat.zero_add, ih, hrest, Nat.mul_succ, fieldSum, fieldSum, Nat.add_assoc]

/-! ## Fields with room for a sum -/

theorem fieldsLe_div (h : FieldsLe k b n) (l : ℕ) : FieldsLe k b (n / 2 ^ (k * l)) := by
  intro i
  rw [Nat.div_div_eq_div_mul, ← Nat.pow_add, ← Nat.mul_add]
  exact h (l + i)

theorem fieldsLe_pairSums (h : FieldsLe k b n) (hk : 0 < k) (m : ℕ) :
    FieldsLe (2 * k) (2 * b) (pairSums k m n) := by
  induction m generalizing n with
  | zero =>
    intro i
    rw [pairSums, Nat.zero_div, Nat.zero_mod]
    exact Nat.zero_le _
  | succ m ih =>
    intro i
    rw [pairSums]
    cases i with
    | zero =>
      have h0 := h 0
      have h1 := h 1
      rw [Nat.mul_zero, Nat.pow_zero, Nat.div_one] at h0
      rw [Nat.mul_one] at h1
      rw [Nat.mul_zero, Nat.pow_zero, Nat.div_one, Nat.add_mul_mod_self_left,
        Nat.mod_eq_of_lt (pairSum_lt hk n)]
      omega
    | succ i =>
      have hrest := fieldsLe_div h 2
      rw [Nat.mul_comm k 2] at hrest
      rw [Nat.mul_succ, Nat.add_comm (2 * k * i), Nat.pow_add, ← Nat.div_div_eq_div_mul,
        Nat.add_mul_div_left _ _ (Nat.two_pow_pos _), Nat.div_eq_of_lt (pairSum_lt hk n),
        Nat.zero_add]
      exact ih hrest i

theorem fieldsLe_zero (h : FieldsLe k b n) : n % 2 ^ k ≤ b := by
  have h0 := h 0
  rwa [Nat.mul_zero, Nat.pow_zero, Nat.div_one] at h0

theorem fieldsLe_tail (h : FieldsLe k b n) : FieldsLe k b (n / 2 ^ k) := by
  have hrest := fieldsLe_div h 1
  rwa [Nat.mul_one] at hrest

section Room

variable {x y c : ℕ}

/-- A sum with room in each field has no carry. -/
theorem add_div_mod (hx : FieldsLe k b x) (hy : FieldsLe k c y) (hroom : b + c < 2 ^ k) :
    (x + y) % 2 ^ k = x % 2 ^ k + y % 2 ^ k ∧ (x + y) / 2 ^ k = x / 2 ^ k + y / 2 ^ k := by
  have hx0 := fieldsLe_zero hx
  have hy0 := fieldsLe_zero hy
  have hlt : x % 2 ^ k + y % 2 ^ k < 2 ^ k := by omega
  exact ⟨Nat.add_mod_of_add_mod_lt hlt, Nat.add_div_eq_of_add_mod_lt hlt⟩

theorem fieldsLe_add (hx : FieldsLe k b x) (hy : FieldsLe k c y) (hroom : b + c < 2 ^ k) :
    FieldsLe k (b + c) (x + y) := by
  intro i
  induction i generalizing x y with
  | zero =>
    rw [Nat.mul_zero, Nat.pow_zero, Nat.div_one, (add_div_mod hx hy hroom).1]
    exact Nat.add_le_add (fieldsLe_zero hx) (fieldsLe_zero hy)
  | succ i ih =>
    rw [two_pow_succ, ← Nat.div_div_eq_div_mul, (add_div_mod hx hy hroom).2]
    exact ih (fieldsLe_tail hx) (fieldsLe_tail hy)

theorem fieldSum_add_fields (hx : FieldsLe k b x) (hy : FieldsLe k c y) (hroom : b + c < 2 ^ k)
    (m : ℕ) : fieldSum k m (x + y) = fieldSum k m x + fieldSum k m y := by
  induction m generalizing x y with
  | zero => rfl
  | succ m ih =>
    obtain ⟨hmod, hdiv⟩ := add_div_mod hx hy hroom
    rw [fieldSum, fieldSum, fieldSum, hmod, hdiv, ih (fieldsLe_tail hx) (fieldsLe_tail hy)]
    omega

end Room

/-- Where no sum leaves its field, one mask after the addition is enough. -/
theorem pairSums_of_fieldsLe (h : FieldsLe k b n) (hroom : 2 * b < 2 ^ k) (m : ℕ) :
    (n + n >>> k) &&& evenMask k m = pairSums k m n := by
  induction m generalizing n with
  | zero => rw [evenMask, Nat.and_zero, pairSums]
  | succ m ih =>
    have htail := fieldsLe_tail h
    obtain ⟨hmod, hdiv⟩ := add_div_mod h htail (by omega)
    obtain ⟨-, hdiv'⟩ := add_div_mod htail (fieldsLe_tail htail) (by omega)
    have hrest := ih (fieldsLe_tail htail)
    rw [Nat.shiftRight_eq_div_pow] at hrest ⊢
    have hsum : (n + n / 2 ^ k) / 2 ^ (2 * k) = n / 2 ^ k / 2 ^ k + n / 2 ^ k / 2 ^ k / 2 ^ k := by
      rw [two_pow_double, ← Nat.div_div_eq_div_mul, hdiv, hdiv']
    rw [and_evenMask_succ, hmod, hsum, hrest, pairSums, two_pow_double, Nat.div_div_eq_div_mul]

/-- The upper half of the fields is added to the lower one. -/
theorem fieldSum_fold (h : FieldsLe k b n) (hroom : 2 * b < 2 ^ k) (m : ℕ) :
    fieldSum k m (n + n >>> (k * m)) = fieldSum k (m + m) n := by
  rw [Nat.shiftRight_eq_div_pow, fieldSum_add_fields h (fieldsLe_div h m) (by omega), fieldSum_add]

theorem fieldsLe_fold (h : FieldsLe k b n) (hroom : 2 * b < 2 ^ k) (m : ℕ) :
    FieldsLe k (2 * b) (n + n >>> (k * m)) := by
  rw [Nat.shiftRight_eq_div_pow, Nat.two_mul]
  exact fieldsLe_add h (fieldsLe_div h m) (by omega)

/-- The fields that a word can hold do not see the bits that it cannot. -/
theorem fieldSum_mod {m l : ℕ} (h : m ≤ l) (n : ℕ) :
    fieldSum k m (n % 2 ^ (k * l)) = fieldSum k m n := by
  induction m generalizing n l with
  | zero => rfl
  | succ m ih =>
    obtain ⟨l, rfl⟩ : ∃ l', l = l' + 1 := ⟨l - 1, by omega⟩
    rw [fieldSum, fieldSum, two_pow_succ, Nat.mod_mul_right_mod, Nat.mod_mul_right_div_self,
      ih (by omega)]

theorem fieldsLe_mod (h : FieldsLe k b n) (l : ℕ) : FieldsLe k b (n % 2 ^ (k * l)) := by
  intro i
  induction i generalizing n l with
  | zero =>
    cases l with
    | zero =>
      rw [Nat.mul_zero, Nat.pow_zero, Nat.mod_one, Nat.zero_div, Nat.zero_mod]
      exact Nat.zero_le b
    | succ l =>
      rw [two_pow_succ, Nat.mul_zero, Nat.pow_zero, Nat.div_one, Nat.mod_mul_right_mod]
      exact fieldsLe_zero h
  | succ i ih =>
    cases l with
    | zero =>
      rw [Nat.mul_zero, Nat.pow_zero, Nat.mod_one, Nat.zero_div, Nat.zero_mod]
      exact Nat.zero_le b
    | succ l =>
      rw [two_pow_succ, two_pow_succ, ← Nat.div_div_eq_div_mul, Nat.mod_mul_right_div_self]
      exact ih (fieldsLe_tail h) l

theorem pairSums_lt (h : 0 < k) (m n : ℕ) : pairSums k m n < 2 ^ (2 * k * m) := by
  induction m generalizing n with
  | zero => exact Nat.two_pow_pos _
  | succ m ih =>
    have hpair := pairSum_lt h n
    have hrest := Nat.mul_le_mul_left (2 ^ (2 * k)) (ih (n / 2 ^ (2 * k)))
    rw [Nat.mul_succ] at hrest
    rw [pairSums, Nat.mul_succ, Nat.pow_add, Nat.mul_comm (2 ^ (2 * k * m))]
    omega

/-! ## Words -/

section Words

variable {w : ℕ} {mask : BitVec w}

theorem toNat_sub_mask (hmask : mask.toNat = evenMask 1 m) (hw : w = 2 * m) (a : BitVec w) :
    (a - ((a >>> 1) &&& mask)).toNat = pairSums 1 m a.toNat := by
  have hlt := a.isLt
  have hpart : ((a >>> 1) &&& mask).toNat = a.toNat >>> 1 &&& evenMask 1 m := by
    rw [BitVec.toNat_and, BitVec.toNat_ushiftRight, hmask]
  have hle : (a >>> 1) &&& mask ≤ a := by
    rw [BitVec.le_def, hpart, Nat.shiftRight_eq_div_pow]
    exact Nat.and_le_left.trans (Nat.div_le_self _ _)
  rw [BitVec.toNat_sub_of_le hle, hpart, sub_evenMask (hw ▸ hlt)]

theorem toNat_add_mask (hmask : mask.toNat = evenMask k m) (hw : w = 2 * k * m) (hk : 0 < k)
    (a : BitVec w) :
    (((a >>> k) &&& mask) + (a &&& mask)).toNat = pairSums k m a.toNat := by
  rw [BitVec.toNat_add, BitVec.toNat_and, BitVec.toNat_and, BitVec.toNat_ushiftRight, hmask,
    Nat.add_comm, pairSums_eq, Nat.mod_eq_of_lt (hw ▸ pairSums_lt hk m a.toNat)]

theorem toNat_mask_add (hmask : mask.toNat = evenMask k m) (hw : w = 2 * k * m) (hk : 0 < k)
    {a : BitVec w} (ha : FieldsLe k b a.toNat) (hroom : 2 * b < 2 ^ k) :
    ((a + (a >>> k)) &&& mask).toNat = pairSums k m a.toNat := by
  have hmod : (pairSums k m a.toNat) % 2 ^ w = pairSums k m a.toNat :=
    Nat.mod_eq_of_lt (hw ▸ pairSums_lt hk m a.toNat)
  rw [BitVec.toNat_and, BitVec.toNat_add, BitVec.toNat_ushiftRight, ← Nat.mod_eq_of_lt mask.isLt,
    ← Nat.and_mod_two_pow, hmask, pairSums_of_fieldsLe ha hroom, hmod]

theorem fold_word {l : ℕ} (hw : w = k * l) {a : BitVec w} (h : FieldsLe k b a.toNat)
    (hroom : 2 * b < 2 ^ k) (hm : m ≤ l) : FieldsLe k (2 * b) (a + (a >>> (k * m))).toNat ∧
      fieldSum k m (a + (a >>> (k * m))).toNat = fieldSum k (m + m) a.toNat := by
  subst hw
  rw [BitVec.toNat_add, BitVec.toNat_ushiftRight]
  exact ⟨fieldsLe_mod (fieldsLe_fold h hroom m) l,
    (fieldSum_mod hm _).trans (fieldSum_fold h hroom m)⟩

end Words

/-! ## Single bits -/

theorem fieldSum_xor (m x y : ℕ) :
    fieldSum 1 m (x ^^^ y) % 2 = (fieldSum 1 m x + fieldSum 1 m y) % 2 := by
  induction m generalizing x y with
  | zero => rfl
  | succ m ih =>
    have hbit : (x ^^^ y) % 2 = (x % 2 + y % 2) % 2 := by
      rcases Nat.mod_two_eq_zero_or_one x with hx | hx <;>
        rcases Nat.mod_two_eq_zero_or_one y with hy | hy <;>
      simp [Nat.xor_mod_two_eq, hx, hy, Nat.add_mod]
    have hrest := ih (x / 2) (y / 2)
    rw [← Nat.xor_div_two] at hrest
    rw [fieldSum, fieldSum, fieldSum, Nat.pow_one]
    omega

theorem toNat_cpop {w : ℕ} (a : BitVec w) : a.cpop.toNat = fieldSum 1 w a.toNat := by
  have hrec : ∀ m, a.cpopNatRec m 0 = fieldSum 1 m a.toNat := by
    intro m
    induction m with
    | zero => rfl
    | succ m ih =>
      rw [BitVec.cpopNatRec_succ, BitVec.cpopNatRec_eq, ih, fieldSum_add, fieldSum, fieldSum,
        BitVec.getLsbD, Nat.toNat_testBit, Nat.zero_add, Nat.one_mul, Nat.pow_one, Nat.add_zero]
  rw [BitVec.toNat_cpop, hrec]

theorem toNat_cpop_xor {w : ℕ} (a b : BitVec w) :
    (a ^^^ b).cpop.toNat % 2 = (a.cpop.toNat + b.cpop.toNat) % 2 := by
  rw [toNat_cpop, toNat_cpop, toNat_cpop, BitVec.toNat_xor, fieldSum_xor]

end BitFields
