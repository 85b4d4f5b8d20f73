import Cpu0Toolchain.Library.StickyBit
import Mathlib.Order.Monotone.Basic
import Mathlib.Algebra.Order.Group.Abs
import Mathlib.Algebra.Ring.Parity
import Mathlib.Tactic.FieldSimp

/-!
# Binary floating-point formats

A format has so many bits for the significand and so many for the exponent. The number without
its sign is a natural number, with the exponent above the significand, and the next number is the
next value: `units_succ`. Rounding to nearest, ties to even, therefore adds a carry to such a
number, and the carry into the exponent is right without more ado.
-/

namespace BinaryFloat
open StickyBit

structure Format where
  significandBits : ℕ
  exponentBits : ℕ
  significandBits_pos : 0 < significandBits
  exponentBits_gt : 1 < exponentBits

namespace Format

variable (f : Format)

/-! ## The values of a format -/

def bias : ℕ := 2 ^ (f.exponentBits - 1) - 1

/-- The number behind the finite ones. It stands for infinity. -/
def infinity : ℕ := (2 ^ f.exponentBits - 1) * 2 ^ f.significandBits

/-- The distance to the next number, in units of the least one. -/
def ulp (m : ℕ) : ℕ := 2 ^ (m / 2 ^ f.significandBits - 1)

/-- A number in units of the least one: a denormal number has no implicit bit, and its exponent is
that of the least normal ones. -/
def units (m : ℕ) : ℕ :=
  (m % 2 ^ f.significandBits +
    if m / 2 ^ f.significandBits = 0 then 0 else 2 ^ f.significandBits) * f.ulp m

/-- The least positive number. -/
def quantum : ℚ := 1 / 2 ^ (f.bias + f.significandBits - 1)

def value (m : ℕ) : ℚ := f.units m * f.quantum

theorem bias_pos : 0 < f.bias :=
  Nat.sub_pos_of_lt (Nat.one_lt_two_pow (Nat.sub_ne_zero_of_lt f.exponentBits_gt))

theorem quantum_pos : 0 < f.quantum := by
  rw [quantum]
  positivity

/-- An exponent and a significand with its implicit bit, or the least exponent and any. -/
theorem units_pack {k q : ℕ} (hq : q < 2 * 2 ^ f.significandBits)
    (hk : k = 0 ∨ 2 ^ f.significandBits ≤ q) :
    f.units (k * 2 ^ f.significandBits + q) = q * 2 ^ k ∧
      f.ulp (k * 2 ^ f.significandBits + q) = 2 ^ k := by
  have hpos : 0 < 2 ^ f.significandBits := Nat.two_pow_pos _
  rw [units, ulp, Nat.add_comm (k * _), Nat.add_mul_div_right _ _ hpos,
    Nat.add_mul_mod_self_right]
  by_cases hsmall : q < 2 ^ f.significandBits
  · obtain rfl : k = 0 := by omega
    rw [Nat.div_eq_of_lt hsmall, Nat.mod_eq_of_lt hsmall, if_pos rfl]
    exact ⟨rfl, rfl⟩
  · have hdiv : q / 2 ^ f.significandBits = 1 := by
      rw [Nat.div_eq_iff hpos]
      omega
    have hmod : q % 2 ^ f.significandBits = q - 2 ^ f.significandBits := by
      rw [Nat.mod_eq_sub_mod (Nat.not_lt.mp hsmall), Nat.mod_eq_of_lt (by omega)]
    have hexp : 1 + k - 1 = k := Nat.add_sub_cancel_left 1 k
    rw [hdiv, hmod, if_neg (by omega), Nat.sub_add_cancel (Nat.not_lt.mp hsmall), hexp]
    exact ⟨rfl, rfl⟩

theorem exists_pack (m : ℕ) : ∃ k q, m = k * 2 ^ f.significandBits + q ∧
    q < 2 * 2 ^ f.significandBits ∧ (k = 0 ∨ 2 ^ f.significandBits ≤ q) := by
  have hpos : 0 < 2 ^ f.significandBits := Nat.two_pow_pos _
  have hsplit := Nat.div_add_mod m (2 ^ f.significandBits)
  have hmod := Nat.mod_lt m hpos
  cases hexp : m / 2 ^ f.significandBits with
  | zero =>
    rw [hexp] at hsplit
    exact ⟨0, m, by omega, by omega, .inl rfl⟩
  | succ k =>
    rw [hexp, Nat.mul_succ, Nat.mul_comm] at hsplit
    exact ⟨k, 2 ^ f.significandBits + m % 2 ^ f.significandBits, by omega, by omega,
      .inr (Nat.le_add_right _ _)⟩

theorem exists_pack_of_le {m : ℕ} (h : 2 ^ f.significandBits ≤ m) :
    ∃ k q, m = k * 2 ^ f.significandBits + q ∧ q < 2 * 2 ^ f.significandBits ∧
      2 ^ f.significandBits ≤ q := by
  obtain ⟨k, q, rfl, hq, hk⟩ := f.exists_pack m
  refine ⟨k, q, rfl, hq, hk.elim ?_ id⟩
  rintro rfl
  rwa [Nat.zero_mul, Nat.zero_add] at h

/-- The carry out of the significand is one of the exponent. -/
theorem units_succ (m : ℕ) : f.units (m + 1) = f.units m + f.ulp m := by
  obtain ⟨k, q, rfl, hq, hk⟩ := f.exists_pack m
  obtain ⟨hunits, hulp⟩ := f.units_pack hq hk
  rw [hunits, hulp, ← Nat.succ_mul]
  rcases Nat.lt_or_ge (q + 1) (2 * 2 ^ f.significandBits) with hlt | hge
  · exact (f.units_pack hlt (hk.imp_right Nat.le_succ_of_le)).1
  · have hlast : q + 1 = 2 * 2 ^ f.significandBits := by omega
    have hnext : k * 2 ^ f.significandBits + (q + 1) =
        (k + 1) * 2 ^ f.significandBits + 2 ^ f.significandBits := by
      rw [hlast]
      ring
    rw [Nat.add_assoc, hnext, (f.units_pack (by omega) (.inr le_rfl)).1, Nat.succ_eq_add_one,
      hlast]
    ring

theorem ulp_pos (m : ℕ) : 0 < f.ulp m := Nat.two_pow_pos _

theorem units_strictMono : StrictMono f.units :=
  strictMono_nat_of_lt_succ fun m => by
    rw [f.units_succ]
    exact Nat.lt_add_of_pos_right (f.ulp_pos m)

theorem value_strictMono : StrictMono f.value := fun _ _ h =>
  mul_lt_mul_of_pos_right (Nat.cast_lt.mpr (f.units_strictMono h)) f.quantum_pos

theorem value_pack {k q : ℕ} (hq : q < 2 * 2 ^ f.significandBits)
    (hk : k = 0 ∨ 2 ^ f.significandBits ≤ q) :
    f.value (k * 2 ^ f.significandBits + q) = q * 2 ^ k * f.quantum := by
  rw [value, (f.units_pack hq hk).1, Nat.cast_mul, Nat.cast_pow, Nat.cast_two]

/-- The least exponent. -/
theorem value_of_lt {m : ℕ} (h : m < 2 * 2 ^ f.significandBits) : f.value m = m * f.quantum := by
  have hvalue := f.value_pack (k := 0) h (.inl rfl)
  rwa [Nat.zero_mul, Nat.zero_add, pow_zero, mul_one] at hvalue

theorem value_zero : f.value 0 = 0 := by
  rw [f.value_of_lt (by positivity), Nat.cast_zero, zero_mul]

theorem value_nonneg (m : ℕ) : 0 ≤ f.value m :=
  mul_nonneg (Nat.cast_nonneg _) f.quantum_pos.le

theorem infinity_pos : 0 < f.infinity := by
  have hexp : 1 < 2 ^ f.exponentBits :=
    Nat.one_lt_two_pow (Nat.ne_of_gt (Nat.lt_of_succ_lt f.exponentBits_gt))
  exact Nat.mul_pos (Nat.sub_pos_of_lt hexp) (Nat.two_pow_pos _)

theorem infinity_lt : f.infinity < 2 ^ (f.significandBits + f.exponentBits) := by
  rw [infinity, Nat.pow_add, Nat.mul_comm]
  exact Nat.mul_lt_mul_of_pos_left (Nat.sub_lt (Nat.two_pow_pos _) one_pos) (Nat.two_pow_pos _)

/-! ## Rounding -/

/-- The number nearest to a value, and the even one of two. Infinity is as far away as if the
numbers went on, so that what is nearer to it than to the last finite number overflows. -/
structure Nearest (x : ℚ) (m : ℕ) : Prop where
  le_infinity : m ≤ f.infinity
  nearest : ∀ m' ≤ f.infinity, |f.value m - x| ≤ |f.value m' - x|
  tie : ∀ m' ≤ f.infinity, m' ≠ m → |f.value m' - x| = |f.value m - x| → Even m

variable {f} {x : ℚ} {m m' : ℕ}

theorem Nearest.not_lt (h : f.Nearest x m) (h' : f.Nearest x m') : ¬m < m' := by
  intro hlt
  have hdist := le_antisymm (h.nearest m' h'.le_infinity) (h'.nearest m h.le_infinity)
  have heven := h.tie m' h'.le_infinity (Nat.ne_of_gt hlt) hdist.symm
  have heven' := h'.tie m h.le_infinity (Nat.ne_of_lt hlt) hdist
  have hne : m + 1 ≠ m' := by
    rintro rfl
    exact Nat.not_even_iff_odd.mpr heven.add_one heven'
  -- the odd number between them is nearer
  have hlow := f.value_strictMono (Nat.lt_succ_self m)
  have hhigh := f.value_strictMono (Nat.lt_of_le_of_ne hlt hne)
  have hbetween := h.nearest (m + 1) (Nat.le_trans hlt h'.le_infinity)
  have hsum : x - f.value m = f.value m' - x := by
    rcases abs_choice (f.value m - x) with h1 | h1 <;>
    rcases abs_choice (f.value m' - x) with h2 | h2 <;>
    rw [h1, h2] at hdist <;> linarith
  have hpos : 0 < x - f.value m := by linarith
  rw [abs_sub_comm, abs_of_pos hpos] at hbetween
  rcases abs_choice (f.value (m + 1) - x) with h3 | h3 <;> rw [h3] at hbetween <;> linarith

theorem Nearest.unique (h : f.Nearest x m) (h' : f.Nearest x m') : m = m' :=
  Nat.le_antisymm (Nat.not_lt.mp (h'.not_lt h)) (Nat.not_lt.mp (h.not_lt h'))

theorem Nearest.refl (h : m ≤ f.infinity) : f.Nearest (f.value m) m := by
  refine ⟨h, ?_, ?_⟩
  · intro m' _
    rw [sub_self, abs_zero]
    exact abs_nonneg _
  · intro m' _ hne heq
    rw [sub_self, abs_zero, abs_eq_zero, sub_eq_zero] at heq
    exact absurd (f.value_strictMono.injective heq) hne

/-- Past the finite numbers. -/
theorem nearest_infinity (h : f.value f.infinity ≤ x) : f.Nearest x f.infinity := by
  have hdist : ∀ m ≤ f.infinity, |f.value m - x| = x - f.value m := by
    intro m hm
    have := f.value_strictMono.monotone hm
    rw [abs_sub_comm, abs_of_nonneg (by linarith)]
  refine ⟨le_rfl, ?_, ?_⟩
  · intro m hm
    have := f.value_strictMono.monotone hm
    rw [hdist m hm, hdist _ le_rfl]
    linarith
  · intro m hm hne heq
    have := f.value_strictMono (Nat.lt_of_le_of_ne hm hne)
    rw [hdist m hm, hdist _ le_rfl] at heq
    linarith

/-- What is added to a number below the exact result, by how this compares with the middle. -/
def carry (c : Ordering) (m : ℕ) : ℕ :=
  match c with
  | .lt => 0
  | .eq => m % 2
  | .gt => 1

theorem carry_le (c : Ordering) (m : ℕ) : carry c m ≤ 1 := by
  cases c with
  | lt => exact Nat.zero_le 1
  | eq => exact Nat.le_of_lt_succ (Nat.mod_lt m two_pos)
  | gt => exact le_rfl

theorem carry_add_even (c : Ordering) {n : ℕ} (h : 2 ∣ n) (m : ℕ) :
    carry c (n + m) = carry c m := by
  cases c with
  | lt => rfl
  | eq =>
    change (n + m) % 2 = m % 2
    omega
  | gt => rfl

/-- Nearer than another number, and than all others. -/
theorem nearest_of_two {a b : ℕ} (ha : a ≤ f.infinity)
    (hb : |f.value a - x| ≤ |f.value b - x|) (heven : |f.value b - x| = |f.value a - x| → Even a)
    (hother : ∀ m, m ≠ a → m ≠ b → |f.value a - x| < |f.value m - x|) : f.Nearest x a := by
  refine ⟨ha, ?_, ?_⟩
  · intro m _
    by_cases hma : m = a
    · rw [hma]
    by_cases hmb : m = b
    · rwa [hmb]
    exact (hother m hma hmb).le
  · intro m _ hma heq
    by_cases hmb : m = b
    · rw [hmb] at heq
      exact heven heq
    · exact absurd heq.symm (ne_of_lt (hother m hma hmb))

theorem nearest_carry (hm : m < f.infinity) (hlow : f.value m ≤ x) (hhigh : x ≤ f.value (m + 1)) :
    f.Nearest x (m + carry (cmp (x - f.value m) (f.value (m + 1) - x)) m) := by
  have hdown : |f.value m - x| = x - f.value m := by
    rw [abs_sub_comm, abs_of_nonneg (by linarith)]
  have hup : |f.value (m + 1) - x| = f.value (m + 1) - x := abs_of_nonneg (by linarith)
  -- all other numbers are farther than one of these two
  have hfar : ∀ m', m' ≠ m → m' ≠ m + 1 →
      |f.value m - x| < |f.value m' - x| ∨ |f.value (m + 1) - x| < |f.value m' - x| := by
    intro m' hne hne'
    rcases Nat.lt_or_gt_of_ne hne with hlt | hgt
    · left
      have := f.value_strictMono hlt
      rw [abs_sub_comm _ x, abs_sub_comm _ x, abs_of_nonneg (by linarith),
        abs_of_nonneg (by linarith)]
      linarith
    · right
      have := f.value_strictMono (Nat.lt_of_le_of_ne hgt (Ne.symm hne'))
      rw [hup, abs_of_nonneg (by linarith)]
      linarith
  rcases lt_trichotomy (x - f.value m) (f.value (m + 1) - x) with hcmp | hcmp | hcmp
  · rw [(cmp_eq_lt_iff _ _).mpr hcmp, carry, Nat.add_zero]
    rw [← hdown, ← hup] at hcmp
    exact nearest_of_two hm.le hcmp.le (fun heq => absurd heq hcmp.ne') fun m' hne hne' =>
      (hfar m' hne hne').elim id hcmp.trans
  · rw [(cmp_eq_eq_iff _ _).mpr hcmp, carry]
    rw [← hdown, ← hup] at hcmp
    rcases Nat.mod_two_eq_zero_or_one m with heven | hodd
    · rw [heven, Nat.add_zero]
      exact nearest_of_two hm.le hcmp.le (fun _ => Nat.even_iff.mpr heven) fun m' hne hne' =>
        (hfar m' hne hne').elim id hcmp.le.trans_lt
    · rw [hodd]
      exact nearest_of_two hm hcmp.ge (fun _ => (Nat.odd_iff.mpr hodd).add_one) fun m' hne hne' =>
        (hfar m' hne' hne).elim hcmp.ge.trans_lt id
  · rw [(cmp_eq_gt_iff _ _).mpr hcmp, carry]
    rw [← hdown, ← hup] at hcmp
    exact nearest_of_two hm hcmp.le (fun heq => absurd heq hcmp.ne') fun m' hne hne' =>
      (hfar m' hne' hne).elim hcmp.trans id

theorem value_one : f.value 1 = f.quantum := by
  rw [value, f.units_succ 0, ulp, Nat.zero_div, units, Nat.zero_mod, Nat.zero_div, if_pos rfl]
  simp

/-- Less than half of the least number. -/
theorem nearest_zero (hnonneg : 0 ≤ x) (hlt : 2 * x < f.quantum) : f.Nearest x 0 := by
  have hzero : f.value 0 = 0 := f.value_zero
  have hone : f.value (0 + 1) = f.quantum := f.value_one
  have hnearest := nearest_carry (x := x) f.infinity_pos (by rwa [hzero]) (by rw [hone]; linarith)
  rwa [hzero, hone, (cmp_eq_lt_iff _ _).mpr (by linarith)] at hnearest

theorem cmp_eq_of_lt_iff {α β : Type*} [LinearOrder α] [LinearOrder β] {a b : α} {c d : β}
    (hlt : a < b ↔ c < d) (hgt : b < a ↔ d < c) : cmp a b = cmp c d := by
  rcases lt_trichotomy c d with h | h | h
  · rw [h.cmp_eq_lt, (hlt.mpr h).cmp_eq_lt]
  · have hnlt := mt hlt.mp h.not_lt
    have hngt := mt hgt.mp h.not_gt
    rw [h.cmp_eq_eq, cmp_eq_eq_iff]
    exact le_antisymm (not_lt.mp hngt) (not_lt.mp hnlt)
  · rw [h.cmp_eq_gt, (hgt.mpr h).cmp_eq_gt]

/-- The rounding of a significand with guard bits below it, which only have to tell on which side
of the half the exact result is. -/
theorem nearest_guard {k q half r : ℕ} {y : ℚ} (hq : q < 2 * 2 ^ f.significandBits)
    (hk : k = 0 ∨ 2 ^ f.significandBits ≤ q) (hm : k * 2 ^ f.significandBits + q < f.infinity)
    (hr : r < 2 * half) (hside : SameSide (half : ℚ) ((q * (2 * half) + r : ℕ) : ℚ) y)
    (hx : x = y / (2 * half) * 2 ^ k * f.quantum) :
    f.Nearest x (k * 2 ^ f.significandBits + q +
      carry (cmp r half) (k * 2 ^ f.significandBits + q)) := by
  have hhalf : (0 : ℚ) < half := by
    rw [Nat.cast_pos]
    omega
  obtain ⟨hunits, hulp⟩ := f.units_pack hq hk
  -- the unit of the guard bits
  obtain ⟨c, hc, hcdef⟩ : ∃ c : ℚ, 0 < c ∧ 2 ^ k * f.quantum = 2 * half * c := by
    refine ⟨2 ^ k * f.quantum / (2 * half), ?_, ?_⟩
    · have := f.quantum_pos
      positivity
    · rw [mul_div_cancel₀]
      positivity
  have hvalue : f.value (k * 2 ^ f.significandBits + q) = 2 * q * half * c := by
    rw [f.value_pack hq hk, mul_assoc, hcdef]
    ring
  have hnext : f.value (k * 2 ^ f.significandBits + q + 1) = (2 * q + 2) * half * c := by
    rw [value, f.units_succ, hunits, hulp, ← Nat.succ_mul, Nat.cast_mul, Nat.cast_pow,
      Nat.cast_two, mul_assoc, hcdef, Nat.cast_succ]
    ring
  have hexact : x = y * c := by
    rw [hx, mul_assoc, hcdef]
    field_simp
  have hlow : 2 * q * half ≤ y := by
    have hle : (2 * q : ℤ) * (half : ℚ) ≤ ((q * (2 * half) + r : ℕ) : ℚ) := by
      push_cast
      have : (0 : ℚ) ≤ r := Nat.cast_nonneg r
      linarith
    exact_mod_cast (hside.le_iff (2 * q)).mp hle
  have hhigh : y < (2 * q + 2) * half := by
    have hlt : ((q * (2 * half) + r : ℕ) : ℚ) < (2 * q + 2 : ℤ) * (half : ℚ) := by
      push_cast
      have : (r : ℚ) < 2 * half := by exact_mod_cast hr
      linarith
    exact_mod_cast (hside.lt_iff (2 * q + 2)).mp hlt
  have hcmp : cmp (x - f.value (k * 2 ^ f.significandBits + q))
      (f.value (k * 2 ^ f.significandBits + q + 1) - x) = cmp r half := by
    have hmiddle := hside (2 * q + 1)
    push_cast at hmiddle
    have hlt : x - f.value (k * 2 ^ f.significandBits + q) <
        f.value (k * 2 ^ f.significandBits + q + 1) - x ↔ r < half := by
      have hy : y * c < (2 * q + 1) * half * c ↔ y < (2 * q + 1) * half :=
        mul_lt_mul_iff_left₀ hc
      rw [hvalue, hnext, hexact, ← Nat.cast_lt (α := ℚ)]
      constructor
      · intro h
        linarith [hmiddle.1.mpr (hy.mp (by linarith))]
      · intro h
        linarith [hy.mpr (hmiddle.1.mp (by linarith))]
    have hgt : f.value (k * 2 ^ f.significandBits + q + 1) - x <
        x - f.value (k * 2 ^ f.significandBits + q) ↔ half < r := by
      have hy : (2 * q + 1) * half * c < y * c ↔ (2 * q + 1) * half < y :=
        mul_lt_mul_iff_left₀ hc
      rw [hvalue, hnext, hexact, ← Nat.cast_lt (α := ℚ)]
      constructor
      · intro h
        linarith [hmiddle.2.mpr (hy.mp (by linarith))]
      · intro h
        linarith [hy.mpr (hmiddle.2.mp (by linarith))]
    exact cmp_eq_of_lt_iff hlt hgt
  rw [← hcmp]
  refine nearest_carry hm ?_ ?_
  · rw [hvalue, hexact]
    exact mul_le_mul_of_nonneg_right hlow hc.le
  · rw [hnext, hexact]
    exact mul_le_mul_of_nonneg_right hhigh.le hc.le

theorem value_succ (m : ℕ) : f.value (m + 1) = f.value m + f.ulp m * f.quantum := by
  rw [value, f.units_succ, Nat.cast_add, add_mul]
  rfl

theorem ulp_mono : Monotone f.ulp := fun _ _ h =>
  Nat.pow_le_pow_right two_pos (Nat.sub_le_sub_right (Nat.div_le_div_right h) 1)

/-- The rounding of a significand that may be one too small: the exact result is less than one and
a half above it, and no tie. -/
theorem nearest_remainder {k q : ℕ} {y : ℚ} (hq : q < 2 * 2 ^ f.significandBits)
    (hk : k = 0 ∨ 2 ^ f.significandBits ≤ q) (hm : k * 2 ^ f.significandBits + q < f.infinity)
    (hlow : q ≤ y) (hhigh : 2 * y < 2 * q + 3) (hne : 2 * y ≠ 2 * q + 1)
    (hx : x = y * 2 ^ k * f.quantum) :
    f.Nearest x (k * 2 ^ f.significandBits + q + if 2 * q + 1 < 2 * y then 1 else 0) := by
  obtain ⟨hunits, hulp⟩ := f.units_pack hq hk
  have hstep := f.ulp_mono (Nat.le_succ (k * 2 ^ f.significandBits + q))
  have hpos := f.quantum_pos
  generalize k * 2 ^ f.significandBits + q = m at *
  obtain ⟨c, hc, hcdef⟩ : ∃ c : ℚ, 0 < c ∧ 2 ^ k * f.quantum = c :=
    ⟨_, mul_pos (by positivity) hpos, rfl⟩
  rw [mul_assoc, hcdef] at hx
  have hvalue : f.value m = q * c := by
    rw [value, hunits, ← hcdef]
    push_cast
    ring
  have hsucc : f.value (m + 1) = (q + 1) * c := by
    rw [f.value_succ, hvalue, hulp, ← hcdef]
    push_cast
    ring
  have hnext : (q + 2) * c ≤ f.value (m + 1 + 1) := by
    have hle : ((2 ^ k : ℕ) : ℚ) ≤ (f.ulp (m + 1) : ℕ) := by
      rw [← hulp]
      exact_mod_cast hstep
    have hmul := mul_le_mul_of_nonneg_right hle hpos.le
    push_cast at hmul
    rw [f.value_succ, hsucc]
    linarith
  rcases lt_or_gt_of_ne hne with hdown | hup
  · rw [if_neg (lt_asymm hdown), Nat.add_zero]
    have hnearest := nearest_carry (x := x) hm (by rw [hvalue, hx]; nlinarith)
      (by rw [hsucc, hx]; nlinarith)
    rwa [(cmp_eq_lt_iff _ _).mpr (by rw [hvalue, hsucc, hx]; nlinarith)] at hnearest
  rw [if_pos hup]
  rcases le_or_gt y (q + 1) with hle | hgt
  · have hnearest := nearest_carry (x := x) hm (by rw [hvalue, hx]; nlinarith)
      (by rw [hsucc, hx]; nlinarith)
    rwa [(cmp_eq_gt_iff _ _).mpr (by rw [hvalue, hsucc, hx]; nlinarith)] at hnearest
  -- the number below was the second one below
  have habove : f.value (m + 1) ≤ x := by
    rw [hsucc, hx]
    exact mul_le_mul_of_nonneg_right hgt.le hc.le
  rcases Nat.lt_or_eq_of_le (Nat.succ_le_of_lt hm) with hlt | heq
  · have hnearest := nearest_carry (x := x) hlt habove (by rw [hx]; nlinarith)
    rwa [(cmp_eq_lt_iff _ _).mpr (by rw [hsucc, hx]; nlinarith)] at hnearest
  · rw [show m + 1 = f.infinity from heq] at habove ⊢
    exact nearest_infinity habove

end Format

end BinaryFloat
