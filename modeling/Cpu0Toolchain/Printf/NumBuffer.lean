import Cpu0Toolchain.Printf.Text

/-!
# The accesses to `num_buffer`

`AppendNumber` as the sequence of its accesses to `num_buffer`, on an array that has no end,
so that an index past `kMaxLen` is an access like any other.

## Main results

- `accesses_lt_iff`: the calls whose accesses are all below `kMaxLen`.
- `appendNumber_call`: `appendNumber` reports all others.
-/

namespace Cpu0Toolchain.Printf
open BoundedWriter

inductive Access where
  | store (i digit : ℕ)
  | load (i : ℕ)
  deriving DecidableEq

def Access.index : Access → ℕ
  | .store i _ => i
  | .load i => i

def Access.run (a : Access) (numBuffer : ℕ → ℕ) : ℕ → ℕ :=
  match a with
  | .store i digit => Function.update numBuffer i digit
  | .load _ => numBuffer

/-- The arguments of `AppendNumber` that its accesses depend on. -/
structure NumberCall where
  absoluteValue : BitVec 64
  base : ℕ
  minimalNumLength : BitVec 8
  negative : Bool
  base_eq : base = 10 ∨ base = 16

/-- The `do` loop, from `pos` on. -/
def storeDigits {base : ℕ} (hbase : 1 < base) (value pos : ℕ) : List Access :=
  .store pos (value % base) ::
    if value / base > 0 then storeDigits hbase (value / base) (pos + 1) else []
termination_by value
decreasing_by
  next hmore =>
    exact Nat.div_lt_self (Nat.pos_of_ne_zero fun h0 => by simp [h0] at hmore) hbase

/-- `internal_memset`, from `pos` up to the minimal length. -/
def clear (pos minimal : ℕ) : List Access :=
  (List.range (minimal - pos)).map fun k => .store (pos + k) 0

/-- The loop over the zeros, with `pos + 1`, and where it stops. -/
def loadZeros (numBuffer : ℕ → ℕ) : ℕ → List Access × ℕ
  | 0 => ([], 0)
  | pos + 1 =>
    if numBuffer pos = 0 then
      let r := loadZeros numBuffer pos
      (.load pos :: r.1, r.2)
    else ([.load pos], pos + 1)

/-- The loop over the digits, with `pos + 1`. -/
def loadDigits : ℕ → List Access
  | 0 => []
  | pos + 1 => .load pos :: loadDigits pos

namespace NumberCall

theorem one_lt_base (call : NumberCall) : 1 < call.base := by
  have := call.base_eq
  omega

/-- `minimal_num_length`, less the place for the sign. -/
def minimal (call : NumberCall) : ℕ :=
  if call.negative && call.minimalNumLength.toNat ≠ 0 then call.minimalNumLength.toNat - 1
  else call.minimalNumLength.toNat

def stores (call : NumberCall) : List Access :=
  let digits := storeDigits call.one_lt_base call.absoluteValue.toNat 0
  let pos := digits.length
  if pos < call.minimal then digits ++ clear pos call.minimal else digits

/-- `pos` before the loops that print. -/
def top (call : NumberCall) : ℕ :=
  let pos := (storeDigits call.one_lt_base call.absoluteValue.toNat 0).length
  if pos < call.minimal then call.minimal else pos

/-- All accesses of a call that finds what is in the array. -/
def accesses (call : NumberCall) (stale : ℕ → ℕ) : List Access :=
  let numBuffer := call.stores.foldl (fun numBuffer a => a.run numBuffer) stale
  let zeros := loadZeros numBuffer call.top
  call.stores ++ zeros.1 ++ loadDigits zeros.2

/-- The width that reaches `AppendNumber` has room, with one place more for a sign. -/
def Roomy (call : NumberCall) : Prop :=
  call.minimalNumLength.toNat ≤ 30 ∨ call.minimalNumLength.toNat = 31 ∧ call.negative = true

end NumberCall

/-! ## The indices of one call -/

section Indices

variable {base : ℕ} (hbase : 1 < base)

theorem storeDigits_more {value : ℕ} (hmore : value / base > 0) (pos : ℕ) :
    storeDigits hbase value pos =
      .store pos (value % base) :: storeDigits hbase (value / base) (pos + 1) := by
  rw [storeDigits, if_pos hmore]

theorem storeDigits_last {value : ℕ} (hlast : ¬value / base > 0) (pos : ℕ) :
    storeDigits hbase value pos = [.store pos (value % base)] := by
  rw [storeDigits, if_neg hlast]

theorem index_storeDigits (value pos : ℕ) :
    ∀ a ∈ storeDigits hbase value pos,
      a.index < pos + (storeDigits hbase value pos).length := by
  induction value using Nat.strongRecOn generalizing pos with
  | ind value ih =>
    intro a ha
    by_cases hmore : value / base > 0
    · have hless : value / base < value :=
        Nat.div_lt_self (Nat.pos_of_ne_zero fun h0 => by simp [h0] at hmore) hbase
      rw [storeDigits_more hbase hmore] at ha ⊢
      rw [List.length_cons]
      rcases List.mem_cons.mp ha with rfl | ha
      · change pos < _
        omega
      · have hrest := ih _ hless (pos + 1) a ha
        omega
    · rw [storeDigits_last hbase hmore] at ha ⊢
      obtain rfl := List.mem_singleton.mp ha
      exact Nat.lt_succ_self pos

/-- There are as many stores as the loop of the model finds digits. -/
theorem length_storeDigits {room value : ℕ} {digits : List ℕ}
    (h : digitLoop base room value = .ok digits) (pos : ℕ) :
    (storeDigits hbase value pos).length = digits.length ∧ digits.length ≤ room := by
  induction room generalizing value pos digits with
  | zero => cases h
  | succ room ih =>
    rw [digitLoop] at h
    by_cases hmore : value / base > 0
    · rw [if_pos hmore] at h
      cases hrest : digitLoop base room (value / base) with
      | error e =>
        rw [hrest] at h
        cases h
      | ok low =>
        rw [hrest] at h
        obtain rfl : value % base :: low = digits := Except.ok.inj h
        obtain ⟨hlen, hroom⟩ := ih hrest (pos + 1)
        rw [storeDigits_more hbase hmore, List.length_cons, List.length_cons, hlen]
        exact ⟨rfl, by omega⟩
    · rw [if_neg hmore] at h
      obtain rfl : [value % base] = digits := Except.ok.inj h
      rw [storeDigits_last hbase hmore]
      exact ⟨rfl, Nat.succ_pos room⟩

end Indices

theorem mem_clear {pos minimal : ℕ} {a : Access} :
    a ∈ clear pos minimal ↔ ∃ i, pos ≤ i ∧ i < minimal ∧ a = .store i 0 := by
  constructor
  · intro ha
    obtain ⟨k, hk, rfl⟩ := List.mem_map.mp ha
    have := List.mem_range.mp hk
    exact ⟨pos + k, by omega, by omega, rfl⟩
  · rintro ⟨i, hlo, hhi, rfl⟩
    refine List.mem_map.mpr ⟨i - pos, List.mem_range.mpr (by omega), ?_⟩
    rw [Nat.add_sub_cancel' hlo]

theorem index_loadZeros (numBuffer : ℕ → ℕ) (pos : ℕ) :
    (∀ a ∈ (loadZeros numBuffer pos).1, a.index < pos) ∧ (loadZeros numBuffer pos).2 ≤ pos := by
  induction pos with
  | zero => exact ⟨fun a ha => absurd ha List.not_mem_nil, le_rfl⟩
  | succ pos ih =>
    rw [loadZeros]
    split
    · refine ⟨?_, ih.2.trans (Nat.le_succ pos)⟩
      intro a ha
      rcases List.mem_cons.mp ha with rfl | ha
      · exact Nat.lt_succ_self pos
      · exact (ih.1 a ha).trans (Nat.lt_succ_self pos)
    · refine ⟨?_, le_rfl⟩
      intro a ha
      obtain rfl := List.mem_singleton.mp ha
      exact Nat.lt_succ_self pos

theorem index_loadDigits (pos : ℕ) : ∀ a ∈ loadDigits pos, a.index < pos := by
  induction pos with
  | zero => exact fun a ha => absurd ha List.not_mem_nil
  | succ pos ih =>
    intro a ha
    rcases List.mem_cons.mp ha with rfl | ha
    · exact Nat.lt_succ_self pos
    · exact (ih a ha).trans (Nat.lt_succ_self pos)

namespace NumberCall

variable (call : NumberCall)

/-- A `u64` has fewer digits than `num_buffer` has places. -/
theorem exists_digits :
    ∃ digits, digitLoop call.base kMaxLen call.absoluteValue.toNat = .ok digits ∧
      (storeDigits call.one_lt_base call.absoluteValue.toNat 0).length = digits.length ∧
      digits.length ≤ kMaxLen := by
  have hb : call.base ≤ 16 ∧ 10 ≤ call.base := by
    have := call.base_eq
    omega
  have hvalue : call.absoluteValue.toNat < call.base ^ (29 + 1) :=
    call.absoluteValue.isLt.trans_le ((by decide : 2 ^ 64 ≤ 10 ^ 30).trans
      (Nat.pow_le_pow_left hb.2 30))
  obtain ⟨digits, _, _, hloop, -⟩ := digitLoop_eq call.one_lt_base hb.1 hvalue
  exact ⟨digits, hloop, length_storeDigits call.one_lt_base hloop 0⟩

theorem index_stores : ∀ a ∈ call.stores, a.index < call.top := by
  have hdigits := index_storeDigits call.one_lt_base call.absoluteValue.toNat 0
  unfold stores top
  dsimp only
  split
  · intro a ha
    rcases List.mem_append.mp ha with ha | ha
    · have := hdigits a ha
      omega
    · obtain ⟨i, -, hi, rfl⟩ := mem_clear.mp ha
      exact hi
  · intro a ha
    have := hdigits a ha
    omega

theorem index_accesses (stale : ℕ → ℕ) : ∀ a ∈ call.accesses stale, a.index < call.top := by
  intro a ha
  rcases List.mem_append.mp ha with ha | ha
  · rcases List.mem_append.mp ha with ha | ha
    · exact call.index_stores a ha
    · exact (index_loadZeros _ _).1 a ha
  · exact (index_loadDigits _ a ha).trans_le (index_loadZeros _ _).2

theorem minimal_le_iff : call.minimal ≤ kMaxLen ↔ call.Roomy := by
  rw [minimal, Roomy, kMaxLen]
  cases call.negative with
  | false => simp
  | true =>
    by_cases h0 : call.minimalNumLength.toNat = 0
    · simp [h0]
    · simp [h0]
      omega

/-- All accesses of a call are within the buffer exactly if its width has room. -/
theorem accesses_lt_iff (stale : ℕ → ℕ) :
    (∀ a ∈ call.accesses stale, a.index < kMaxLen) ↔ call.Roomy := by
  obtain ⟨digits, -, hlen, hroom⟩ := call.exists_digits
  rw [← minimal_le_iff]
  constructor
  · intro h
    by_contra hover
    have hshort : (storeDigits call.one_lt_base call.absoluteValue.toNat 0).length <
        call.minimal := by omega
    -- the last cell that is cleared
    have hlast : Access.store (call.minimal - 1) 0 ∈ call.stores := by
      unfold stores
      dsimp only
      rw [if_pos hshort]
      exact List.mem_append_right _ (mem_clear.mpr ⟨call.minimal - 1, by omega, by omega, rfl⟩)
    have hlt := h _ (List.mem_append_left _ (List.mem_append_left _ hlast))
    change call.minimal - 1 < kMaxLen at hlt
    omega
  · intro hle a ha
    have htop : call.top ≤ kMaxLen := by
      unfold top
      dsimp only
      split <;> omega
    exact (call.index_accesses stale a ha).trans_le htop

/-- `appendNumber` reports the calls that leave the buffer, and returns from all others. -/
theorem appendNumber_call (buffEnd : ℕ) (padWithZero uppercase leftJustified : Bool)
    (w : Writer Char) :
    (call.Roomy → ∃ p, appendNumber buffEnd call.absoluteValue call.base call.minimalNumLength
        padWithZero call.negative uppercase leftJustified w = .ok p) ∧
      (¬call.Roomy → appendNumber buffEnd call.absoluteValue call.base call.minimalNumLength
        padWithZero call.negative uppercase leftJustified w = .error .numBufferOverrun) := by
  obtain ⟨digits, hloop, -, hroom⟩ := call.exists_digits
  have hover : digits.length < call.minimal ∧ kMaxLen < call.minimal ↔ ¬call.Roomy := by
    rw [← minimal_le_iff]
    omega
  unfold appendNumber
  simp only [hloop, bind, Except.bind]
  constructor
  · intro hroomy
    exact ⟨_, (if_neg (mt hover.mp (not_not.mpr hroomy))).trans rfl⟩
  · intro hroomy
    exact (if_pos (hover.mpr hroomy)).trans rfl

end NumberCall

end Cpu0Toolchain.Printf
