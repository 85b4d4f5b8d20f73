import Cpu0Toolchain.Library.ArrayLoop
import Mathlib.Order.Monotone.Basic
import Mathlib.Data.Nat.Find

/-!
# Strip-mined loops

A loop over `n` elements that asks the hardware how many of them it takes in the next round,
and moves its pointers on by as many. The answers cut the `n` elements into strips, and a
round is known by what it does to its strip.
-/

namespace StripMine
open ArrayLoop

/-- An element of an array, and the ones behind it. -/
structure Pointer (β : Type) where
  array : β
  offset : ℕ

/-- `p + k` -/
def Pointer.add {β : Type} (p : Pointer β) (k : ℕ) : Pointer β :=
  { p with offset := p.offset + k }

/-- How many elements `vsetvl` grants when a round asks for a number of them: one at least, as
long as there are any, and no more than asked for. -/
structure Vsetvl where
  vl : ℕ → ℕ → ℕ
  pos : ∀ k {n : ℕ}, 0 < n → 0 < vl k n
  le : ∀ k n, vl k n ≤ n

/-- Hardware with registers of so many elements that always uses all it can. -/
def Vsetvl.ofMax (max : ℕ) (h : 0 < max) : Vsetvl where
  vl _ n := min max n
  pos _ _ hn := lt_min h hn
  le _ _ := min_le_right _ _

section Memory

variable {β α : Type} [DecidableEq β] {length : β → ℕ} {m : Memory β α} {p q : Pointer β}

/-- The memory with the elements behind a pointer replaced. -/
def overwritten (m : Memory β α) (p : Pointer β) (n : ℕ) (g : ℕ → α) : Memory β α := fun b i =>
  if b = p.array ∧ p.offset ≤ i ∧ i < p.offset + n then g (i - p.offset) else m b i

/-- A load of a vector register. -/
def vle (length : β → ℕ) (p : Pointer β) (vl : ℕ) (m : Memory β α) : Option (ℕ → α) :=
  if p.offset + vl ≤ length p.array then some fun j => m p.array (p.offset + j) else none

/-- A store of a vector register. -/
def vse (length : β → ℕ) (p : Pointer β) (vl : ℕ) (v : ℕ → α) (m : Memory β α) :
    Option (Memory β α) :=
  if p.offset + vl ≤ length p.array then some (overwritten m p vl v) else none

/-- `p[i]` as a value. -/
def loadAt (length : β → ℕ) (p : Pointer β) (i : ℕ) (m : Memory β α) : Option α :=
  load length m p.array (p.offset + i)

/-- `for (i = 0; i < n; i++) a[i] = value;` -/
def scalarLoop (length : β → ℕ) (a : Pointer β) (value : Memory β α → ℕ → Option α) (n : ℕ)
    (m : Memory β α) : Option (Memory β α) :=
  (List.range n).foldlM (fun m i => do
    let v ← value m i
    store length m a.array (a.offset + i) v) m

/-- The two pointers are the same, or the `n` elements behind them are different ones. -/
def SameOrDisjoint (n : ℕ) (p q : Pointer β) : Prop :=
  p = q ∨ p.array ≠ q.array ∨ p.offset + n ≤ q.offset ∨ q.offset + n ≤ p.offset

theorem overwritten_zero (g : ℕ → α) : overwritten m p 0 g = m := by
  ext b i
  exact if_neg (by omega)

theorem overwritten_at {n j : ℕ} {g : ℕ → α} (hj : j < n) :
    overwritten m p n g p.array (p.offset + j) = g j := by
  rw [overwritten, if_pos ⟨rfl, Nat.le_add_right _ _, Nat.add_lt_add_left hj _⟩,
    Nat.add_sub_cancel_left]

/-- Elements that are not behind the pointer stay as they are. -/
theorem overwritten_of_not {n i : ℕ} {b : β} {g : ℕ → α}
    (h : ¬(b = p.array ∧ p.offset ≤ i ∧ i < p.offset + n)) : overwritten m p n g b i = m b i :=
  if_neg h

/-- A loop that has overwritten `d` elements still finds the later ones of an operand. -/
theorem overwritten_ahead {n d j : ℕ} {g : ℕ → α} (h : SameOrDisjoint n q p) (hd : d ≤ j)
    (hj : j < n) : overwritten m p d g q.array (q.offset + j) = m q.array (q.offset + j) := by
  apply overwritten_of_not
  rintro ⟨harray, hle, hlt⟩
  rcases h with rfl | hne | hbelow | habove
  · omega
  · exact hne harray
  · omega
  · omega

/-- A register stored where it was loaded from. -/
theorem overwritten_self (n : ℕ) :
    overwritten m p n (fun j => m p.array (p.offset + j)) = m := by
  ext b i
  by_cases h : b = p.array ∧ p.offset ≤ i ∧ i < p.offset + n
  · rw [overwritten, if_pos h, Nat.add_sub_cancel' h.2.1, h.1]
  · exact overwritten_of_not h

/-- One more strip overwritten. -/
theorem overwritten_add (d k : ℕ) (g : ℕ → α) :
    overwritten (overwritten m p d g) (p.add d) k (fun j => g (d + j)) =
      overwritten m p (d + k) g := by
  ext b i
  simp only [overwritten, Pointer.add]
  by_cases hb : b = p.array
  · simp only [hb, true_and]
    -- the element is in the new strip, in an old one, or in neither
    by_cases hnew : p.offset + d ≤ i ∧ i < p.offset + d + k
    · rw [if_pos hnew, if_pos (by omega)]
      congr 1
      omega
    · rw [if_neg hnew]
      by_cases hold : p.offset ≤ i ∧ i < p.offset + d
      · rw [if_pos hold, if_pos (by omega)]
      · rw [if_neg hold, if_neg (by omega)]
  · simp only [hb, false_and, if_false]

/-- What a store leaves depends on the lanes below `vl` alone. -/
theorem overwritten_congr {n : ℕ} {g h : ℕ → α} (hgh : ∀ j < n, g j = h j) :
    overwritten m p n g = overwritten m p n h := by
  ext b i
  by_cases hi : b = p.array ∧ p.offset ≤ i ∧ i < p.offset + n
  · rw [overwritten, overwritten, if_pos hi, if_pos hi, hgh _ (by omega)]
  · rw [overwritten_of_not hi, overwritten_of_not hi]

omit [DecidableEq β] in
theorem loadAt_ok {i : ℕ} (h : p.offset + i < length p.array) :
    loadAt length p i m = some (m p.array (p.offset + i)) :=
  if_pos h

omit [DecidableEq β] in
theorem vle_ok {vl : ℕ} (h : p.offset + vl ≤ length p.array) :
    vle length p vl m = some fun j => m p.array (p.offset + j) :=
  if_pos h

theorem vse_ok {vl : ℕ} {v : ℕ → α} (h : p.offset + vl ≤ length p.array) :
    vse length p vl v m = some (overwritten m p vl v) :=
  if_pos h

theorem update_eq_overwritten (p : Pointer β) (m : Memory β α) (x : α) :
    Function.update m p.array (Function.update (m p.array) p.offset x) =
      overwritten m p 1 fun _ => x := by
  ext b i
  by_cases hb : b = p.array
  · subst hb
    rw [Function.update_self]
    by_cases hi : i = p.offset
    · subst hi
      rw [Function.update_self]
      exact (overwritten_at (p := p) (j := 0) (g := fun _ => x) Nat.one_pos).symm
    · rw [Function.update_of_ne hi, overwritten_of_not (by omega)]
  · rw [Function.update_of_ne hb, overwritten_of_not fun h => hb h.1]

theorem store_overwritten {n : ℕ} {g : ℕ → α} (h : p.offset + n < length p.array) :
    store length (overwritten m p n g) p.array (p.offset + n) (g n) =
      some (overwritten m p (n + 1) g) := by
  have hlast : overwritten (overwritten m p n g) (p.add n) 1 (fun _ => g n) =
      overwritten (overwritten m p n g) (p.add n) 1 fun j => g (n + j) :=
    overwritten_congr fun j hj => by rw [Nat.lt_one_iff.mp hj, Nat.add_zero]
  rw [store, if_pos h]
  exact congrArg some ((update_eq_overwritten (p.add n) _ (g n)).trans
    (hlast.trans (overwritten_add n 1 g)))

/-- Each round finds the elements before it overwritten and all others as they were. -/
theorem scalarLoop_eq {n : ℕ} {g : ℕ → α} {value : Memory β α → ℕ → Option α}
    (hn : p.offset + n ≤ length p.array)
    (hvalue : ∀ i < n, value (overwritten m p i g) i = some (g i)) :
    scalarLoop length p value n m = some (overwritten m p n g) := by
  induction n with
  | zero =>
    rw [overwritten_zero]
    rfl
  | succ n ih =>
    have hrounds : scalarLoop length p value n m = some (overwritten m p n g) :=
      ih (by omega) fun i hi => hvalue i (Nat.lt_succ_of_lt hi)
    rw [scalarLoop] at hrounds ⊢
    rw [List.range_succ, List.foldlM_append, hrounds]
    simp only [Option.bind_eq_bind, Option.bind_some, List.foldlM_cons, List.foldlM_nil,
      hvalue n (Nat.lt_succ_self n), store_overwritten (Nat.lt_of_succ_le hn)]
    rfl

/-- The loop over an array from its first element on. -/
theorem fill_eq_scalarLoop (a : β) (value : Memory β α → ℕ → Option α) (n : ℕ) :
    fill length a value n m = scalarLoop length ⟨a, 0⟩ value n m := by
  simp only [fill, scalarLoop, Nat.zero_add]

end Memory

section Loop

variable {σ : Type} (v : Vsetvl) (N : ℕ)

/-- `while (n > 0) { vl = vsetvl(n); strip; n -= vl; }`, with the number of the round for the
answers of the hardware. There is no result when `n` is not zero after so many rounds. -/
def stripLoop (strip : ℕ → ℕ → σ → Option σ) : ℕ → ℕ → ℕ → σ → Option σ
  | 0, _, _, _ => none
  | fuel + 1, k, n, s =>
    if 0 < n then do
      let s ← strip k (v.vl k n) s
      stripLoop strip fuel (k + 1) (n - v.vl k n) s
    else some s

/-- The first element of each strip of `N` elements. -/
def start : ℕ → ℕ
  | 0 => 0
  | k + 1 => start k + v.vl k (N - start k)

variable {v N}

theorem start_le (k : ℕ) : start v N k ≤ N := by
  induction k with
  | zero => exact Nat.zero_le N
  | succ k ih =>
    have hle := v.le k (N - start v N k)
    rw [start]
    omega

theorem start_lt_succ {k : ℕ} (h : start v N k < N) : start v N k < start v N (k + 1) :=
  Nat.lt_add_of_pos_right (v.pos k (Nat.sub_pos_of_lt h))

theorem start_mono : Monotone (start v N) :=
  monotone_nat_of_le_succ fun _ => Nat.le_add_right _ _

/-- The loop ends, behind its last strip, when each round takes one state to the next. -/
theorem stripLoop_eq {strip : ℕ → ℕ → σ → Option σ} {state : ℕ → σ} {fuel k : ℕ}
    (hstrip : ∀ k, start v N k < N →
      strip k (v.vl k (N - start v N k)) (state k) = some (state (k + 1)))
    (hfuel : N - start v N k < fuel) :
    ∃ last, start v N last = N ∧
      stripLoop v strip fuel k (N - start v N k) (state k) = some (state last) := by
  induction fuel generalizing k with
  | zero => exact absurd hfuel (Nat.not_lt_zero _)
  | succ fuel ih =>
    by_cases hmore : start v N k < N
    · have hnext := start_lt_succ hmore
      obtain ⟨last, hlast, hrest⟩ := ih (k := k + 1) (by omega)
      refine ⟨last, hlast, ?_⟩
      rw [stripLoop, if_pos (Nat.sub_pos_of_lt hmore), hstrip k hmore, Option.bind_eq_bind,
        Option.bind_some, Nat.sub_sub, ← start, hrest]
    · have hend : start v N k = N := Nat.le_antisymm (start_le k) (Nat.not_lt.mp hmore)
      refine ⟨k, hend, ?_⟩
      rw [stripLoop, hend, Nat.sub_self, if_neg (Nat.lt_irrefl 0)]

/-- Two loops that make the same rounds on two views of the state. -/
theorem stripLoop_map {τ : Type} {strip : ℕ → ℕ → σ → Option σ} {strip' : ℕ → ℕ → τ → Option τ}
    {n : ℕ} (view : σ → τ) (fuel k : ℕ) (s : σ)
    (h : ∀ k vl s, vl ≤ n → strip' k vl (view s) = (strip k vl s).map view) :
    stripLoop v strip' fuel k n (view s) = (stripLoop v strip fuel k n s).map view := by
  induction fuel generalizing k n s with
  | zero => rfl
  | succ fuel ih =>
    by_cases hn : 0 < n
    · rw [stripLoop, stripLoop, if_pos hn, if_pos hn, h k _ s (v.le k n)]
      cases strip k (v.vl k n) s with
      | none => rfl
      | some t => exact ih (k + 1) t fun k vl s hvl => h k vl s (hvl.trans (Nat.sub_le _ _))
    · rw [stripLoop, stripLoop, if_neg hn, if_neg hn]
      rfl

variable (v N)

/-- The number of the strip that an element is in. -/
def stripOf (i : ℕ) : ℕ :=
  Nat.findGreatest (fun k => start v N k ≤ i) i

variable {v N}

theorem le_start {k : ℕ} (h : start v N k < N) : k ≤ start v N k := by
  induction k with
  | zero => exact Nat.zero_le _
  | succ k ih =>
    have hbefore : start v N k < N := Nat.lt_of_le_of_lt (start_mono (Nat.le_succ k)) h
    exact Nat.succ_le_of_lt (Nat.lt_of_le_of_lt (ih hbefore) (start_lt_succ hbefore))

theorem stripOf_eq {k i : ℕ} (hle : start v N k ≤ i) (hlt : i < start v N (k + 1)) :
    stripOf v N i = k := by
  have hN : start v N k < N := Nat.lt_of_le_of_lt hle (Nat.lt_of_lt_of_le hlt (start_le _))
  -- strips are not empty, so the number of one is not above its elements
  refine Nat.findGreatest_eq_iff.mpr ⟨(le_start hN).trans hle, fun _ => hle, ?_⟩
  intro j hj _ hij
  have hmono : start v N (k + 1) ≤ start v N j := start_mono hj
  omega

theorem start_stripOf_le (i : ℕ) : start v N (stripOf v N i) ≤ i :=
  Nat.findGreatest_spec (P := fun k => start v N k ≤ i) (Nat.zero_le i) (Nat.zero_le i)

end Loop

section Strip

variable {β α : Type} [DecidableEq β] {length : β → ℕ} {v : Vsetvl}

/-- The pointers of a loop with two operands, and the memory. -/
structure Locals (β α : Type) where
  a : Pointer β
  b : Pointer β
  c : Pointer β
  memory : Memory β α

/-- The same for a loop with one operand. -/
structure UnaryLocals (β α : Type) where
  a : Pointer β
  b : Pointer β
  memory : Memory β α

/-- A load, an operation on the register, a store, and the pointers moved on. -/
def unaryStrip (length : β → ℕ) (compute : (ℕ → α) → ℕ → α) (_ vl : ℕ) (s : UnaryLocals β α) :
    Option (UnaryLocals β α) := do
  let vb ← vle length s.b vl s.memory
  let memory ← vse length s.a vl (compute vb) s.memory
  return ⟨s.a.add vl, s.b.add vl, memory⟩

/-- Two loads, an operation on the registers, a store, and the pointers moved on. -/
def binaryStrip (length : β → ℕ) (compute : ℕ → (ℕ → α) → (ℕ → α) → ℕ → α) (k vl : ℕ)
    (s : Locals β α) : Option (Locals β α) := do
  let vb ← vle length s.b vl s.memory
  let vc ← vle length s.c vl s.memory
  let memory ← vse length s.a vl (compute k vb vc) s.memory
  return ⟨s.a.add vl, s.b.add vl, s.c.add vl, memory⟩

variable {n : ℕ} {a b c : Pointer β} {m : Memory β α}

/-- The locals behind the first `d` elements. -/
def Locals.behind (a b c : Pointer β) (m : Memory β α) (g : ℕ → α) (d : ℕ) : Locals β α :=
  ⟨a.add d, b.add d, c.add d, overwritten m a d g⟩

/-- A strip computed lane by lane takes the loop from its first element to the next strip's. -/
theorem binaryStrip_behind {compute : ℕ → (ℕ → α) → (ℕ → α) → ℕ → α}
    {f : ℕ → ℕ → α → α → α} {g : ℕ → α} {k d vl : ℕ}
    (hlane : ∀ vb vc j, compute k vb vc j = f k j (vb j) (vc j))
    (hg : ∀ j < vl, g (d + j) =
      f k j (m b.array (b.offset + (d + j))) (m c.array (c.offset + (d + j))))
    (hba : SameOrDisjoint n b a) (hca : SameOrDisjoint n c a) (hd : d + vl ≤ n)
    (ha : a.offset + n ≤ length a.array) (hb : b.offset + n ≤ length b.array)
    (hc : c.offset + n ≤ length c.array) :
    binaryStrip length compute k vl (.behind a b c m g d) = some (.behind a b c m g (d + vl)) := by
  have hloadb : (b.add d).offset + vl ≤ length (b.add d).array := by simp only [Pointer.add]; omega
  have hloadc : (c.add d).offset + vl ≤ length (c.add d).array := by simp only [Pointer.add]; omega
  have hstore : (a.add d).offset + vl ≤ length (a.add d).array := by simp only [Pointer.add]; omega
  simp only [binaryStrip, Locals.behind, vle_ok hloadb, vle_ok hloadc, vse_ok hstore,
    Option.bind_eq_bind, Option.bind_some]
  have hlanes : ∀ j < vl, compute k
      (fun j => overwritten m a d g (b.add d).array ((b.add d).offset + j))
      (fun j => overwritten m a d g (c.add d).array ((c.add d).offset + j)) j = g (d + j) := by
    intro j hj
    rw [hlane, hg j hj]
    simp only [Pointer.add, Nat.add_assoc]
    rw [overwritten_ahead hba (Nat.le_add_right d j) (by omega),
      overwritten_ahead hca (Nat.le_add_right d j) (by omega)]
  rw [overwritten_congr hlanes, overwritten_add]
  simp only [Pointer.add, Nat.add_assoc]
  rfl

/-- What a lanewise operation gives for each element: it knows the number of the strip and the
lane that the element is in. -/
def lanewise (v : Vsetvl) (n : ℕ) (f : ℕ → ℕ → α → α → α) (b c : Pointer β) (m : Memory β α)
    (i : ℕ) : α :=
  f (stripOf v n i) (i - start v n (stripOf v n i)) (m b.array (b.offset + i))
    (m c.array (c.offset + i))

/-- A strip-mined loop that computes lane by lane ends and leaves what its operands give,
element by element, whatever the strips are. An operand may be the result. -/
theorem stripLoop_binary {compute : ℕ → (ℕ → α) → (ℕ → α) → ℕ → α} {f : ℕ → ℕ → α → α → α}
    {fuel : ℕ} (hlane : ∀ k vb vc j, compute k vb vc j = f k j (vb j) (vc j))
    (hba : SameOrDisjoint n b a) (hca : SameOrDisjoint n c a)
    (ha : a.offset + n ≤ length a.array) (hb : b.offset + n ≤ length b.array)
    (hc : c.offset + n ≤ length c.array) (hfuel : n < fuel) :
    (stripLoop v (binaryStrip length compute) fuel 0 n ⟨a, b, c, m⟩).map Locals.memory =
      some (overwritten m a n (lanewise v n f b c m)) := by
  have hstrip : ∀ k, start v n k < n → binaryStrip length compute k (v.vl k (n - start v n k))
      (.behind a b c m (lanewise v n f b c m) (start v n k)) =
        some (.behind a b c m (lanewise v n f b c m) (start v n (k + 1))) := by
    intro k _
    refine binaryStrip_behind (hlane k) (fun j hj => ?_) hba hca (start_le (k + 1)) ha hb hc
    have hk : stripOf v n (start v n k + j) = k :=
      stripOf_eq (Nat.le_add_right _ _) (Nat.add_lt_add_left hj _)
    rw [lanewise, hk, Nat.add_sub_cancel_left]
  obtain ⟨last, hlast, hrun⟩ := stripLoop_eq (k := 0) hstrip hfuel
  have hbegin : Locals.behind a b c m (lanewise v n f b c m) (start v n 0) = ⟨a, b, c, m⟩ := by
    rw [start, Locals.behind, overwritten_zero]
    rfl
  rw [hbegin] at hrun
  change (stripLoop v _ fuel 0 (n - start v n 0) _).map _ = _
  rw [hrun, Option.map_some, Locals.behind, hlast]

/-- The locals of a loop that loads its operand twice. -/
def UnaryLocals.twice (s : UnaryLocals β α) : Locals β α := ⟨s.a, s.b, s.b, s.memory⟩

/-- The loop with one operand ends and leaves what the operand gives, element by element. -/
theorem stripLoop_unary {compute : (ℕ → α) → ℕ → α} {f : α → α} {fuel : ℕ}
    (hlane : ∀ vb j, compute vb j = f (vb j)) (hba : SameOrDisjoint n b a)
    (ha : a.offset + n ≤ length a.array) (hb : b.offset + n ≤ length b.array) (hfuel : n < fuel) :
    (stripLoop v (unaryStrip length compute) fuel 0 n ⟨a, b, m⟩).map UnaryLocals.memory =
      some (overwritten m a n fun i => f (m b.array (b.offset + i))) := by
  have htwice : stripLoop v (binaryStrip length fun _ vb _ => compute vb) fuel 0 n ⟨a, b, b, m⟩ =
      (stripLoop v (unaryStrip length compute) fuel 0 n ⟨a, b, m⟩).map UnaryLocals.twice := by
    refine stripLoop_map UnaryLocals.twice fuel 0 ⟨a, b, m⟩ ?_
    intro k vl s _
    simp only [binaryStrip, unaryStrip, UnaryLocals.twice]
    cases vle length s.b vl s.memory with
    | none => rfl
    | some vb =>
      simp only [Option.bind_eq_bind, Option.bind_some]
      cases vse length s.a vl (compute vb) s.memory <;> rfl
  have hrun := stripLoop_binary (v := v) (m := m) (f := fun _ _ x _ => f x)
    (fun _ vb _ j => hlane vb j) hba hba ha hb hb hfuel
  rw [htwice, Option.map_map] at hrun
  exact hrun

end Strip

end StripMine
