import Mathlib.Logic.Function.Basic
import Mathlib.Data.BitVec
import Cpu0Toolchain.Library.RunUntil

/-!
# A machine for the hand-written assembly

The Cpu0 instructions that the assembly of the runtime is written in. Words are stored
at their addresses, and an access that is not word-aligned has no next state. Which
flags `cmp` writes is left open; `jne` tells from them whether the values differed.
-/

namespace Cpu0Toolchain.Cpu0
open RunUntil

abbrev Word := BitVec 32

abbrev Reg := BitVec 4

namespace Reg

/-- The assembler's temporary, `$at`. -/
abbrev tmp : Reg := 1
abbrev v0 : Reg := 2
abbrev a0 : Reg := 4
abbrev a1 : Reg := 5
abbrev lr : Reg := 14
abbrev sw : Reg := 15

end Reg

structure State where
  regs : Reg → Word
  mem : Word → Word
  pc : Word
  epc : Word

/-- Register 0 reads as zero. -/
def State.get (s : State) (r : Reg) : Word := if r = 0 then 0 else s.regs r

def State.set (s : State) (r : Reg) (v : Word) : State :=
  { s with regs := Function.update s.regs r v }

def State.store (s : State) (a v : Word) : State := { s with mem := Function.update s.mem a v }

def State.next (s : State) : State := { s with pc := s.pc + 4 }

/-- The flags: what `cmp` leaves in its destination, and what `jne` reads from them. -/
structure CompareUnit where
  cmp : Word → Word → Word → Word
  ne : Word → Bool
  ne_cmp : ∀ old a b, ne (cmp old a b) = decide (a ≠ b)

/-- The flag N in bit 31 and the flag Z in bit 30. -/
def statusFlags : CompareUnit where
  cmp old a b := (if BitVec.slt a b then 0x80000000#32 else 0) |||
    (if a = b then 0x40000000#32 else 0) ||| (old &&& 0x3fffffff#32)
  ne sw := !sw.getLsbD 30
  ne_cmp old a b := by
    by_cases h : a = b
    · simp [h]
    · by_cases hlt : BitVec.slt a b <;> simp [h, hlt]

/-- The instructions that go on to the next word. -/
inductive Op where
  | st (ra rb : Reg) (offset : BitVec 16)
  | ld (ra rb : Reg) (offset : BitVec 16)
  | addiu (ra rb : Reg) (imm : BitVec 16)
  | addu (ra rb rc : Reg)
  | lui (ra : Reg) (imm : BitVec 16)
  | ori (ra rb : Reg) (imm : BitVec 16)
  | cmp (ra rb rc : Reg)
  deriving DecidableEq

inductive Instr where
  | op (o : Op)
  | jne (ra : Reg) (offset : Word)
  | jsub (target : Word)
  | ret (ra : Reg)
  /-- `c0mov $pc, $epc` -/
  | c0mov
  deriving DecidableEq

/-- The address of a load or store. -/
def State.address (s : State) (rb : Reg) (offset : BitVec 16) : Word :=
  s.get rb + offset.signExtend 32

def Aligned (a : Word) : Prop := a.toNat % 4 = 0

instance (a : Word) : Decidable (Aligned a) := inferInstanceAs (Decidable (_ = _))

def Op.exec (u : CompareUnit) (s : State) : Op → Option State
  | .st ra rb offset =>
    if Aligned (s.address rb offset) then some (s.store (s.address rb offset) (s.get ra)).next
    else none
  | .ld ra rb offset =>
    if Aligned (s.address rb offset) then some (s.set ra (s.mem (s.address rb offset))).next
    else none
  | .addiu ra rb imm => some (s.set ra (s.get rb + imm.signExtend 32)).next
  | .addu ra rb rc => some (s.set ra (s.get rb + s.get rc)).next
  | .lui ra imm => some (s.set ra (imm.setWidth 32 <<< 16)).next
  | .ori ra rb imm => some (s.set ra (s.get rb ||| imm.setWidth 32)).next
  | .cmp ra rb rc => some (s.set ra (u.cmp (s.get ra) (s.get rb) (s.get rc))).next

/-- Instructions by address. -/
abbrev Code := Word → Option Instr

def step (u : CompareUnit) (code : Code) (s : State) : Option State :=
  match code s.pc with
  | none => none
  | some (.op o) => o.exec u s
  | some (.jne ra offset) => some (if u.ne (s.get ra) then { s with pc := s.pc + 4 + offset } else s.next)
  | some (.jsub target) => some { s.set Reg.lr (s.pc + 4) with pc := target }
  | some (.ret ra) => some { s with pc := s.get ra }
  | some .c0mov => some { s with pc := s.epc }

/-- The instructions lie at an address and behind it. -/
def Loaded (code : Code) : Word → List Instr → Prop
  | _, [] => True
  | a, i :: rest => code a = some i ∧ Loaded code (a + 4) rest

/-- The next instruction is a `ret`. -/
def AtRet (code : Code) (s : State) : Prop := ∃ ra, code s.pc = some (.ret ra)

/-- Runs up to the first `ret` and through it. -/
def Returns (u : CompareUnit) (code : Code) : State → State → Prop :=
  Ends (step u code) (AtRet code)

/-! ## Registers and memory -/

section State

variable (s : State) {q r : Reg} (v : Word)

@[simp] theorem get_zero : s.get 0 = 0 := if_pos rfl

theorem get_set_self (h : r ≠ 0) : (s.set r v).get r = v := by
  rw [State.get, if_neg h]
  exact Function.update_self _ _ _

theorem get_set_of_ne (h : q ≠ r) : (s.set r v).get q = s.get q := by
  unfold State.get State.set
  by_cases h0 : q = 0
  · rw [if_pos h0, if_pos h0]
  · rw [if_neg h0, if_neg h0]
    exact Function.update_of_ne h _ _

end State

/-! ## Straight-line code -/

/-- A block of instructions, without the code around it. -/
def runOps (u : CompareUnit) : List Op → State → Option State
  | [], s => some s
  | o :: ops, s => (o.exec u s).bind (runOps u ops)

theorem exec_pc {u : CompareUnit} {s t : State} {o : Op} (h : o.exec u s = some t) :
    t.pc = s.pc + 4 := by
  cases o
  case st | ld =>
    dsimp only [Op.exec] at h
    split at h
    · obtain rfl := Option.some.inj h
      rfl
    · cases h
  all_goals
    obtain rfl := Option.some.inj h
    rfl

/-- No instruction writes `$epc`. -/
theorem step_epc {u : CompareUnit} {code : Code} {s t : State} (h : step u code s = some t) :
    t.epc = s.epc := by
  unfold step at h
  split at h
  case h_1 => cases h
  case h_2 o _ =>
    cases o
    case st | ld =>
      dsimp only [Op.exec] at h
      split at h
      · obtain rfl := Option.some.inj h
        rfl
      · cases h
    all_goals
      obtain rfl := Option.some.inj h
      rfl
  case h_3 ra offset _ =>
    obtain rfl := Option.some.inj h
    by_cases hne : u.ne (s.get ra) = true
    · rw [if_pos hne]
    · rw [if_neg hne]
      rfl
  all_goals
    obtain rfl := Option.some.inj h
    rfl

theorem not_atRet {code : Code} {s : State} {i : Instr} (hi : code s.pc = some i)
    (hne : ∀ ra, i ≠ .ret ra) : ¬AtRet code s := by
  rintro ⟨ra, hra⟩
  exact hne ra (Option.some.inj (hi.symm.trans hra))

/-- At a `ret` the run is over. -/
theorem returns_ret {u : CompareUnit} {code : Code} {s : State} {ra : Reg}
    (h : code s.pc = some (.ret ra)) (x : State) :
    Returns u code s x ↔ x = { s with pc := s.get ra } := by
  have hstep : step u code s = some { s with pc := s.get ra } := by rw [step, h]
  rw [Returns, ends_iff_of_last ⟨ra, h⟩, hstep, Option.some.injEq]
  exact eq_comm

/-- A `jne` goes on at one of its two places. -/
theorem returns_jne {u : CompareUnit} {code : Code} {s : State} {ra : Reg} {offset : Word}
    (h : code s.pc = some (.jne ra offset)) (x : State) :
    Returns u code s x ↔
      Returns u code (if u.ne (s.get ra) then { s with pc := s.pc + 4 + offset } else s.next) x := by
  apply ends_iff_of_step (not_atRet h (fun _ h => by cases h))
  rw [step, h]

/-- A machine that executes the code where there is some, and does not end inside a block. -/
structure Executes (u : CompareUnit) (code : Code) (next : State → Option State)
    (last : State → Prop) : Prop where
  next_eq : ∀ s i, code s.pc = some i → next s = step u code s
  goes_on : ∀ s o, code s.pc = some (.op o) → ¬last s

/-- A run through a block goes on behind it. -/
theorem Executes.block {u : CompareUnit} {code : Code} {next : State → Option State}
    {last : State → Prop} (hex : Executes u code next last) {ops : List Op} {s t : State}
    (rest : List Instr) (hops : runOps u ops s = some t)
    (hcode : Loaded code s.pc (ops.map Instr.op ++ rest)) :
    Loaded code t.pc rest ∧ ∀ x, Ends next last s x ↔ Ends next last t x := by
  induction ops generalizing s with
  | nil =>
    obtain rfl := Option.some.inj hops
    exact ⟨hcode, fun _ => Iff.rfl⟩
  | cons o ops ih =>
    obtain ⟨mid, ho, hrest⟩ := Option.bind_eq_some_iff.mp hops
    have hstep : next s = some mid := by
      rw [hex.next_eq s _ hcode.1, step, hcode.1]
      exact ho
    obtain ⟨hloaded, hruns⟩ := ih hrest (by rw [exec_pc ho]; exact hcode.2)
    exact ⟨hloaded, fun x => (ends_iff_of_step (hex.goes_on s o hcode.1) hstep).trans (hruns x)⟩

theorem returns_block {u : CompareUnit} {code : Code} {ops : List Op} {s t : State}
    (rest : List Instr) (hops : runOps u ops s = some t)
    (hcode : Loaded code s.pc (ops.map Instr.op ++ rest)) :
    Loaded code t.pc rest ∧ ∀ x, Returns u code s x ↔ Returns u code t x := by
  have hex : Executes u code (step u code) (AtRet code) :=
    ⟨fun _ _ _ => rfl, fun _ _ hop => not_atRet hop (fun _ h => by cases h)⟩
  exact hex.block rest hops hcode

end Cpu0Toolchain.Cpu0
