import Cpu0Toolchain.Cpu0.Machine

/-!
# The interrupt service routine

The stub `ISR` of `input/debug.cpp`. It keeps `$lr` in a fixed word of memory while
`ISR_Handler` runs, and uses `$at` to address it without having saved `$at`. The handler
enables interrupts before it returns, so a further interrupt can come between there and
the last instruction of the stub; it takes over the word and `$epc`.

The handler is open but for the place where it enables interrupts.
-/

namespace Cpu0Toolchain.Cpu0
open RunUntil

/-- The code from the label `ISR` on. -/
def isr (handler : Word) : List Instr := [
  .op (.lui Reg.tmp 7),
  .op (.ori Reg.tmp Reg.tmp 0xff00),
  .op (.st Reg.lr Reg.tmp 48),
  .jsub handler,
  .op (.lui Reg.tmp 7),
  .op (.ori Reg.tmp Reg.tmp 0xff00),
  .op (.ld Reg.lr Reg.tmp 48),
  .c0mov]

/-- What the stub leaves in `$at`. -/
abbrev saveBase : Word := 0x7ff00

/-- The word that keeps `$lr`. -/
abbrev lrSlot : Word := 0x7ff30

/-- An interrupt enters at the label `ISR`. -/
def State.interrupt (s : State) (base : Word) : State := { s with pc := base, epc := s.pc }

/-- Before the last instruction of the stub. -/
def AtExit (base : Word) (m : State) : Prop := m.pc = base + 28

structure Handler where
  entry : Word
  /-- The addresses behind the instruction that enables interrupts. -/
  enabled : Word → Bool
  /-- The handler up to there. -/
  enable : State → State
  /-- One instruction behind it. -/
  tail : State → State

namespace Handler

variable (h : Handler) (u : CompareUnit) (code : Code) (base : Word)

/-- The stub at `base`, with the handler. -/
def step (s : State) : Option State :=
  if h.enabled s.pc = true then some (h.tail s)
  else if s.pc = h.entry then some (h.enable s)
  else Cpu0.step u code s

/-- The handler called from `s` gets back to the caller with the state `m`, with all
registers but `$lr` and `$sw` as they were. -/
def Returns (s m : State) : Prop :=
  ∃ n, m = h.tail^[n] (h.enable s) ∧
    (∀ i < n, h.enabled (h.tail^[i] (h.enable s)).pc = true) ∧
    m.pc = s.get Reg.lr ∧ (∀ r, r ≠ Reg.lr → r ≠ Reg.sw → m.get r = s.get r) ∧
    m.mem lrSlot = s.mem lrSlot

/-- Where a further interrupt may come. -/
def Window (a : Word) : Prop :=
  h.enabled a = true ∨ a = base + 16 ∨ a = base + 20 ∨ a = base + 24 ∨ a = base + 28

/-- The stub goes back to where `$epc` says, after a number of further interrupts. -/
def Resumes (s : State) (k : ℕ) (t : State) : Prop :=
  RunUntil.Resumes (h.step u code) (AtExit base) (fun m => h.Window base m.pc)
    (fun m => m.interrupt base) (s.interrupt base) k t

/-- The stub is loaded at `base` and the handler elsewhere, and `$epc` is not the handler's. -/
structure Installed : Prop where
  loaded : Loaded code base (isr h.entry)
  enabled_apart : ∀ a, h.enabled a = true → code a = none
  entry_apart : code h.entry = none ∧ h.enabled h.entry = false
  enable_epc : ∀ s, (h.enable s).epc = s.epc
  tail_epc : ∀ s, (h.tail s).epc = s.epc

end Handler

/-- The interrupted program finds its place and its registers again. `$sw` is the handler's
to change. -/
def Transparent (s t : State) : Prop := t.pc = s.pc ∧ ∀ r, r ≠ Reg.sw → t.get r = s.get r

/-- The state in which the stub calls the handler. -/
def State.called (s : State) (base entry : Word) : State where
  regs := Function.update (Function.update s.regs Reg.tmp saveBase) Reg.lr (base + 16)
  mem := Function.update s.mem lrSlot (s.get Reg.lr)
  pc := entry
  epc := s.pc

/-- The state in which the stub leaves the program, from the handler's return. -/
def State.left (m : State) : State where
  regs := Function.update (Function.update m.regs Reg.tmp saveBase) Reg.lr (m.mem lrSlot)
  mem := m.mem
  pc := m.epc
  epc := m.epc

section Stub

variable {h : Handler} {u : CompareUnit} {code : Code} {base : Word}

/-- The last instruction of the stub. -/
theorem Handler.Installed.exit (hi : h.Installed code base) : code (base + 28) = some .c0mov := by
  have haddr : base + 4 + 4 + 4 + 4 + 4 + 4 + 4 = base + 28 := by bv_omega
  rw [← haddr]
  exact hi.loaded.2.2.2.2.2.2.2.1

theorem Handler.Installed.executes (hi : h.Installed code base) :
    Executes u code (h.step u code) (AtExit base) where
  next_eq := by
    intro s i hs
    have hnot : ¬h.enabled s.pc = true := by
      intro hen
      cases (hi.enabled_apart _ hen).symm.trans hs
    have hentry : s.pc ≠ h.entry := by
      intro heq
      cases hi.entry_apart.1.symm.trans (heq ▸ hs)
    rw [Handler.step, if_neg hnot, if_neg hentry]
  goes_on := by
    intro s o hs hend
    cases hi.exit.symm.trans (hend ▸ hs)

/-- `lui` and `ori` put the address of the save area into `$at`. -/
theorem runOps_saveBase (ops : List Op) (s : State) :
    runOps u (.lui Reg.tmp 7 :: .ori Reg.tmp Reg.tmp 0xff00 :: ops) s =
      runOps u ops { s.set Reg.tmp saveBase with pc := s.pc + 4 + 4 } := by
  have hlui : (s.set Reg.tmp ((7 : BitVec 16).setWidth 32 <<< 16)).next.get Reg.tmp =
      (7 : BitVec 16).setWidth 32 <<< 16 := get_set_self s _ (by decide)
  have hbase : (7 : BitVec 16).setWidth 32 <<< 16 ||| (0xff00 : BitVec 16).setWidth 32 = saveBase := by
    decide
  simp only [runOps, Op.exec, Option.bind_some]
  rw [hlui, hbase]
  simp only [State.set, State.next, Function.update_idem]

theorem aligned_lrSlot : Aligned lrSlot := by decide

/-- The stub's load and store go to the word that keeps `$lr`. -/
theorem address_lrSlot {s : State} (h : s.get Reg.tmp = saveBase) :
    s.address Reg.tmp 48 = lrSlot := by
  rw [State.address, h]
  decide

/-- From the interrupt to the call of the handler. -/
theorem stub_calls (hi : h.Installed code base) (s x : State) :
    Ends (h.step u code) (AtExit base) (s.interrupt base) x ↔
      Ends (h.step u code) (AtExit base) (s.called base h.entry) x := by
  let based : State := { (s.interrupt base).set Reg.tmp saveBase with pc := base + 4 + 4 }
  have htmp : based.get Reg.tmp = saveBase := get_set_self (s.interrupt base) saveBase (by decide)
  have hne : Reg.lr ≠ Reg.tmp := by decide
  have hlr : based.get Reg.lr = s.get Reg.lr := get_set_of_ne (s.interrupt base) saveBase hne
  have hops : runOps u [.lui Reg.tmp 7, .ori Reg.tmp Reg.tmp 0xff00, .st Reg.lr Reg.tmp 48]
      (s.interrupt base) = some (based.store lrSlot (s.get Reg.lr)).next := by
    rw [runOps_saveBase]
    show ((Op.st Reg.lr Reg.tmp 48).exec u based).bind (runOps u []) = _
    rw [Op.exec, address_lrSlot htmp, if_pos aligned_lrSlot, hlr]
    rfl
  obtain ⟨hcode, hruns⟩ := hi.executes.block ((isr h.entry).drop 3) hops hi.loaded
  have hpc : base + 4 + 4 + 4 + 4 = base + 16 := by bv_omega
  have hcall : h.step u code (based.store lrSlot (s.get Reg.lr)).next =
      some (s.called base h.entry) := by
    rw [hi.executes.next_eq _ _ hcode.1, Cpu0.step, hcode.1]
    show some ({ State.set _ Reg.lr (base + 4 + 4 + 4 + 4) with pc := h.entry } : State) = _
    rw [hpc]
    rfl
  have hmore : ¬AtExit base (based.store lrSlot (s.get Reg.lr)).next := by
    intro hend
    cases hi.exit.symm.trans (hend ▸ hcode.1)
  rw [hruns, ends_iff_of_step hmore hcall]

theorem ends_tail (hi : h.Installed code base) {s : State} (x : State) {n : ℕ}
    (hn : ∀ i < n, h.enabled (h.tail^[i] s).pc = true) :
    Ends (h.step u code) (AtExit base) s x ↔
      Ends (h.step u code) (AtExit base) (h.tail^[n] s) x := by
  induction n with
  | zero => exact Iff.rfl
  | succ n ih =>
    have hen := hn n (Nat.lt_succ_self n)
    have hstep : h.step u code (h.tail^[n] s) = some (h.tail (h.tail^[n] s)) := if_pos hen
    have hmore : ¬AtExit base (h.tail^[n] s) := by
      intro hend
      cases (hi.enabled_apart _ hen).symm.trans (hend ▸ hi.exit)
    rw [ih fun i hi => hn i (Nat.lt_succ_of_lt hi), ends_iff_of_step hmore hstep,
      Function.iterate_succ_apply']

/-- From the call of the handler to its return. -/
theorem handler_returns (hi : h.Installed code base) {s m : State} (hs : s.pc = h.entry)
    (hret : h.Returns s m) (x : State) :
    Ends (h.step u code) (AtExit base) s x ↔
      Ends (h.step u code) (AtExit base) m x := by
  obtain ⟨n, rfl, hn, -⟩ := hret
  have hstep : h.step u code s = some (h.enable s) := by
    rw [Handler.step, hs, hi.entry_apart.2, if_neg Bool.false_ne_true, if_pos rfl]
  have hmore : ¬AtExit base s := by
    intro hend
    cases hi.entry_apart.1.symm.trans (hs ▸ hend ▸ hi.exit)
  rw [ends_iff_of_step hmore hstep, ends_tail hi x hn]

/-- From the handler's return to the program. -/
theorem stub_leaves (hi : h.Installed code base) {m : State} (hm : m.pc = base + 16) (x : State) :
    Ends (h.step u code) (AtExit base) m x ↔ x = m.left := by
  let based : State := { m.set Reg.tmp saveBase with pc := m.pc + 4 + 4 }
  have htmp : based.get Reg.tmp = saveBase := get_set_self m saveBase (by decide)
  have hops : runOps u [.lui Reg.tmp 7, .ori Reg.tmp Reg.tmp 0xff00, .ld Reg.lr Reg.tmp 48] m =
      some (based.set Reg.lr (m.mem lrSlot)).next := by
    rw [runOps_saveBase]
    show ((Op.ld Reg.lr Reg.tmp 48).exec u based).bind (runOps u []) = _
    rw [Op.exec, address_lrSlot htmp, if_pos aligned_lrSlot]
    rfl
  have hloaded : Loaded code m.pc ((isr h.entry).drop 4) := by
    have hback : base + 4 + 4 + 4 + 4 = base + 16 := by bv_omega
    rw [hm, ← hback]
    exact hi.loaded.2.2.2.2
  obtain ⟨hcode, hruns⟩ := hi.executes.block [.c0mov] hops hloaded
  have hlast : AtExit base (based.set Reg.lr (m.mem lrSlot)).next := by
    show m.pc + 4 + 4 + 4 = base + 28
    rw [hm]
    bv_omega
  have hexit : h.step u code (based.set Reg.lr (m.mem lrSlot)).next = some m.left := by
    rw [hi.executes.next_eq _ _ hcode.1, Cpu0.step, hcode.1]
    rfl
  rw [hruns, ends_iff_of_last hlast, hexit, Option.some.injEq]
  exact eq_comm

end Stub

section Interrupts

variable {h : Handler} {u : CompareUnit} {code : Code} {base : Word} {s m : State}

theorem Handler.Installed.step_epc (hi : h.Installed code base) {t : State}
    (hstep : h.step u code s = some t) : t.epc = s.epc := by
  unfold Handler.step at hstep
  split at hstep
  · obtain rfl := Option.some.inj hstep
    exact hi.tail_epc s
  · split at hstep
    · obtain rfl := Option.some.inj hstep
      exact hi.enable_epc s
    · exact Cpu0.step_epc hstep

theorem Handler.Installed.returns_epc (hi : h.Installed code base) (hret : h.Returns s m) :
    m.epc = s.epc := by
  obtain ⟨n, rfl, -⟩ := hret
  induction n with
  | zero => exact hi.enable_epc s
  | succ n ih =>
    rw [Function.iterate_succ_apply', hi.tail_epc]
    exact ih

/-- Without a further interrupt there is one way out. -/
theorem resumes_uninterrupted (hi : h.Installed code base)
    (hret : h.Returns (s.called base h.entry) m) (x : State) :
    h.Resumes u code base s 0 x ↔ x = m.left := by
  have hpc : m.pc = base + 16 := by
    obtain ⟨-, -, -, hpc, -⟩ := hret
    exact hpc
  rw [Handler.Resumes, resumes_zero_iff, stub_calls hi, handler_returns hi rfl hret,
    stub_leaves hi hpc]

theorem get_left (r : Reg) : m.left.get r =
    ((m.set Reg.tmp saveBase).set Reg.lr (m.mem lrSlot)).get r := rfl

/-- The way out leads back to the program, with the stub's value in `$at`. -/
theorem transparent_left_iff (hi : h.Installed code base)
    (hret : h.Returns (s.called base h.entry) m) :
    Transparent s m.left ↔ s.get Reg.tmp = saveBase := by
  have hpc : m.left.pc = s.pc := hi.returns_epc hret
  obtain ⟨-, -, -, -, hregs, hslot⟩ := hret
  have hne : Reg.tmp ≠ Reg.lr := by decide
  have htmp : m.left.get Reg.tmp = saveBase := by
    rw [get_left, get_set_of_ne _ _ hne]
    exact get_set_self m saveBase (by decide)
  have hlr : m.left.get Reg.lr = s.get Reg.lr := by
    rw [get_left, get_set_self _ _ (by decide), hslot]
    exact Function.update_self lrSlot (s.get Reg.lr) s.mem
  constructor
  · rintro ⟨-, hall⟩
    exact (hall Reg.tmp (by decide)).symm.trans htmp
  · intro hat
    refine ⟨hpc, ?_⟩
    intro r hsw
    by_cases hr : r = Reg.lr
    · rw [hr, hlr]
    by_cases hr' : r = Reg.tmp
    · rw [hr', htmp, hat]
    rw [get_left, get_set_of_ne _ _ hr, get_set_of_ne _ _ hr', hregs r hr hsw]
    show State.get ((s.set Reg.tmp saveBase).set Reg.lr (base + 16)) r = s.get r
    rw [get_set_of_ne _ _ hr, get_set_of_ne _ _ hr']

/-- After a further interrupt `$epc` stays in the window, and the stub goes back there. -/
theorem resumes_interrupted (hi : h.Installed code base) {k : ℕ} {x : State}
    (hx : h.Resumes u code base s (k + 1) x) : h.Window base x.pc := by
  obtain ⟨m, hrun, hlast, hstep⟩ := hx
  have hepc : h.Window base m.epc := by
    refine hrun.invariant (P := fun m => h.Window base m.epc) ?_ ?_ (Nat.succ_ne_zero k)
    · intro t ht
      exact ht
    · intro t t' ht hstep
      rw [hi.step_epc hstep]
      exact ht
  have hexit : code m.pc = some .c0mov := by
    rw [show m.pc = base + 28 from hlast]
    exact hi.exit
  rw [hi.executes.next_eq (u := u) m _ hexit, Cpu0.step, hexit] at hstep
  obtain rfl := Option.some.inj hstep
  exact hepc

/-- An interrupt is transparent exactly when `$at` holds the address of the save area
already and no further interrupt comes before the stub is left. The handler's `$sw` is what
the program finds. -/
theorem interrupt_transparent_iff (hi : h.Installed code base)
    (hret : h.Returns (s.called base h.entry) m) :
    (∃ t, (∀ x, h.Resumes u code base s 0 x ↔ x = t) ∧
      (Transparent s t ↔ s.get Reg.tmp = saveBase) ∧ t.get Reg.sw = m.get Reg.sw) ∧
    ∀ k x, ¬h.Window base s.pc → h.Resumes u code base s (k + 1) x → ¬Transparent s x := by
  refine ⟨⟨m.left, resumes_uninterrupted hi hret, transparent_left_iff hi hret, ?_⟩, ?_⟩
  · have hne : Reg.sw ≠ Reg.lr := by decide
    have hne' : Reg.sw ≠ Reg.tmp := by decide
    rw [get_left, get_set_of_ne _ _ hne, get_set_of_ne _ _ hne']
  · intro k x hout hx htrans
    have hin := resumes_interrupted hi hx
    rw [htrans.1] at hin
    exact hout hin

end Interrupts

/-! ## A handler that enables interrupts and returns -/

def shortHandler : Handler where
  entry := 0x2000
  enabled a := a == 0x2004
  enable s := { s.set Reg.sw (s.get Reg.sw ||| 0x200) with pc := 0x2004 }
  tail s := { s with pc := s.get Reg.lr }

def stubCode : Code := fun a => (isr 0x2000)[(a - 0x3000).toNat / 4]?

/-- A program at 0x5000 with a value in `$at`. -/
def interrupted (v : Word) : State where
  regs r := if r = Reg.tmp then v else 0
  mem _ := 0
  pc := 0x5000
  epc := 0

theorem shortHandler_installed : shortHandler.Installed stubCode 0x3000 where
  loaded := by
    simp only [Loaded, isr]
    decide
  enabled_apart := by
    intro a ha
    obtain rfl : a = 0x2004 := by simpa [shortHandler] using ha
    decide
  entry_apart := by decide
  enable_epc _ := rfl
  tail_epc _ := rfl

theorem shortHandler_returns (s : State) :
    shortHandler.Returns s (shortHandler.tail (shortHandler.enable s)) := by
  have hget : ∀ r, r ≠ Reg.sw → (shortHandler.enable s).get r = s.get r :=
    fun r hr => get_set_of_ne s (s.get Reg.sw ||| 0x200) hr
  refine ⟨1, rfl, ?_, hget Reg.lr (by decide), fun r _ hr => hget r hr, rfl⟩
  intro i hi
  obtain rfl : i = 0 := by omega
  rfl

theorem savedAt_transparent :
    ∃ t, (∀ x, shortHandler.Resumes statusFlags stubCode 0x3000 (interrupted saveBase) 0 x ↔ x = t) ∧
      Transparent (interrupted saveBase) t := by
  obtain ⟨⟨t, hruns, htrans, -⟩, -⟩ := interrupt_transparent_iff (u := statusFlags)
    (s := interrupted saveBase) shortHandler_installed (shortHandler_returns _)
  exact ⟨t, hruns, htrans.mpr rfl⟩

/-- The program finds the stub's value in `$at`. -/
theorem stub_overwrites_at :
    ¬∀ m, shortHandler.Returns ((interrupted 1).called 0x3000 0x2000) m →
      ∀ x, shortHandler.Resumes statusFlags stubCode 0x3000 (interrupted 1) 0 x →
        Transparent (interrupted 1) x := by
  intro h
  have hret := shortHandler_returns ((interrupted 1).called 0x3000 0x2000)
  have hx := (resumes_uninterrupted (u := statusFlags) shortHandler_installed hret _).mpr rfl
  have hat := (transparent_left_iff shortHandler_installed hret).mp (h _ hret _ hx)
  revert hat
  decide

end Cpu0Toolchain.Cpu0
