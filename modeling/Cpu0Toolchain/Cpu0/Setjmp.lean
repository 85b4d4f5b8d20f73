import Cpu0Toolchain.Cpu0.SaveArea

/-!
# setjmp and longjmp

The two functions of `newlib/libc/machine/cpu0/setjmp.S`. `setjmp` saves `$9` to `$15`,
but then clears `$lr`, the register it returns through, where it means to clear the
result register. `longjmp` tests its argument with `cmp` into `$sw`, which it has just
restored.
-/

namespace Cpu0Toolchain.Cpu0

/-- The layout of the jmpbuf. -/
def jmpbuf : SaveArea :=
  [(9, 0x00), (10, 0x04), (11, 0x08), (12, 0x0c), (13, 0x10), (14, 0x14), (15, 0x18)]

def setjmp : List Instr := [
  .op (.st 9 Reg.a0 0),
  .op (.st 10 Reg.a0 4),
  .op (.st 11 Reg.a0 8),
  .op (.st 12 Reg.a0 12),
  .op (.st 13 Reg.a0 16),
  .op (.st 14 Reg.a0 20),
  .op (.st 15 Reg.a0 24),
  -- Return 0 to caller.
  .op (.addiu Reg.lr 0 0x0),
  .ret Reg.lr]

def longjmp : List Instr := [
  .op (.ld 9 Reg.a0 0),
  .op (.ld 10 Reg.a0 4),
  .op (.ld 11 Reg.a0 8),
  .op (.ld 12 Reg.a0 12),
  .op (.ld 13 Reg.a0 16),
  .op (.ld 14 Reg.a0 20),
  .op (.ld 15 Reg.a0 24),
  -- If caller attempted to return 0, return 1 instead.
  .op (.cmp Reg.sw Reg.a1 0),
  .jne Reg.sw 4,
  .op (.addiu Reg.a1 0 1),
  .op (.addu Reg.v0 0 Reg.a1),
  .ret Reg.lr]

theorem jmpbuf_proper : jmpbuf.Proper Reg.a0 where
  aligned := by
    have h : jmpbuf.all (fun f => (f.2.signExtend 32).toNat % 4 = 0) = true := by decide
    simpa only [List.all_eq_true, decide_eq_true_eq] using h
  offsets := by decide
  registers := by decide
  nonzero := by
    have h : jmpbuf.all (fun f => f.1 ≠ 0 ∧ f.1 ≠ Reg.a0) = true := by decide
    simpa only [List.all_eq_true, decide_eq_true_eq] using h

theorem jmpbuf_registers (r : Reg) : 9 ≤ r ↔ r ∈ jmpbuf.map Prod.fst := by
  revert r
  decide

/-- The argument and result registers are not in the jmpbuf. -/
theorem ne_of_mem_jmpbuf {r : Reg} (hr : ¬9 ≤ r) {f : Reg × BitVec 16} (hf : f ∈ jmpbuf) :
    r ≠ f.1 := by
  intro heq
  exact hr ((jmpbuf_registers r).mpr (heq ▸ List.mem_map_of_mem hf))

/-- What the caller of `setjmp` is promised. -/
def SetjmpReturns (u : CompareUnit) (code : Code) (s : State) : Prop :=
  ∃ t, Returns u code s t ∧ t.pc = s.get Reg.lr ∧ t.get Reg.v0 = 0 ∧
    ∀ r, 9 ≤ r → t.get r = s.get r

/-- What the caller of `longjmp` is promised for a buffer that a call of `setjmp` from `s`
has filled and that nothing has changed since. -/
def LongjmpReturns (u : CompareUnit) (code : Code) (longjmpAt : Word) (s : State) (v : Word) : Prop :=
  ∀ filled x, Returns u code s filled → x.pc = longjmpAt → x.get Reg.a0 = s.get Reg.a0 →
    x.get Reg.a1 = v →
    (∀ f ∈ jmpbuf, x.mem (slot (s.get Reg.a0) f.2) = filled.mem (slot (s.get Reg.a0) f.2)) →
    ∃ y, Returns u code x y ∧ y.pc = s.get Reg.lr ∧ y.get Reg.v0 = (if v ≠ 0 then v else 1) ∧
      ∀ r, 9 ≤ r → y.get r = s.get r

section Runs

variable {u : CompareUnit} {code : Code} {s : State}

/-- `setjmp` fills the buffer and returns to address 0. -/
theorem setjmp_run (hcode : Loaded code s.pc setjmp) (hbuf : Aligned (s.get Reg.a0)) :
    ∃ t, (∀ x, Returns u code s x ↔ x = t) ∧ t.pc = 0 ∧ t.get Reg.lr = 0 ∧
      (∀ r, r ≠ Reg.lr → t.get r = s.get r) ∧
      ∀ f ∈ jmpbuf, t.mem (slot (s.get Reg.a0) f.2) = s.get f.1 := by
  obtain ⟨saved, hrun, hregs, hmem, -⟩ := save_spec u jmpbuf_proper hbuf
  obtain ⟨hcode, hsaved⟩ := returns_block [.op (.addiu Reg.lr 0 0x0), .ret Reg.lr] hrun hcode
  have hclear : runOps u [.addiu Reg.lr 0 0x0] saved = some (saved.set Reg.lr 0).next := rfl
  obtain ⟨hcode, hcleared⟩ := returns_block [.ret Reg.lr] hclear hcode
  have hlr : (saved.set Reg.lr 0).next.get Reg.lr = 0 := get_set_self saved 0 (by decide)
  refine ⟨{ (saved.set Reg.lr 0).next with pc := 0 }, ?_, rfl, hlr, ?_, hmem⟩
  · intro x
    rw [hsaved, hcleared, returns_ret hcode.1, hlr]
  · intro r hr
    exact (get_set_of_ne saved 0 hr).trans (hregs r)

/-- The end of `longjmp`: the result is the argument register. -/
theorem longjmp_end (hcode : Loaded code s.pc [.op (.addu Reg.v0 0 Reg.a1), .ret Reg.lr]) :
    ∃ t, (∀ x, Returns u code s x ↔ x = t) ∧ t.pc = s.get Reg.lr ∧ t.get Reg.v0 = s.get Reg.a1 ∧
      ∀ r, r ≠ Reg.v0 → t.get r = s.get r := by
  have hops : runOps u [.addu Reg.v0 0 Reg.a1] s =
      some (s.set Reg.v0 (s.get 0 + s.get Reg.a1)).next := rfl
  have hsum : s.get 0 + s.get Reg.a1 = s.get Reg.a1 := by
    rw [get_zero]
    exact BitVec.zero_add _
  rw [hsum] at hops
  obtain ⟨hcode, hruns⟩ := returns_block [.ret Reg.lr] hops hcode
  have hget : ∀ r, r ≠ Reg.v0 → (s.set Reg.v0 (s.get Reg.a1)).next.get r = s.get r :=
    fun r hr => get_set_of_ne s (s.get Reg.a1) hr
  refine ⟨{ (s.set Reg.v0 (s.get Reg.a1)).next with pc := s.get Reg.lr }, ?_, rfl, ?_, hget⟩
  · intro x
    rw [hruns, returns_ret hcode.1, hget Reg.lr (by decide)]
  · exact get_set_self s (s.get Reg.a1) (by decide)

/-- The branch over the replacement of the argument 0. Both ways lead to the end of the
function, with the result in `$5`. -/
theorem longjmp_test (hcode : Loaded code s.pc [.jne Reg.sw 4, .op (.addiu Reg.a1 0 1),
      .op (.addu Reg.v0 0 Reg.a1), .ret Reg.lr])
    (hne : u.ne (s.get Reg.sw) = decide (s.get Reg.a1 ≠ 0)) :
    ∃ e : State, (∀ x, Returns u code s x ↔ Returns u code e x) ∧
      Loaded code e.pc [.op (.addu Reg.v0 0 Reg.a1), .ret Reg.lr] ∧
      e.get Reg.a1 = (if s.get Reg.a1 ≠ 0 then s.get Reg.a1 else 1) ∧
      ∀ r, r ≠ Reg.a1 → e.get r = s.get r := by
  by_cases hv : s.get Reg.a1 ≠ 0
  · rw [decide_eq_true hv] at hne
    refine ⟨{ s with pc := s.pc + 4 + 4 }, ?_, hcode.2.2, (if_pos hv).symm, fun _ _ => rfl⟩
    intro x
    rw [returns_jne hcode.1, hne, if_pos rfl]
  · rw [decide_eq_false hv] at hne
    have hone : runOps u [.addiu Reg.a1 0 1] s.next = some (s.next.set Reg.a1 1).next := rfl
    obtain ⟨hrest, hruns⟩ := returns_block [.op (.addu Reg.v0 0 Reg.a1), .ret Reg.lr] hone hcode.2
    refine ⟨(s.next.set Reg.a1 1).next, ?_, hrest, ?_, ?_⟩
    · intro x
      rw [returns_jne hcode.1, hne, if_neg Bool.false_ne_true]
      exact hruns x
    · rw [if_neg hv]
      exact get_set_self s.next 1 (by decide)
    · intro r hr
      exact get_set_of_ne s.next 1 hr

/-- `longjmp` restores the registers but `$sw`, which holds the flags of its argument. -/
theorem longjmp_run (hcode : Loaded code s.pc longjmp) (hbuf : Aligned (s.get Reg.a0)) :
    ∃ t, (∀ x, Returns u code s x ↔ x = t) ∧
      t.pc = s.mem (slot (s.get Reg.a0) 0x14) ∧
      t.get Reg.v0 = (if s.get Reg.a1 ≠ 0 then s.get Reg.a1 else 1) ∧
      (∀ f ∈ jmpbuf, f.1 ≠ Reg.sw → t.get f.1 = s.mem (slot (s.get Reg.a0) f.2)) ∧
      t.get Reg.sw = u.cmp (s.mem (slot (s.get Reg.a0) 0x18)) (s.get Reg.a1) 0 := by
  obtain ⟨restored, hrun, -, hregs, hframe⟩ := restore_spec u jmpbuf_proper hbuf
  obtain ⟨hcode, hrestored⟩ := returns_block [.op (.cmp Reg.sw Reg.a1 0), .jne Reg.sw 4,
    .op (.addiu Reg.a1 0 1), .op (.addu Reg.v0 0 Reg.a1), .ret Reg.lr] hrun hcode
  have ha1 : restored.get Reg.a1 = s.get Reg.a1 := 
    hframe Reg.a1 fun f hf => ne_of_mem_jmpbuf (by decide) hf
  have hsw : restored.get Reg.sw = s.mem (slot (s.get Reg.a0) 0x18) :=
    hregs (15, 0x18) (by decide)
  have hlr : restored.get Reg.lr = s.mem (slot (s.get Reg.a0) 0x14) :=
    hregs (14, 0x14) (by decide)
  -- the comparison, whose flags go into the restored `$sw`
  set flags := u.cmp (s.mem (slot (s.get Reg.a0) 0x18)) (s.get Reg.a1) 0 with hflags
  have hcmp : runOps u [.cmp Reg.sw Reg.a1 0] restored = some (restored.set Reg.sw flags).next := by
    rw [hflags, ← hsw, ← ha1]
    rfl
  obtain ⟨hcode, hcompared⟩ := returns_block [.jne Reg.sw 4, .op (.addiu Reg.a1 0 1),
    .op (.addu Reg.v0 0 Reg.a1), .ret Reg.lr] hcmp hcode
  set compared := (restored.set Reg.sw flags).next with hdef
  have hcsw : compared.get Reg.sw = flags := get_set_self restored flags (by decide)
  have hcget : ∀ r, r ≠ Reg.sw → compared.get r = restored.get r :=
    fun r hr => get_set_of_ne restored flags hr
  have hca1 : compared.get Reg.a1 = s.get Reg.a1 := (hcget Reg.a1 (by decide)).trans ha1
  have hne : u.ne (compared.get Reg.sw) = decide (compared.get Reg.a1 ≠ 0) := by
    rw [hcsw, hflags, u.ne_cmp, hca1]
  obtain ⟨e, heruns, hecode, hea1, heget⟩ := longjmp_test hcode hne
  obtain ⟨t, htruns, hpc, hv0, hget⟩ := longjmp_end hecode
  refine ⟨t, ?_, ?_, ?_, ?_, ?_⟩
  · intro x
    rw [hrestored, hcompared, heruns, htruns]
  · rw [hpc, heget _ (by decide), hcget _ (by decide), hlr]
  · rw [hv0, hea1, hca1]
  · intro f hf hfsw
    have hv0 : Reg.v0 ≠ f.1 := ne_of_mem_jmpbuf (by decide) hf
    have ha1 : Reg.a1 ≠ f.1 := ne_of_mem_jmpbuf (by decide) hf
    rw [hget _ hv0.symm, heget _ ha1.symm, hcget _ hfsw, hregs f hf]
  · rw [hget _ (by decide), heget _ (by decide), hcsw]

theorem setjmpReturns_iff (hcode : Loaded code s.pc setjmp) (hbuf : Aligned (s.get Reg.a0)) :
    SetjmpReturns u code s ↔ s.get Reg.lr = 0 ∧ s.get Reg.v0 = 0 := by
  obtain ⟨t, hruns, hpc, hlr, hregs, -⟩ := setjmp_run (u := u) hcode hbuf
  constructor
  · rintro ⟨t', hrun, hto, hv0, -⟩
    obtain rfl := (hruns t').mp hrun
    exact ⟨hto.symm.trans hpc, (hregs Reg.v0 (by decide)).symm.trans hv0⟩
  · rintro ⟨hzero, hv0⟩
    refine ⟨t, (hruns t).mpr rfl, hpc.trans hzero.symm, (hregs _ (by decide)).trans hv0, ?_⟩
    intro r _
    by_cases hr : r = Reg.lr
    · rw [hr, hlr, hzero]
    · exact hregs r hr

/-- A jump to a buffer that holds the registers of `s` ends with the flags of the argument
in `$sw`. -/
theorem longjmp_filled {x : State} (hlong : Loaded code x.pc longjmp)
    (hbuf : Aligned (s.get Reg.a0)) (ha0 : x.get Reg.a0 = s.get Reg.a0)
    (hmem : ∀ f ∈ jmpbuf, x.mem (slot (s.get Reg.a0) f.2) = s.get f.1) :
    ∃ y, (∀ z, Returns u code x z ↔ z = y) ∧ y.pc = s.get Reg.lr ∧
      y.get Reg.v0 = (if x.get Reg.a1 ≠ 0 then x.get Reg.a1 else 1) ∧
      (∀ r, 9 ≤ r → r ≠ Reg.sw → y.get r = s.get r) ∧
      y.get Reg.sw = u.cmp (s.get Reg.sw) (x.get Reg.a1) 0 := by
  obtain ⟨y, hy, hto, hv0, hregs, hsw⟩ := longjmp_run (u := u) hlong (ha0.symm ▸ hbuf)
  rw [ha0] at hto hregs hsw
  refine ⟨y, hy, hto.trans (hmem (14, 0x14) (by decide)), hv0, ?_, ?_⟩
  · intro r hr hrsw
    obtain ⟨f, hf, rfl⟩ := List.mem_map.mp ((jmpbuf_registers r).mp hr)
    exact (hregs f hf hrsw).trans (hmem f hf)
  · rw [hsw, hmem (15, 0x18) (by decide)]

theorem longjmpReturns_iff {longjmpAt : Word} (v : Word) (hset : Loaded code s.pc setjmp)
    (hlong : Loaded code longjmpAt longjmp) (hbuf : Aligned (s.get Reg.a0)) :
    LongjmpReturns u code longjmpAt s v ↔ u.cmp (s.get Reg.sw) v 0 = s.get Reg.sw := by
  obtain ⟨t, hruns, -, -, -, hsaved⟩ := setjmp_run (u := u) hset hbuf
  constructor
  · intro h
    -- the jump from right behind `setjmp`
    let called := t.set Reg.a0 (s.get Reg.a0)
    let x := { called.set Reg.a1 v with pc := longjmpAt }
    have hne : Reg.a0 ≠ Reg.a1 := by decide
    have ha0 : x.get Reg.a0 = s.get Reg.a0 :=
      (get_set_of_ne called v hne).trans (get_set_self t _ (by decide))
    have ha1 : x.get Reg.a1 = v := get_set_self called v (by decide)
    obtain ⟨y, hy, -, -, -, hsw⟩ := longjmp_filled (u := u) hlong hbuf ha0 hsaved
    obtain ⟨y', hrun, -, -, hall⟩ := h t x ((hruns t).mpr rfl) rfl ha0 ha1 (fun _ _ => rfl)
    obtain rfl := (hy y').mp hrun
    rw [ha1] at hsw
    exact hsw.symm.trans (hall Reg.sw (by decide))
  · intro hflags filled x hfilled hpc ha0 ha1 hkept
    obtain rfl := (hruns filled).mp hfilled
    have hmem : ∀ f ∈ jmpbuf, x.mem (slot (s.get Reg.a0) f.2) = s.get f.1 :=
      fun f hf => (hkept f hf).trans (hsaved f hf)
    obtain ⟨y, hy, hto, hv0, hregs, hsw⟩ := longjmp_filled (u := u) (hpc.symm ▸ hlong) hbuf ha0 hmem
    rw [ha1] at hv0 hsw
    refine ⟨y, (hy y).mpr rfl, hto, hv0, ?_⟩
    intro r hr
    by_cases hrsw : r = Reg.sw
    · rw [hrsw, hsw, hflags]
    · exact hregs r hr hrsw

/-- `setjmp` and `longjmp` do what they are for exactly when the caller's return address
and result register are zero and the flags of the argument are in `$sw` already. -/
theorem jumps_iff {longjmpAt : Word} (v : Word) (hset : Loaded code s.pc setjmp)
    (hlong : Loaded code longjmpAt longjmp) (hbuf : Aligned (s.get Reg.a0)) :
    (SetjmpReturns u code s ∧ LongjmpReturns u code longjmpAt s v) ↔
      s.get Reg.lr = 0 ∧ s.get Reg.v0 = 0 ∧ u.cmp (s.get Reg.sw) v 0 = s.get Reg.sw := by
  rw [setjmpReturns_iff hset hbuf, longjmpReturns_iff v hset hlong hbuf, and_assoc]

end Runs

/-! ## A call from address 0x2000 -/

/-- The two functions, at 0x1000. -/
def newlibCode : Code := fun a => (setjmp ++ longjmp)[(a - 0x1000).toNat / 4]?

/-- A call of `setjmp` with a buffer at 0x100. -/
def setjmpCall (lr : Word) : State where
  regs r := if r = Reg.a0 then 0x100 else if r = Reg.lr then lr else 0
  mem _ := 0
  pc := 0x1000
  epc := 0

theorem newlibCode_loaded :
    Loaded newlibCode 0x1000 setjmp ∧ Loaded newlibCode 0x1024 longjmp := by
  constructor <;> simp only [Loaded, setjmp, longjmp] <;> decide

theorem zeroReturn_jumps :
    SetjmpReturns statusFlags newlibCode (setjmpCall 0) ∧
      LongjmpReturns statusFlags newlibCode 0x1024 (setjmpCall 0) 7 :=
  (jumps_iff 7 newlibCode_loaded.1 newlibCode_loaded.2 (by decide)).mpr (by decide)

/-- A caller at 0x2000 does not get control back. -/
theorem setjmp_leaves_caller :
    ¬(Loaded newlibCode (setjmpCall 0x2004).pc setjmp ∧ Loaded newlibCode 0x1024 longjmp ∧
        Aligned ((setjmpCall 0x2004).get Reg.a0) →
      SetjmpReturns statusFlags newlibCode (setjmpCall 0x2004) ∧
        LongjmpReturns statusFlags newlibCode 0x1024 (setjmpCall 0x2004) 7) := by
  intro h
  have hset := (h ⟨newlibCode_loaded.1, newlibCode_loaded.2, by decide⟩).1
  have hlr := ((setjmpReturns_iff newlibCode_loaded.1 (by decide)).mp hset).1
  revert hlr
  decide

end Cpu0Toolchain.Cpu0
