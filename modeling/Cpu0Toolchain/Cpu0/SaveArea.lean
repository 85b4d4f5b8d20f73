import Cpu0Toolchain.Cpu0.Machine

/-!
# Saving and restoring registers

Blocks that store registers into a save area, and load them back. The area is a list of
registers with their offsets from a base register.
-/

namespace Cpu0Toolchain.Cpu0

abbrev SaveArea := List (Reg × BitVec 16)

def saveOps (rb : Reg) (area : SaveArea) : List Op := area.map fun f => .st f.1 rb f.2

def restoreOps (rb : Reg) (area : SaveArea) : List Op := area.map fun f => .ld f.1 rb f.2

/-- Where an offset of the area lies. -/
def slot (base : Word) (offset : BitVec 16) : Word := base + offset.signExtend 32

/-- The offsets are word-aligned and differ, and so do the registers, which are real ones. -/
structure SaveArea.Proper (rb : Reg) (area : SaveArea) : Prop where
  aligned : ∀ f ∈ area, (f.2.signExtend 32).toNat % 4 = 0
  offsets : (area.map fun f => f.2.signExtend 32).Nodup
  registers : (area.map Prod.fst).Nodup
  nonzero : ∀ f ∈ area, f.1 ≠ 0 ∧ f.1 ≠ rb

theorem SaveArea.Proper.tail {rb : Reg} {f : Reg × BitVec 16} {area : SaveArea}
    (h : SaveArea.Proper rb (f :: area)) : SaveArea.Proper rb area :=
  ⟨fun g hg => h.aligned g (List.mem_cons_of_mem _ hg), h.offsets.of_cons, h.registers.of_cons,
    fun g hg => h.nonzero g (List.mem_cons_of_mem _ hg)⟩

theorem aligned_slot {base : Word} {offset : BitVec 16} (hbase : Aligned base)
    (hoffset : (offset.signExtend 32).toNat % 4 = 0) : Aligned (slot base offset) := by
  unfold Aligned slot at *
  rw [BitVec.toNat_add]
  omega

/-- After a save the area holds the registers, and nothing else has changed. -/
theorem save_spec (u : CompareUnit) {rb : Reg} {area : SaveArea} (h : SaveArea.Proper rb area)
    {s : State} (hbase : Aligned (s.get rb)) :
    ∃ t, runOps u (saveOps rb area) s = some t ∧ (∀ r, t.get r = s.get r) ∧
      (∀ f ∈ area, t.mem (slot (s.get rb) f.2) = s.get f.1) ∧
      (∀ a, (∀ f ∈ area, a ≠ slot (s.get rb) f.2) → t.mem a = s.mem a) := by
  induction area generalizing s with
  | nil => exact ⟨s, rfl, fun _ => rfl, by simp, fun _ _ => rfl⟩
  | cons f area ih =>
    have hslot : Aligned (s.address rb f.2) :=
      aligned_slot hbase (h.aligned f List.mem_cons_self)
    have hexec : (Op.st f.1 rb f.2).exec u s =
        some (s.store (s.address rb f.2) (s.get f.1)).next := if_pos hslot
    obtain ⟨t, hrun, hregs, hsaved, hframe⟩ :=
      ih h.tail (s := (s.store (s.address rb f.2) (s.get f.1)).next) hbase
    refine ⟨t, ?_, hregs, ?_, ?_⟩
    · rw [saveOps, List.map_cons, runOps, hexec]
      exact hrun
    · intro g hg
      rcases List.mem_cons.mp hg with rfl | hg
      · -- the later stores go to other offsets
        refine (hframe _ ?_).trans (Function.update_self _ _ _)
        intro g' hg' heq
        have hsame : g.2.signExtend 32 = g'.2.signExtend 32 := add_left_cancel heq
        exact (List.nodup_cons.mp h.offsets).1 (List.mem_map.mpr ⟨g', hg', hsame.symm⟩)
      · exact hsaved g hg
    · intro a ha
      refine (hframe a fun g hg => ha g (List.mem_cons_of_mem _ hg)).trans ?_
      exact Function.update_of_ne (ha f List.mem_cons_self) _ _

/-- After a restore the registers hold the words of the area, and nothing else has changed. -/
theorem restore_spec (u : CompareUnit) {rb : Reg} {area : SaveArea} (h : SaveArea.Proper rb area)
    {s : State} (hbase : Aligned (s.get rb)) :
    ∃ t, runOps u (restoreOps rb area) s = some t ∧ t.mem = s.mem ∧
      (∀ f ∈ area, t.get f.1 = s.mem (slot (s.get rb) f.2)) ∧
      (∀ r, (∀ f ∈ area, r ≠ f.1) → t.get r = s.get r) := by
  induction area generalizing s with
  | nil => exact ⟨s, rfl, rfl, by simp, fun _ _ => rfl⟩
  | cons f area ih =>
    have hslot : Aligned (s.address rb f.2) :=
      aligned_slot hbase (h.aligned f List.mem_cons_self)
    have hexec : (Op.ld f.1 rb f.2).exec u s =
        some (s.set f.1 (s.mem (s.address rb f.2))).next := if_pos hslot
    have hnz := h.nonzero f List.mem_cons_self
    have hrb : (s.set f.1 (s.mem (s.address rb f.2))).next.get rb = s.get rb :=
      get_set_of_ne s _ hnz.2.symm
    obtain ⟨t, hrun, hmem, hrestored, hframe⟩ :=
      ih h.tail (s := (s.set f.1 (s.mem (s.address rb f.2))).next) (by rw [hrb]; exact hbase)
    rw [hrb] at hrestored
    refine ⟨t, ?_, hmem, ?_, ?_⟩
    · rw [restoreOps, List.map_cons, runOps, hexec]
      exact hrun
    · intro g hg
      rcases List.mem_cons.mp hg with rfl | hg
      · -- the later loads go to other registers
        refine (hframe _ ?_).trans (get_set_self s _ hnz.1)
        intro g' hg' heq
        exact (List.nodup_cons.mp h.registers).1 (heq ▸ List.mem_map_of_mem hg')
      · exact hrestored g hg
    · intro r hr
      refine (hframe r fun g hg => hr g (List.mem_cons_of_mem _ hg)).trans ?_
      exact get_set_of_ne s _ (hr f List.mem_cons_self)

end Cpu0Toolchain.Cpu0
