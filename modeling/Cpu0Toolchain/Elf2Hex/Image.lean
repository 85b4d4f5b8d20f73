import Cpu0Toolchain.Library.BlockImage
import Cpu0Toolchain.Elf2Hex.SymbolRanges

/-!
# The boot block and one section of the image

The output carries no addresses, so a byte lands at the address it is meant for
exactly when as many bytes were written before it. The constructor writes the boot
block, and each section is a block of the image that its calls lay behind it.
-/

namespace Cpu0Toolchain.Elf2Hex
open BlockImage (Block)
open ForLoop (indices)

/-- A `jmp` with a 24-bit offset, in memory order. -/
def jumpWord (littleEndian : Bool) (offset : ℕ) : List UInt8 :=
  let word := 0x36 * 2 ^ 24 + offset % 2 ^ 24
  let bytes := [UInt8.ofNat (word / 2 ^ 24), UInt8.ofNat (word / 2 ^ 16), UInt8.ofNat (word / 2 ^ 8),
    UInt8.ofNat word]
  if littleEndian then bytes.reverse else bytes

/-- The boot block: jump to `.text`, jump over itself by 4, jump to the interrupt
routine, and a jump back by 4, each relative to the next word. -/
def bootBlock (littleEndian : Bool) (textOffset isrAddr : ℕ) : List UInt8 :=
  jumpWord littleEndian (sub64 textOffset 4) ++ jumpWord littleEndian 4 ++
    jumpWord littleEndian (sub64 (sub64 isrAddr 8) 4) ++ jumpWord littleEndian (sub64 0 4)

def objectBoot (littleEndian : Bool) (obj : ObjectFile) : List UInt8 :=
  bootBlock littleEndian (sectionOffset obj ".text") (getSymbolAddress obj "ISR")

/-! ## The boot block -/

theorem maskedByte (n k : ℕ) :
    UInt8.ofNat ((n &&& 0xff <<< k) >>> k) = UInt8.ofNat (n / 2 ^ k) := by
  rw [Nat.shiftRight_and_distrib, Nat.shiftLeft_shiftRight, Nat.shiftRight_eq_div_pow]
  have h : n / 2 ^ k &&& 0xff = n / 2 ^ k % 2 ^ 8 := Nat.and_two_pow_sub_one_eq_mod _ 8
  rw [h]
  exact UInt8.toNat_inj.mp (by simp)

/-- The bytes of a jump, opcode first, as the program masks them out of the offset. -/
theorem jumpWord_eq (littleEndian : Bool) (n : ℕ) :
    jumpWord littleEndian n =
      let bytes := [0x36, UInt8.ofNat ((n &&& 0xff0000) >>> 16), UInt8.ofNat ((n &&& 0xff00) >>> 8),
        UInt8.ofNat (n &&& 0xff)]
      if littleEndian then bytes.reverse else bytes := by
  have h16 : UInt8.ofNat ((n &&& 0xff0000) >>> 16) = UInt8.ofNat (n / 2 ^ 16) := maskedByte n 16
  have h8 : UInt8.ofNat ((n &&& 0xff00) >>> 8) = UInt8.ofNat (n / 2 ^ 8) := maskedByte n 8
  have h0 : UInt8.ofNat (n &&& 0xff) = UInt8.ofNat (n / 2 ^ 0) := maskedByte n 0
  have hw : ∀ a b : ℕ, a % 256 = b % 256 → UInt8.ofNat a = UInt8.ofNat b := by
    intro a b h
    exact UInt8.toNat_inj.mp (by simpa using h)
  have h24 : UInt8.ofNat ((0x36 * 2 ^ 24 + n % 2 ^ 24) / 2 ^ 24) = 0x36 := hw _ 0x36 (by omega)
  have h16' : UInt8.ofNat ((0x36 * 2 ^ 24 + n % 2 ^ 24) / 2 ^ 16) =
      UInt8.ofNat (n / 2 ^ 16) := hw _ _ (by omega)
  have h8' : UInt8.ofNat ((0x36 * 2 ^ 24 + n % 2 ^ 24) / 2 ^ 8) =
      UInt8.ofNat (n / 2 ^ 8) := hw _ _ (by omega)
  have h0' : UInt8.ofNat (0x36 * 2 ^ 24 + n % 2 ^ 24) = UInt8.ofNat (n / 2 ^ 0) :=
    hw _ _ (by omega)
  simp only [jumpWord, h24, h16', h8', h0', h16, h8, h0]

theorem image_bootRow (address : String) (b₀ b₁ b₂ b₃ : UInt8) (asm : List Char) :
    Readmemh.image (bootRow address b₀ b₁ b₂ b₃ asm) = [b₀, b₁, b₂, b₃] := rfl

theorem image_printBootSection (textOffset isrAddr : ℕ) (littleEndian : Bool) :
    Readmemh.image (printBootSection textOffset isrAddr littleEndian) =
      bootBlock littleEndian textOffset isrAddr := by
  have h4 : ∀ le, jumpWord le 4 = if le then [4, 0, 0, 0x36] else [0x36, 0, 0, 4] := by decide
  have hback : ∀ le, jumpWord le (sub64 0 4) =
      if le then [0xfc, 0xff, 0xff, 0x36] else [0x36, 0xff, 0xff, 0xfc] := by decide
  simp only [bootBlock, h4, hback, jumpWord_eq]
  cases littleEndian <;>
    simp only [printBootSection, if_true, Bool.false_eq_true, if_false, Readmemh.image_append,
      image_bootRow, List.reverse_cons, List.reverse_nil, List.nil_append, List.cons_append]

theorem jumpWord_length (littleEndian : Bool) (offset : ℕ) :
    (jumpWord littleEndian offset).length = 4 := by
  cases littleEndian <;> rfl

theorem bootBlock_length (littleEndian : Bool) (textOffset isrAddr : ℕ) :
    (bootBlock littleEndian textOffset isrAddr).length = bootSize := by
  simp only [bootBlock, List.length_append, jumpWord_length]
  rfl

/-- The constructor writes the boot block and zeros up to 0x100. -/
theorem create_image (obj : ObjectFile) (littleEndian : Bool) (si : ℕ) :
    (VerilogHex.create obj littleEndian si).image = objectBoot littleEndian obj ++ zeros 0xf0 := by
  have hfill : Readmemh.image (fill0s bootSize 0x100 (by decide)) = zeros 0xf0 :=
    image_fill0s_words _
  unfold VerilogHex.create VerilogHex.image
  rw [Readmemh.image_append, image_printBootSection, hfill]
  rfl

theorem create_length (obj : ObjectFile) (littleEndian : Bool) (si : ℕ) :
    (VerilogHex.create obj littleEndian si).image.length = 0x100 := by
  rw [create_image, List.length_append, objectBoot, bootBlock_length, zeros_length]
  rfl

/-! ## One section -/

/-- A section as a block of the image: its contents and the padding to whole words. -/
def SectionRef.block (sec : SectionRef) : Block UInt8 :=
  ⟨sec.address, sec.contents, wordCeil sec.contents.length - sec.contents.length⟩

theorem block_stop (sec : SectionRef) :
    sec.block.stop = sec.address + wordCeil sec.contents.length := by
  have := le_wordCeil sec.contents.length
  simp only [Block.stop, SectionRef.block]
  omega

theorem fillGap_image_synced {hex : VerilogHex} (hsync : Synced hex) {address : ℕ}
    (h : hex.image.length ≤ address) (hdvd : 4 ∣ address - hex.image.length) :
    (hex.fillGap address).image = hex.image ++ zeros (address - hex.image.length) := by
  rw [← hsync] at h hdvd ⊢
  exact fillGap_image h hdvd

/-- The data emitter lays the section's block and keeps `Synced`. -/
theorem processDataSection_lays (host : Host) {sec : SectionRef} {hex : VerilogHex}
    (hsync : Synced hex) (h : hex.image.length ≤ sec.address)
    (hdvd : 4 ∣ sec.address - hex.image.length) :
    (processDataSection host sec hex).image = BlockImage.append 0 hex.image sec.block ∧
      Synced (processDataSection host sec hex) := by
  have himage : (processDataSection host sec hex).image =
      BlockImage.append 0 hex.image sec.block := by
    rw [processDataSection_eq, printDataSection_image, fillGap_image_synced hsync h hdvd,
      List.append_assoc]
    rfl
  refine ⟨himage, ?_⟩
  have hlast : hex.lastDumpAddr ≤ sec.address := by rw [hsync]; exact h
  have haddr : sec.block.address = sec.address := rfl
  rw [Synced, himage, BlockImage.append_length 0 (by rw [haddr]; exact h), block_stop,
    processDataSection_eq, printDataSection_lastDumpAddr host sec _ (fillGap_lastDumpAddr hlast)]

/-- Where the instruction loop stands: the gap before the section is filled, or will be
by the first call, and the first `j` words are written. -/
structure AtWord (sec : SectionRef) (filled : List UInt8) (j : ℕ) (hex : VerilogHex) : Prop where
  image : (hex.fillGap sec.address).image = filled ++ sec.contents.take (4 * j)
  last : (hex.fillGap sec.address).lastDumpAddr = sec.address + 4 * j

/-- One instruction: the next word is written. -/
theorem AtWord.step {host : Host} {sec : SectionRef} {filled : List UInt8} {j : ℕ}
    {hex hex' : VerilogHex} {cur : Current} (h : AtWord sec filled j hex) (hsec : cur.sec = sec)
    (hindex : cur.index = 4 * j) (hrun : hex.call host (textCall sec cur) = .ok hex') :
    AtWord sec filled (j + 1) hex' ∧ hex'.fillGap sec.address = hex' ∧
      4 * (j + 1) ≤ sec.contents.length := by
  obtain ⟨hin, -, himage, hlast⟩ := processDisAsmInstruction_ok hrun
  rw [hsec, hindex] at himage hlast
  rw [hindex] at hin
  have hfix : hex'.fillGap sec.address = hex' := fillGap_of_le (by omega)
  refine ⟨⟨?_, ?_⟩, hfix, by omega⟩
  · rw [hfix, himage, h.image, List.append_assoc, Nat.mul_succ, List.take_add]
  · rw [hfix, hlast]
    omega

theorem AtWord.synced {sec : SectionRef} {filled : List UInt8} {j : ℕ} {hex : VerilogHex}
    (h : AtWord sec filled j hex) (hfilled : filled.length = sec.address)
    (hfix : hex.fillGap sec.address = hex) (hj : 4 * j ≤ sec.contents.length) : Synced hex := by
  have h1 := h.image
  have h2 := h.last
  rw [hfix] at h1 h2
  rw [Synced, h2, h1, List.length_append, hfilled, List.length_take, Nat.min_eq_left hj]

/-- Behind the first word there is no gap left to fill. -/
theorem AtWord.fixed {sec : SectionRef} {filled : List UInt8} {j : ℕ} {hex : VerilogHex}
    (h : AtWord sec filled j hex) (hj : 0 < j) : hex.fillGap sec.address = hex := by
  by_cases hle : sec.address ≤ hex.lastDumpAddr
  · exact fillGap_of_le hle
  · have h1 : (hex.fillGap sec.address).lastDumpAddr = sec.address :=
      fillGap_lastDumpAddr (by omega)
    rw [h.last] at h1
    omega

section Text

variable {host : Host} {sec : SectionRef} {filled : List UInt8} {n : ℕ}

/-- The indices of a word loop that has something left to do. -/
theorem words_left {cur : Current} {curs : List Current} {j : ℕ}
    (h : (cur :: curs).map Current.index = indices (4 * j) (4 * n) 4) :
    j < n ∧ cur.index = 4 * j ∧ curs.map Current.index = indices (4 * (j + 1)) (4 * n) 4 := by
  by_cases hj : j < n
  · rw [ForLoop.indices_of_lt (by omega) (by decide), List.map_cons, List.cons.injEq] at h
    exact ⟨hj, h.1, by rw [h.2, Nat.mul_succ]⟩
  · rw [ForLoop.indices_of_le (by omega) (by decide)] at h
    cases h

theorem words_done {j : ℕ} (h : ([] : List Current).map Current.index = indices (4 * j) (4 * n) 4) :
    n ≤ j := by
  by_contra hlt
  rw [ForLoop.indices_of_lt (by omega) (by decide)] at h
  cases h

/-- The instruction loop, from word `j` on, when it runs through. -/
theorem text_run {curs : List Current} {j : ℕ} {hex hex' : VerilogHex}
    (hsec : ∀ cur ∈ curs, cur.sec = sec)
    (hindex : curs.map Current.index = indices (4 * j) (4 * n) 4) (hj : j ≤ n)
    (h : AtWord sec filled j hex) (hrun : hex.run host (curs.map (textCall sec)) = .ok hex') :
    AtWord sec filled n hex' := by
  induction curs generalizing j hex with
  | nil =>
    cases hrun
    rwa [← Nat.le_antisymm hj (words_done hindex)]
  | cons cur curs ih =>
    obtain ⟨hlt, hcur, hrest⟩ := words_left hindex
    obtain ⟨mid, hmid, hrun⟩ := StopRun.run_cons_inv hrun
    have hstep := h.step (hsec cur List.mem_cons_self) hcur hmid
    exact ih (fun c hc => hsec c (List.mem_cons_of_mem _ hc)) hrest hlt hstep.1 hrun

/-- Through the instruction loop `lastDumpAddr` counts the bytes. -/
theorem text_always {curs : List Current} {j : ℕ} {hex : VerilogHex}
    (hsec : ∀ cur ∈ curs, cur.sec = sec)
    (hindex : curs.map Current.index = indices (4 * j) (4 * n) 4)
    (hfilled : filled.length = sec.address) (hsync : Synced hex) (h : AtWord sec filled j hex) :
    StopRun.Always (VerilogHex.call host) Synced hex (curs.map (textCall sec)) := by
  induction curs generalizing j hex with
  | nil => exact StopRun.always_nil hsync
  | cons cur curs ih =>
    obtain ⟨-, hcur, hrest⟩ := words_left hindex
    refine StopRun.always_cons hsync fun mid hmid => ?_
    obtain ⟨hat, hfix, hin⟩ := h.step (hsec cur List.mem_cons_self) hcur hmid
    exact ih (fun c hc => hsec c (List.mem_cons_of_mem _ hc)) hrest
      (hat.synced hfilled hfix hin) hat

/-- The instruction loop runs through when every word decodes. -/
theorem text_returns {curs : List Current}
    (hindex : curs.map Current.index = indices 0 (4 * n) 4) (hlen : sec.contents.length = 4 * n)
    (hdec : ∀ i, 4 * i < 4 * n → (host.disas (sec.contents.drop (4 * i))).isSome)
    (hex : VerilogHex) : ∃ hex', hex.run host (curs.map (textCall sec)) = .ok hex' := by
  have hcall : ∀ call ∈ curs.map (textCall sec), ∀ u, True →
      ∃ v, VerilogHex.call host u call = .ok v ∧ True := by
    intro call hmem u _
    obtain ⟨cur, hcur, rfl⟩ := List.mem_map.mp hmem
    have hidx : cur.index ∈ indices 0 (4 * n) 4 := hindex ▸ List.mem_map_of_mem hcur
    obtain ⟨hlt, i, hi⟩ := (ForLoop.mem_indices (by decide)).mp hidx
    rw [Nat.zero_add] at hi
    have hin : cur.index + 4 ≤ sec.contents.length := by omega
    have hword : (host.disas (sec.contents.drop cur.index)).isSome := by
      rw [hi]
      exact hdec i (by omega)
    obtain ⟨v, hv⟩ := processDisAsmInstruction_returns hin hword u
    exact ⟨v, hv, trivial⟩
  obtain ⟨hex', hrun, -⟩ := StopRun.run_total (fun _ => True) hcall trivial
  exact ⟨hex', hrun⟩

end Text

end Cpu0Toolchain.Elf2Hex
