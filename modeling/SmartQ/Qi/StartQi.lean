import SmartQ.Firmware.Header

/-!
# Qi: loading U-Boot from the iNAND

Model of `do_read_inand` and `do_load_uboot` in
`qi/src/cpu/s3c6410/start_qi.c` (lines 226–258). The copy routine in the CPU's
ROM and the card size it keeps are parameters.

* `doLoadUboot_good`: with a working card Qi loads the `u_boot` section of copy 1
  if copy 1 has the right magic, and otherwise that of copy 0 if that one has.
-/

namespace SmartQ.Qi

open SmartQ.Lib SmartQ.Firmware

/-- What the ROM offers: the card size in `globalBlockSizeHide`, and
    `CopyMMCtoMem` on a start block, a number of blocks, an address and the
    memory. -/
structure Rom where
  blocks : ℕ
  copy : ℕ → ℕ → ℕ → Disk → ℤ × Disk

/-- `RD_MEM_ADDR`: where U-Boot is put and started. -/
@[irreducible]
def rdMemAddr : ℕ := 0x53000000

/-- `INAND_KERNEL0_BEND`: copy 0 begins this many blocks before the end of the device. -/
def inandKernel0Bend : ℕ := 16384

/-- `INAND_KERNEL1_BEND`: copy 1 begins this many blocks before the end of the device. -/
def inandKernel1Bend : ℕ := 32768

variable (rom : Rom)

/-- The second half of `do_read_inand` (lines 237–246), with the header in memory;
    the number of blocks is passed as a `u16`. -/
def readUboot (start : ℕ) (mem : Disk) : ℤ × Disk :=
  let fh := hdrAt mem rdMemAddr
  if fh.magic ≠ headMagic then (-1, mem)
  else
    rom.copy (add32 start (fh.stanza .uBoot).nand.offset)
      (((fh.stanza .uBoot).nand.size / nandBlkSize + 1) % 2 ^ 16) rdMemAddr mem

/-- `do_read_inand` (lines 228–247). The value of the header's copy is not looked
    at. -/
def doReadInand (offsetEndBlk : ℕ) (mem : Disk) : ℤ × Disk :=
  let start := sub32 rom.blocks offsetEndBlk
  readUboot rom start (rom.copy start 2 rdMemAddr mem).2

/-- `do_load_uboot` (lines 249–258): U-Boot is taken from copy 1, and from copy 0 if that fails.
    -/
def doLoadUboot (mem : Disk) : ℤ × Disk :=
  let r := doReadInand rom inandKernel1Bend mem
  if r.1 ≠ 1 then doReadInand rom inandKernel0Bend r.2 else r

/-! ## A working card -/

/-- The ROM copies what is on the card `d`. -/
def Rom.Good (d : Disk) : Prop :=
  ∀ start cnt addr mem, rom.copy start cnt addr mem =
    (1, store mem addr (load d (start * nandBlkSize) (cnt * nandBlkSize)))

/-- A working ROM on a card `d` of `n` blocks. -/
def Rom.ofCard (n : ℕ) (d : Disk) : Rom where
  blocks := n
  copy start cnt addr mem := (1, store mem addr (load d (start * nandBlkSize) (cnt * nandBlkSize)))

theorem Rom.ofCard_good (n : ℕ) (d : Disk) : (Rom.ofCard n d).Good d := fun _ _ _ _ => rfl

/-- The header of the copy that starts at block `start`. -/
def hdrAtBlock (d : Disk) (start : ℕ) : FWFileHdr := hdrAt d (start * nandBlkSize)

/-- The blocks of the `u_boot` section of that copy, as `do_read_inand` asks for
    them. -/
def ubootBlocks (d : Disk) (start : ℕ) : List Byte :=
  let st := (hdrAtBlock d start).stanza .uBoot
  load d (add32 start st.nand.offset * nandBlkSize)
    ((st.nand.size / nandBlkSize + 1) % 2 ^ 16 * nandBlkSize)

variable {rom} {d : Disk}

theorem hdrAt_copied (mem : Disk) (start : ℕ) :
    hdrAt (store mem rdMemAddr (load d (start * nandBlkSize) (2 * nandBlkSize))) rdMemAddr =
      hdrAtBlock d start := by
  refine hdrAt_congr (load_ext fun i hi => ?_)
  have hi' : i < 2 * nandBlkSize := by
    simp only [fwFileHdrSize, nandBlkSize] at *
    omega
  rw [store_apply_of_mem (by omega) (by rw [length_load]; omega), Nat.add_sub_cancel_left,
    byteAt_load hi']

theorem readUboot_good (h : rom.Good d) {mem : Disk} {start : ℕ}
    (hmem : hdrAt mem rdMemAddr = hdrAtBlock d start) :
    readUboot rom start mem =
      if (hdrAtBlock d start).magic = headMagic then (1, store mem rdMemAddr (ubootBlocks d start))
      else (-1, mem) := by
  unfold readUboot
  rw [hmem]
  simp only [ubootBlocks]
  by_cases hmagic : (hdrAtBlock d start).magic = headMagic
  · rw [if_neg (not_not.mpr hmagic), if_pos hmagic]
    exact h _ _ _ _
  · rw [if_pos hmagic, if_neg hmagic]

/-- One copy: its header, and behind it its `u_boot` section if it has the
    magic. -/
theorem doReadInand_good (h : rom.Good d) (offsetEndBlk : ℕ) (mem : Disk) :
    ∃ mem', hdrAt mem' rdMemAddr = hdrAtBlock d (sub32 rom.blocks offsetEndBlk) ∧
      doReadInand rom offsetEndBlk mem =
        if (hdrAtBlock d (sub32 rom.blocks offsetEndBlk)).magic = headMagic then
          (1, store mem' rdMemAddr (ubootBlocks d (sub32 rom.blocks offsetEndBlk)))
        else (-1, mem') := by
  generalize hstart : sub32 rom.blocks offsetEndBlk = start
  have hrun : doReadInand rom offsetEndBlk mem = readUboot rom start
      (store mem rdMemAddr (load d (start * nandBlkSize) (2 * nandBlkSize))) := by
    unfold doReadInand
    simp only [hstart, h start]
  exact ⟨_, hdrAt_copied mem start, hrun.trans (readUboot_good h (hdrAt_copied mem start))⟩

/-- The first block of the copy Qi takes: copy 1 if it has the magic. -/
def selectedBlock (rom : Rom) (d : Disk) : ℕ :=
  if (hdrAtBlock d (sub32 rom.blocks inandKernel1Bend)).magic = headMagic then
    sub32 rom.blocks inandKernel1Bend
  else sub32 rom.blocks inandKernel0Bend

/-- Qi loads `u_boot` from the selected copy when that has the magic. -/
theorem doLoadUboot_good (h : rom.Good d)
    (hmagic : (hdrAtBlock d (selectedBlock rom d)).magic = headMagic) (mem : Disk) :
    ∃ mem', doLoadUboot rom mem = (1, store mem' rdMemAddr (ubootBlocks d (selectedBlock rom d))) := by
  obtain ⟨mem1, -, h1⟩ := doReadInand_good h inandKernel1Bend mem
  by_cases hfirst : (hdrAtBlock d (sub32 rom.blocks inandKernel1Bend)).magic = headMagic
  · rw [if_pos hfirst] at h1
    have hret : (doReadInand rom inandKernel1Bend mem).1 = 1 := by rw [h1]
    refine ⟨mem1, ?_⟩
    rw [selectedBlock, if_pos hfirst, ← h1]
    exact if_neg (not_not.mpr hret)
  · rw [if_neg hfirst] at h1
    rw [selectedBlock, if_neg hfirst] at hmagic ⊢
    obtain ⟨mem0, -, h0⟩ := doReadInand_good h inandKernel0Bend mem1
    rw [if_pos hmagic] at h0
    have hret : (doReadInand rom inandKernel1Bend mem).1 ≠ 1 := by
      rw [h1]
      exact (by decide : (-1 : ℤ) ≠ 1)
    refine ⟨mem0, (if_pos hret).trans ?_⟩
    rw [← h0, h1]

end SmartQ.Qi
