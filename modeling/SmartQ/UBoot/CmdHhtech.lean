import SmartQ.Firmware.Header
import SmartQ.Lib.Prog
import SmartQ.UBoot.Mmc

/-!
# U-Boot: starting the firmware

Model of `do_read_inand`, `do_readsd_upgrade`, `do_start_firmware`,
`do_upgrade` and `boot_image` in `u-boot/board/samsung/smdk6410/cmd_hhtech.c`,
built with `CONFIG_SUPPORT_VFAT` and without the MMU. `do_bootm` and the FAT
reader are parameters. The run keeps the list of the block reads and boot
attempts it made.

* `doReadInand_ok`: a copy with the right magic is read from its own addresses.
* `doReadInand_magic`: a copy without it is given up after its header.
-/

namespace SmartQ.UBoot

open SmartQ.Lib SmartQ.Firmware

/-! ## The state and what it depends on -/

/-- A block read from the iNAND, or a call of `do_bootm`. -/
inductive Event
  | read (blk cnt addr : ℕ)
  | boot (addr addr2 : ℕ)
  deriving DecidableEq, Repr

/-- How a run leaves U-Boot: the kernel is entered, a null function pointer is
    called, or `do_firmware_error` switches the power off. -/
inductive Halt
  | kernel
  | nullCall
  | poweroff
  deriving DecidableEq, Repr

/-- The state of U-Boot: the memory, the selected slot, the machine, and a trace of the reads
    and boots. -/
structure St where
  mmc : Mmc
  mem : Disk
  machType : ℕ
  /-- `firmware` points to `Q5`. -/
  firmwareQ5 : Bool
  trace : List Event

/-- What the state does not hold. -/
structure Board where
  /-- The card in each slot; slot 1 is the iNAND. -/
  cards : ℕ → Option Card
  /-- `do_bootm` on an image and an initramfs address (0 for none): the value it
      returns, `none` when the kernel is entered, and the memory it leaves. -/
  bootm : ℕ → ℕ → Disk → Option ℤ × Disk
  /-- The firmware file on the SD card, for `firmware` pointing to `Q5` or not. -/
  sdFile : Bool → Option (List Byte)
  /-- The environment has `stop=y`. -/
  stop : Bool

/-- `INAND_DEV`: the number of the device with the two copies; the card slot is number 0. -/
def inandDev : ℕ := 1

/-- `INAND_KERNEL0_BEND`: copy 0 begins this many blocks, 8 MB, before the end of the device. -/
def inandKernel0Bend : ℕ := (8 <<< 20) / 512

/-- `INAND_KERNEL1_BEND`: copy 1 begins this many blocks, 16 MB, before the end of the device.
    -/
def inandKernel1Bend : ℕ := (16 <<< 20) / 512

/-- `INAND_MAX_READ_BLK`: a section of more blocks than this, 16 MB, is not read. -/
def inandMaxReadBlk : ℕ := 16 <<< 11

/-- `MEM_KERNEL_START`: where the kernel of a copy is loaded and booted. -/
@[irreducible]
def memKernelStart : ℕ := 0x50008000

/-- `MEM_INITRAMFS`: where the initramfs of a copy is loaded. -/
@[irreducible]
def memInitramfs : ℕ := 0x51000000

/-- `MEM_READ_FILE`: where headers are read and files from the card are loaded. -/
@[irreducible]
def memReadFile : ℕ := 0x54008000

/-- `MACH_TYPE_SMDK6410`: the machine number that is stored in the header in memory before a
    boot. -/
def machTypeSmdk6410 : ℕ := 1626

variable (b : Board)

/-! ## Reading -/

/-- `desc->block_read(dev, blk, cnt, addr)` on the current descriptor; the value
    is not looked at. -/
def blockRead (blk cnt addr : ℕ) : Prog St Halt Unit := do
  let s ← Prog.get
  Prog.exitIf (!s.mmc.mmcDev.blockRead) .nullCall
  Prog.modify fun s => { s with
    mem := match b.cards s.mmc.devSelect.toNat with
      | none => s.mem
      | some c => store s.mem addr (load c.contents (blk * nandBlkSize) (cnt * nandBlkSize))
    trace := s.trace ++ [.read blk cnt addr] }

/-- `memset(fh, 0, sizeof(firmware_fileheader))`: no header is left from a read before. -/
def clearHdr : Prog St Halt Unit :=
  Prog.modify fun s => { s with mem := store s.mem memReadFile (List.replicate fwFileHdrSize 0) }

/-- The platform taken from the header (lines 264–271, 307–310). -/
def setMachType (withFirmware : Bool) : Prog St Halt Unit :=
  Prog.modify fun s =>
    let fh := hdrAt s.mem memReadFile
    let s := if fh.machType = 0 then
        { s with mem := store s.mem (memReadFile + 48) (le32 machTypeSmdk6410) }
      else { s with machType := fh.machType }
    if withFirmware && (hdrAt s.mem memReadFile).machType = machTypeSmartQ5 then
      { s with firmwareQ5 := true }
    else s

/-- Reading one section of the copy `offsetEnd` blocks before the end
    (lines 274–277 and 280–283); `err` is returned when it is too large. -/
def readSection (offsetEnd : ℕ) (sec : Section) (addr : ℕ) (err : ℤ) : Prog St Halt ℤ := do
  let s ← Prog.get
  let stanza := (hdrAt s.mem memReadFile).stanza sec
  let blkAddr := add32 (sub32 s.mmc.mmcDev.lba offsetEnd) stanza.nand.offset
  let blkNum := stanza.nand.size / nandBlkSize + 1
  if blkNum > inandMaxReadBlk then pure err
  else do
    blockRead b blkAddr blkNum addr
    pure 0

/-- The body of `do_read_inand` behind the header read (lines 260–286). -/
def readSections (offsetEnd : ℕ) (flag : Bool) : Prog St Halt ℤ := do
  let s ← Prog.get
  if (hdrAt s.mem memReadFile).magic ≠ headMagic then pure (-2)
  else do
    setMachType true
    let ret ← readSection b offsetEnd .zimage memKernelStart (-3)
    if ret ≠ 0 || !flag then pure ret
    else readSection b offsetEnd .initramfs memInitramfs (-4)

/-- `mmc_get_dev(dev)`: whether it returned a descriptor. -/
def getDev (dev : ℕ) : Prog St Halt Bool :=
  Prog.step fun s =>
    ((mmcGetDev b.cards dev s.mmc).1.isSome,
      { s with mmc := (mmcGetDev b.cards dev s.mmc).2 })

/-- `do_read_inand` (lines 247–287): the header of a copy is read and checked, and its sections
    are loaded. -/
def doReadInand (dev offsetEnd : ℕ) (flag : Bool) : Prog St Halt ℤ := do
  let found ← getDev b dev
  if !found then pure (-1)
  else do
    clearHdr
    let s ← Prog.get
    blockRead b (sub32 s.mmc.mmcDev.lba offsetEnd) 1 memReadFile
    readSections b offsetEnd flag

/-! ## Booting -/

/-- `do_bootm` has returned, or it has not and the kernel runs. -/
def afterBootm : Option ℤ → Prog St Halt ℤ
  | some ret => pure ret
  | none => Prog.exit .kernel

/-- `do_bootm`, as the boot path sees it: a call that is noted with its two addresses, and
    returns only if nothing was started. -/
def doBootm (addr addr2 : ℕ) : Prog St Halt ℤ := do
  let ret ← Prog.step fun s => ((b.bootm addr addr2 s.mem).1, { s with
    mem := (b.bootm addr addr2 s.mem).2
    trace := s.trace ++ [.boot addr addr2] })
  afterBootm ret

/-- `boot_image` (lines 917–945): the slot is released before `do_bootm`. -/
def bootImage (addr addr2 : ℕ) : Prog St Halt ℤ := do
  Prog.modify fun s => { s with mmc := mmcReleaseDev s.mmc }
  doBootm b addr addr2

/-- `load_sd_file(0, firmware, addr, size)` (lines 833–867); size 0 is the whole
    file. -/
def loadSdFile (addr size : ℕ) : Prog St Halt ℤ := do
  let found ← getDev b 0
  let s ← Prog.get
  match b.sdFile s.firmwareQ5 with
  | some file =>
    if found then do
      let bytes := if size = 0 then file else file.take size
      Prog.modify fun s => { s with mem := store s.mem addr bytes }
      pure bytes.length
    else pure (-2)
  | none => pure (-2)

/-- `memcpy(dst, (char *)fh + sec.file.offset, sec.file.size)`. -/
def copySection (sec : Section) (dst : ℕ) : Prog St Halt Unit :=
  Prog.modify fun s =>
    let ext := ((hdrAt s.mem memReadFile).stanza sec).file
    { s with mem := store s.mem dst (load s.mem (memReadFile + ext.offset) ext.size) }

/-- `do_readsd_upgrade` (lines 289–331): the firmware file is loaded from the card, twice, and
    its kernel booted. -/
def doReadsdUpgrade : Prog St Halt ℤ := do
  clearHdr
  let size ← loadSdFile b memReadFile nandBlkSize
  let s ← Prog.get
  if 0 < size ∧ (hdrAt s.mem memReadFile).magic ≠ headMagic then pure (-2)
  else do
    setMachType false
    let s ← Prog.get
    let fh := hdrAt s.mem memReadFile
    let last := if (fh.stanza .initramfs).file.offset > (fh.stanza .zimage).file.offset then
      (fh.stanza .initramfs).file else (fh.stanza .zimage).file
    let size ← loadSdFile b memReadFile (add32 last.offset last.size)
    let s ← Prog.get
    if 0 < size ∧ (hdrAt s.mem memReadFile).magic ≠ headMagic then pure (-2)
    else do
      copySection .zimage memKernelStart
      copySection .initramfs memInitramfs
      let _ ← bootImage b memKernelStart memInitramfs
      pure 0

/-- How a caller boots a copy: whether it reads the initramfs, and the second
    address it passes to `boot_image`. -/
structure Attempt where
  flag : Bool
  addr2 : ℕ

/-- The attempts of `do_start_firmware`. -/
def Attempt.start : Attempt := ⟨false, 0⟩

/-- The attempts of `do_upgrade`. -/
def Attempt.upgrade : Attempt := ⟨true, memInitramfs⟩

/-- `do_read_inand(…) || boot_image(…)` for the copy `offsetEnd` blocks before
    the end. -/
def tryCopy (a : Attempt) (offsetEnd : ℕ) : Prog St Halt Bool := do
  let ret ← doReadInand b inandDev offsetEnd a.flag
  if ret ≠ 0 then pure true
  else do
    let ret ← bootImage b memKernelStart a.addr2
    pure (ret ≠ 0)

/-- The two copies in turn: whether both failed. -/
def tryCopies (a : Attempt) : Prog St Halt Bool := do
  let failed ← tryCopy b a inandKernel1Bend
  if failed then tryCopy b a inandKernel0Bend else pure false

/-- `do_start_firmware` (lines 334–387): nothing if `stop` is set; else the copies, the card if
    the flag says so, and the power is switched off if the copies have failed. -/
def doStartFirmware (flag : Bool) : Prog St Halt ℤ :=
  if b.stop then pure 0
  else do
    let failed ← tryCopies b .start
    Prog.doIf flag (do let _ ← doReadsdUpgrade b)
    Prog.exitIf failed .poweroff
    pure 0

/-- `do_upgrade` (lines 389–416): the copies are tried if the flag says so, and then the card.
    -/
def doUpgrade (flag : Bool) : Prog St Halt ℤ := do
  Prog.doIf flag (do let _ ← tryCopies b .upgrade)
  let _ ← doReadsdUpgrade b
  pure 0

/-! ## What `do_read_inand` reads -/

/-- The first block of the copy `offsetEnd` blocks before the end of a card. -/
def Card.base (c : Card) (offsetEnd : ℕ) : ℕ := sub32 c.blocks offsetEnd

/-- The header of that copy. -/
def Card.hdr (c : Card) (offsetEnd : ℕ) : FWFileHdr :=
  hdrAt c.contents (c.base offsetEnd * nandBlkSize)

variable {b}

/-- The header block read to memory is the header on the card. -/
theorem hdrAt_store (mem contents : Disk) (a addr : ℕ) :
    hdrAt (store mem addr (load contents a (1 * nandBlkSize))) addr = hdrAt contents a := by
  refine hdrAt_congr (load_ext fun i hi => ?_)
  have hi' : i < 1 * nandBlkSize := by
    simp only [fwFileHdrSize, nandBlkSize] at *
    omega
  rw [store_apply_of_mem (by omega) (by rw [length_load]; omega), Nat.add_sub_cancel_left,
    byteAt_load hi']

/-- Filling in the machine type leaves the stanzas alone. -/
theorem stanza_setMachType {withFirmware : Bool} {s s' : St} {r : Except Halt Unit}
    (h : setMachType withFirmware s = some (r, s')) (sec : Section) :
    (hdrAt s'.mem memReadFile).stanza sec = (hdrAt s.mem memReadFile).stanza sec := by
  have hmem : s'.mem = s.mem ∨
      s'.mem = store s.mem (memReadFile + 48) (le32 machTypeSmdk6410) := by
    cases h
    simp only
    split_ifs <;> simp
  rcases hmem with hmem | hmem
  · rw [hmem]
  · have hbyte : ∀ i, 52 ≤ i →
        byteAt (hdrAt s'.mem memReadFile).bytes i = byteAt (hdrAt s.mem memReadFile).bytes i := by
      intro i hi
      by_cases hlt : i < fwFileHdrSize
      · rw [hdrAt, hdrAt, byteAt_load hlt, byteAt_load hlt, hmem]
        exact store_apply_of_ge (by rw [length_le32]; omega)
      · simp only [byteAt, hdrAt]
        rw [List.getD_eq_default _ _ (by rw [length_load]; omega),
          List.getD_eq_default _ _ (by rw [length_load]; omega)]
    have hword : ∀ o, 52 ≤ o →
        u32At (hdrAt s'.mem memReadFile).bytes o = u32At (hdrAt s.mem memReadFile).bytes o := by
      intro o ho
      simp only [u32At, hbyte o ho, hbyte (o + 1) (by omega), hbyte (o + 2) (by omega),
        hbyte (o + 3) (by omega)]
    have ho : 52 ≤ fwStanzaOffset sec := by
      unfold fwStanzaOffset
      omega
    simp only [FWFileHdr.stanza, stanzaAt, hword _ ho, hword (fwStanzaOffset sec + 4) (by omega),
      hword (fwStanzaOffset sec + 8) (by omega), hword (fwStanzaOffset sec + 12) (by omega),
      hword (fwStanzaOffset sec + 16) (by omega)]

/-- The state after a block read from the card `c`. -/
def St.read (s : St) (c : Card) (blk cnt addr : ℕ) : St :=
  { s with
    mem := store s.mem addr (load c.contents (blk * nandBlkSize) (cnt * nandBlkSize))
    trace := s.trace ++ [.read blk cnt addr] }

@[simp] theorem St.read_mmc (s : St) (c : Card) (blk cnt addr : ℕ) :
    (s.read c blk cnt addr).mmc = s.mmc := (rfl)

@[simp] theorem St.read_trace (s : St) (c : Card) (blk cnt addr : ℕ) :
    (s.read c blk cnt addr).trace = s.trace ++ [.read blk cnt addr] := (rfl)

@[simp] theorem St.read_mem (s : St) (c : Card) (blk cnt addr : ℕ) :
    (s.read c blk cnt addr).mem =
      store s.mem addr (load c.contents (blk * nandBlkSize) (cnt * nandBlkSize)) := (rfl)

theorem blockRead_apply {c : Card} {s : St} (hcard : b.cards inandDev = some c)
    (hmmc : s.mmc = ⟨inandDev, c.desc⟩) (blk cnt addr : ℕ) :
    blockRead b blk cnt addr s = some (.ok (), s.read c blk cnt addr) := by
  have hslot : b.cards s.mmc.devSelect.toNat = some c := by
    rw [hmmc]
    exact hcard
  rw [blockRead, Prog.get_bind, Prog.exitIf_of_not (by simp [hmmc, Card.desc])]
  simp [hslot, St.read]

/-- The card in slot 1 is at hand: the slot is not selected yet, or it is and
    its descriptor is the card's. -/
def CardReady (b : Board) (c : Card) (s : St) : Prop :=
  b.cards inandDev = some c ∧ (s.mmc.devSelect = inandDev → s.mmc = ⟨inandDev, c.desc⟩)

theorem getDev_apply {c : Card} {s : St} (h : CardReady b c s) :
    getDev b inandDev s = some (.ok true, { s with mmc := ⟨inandDev, c.desc⟩ }) := by
  have hget : mmcGetDev b.cards inandDev s.mmc = (some c.desc, ⟨inandDev, c.desc⟩) := by
    by_cases hsel : s.mmc.devSelect = inandDev
    · rw [mmcGetDev_selected _ hsel, h.2 hsel]
    · rw [mmcGetDev, if_pos (fun heq => hsel heq.symm), h.1]
      rfl
  simp [getDev, hget]

/-- The header read of `do_read_inand`. -/
theorem doReadInand_hdr {c : Card} {s : St} (h : CardReady b c s) (offsetEnd : ℕ) (flag : Bool) :
    ∃ s1, doReadInand b inandDev offsetEnd flag s = readSections b offsetEnd flag s1 ∧
      s1.mmc = ⟨inandDev, c.desc⟩ ∧ hdrAt s1.mem memReadFile = c.hdr offsetEnd ∧
      s1.trace = s.trace ++ [.read (c.base offsetEnd) 1 memReadFile] := by
  refine ⟨{ s with
    mmc := ⟨inandDev, c.desc⟩
    mem := store (store s.mem memReadFile (List.replicate fwFileHdrSize 0)) memReadFile
      (load c.contents (c.base offsetEnd * nandBlkSize) (1 * nandBlkSize))
    trace := s.trace ++ [.read (c.base offsetEnd) 1 memReadFile] }, ?_, rfl, hdrAt_store _ _ _ _, rfl⟩
  rw [doReadInand, Prog.bind_ok (getDev_apply h)]
  simp only [Bool.not_true, Bool.false_eq_true, if_false, clearHdr, Prog.modify_bind, Prog.get_bind]
  have hbase : sub32 c.desc.lba offsetEnd = c.base offsetEnd := rfl
  rw [hbase]
  exact Prog.bind_ok (blockRead_apply h.1 rfl (c.base offsetEnd) 1 memReadFile)

/-- A copy without the magic is given up after its header block. -/
theorem doReadInand_magic {c : Card} {s : St} (h : CardReady b c s) {offsetEnd : ℕ} (flag : Bool)
    (hmagic : (c.hdr offsetEnd).magic ≠ headMagic) :
    ∃ s', doReadInand b inandDev offsetEnd flag s = some (.ok (-2), s') ∧
      s'.mmc = ⟨inandDev, c.desc⟩ ∧
      s'.trace = s.trace ++ [.read (c.base offsetEnd) 1 memReadFile] := by
  obtain ⟨s1, heq, hmmc, hhdr, htrace⟩ := doReadInand_hdr h offsetEnd flag
  refine ⟨s1, ?_, hmmc, htrace⟩
  rw [heq, readSections, Prog.get_bind, hhdr, if_pos hmagic]
  rfl

/-- The read of one section of a copy with header `fh` at block `base`. -/
def sectionRead (fh : FWFileHdr) (base : ℕ) (sec : Section) (addr : ℕ) : Event :=
  .read (add32 base (fh.stanza sec).nand.offset) ((fh.stanza sec).nand.size / nandBlkSize + 1) addr

/-- The reads of a copy: its header, its kernel and, if asked for, its initramfs. -/
def copyReads (fh : FWFileHdr) (base : ℕ) (flag : Bool) : List Event :=
  .read base 1 memReadFile :: sectionRead fh base .zimage memKernelStart ::
    (if flag then [sectionRead fh base .initramfs memInitramfs] else [])

/-- The sections read with `flag` pass the guard on their size. -/
def SizesOk (fh : FWFileHdr) (flag : Bool) : Prop :=
  (fh.stanza .zimage).nand.size / nandBlkSize + 1 ≤ inandMaxReadBlk ∧
    (flag = true → (fh.stanza .initramfs).nand.size / nandBlkSize + 1 ≤ inandMaxReadBlk)

theorem mmc_setMachType {withFirmware : Bool} {s s' : St} {r : Except Halt Unit}
    (h : setMachType withFirmware s = some (r, s')) :
    r = .ok () ∧ s'.mmc = s.mmc ∧ s'.trace = s.trace := by
  cases h
  refine ⟨rfl, ?_, ?_⟩ <;>
  · simp only
    split_ifs <;> rfl

/-- One section is read from its place behind the header. -/
theorem readSection_ok {c : Card} {s : St} (hcard : b.cards inandDev = some c)
    (hmmc : s.mmc = ⟨inandDev, c.desc⟩) (offsetEnd : ℕ) {sec : Section} {st : Stanza}
    (hst : (hdrAt s.mem memReadFile).stanza sec = st)
    (hsize : st.nand.size / nandBlkSize + 1 ≤ inandMaxReadBlk) (addr : ℕ) (err : ℤ) :
    readSection b offsetEnd sec addr err s = some (.ok 0,
      s.read c (add32 (c.base offsetEnd) st.nand.offset) (st.nand.size / nandBlkSize + 1) addr) := by
  have hlba : sub32 s.mmc.mmcDev.lba offsetEnd = c.base offsetEnd := by
    rw [hmmc]
    rfl
  have hread := blockRead_apply hcard hmmc (add32 (c.base offsetEnd) st.nand.offset)
    (st.nand.size / nandBlkSize + 1) addr
  have hrun : readSection b offsetEnd sec addr err s =
      (blockRead b (add32 (c.base offsetEnd) st.nand.offset) (st.nand.size / nandBlkSize + 1) addr
        >>= fun _ => pure 0) s := by
    rw [readSection, Prog.get_bind, hst, hlba, if_neg (by omega)]
  rw [Prog.bind_ok hread] at hrun
  exact hrun

/-- A kernel below 16 MiB does not reach the header in memory. -/
theorem hdrAt_kernel (mem : Disk) {bs : List Byte} (h : bs.length ≤ inandMaxReadBlk * nandBlkSize) :
    hdrAt (store mem memKernelStart bs) memReadFile = hdrAt mem memReadFile := by
  refine hdrAt_congr (load_store_disjoint (.inl ?_))
  have hgap : memKernelStart + inandMaxReadBlk * nandBlkSize ≤ memReadFile := by
    unfold memKernelStart memReadFile
    decide
  omega

/-- A copy with the right magic and sections below 16 MiB is read from its own
    addresses. -/
theorem doReadInand_ok {c : Card} {s : St} (h : CardReady b c s) {offsetEnd : ℕ} {flag : Bool}
    (hmagic : (c.hdr offsetEnd).magic = headMagic) (hsize : SizesOk (c.hdr offsetEnd) flag) :
    ∃ s', doReadInand b inandDev offsetEnd flag s = some (.ok 0, s') ∧
      s'.mmc = ⟨inandDev, c.desc⟩ ∧
      s'.trace = s.trace ++ copyReads (c.hdr offsetEnd) (c.base offsetEnd) flag := by
  obtain ⟨s1, heq, hmmc, hhdr, htrace⟩ := doReadInand_hdr h offsetEnd flag
  obtain ⟨s2, hset⟩ : ∃ s2, setMachType true s1 = some (.ok (), s2) := ⟨_, rfl⟩
  obtain ⟨-, hmmc2, htrace2⟩ := mmc_setMachType hset
  have hstanza := stanza_setMachType hset
  rw [hhdr] at hstanza
  rw [hmmc] at hmmc2
  have hread := readSection_ok h.1 hmmc2 offsetEnd (hstanza .zimage) hsize.1 memKernelStart (-3)
  have hrun : doReadInand b inandDev offsetEnd flag s =
      (readSection b offsetEnd .zimage memKernelStart (-3) >>= fun ret =>
        if ret ≠ 0 || !flag then pure ret
        else readSection b offsetEnd .initramfs memInitramfs (-4)) s2 := by
    rw [heq, readSections, Prog.get_bind, hhdr, if_neg (not_not.mpr hmagic), Prog.bind_ok hset]
  rw [Prog.bind_ok hread] at hrun
  cases flag with
  | false =>
    have hdone : doReadInand b inandDev offsetEnd false s = some (.ok 0, s2.read c
        (add32 (c.base offsetEnd) ((c.hdr offsetEnd).stanza .zimage).nand.offset)
        (((c.hdr offsetEnd).stanza .zimage).nand.size / nandBlkSize + 1) memKernelStart) := by
      rw [hrun]
      simp
    refine ⟨_, hdone, by rw [St.read_mmc, hmmc2], ?_⟩
    rw [St.read_trace, htrace2, htrace, List.append_assoc]
    rfl
  | true =>
    have hkernel : (hdrAt (s2.read c
        (add32 (c.base offsetEnd) ((c.hdr offsetEnd).stanza .zimage).nand.offset)
        (((c.hdr offsetEnd).stanza .zimage).nand.size / nandBlkSize + 1) memKernelStart).mem
          memReadFile).stanza .initramfs = (c.hdr offsetEnd).stanza .initramfs := by
      rw [St.read_mem, hdrAt_kernel _ (by rw [length_load]; exact Nat.mul_le_mul_right _ hsize.1),
        hstanza]
    have hread2 := readSection_ok h.1 (by rw [St.read_mmc, hmmc2]) offsetEnd hkernel (hsize.2 rfl)
      memInitramfs (-4)
    have hdone : doReadInand b inandDev offsetEnd true s = some (.ok 0, (s2.read c
        (add32 (c.base offsetEnd) ((c.hdr offsetEnd).stanza .zimage).nand.offset)
        (((c.hdr offsetEnd).stanza .zimage).nand.size / nandBlkSize + 1) memKernelStart).read c
        (add32 (c.base offsetEnd) ((c.hdr offsetEnd).stanza .initramfs).nand.offset)
        (((c.hdr offsetEnd).stanza .initramfs).nand.size / nandBlkSize + 1) memInitramfs) := by
      rw [hrun, ← hread2]
      simp
    refine ⟨_, hdone, ?_, ?_⟩
    · rw [St.read_mmc, St.read_mmc, hmmc2]
    · rw [St.read_trace, St.read_trace, htrace2, htrace, List.append_assoc, List.append_assoc]
      rfl

/-- Without the magic in copy 1 it is copy 0's turn. -/
theorem tryCopies_magic {c : Card} {s : St} (a : Attempt) (h : CardReady b c s)
    (hmagic : (c.hdr inandKernel1Bend).magic ≠ headMagic) :
    ∃ s', tryCopies b a s = tryCopy b a inandKernel0Bend s' ∧ s'.mmc = ⟨inandDev, c.desc⟩ ∧
      s'.trace = s.trace ++ [.read (c.base inandKernel1Bend) 1 memReadFile] := by
  obtain ⟨s', hskip, hmmc, htrace⟩ := doReadInand_magic h a.flag hmagic
  have hfailed : tryCopy b a inandKernel1Bend s = some (.ok true, s') := by
    rw [tryCopy]
    exact Prog.bind_ok hskip
  refine ⟨s', ?_, hmmc, htrace⟩
  rw [tryCopies, Prog.bind_ok hfailed]
  rfl

end SmartQ.UBoot
