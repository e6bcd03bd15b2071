import SmartQ.UBoot.Fallback

/-!
# Reading a copy from a flash that can fail

`do_read_inand` calls `block_read` three times and looks at none of its values;
`mmc_read_block` in `u-boot/cpu/s3c64xx/vfat_hs_mmc.c` (lines 972–1027) prints
what went wrong and returns 1 in any case. Here every block read has an outcome,
and the memory a failed one leaves is whatever the transfer delivered. Kernel and
initramfs are read to fixed addresses that are less than 16 MiB apart.

* `doReadInandAs_done`: without failures it is the reader of `CmdHhtech`.
* `flashRead_iff`: when a copy for which 0 is returned is in memory.
-/

namespace SmartQ.UBoot

open SmartQ.Lib SmartQ.Firmware

/-! ## The reader -/

/-- How a block read went. A failed one did not deliver the blocks it was asked
    for; the transfer may have stored other bytes. -/
inductive Outcome
  | done
  | failed (got : List Byte)
  deriving DecidableEq, Repr

/-- What a read of `cnt` blocks from `blk` on puts into memory. -/
def Outcome.bytes (o : Outcome) (d : Disk) (blk cnt : ℕ) : List Byte :=
  match o with
  | .done => load d (blk * nandBlkSize) (cnt * nandBlkSize)
  | .failed got => got.take (cnt * nandBlkSize)

theorem Outcome.length_bytes_le (o : Outcome) (d : Disk) (blk cnt : ℕ) :
    (o.bytes d blk cnt).length ≤ cnt * nandBlkSize := by
  cases o with
  | done => exact (length_load _ _ _).le
  | failed got => exact List.length_take_le _ _

/-- The outcomes of the three reads. -/
structure Outcomes where
  hdr : Outcome
  kernel : Outcome
  initramfs : Outcome

/-- No read fails: not that of the header, of the kernel or of the initramfs. -/
def Outcomes.AllDone (o : Outcomes) : Prop :=
  o.hdr = .done ∧ o.kernel = .done ∧ o.initramfs = .done

variable (b : Board)

/-- `desc->block_read(dev, blk, cnt, addr)`; its value is not looked at. -/
def blockReadAs (o : Outcome) (blk cnt addr : ℕ) : Prog St Halt Unit := do
  let s ← Prog.get
  Prog.exitIf (!s.mmc.mmcDev.blockRead) .nullCall
  Prog.modify fun s => { s with
    mem := match b.cards s.mmc.devSelect.toNat with
      | none => s.mem
      | some c => store s.mem addr (o.bytes c.contents blk cnt)
    trace := s.trace ++ [.read blk cnt addr] }

/-- Reading one section of the copy `offsetEnd` blocks before the end
    (lines 274–277 and 280–283); `err` is returned when it is too large. -/
def readSectionAs (o : Outcome) (offsetEnd : ℕ) (sec : Section) (addr : ℕ) (err : ℤ) :
    Prog St Halt ℤ := do
  let s ← Prog.get
  let stanza := (hdrAt s.mem memReadFile).stanza sec
  let blkAddr := add32 (sub32 s.mmc.mmcDev.lba offsetEnd) stanza.nand.offset
  let blkNum := stanza.nand.size / nandBlkSize + 1
  if blkNum > inandMaxReadBlk then pure err
  else do
    blockReadAs b o blkAddr blkNum addr
    pure 0

/-- The body of `do_read_inand` behind the header read (lines 260–286). -/
def readSectionsAs (o : Outcomes) (offsetEnd : ℕ) (flag : Bool) : Prog St Halt ℤ := do
  let s ← Prog.get
  if (hdrAt s.mem memReadFile).magic ≠ headMagic then pure (-2)
  else do
    setMachType true
    let ret ← readSectionAs b o.kernel offsetEnd .zimage memKernelStart (-3)
    if ret ≠ 0 || !flag then pure ret
    else readSectionAs b o.initramfs offsetEnd .initramfs memInitramfs (-4)

/-- `do_read_inand` (lines 247–287), with an outcome for each of its three reads. -/
def doReadInandAs (o : Outcomes) (dev offsetEnd : ℕ) (flag : Bool) : Prog St Halt ℤ := do
  let found ← getDev b dev
  if !found then pure (-1)
  else do
    clearHdr
    let s ← Prog.get
    blockReadAs b o.hdr (sub32 s.mmc.mmcDev.lba offsetEnd) 1 memReadFile
    readSectionsAs b o offsetEnd flag

/-- Without failures it is the reader whose reads succeed. -/
theorem doReadInandAs_done (dev offsetEnd : ℕ) (flag : Bool) :
    doReadInandAs b ⟨.done, .done, .done⟩ dev offsetEnd flag = doReadInand b dev offsetEnd flag :=
  (rfl)

variable {b}

/-! ## One read -/

/-- The state after a block read from the card `c`. -/
def St.readAs (s : St) (c : Card) (o : Outcome) (blk cnt addr : ℕ) : St :=
  { s with
    mem := store s.mem addr (o.bytes c.contents blk cnt)
    trace := s.trace ++ [.read blk cnt addr] }

@[simp] theorem St.readAs_mmc (s : St) (c : Card) (o : Outcome) (blk cnt addr : ℕ) :
    (s.readAs c o blk cnt addr).mmc = s.mmc := (rfl)

@[simp] theorem St.readAs_mem (s : St) (c : Card) (o : Outcome) (blk cnt addr : ℕ) :
    (s.readAs c o blk cnt addr).mem = store s.mem addr (o.bytes c.contents blk cnt) := (rfl)

theorem blockReadAs_apply {c : Card} {s : St} (hcard : b.cards inandDev = some c)
    (hmmc : s.mmc = ⟨inandDev, c.desc⟩) (o : Outcome) (blk cnt addr : ℕ) :
    blockReadAs b o blk cnt addr s = some (.ok (), s.readAs c o blk cnt addr) := by
  have hslot : b.cards s.mmc.devSelect.toNat = some c := by
    rw [hmmc]
    exact hcard
  rw [blockReadAs, Prog.get_bind, Prog.exitIf_of_not (by simp [hmmc, Card.desc])]
  simp [hslot, St.readAs]

/-- The header in memory behind the header read: what the read delivered, over
    zeros. -/
def foundHdr (c : Card) (offsetEnd : ℕ) (o : Outcome) : FWFileHdr :=
  hdrAt (store (fun _ => 0) 0 (o.bytes c.contents (c.base offsetEnd) 1)) 0

theorem foundHdr_done (c : Card) (offsetEnd : ℕ) : foundHdr c offsetEnd .done = c.hdr offsetEnd :=
  hdrAt_store _ _ _ _

theorem hdrAt_clear (mem : Disk) (a : ℕ) (bs : List Byte) :
    hdrAt (store (store mem a (List.replicate fwFileHdrSize 0)) a bs) a =
      hdrAt (store (fun _ => 0) 0 bs) 0 := by
  apply hdrAt_congr
  apply load_ext
  intro i hi
  by_cases hlt : i < bs.length
  · rw [store_apply_of_mem (by omega) (by omega), store_apply_of_mem (by omega) (by omega),
      Nat.add_sub_cancel_left, Nat.sub_zero, Nat.zero_add]
  · have hzero : store mem a (List.replicate fwFileHdrSize 0) (a + i) = 0 := by
      rw [store_apply_of_mem (by omega) (by rw [List.length_replicate]; omega),
        Nat.add_sub_cancel_left, byteAt, List.getD_replicate 0 hi]
    have hleft : store (store mem a (List.replicate fwFileHdrSize 0)) a bs (a + i) = 0 :=
      (store_apply_of_ge (by omega)).trans hzero
    have hright : store (fun _ => 0) 0 bs (0 + i) = 0 := store_apply_of_ge (by omega)
    rw [hleft, hright]

/-- The header read. -/
theorem doReadInandAs_hdr {c : Card} {s : St} (h : CardReady b c s) (o : Outcomes)
    (offsetEnd : ℕ) (flag : Bool) :
    ∃ s1, doReadInandAs b o inandDev offsetEnd flag s = readSectionsAs b o offsetEnd flag s1 ∧
      s1.mmc = ⟨inandDev, c.desc⟩ ∧
      hdrAt s1.mem memReadFile = foundHdr c offsetEnd o.hdr := by
  refine ⟨{ s with
    mmc := ⟨inandDev, c.desc⟩
    mem := store (store s.mem memReadFile (List.replicate fwFileHdrSize 0)) memReadFile
      (o.hdr.bytes c.contents (c.base offsetEnd) 1)
    trace := s.trace ++ [.read (c.base offsetEnd) 1 memReadFile] }, ?_, rfl, hdrAt_clear _ _ _⟩
  rw [doReadInandAs, Prog.bind_ok (getDev_apply h)]
  simp only [Bool.not_true, Bool.false_eq_true, if_false, clearHdr, Prog.modify_bind, Prog.get_bind]
  have hbase : sub32 c.desc.lba offsetEnd = c.base offsetEnd := rfl
  rw [hbase]
  exact Prog.bind_ok (blockReadAs_apply h.1 rfl o.hdr (c.base offsetEnd) 1 memReadFile)

/-- One section. -/
theorem readSectionAs_eq {c : Card} {s : St} (hcard : b.cards inandDev = some c)
    (hmmc : s.mmc = ⟨inandDev, c.desc⟩) (o : Outcome) (offsetEnd : ℕ) {sec : Section} {st : Stanza}
    (hst : (hdrAt s.mem memReadFile).stanza sec = st) (addr : ℕ) (err : ℤ) :
    readSectionAs b o offsetEnd sec addr err s =
      if st.nand.size / nandBlkSize + 1 > inandMaxReadBlk then some (.ok err, s)
      else some (.ok 0, s.readAs c o (add32 (c.base offsetEnd) st.nand.offset)
        (st.nand.size / nandBlkSize + 1) addr) := by
  have hlba : sub32 s.mmc.mmcDev.lba offsetEnd = c.base offsetEnd := by
    rw [hmmc]
    rfl
  rw [readSectionAs, Prog.get_bind, hst, hlba]
  by_cases hbig : st.nand.size / nandBlkSize + 1 > inandMaxReadBlk
  · rw [if_pos hbig, if_pos hbig]
    rfl
  · rw [if_neg hbig, if_neg hbig]
    exact Prog.bind_ok (blockReadAs_apply hcard hmmc o _ _ addr)

/-! ## The three reads -/

/-- The bytes the read of a section delivers, by the header `fh`. -/
def sectionBytes (c : Card) (offsetEnd : ℕ) (fh : FWFileHdr) (o : Outcome) (sec : Section) :
    List Byte :=
  o.bytes c.contents (add32 (c.base offsetEnd) (fh.stanza sec).nand.offset)
    ((fh.stanza sec).nand.size / nandBlkSize + 1)

/-- A kernel the guard admits does not reach the header. -/
theorem hdrAt_section (mem : Disk) (c : Card) (offsetEnd : ℕ) {fh : FWFileHdr} (o : Outcome)
    (h : (fh.stanza .zimage).nand.size / nandBlkSize + 1 ≤ inandMaxReadBlk) :
    hdrAt (store mem memKernelStart (sectionBytes c offsetEnd fh o .zimage)) memReadFile =
      hdrAt mem memReadFile :=
  hdrAt_kernel mem ((o.length_bytes_le _ _ _).trans (Nat.mul_le_mul_right _ h))

section Run

variable {c : Card} {s : St} {o : Outcomes} {offsetEnd : ℕ} {fh : FWFileHdr} (h : CardReady b c s)
  (hfh : foundHdr c offsetEnd o.hdr = fh)

include h hfh

/-- A header with the magic: its sections are read. -/
theorem doReadInandAs_magic (hmagic : fh.magic = headMagic) :
    ∃ s2, s2.mmc = ⟨inandDev, c.desc⟩ ∧
      (∀ sec, (hdrAt s2.mem memReadFile).stanza sec = fh.stanza sec) ∧
      doReadInandAs b o inandDev offsetEnd true s =
        (readSectionAs b o.kernel offsetEnd .zimage memKernelStart (-3) >>= fun ret =>
          if ret ≠ 0 || !true then pure ret
          else readSectionAs b o.initramfs offsetEnd .initramfs memInitramfs (-4)) s2 := by
  obtain ⟨s1, heq, hmmc, hhdr⟩ := doReadInandAs_hdr h o offsetEnd true
  obtain ⟨s2, hset⟩ : ∃ s2, setMachType true s1 = some (.ok (), s2) := ⟨_, rfl⟩
  obtain ⟨-, hmmc2, -⟩ := mmc_setMachType hset
  have hstanza := stanza_setMachType hset
  rw [hhdr, hfh] at hstanza
  rw [hmmc] at hmmc2
  refine ⟨s2, hmmc2, hstanza, ?_⟩
  rw [heq, readSectionsAs, Prog.get_bind, hhdr, hfh, if_neg (not_not.mpr hmagic),
    Prog.bind_ok hset]

/-- A kernel the guard admits: the initramfs is read over what its read left. -/
theorem doReadInandAs_kernel (hmagic : fh.magic = headMagic)
    (hz : (fh.stanza .zimage).nand.size / nandBlkSize + 1 ≤ inandMaxReadBlk) :
    ∃ s3 mem, s3.mmc = ⟨inandDev, c.desc⟩ ∧
      (hdrAt s3.mem memReadFile).stanza .initramfs = fh.stanza .initramfs ∧
      s3.mem = store mem memKernelStart (sectionBytes c offsetEnd fh o.kernel .zimage) ∧
      doReadInandAs b o inandDev offsetEnd true s =
        readSectionAs b o.initramfs offsetEnd .initramfs memInitramfs (-4) s3 := by
  obtain ⟨s2, hmmc, hstanza, hrun⟩ := doReadInandAs_magic h hfh hmagic
  have hread := readSectionAs_eq h.1 hmmc o.kernel offsetEnd (hstanza .zimage) memKernelStart (-3)
  rw [if_neg (Nat.not_lt.mpr hz)] at hread
  rw [Prog.bind_ok hread] at hrun
  refine ⟨_, s2.mem, ?_, ?_, St.readAs_mem _ _ _ _ _ _, hrun.trans ?_⟩
  · rw [St.readAs_mmc, hmmc]
  · rw [← hstanza .initramfs, St.readAs_mem]
    exact congrArg (fun hdr => hdr.stanza .initramfs) (hdrAt_section s2.mem c offsetEnd _ hz)
  · simp

/-- A header with the magic and sections the guard admits: 0 is returned, and
    memory has what the two reads delivered, the second over the first. -/
theorem doReadInandAs_ok (hmagic : fh.magic = headMagic) (hsize : SizesOk fh true) :
    ∃ s' mem, doReadInandAs b o inandDev offsetEnd true s = some (.ok 0, s') ∧
      s'.mem = store (store mem memKernelStart (sectionBytes c offsetEnd fh o.kernel .zimage))
        memInitramfs (sectionBytes c offsetEnd fh o.initramfs .initramfs) := by
  obtain ⟨s3, mem, hmmc, hstanza, hmem, hrun⟩ := doReadInandAs_kernel h hfh hmagic hsize.1
  have hread := readSectionAs_eq h.1 hmmc o.initramfs offsetEnd hstanza memInitramfs (-4)
  rw [if_neg (Nat.not_lt.mpr (hsize.2 rfl))] at hread
  refine ⟨_, mem, hrun.trans hread, ?_⟩
  rw [St.readAs_mem, hmem]
  rfl

/-- Any other header: another value is returned. -/
theorem doReadInandAs_fails (hbad : fh.magic = headMagic → ¬ SizesOk fh true) :
    ∃ ret s', doReadInandAs b o inandDev offsetEnd true s = some (.ok ret, s') ∧ ret ≠ 0 := by
  by_cases hmagic : fh.magic = headMagic
  · by_cases hz : (fh.stanza .zimage).nand.size / nandBlkSize + 1 ≤ inandMaxReadBlk
    · obtain ⟨s3, mem, hmmc, hstanza, -, hrun⟩ := doReadInandAs_kernel h hfh hmagic hz
      have hread := readSectionAs_eq h.1 hmmc o.initramfs offsetEnd hstanza memInitramfs (-4)
      have hi : (fh.stanza .initramfs).nand.size / nandBlkSize + 1 > inandMaxReadBlk := by
        by_contra hle
        exact hbad hmagic ⟨hz, fun _ => Nat.not_lt.mp hle⟩
      rw [if_pos hi] at hread
      exact ⟨-4, s3, hrun.trans hread, by decide⟩
    · obtain ⟨s2, hmmc, hstanza, hrun⟩ := doReadInandAs_magic h hfh hmagic
      have hread :=
        readSectionAs_eq h.1 hmmc o.kernel offsetEnd (hstanza .zimage) memKernelStart (-3)
      rw [if_pos (Nat.not_le.mp hz)] at hread
      rw [Prog.bind_ok hread] at hrun
      refine ⟨-3, s2, hrun.trans ?_, by decide⟩
      simp
  · obtain ⟨s1, heq, -, hhdr⟩ := doReadInandAs_hdr h o offsetEnd true
    refine ⟨-2, s1, ?_, by decide⟩
    rw [heq, readSectionsAs, Prog.get_bind, hhdr, hfh, if_pos hmagic]
    rfl

end Run

/-! ## What is in memory -/

/-- The distance of the two load addresses. -/
def kernelRoom : ℕ := 0xFF8000

theorem memInitramfs_eq : memInitramfs = memKernelStart + kernelRoom := by
  unfold memInitramfs memKernelStart
  rfl

/-- Where a section of the copy with header `fh` lies on the card. -/
def sectionAddr (c : Card) (offsetEnd : ℕ) (fh : FWFileHdr) (sec : Section) : ℕ :=
  add32 (c.base offsetEnd) (fh.stanza sec).nand.offset * nandBlkSize

/-- The copy with header `fh` is in memory, read without failures. -/
structure InMemory (c : Card) (offsetEnd : ℕ) (fh : FWFileHdr) (o : Outcomes) (mem : Disk) :
    Prop where
  reads : o.AllDone
  kernel : load mem memKernelStart (fh.stanza .zimage).nand.size =
    load c.contents (sectionAddr c offsetEnd fh .zimage) (fh.stanza .zimage).nand.size
  initramfs : load mem memInitramfs (fh.stanza .initramfs).nand.size =
    load c.contents (sectionAddr c offsetEnd fh .initramfs) (fh.stanza .initramfs).nand.size

/-- The bytes of the kernel that lie where the initramfs is read are those of the
    blocks read there. -/
def TailAgrees (c : Card) (offsetEnd : ℕ) (fh : FWFileHdr) : Prop :=
  ∀ i, kernelRoom ≤ i → i < (fh.stanza .zimage).nand.size →
    i - kernelRoom < ((fh.stanza .initramfs).nand.size / nandBlkSize + 1) * nandBlkSize →
    c.contents (sectionAddr c offsetEnd fh .zimage + i) =
      c.contents (sectionAddr c offsetEnd fh .initramfs + (i - kernelRoom))

/-- A kernel that fits in front of the initramfs has no such bytes. -/
theorem tailAgrees_of_le (c : Card) (offsetEnd : ℕ) {fh : FWFileHdr}
    (h : (fh.stanza .zimage).nand.size ≤ kernelRoom) : TailAgrees c offsetEnd fh := by
  intro i hroom hi
  omega

/-- A section lies in the blocks read for it. -/
theorem size_lt_blocks (n : ℕ) : n < (n / nandBlkSize + 1) * nandBlkSize := by
  unfold nandBlkSize
  omega

theorem kernel_iff (c : Card) (offsetEnd : ℕ) (fh : FWFileHdr) (mem : Disk) :
    load (store (store mem memKernelStart (sectionBytes c offsetEnd fh .done .zimage))
        memInitramfs (sectionBytes c offsetEnd fh .done .initramfs)) memKernelStart
        (fh.stanza .zimage).nand.size =
      load c.contents (sectionAddr c offsetEnd fh .zimage) (fh.stanza .zimage).nand.size ↔
    TailAgrees c offsetEnd fh := by
  have hzlt := size_lt_blocks (fh.stanza .zimage).nand.size
  have hzlen : (sectionBytes c offsetEnd fh .done .zimage).length =
      ((fh.stanza .zimage).nand.size / nandBlkSize + 1) * nandBlkSize := length_load _ _ _
  have hilen : (sectionBytes c offsetEnd fh .done .initramfs).length =
      ((fh.stanza .initramfs).nand.size / nandBlkSize + 1) * nandBlkSize := length_load _ _ _
  -- A byte of the kernel is the initramfs's where the second read stored one.
  have hbyte : ∀ i < (fh.stanza .zimage).nand.size,
      store (store mem memKernelStart (sectionBytes c offsetEnd fh .done .zimage))
        memInitramfs (sectionBytes c offsetEnd fh .done .initramfs) (memKernelStart + i) =
      if kernelRoom ≤ i ∧
          i - kernelRoom < ((fh.stanza .initramfs).nand.size / nandBlkSize + 1) * nandBlkSize then
        c.contents (sectionAddr c offsetEnd fh .initramfs + (i - kernelRoom))
      else c.contents (sectionAddr c offsetEnd fh .zimage + i) := by
    intro i hi
    have hkernel : store mem memKernelStart (sectionBytes c offsetEnd fh .done .zimage)
        (memKernelStart + i) = c.contents (sectionAddr c offsetEnd fh .zimage + i) := by
      rw [store_apply_of_mem (by omega) (by omega), Nat.add_sub_cancel_left]
      exact byteAt_load (by omega)
    rw [memInitramfs_eq]
    by_cases hroom : kernelRoom ≤ i
    · by_cases hin :
          i - kernelRoom < ((fh.stanza .initramfs).nand.size / nandBlkSize + 1) * nandBlkSize
      · rw [if_pos ⟨hroom, hin⟩, store_apply_of_mem (by omega) (by omega),
          show memKernelStart + i - (memKernelStart + kernelRoom) = i - kernelRoom by omega]
        exact byteAt_load (by omega)
      · rw [if_neg (fun hand => hin hand.2), store_apply_of_ge (by omega), hkernel]
    · rw [if_neg (fun hand => hroom hand.1), store_apply_of_lt (by omega), hkernel]
  constructor
  · intro h i hroom hi hin
    rw [← byteAt_load (d := c.contents) hi, ← h, byteAt_load hi, hbyte i hi,
      if_pos ⟨hroom, hin⟩]
  · intro h
    apply load_ext
    intro i hi
    rw [hbyte i hi]
    by_cases hover : kernelRoom ≤ i ∧
        i - kernelRoom < ((fh.stanza .initramfs).nand.size / nandBlkSize + 1) * nandBlkSize
    · rw [if_pos hover, h i hover.1 hi hover.2]
    · rw [if_neg hover]

theorem initramfs_loaded (c : Card) (offsetEnd : ℕ) (fh : FWFileHdr) (mem : Disk) :
    load (store mem memInitramfs (sectionBytes c offsetEnd fh .done .initramfs)) memInitramfs
        (fh.stanza .initramfs).nand.size =
      load c.contents (sectionAddr c offsetEnd fh .initramfs)
        (fh.stanza .initramfs).nand.size := by
  have hlt := size_lt_blocks (fh.stanza .initramfs).nand.size
  have hlen : (sectionBytes c offsetEnd fh .done .initramfs).length =
      ((fh.stanza .initramfs).nand.size / nandBlkSize + 1) * nandBlkSize := length_load _ _ _
  apply load_ext
  intro i hi
  rw [store_apply_of_mem (by omega) (by omega), Nat.add_sub_cancel_left]
  exact byteAt_load (by omega)

/-- The copies for which 0 is returned are in memory exactly if, where the header
    found is taken, no read fails and the initramfs is not read over other bytes of
    the kernel. -/
theorem flashRead_iff {c : Card} {s : St} (h : CardReady b c s) (o : Outcomes) (offsetEnd : ℕ) :
    (∀ s', doReadInandAs b o inandDev offsetEnd true s = some (.ok 0, s') →
      InMemory c offsetEnd (c.hdr offsetEnd) o s'.mem) ↔
    ((foundHdr c offsetEnd o.hdr).magic = headMagic → SizesOk (foundHdr c offsetEnd o.hdr) true →
      o.AllDone ∧ TailAgrees c offsetEnd (c.hdr offsetEnd)) := by
  constructor
  · intro hall hmagic hsize
    obtain ⟨s', mem, hrun, hmem⟩ := doReadInandAs_ok h rfl hmagic hsize
    have hin := hall s' hrun
    refine ⟨hin.reads, ?_⟩
    obtain ⟨hh, hk, hi⟩ := hin.reads
    have hkernel := hin.kernel
    rw [hmem, hh, hk, hi, foundHdr_done] at hkernel
    exact (kernel_iff c offsetEnd (c.hdr offsetEnd) mem).mp hkernel
  · intro hcond s' hret
    by_cases hgood : (foundHdr c offsetEnd o.hdr).magic = headMagic ∧
        SizesOk (foundHdr c offsetEnd o.hdr) true
    · obtain ⟨hreads, htail⟩ := hcond hgood.1 hgood.2
      obtain ⟨s1, mem, hrun, hmem⟩ := doReadInandAs_ok h rfl hgood.1 hgood.2
      rw [hrun, Option.some.injEq, Prod.mk.injEq] at hret
      rw [← hret.2, hmem]
      have hall := hreads
      obtain ⟨hh, hk, hi⟩ := hreads
      rw [hh, hk, hi, foundHdr_done]
      exact ⟨hall, (kernel_iff c offsetEnd (c.hdr offsetEnd) mem).mpr htail,
        initramfs_loaded c offsetEnd (c.hdr offsetEnd) _⟩
    · obtain ⟨ret, s1, hrun, hne⟩ := doReadInandAs_fails h rfl fun hm hs => hgood ⟨hm, hs⟩
      rw [hrun] at hret
      cases hret
      exact (hne rfl).elim

/-- The header of four sections of one byte. -/
def sampleHdr : FWFileHdr := (Pack.ofFour [1] [2] [3] [4]).hdr

theorem ready_sample :
    CardReady (rejectingBoard (sampleCard sampleHdr)) (sampleCard sampleHdr) St.init :=
  ⟨rfl, fun hsel => absurd hsel (by decide)⟩

theorem accepted_sample : sampleHdr.magic = headMagic ∧ SizesOk sampleHdr true := by
  have hz : (sampleHdr.stanza .zimage).nand.size / nandBlkSize + 1 ≤ inandMaxReadBlk := by
    unfold sampleHdr
    rw [Pack.stanza_hdr]
    decide
  have hi : (sampleHdr.stanza .initramfs).nand.size / nandBlkSize + 1 ≤ inandMaxReadBlk := by
    unfold sampleHdr
    rw [Pack.stanza_hdr]
    decide
  exact ⟨Pack.magic_hdr _, hz, fun _ => hi⟩

/-- Without failures they are in memory. -/
theorem flashRead_sample :
    ∃ s', doReadInandAs (rejectingBoard (sampleCard sampleHdr)) ⟨.done, .done, .done⟩ inandDev
        inandKernel1Bend true St.init = some (.ok 0, s') ∧
      InMemory (sampleCard sampleHdr) inandKernel1Bend sampleHdr ⟨.done, .done, .done⟩ s'.mem := by
  have hfound : foundHdr (sampleCard sampleHdr) inandKernel1Bend .done = sampleHdr := by
    rw [foundHdr_done, hdr_sampleCard]
  obtain ⟨s', mem, hrun, -⟩ := doReadInandAs_ok ready_sample (o := ⟨.done, .done, .done⟩) hfound
    accepted_sample.1 accepted_sample.2
  have hfits : TailAgrees (sampleCard sampleHdr) inandKernel1Bend sampleHdr := by
    apply tailAgrees_of_le
    unfold sampleHdr
    rw [Pack.stanza_hdr]
    decide
  have hiff := flashRead_iff ready_sample ⟨.done, .done, .done⟩ inandKernel1Bend
  rw [hdr_sampleCard] at hiff
  exact ⟨s', hrun, hiff.mpr (fun _ _ => ⟨⟨rfl, rfl, rfl⟩, hfits⟩) s' hrun⟩

/-- A kernel read that delivers nothing: 0 is returned all the same. -/
theorem flashRead_failed :
    ¬ ∀ (b : Board) (c : Card) (s : St), CardReady b c s → ∀ (o : Outcomes) (offsetEnd : ℕ) (s' : St),
      doReadInandAs b o inandDev offsetEnd true s = some (.ok 0, s') →
      InMemory c offsetEnd (c.hdr offsetEnd) o s'.mem := by
  intro h
  have hfound : foundHdr (sampleCard sampleHdr) inandKernel1Bend .done = sampleHdr := by
    rw [foundHdr_done, hdr_sampleCard]
  obtain ⟨s', mem, hrun, -⟩ := doReadInandAs_ok ready_sample (o := ⟨.done, .failed [], .done⟩)
    hfound accepted_sample.1 accepted_sample.2
  have hin := h _ _ _ ready_sample ⟨.done, .failed [], .done⟩ inandKernel1Bend s' hrun
  have hdone : Outcome.failed [] = .done := hin.reads.2.1
  cases hdone

end SmartQ.UBoot
