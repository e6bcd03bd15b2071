import SmartQ.Firmware.Extract
import SmartQ.Lib.Disk
import SmartQ.Lib.Prog

/-!
# `upgrade`: writing a firmware file to the flash

Model of `fw-utils/upgrade.c`: the order in which `main` and `loading_firmware`
partition, format, write and verify. What the kernel and the commands do is
given by an `Env`; the run is a `Prog` over the open files' positions, the
device and the 4 MB buffer, and keeps the list of everything it did to the
device. The screen and the progress bar are left out.

The model is made of `Prog`s with one definition for each function of the
source; what a run does is proved in the modules that use it.
-/

namespace SmartQ.Firmware.Upgrade

open SmartQ.Lib

/-! ## The run and its environment -/

/-- A command run on the device. `untar` is all that the forked child does to
    it; its second argument tells whether the command in `untar` is the one for
    `xz`. -/
inductive Command
  | fdisk
  | mkfs (part : ℕ)
  | mkswap (part : ℕ)
  | mount (part : ℕ)
  | untar (part : ℕ) (xz : Bool)
  deriving DecidableEq, Repr

/-- What a run does to the device. -/
inductive Action
  | write (w : Write)
  | command (c : Command)
  deriving DecidableEq, Repr

/-- The check sums compared in the course of a run. -/
inductive Check
  | qi | header1 | uBoot1 | zimage1 | initramfs1 | header2 | uBoot2 | zimage2 | initramfs2
  deriving DecidableEq, Repr

/-- Why a run fails: an error of a call, a check that fails, or a loop that does not end. -/
inductive Failure
  | extract (why : Reject)
  | fault
  | openSd
  | malloc
  | checkSum (c : Check)
  | archive (s : Section)
  | fork (s : Section)
  | waitpid (s : Section)
  | dup2 (s : Section)
  | rootfsSize
  deriving DecidableEq, Repr

/-- Everything a run depends on: the file, the device, the outcomes of its calls and of the
    commands it starts. -/
structure Env where
  /-- The firmware file. -/
  file : List Byte
  /-- The bytes of the flash device. -/
  deviceSize : ℕ
  /-- What the kernel does with the `k`-th `read` or `write`. -/
  io : ℕ → IoResult
  host : Host
  /-- The second `open` of the firmware file succeeds. -/
  openSd : Bool
  /-- The buffer is allocated. -/
  malloc : Bool
  /-- `pipe` and `fork` succeed for a file system section. -/
  fork : Section → Bool
  /-- `waitpid` succeeds for it; the child's status is not asked for. -/
  waitpid : Section → Bool
  /-- The two bytes of stack below `sniffer`. -/
  stack : List Byte
  /-- What a command does to the device. -/
  command : Command → Disk → Disk
  /-- A bound on the iterations of one loop. -/
  fuel : ℕ

/-- The state of a run: the positions in the file and the device, the buffer, and what has been
    done so far. -/
structure St where
  /-- The position of `fd_sd`. -/
  sdPos : ℕ
  inand : Disk
  /-- The position of `fd_inand`. -/
  inandPos : ℕ
  buffer : Disk
  /-- What the copy loops obtained from the file, in order. -/
  got : List Byte
  /-- What they handed to `write`. -/
  handed : List Byte
  sizeSum : ℕ
  /-- The static `untar` has been changed to the command for `xz`. -/
  untarXz : Bool
  /-- The number of `read`s and `write`s made. -/
  calls : ℕ
  /-- Some `read` or `write` did not move all it was asked to. -/
  short : Bool
  /-- What was done to the device, in order. -/
  log : List Action

/-- `INAND_SIZE_PER_WRITE`: `loading` copies to the raw device in chunks of 4 MB. -/
def inandSizePerWrite : ℕ := 4 * 1024 * 1024

/-- `ROOTFS_SIZE_PER_WRITE`: `loading_fs` hands a file system to `tar` in chunks of 256 KB. -/
def rootfsSizePerWrite : ℕ := 256 * 1024

/-- `ZIMAGE_INITRAMFS_SECTORS`: the 16 MB at the end of the device that hold the two copies. -/
def zimageInitramfsSectors : ℕ := 16 * 1024 * 2

variable (env : Env)

/-! ## System calls -/

/-- `lseek(fd_sd, off, SEEK_SET)`: the `uint32_t` becomes an `off_t`. -/
def seekSd (off : ℕ) : Prog St Failure Unit :=
  Prog.modify fun s => if 0 ≤ int32 off then { s with sdPos := off } else s

/-- `lseek(fd_inand, off, SEEK_END)` on the block device. -/
def seekInand (off : ℤ) : Prog St Failure Unit :=
  Prog.modify fun s =>
    if 0 ≤ env.deviceSize + off ∧ off ≤ 0 then
      { s with inandPos := (env.deviceSize + off).toNat }
    else s

/-- `read(fd_sd, buffer, n)`: up to `n` bytes of the firmware file from its position on, as the
    outcome of the call says. -/
def readSd (n : ℕ) : Prog St Failure ℤ :=
  Prog.step fun s =>
    let got := transferred (env.io s.calls) n (env.file.length - s.sdPos)
    (got, { s with
      sdPos := s.sdPos + got.toNat
      buffer := store s.buffer 0 ((env.file.drop s.sdPos).take got.toNat)
      got := s.got ++ (env.file.drop s.sdPos).take got.toNat
      calls := s.calls + 1
      short := s.short || got != n })

/-- `read(fd_inand, buffer, n)`: up to `n` bytes of the device, which cannot be passed, from its
    position on. -/
def readInand (n : ℕ) : Prog St Failure ℤ :=
  Prog.step fun s =>
    let got := transferred (env.io s.calls) n (env.deviceSize - s.inandPos)
    (got, { s with
      inandPos := s.inandPos + got.toNat
      buffer := store s.buffer 0 (load s.inand s.inandPos got.toNat)
      calls := s.calls + 1
      short := s.short || got != n })

/-- `write(fd_inand, buffer, n)`: the start of the buffer goes to the device, as much of it as
    the call takes. -/
def writeInand (n : ℕ) : Prog St Failure ℤ :=
  Prog.step fun s =>
    let got := transferred (env.io s.calls) n (env.deviceSize - s.inandPos)
    (got, { s with
      inandPos := s.inandPos + got.toNat
      inand := store s.inand s.inandPos (load s.buffer 0 got.toNat)
      handed := s.handed ++ load s.buffer 0 n
      calls := s.calls + 1
      short := s.short || got != n
      log := s.log ++ [.write (s.inandPos, load s.buffer 0 got.toNat)] })

/-- `write(fd[1], buffer, n)`: nobody looks at its value. -/
def writePipe (n : ℕ) : Prog St Failure Unit :=
  Prog.modify fun s => { s with handed := s.handed ++ load s.buffer 0 n }

/-- `system(…)`, and what the forked child does. -/
def runCommand (c : Command) : Prog St Failure Unit :=
  Prog.modify fun s => { s with inand := env.command c s.inand, log := s.log ++ [.command c] }

/-- `size_sum += n`, in 32 bits: what the progress bar has counted so far. -/
def addSizeSum (n : ℕ) : Prog St Failure Unit :=
  Prog.modify fun s => { s with sizeSum := add32 s.sizeSum n }

/-! ## Writing and verifying a section -/

/-- The `while` loop of `loading` and what follows it (lines 277–319). -/
def loadingLoop (totalSize : ℕ) : ℕ → ℕ → ℕ → Prog St Failure ℤ
  | 0, _, _ => Prog.stuck
  | fuel + 1, size, remnantSize =>
    if remnantSize / inandSizePerWrite > 0 then do
      let readSize ← readSd env inandSizePerWrite
      addSizeSum (toU32 readSize)
      let written ← writeInand env inandSizePerWrite
      if written ≠ inandSizePerWrite then pure (-1)
      else
        loadingLoop totalSize fuel (add32 size (toU32 readSize))
          (sub32 totalSize (add32 size (toU32 readSize)))
    else do
      let readSize ← readSd env remnantSize
      addSizeSum (toU32 readSize)
      let _ ← writeInand env remnantSize
      pure 0

/-- `loading` (lines 270–321): it copies a section from the file to the device, chunk by chunk.
    -/
def loading (totalSize : ℕ) : Prog St Failure ℤ := loadingLoop env totalSize env.fuel 0 totalSize

/-- The `while` loop of `get_check_sum` and what follows it (lines 466–474). -/
def checkSumLoop (fileSize : ℤ) : ℕ → ℤ → ℤ → ℕ → Prog St Failure ℕ
  | 0, _, _, _ => Prog.stuck
  | fuel + 1, size, remnantSize, ret =>
    if remnantSize / inandSizePerWrite > 0 then do
      let got ← readInand env inandSizePerWrite
      let s ← Prog.get
      checkSumLoop fileSize fuel (int32 (size + got)) (int32 (fileSize - int32 (size + got)))
        (add32 ret (byteSum (load s.buffer 0 inandSizePerWrite)))
    else do
      let _ ← readInand env (toU32 remnantSize)
      let s ← Prog.get
      pure (add32 ret (byteSum (load s.buffer 0 remnantSize.toNat)))

/-- `get_check_sum` (lines 461–475): the byte sum of what is read back from the device. -/
def getCheckSum (fileSize : ℤ) : Prog St Failure ℕ :=
  checkSumLoop env fileSize env.fuel 0 fileSize 0

/-- One section on its way to the flash: where the source is positioned, where
    the section goes and where its check starts (from the end of the device),
    what is compared. -/
structure Stage where
  seek : Option ℕ
  flash : ℤ
  size : ℕ
  verify : ℤ
  verifySize : ℤ
  checkSum : ℕ
  check : Check

/-- The `lseek` of `fd_sd` in front of a stage, where there is one. -/
def seekSource (t : Stage) : Prog St Failure Unit :=
  match t.seek with
  | some off => seekSd off
  | none => pure ()

/-- `lseek`, `loading`, `lseek`, `get_check_sum` and the comparison: the body
    repeated in `main` (lines 928–947) and `loading_firmware` (lines 486–616).
    The value of `loading` is not looked at. -/
def stage (t : Stage) : Prog St Failure Unit := do
  seekSource t
  seekInand env t.flash
  let _ ← loading env t.size
  seekInand env t.verify
  let inandCheckSum ← getCheckSum env t.verifySize
  Prog.exitIf (inandCheckSum ≠ t.checkSum) (.checkSum t.check)

/-- `(base + nandOffset) * INAND_BLOCK_SIZE`, computed as `uint32_t` and passed
    as an `off_t`. -/
def flashOffset (base : ℤ) (nandOffset : ℕ) : ℤ := int32 ((base + nandOffset) * nandBlkSize)

/-- The header of a copy (lines 485–502, 554–568). -/
def headerStage (h : FWFileHdr) (base : ℤ) (check : Check) : Stage where
  seek := some 0
  flash := base * nandBlkSize
  size := h.fhSize
  verify := base * nandBlkSize + 8
  verifySize := int32 (h.fhSize - 8)
  checkSum := h.checkSum
  check := check

/-- A section of a copy; `initramfs` is read from where `zimage` ended. -/
def sectionStage (h : FWFileHdr) (base : ℤ) (s : Section) (check : Check) : Stage where
  seek := if s = .initramfs then none else some (h.stanza s).file.offset
  flash := flashOffset base (h.stanza s).nand.offset
  size := (h.stanza s).file.size
  verify := flashOffset base (h.stanza s).nand.offset
  verifySize := int32 (h.stanza s).file.size
  checkSum := (h.stanza s).checkSum
  check := check

/-- The Qi block (lines 928–936). -/
def qiStage (h : FWFileHdr) : Stage where
  seek := some (h.stanza .qi).file.offset
  flash := -18 * nandBlkSize
  size := (h.stanza .qi).file.size
  verify := -18 * nandBlkSize
  verifySize := int32 (h.stanza .qi).file.size
  checkSum := (h.stanza .qi).checkSum
  check := .qi

/-- The first block of copy 1, from the end. -/
def base1 : ℤ := -zimageInitramfsSectors

/-- The first block of copy 0, the backup, from the end. -/
def base0 : ℤ := -zimageInitramfsSectors / 2

/-- The eight stages of `loading_firmware`, copy 1 before copy 0. -/
def firmwareStages (h : FWFileHdr) : List Stage :=
  [headerStage h base1 .header1, sectionStage h base1 .uBoot .uBoot1,
    sectionStage h base1 .zimage .zimage1, sectionStage h base1 .initramfs .initramfs1,
    headerStage h base0 .header2, sectionStage h base0 .uBoot .uBoot2,
    sectionStage h base0 .zimage .zimage2, sectionStage h base0 .initramfs .initramfs2]

/-- The stages one after the other. -/
def runStages : List Stage → Prog St Failure Unit
  | [] => pure ()
  | t :: ts => do
    stage env t
    runStages ts

/-- `loading_firmware` up to `close(fd_inand)` (lines 482–618). -/
def loadingCopies (h : FWFileHdr) : Prog St Failure Unit := do
  Prog.modify fun s => { s with sizeSum := 0 }
  runStages env (firmwareStages h)

/-! ## The file systems -/

/-- The parent's loop of `loading_fs` and what follows it (lines 375–408). -/
def loadingFsLoop (totalSize : ℕ) : ℕ → ℕ → ℕ → Prog St Failure Unit
  | 0, _, _ => Prog.stuck
  | fuel + 1, size, remnantSize =>
    if remnantSize / rootfsSizePerWrite > 0 then do
      let readSize ← readSd env rootfsSizePerWrite
      addSizeSum (toU32 readSize)
      writePipe rootfsSizePerWrite
      loadingFsLoop totalSize fuel (add32 size (toU32 readSize))
        (sub32 totalSize (add32 size (toU32 readSize)))
    else do
      let readSize ← readSd env remnantSize
      addSizeSum (toU32 readSize)
      writePipe remnantSize

/-- `read(fd_sd, sniffer, 2)` and the `lseek` back: the two bytes seen. -/
def sniff : Prog St Failure (List Byte) :=
  Prog.step fun s =>
    let got := transferred (env.io s.calls) 2 (env.file.length - s.sdPos)
    let pos := s.sdPos + got.toNat
    ((env.file.drop s.sdPos).take got.toNat ++ env.stack.drop got.toNat,
      { s with
        sdPos := if 2 ≤ pos then pos - 2 else pos
        calls := s.calls + 1
        short := s.short || got != 2 })

/-- `lzma`, the first two bytes of an `xz` archive. -/
def lzmaSniff : List Byte := [0xfd, 0x37]

/-- `gzip`: the two bytes with which the archive of a file system has to begin. -/
def gzipSniff : List Byte := [0x1f, 0x8b]

/-- `loading_fs` (lines 323–436) in the parent, for the section `sec` that goes
    to the partition `part`. -/
def loadingFs (sec : Section) (part totalSize : ℕ) : Prog St Failure Unit := do
  let sniffer ← sniff env
  Prog.doIf (sniffer = lzmaSniff) (Prog.modify fun s => { s with untarXz := true })
  Prog.exitIf (sniffer ≠ lzmaSniff ∧ sniffer ≠ gzipSniff) (.archive sec)
  Prog.exitIf (!env.fork sec) (.fork sec)
  loadingFsLoop env totalSize env.fuel 0 totalSize
  let s ← Prog.get
  runCommand env (.untar part s.untarXz)
  Prog.exitIf (!env.waitpid sec) (.waitpid sec)

/-- The home file system (lines 628–645). -/
def loadingHome (h : FWFileHdr) : Prog St Failure Unit := do
  let old ← Prog.get
  runCommand env (.mount 2)
  seekSd (h.stanza .homefs).file.offset
  loadingFs env .homefs 2 (h.stanza .homefs).file.size
  Prog.modify fun s =>
    if old.sizeSum = s.sizeSum then
      { s with sizeSum := add32 s.sizeSum (h.stanza .homefs).file.size }
    else s

/-- The `loading_homefs` part of `loading_firmware` (lines 620–678). -/
def loadingFilesystems (h : FWFileHdr) (keepUserzone : Bool) (totalSizeSum : ℕ) :
    Prog St Failure Unit := do
  Prog.doIf (!keepUserzone) (loadingHome env h)
  runCommand env (.mount 1)
  seekSd (h.stanza .rootfs).file.offset
  let s ← Prog.get
  Prog.exitIf (sub32 totalSizeSum s.sizeSum ≠ (h.stanza .rootfs).file.size) .rootfsSize
  loadingFs env .rootfs 1 (h.stanza .rootfs).file.size

/-- `loading_firmware` (lines 477–681): the two boot copies first, then the file systems if they
    are asked for. -/
def loadingFirmware (h : FWFileHdr) (loadingHomefs keepUserzone : Bool) (totalSizeSum : ℕ) :
    Prog St Failure Unit := do
  loadingCopies env h
  Prog.doIf loadingHomefs (loadingFilesystems env h keepUserzone totalSizeSum)

/-! ## `main` -/

/-- `total_size_sum` (lines 853–865): what the progress bar counts up to, in 32 bits. -/
def totalSizeSum (h : FWFileHdr) (keepUserzone : Bool) : ℕ :=
  let t := (h.stanza .homefs).file.offset
  let t := if keepUserzone then t else add32 t (h.stanza .homefs).file.size
  let t := add32 t (add32 (add32 (add32 h.fhSize (h.stanza .uBoot).file.size)
    (h.stanza .zimage).file.size) (h.stanza .initramfs).file.size)
  sub32 t (h.stanza .qi).file.size

/-- The branch on the value of `extract` (lines 845–850). -/
def afterExtract : Extracted → Prog St Failure FWFileHdr
  | .accepted h => pure h
  | .rejected why => Prog.exit (.extract why)
  | .fault => Prog.exit .fault

/-- `extract(argv[1], fw_fh)` (line 844). -/
def extractStep : Prog St Failure FWFileHdr := do
  let r ← Prog.step fun s =>
    (env.io s.calls, { s with
      calls := s.calls + 1
      short := s.short ||
        transferred (env.io s.calls) fwFileHdrSize env.file.length != fwFileHdrSize })
  afterExtract (extract env.host env.file r)

/-- `partition_inand` and the `mkfs`es (lines 882–925); `fdisk` runs twice. -/
def prepare (keepUserzone : Bool) : Prog St Failure Unit := do
  runCommand env .fdisk
  runCommand env .fdisk
  runCommand env (.mkfs 1)
  Prog.doIf (!keepUserzone) (runCommand env (.mkfs 2))
  runCommand env (.mkswap 3)

/-- Zeroing the last two blocks (lines 950–953). -/
def zeroLastBlocks : Prog St Failure Unit := do
  seekInand env (-2 * nandBlkSize)
  Prog.modify fun s => { s with buffer := store s.buffer 0 (List.replicate nandBlkSize 0) }
  let _ ← writeInand env nandBlkSize
  let _ ← writeInand env nandBlkSize

/-- `main` once the file is open and the buffer allocated (lines 882–959). -/
def flashing (h : FWFileHdr) (loadingHomefs keepUserzone : Bool) : Prog St Failure Unit := do
  Prog.doIf loadingHomefs (prepare env keepUserzone)
  stage env (qiStage h)
  zeroLastBlocks env
  loadingFirmware env h loadingHomefs keepUserzone (totalSizeSum h keepUserzone)

/-- `main` from `extract` on (lines 841–959): `loadingHomefs` is the third
    argument being 1 and `keepUserzone` the user's choice. -/
def main (loadingHomefs keepUserzone : Bool) : Prog St Failure Unit := do
  let h ← extractStep env
  Prog.exitIf (!env.openSd) .openSd
  Prog.exitIf (!env.malloc) .malloc
  Prog.modify fun s => { s with sdPos := 0 }
  flashing env h loadingHomefs keepUserzone

/-- The state in which `main` starts on a device with the contents `d`. -/
def St.init (d buffer : Disk) : St where
  sdPos := 0
  inand := d
  inandPos := 0
  buffer := buffer
  got := []
  handed := []
  sizeSum := 0
  untarXz := false
  calls := 0
  short := false
  log := []

/-! ## An undisturbed run -/

/-- A machine without `/proc/cpuinfo`, with a zeroed header. -/
def Host.quiet : Host where
  grepQ5 := 2
  grepQ7 := 2
  garbage := ⟨List.replicate fwFileHdrSize 0, List.length_replicate⟩
  heap := fun _ => none
  sectsMapped := fun _ => false

/-- Nothing fails, and the device has just the 16 MiB of the two copies. -/
def Env.quiet (file : List Byte) : Env where
  file := file
  deviceSize := zimageInitramfsSectors * nandBlkSize
  io := fun _ => .full
  host := Host.quiet
  openSd := true
  malloc := true
  fork := fun _ => true
  waitpid := fun _ => true
  stack := [0, 0]
  command := fun _ d => d
  fuel := 1024

end SmartQ.Firmware.Upgrade
