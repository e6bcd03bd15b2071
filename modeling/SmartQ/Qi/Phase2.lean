import SmartQ.Lib.Crc32
import SmartQ.Qi.Ext2

/-!
# Qi, second phase: the boot loop

Model of `qi/src/phase2.c`: for each kernel source in order, its block device, its
partition, the `noboot` and `append` files, the kernel image, the initramfs and the
tag list, until a kernel is started.
-/

namespace SmartQ.Qi

open SmartQ.Lib

/-! ## Reading files -/

/-- Where a file is read to. -/
inductive Dest
  | ram (addr : ℕ)
  | append

/-- The stores of a read in its destination. -/
def deliver (dest : Dest) (ws : List Write) : Phase2 Unit :=
  match dest with
  | .ram addr => Prog.modify fun s =>
    { s with ram := ws.foldl (fun m w => m.set (addr + w.1) w.2) s.ram }
  | .append => do
    Prog.exitIf (¬ Within ws 512) .corrupt
    Prog.modify fun s => { s with commandlineRootfsAppend := patch s.commandlineRootfsAppend ws }

section Phase2

variable (env : Env) (extent fuel : ℕ) (k : KernelSource)

/-- `read_file` (lines 55–100). For an ext2 file the value is its size; the value of
    `ext2fs_read` is only compared with 0. -/
def readFile (filepath : Option (List Byte)) (dest : Dest) (size : ℤ) : Phase2 ℤ :=
  if k.filesystem = .ext2 then do
    let mounted ← ext2fsMount env extent k
    if mounted then do
      let len ← ext2fsOpen env extent k fuel filepath
      if len < 0 then pure (-1) else do
        let (ret, ws) ← ext2fsRead env extent k (toU32 size)
        deliver dest ws
        pure (if ret < 0 then -1 else len)
    else pure (-2)
  else if filepath ≠ none then pure (-1)
  else do
    Prog.exitIf (size < 0) .corrupt
    let s ← Prog.get
    let (ret, bytes) ← blockRead env k s.partitionOffsetBlocks (size / 512).toNat
    deliver dest [(0, bytes)]
    pure (if ret < 0 then -1 else size)

/-- `do_block_init` (lines 102–131): a device is started when its first kernel source is tried,
    and its failure is kept. -/
def doBlockInit : Phase2 Bool :=
  match k.blockInit with
  | none => pure true
  | some init => do
    let s ← Prog.get
    Prog.doIf (s.lastBlockInit ≠ some init) (Prog.modify fun s =>
      { s with
        inits := s.inits + 1, lastBlockInit := some init,
        lastBlockInitResult := env.blockInit s.inits })
    let s ← Prog.get
    pure (decide (s.lastBlockInitResult = 0))

/-- `kernel_dram`: the load address of every kernel, 32 KiB behind the start of the memory. -/
def kernelDram : ℕ := (env.board.linuxMemStart + 0x8000) % 2 ^ 32

/-- `do_partitions` (lines 133–179): where the partition of the source lies, by the table in the
    first sector. -/
def doPartitions : Phase2 Bool :=
  if k.partitionIndex = 0 then do
    Prog.modify fun s =>
      { s with partitionOffsetBlocks := toU32 k.offsetBlocks512IfNoPartition }
    pure true
  else do
    let (ret, bytes) ← blockRead env k 0 4
    deliver (.ram (kernelDram env)) [(0, bytes)]
    let s ← Prog.get
    if ret < 0 then pure false
    else if s.ram.bytes (kernelDram env + 0x1fe) 2 ≠ [0x55, 0xaa] then pure false
    else do
      let p := s.ram.bytes (kernelDram env + toU32 (0x1be + 8 + 0x10 * (k.partitionIndex - 1))) 8
      Prog.modify fun s =>
        { s with partitionOffsetBlocks := u32At p 0, partitionLengthBlocks := u32At p 4 }
      pure true

/-- `do_crc` (lines 279–302), of the image with its header at `kernel_dram`. -/
def doCrc (m : Ram) : Bool :=
  let hdr := m.bytes (kernelDram env) 64
  crc32 (m.bytes (kernelDram env + 64) (be32At hdr 12)) = be32At hdr 24

/-- `load_uimage` (lines 304–339): the entry point. -/
def loadUimage : Phase2 (Option ℕ) := do
  let s ← Prog.get
  let hdr := s.ram.bytes (kernelDram env) 64
  if be32At hdr 0 ≠ 0x27051956 then pure none else do
    let kernelSize : ℕ := (be32At hdr 12 + 64 + 2048) % 2 ^ 32 / 2048 * 2048
    let got ← readFile env extent fuel k k.filepath (.ram (kernelDram env)) (int32 kernelSize)
    if got < 0 then pure none else do
      let s ← Prog.get
      pure (if doCrc env s.ram then some (kernelDram env + 64) else none)

/-- `load_zimage` (lines 341–369): the entry point. -/
def loadZimage : Phase2 (Option ℕ) := do
  let s ← Prog.get
  let magic := u32At (s.ram.bytes (kernelDram env + 0x24) 4) 0
  let size := u32At (s.ram.bytes (kernelDram env + 0x2c) 4) 0
  if magic ≠ 0x016f2818 then pure none else do
    let got ← readFile env extent fuel k k.filepath (.ram (kernelDram env)) (int32 size)
    pure (if got < 0 then none else if toU32 got ≠ size then none else some (kernelDram env))

/-! ## The tag list -/

/-- A tag with its header, as a store at `addr`, and the address of the next one. -/
def tag (addr tag : ℕ) (words : List ℕ) : ℕ × Write :=
  (addr + (8 + 4 * words.length),
    (addr, le32 (2 + words.length) ++ le32 tag ++ words.flatMap le32))

/-- Step back over newlines: at most `fuel` of them, the length of the memory. -/
def trimNewlines (m : Ram) : ℕ → ℕ → ℕ
  | 0, p => p
  | fuel + 1, p =>
    if m.get (p + (2 ^ 32 - 1)) = 0x0a then trimNewlines m fuel (p + (2 ^ 32 - 1)) else p

/-- The command line before its newlines are removed. -/
def commandline (rootfsAppend : List Byte) : List Byte :=
  env.board.commandlineBoard.dropWhile (· = 0x20) ++
    env.board.appendDeviceSpecificCmdline.getD [] ++ k.commandlineAppend.getD [] ++ rootfsAppend

/-- The tags before the command line, from `linux_tag_placement` on, and where they
    end. -/
def paramTags (initramfsLen : ℕ) : ℕ × List Write :=
  let core := tag env.board.linuxTagPlacement 0x54410001 [0, 0, 0]
  let revision := tag core.1 0x54410007 [env.board.machineRevision]
  let mem := tag revision.1 0x54410002 [env.board.linuxMemSize, env.board.linuxMemStart]
  if k.initramfsFilepath = none then (mem.1, [core.2, revision.2, mem.2])
  else
    let initrd := tag mem.1 0x54420005 [env.board.linuxMemStart + 8 * 1024 * 1024, initramfsLen]
    (initrd.1, [core.2, revision.2, mem.2, initrd.2])

/-- The C string at `p`, of at most `fuel` bytes. -/
def cstrAt (m : Ram) : ℕ → ℕ → List Byte
  | 0, _ => []
  | fuel + 1, p => if m.get p = 0 then [] else m.get p :: cstrAt m fuel (p + 1)

/-- The stores `ws` in the memory. -/
def Ram.stores (m : Ram) (ws : List Write) : Ram := ws.foldl (fun m w => m.set w.1 w.2) m

/-- `do_params` (lines 181–277), with the string `rootfsAppend`. -/
def doParams (initramfsLen : ℕ) (rootfsAppend : List Byte) (m : Ram) : Ram :=
  let (params, tags) := paramTags env k initramfsLen
  let m := Ram.stores m tags
  let cmdline := params + 8
  let line := commandline env k rootfsAppend
  let m := m.set cmdline (line ++ [0])
  let stop := trimNewlines m (2 ^ 32) (cmdline + line.length)
  let m := m.set stop [0]
  let m := match env.board.commandlineBoardDebug, env.getUiDebug with
    | some debug, some true => m.set stop (debug ++ [0])
    | _, _ => m
  let size := (8 + (cstrAt m (2 ^ 32) cmdline).length + 1 + 4) % 2 ^ 32 / 4
  let m := m.set params (le32 size ++ le32 0x54410009)
  m.set (params + 4 * size) (le32 0 ++ le32 0)

/-! ## The boot loop -/

/-- The kernel image, with its entry point. -/
def loadKernel : Phase2 (Option ℕ) := do
  let got ← readFile env extent fuel k k.filepath (.ram (kernelDram env)) 4096
  if got < 0 then pure none else do
    let entry ← loadUimage env extent fuel k
    match entry with
    | some entry => pure (some entry)
    | none => loadZimage env extent fuel k

/-- The initramfs and its length, an `unsigned int`: it is never less than 0. -/
def loadInitramfs : Phase2 ℕ :=
  if k.initramfsFilepath = none then pure 0 else do
    let len ← readFile env extent fuel k k.initramfsFilepath
      (.ram (env.board.linuxMemStart + 8 * 1024 * 1024)) (16 * 1024 * 1024)
    pure (toU32 len)

/-- The end of `try_this_kernel`: the tag list and the jump. A string without an end
    runs over its buffer. -/
def startKernel (entry initramfsLen : ℕ) : Phase2 Unit := do
  let s ← Prog.get
  let rootfsAppend := cstr s.commandlineRootfsAppend
  Prog.exitIf (rootfsAppend.length = s.commandlineRootfsAppend.length) .corrupt
  Prog.modify fun s => { s with ram := doParams env k initramfsLen rootfsAppend s.ram }
  Prog.exit (.started entry)

/-- `try_this_kernel` (lines 371–457) behind the partition. -/
def tryPartition : Phase2 Unit := do
  let ret ← readFile env extent fuel k env.board.noboot (.ram (kernelDram env)) 512
  if ret ≠ -1 then pure () else do
    Prog.modify fun s =>
      { s with commandlineRootfsAppend := patch s.commandlineRootfsAppend [(0, [0])] }
    let _ ← readFile env extent fuel k env.board.append .append 512
    let entry ← loadKernel env extent fuel k
    match entry with
    | none => pure ()
    | some entry => do
      let initramfsLen ← loadInitramfs env extent fuel k
      startKernel env k entry initramfsLen

/-- `try_this_kernel` (lines 371–457): everything from the start of the device to the jump into
    the kernel, for one source. -/
def tryThisKernel : Phase2 Unit := do
  Prog.modify fun s =>
    { s with
      partitionOffsetBlocks := 0, partitionLengthBlocks := 0,
      log := s.log ++ [.tryingKernel k.name] }
  let initialised ← doBlockInit env k
  if initialised then do
    let found ← doPartitions env k
    if found then tryPartition env extent fuel k else pure ()
  else pure ()

end Phase2

/-- The loop of `bootloader_second_phase` (lines 466–468). -/
def trySources (env : Env) (extent fuel : ℕ) : List KernelSource → Phase2 Unit
  | [] => pure ()
  | k :: ks => do
    tryThisKernel env extent fuel k
    trySources env extent fuel ks

/-- `bootloader_second_phase` (lines 459–494), with a pool of `extent` bytes. It
    returns at the point after its loop. -/
def bootloaderSecondPhase (env : Env) (extent fuel : ℕ) : Phase2 Unit :=
  trySources env extent fuel env.board.kernelSource

end SmartQ.Qi
