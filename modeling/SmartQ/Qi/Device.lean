import SmartQ.Lib.Ram
import SmartQ.Qi.Coalesce
import SmartQ.Qi.Inside
import SmartQ.Qi.Overrun

/-!
# Qi, second phase: the board, the allocator and the device reads

The globals of `qi/src/phase2.c`, `qi/src/fs/ext2.c` and `qi/src/utils-phase2.c`,
`malloc` and `ext2fs_devread` (`qi/src/fs/dev.c`). What the hardware does (the
contents of the devices, which reads fail, the keys) is an environment.

* `devread_fetches`: a read inside the partition that does not fail delivers its
  bytes.
* `devread_bounded`, `devread_boundedInt`: a read stores nothing behind what it is
  asked for.
-/

namespace SmartQ.Qi

open SmartQ.Lib

/-! ## The board -/

/-- `enum filesystem`: how a kernel source keeps its files. -/
inductive Filesystem
  | raw
  | fat
  | ext2
  deriving DecidableEq

/-- `struct kernel_source`; a device stands for its `block_read` function and a number
    for a `block_init` function. -/
structure KernelSource where
  name : String
  filepath : Option (List Byte)
  initramfsFilepath : Option (List Byte)
  blockInit : Option ℕ
  blockRead : ℕ
  partitionIndex : ℤ
  offsetBlocks512IfNoPartition : ℤ
  filesystem : Filesystem
  commandlineAppend : Option (List Byte)

/-- `struct board_api`: the memory that Linux is given, where its tag list goes, and the board's
    part of the command line. -/
structure BoardApi where
  linuxMemStart : ℕ
  linuxMemSize : ℕ
  linuxTagPlacement : ℕ
  commandlineBoard : List Byte
  commandlineBoardDebug : Option (List Byte)
  noboot : Option (List Byte)
  append : Option (List Byte)
  machineRevision : ℕ
  appendDeviceSpecificCmdline : Option (List Byte)
  kernelSource : List KernelSource

/-- How a call of `block_read` ends: with all the blocks, or with an error after some
    bytes. -/
inductive Outcome
  | done
  | failed (bytes : ℕ)

/-- The board and what happens around the program: the contents of the devices, how
    the `n`-th `block_read` ends, what the `n`-th `block_init`, `get_ui_keys` and
    `get_ui_debug` return, and what is left on the stack before the `n`-th read. -/
structure Env where
  board : BoardApi
  disk : ℕ → Disk
  outcome : ℕ → Outcome
  blockInit : ℕ → ℤ
  getUiKeys : Option (ℕ → ℕ)
  getUiDebug : Option Bool
  stack : ℕ → Byte

/-! ## The state -/

/-- How the program ends: in the kernel at `entry`, in the loop behind "Ran out of
    malloc pool", or by a store outside its object. -/
inductive Exit
  | started (entry : ℕ)
  | outOfPool
  | corrupt
  deriving DecidableEq

/-- `struct ext2fs_node`, with the superblock of its `data`. -/
structure Node where
  sblock : List Byte
  ino : ℤ
  inode : List Byte
  inodeRead : Bool
  deriving DecidableEq

/-- `indir1_block`, `indir1_size` and `indir1_blkno`, or the same of `indir2`. -/
structure Indir where
  block : Option (List Byte)
  size : ℤ
  blkno : ℤ

/-- What the program prints, as far as the model tells its texts apart. -/
inductive Msg
  | tryingKernel (name : String)
  | skipping
  deriving DecidableEq

/-- The globals. `pool` counts the bytes of `malloc_pool` in use, `root` is
    `ext2fs_root->diropen`; the calls of the board's functions are counted. -/
structure St where
  reads : ℕ
  inits : ℕ
  keys : ℕ
  pool : ℕ
  inodeSize : ℕ
  root : Option Node
  file : Option Node
  symlinknest : ℕ
  indir1 : Indir
  indir2 : Indir
  partitionOffsetBlocks : ℕ
  partitionLengthBlocks : ℕ
  lastBlockInit : Option ℕ
  lastBlockInitResult : ℤ
  commandlineRootfsAppend : List Byte
  ram : Ram
  log : List Msg

/-- The globals when the second phase starts. -/
def St.start (ram : Ram) : St where
  reads := 0
  inits := 0
  keys := 0
  pool := 0
  inodeSize := 128
  root := none
  file := none
  symlinknest := 0
  indir1 := ⟨none, 0, -1⟩
  indir2 := ⟨none, 0, -1⟩
  partitionOffsetBlocks := 0
  partitionLengthBlocks := 0
  lastBlockInit := none
  lastBlockInitResult := 0
  commandlineRootfsAppend := List.replicate 512 0
  ram := ram
  log := []

/-- A fragment of the second phase. -/
abbrev Phase2 (α : Type) : Type := Prog St Exit α

/-! ## `malloc` -/

/-- The pool offset after `malloc(size)`: the size is rounded up to the next multiple of 4 above
    it. -/
def poolAfter (pool size : ℕ) : ℕ := pool + (size / 4 * 4 + 4)

/-- `malloc`, with a pool of `extent` bytes. A request so large that the pointer
    wraps back into the pool hands out memory that is in use. -/
def malloc (extent size : ℕ) : Phase2 Unit := do
  let s ← Prog.get
  let pool := poolAfter s.pool size
  Prog.modify fun s => { s with pool := pool }
  Prog.exitIf (extent < pool % 2 ^ 32) .outOfPool
  Prog.exitIf (2 ^ 32 ≤ pool) .corrupt

/-- `MALLOC_POOL_EXTENT`: 100 KiB for a whole run, since nothing is freed. -/
def mallocPoolExtent : ℕ := 100 * 1024

/-! ## `ext2fs_devread` -/

section Devread

variable (env : Env) (k : KernelSource)

/-- The `n` bytes from block `start` on of the device of `k`; block numbers are
    `unsigned long`. -/
def sectors (start n : ℕ) : List Byte :=
  (List.range n).map fun j => env.disk k.blockRead ((start + j / 512) % 2 ^ 32 * 512 + j % 512)

/-- `this_kernel->block_read(buf, start512, blocks512)`: its value, and the bytes it
    puts at `buf`. -/
def blockRead (start blocks : ℕ) : Phase2 (ℤ × List Byte) :=
  Prog.step fun s =>
    (match env.outcome s.reads with
      | .done => ((blocks : ℤ), sectors env k start (512 * blocks))
      | .failed n => (-1, (sectors env k start (512 * blocks)).take n),
    { s with reads := s.reads + 1 })

/-- `(this_board->get_ui_keys)() & UI_ACTION_SKIPKERNEL`, with the message. -/
def skipKey : Phase2 Bool :=
  match env.getUiKeys with
  | none => pure false
  | some keys => Prog.step fun s =>
    if (keys s.keys).testBit 1 then
      (true, { s with keys := s.keys + 1, log := s.log ++ [.skipping] })
    else (false, { s with keys := s.keys + 1 })

/-- The read lies in the partition. -/
def inPartition (s : St) (sector byteOffset byteLen : ℤ) : Prop :=
  0 ≤ sector ∧
    toU32 (int32 (sector + int32 (byteOffset + byteLen - 1) / 512)) < s.partitionLengthBlocks

instance (s : St) (sector byteOffset byteLen : ℤ) :
    Decidable (inPartition s sector byteOffset byteLen) := by
  unfold inPartition
  infer_instance

/-- The block of the device behind sector `sector` of the partition. -/
def absolute (s : St) (sector : ℤ) : ℕ := add32 s.partitionOffsetBlocks (toU32 sector)

/-- The first part, which is not aligned with the start of a sector: `none` for a read
    error. -/
def readFirst (sector : ℤ) (offset len : ℕ) : Phase2 (Option (List Byte)) := do
  let s ← Prog.get
  let (ret, bytes) ← blockRead env k (absolute s sector) 1
  pure (if ret < 0 then none else some ((bytes.drop offset).take (min (512 - offset) len)))

/-- Less than a sector, through a buffer on the stack; the result of `block_read` is
    not looked at. -/
def readShort (sector : ℤ) (len : ℕ) : Phase2 (Bool × List Byte) := do
  let s ← Prog.get
  let (_, bytes) ← blockRead env k (absolute s sector) 1
  let p := bytes ++ (List.range (512 - bytes.length)).map fun j => env.stack (512 * s.reads + j)
  pure (true, p.take len)

/-- The rest after the whole sectors. -/
def readLast (sector : ℤ) (len : ℕ) : Phase2 (Bool × List Byte) :=
  if len = 0 then pure (true, []) else do
    let s ← Prog.get
    let (ret, bytes) ← blockRead env k (absolute s sector) 1
    pure (if ret ≠ 1 then (false, []) else (true, bytes.take len))

/-- The part that is aligned with a sector. -/
def readAligned (sector : ℤ) (len : ℕ) : Phase2 (Bool × List Byte) :=
  if len = 0 then pure (true, [])
  else if len / 512 = 0 then readShort env k sector len
  else do
    let s ← Prog.get
    let (ret, bytes) ← blockRead env k (absolute s sector) (len / 512)
    if ret < 0 then pure (false, bytes) else do
      let (ok, rest) ← readLast env k (int32 (sector + (len / 512 : ℕ))) (len % 512)
      pure (ok, bytes ++ rest)

/-- The reads of `ext2fs_devread`, for `len` bytes from byte `offset` of a sector on:
    `false` for a failure, and the stores in the buffer. -/
def transfer (sector : ℤ) (offset len : ℕ) : Phase2 (Bool × List Write) :=
  if offset = 0 then do
    let (ok, bytes) ← readAligned env k sector len
    pure (ok, [(0, bytes)])
  else do
    let first ← readFirst env k sector offset len
    match first with
    | none => pure (false, [])
    | some head => do
      let minimum := min (512 - offset) len
      let (ok, bytes) ← readAligned env k (int32 (sector + 1)) (len - minimum)
      pure (ok, [(0, head), (minimum, bytes)])

/-- The reads for a negative length, which is a count of nearly 2^32 bytes: a failure if
    the first of them fails, else a store over all the memory. -/
def transferNegative (sector : ℤ) (offset : ℕ) (len : ℤ) : Phase2 (Bool × List Write) := do
  let s ← Prog.get
  let blocks := if offset = 0 then toU32 len / 512 else 1
  let (ret, bytes) ← blockRead env k (absolute s sector) blocks
  Prog.exitIf (0 ≤ ret) .corrupt
  pure (false, if offset = 0 then [(0, bytes)] else [])

/-- The reads of `ext2fs_devread`, from byte `byteOffset` of `sector` on. -/
def transferFrom (sector byteOffset byteLen : ℤ) : Phase2 (Bool × List Write) :=
  let start := int32 (sector + byteOffset / 512)
  if byteLen < 0 then transferNegative env k start (byteOffset % 512).toNat byteLen
  else transfer env k start (byteOffset % 512).toNat byteLen.toNat

/-- `ext2fs_devread` (dev.c, lines 35–132): `false` for a failure, and the stores in
    the buffer. -/
def ext2fsDevread (sector log2 byteOffset byteLen : ℤ) : Phase2 (Bool × List Write) := do
  let s ← Prog.get
  let sector := shl32 sector log2
  if inPartition s sector byteOffset byteLen then do
    let skip ← skipKey env
    if skip then pure (false, []) else transferFrom env k sector byteOffset byteLen
  else pure (false, [])

end Devread

/-! ## What a device read changes -/

/-- The state after device reads: the calls are counted, and there may be messages of
    skipped reads. -/
structure Reads (s s' : St) : Prop where
  eq : s' = { s with reads := s'.reads, keys := s'.keys, log := s'.log }
  le : s.reads ≤ s'.reads
  log : ∃ n, s'.log = s.log ++ List.replicate n .skipping

theorem Reads.refl (s : St) : Reads s s := ⟨rfl, le_refl _, 0, (List.append_nil _).symm⟩

theorem Reads.trans (s s' s'' : St) (h : Reads s s') (h' : Reads s' s'') : Reads s s'' := by
  obtain ⟨n, hn⟩ := h.log
  obtain ⟨m, hm⟩ := h'.log
  refine ⟨?_, h.le.trans h'.le, n + m, ?_⟩
  · rw [h'.eq, h.eq]
  · rw [hm, hn, List.append_assoc, List.replicate_append_replicate]

section Reads

variable (env : Env) (k : KernelSource)

theorem blockRead_reads (start blocks : ℕ) : Prog.Steps Reads (blockRead env k start blocks) :=
  Prog.Steps.step fun _ => ⟨rfl, Nat.le_succ _, 0, (List.append_nil _).symm⟩

theorem skipKey_reads : Prog.Steps Reads (skipKey env) := by
  unfold skipKey
  split
  · exact Prog.Steps.ret Reads.refl _
  · apply Prog.Steps.step
    intro s
    split_ifs
    · exact ⟨rfl, le_refl _, 1, rfl⟩
    · exact ⟨rfl, le_refl _, 0, (List.append_nil _).symm⟩

theorem readFirst_reads (sector : ℤ) (offset len : ℕ) :
    Prog.Steps Reads (readFirst env k sector offset len) := by
  unfold readFirst
  apply Prog.Steps.bind Reads.trans (Prog.Steps.get Reads.refl)
  intro s
  apply Prog.Steps.bind Reads.trans (blockRead_reads env k _ _)
  exact fun _ => Prog.Steps.ret Reads.refl _

theorem readShort_reads (sector : ℤ) (len : ℕ) :
    Prog.Steps Reads (readShort env k sector len) := by
  unfold readShort
  apply Prog.Steps.bind Reads.trans (Prog.Steps.get Reads.refl)
  intro s
  apply Prog.Steps.bind Reads.trans (blockRead_reads env k _ _)
  exact fun _ => Prog.Steps.ret Reads.refl _

theorem readLast_reads (sector : ℤ) (len : ℕ) : Prog.Steps Reads (readLast env k sector len) := by
  unfold readLast
  split_ifs
  · exact Prog.Steps.ret Reads.refl _
  · apply Prog.Steps.bind Reads.trans (Prog.Steps.get Reads.refl)
    intro s
    apply Prog.Steps.bind Reads.trans (blockRead_reads env k _ _)
    exact fun _ => Prog.Steps.ret Reads.refl _

theorem readAligned_reads (sector : ℤ) (len : ℕ) :
    Prog.Steps Reads (readAligned env k sector len) := by
  unfold readAligned
  split_ifs
  · exact Prog.Steps.ret Reads.refl _
  · exact readShort_reads env k _ _
  · apply Prog.Steps.bind Reads.trans (Prog.Steps.get Reads.refl)
    intro s
    apply Prog.Steps.bind Reads.trans (blockRead_reads env k _ _)
    rintro ⟨ret, bytes⟩
    show Prog.Steps Reads (if ret < 0 then _ else _)
    split_ifs
    · exact Prog.Steps.ret Reads.refl _
    · apply Prog.Steps.bind Reads.trans (readLast_reads env k _ _)
      exact fun _ => Prog.Steps.ret Reads.refl _

theorem transfer_reads (sector : ℤ) (offset len : ℕ) :
    Prog.Steps Reads (transfer env k sector offset len) := by
  unfold transfer
  split_ifs
  · apply Prog.Steps.bind Reads.trans (readAligned_reads env k _ _)
    exact fun _ => Prog.Steps.ret Reads.refl _
  · apply Prog.Steps.bind Reads.trans (readFirst_reads env k _ _ _)
    intro first
    cases first with
    | none => exact Prog.Steps.ret Reads.refl _
    | some head =>
      apply Prog.Steps.bind Reads.trans (readAligned_reads env k _ _)
      exact fun _ => Prog.Steps.ret Reads.refl _

theorem transferNegative_reads (sector : ℤ) (offset : ℕ) (len : ℤ) :
    Prog.Steps Reads (transferNegative env k sector offset len) := by
  unfold transferNegative
  apply Prog.Steps.bind Reads.trans (Prog.Steps.get Reads.refl)
  intro s
  apply Prog.Steps.bind Reads.trans (blockRead_reads env k _ _)
  intro read
  apply Prog.Steps.bind Reads.trans (Prog.Steps.exitIf Reads.refl _ _)
  exact fun _ => Prog.Steps.ret Reads.refl _

theorem devread_reads (sector log2 byteOffset byteLen : ℤ) :
    Prog.Steps Reads (ext2fsDevread env k sector log2 byteOffset byteLen) := by
  unfold ext2fsDevread
  apply Prog.Steps.bind Reads.trans (Prog.Steps.get Reads.refl)
  intro s
  dsimp only
  split_ifs
  · apply Prog.Steps.bind Reads.trans (skipKey_reads env)
    intro skip
    split_ifs
    · exact Prog.Steps.ret Reads.refl _
    · show Prog.Steps Reads (if byteLen < 0 then _ else _)
      split_ifs
      · exact transferNegative_reads env k _ _ _
      · exact transfer_reads env k _ _ _
  · exact Prog.Steps.ret Reads.refl _

end Reads

/-! ## Reads that succeed -/

/-- No read fails, and the skip key is not pressed. -/
structure Env.Works (env : Env) : Prop where
  outcome : ∀ n, env.outcome n = .done
  noSkip : ∀ keys, env.getUiKeys = some keys → ∀ n, ¬ (keys n).testBit 1

/-- The next `n` device reads do not fail. -/
def DoneReads (env : Env) (s : St) (n : ℕ) : Prop := ∀ i < n, env.outcome (s.reads + i) = .done

theorem Env.Works.doneReads {env : Env} (h : env.Works) (s : St) (n : ℕ) : DoneReads env s n :=
  fun _ _ => h.outcome _

/-- The device reads for `len` bytes from the start of a sector on. -/
def alignedReads (len : ℕ) : ℕ :=
  (if len / 512 = 0 then 0 else 1) + (if len % 512 = 0 then 0 else 1)

/-- The bytes of the part that is not aligned with the start of a sector. -/
def headLen (offset len : ℕ) : ℕ := if offset = 0 then 0 else min (512 - offset) len

/-- The device reads for `len` bytes from byte `offset` of a sector on. -/
def transferReads (offset len : ℕ) : ℕ :=
  (if offset = 0 then 0 else 1) + alignedReads (len - headLen offset len)

/-- The bytes from block `offset` on of the device of `k`. -/
def partition (env : Env) (k : KernelSource) (offset : ℕ) : Disk := fun q =>
  env.disk k.blockRead ((offset + q / 512) % 2 ^ 32 * 512 + q % 512)

section Works

variable {env : Env} {k : KernelSource} {s : St} {len : ℕ}

theorem sectors_eq_load {start off sec : ℕ} (h : start % 2 ^ 32 = (off + sec) % 2 ^ 32) (n : ℕ) :
    sectors env k start n = load (partition env k off) (512 * sec) n := by
  apply List.map_congr_left
  intro j _
  have hblock : (start + j / 512) % 2 ^ 32 = (off + (512 * sec + j) / 512) % 2 ^ 32 := by
    omega
  have hbyte : j % 512 = (512 * sec + j) % 512 := by omega
  unfold partition
  rw [hblock, ← hbyte]

theorem absolute_mod {sec : ℤ} {n : ℕ} (hsec : toU32 sec = n % 2 ^ 32) :
    absolute s sec % 2 ^ 32 = (s.partitionOffsetBlocks + n) % 2 ^ 32 := by
  unfold absolute add32
  rw [hsec]
  omega

theorem blockRead_done (h : env.outcome s.reads = .done) (start blocks : ℕ) :
    blockRead env k start blocks s =
      some (.ok ((blocks : ℤ), sectors env k start (512 * blocks)),
        { s with reads := s.reads + 1 }) := by
  unfold blockRead
  rw [Prog.step_apply, h]

/-- A read of whole sectors. -/
theorem blockRead_load (h : env.outcome s.reads = .done)
    {sec : ℤ} {n : ℕ} (hsec : toU32 sec = n % 2 ^ 32)
    (blocks : ℕ) :
    blockRead env k (absolute s sec) blocks s =
      some (.ok ((blocks : ℤ), load (partition env k s.partitionOffsetBlocks) (512 * n)
        (512 * blocks)), { s with reads := s.reads + 1 }) := by
  rw [blockRead_done h, sectors_eq_load (absolute_mod hsec)]

theorem take_load {d : Disk} {a m n : ℕ} (h : m ≤ n) : (load d a n).take m = load d a m := by
  obtain ⟨c, rfl⟩ := Nat.exists_eq_add_of_le h
  rw [load_append, List.take_left' (length_load d a m)]

theorem drop_load {d : Disk} {a m n : ℕ} (h : m ≤ n) :
    (load d a n).drop m = load d (a + m) (n - m) := by
  obtain ⟨c, rfl⟩ := Nat.exists_eq_add_of_le h
  rw [load_append, List.drop_left' (length_load d a m), Nat.add_sub_cancel_left]

theorem skipKey_works (h : env.Works) : ∃ s', skipKey env s = some (.ok false, s') := by
  unfold skipKey
  rcases hkeys : env.getUiKeys with _ | keys
  · exact ⟨s, rfl⟩
  · refine ⟨{ s with keys := s.keys + 1 }, ?_⟩
    simp only [Prog.step_apply, if_neg (h.noSkip keys hkeys _)]

theorem readFirst_works (k : KernelSource) (s : St) (h : env.outcome s.reads = .done) {sec : ℤ}
    {n offset : ℕ} (len : ℕ) (hsec : toU32 sec = n % 2 ^ 32) (hoff : offset ≤ 512) :
    readFirst env k sec offset len s =
      some (.ok (some (load (partition env k s.partitionOffsetBlocks) (512 * n + offset)
        (min (512 - offset) len))), { s with reads := s.reads + 1 }) := by
  unfold readFirst
  rw [Prog.get_bind, Prog.bind_ok (blockRead_load h hsec 1)]
  simp only [Prog.pure_apply]
  rw [if_neg (by omega), drop_load (by omega), take_load (by omega)]

theorem readShort_works (h : env.outcome s.reads = .done) {sec : ℤ} {n len : ℕ}
    (hsec : toU32 sec = n % 2 ^ 32) (hlen : len ≤ 512) :
    ∃ s', readShort env k sec len s =
      some (.ok (true, load (partition env k s.partitionOffsetBlocks) (512 * n) len), s') := by
  unfold readShort
  refine ⟨{ s with reads := s.reads + 1 }, ?_⟩
  rw [Prog.get_bind, Prog.bind_ok (blockRead_load h hsec 1)]
  simp only [Prog.pure_apply]
  rw [List.take_append_of_le_length (by rw [length_load]; omega), take_load (by omega)]

theorem readLast_works (h : len ≠ 0 → env.outcome s.reads = .done) {sec : ℤ} {n : ℕ}
    (hsec : toU32 sec = n % 2 ^ 32) (hlen : len ≤ 512) :
    ∃ s', readLast env k sec len s =
      some (.ok (true, load (partition env k s.partitionOffsetBlocks) (512 * n) len), s') := by
  unfold readLast
  by_cases hzero : len = 0
  · rw [if_pos hzero, hzero]
    exact ⟨s, rfl⟩
  · refine ⟨{ s with reads := s.reads + 1 }, ?_⟩
    rw [if_neg hzero, Prog.get_bind, Prog.bind_ok (blockRead_load (h hzero) hsec 1)]
    simp only [Prog.pure_apply]
    rw [if_neg (not_not_intro Nat.cast_one), take_load (by omega)]

theorem readAligned_works (k : KernelSource) (s : St) (len : ℕ)
    (h : DoneReads env s (alignedReads len)) {sec : ℤ} {n : ℕ} (hsec : toU32 sec = n % 2 ^ 32) :
    ∃ s', readAligned env k sec len s =
      some (.ok (true, load (partition env k s.partitionOffsetBlocks) (512 * n) len), s') := by
  unfold readAligned
  by_cases hzero : len = 0
  · rw [if_pos hzero, hzero]
    exact ⟨s, rfl⟩
  · rw [if_neg hzero]
    unfold alignedReads at h
    by_cases hshort : len / 512 = 0
    · rw [if_pos hshort, if_neg (by omega)] at h
      rw [if_pos hshort]
      exact readShort_works (h 0 (by omega)) hsec (by omega)
    · rw [if_neg hshort] at h
      have hfirst : env.outcome s.reads = .done := h 0 (by omega)
      have hrest : len % 512 ≠ 0 → env.outcome (s.reads + 1) = .done := by
        intro hmod
        rw [if_neg hmod] at h
        exact h 1 (by omega)
      have hnext : toU32 (int32 (sec + (len / 512 : ℕ))) = (n + len / 512) % 2 ^ 32 := by
        rw [toU32_int32]
        unfold toU32 at hsec ⊢
        omega
      have hlen : len = 512 * (len / 512) + len % 512 := (Nat.div_add_mod len 512).symm
      obtain ⟨s', hlast⟩ := readLast_works (s := { s with reads := s.reads + 1 }) (k := k) hrest
        hnext (Nat.mod_lt len (by norm_num)).le
      refine ⟨s', ?_⟩
      rw [if_neg hshort, Prog.get_bind, Prog.bind_ok (blockRead_load hfirst hsec _)]
      dsimp only
      rw [if_neg (by omega), Prog.bind_ok hlast, Prog.pure_apply]
      conv_rhs => rw [hlen, load_append, ← Nat.mul_add]

theorem puts_one (bytes : List Byte) : Ext2.Puts [(0, bytes)] bytes := by
  constructor
  · intro w hw
    rw [List.mem_singleton] at hw
    rw [hw, Nat.zero_add]
  · intro j hj
    rw [overlay, if_pos ⟨Nat.zero_le j, by rwa [Nat.zero_add]⟩, overlay_nil, Option.none_or,
      Nat.sub_zero]

theorem puts_two (xs ys : List Byte) : Ext2.Puts [(0, xs), (xs.length, ys)] (xs ++ ys) := by
  constructor
  · intro w hw
    rw [List.length_append]
    rcases List.mem_cons.mp hw with rfl | hw
    · show 0 + xs.length ≤ _
      omega
    · rw [List.mem_singleton] at hw
      rw [hw]
  · intro j hj
    rw [List.length_append] at hj
    simp only [overlay, Option.none_or, Nat.zero_add, Nat.zero_le, true_and, Nat.sub_zero]
    by_cases hx : j < xs.length
    · rw [if_neg (by omega), if_pos hx, Option.none_or, byteAt_append_left _ hx]
    · rw [if_pos (by omega), Option.some_or, byteAt_append_right _ (by omega)]

theorem transfer_works (k : KernelSource) (s : St) {offset : ℕ} (len : ℕ)
    (h : DoneReads env s (transferReads offset len)) {sec : ℤ} {n : ℕ}
    (hsec : toU32 sec = n % 2 ^ 32) (hoff : offset < 512) :
    ∃ ws s', transfer env k sec offset len s = some (.ok (true, ws), s') ∧
      Ext2.Puts ws (load (partition env k s.partitionOffsetBlocks) (512 * n + offset) len) := by
  unfold transfer
  unfold transferReads headLen at h
  by_cases hzero : offset = 0
  · rw [if_pos hzero, if_pos hzero, Nat.zero_add, Nat.sub_zero] at h
    obtain ⟨s', hrun⟩ := readAligned_works k s len h hsec
    refine ⟨_, s', ?_, puts_one _⟩
    rw [if_pos hzero, Prog.bind_ok hrun, hzero, Nat.add_zero]
    simp only [Prog.pure_apply]
  · rw [if_neg hzero, if_neg hzero] at h
    have hfirst := readFirst_works k s (h 0 (by omega)) len hsec hoff.le
    have hlater : DoneReads env { s with reads := s.reads + 1 }
        (alignedReads (len - min (512 - offset) len)) := by
      intro i hi
      show env.outcome (s.reads + 1 + i) = .done
      rw [Nat.add_assoc]
      exact h (1 + i) (by omega)
    have hnext : toU32 (int32 (sec + 1)) = (n + 1) % 2 ^ 32 := by
      rw [toU32_int32]
      unfold toU32 at hsec ⊢
      omega
    obtain ⟨s2, hrest⟩ := readAligned_works k { s with reads := s.reads + 1 }
      (len - min (512 - offset) len) hlater hnext
    have hputs := puts_two
      (load (partition env k s.partitionOffsetBlocks) (512 * n + offset) (min (512 - offset) len))
      (load (partition env k s.partitionOffsetBlocks) (512 * (n + 1)) (len - min (512 - offset) len))
    have hcat : load (partition env k s.partitionOffsetBlocks) (512 * n + offset)
          (min (512 - offset) len) ++
        load (partition env k s.partitionOffsetBlocks) (512 * (n + 1))
          (len - min (512 - offset) len) =
        load (partition env k s.partitionOffsetBlocks) (512 * n + offset) len := by
      rcases Nat.le_total len (512 - offset) with hle | hle
      · rw [Nat.min_eq_right hle, Nat.sub_self, load_zero, List.append_nil]
      · have haddr : 512 * (n + 1) = 512 * n + offset + (512 - offset) := by omega
        rw [Nat.min_eq_left hle, haddr, ← load_append, Nat.add_sub_cancel' hle]
    rw [hcat, length_load] at hputs
    refine ⟨_, s2, ?_, hputs⟩
    rw [if_neg hzero, Prog.bind_ok hfirst]
    dsimp only
    rw [Prog.bind_ok hrest, Prog.pure_apply]

/-- A read of a nonempty range inside the partition. -/
theorem devread_works (h : env.Works) (k : KernelSource) (s : St)
    {sector log2 : ℤ} {st : ℕ} (sk ex : ℕ)
    (hsector : shl32 sector log2 = st) (hex : sk + ex < 2 ^ 31)
    (hpos : 0 < sk + ex) (hlimit : 512 * st + sk + ex ≤ 512 * s.partitionLengthBlocks)
    (hlen : s.partitionLengthBlocks < 2 ^ 32) :
    ∃ ws s', ext2fsDevread env k sector log2 sk ex s = some (.ok (true, ws), s') ∧ Reads s s' ∧
      Ext2.Puts ws (load (partition env k s.partitionOffsetBlocks) (512 * st + sk) ex) := by
  have hin : inPartition s (st : ℤ) sk ex := by
    refine ⟨Int.natCast_nonneg st, ?_⟩
    have hlast : ((sk : ℤ) + ex - 1) = (sk + ex - 1 : ℕ) := by omega
    have hsum : (st : ℤ) + ((sk + ex - 1 : ℕ) : ℤ) / 512 = (st + (sk + ex - 1) / 512 : ℕ) := by
      push_cast
      rfl
    rw [hlast, int32_natCast (by omega), hsum, toU32_int32, toU32_natCast (by omega)]
    omega
  obtain ⟨s1, hskip⟩ := skipKey_works (s := s) h
  have hreads1 : Reads s s1 := skipKey_reads env _ _ _ hskip
  have hsame : s1.partitionOffsetBlocks = s.partitionOffsetBlocks := by rw [hreads1.eq]
  have hstart : toU32 (int32 ((st : ℤ) + (sk : ℤ) / 512)) = (st + sk / 512) % 2 ^ 32 := by
    rw [toU32_int32]
    unfold toU32
    omega
  have hoffset : ((sk : ℤ) % 512).toNat = sk % 512 := by omega
  obtain ⟨ws, s2, hrun, hputs⟩ := transfer_works k s1 ex (h.doneReads s1 _) hstart
    (Nat.mod_lt sk (by norm_num))
  have haddr : 512 * (st + sk / 512) + sk % 512 = 512 * st + sk := by omega
  rw [hsame, haddr] at hputs
  refine ⟨ws, s2, ?_, hreads1.trans _ _ _ (transfer_reads env k _ _ _ _ _ _ hrun), hputs⟩
  unfold ext2fsDevread
  rw [Prog.get_bind, hsector, if_pos hin, Prog.bind_ok hskip]
  simp only [Bool.false_eq_true, if_false]
  unfold transferFrom
  rw [if_neg (by omega), hoffset, Int.toNat_natCast]
  exact hrun

end Works

/-! ## What a device read that succeeds delivers -/

/-- No `block_read` between the two states fails. -/
def Undisturbed (env : Env) (s s' : St) : Prop :=
  ∀ n, s.reads ≤ n → n < s'.reads → env.outcome n = .done

section Delivered

variable {env : Env} {k : KernelSource} {s s' : St} {sec ret : ℤ} {start blocks len : ℕ}
  {bytes : List Byte}

theorem blockRead_cases (h : blockRead env k start blocks s = some (.ok (ret, bytes), s')) :
    s'.reads = s.reads + 1 ∧ (env.outcome s.reads = .done ∨ ret = -1) := by
  unfold blockRead at h
  rw [Prog.step_apply] at h
  cases hout : env.outcome s.reads with
  | done =>
    rw [hout] at h
    cases h
    exact ⟨rfl, .inl rfl⟩
  | failed n =>
    rw [hout] at h
    cases h
    exact ⟨rfl, .inr rfl⟩

/-- The result of a read of less than a sector says nothing; those of the others do. -/
theorem readAligned_done (hdone : Undisturbed env s s')
    (h : readAligned env k sec len s = some (.ok (true, bytes), s')) :
    DoneReads env s (alignedReads len) := by
  unfold readAligned at h
  unfold alignedReads
  split_ifs at h with hzero hshort
  · rw [hzero]
    exact fun i hi => absurd hi (Nat.not_lt_zero i)
  · unfold readShort at h
    rw [Prog.get_bind] at h
    obtain ⟨⟨ret, bs⟩, s1, hread, hrest⟩ := Prog.bind_eq_ok.mp h
    obtain ⟨hcount, -⟩ := blockRead_cases hread
    cases hrest
    intro i hi
    rw [if_pos hshort, if_neg (by omega)] at hi
    obtain rfl : i = 0 := by omega
    exact hdone _ (le_refl _) (by omega)
  · rw [Prog.get_bind] at h
    obtain ⟨⟨ret, bs⟩, s1, hread, hrest⟩ := Prog.bind_eq_ok.mp h
    obtain ⟨hcount, hfirst⟩ := blockRead_cases hread
    dsimp only at hrest
    split_ifs at hrest with hret
    · cases hrest
    · obtain ⟨⟨ok, rest⟩, s2, hlast, hpure⟩ := Prog.bind_eq_ok.mp hrest
      cases hpure
      have hfirst : env.outcome s.reads = .done := hfirst.resolve_right (by omega)
      unfold readLast at hlast
      intro i hi
      rw [if_neg hshort] at hi
      split_ifs at hlast hi with hmod
      · obtain rfl : i = 0 := by omega
        exact hfirst
      · rw [Prog.get_bind] at hlast
        obtain ⟨⟨ret', bs'⟩, s3, hread', hrest'⟩ := Prog.bind_eq_ok.mp hlast
        obtain ⟨-, hsecond⟩ := blockRead_cases hread'
        dsimp only at hrest'
        split_ifs at hrest' with hret'
        · cases hrest'
        · have hsecond : env.outcome s1.reads = .done := hsecond.resolve_right (by omega)
          rw [hcount] at hsecond
          rcases Nat.lt_succ_iff_lt_or_eq.mp hi with hi | rfl
          · obtain rfl : i = 0 := by omega
            exact hfirst
          · exact hsecond

theorem skipKey_count {skip : Bool} (h : skipKey env s = some (.ok skip, s')) :
    s'.reads = s.reads := by
  have hsteps : Prog.Steps (fun s s' : St => s'.reads = s.reads) (skipKey env) := by
    unfold skipKey
    split
    · rintro s r s' ⟨⟩
      rfl
    · apply Prog.Steps.step
      intro s
      split_ifs <;> rfl
  exact hsteps _ _ _ h

/-- A read that succeeds delivers the bytes of the partition from its sector on. -/
theorem devread_true {st ex : ℤ} {ws : List Write} (hdone : Undisturbed env s s')
    (h : ext2fsDevread env k st 0 0 ex s = some (.ok (true, ws), s')) :
    0 ≤ ex ∧
      Ext2.Puts ws (load (partition env k s.partitionOffsetBlocks) (512 * toU32 st) ex.toNat) := by
  unfold ext2fsDevread at h
  rw [Prog.get_bind] at h
  split_ifs at h with hin
  · obtain ⟨skip, s1, hskip, hrest⟩ := Prog.bind_eq_ok.mp h
    have hcount := skipKey_count hskip
    have hsame : s1.partitionOffsetBlocks = s.partitionOffsetBlocks := by
      rw [(skipKey_reads env _ _ _ hskip).eq]
    split_ifs at hrest with hskipped
    · cases hrest
    · unfold transferFrom at hrest
      split_ifs at hrest with hneg
      · unfold transferNegative at hrest
        rw [Prog.get_bind] at hrest
        obtain ⟨⟨ret, bs⟩, s2, -, hlast⟩ := Prog.bind_eq_ok.mp hrest
        rcases Prog.exitIf_bind hlast with ⟨-, hexit, -⟩ | ⟨-, hpure⟩
        · cases hexit
        · cases hpure
      · refine ⟨not_lt.mp hneg, ?_⟩
        have hstart : toU32 (int32 (shl32 st 0 + 0 / 512)) = toU32 st % 2 ^ 32 := by
          rw [toU32_int32, shl32, if_pos (by norm_num)]
          norm_num
          unfold toU32
          omega
        unfold transfer at hrest
        rw [show ((0 : ℤ) % 512).toNat = 0 from rfl, if_pos rfl] at hrest
        obtain ⟨⟨ok, bytes⟩, s2, hread, hpure⟩ := Prog.bind_eq_ok.mp hrest
        cases hpure
        have hdone1 : Undisturbed env s1 s' := by
          unfold Undisturbed
          rwa [hcount]
        obtain ⟨s3, hworks⟩ := readAligned_works k s1 ex.toNat (readAligned_done hdone1 hread) hstart
        rw [hread] at hworks
        cases hworks
        rw [← hsame]
        exact puts_one _
  · cases h

end Delivered

/-! ## What a device read stores -/

section Bounded

variable {env : Env} {k : KernelSource} {s s' : St} {sec ret : ℤ} {start blocks offset len : ℕ}
  {ok : Bool} {bytes : List Byte}

theorem blockRead_length (h : blockRead env k start blocks s = some (.ok (ret, bytes), s')) :
    bytes.length ≤ 512 * blocks := by
  have hlen : (sectors env k start (512 * blocks)).length = 512 * blocks := by simp [sectors]
  unfold blockRead at h
  rw [Prog.step_apply] at h
  rcases hout : env.outcome s.reads with _ | n
  · rw [hout] at h
    cases h
    exact hlen.le
  · rw [hout] at h
    cases h
    rw [List.length_take, hlen]
    exact min_le_right _ _

theorem readLast_length (h : readLast env k sec len s = some (.ok (ok, bytes), s')) :
    bytes.length ≤ len := by
  unfold readLast at h
  split_ifs at h with hzero
  · cases h
    exact Nat.zero_le _
  · rw [Prog.get_bind] at h
    obtain ⟨⟨ret, bs⟩, s1, hread, hrest⟩ := Prog.bind_eq_ok.mp h
    simp only [Prog.pure_apply, Option.some.injEq, Prod.mk.injEq, Except.ok.injEq] at hrest
    obtain ⟨heq, -⟩ := hrest
    split_ifs at heq
    · cases heq
      exact Nat.zero_le _
    · cases heq
      exact List.length_take_le _ _

theorem readAligned_length (h : readAligned env k sec len s = some (.ok (ok, bytes), s')) :
    bytes.length ≤ len := by
  unfold readAligned at h
  split_ifs at h with hzero hshort
  · cases h
    exact Nat.zero_le _
  · unfold readShort at h
    rw [Prog.get_bind] at h
    obtain ⟨⟨ret, bs⟩, s1, hread, hrest⟩ := Prog.bind_eq_ok.mp h
    cases hrest
    exact List.length_take_le _ _
  · rw [Prog.get_bind] at h
    obtain ⟨⟨ret, bs⟩, s1, hread, hrest⟩ := Prog.bind_eq_ok.mp h
    have hlen := blockRead_length hread
    dsimp only at hrest
    split_ifs at hrest with hret
    · cases hrest
      omega
    · obtain ⟨⟨ok', rest⟩, s2, hlast, hpure⟩ := Prog.bind_eq_ok.mp hrest
      have hrestlen := readLast_length hlast
      cases hpure
      show (bs ++ rest).length ≤ len
      rw [List.length_append]
      omega

theorem readFirst_length {head : List Byte}
    (h : readFirst env k sec offset len s = some (.ok (some head), s')) :
    head.length ≤ min (512 - offset) len := by
  unfold readFirst at h
  rw [Prog.get_bind] at h
  obtain ⟨⟨ret, bs⟩, s1, hread, hrest⟩ := Prog.bind_eq_ok.mp h
  simp only [Prog.pure_apply, Option.some.injEq, Prod.mk.injEq, Except.ok.injEq] at hrest
  obtain ⟨heq, -⟩ := hrest
  split_ifs at heq
  cases heq
  exact List.length_take_le _ _

theorem transfer_length {ws : List Write}
    (h : transfer env k sec offset len s = some (.ok (ok, ws), s')) :
    ∀ w ∈ ws, w.1 + w.2.length ≤ len := by
  unfold transfer at h
  split_ifs at h with hzero
  · obtain ⟨⟨ok', bytes⟩, s1, hread, hpure⟩ := Prog.bind_eq_ok.mp h
    have hlen := readAligned_length hread
    cases hpure
    intro w hw
    rw [List.mem_singleton] at hw
    rw [hw, Nat.zero_add]
    exact hlen
  · obtain ⟨first, s1, hread, hrest⟩ := Prog.bind_eq_ok.mp h
    rcases first with _ | head
    · cases hrest
      exact fun w hw => absurd hw List.not_mem_nil
    · have hhead := readFirst_length hread
      obtain ⟨⟨ok', bytes⟩, s2, hread', hpure⟩ := Prog.bind_eq_ok.mp hrest
      have hlen := readAligned_length hread'
      have hmin := min_le_right (512 - offset) len
      cases hpure
      intro w hw
      rcases List.mem_cons.mp hw with rfl | hw
      · show 0 + head.length ≤ len
        omega
      · rw [List.mem_singleton] at hw
        rw [hw]
        show min (512 - offset) len + bytes.length ≤ len
        omega

/-- Whether it succeeds or fails, a device read stores nothing behind the bytes it is
    asked for. -/
theorem devread_bounded (env : Env) (k : KernelSource) : Ext2.Bounded (ext2fsDevread env k) := by
  intro st sk ok ws s s' ex h
  unfold ext2fsDevread at h
  rw [Prog.get_bind] at h
  split_ifs at h with hin
  · obtain ⟨skip, s1, -, hrest⟩ := Prog.bind_eq_ok.mp h
    split_ifs at hrest
    · cases hrest
      exact fun w hw => absurd hw List.not_mem_nil
    · unfold transferFrom at hrest
      rw [if_neg (by omega), Int.toNat_natCast] at hrest
      exact transfer_length hrest
  · cases h
    exact fun w hw => absurd hw List.not_mem_nil

theorem transferNegative_length {n : ℤ} {ws : List Write}
    (h : transferNegative env k sec offset n s = some (.ok (ok, ws), s')) :
    ∀ w ∈ ws, w.1 + w.2.length ≤ toU32 n := by
  unfold transferNegative at h
  rw [Prog.get_bind] at h
  obtain ⟨⟨ret, bs⟩, s1, hread, hrest⟩ := Prog.bind_eq_ok.mp h
  have hlen := blockRead_length hread
  rcases Prog.exitIf_bind hrest with ⟨-, hexit, -⟩ | ⟨-, hpure⟩
  · cases hexit
  · cases hpure
    intro w hw
    split_ifs at hw hlen with hzero
    · rw [List.mem_singleton] at hw
      rw [hw, Nat.zero_add]
      show bs.length ≤ _
      omega
    · exact absurd hw List.not_mem_nil

/-- The same for a length that is negative as an `int`. -/
theorem devread_boundedInt (env : Env) (k : KernelSource) :
    Ext2.BoundedInt (ext2fsDevread env k) := by
  intro st sk ex ok ws s s' hge hlt h
  rcases Int.lt_or_le ex 0 with hneg | hnn
  · unfold ext2fsDevread at h
    rw [Prog.get_bind] at h
    split_ifs at h with hin
    · obtain ⟨skip, s1, -, hrest⟩ := Prog.bind_eq_ok.mp h
      split_ifs at hrest
      · cases hrest
        exact fun w hw => absurd hw List.not_mem_nil
      · unfold transferFrom at hrest
        rw [if_pos hneg] at hrest
        exact transferNegative_length hrest
    · cases h
      exact fun w hw => absurd hw List.not_mem_nil
  · obtain ⟨n, rfl⟩ := Int.eq_ofNat_of_zero_le hnn
    rw [toU32_natCast (by omega)]
    exact devread_bounded env k _ _ _ _ _ _ _ h

end Bounded

end SmartQ.Qi
