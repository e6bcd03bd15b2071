import SmartQ.Qi.Device

/-!
# Qi, second phase: the ext2 reader

Model of `qi/src/fs/ext2.c`: inodes, the block map with its two cached tables, the
walk over a directory, symbolic links, and the calls the boot loop makes. The
structures are the bytes on the disk.

The functions take the size `extent` of the allocator's pool. `fuel` bounds the
records a walk over a directory looks at; a walk that does not end is `none`.
-/

namespace SmartQ.Qi

open SmartQ.Lib

/-! ## Objects in memory -/

/-- What was left in memory where an object of `n` bytes is put. -/
def Env.junk (env : Env) (s : St) (n : ℕ) : List Byte :=
  (List.range n).map fun j => env.stack (512 * s.reads + j)

/-- The object `bs` after the stores `ws`. -/
def patch (bs : List Byte) (ws : List Write) : List Byte :=
  (List.range bs.length).map fun j => (overlay ws j).getD (byteAt bs j)

/-- The stores stay inside an object of `n` bytes. -/
def Within (ws : List Write) (n : ℕ) : Prop := ∀ w ∈ ws, w.1 + w.2.length ≤ n

instance (ws : List Write) (n : ℕ) : Decidable (Within ws n) := by
  unfold Within
  infer_instance

/-- The C string at the start of an object. -/
def cstr (bs : List Byte) : List Byte := bs.takeWhile (· ≠ 0)

/-- `x % y` on `unsigned int`. -/
def umod (x y : ℕ) : ℕ := if y = 0 then 0 else x % y

/-! ## The superblock and the inodes -/

namespace Node

variable (node : Node)

/-- `LOG2_EXT2_BLOCK_SIZE`: the power by which a block is longer than a sector. -/
def log2 : ℤ := int32 (u32At node.sblock 24 + 1)

/-- `EXT2_BLOCK_SIZE`: the bytes of a block, by the superblock. -/
def blksz : ℤ := shl32 1 (u32At node.sblock 24 + 10)

/-- `first_data_block`, the block of the superblock, behind which the block groups are described.
    -/
def firstDataBlock : ℕ := u32At node.sblock 20

/-- `inodes_per_group`, by which the number of an inode is split into group and place. -/
def inodesPerGroup : ℕ := u32At node.sblock 40

/-- `inode.size`: the bytes of the file, a word of the inode. -/
def size : ℕ := u32At node.inode 4

/-- `inode.b.blocks.dir_blocks[i]`: the number of one of the first twelve blocks of the file. -/
def dirBlock (i : ℕ) : ℕ := u32At node.inode (40 + 4 * i)

/-- `inode.b.blocks.indir_block`, the block with the table for the blocks behind the direct ones.
    -/
def indirBlock : ℕ := u32At node.inode 88

/-- `inode.b.blocks.double_indir_block`, the block with the table of tables behind those. -/
def doubleIndirBlock : ℕ := u32At node.inode 92

end Node

/-- `sizeof(struct ext2_sblock)`, `sizeof(struct ext2_block_group)`,
    `sizeof(struct ext2_inode)`, `sizeof(struct ext2fs_node)`,
    `sizeof(struct ext2_data)` and `sizeof(struct ext2_dirent)`. -/
def sblockSize : ℕ := 204

/-- `sizeof(struct ext2_block_group)`: the descriptors lie one behind the other. -/
def blockGroupSize : ℕ := 32

/-- `sizeof(struct ext2_inode)`, of which 128 bytes are read whatever `inode_size` is. -/
def inodeSize : ℕ := 128

/-- `sizeof(struct ext2fs_node)`, what each entry of a directory takes from the pool. -/
def nodeSize : ℕ := 140

/-- `sizeof(struct ext2_data)`, what each mount takes from the pool. -/
def dataSize : ℕ := 348

/-- `sizeof(struct ext2_dirent)`, a record without its name. -/
def direntSize : ℕ := 8

section Ext2

variable (env : Env) (extent : ℕ) (k : KernelSource)

/-- Read a structure of `n` bytes; `none` if that fails. -/
def readStruct (sector log2 byteOffset : ℤ) (n : ℕ) : Phase2 (Option (List Byte)) := do
  let s ← Prog.get
  let (ok, ws) ← ext2fsDevread env k sector log2 byteOffset n
  pure (if ok then some (patch (env.junk s n) ws) else none)

/-- `ext2fs_blockgroup`: the descriptor of a group, read from the block behind the superblock.
    -/
def ext2fsBlockgroup (node : Node) (group : ℕ) : Phase2 (Option (List Byte)) :=
  readStruct env k (int32 (node.firstDataBlock + 1)) node.log2 (int32 (group * blockGroupSize))
    blockGroupSize

/-- `ext2fs_read_inode` (lines 198–234), with the superblock of `node`. -/
def ext2fsReadInode (node : Node) (ino : ℤ) : Phase2 (Option (List Byte)) := do
  let s ← Prog.get
  let ino := toU32 (ino - 1)
  let blkgrp ← ext2fsBlockgroup env k node (ino / node.inodesPerGroup)
  match blkgrp with
  | none => pure none
  | some blkgrp =>
    let inodesPerBlock := toU32 node.blksz / s.inodeSize
    let blkno := umod ino node.inodesPerGroup / inodesPerBlock
    let blkoff := umod (umod ino node.inodesPerGroup) inodesPerBlock
    readStruct env k (int32 (u32At blkgrp 8 + blkno)) node.log2 (int32 (s.inodeSize * blkoff))
      inodeSize

/-! ## The block map -/

/-- Which of the two cached tables. -/
inductive Level
  | indir1
  | indir2
  deriving DecidableEq

/-- The cached table of a level: `indir1` or `indir2` with its block and number. -/
def St.table (s : St) : Level → Indir
  | .indir1 => s.indir1
  | .indir2 => s.indir2

/-- Replace the cached table. -/
def St.setTable (s : St) (t : Indir) : Level → St
  | .indir1 => { s with indir1 := t }
  | .indir2 => { s with indir2 := t }

/-- Memory for the table, unless there is one of the size of a block. -/
def allocTable (blksz : ℤ) (lv : Level) : Phase2 Unit := do
  let s ← Prog.get
  if (s.table lv).block = none ∨ blksz ≠ (s.table lv).size then do
    malloc extent (toU32 blksz)
    Prog.modify fun s => s.setTable ⟨some (env.junk s blksz.toNat), blksz, -1⟩ lv
  else pure ()

/-- The table in block `blkno`, from the cache or from the device; `none` if the read
    fails. -/
def loadTable (node : Node) (blkno : ℕ) (lv : Level) : Phase2 (Option (List Byte)) := do
  allocTable env extent node.blksz lv
  let s ← Prog.get
  let block := (s.table lv).block.getD []
  if shl32 blkno node.log2 ≠ (s.table lv).blkno then do
    let (ok, ws) ← ext2fsDevread env k (int32 blkno) node.log2 0 node.blksz
    let block := patch block ws
    Prog.modify fun s => s.setTable ⟨some block, (s.table lv).size,
      if ok then shl32 blkno node.log2 else (s.table lv).blkno⟩ lv
    pure (if ok then some block else none)
  else pure (some block)

/-- Entry `i` of a table. -/
def entry (table : List Byte) (i : ℕ) : ℤ := int32 (u32At table (4 * i))

/-- `ext2fs_read_block` (lines 245–381). A failed read of the single indirect table is
    block 0. -/
def ext2fsReadBlock (node : Node) (fileblock : ℤ) : Phase2 ℤ :=
  let perblock := cdiv node.blksz 4
  if fileblock < 12 then do
    Prog.exitIf (fileblock < 0) .corrupt
    pure (int32 (node.dirBlock fileblock.toNat))
  else if fileblock < int32 (12 + perblock) then do
    let table ← loadTable env extent k node node.indirBlock .indir1
    match table with
    | none => pure 0
    | some table => pure (entry table (fileblock - 12).toNat)
  else if fileblock < int32 (12 + int32 (perblock * int32 (perblock + 1))) then do
    let rblock := toU32 (fileblock - (12 + perblock))
    let table ← loadTable env extent k node node.doubleIndirBlock .indir1
    match table with
    | none => pure (-1)
    | some table => do
      let table ← loadTable env extent k node (toU32 (entry table (rblock / toU32 perblock))) .indir2
      match table with
      | none => pure (-1)
      | some table => pure (entry table (umod rblock (toU32 perblock)))
  else pure (-1)

/-- What `ext2fs_read_file` works out before its loop. -/
def request (node : Node) (pos : ℤ) (len : ℕ) : Ext2.Req := ⟨node.log2, pos, min len node.size⟩

/-- `ext2fs_read_file` (lines 384–490): its value and the stores in the buffer. -/
def ext2fsReadFile (node : Node) (pos : ℤ) (len : ℕ) : Phase2 (ℤ × List Write) :=
  Ext2.readFile (ext2fsReadBlock env extent k node) (ext2fsDevread env k) (request node pos len)

/-- Read a part of a file into an object of `n` bytes. -/
def readObject (node : Node) (pos : ℤ) (len n : ℕ) : Phase2 (ℤ × List Byte) := do
  let s ← Prog.get
  let (ret, ws) ← ext2fsReadFile env extent k node pos len
  Prog.exitIf (¬ Within ws n) .corrupt
  pure (ret, patch (env.junk s n) ws)

/-! ## Directories -/

/-- `FILETYPE_UNKNOWN`, `FILETYPE_REG`, `FILETYPE_DIRECTORY` and `FILETYPE_SYMLINK`, which a
    record or an inode names. -/
inductive Ftype
  | unknown
  | reg
  | directory
  | symlink
  deriving DecidableEq

/-- The type in a directory entry. -/
def Ftype.ofDirent (filetype : Byte) : Ftype :=
  if filetype = 2 then .directory
  else if filetype = 7 then .symlink
  else if filetype = 1 then .reg
  else .unknown

/-- The type in an inode. -/
def Ftype.ofInode (inode : List Byte) : Ftype :=
  let mode := u16At inode 0 / 2 ^ 12 * 2 ^ 12
  if mode = 0x4000 then .directory
  else if mode = 0xa000 then .symlink
  else if mode = 0x8000 then .reg
  else .unknown

/-- `node` with its inode, which is read unless that has been done; `none` if the read
    fails. -/
def readNode (node : Node) : Phase2 (Option Node) :=
  if node.inodeRead then pure (some node) else do
    let inode ← ext2fsReadInode env k node node.ino
    pure (inode.map fun inode => { node with inode := inode })

/-- The node and the type of a directory entry; `none` if its inode has to be read and
    that fails. -/
def entryNode (dir : Node) (dirent : List Byte) : Phase2 (Option (Node × Ftype)) := do
  let s ← Prog.get
  let ino := int32 (u32At dirent 0)
  if byteAt dirent 7 ≠ 0 then
    pure (some (⟨dir.sblock, ino, env.junk s inodeSize, false⟩, Ftype.ofDirent (byteAt dirent 7)))
  else do
    let inode ← ext2fsReadInode env k dir ino
    pure (inode.map fun inode => (⟨dir.sblock, ino, inode, true⟩, Ftype.ofInode inode))

/-- The loop of `ext2fs_iterate_dir` from position `fpos` on, for an entry called
    `name`. -/
def iterate (dir : Node) (name : List Byte) : ℕ → ℕ → Phase2 (Option (Node × Ftype))
  | 0, _ => Prog.stuck
  | fuel + 1, fpos =>
    if fpos < dir.size then do
      let (status, dirent) ← readObject env extent k dir (int32 fpos) direntSize direntSize
      let namelen := (byteAt dirent 6).toNat
      let next := add32 fpos (u16At dirent 4)
      if status < 1 then pure none
      else if namelen ≠ 0 then do
        let (status, filename) ← readObject env extent k dir
          (int32 (add32 fpos direntSize : ℕ)) namelen 256
        if status < 1 then pure none else do
          malloc extent nodeSize
          let found ← entryNode env k dir dirent
          match found with
          | none => pure none
          | some found =>
            if cstr (filename.take namelen) = name then pure (some found)
            else iterate dir name fuel next
      else iterate dir name fuel next
    else pure none

/-- `ext2fs_iterate_dir` (lines 493–634), as `ext2fs_find_file1` calls it. -/
def ext2fsIterateDir (fuel : ℕ) (dir : Node) (name : List Byte) :
    Phase2 (Option (Node × Ftype)) := do
  let dir ← readNode env k dir
  match dir with
  | none => pure none
  | some dir => iterate env extent k dir name fuel 0

/-- `ext2fs_read_symlink` (lines 637–670): the target; `none` if the inode, or a target
    outside of it, cannot be read. -/
def ext2fsReadSymlink (node : Node) : Phase2 (Option (List Byte)) := do
  let node ← readNode env k node
  match node with
  | none => pure none
  | some node => do
    malloc extent ((node.size + 1) % 2 ^ 32)
    if node.size < 60 then pure (some (cstr ((node.inode.drop 40).take node.size)))
    else do
      Prog.exitIf (node.size + 1 = 2 ^ 32) .corrupt
      let (status, symlink) ← readObject env extent k node 0 node.size (node.size + 1)
      pure (if status = 0 then none else some (cstr (symlink.take node.size)))

/-! ## Paths -/

/-- The names in a path, between its slashes. -/
def components (path : List Byte) : List (List Byte) :=
  (path.splitOn (0x2f : Byte)).filter (· ≠ [])

/-- The loop of `ext2fs_find_file1` over the names of a path, with the lookup of the
    target of a symbolic link. -/
def findNames (fuel : ℕ) (follow : List Byte → Node → Phase2 (Option (Node × Ftype))) :
    List (List Byte) → Node → Ftype → Phase2 (Option (Node × Ftype))
  | [], node, type => pure (some (node, type))
  | name :: names, node, type =>
    if type ≠ .directory then pure none else do
      let found ← ext2fsIterateDir env extent k fuel node name
      match found with
      | none => pure none
      | some (next, .symlink) => do
        Prog.modify fun s => { s with symlinknest := s.symlinknest + 1 }
        let s ← Prog.get
        if s.symlinknest = 8 then pure none else do
          let symlink ← ext2fsReadSymlink env extent k next
          match symlink with
          | none => pure none
          | some symlink => do
            let found ← follow symlink (if symlink.head? = some 0x2f then s.root.getD node else node)
            match found with
            | none => pure none
            | some (next, type) => findNames fuel follow names next type
      | some (next, type) => findNames fuel follow names next type

/-- `ext2fs_find_file1` (lines 673–763), with at most `depth` nested links. A path
    without names leaves the type of the file as it is. -/
def ext2fsFindFile1 (fuel : ℕ) : ℕ → List Byte → Node → Ftype → Phase2 (Option (Node × Ftype))
  | 0, _, _, _ => Prog.stuck
  | depth + 1, path, currroot, foundtype =>
    if components path = [] then pure (some (currroot, foundtype))
    else findNames env extent k fuel
      (fun symlink node => ext2fsFindFile1 fuel depth symlink node .symlink)
      (components path) currroot .directory

/-- `ext2fs_find_file` (lines 766–791), for a regular file. -/
def ext2fsFindFile (fuel : ℕ) (path : Option (List Byte)) (root : Node) :
    Phase2 (Option Node) := do
  Prog.modify fun s => { s with symlinknest := 0 }
  match path with
  | none => pure none
  | some path => do
    let found ← ext2fsFindFile1 env extent k fuel 8 path root .directory
    match found with
    | some (node, .reg) => pure (some node)
    | _ => pure none

/-! ## The calls of the boot loop -/

/-- `ext2fs_open` (lines 821–854): the size of the file, or a negative value. -/
def ext2fsOpen (fuel : ℕ) (filename : Option (List Byte)) : Phase2 ℤ := do
  let s ← Prog.get
  match s.root with
  | none => pure (-1)
  | some root => do
    Prog.modify fun s => { s with file := none }
    let found ← ext2fsFindFile env extent k fuel filename root
    match found with
    | none => pure (-2)
    | some node => do
      let node ← readNode env k node
      match node with
      | none => pure (-3)
      | some node => do
        Prog.modify fun s => { s with file := some node }
        pure (int32 node.size)

/-- `ext2fs_read` (lines 883–894): its value and the stores in the buffer. -/
def ext2fsRead (len : ℕ) : Phase2 (ℤ × List Write) := do
  let s ← Prog.get
  match s.root, s.file with
  | some _, some file => ext2fsReadFile env extent k file 0 len
  | _, _ => pure (0, [])

/-- The size of an inode on the disk. -/
def ext2InodeSize (sblock : List Byte) : ℕ :=
  if u32At sblock 76 = 0 then inodeSize else u16At sblock 88

/-- `ext2fs_mount` (lines 897–939): it takes its data from the pool, reads the superblock and
    then the inode of the root directory. -/
def ext2fsMount : Phase2 Bool := do
  malloc extent dataSize
  let sblock ← readStruct env k 2 0 0 sblockSize
  match sblock with
  | none => do
    Prog.modify fun s => { s with root := none }
    pure false
  | some sblock =>
    if u16At sblock 56 ≠ 0xef53 then do
      Prog.modify fun s => { s with root := none }
      pure false
    else do
      Prog.modify fun s => { s with inodeSize := ext2InodeSize sblock }
      let inode ← ext2fsReadInode env k ⟨sblock, 2, [], true⟩ 2
      match inode with
      | none => do
        Prog.modify fun s => { s with root := none }
        pure false
      | some inode => do
        Prog.modify fun s => { s with root := some ⟨sblock, 2, inode, true⟩ }
        pure true

end Ext2

end SmartQ.Qi
