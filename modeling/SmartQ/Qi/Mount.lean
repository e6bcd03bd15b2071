import SmartQ.Lib.Checked
import SmartQ.Qi.Pool

/-!
# Mounting any superblock

The functions of `qi/src/fs/ext2.c` that divide and shift by what the superblock says,
with a check before each such operation: the divisor is not zero, the shift amount is
below 32, and a block has an inode at least.

* `checkedMount_checks` and its like: up to the first failing check these are the
  functions of the model.
* `survives_iff`: the superblocks with which no run stops at a check.
-/

namespace SmartQ.Qi

open SmartQ.Lib

/-- An amount that an `int` may be shifted by. -/
def InShift (z : ℤ) : Prop := 0 ≤ z ∧ z < 32

instance (z : ℤ) : Decidable (InShift z) := by
  unfold InShift
  infer_instance

/-- A program fragment of the second phase with checked operations. -/
abbrev CheckedPhase2 (α : Type) : Type := Prog St (Fault Exit) α

/-- `LOG2_BLOCK_SIZE`: the power of two of the block size, by the superblock. -/
def Node.log2BlockSize (node : Node) : ℕ := add32 (u32At node.sblock 24) 10

/-! ## The checked functions -/

section Checked

variable (env : Env) (extent : ℕ) (k : KernelSource)

/-- `ext2fs_devread`, which shifts the sector, with a check of the shift. -/
def checkedDevread (sector log2 byteOffset byteLen : ℤ) : CheckedPhase2 (Bool × List Write) := do
  Prog.check (InShift log2)
  (ext2fsDevread env k sector log2 byteOffset byteLen).lift

/-- `readStruct` with the shift of the sector checked, which C leaves undefined outside `0 .. 31`.
    -/
def checkedReadStruct (sector log2 byteOffset : ℤ) (n : ℕ) : CheckedPhase2 (Option (List Byte)) := do
  let s ← Prog.get
  let (ok, ws) ← checkedDevread env k sector log2 byteOffset n
  pure (if ok then some (patch (env.junk s n) ws) else none)

/-- `ext2fs_blockgroup` over the checked read of its descriptor. -/
def checkedBlockgroup (node : Node) (group : ℕ) : CheckedPhase2 (Option (List Byte)) :=
  checkedReadStruct env k (int32 (node.firstDataBlock + 1)) node.log2
    (int32 (group * blockGroupSize)) blockGroupSize

/-- `ext2fs_read_inode` behind the block group, with inodes of `n` bytes. -/
def checkedReadTable (node : Node) (n ino : ℕ) (blkgrp : List Byte) :
    CheckedPhase2 (Option (List Byte)) := do
  Prog.check (InShift node.log2BlockSize)
  Prog.check (n ≠ 0)
  let inodesPerBlock := toU32 node.blksz / n
  Prog.check (1 ≤ int32 inodesPerBlock)
  let blkno := umod ino node.inodesPerGroup / inodesPerBlock
  let blkoff := umod (umod ino node.inodesPerGroup) inodesPerBlock
  checkedReadStruct env k (int32 (u32At blkgrp 8 + blkno)) node.log2 (int32 (n * blkoff)) inodeSize

/-- `ext2fs_read_inode`: the divisors are `inodes_per_group`, `ext2_inode_size` and
    `inodes_per_block`. -/
def checkedReadInode (node : Node) (ino : ℤ) : CheckedPhase2 (Option (List Byte)) := do
  let s ← Prog.get
  let ino := toU32 (ino - 1)
  Prog.check (node.inodesPerGroup ≠ 0)
  let blkgrp ← checkedBlockgroup env k node (ino / node.inodesPerGroup)
  match blkgrp with
  | none => pure none
  | some blkgrp => checkedReadTable env k node s.inodeSize ino blkgrp

/-- The table in block `blkno`, loaded with a check of the shift of its number. -/
def checkedLoadTable (node : Node) (blkno : ℕ) (lv : Level) :
    CheckedPhase2 (Option (List Byte)) := do
  (allocTable env extent node.blksz lv).lift
  let s ← Prog.get
  let block := (s.table lv).block.getD []
  Prog.check (InShift node.log2)
  if shl32 blkno node.log2 ≠ (s.table lv).blkno then do
    let (ok, ws) ← checkedDevread env k (int32 blkno) node.log2 0 node.blksz
    let block := patch block ws
    Prog.modify fun s => s.setTable ⟨some block, (s.table lv).size,
      if ok then shl32 blkno node.log2 else (s.table lv).blkno⟩ lv
    pure (if ok then some block else none)
  else pure (some block)

/-- `ext2fs_read_block`: the divisor is `perblock`, which is checked. -/
def checkedReadBlock (node : Node) (fileblock : ℤ) : CheckedPhase2 ℤ := do
  Prog.check (InShift node.log2BlockSize)
  let perblock := cdiv node.blksz 4
  if fileblock < 12 then do
    Prog.exitIf (fileblock < 0) (.exit .corrupt)
    pure (int32 (node.dirBlock fileblock.toNat))
  else if fileblock < int32 (12 + perblock) then do
    let table ← checkedLoadTable env extent k node node.indirBlock .indir1
    match table with
    | none => pure 0
    | some table => pure (entry table (fileblock - 12).toNat)
  else if fileblock < int32 (12 + int32 (perblock * int32 (perblock + 1))) then do
    let rblock := toU32 (fileblock - (12 + perblock))
    let table ← checkedLoadTable env extent k node node.doubleIndirBlock .indir1
    match table with
    | none => pure (-1)
    | some table => do
      Prog.check (toU32 perblock ≠ 0)
      let table ← checkedLoadTable env extent k node
        (toU32 (entry table (rblock / toU32 perblock))) .indir2
      match table with
      | none => pure (-1)
      | some table => pure (entry table (umod rblock (toU32 perblock)))
  else pure (-1)

/-- `ext2fs_read_block`, and the shift of what it returns in the loop of
    `ext2fs_read_file`. -/
def checkedBlockOf (node : Node) (fileblock : ℤ) : CheckedPhase2 ℤ := do
  let blknr ← checkedReadBlock env extent k node fileblock
  if blknr < 0 then pure blknr else do
    Prog.check (InShift node.log2)
    pure blknr

/-- `ext2fs_read_file`: the divisor is `blocksize`, which is checked. -/
def checkedReadFile (node : Node) (pos : ℤ) (len : ℕ) : CheckedPhase2 (ℤ × List Write) := do
  Prog.check (InShift (int32 (node.log2 + 9)))
  Prog.check ((request node pos len).blocksize ≠ 0)
  Ext2.readFile (checkedBlockOf env extent k node) (checkedDevread env k) (request node pos len)

/-- `ext2fs_mount`, run with the checks of its sizes: what it would do with a bad one is an end
    of its own. -/
def checkedMount : CheckedPhase2 Bool := do
  (malloc extent dataSize).lift
  let sblock ← checkedReadStruct env k 2 0 0 sblockSize
  match sblock with
  | none => do
    Prog.modify fun s => { s with root := none }
    pure false
  | some sblock =>
    if u16At sblock 56 ≠ 0xef53 then do
      Prog.modify fun s => { s with root := none }
      pure false
    else do
      Prog.modify fun s => { s with inodeSize := ext2InodeSize sblock }
      let inode ← checkedReadInode env k ⟨sblock, 2, [], true⟩ 2
      match inode with
      | none => do
        Prog.modify fun s => { s with root := none }
        pure false
      | some inode => do
        Prog.modify fun s => { s with root := some ⟨sblock, 2, inode, true⟩ }
        pure true

end Checked

/-! ## They are the functions of the model -/

section Checks

variable (env : Env) (extent : ℕ) (k : KernelSource)

theorem checkedDevread_checks (sector log2 byteOffset byteLen : ℤ) :
    Prog.Checks (checkedDevread env k sector log2 byteOffset byteLen)
      (ext2fsDevread env k sector log2 byteOffset byteLen) :=
  Prog.Checks.check (Prog.Checks.lift _)

theorem checkedReadStruct_checks (sector log2 byteOffset : ℤ) (n : ℕ) :
    Prog.Checks (checkedReadStruct env k sector log2 byteOffset n)
      (readStruct env k sector log2 byteOffset n) := by
  apply Prog.Checks.bind Prog.Checks.get
  intro s
  apply Prog.Checks.bind (checkedDevread_checks env k _ _ _ _)
  exact fun _ => Prog.Checks.ret _

theorem checkedReadInode_checks (node : Node) (ino : ℤ) :
    Prog.Checks (checkedReadInode env k node ino) (ext2fsReadInode env k node ino) := by
  apply Prog.Checks.bind Prog.Checks.get
  intro s
  apply Prog.Checks.check
  apply Prog.Checks.bind (checkedReadStruct_checks env k _ _ _ _)
  intro blkgrp
  cases blkgrp with
  | none => exact Prog.Checks.ret _
  | some blkgrp =>
    apply Prog.Checks.check
    apply Prog.Checks.check
    apply Prog.Checks.check
    exact checkedReadStruct_checks env k _ _ _ _

theorem checkedLoadTable_checks (node : Node) (blkno : ℕ) (lv : Level) :
    Prog.Checks (checkedLoadTable env extent k node blkno lv)
      (loadTable env extent k node blkno lv) := by
  apply Prog.Checks.bind (Prog.Checks.lift _)
  intro _
  apply Prog.Checks.bind Prog.Checks.get
  intro s
  apply Prog.Checks.check
  apply Prog.Checks.ite
  · apply Prog.Checks.bind (checkedDevread_checks env k _ _ _ _)
    intro read
    apply Prog.Checks.bind (Prog.Checks.modify _)
    exact fun _ => Prog.Checks.ret _
  · exact Prog.Checks.ret _

theorem checkedReadBlock_checks (node : Node) (fileblock : ℤ) :
    Prog.Checks (checkedReadBlock env extent k node fileblock)
      (ext2fsReadBlock env extent k node fileblock) := by
  apply Prog.Checks.check
  apply Prog.Checks.ite
  · intro s
    right
    by_cases hneg : fileblock < 0
    · rw [Prog.exitIf_of hneg]
      unfold Prog.lift
      rw [Prog.exitIf_of hneg]
      rfl
    · rw [Prog.exitIf_of_not hneg]
      unfold Prog.lift
      rw [Prog.exitIf_of_not hneg]
      rfl
  · apply Prog.Checks.ite
    · apply Prog.Checks.bind (checkedLoadTable_checks env extent k _ _ _)
      intro table
      cases table <;> exact Prog.Checks.ret _
    · apply Prog.Checks.ite
      · apply Prog.Checks.bind (checkedLoadTable_checks env extent k _ _ _)
        intro table
        cases table with
        | none => exact Prog.Checks.ret _
        | some table =>
          apply Prog.Checks.check
          apply Prog.Checks.bind (checkedLoadTable_checks env extent k _ _ _)
          intro table
          cases table <;> exact Prog.Checks.ret _
      · exact Prog.Checks.ret _

theorem checkedBlockOf_checks (node : Node) (fileblock : ℤ) :
    Prog.Checks (checkedBlockOf env extent k node fileblock)
      (ext2fsReadBlock env extent k node fileblock) := by
  have hret : (ext2fsReadBlock env extent k node fileblock >>= pure) =
      ext2fsReadBlock env extent k node fileblock := by
    funext s
    rcases hx : ext2fsReadBlock env extent k node fileblock s with _ | ⟨⟨e⟩ | ⟨a⟩, s'⟩
    · rw [Prog.bind_none hx]
    · rw [Prog.bind_error hx]
    · rw [Prog.bind_ok hx, Prog.pure_apply]
  rw [← hret]
  apply Prog.Checks.bind (checkedReadBlock_checks env extent k node fileblock)
  intro blknr
  split_ifs
  · exact Prog.Checks.ret _
  · exact Prog.Checks.check (Prog.Checks.ret _)

theorem checkedMount_checks : Prog.Checks (checkedMount env extent k) (ext2fsMount env extent k) := by
  apply Prog.Checks.bind (Prog.Checks.lift _)
  intro _
  apply Prog.Checks.bind (checkedReadStruct_checks env k _ _ _ _)
  intro sblock
  cases sblock with
  | none => exact Prog.Checks.bind (Prog.Checks.modify _) fun _ => Prog.Checks.ret _
  | some sblock =>
    apply Prog.Checks.ite
    · exact Prog.Checks.bind (Prog.Checks.modify _) fun _ => Prog.Checks.ret _
    · apply Prog.Checks.bind (Prog.Checks.modify _)
      intro _
      apply Prog.Checks.bind (checkedReadInode_checks env k _ _)
      intro inode
      cases inode <;> exact Prog.Checks.bind (Prog.Checks.modify _) fun _ => Prog.Checks.ret _

end Checks

namespace Ext2

variable {σ ε : Type} {r : Req}

section Checks

variable {readBlock : ℤ → Prog σ ε ℤ} {devread : ℤ → ℤ → ℤ → ℤ → Prog σ ε (Bool × List Write)}
  {readBlock' : ℤ → Prog σ (Fault ε) ℤ}
  {devread' : ℤ → ℤ → ℤ → ℤ → Prog σ (Fault ε) (Bool × List Write)}
  (hread : ∀ i, Prog.Checks (readBlock' i) (readBlock i))
  (hdev : ∀ a b c d, Prog.Checks (devread' a b c d) (devread a b c d))

include hdev

theorem spillDelayed_checks (v : Vars) :
    Prog.Checks (spillDelayed devread' v) (spillDelayed devread v) := by
  apply Prog.Checks.ite
  · exact Prog.Checks.bind (hdev _ _ _ _) fun _ => Prog.Checks.ret _
  · exact Prog.Checks.ret _

theorem dataBlock_checks (i b : ℤ) (v : Vars) :
    Prog.Checks (dataBlock devread' r i b v) (dataBlock devread r i b v) := by
  apply Prog.Checks.ite
  · exact Prog.Checks.ret _
  · exact Prog.Checks.bind (spillDelayed_checks hdev v) fun _ => Prog.Checks.ret _

theorem holeBlock_checks (i : ℤ) (v : Vars) :
    Prog.Checks (holeBlock devread' r i v) (holeBlock devread r i v) :=
  Prog.Checks.bind (spillDelayed_checks hdev v) fun _ => Prog.Checks.ret _

include hread

theorem block_checks (i : ℤ) (v : Vars) :
    Prog.Checks (block readBlock' devread' r i v) (block readBlock devread r i v) := by
  apply Prog.Checks.bind (hread i)
  intro blknr
  apply Prog.Checks.ite
  · exact Prog.Checks.ret _
  · apply Prog.Checks.ite
    · exact Prog.Checks.bind (dataBlock_checks hdev i _ v) fun _ => Prog.Checks.ret _
    · exact Prog.Checks.bind (holeBlock_checks hdev i v) fun _ => Prog.Checks.ret _

theorem blocks_checks (n : ℕ) (i : ℤ) (v : Vars) :
    Prog.Checks (blocks readBlock' devread' r n i v) (blocks readBlock devread r n i v) := by
  induction n generalizing i v with
  | zero => exact Prog.Checks.ret _
  | succ n ih =>
    apply Prog.Checks.bind (block_checks hread hdev i v)
    intro a
    exact Prog.Checks.ite (ih _ _) (Prog.Checks.ret _)

theorem readFile_checks :
    Prog.Checks (readFile readBlock' devread' r) (readFile readBlock devread r) := by
  apply Prog.Checks.bind (blocks_checks hread hdev _ _ _)
  intro a
  apply Prog.Checks.ite
  · exact Prog.Checks.bind (spillDelayed_checks hdev _) fun _ => Prog.Checks.ret _
  · exact Prog.Checks.ret _

end Checks

section Safe

variable {I : σ → Prop} {readBlock : ℤ → Prog σ (Fault ε) ℤ}
  {devread : ℤ → ℤ → ℤ → ℤ → Prog σ (Fault ε) (Bool × List Write)}
  (hread : ∀ i, Prog.Safe I (readBlock i)) (hdev : ∀ a c d, Prog.Safe I (devread a 0 c d))

include hdev

theorem spillDelayed_safe (v : Vars) : Prog.Safe I (spillDelayed devread v) :=
  Prog.Safe.ite (fun _ => Prog.Safe.bind (hdev _ _ _) fun _ => Prog.Safe.ret _)
    fun _ => Prog.Safe.ret _

theorem dataBlock_safe (i b : ℤ) (v : Vars) : Prog.Safe I (dataBlock devread r i b v) := by
  apply Prog.Safe.ite
  · exact fun _ => Prog.Safe.ret _
  · exact fun _ => Prog.Safe.bind (spillDelayed_safe hdev v) fun _ => Prog.Safe.ret _

theorem holeBlock_safe (i : ℤ) (v : Vars) : Prog.Safe I (holeBlock devread r i v) :=
  Prog.Safe.bind (spillDelayed_safe hdev v) fun _ => Prog.Safe.ret _

include hread

theorem block_safe (i : ℤ) (v : Vars) : Prog.Safe I (block readBlock devread r i v) := by
  apply Prog.Safe.bind (hread i)
  intro blknr
  apply Prog.Safe.ite
  · exact fun _ => Prog.Safe.ret _
  · intro _
    apply Prog.Safe.ite
    · exact fun _ => Prog.Safe.bind (dataBlock_safe hdev i _ v) fun _ => Prog.Safe.ret _
    · exact fun _ => Prog.Safe.bind (holeBlock_safe hdev i v) fun _ => Prog.Safe.ret _

theorem blocks_safe (n : ℕ) (i : ℤ) (v : Vars) :
    Prog.Safe I (blocks readBlock devread r n i v) := by
  induction n generalizing i v with
  | zero => exact Prog.Safe.ret _
  | succ n ih =>
    apply Prog.Safe.bind (block_safe hread hdev i v)
    intro a
    exact Prog.Safe.ite (fun _ => ih _ _) fun _ => Prog.Safe.ret _

theorem readFile_safe : Prog.Safe I (readFile readBlock devread r) := by
  apply Prog.Safe.bind (blocks_safe hread hdev _ _ _)
  intro a
  apply Prog.Safe.ite
  · exact fun _ => Prog.Safe.bind (spillDelayed_safe hdev _) fun _ => Prog.Safe.ret _
  · exact fun _ => Prog.Safe.ret _

end Safe

end Ext2

theorem checkedReadFile_checks (env : Env) (extent : ℕ) (k : KernelSource) (node : Node) (pos : ℤ)
    (len : ℕ) : Prog.Checks (checkedReadFile env extent k node pos len)
      (ext2fsReadFile env extent k node pos len) := by
  apply Prog.Checks.check
  apply Prog.Checks.check
  exact Ext2.readFile_checks (checkedBlockOf_checks env extent k node)
    (checkedDevread_checks env k)

/-! ## Superblocks that the checks let through -/

/-- With inodes of `n` bytes, no divisor is zero and no shift amount is too large. -/
structure Node.Sound (node : Node) (n : ℕ) : Prop where
  groups : node.inodesPerGroup ≠ 0
  sectorShift : InShift node.log2
  blockShift : InShift node.log2BlockSize
  inodeSize : n ≠ 0
  inodesPerBlock : 1 ≤ int32 (toU32 node.blksz / n : ℕ)

/-- Block sizes, the largest of which is a negative number. -/
theorem shl32_one_ne_zero : ∀ e < 32, 9 ≤ e →
    shl32 1 (e : ℕ) ≠ 0 ∧ toU32 (cdiv (shl32 1 (e : ℕ)) 4) ≠ 0 := by
  decide

theorem shl32_congr {x m n : ℤ} (h : m % 256 = n % 256) : shl32 x m = shl32 x n := by
  unfold shl32
  rw [h]

namespace Node.Sound

variable {node : Node} {n : ℕ} (h : node.Sound n)

include h

/-- `LOG2_EXT2_BLOCK_SIZE + 9` is `LOG2_BLOCK_SIZE`. -/
theorem log2_eq : ∃ e : ℕ, e < 32 ∧ 9 ≤ e ∧ node.log2 + 9 = e ∧ node.blksz = shl32 1 e := by
  obtain ⟨hlow, hhigh⟩ := h.sectorShift
  obtain ⟨-, hblock⟩ := h.blockShift
  have hfield := u32At_lt node.sblock 24
  unfold Node.log2 at hlow hhigh
  unfold Node.log2BlockSize add32 at hblock
  unfold Node.log2 Node.blksz
  generalize u32At node.sblock 24 = l at *
  have hlog2 : ∃ e : ℕ, e < 32 ∧ 9 ≤ e ∧ int32 (l + 1) + 9 = e ∧
      ((l : ℤ) + 10) % 256 = (e : ℤ) % 256 := by
    refine ⟨(int32 (l + 1) + 9).toNat, ?_⟩
    unfold int32 at hlow hhigh ⊢
    split_ifs at hlow hhigh ⊢ <;> omega
  obtain ⟨e, he, hge, heq, hmod⟩ := hlog2
  exact ⟨e, he, hge, heq, shl32_congr hmod⟩

theorem fileShift : InShift (int32 (node.log2 + 9)) := by
  obtain ⟨e, he, -, heq, -⟩ := h.log2_eq
  rw [heq, int32_natCast (by omega)]
  exact ⟨Int.natCast_nonneg e, by omega⟩

theorem blocksize_ne_zero (pos : ℤ) (len : ℕ) : (request node pos len).blocksize ≠ 0 := by
  obtain ⟨e, he, hge, heq, -⟩ := h.log2_eq
  unfold request Ext2.Req.blocksize
  rw [heq]
  exact (shl32_one_ne_zero e he hge).1

theorem perblock_ne_zero : toU32 (cdiv node.blksz 4) ≠ 0 := by
  obtain ⟨e, he, hge, -, heq⟩ := h.log2_eq
  rw [heq]
  exact (shl32_one_ne_zero e he hge).2

end Node.Sound

/-! ## Runs over a sound superblock -/

/-- `ext2_inode_size` is `n`: what a mount has left in the global for the reads of inodes. -/
def Sized (n : ℕ) (s : St) : Prop := s.inodeSize = n

section Safe

variable (env : Env) (extent : ℕ) (k : KernelSource) {node : Node} {n : ℕ}

theorem malloc_sized (size : ℕ) :
    Prog.Steps (fun s s' => Sized n s → Sized n s') (malloc extent size) := by
  intro s r s' hrun hs
  rw [malloc_apply] at hrun
  split_ifs at hrun <;> cases hrun <;> exact hs

theorem allocTable_sized (blksz : ℤ) (lv : Level) :
    Prog.Steps (fun s s' => Sized n s → Sized n s') (allocTable env extent blksz lv) := by
  have htrans : ∀ s s' s'' : St, (Sized n s → Sized n s') → (Sized n s' → Sized n s'') →
      Sized n s → Sized n s'' := fun _ _ _ h h' hs => h' (h hs)
  apply Prog.Steps.bind htrans (Prog.Steps.get fun _ => id)
  intro s
  split_ifs
  · apply Prog.Steps.bind htrans (malloc_sized extent _)
    intro _
    apply Prog.Steps.modify
    intro s hs
    cases lv <;> exact hs
  · exact Prog.Steps.ret (fun _ => id) _

theorem checkedDevread_safe {log2 : ℤ} (hlog2 : InShift log2) (sector byteOffset byteLen : ℤ) :
    Prog.Safe (Sized n) (checkedDevread env k sector log2 byteOffset byteLen) := by
  unfold checkedDevread
  rw [Prog.check_of hlog2]
  apply Prog.Safe.lift
  intro s r s' hrun hs
  unfold Sized
  rw [(devread_reads env k _ _ _ _ _ _ _ hrun).eq]
  exact hs

theorem checkedReadStruct_safe {log2 : ℤ} (hlog2 : InShift log2) (sector byteOffset : ℤ) (m : ℕ) :
    Prog.Safe (Sized n) (checkedReadStruct env k sector log2 byteOffset m) := by
  apply Prog.Safe.get
  intro s _
  exact Prog.Safe.bind (checkedDevread_safe env k hlog2 _ _ _) fun _ => Prog.Safe.ret _

theorem checkedReadInode_safe (h : node.Sound n) (ino : ℤ) :
    Prog.Safe (Sized n) (checkedReadInode env k node ino) := by
  apply Prog.Safe.get
  rintro s rfl
  dsimp only
  rw [Prog.check_of h.groups]
  apply Prog.Safe.bind (checkedReadStruct_safe env k h.sectorShift _ _ _)
  intro blkgrp
  cases blkgrp with
  | none => exact Prog.Safe.ret _
  | some blkgrp =>
    show Prog.Safe _ (checkedReadTable env k node _ _ blkgrp)
    unfold checkedReadTable
    rw [Prog.check_of h.blockShift, Prog.check_of h.inodeSize, Prog.check_of h.inodesPerBlock]
    exact checkedReadStruct_safe env k h.sectorShift _ _ _

theorem checkedLoadTable_safe (h : node.Sound n) (blkno : ℕ) (lv : Level) :
    Prog.Safe (Sized n) (checkedLoadTable env extent k node blkno lv) := by
  apply Prog.Safe.bind (Prog.Safe.lift (allocTable_sized env extent _ _))
  intro _
  apply Prog.Safe.get
  intro s _
  dsimp only
  rw [Prog.check_of h.sectorShift]
  apply Prog.Safe.ite
  · intro _
    apply Prog.Safe.bind (checkedDevread_safe env k h.sectorShift _ _ _)
    intro read
    refine Prog.Safe.bind (Prog.Safe.modify fun s hs => ?_) fun _ => Prog.Safe.ret _
    cases lv <;> exact hs
  · exact fun _ => Prog.Safe.ret _

theorem checkedReadBlock_safe (h : node.Sound n) (fileblock : ℤ) :
    Prog.Safe (Sized n) (checkedReadBlock env extent k node fileblock) := by
  unfold checkedReadBlock
  rw [Prog.check_of h.blockShift]
  apply Prog.Safe.ite
  · intro _
    exact Prog.Safe.bind (Prog.Safe.exitIf _ _) fun _ => Prog.Safe.ret _
  · intro _
    apply Prog.Safe.ite
    · intro _
      apply Prog.Safe.bind (checkedLoadTable_safe env extent k h _ _)
      intro table
      cases table <;> exact Prog.Safe.ret _
    · intro _
      apply Prog.Safe.ite
      · intro _
        apply Prog.Safe.bind (checkedLoadTable_safe env extent k h _ _)
        intro table
        cases table with
        | none => exact Prog.Safe.ret _
        | some table =>
          dsimp only
          rw [Prog.check_of h.perblock_ne_zero]
          apply Prog.Safe.bind (checkedLoadTable_safe env extent k h _ _)
          intro table
          cases table <;> exact Prog.Safe.ret _
      · exact fun _ => Prog.Safe.ret _

theorem checkedBlockOf_safe (h : node.Sound n) (fileblock : ℤ) :
    Prog.Safe (Sized n) (checkedBlockOf env extent k node fileblock) := by
  apply Prog.Safe.bind (checkedReadBlock_safe env extent k h _)
  intro blknr
  apply Prog.Safe.ite
  · exact fun _ => Prog.Safe.ret _
  · intro _
    rw [Prog.check_of h.sectorShift]
    exact Prog.Safe.ret _

theorem checkedReadFile_safe (h : node.Sound n) (pos : ℤ) (len : ℕ) :
    Prog.Safe (Sized n) (checkedReadFile env extent k node pos len) := by
  unfold checkedReadFile
  rw [Prog.check_of h.fileShift, Prog.check_of (h.blocksize_ne_zero pos len)]
  exact Ext2.readFile_safe (checkedBlockOf_safe env extent k h)
    fun _ _ _ => checkedDevread_safe env k (by decide) _ _ _

theorem checkedReadStruct_eq {log2 : ℤ} (hlog2 : InShift log2) (sector byteOffset : ℤ) (m : ℕ) :
    checkedReadStruct env k sector log2 byteOffset m =
      (readStruct env k sector log2 byteOffset m).lift := by
  funext s
  rcases checkedReadStruct_checks env k sector log2 byteOffset m s with ⟨s', hrun⟩ | hrun
  · exact absurd rfl (checkedReadStruct_safe env k hlog2 _ _ _ s (n := s.inodeSize) rfl _ _ hrun).2
  · exact hrun

end Safe

/-! ## Structures on a device that works -/

section Works

variable {env : Env} {k : KernelSource} {s : St}

theorem patch_eq {bs bytes : List Byte} {ws : List Write} (hlen : bs.length = bytes.length)
    (h : Ext2.Puts ws bytes) : patch bs ws = bytes := by
  apply List.ext_getElem
  · rw [← hlen]
    simp [patch]
  · intro j hj hj'
    simp only [patch, List.getElem_map, List.getElem_range]
    rw [h.2 j hj', Option.getD_some, byteAt_of_lt hj']

theorem readStruct_works (h : env.Works) (k : KernelSource) (s : St)
    {sector log2 : ℤ} {st : ℕ} (sk n : ℕ)
    (hsector : shl32 sector log2 = st) (hn : sk + n < 2 ^ 31)
    (hpos : 0 < sk + n) (hlimit : 512 * st + sk + n ≤ 512 * s.partitionLengthBlocks)
    (hlen : s.partitionLengthBlocks < 2 ^ 32) :
    ∃ s', readStruct env k sector log2 sk n s =
      some (.ok (some (load (partition env k s.partitionOffsetBlocks) (512 * st + sk) n)), s') ∧
      Reads s s' := by
  obtain ⟨ws, s', hrun, hreads, hputs⟩ := devread_works h k s sk n hsector hn hpos hlimit hlen
  refine ⟨s', ?_, hreads⟩
  have hjunk : (env.junk s n).length = (load (partition env k s.partitionOffsetBlocks)
      (512 * st + sk) n).length := by simp [Env.junk]
  unfold readStruct
  rw [Prog.get_bind, Prog.bind_ok hrun, ← patch_eq hjunk hputs]
  rfl

end Works

/-! ## Mounting -/

/-- A superblock with the ext2 magic. -/
structure Superblock where
  bytes : List Byte
  length_eq : bytes.length = 1024
  magic_eq : u16At bytes 56 = 0xef53

namespace Superblock

variable (sb : Superblock)

/-- The part that `ext2fs_mount` reads. -/
def sblock : List Byte := sb.bytes.take sblockSize

/-- A file of the filesystem, with what was read as its inode. -/
def node (inode : List Byte) : Node := ⟨sb.sblock, 2, inode, true⟩

/-- No divisor is zero and no shift amount is too large, as far as the check of the
    boundaries lets the mount get. -/
def Sane : Prop :=
  (sb.node []).inodesPerGroup ≠ 0 ∧ InShift (sb.node []).log2 ∧
    (0 ≤ shl32 (int32 ((sb.node []).firstDataBlock + 1)) (sb.node []).log2 →
      (sb.node []).Sound (ext2InodeSize sb.sblock))

theorem magic : u16At sb.sblock 56 = 0xef53 := by
  have hbyte : ∀ i < 204, byteAt sb.sblock i = byteAt sb.bytes i := by
    intro i hi
    have hlen := sb.length_eq
    have hlt : i < sb.sblock.length := by
      unfold sblock sblockSize
      rw [List.length_take]
      omega
    rw [byteAt_of_lt hlt, byteAt_of_lt (by omega)]
    exact List.getElem_take
  have h := sb.magic_eq
  unfold u16At at h ⊢
  rw [hbyte 56 (by norm_num), hbyte 57 (by norm_num)]
  exact h

end Superblock

/-- A call after the mount: the inode of any number, a block of any file or a part of
    one. -/
inductive Call
  | readInode (ino : ℤ)
  | readBlock (inode : List Byte) (fileblock : ℤ)
  | readFile (inode : List Byte) (pos : ℤ) (len : ℕ)

section Survives

variable (env : Env) (extent : ℕ) (k : KernelSource) (sb : Superblock)

/-- A call of the reader on the mounted volume, with the checks of every step; its value is left
    out. -/
def Call.run : Call → CheckedPhase2 Unit
  | .readInode ino => do
    let _ ← checkedReadInode env k (sb.node []) ino
    pure ()
  | .readBlock inode fileblock => do
    let _ ← checkedReadBlock env extent k (sb.node inode) fileblock
    pure ()
  | .readFile inode pos len => do
    let _ ← checkedReadFile env extent k (sb.node inode) pos len
    pure ()

/-- The calls one after the other, up to the first check that fails. -/
def runCalls : List Call → CheckedPhase2 Unit
  | [] => pure ()
  | call :: calls => do
    call.run env extent k sb
    runCalls calls

/-- The mount, and the calls if it succeeds. -/
def mountAndRead (calls : List Call) : CheckedPhase2 Unit := do
  let ok ← checkedMount env extent k
  if ok then runCalls env extent k sb calls else pure ()

/-- The part of the mount behind the superblock. -/
def mountRoot : CheckedPhase2 Bool := do
  let inode ← checkedReadInode env k (sb.node []) 2
  match inode with
  | none => do
    Prog.modify fun s => { s with root := none }
    pure false
  | some inode => do
    Prog.modify fun s => { s with root := some (sb.node inode) }
    pure true

/-- The mount reads the superblock `sb` from its device. -/
def Mounts (s s' : St) : Prop :=
  ∃ s1, malloc extent dataSize s = some (.ok (), s1) ∧
    readStruct env k 2 0 0 sblockSize s1 = some (.ok (some sb.sblock), s')

/-- Whatever the device, the state and the calls: where the superblock is `sb`, no
    operation is undefined. -/
def Survives (sb : Superblock) : Prop :=
  ∀ env extent k s s', Mounts env extent k sb s s' → ∀ calls s'',
    mountAndRead env extent k sb calls s ≠ some (.error .undefined, s'')

variable {env extent k sb}

theorem mountAndRead_eq {s s' : St} (h : Mounts env extent k sb s s') (calls : List Call) :
    mountAndRead env extent k sb calls s =
      (mountRoot env k sb >>= fun ok =>
        if ok then runCalls env extent k sb calls else pure ())
        { s' with inodeSize := ext2InodeSize sb.sblock } := by
  obtain ⟨s1, hmalloc, hread⟩ := h
  unfold mountAndRead checkedMount
  rw [Prog.bind_assoc, Prog.bind_ok (Prog.lift_ok hmalloc), Prog.bind_assoc,
    checkedReadStruct_eq env k (by decide), Prog.bind_ok (Prog.lift_ok hread)]
  dsimp only
  rw [if_neg (not_not_intro sb.magic), Prog.bind_assoc, Prog.modify_bind]
  rfl

theorem runCalls_safe (env : Env) (extent : ℕ) (k : KernelSource) {n : ℕ}
    (h : ∀ inode, (sb.node inode).Sound n) (calls : List Call) :
    Prog.Safe (Sized n) (runCalls env extent k sb calls) := by
  induction calls with
  | nil => exact Prog.Safe.ret _
  | cons call calls ih =>
    refine Prog.Safe.bind ?_ fun _ => ih
    cases call with
    | readInode ino =>
      exact Prog.Safe.bind (checkedReadInode_safe env k (h []) ino) fun _ => Prog.Safe.ret _
    | readBlock inode fileblock =>
      exact Prog.Safe.bind (checkedReadBlock_safe env extent k (h inode) fileblock)
        fun _ => Prog.Safe.ret _
    | readFile inode pos len =>
      exact Prog.Safe.bind (checkedReadFile_safe env extent k (h inode) pos len)
        fun _ => Prog.Safe.ret _

/-- A sector that the shift makes negative is refused. -/
theorem readStruct_refused {sector log2 byteOffset : ℤ} {n : ℕ} {s : St}
    (h : ¬ 0 ≤ shl32 sector log2) :
    readStruct env k sector log2 byteOffset n s = some (.ok none, s) := by
  have hout : ¬ inPartition s (shl32 sector log2) byteOffset n := fun hin => h hin.1
  have hdev : ext2fsDevread env k sector log2 byteOffset n s = some (.ok (false, []), s) := by
    unfold ext2fsDevread
    rw [Prog.get_bind, if_neg hout, Prog.pure_apply]
  unfold readStruct
  rw [Prog.get_bind, Prog.bind_ok hdev]
  rfl

/-- The group that an inode is in is read first. -/
theorem checkedReadInode_some {node : Node} {s s' : St} {blkgrp : List Byte}
    (hgroups : node.inodesPerGroup ≠ 0) (hshift : InShift node.log2) (ino : ℤ)
    (h : ext2fsBlockgroup env k node (toU32 (ino - 1) / node.inodesPerGroup) s =
      some (.ok (some blkgrp), s')) :
    checkedReadInode env k node ino s =
      checkedReadTable env k node s.inodeSize (toU32 (ino - 1)) blkgrp s' := by
  unfold checkedReadInode checkedBlockgroup
  rw [Prog.get_bind, Prog.check_of hgroups, checkedReadStruct_eq env k hshift]
  exact Prog.bind_ok (Prog.lift_ok h)

theorem checkedReadInode_none {node : Node} {s s' : St}
    (hgroups : node.inodesPerGroup ≠ 0) (hshift : InShift node.log2) (ino : ℤ)
    (h : ext2fsBlockgroup env k node (toU32 (ino - 1) / node.inodesPerGroup) s =
      some (.ok none, s')) :
    checkedReadInode env k node ino s = some (.ok none, s') := by
  unfold checkedReadInode checkedBlockgroup
  rw [Prog.get_bind, Prog.check_of hgroups, checkedReadStruct_eq env k hshift]
  exact Prog.bind_ok (Prog.lift_ok h)

theorem Superblock.Sane.survives (h : sb.Sane) : Survives sb := by
  intro env extent k s s' hmounts calls s'' hrun
  obtain ⟨hgroups, hshift, hsound⟩ := h
  rw [mountAndRead_eq hmounts] at hrun
  by_cases hlow : 0 ≤ shl32 (int32 ((sb.node []).firstDataBlock + 1)) (sb.node []).log2
  · have hnode : ∀ inode, (sb.node inode).Sound (ext2InodeSize sb.sblock) := by
      intro inode
      obtain ⟨hg, hs, hb, hi, hp⟩ := hsound hlow
      exact ⟨hg, hs, hb, hi, hp⟩
    have hroot : Prog.Safe (Sized (ext2InodeSize sb.sblock)) (mountRoot env k sb) := by
      apply Prog.Safe.bind (checkedReadInode_safe env k (hnode []) 2)
      intro inode
      cases inode with
      | none => exact Prog.Safe.bind (Prog.Safe.modify fun _ hs => hs) fun _ => Prog.Safe.ret _
      | some inode => exact Prog.Safe.bind (Prog.Safe.modify fun _ hs => hs) fun _ => Prog.Safe.ret _
    have hall := hroot.bind fun ok => Prog.Safe.ite
      (fun _ => runCalls_safe env extent k hnode calls)
      (fun _ : ¬ ok = true => Prog.Safe.ret ())
    have hsized : Sized (ext2InodeSize sb.sblock)
        { s' with inodeSize := ext2InodeSize sb.sblock } := rfl
    exact (hall _ hsized _ _ hrun).2 rfl
  · have hread : checkedReadInode env k (sb.node []) 2
        { s' with inodeSize := ext2InodeSize sb.sblock } = _ :=
      checkedReadInode_none hgroups hshift 2 (readStruct_refused hlow)
    unfold mountRoot at hrun
    rw [Prog.bind_assoc, Prog.bind_ok hread] at hrun
    cases hrun

theorem checkedReadStruct_undefined {sector log2 byteOffset : ℤ} {m : ℕ} {s : St}
    (h : ¬ InShift log2) :
    checkedReadStruct env k sector log2 byteOffset m s = some (.error .undefined, s) := by
  unfold checkedReadStruct checkedDevread
  rw [Prog.get_bind]
  exact Prog.bind_error (Prog.check_of_not h)

theorem checkedReadInode_sane {node : Node} {s s' : St} {blkgrp : Option (List Byte)} {ino : ℤ}
    (h : ∀ s'', checkedReadInode env k node ino s ≠ some (.error .undefined, s''))
    (hread : ext2fsBlockgroup env k node (toU32 (ino - 1) / node.inodesPerGroup) s =
      some (.ok blkgrp, s')) :
    node.inodesPerGroup ≠ 0 ∧ InShift node.log2 ∧ (blkgrp ≠ none → node.Sound s.inodeSize) := by
  have hgroups : node.inodesPerGroup ≠ 0 := by
    by_contra hzero
    apply h s
    unfold checkedReadInode
    rw [Prog.get_bind]
    exact Prog.check_of_not (not_not_intro hzero)
  have hshift : InShift node.log2 := by
    by_contra hout
    apply h s
    unfold checkedReadInode checkedBlockgroup
    rw [Prog.get_bind, Prog.check_of hgroups]
    exact Prog.bind_error (checkedReadStruct_undefined hout)
  refine ⟨hgroups, hshift, fun hne => ?_⟩
  cases blkgrp with
  | none => exact absurd rfl hne
  | some blkgrp =>
    rw [checkedReadInode_some hgroups hshift ino hread] at h
    unfold checkedReadTable at h
    by_cases hblock : InShift node.log2BlockSize
    · rw [Prog.check_of hblock] at h
      by_cases hsize : s.inodeSize ≠ 0
      · rw [Prog.check_of hsize] at h
        by_cases hper : 1 ≤ int32 (toU32 node.blksz / s.inodeSize : ℕ)
        · exact ⟨hgroups, hshift, hblock, hsize, hper⟩
        · exact (h s' (Prog.check_of_not hper)).elim
      · exact (h s' (Prog.check_of_not hsize)).elim
    · exact (h s' (Prog.check_of_not hblock)).elim

end Survives

/-! ## A device for a superblock -/

section Device

variable (sb : Superblock)

/-- A device with the superblock `sb` and nothing else. -/
def superblockEnv : Env := workingEnv (fun q => byteAt sb.bytes (q - 1024)) []

theorem superblockEnv_works : (superblockEnv sb).Works := workingEnv_works _ []

/-- A partition of 2^31 blocks. -/
def largePartition : St := { St.start (fun _ => 0) with partitionLengthBlocks := 2 ^ 31 }

theorem load_superblock :
    load (partition (superblockEnv sb) ext2Source 0) 1024 sblockSize = sb.sblock := by
  have hlen := sb.length_eq
  apply List.ext_getElem
  · rw [length_load, Superblock.sblock, List.length_take, hlen]
    rfl
  · intro j hj hj'
    rw [length_load] at hj
    have hj204 : j < 204 := hj
    have haddr : (0 + (1024 + j) / 512) % 2 ^ 32 * 512 + (1024 + j) % 512 - 1024 = j := by omega
    simp only [load, List.getElem_map, List.getElem_range]
    show byteAt sb.bytes ((0 + (1024 + j) / 512) % 2 ^ 32 * 512 + (1024 + j) % 512 - 1024) = _
    rw [haddr, byteAt_of_lt (by omega)]
    exact List.getElem_take.symm

theorem mounts_superblockEnv : ∃ s', Mounts (superblockEnv sb) mallocPoolExtent ext2Source sb
    largePartition s' ∧ s'.partitionLengthBlocks = 2 ^ 31 := by
  have hmalloc : malloc mallocPoolExtent dataSize largePartition =
      some (.ok (), { largePartition with pool := poolAfter 0 dataSize }) := by
    rw [malloc_apply]
    exact (if_neg (by decide)).trans (if_neg (by decide))
  obtain ⟨s', hread, hreads⟩ := readStruct_works (superblockEnv_works sb) ext2Source
    { largePartition with pool := poolAfter 0 dataSize } 0 sblockSize
    (show shl32 2 0 = (2 : ℕ) by decide) (by decide) (by decide) (by decide) (by decide)
  refine ⟨s', ⟨_, hmalloc, ?_⟩, ?_⟩
  · rw [← load_superblock]
    exact hread
  · rw [hreads.eq]
    rfl

theorem shl32_lt (x n : ℤ) : shl32 x n < 2 ^ 31 := by
  unfold shl32 int32
  split_ifs <;> omega

theorem Survives.sane (h : Survives sb) : sb.Sane := by
  obtain ⟨s', hmounts, hlength⟩ := mounts_superblockEnv sb
  have hrun := h _ _ _ _ _ hmounts []
  rw [mountAndRead_eq hmounts] at hrun
  have hinode : ∀ s'', checkedReadInode (superblockEnv sb) ext2Source (sb.node []) 2
      { s' with inodeSize := ext2InodeSize sb.sblock } ≠ some (.error .undefined, s'') := by
    intro s'' hundef
    exact hrun s'' (Prog.bind_error (Prog.bind_error hundef))
  by_cases hlow : 0 ≤ shl32 (int32 ((sb.node []).firstDataBlock + 1)) (sb.node []).log2
  · obtain ⟨st, hst⟩ := Int.eq_ofNat_of_zero_le hlow
    have hlt := shl32_lt (int32 ((sb.node []).firstDataBlock + 1)) (sb.node []).log2
    have hgroup : toU32 (2 - 1) / (sb.node []).inodesPerGroup ≤ 1 := Nat.div_le_self 1 _
    generalize hg : toU32 (2 - 1) / (sb.node []).inodesPerGroup = group at hgroup
    have hoffset : int32 ((group : ℤ) * (blockGroupSize : ℕ)) = (group * 32 : ℕ) := by
      rw [← Nat.cast_mul]
      exact int32_natCast (show group * 32 < 2 ^ 31 by omega)
    obtain ⟨s'', hread, -⟩ := readStruct_works (superblockEnv_works sb) ext2Source
      { s' with inodeSize := ext2InodeSize sb.sblock } (group * 32) blockGroupSize hst
      (show group * 32 + 32 < 2 ^ 31 by omega) (show 0 < group * 32 + 32 by omega)
      (by rw [hlength]; show 512 * st + group * 32 + 32 ≤ 512 * 2 ^ 31; omega)
      (by rw [hlength]; norm_num)
    rw [← hoffset] at hread
    obtain ⟨hgroups, hshift, hsound⟩ := checkedReadInode_sane hinode (by rw [hg]; exact hread)
    exact ⟨hgroups, hshift, fun _ => hsound (by simp)⟩
  · obtain ⟨hgroups, hshift, -⟩ := checkedReadInode_sane hinode (readStruct_refused hlow)
    exact ⟨hgroups, hshift, fun hge => absurd hge hlow⟩

end Device

/-- For every superblock with the ext2 magic: a mount and the reads behind it never divide
    by zero nor shift by 32 or more, and find an inode in a block, exactly when the fields
    are sane. -/
theorem survives_iff (sb : Superblock) : Survives sb ↔ sb.Sane :=
  ⟨Survives.sane sb, Superblock.Sane.survives⟩

/-- Blocks of 1024 bytes and inodes of 2048 bytes. -/
def wideInodes : Superblock where
  bytes := List.replicate 20 0 ++ le32 1 ++ le32 0 ++ List.replicate 12 0 ++ le32 8 ++
    List.replicate 12 0 ++ [0x53, 0xef] ++ List.replicate 18 0 ++ le32 1 ++ List.replicate 8 0 ++
    [0x00, 0x08] ++ List.replicate 934 0
  length_eq := by simp only [List.length_append, List.length_replicate, List.length_cons,
    List.length_nil, length_le32]
  magic_eq := by decide

/-- The mount divides by the number of inodes in a block, which is zero. -/
theorem not_survives_wideInodes : ¬ Survives wideInodes := by
  intro h
  obtain ⟨-, -, hsound⟩ := h.sane
  have hper := (hsound (by decide)).inodesPerBlock
  revert hper
  decide

end SmartQ.Qi
