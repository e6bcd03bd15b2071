import SmartQ.Qi.Mount

/-!
# What the ext2 reader reads

On a device that works, what the ext2 reader reads is a function of the bytes of the
selected partition: the structures, the inodes and the block map. The cached tables of
the block map play no part in it as long as they hold what is on the partition.

* `readInode_eq`: an inode.
* `readBlock_eq`: a block number, with the cached tables it leaves.
-/

namespace SmartQ.Qi

open SmartQ.Lib

/-- The selected partition: its bytes, its length in blocks, and the size of its inodes. -/
structure Volume where
  disk : Disk
  blocks : ℕ
  inodeSize : ℕ

/-- The partition that is selected in `s`. -/
def St.volume (env : Env) (k : KernelSource) (s : St) : Volume :=
  ⟨partition env k s.partitionOffsetBlocks, s.partitionLengthBlocks, s.inodeSize⟩

namespace Volume

variable (v : Volume)

/-- The `n` bytes from `byteOffset` behind sector `sector << log2`, if the check of the
    boundaries lets the read through. -/
def struct (sector log2 byteOffset : ℤ) (n : ℕ) : Option (List Byte) :=
  let start := shl32 sector log2
  if 0 ≤ start ∧ toU32 (int32 (start + int32 (byteOffset + n - 1) / 512)) < v.blocks then
    some (load v.disk (512 * toU32 (start + byteOffset / 512) + (byteOffset % 512).toNat) n)
  else none

/-- The descriptor of a block group. -/
def blockgroup (node : Node) (group : ℕ) : Option (List Byte) :=
  v.struct (int32 (node.firstDataBlock + 1)) node.log2 (int32 (group * blockGroupSize)) blockGroupSize

/-- The inode number `ino`, counted from 0, of the group with the descriptor `blkgrp`. -/
def inodeIn (node : Node) (ino : ℕ) (blkgrp : List Byte) : Option (List Byte) :=
  let inodesPerBlock := toU32 node.blksz / v.inodeSize
  let blkno := umod ino node.inodesPerGroup / inodesPerBlock
  let blkoff := umod (umod ino node.inodesPerGroup) inodesPerBlock
  v.struct (int32 (u32At blkgrp 8 + blkno)) node.log2 (int32 (v.inodeSize * blkoff)) Qi.inodeSize

/-- The inode with the number `ino`. -/
def inode (node : Node) (ino : ℤ) : Option (List Byte) :=
  (v.blockgroup node (toU32 (ino - 1) / node.inodesPerGroup)).bind
    (v.inodeIn node (toU32 (ino - 1)))

/-- The table in block `t`, with blocks of `bs` bytes. -/
def table (bs t : ℕ) : List Byte := load v.disk (bs * t) bs

/-- Entry `i` of the table in block `t`. -/
def tableEntry (bs t i : ℕ) : ℕ := u32At (v.table bs t) (4 * i)

/-- The table of the second level for block `i` of a file, which lies behind the blocks of
    the first. -/
def secondTable (node : Node) (bs i : ℕ) : ℕ :=
  v.tableEntry bs node.doubleIndirBlock ((i - (12 + bs / 4)) / (bs / 4))

/-- The block of the partition that is block `i` of a file; 0 for a hole. -/
def blockMap (node : Node) (bs i : ℕ) : ℕ :=
  if i < 12 then node.dirBlock i
  else if i < 12 + bs / 4 then v.tableEntry bs node.indirBlock (i - 12)
  else v.tableEntry bs (v.secondTable node bs i) ((i - (12 + bs / 4)) % (bs / 4))

/-- Block `t` of `2 ^ l` sectors lies in the partition. -/
def Placed (l t : ℕ) : Prop := t * 2 ^ l < 2 ^ 31 ∧ (t + 1) * 2 ^ l ≤ v.blocks

end Volume

section Works

variable {env : Env} {k : KernelSource} {s : St}

theorem Reads.volume_eq {s s' : St} (h : Reads s s') : s'.volume env k = s.volume env k := by
  rw [h.eq]
  rfl

theorem skipKey_total (env : Env) (s : St) :
    ∃ skip s', skipKey env s = some (.ok skip, s') ∧ (env.Works → skip = false) := by
  unfold skipKey
  rcases hkeys : env.getUiKeys with _ | keys
  · exact ⟨false, s, rfl, fun _ => rfl⟩
  · dsimp only
    rw [Prog.step_apply]
    split_ifs with hbit
    · exact ⟨true, _, rfl, fun h => absurd hbit (h.noSkip keys hkeys _)⟩
    · exact ⟨false, _, rfl, fun _ => rfl⟩

/-- `ext2fs_devread` on a device whose reads do not fail: `skip` says whether the key is held. -/
theorem devread_done (hdone : ∀ n, env.outcome n = .done) (k : KernelSource) (s : St)
    (sector log2 byteOffset : ℤ) (n : ℕ) :
    ∃ skip ok ws s', ext2fsDevread env k sector log2 byteOffset n s = some (.ok (ok, ws), s') ∧
      Reads s s' ∧ (env.Works → skip = false) ∧
      match (s.volume env k).struct sector log2 byteOffset n with
        | none => ok = false ∧ ws = []
        | some bytes => if skip then ok = false ∧ ws = [] else ok = true ∧ Ext2.Puts ws bytes := by
  unfold Volume.struct
  by_cases hin : inPartition s (shl32 sector log2) byteOffset n
  · obtain ⟨skip, s1, hskip, hworks⟩ := skipKey_total env s
    have hreads : Reads s s1 := skipKey_reads env _ _ _ hskip
    have hcheck : 0 ≤ shl32 sector log2 ∧ toU32 (int32 (shl32 sector log2 +
        int32 (byteOffset + n - 1) / 512)) < (s.volume env k).blocks := hin
    have hrun : ∀ {r s'}, (if skip then pure (false, []) else
          transferFrom env k (shl32 sector log2) byteOffset n) s1 = some (r, s') →
        ext2fsDevread env k sector log2 byteOffset n s = some (r, s') := by
      intro r s' h
      unfold ext2fsDevread
      rw [Prog.get_bind, if_pos hin, Prog.bind_ok hskip]
      exact h
    dsimp only
    rw [if_pos hcheck]
    cases skip with
    | true => exact ⟨true, false, [], s1, hrun rfl, hreads, hworks, rfl, rfl⟩
    | false =>
      have hstart : toU32 (int32 (shl32 sector log2 + byteOffset / 512)) =
          toU32 (shl32 sector log2 + byteOffset / 512) % 2 ^ 32 := by
        rw [toU32_int32]
        unfold toU32
        omega
      obtain ⟨ws, s2, htransfer, hputs⟩ := transfer_works k s1 n (fun i _ => hdone _) hstart
        (show (byteOffset % 512).toNat < 512 by omega)
      have hsame : s1.partitionOffsetBlocks = s.partitionOffsetBlocks := by rw [hreads.eq]
      rw [hsame] at hputs
      refine ⟨false, true, ws, s2, hrun ?_, ?_, hworks, rfl, hputs⟩
      · unfold transferFrom
        rw [if_neg Bool.false_ne_true, if_neg (by omega), Int.toNat_natCast]
        exact htransfer
      · exact hreads.trans _ _ _ (transfer_reads env k _ _ _ _ _ _ htransfer)
  · refine ⟨false, false, [], s, ?_, Reads.refl s, fun _ => rfl, ?_⟩
    · unfold ext2fsDevread
      rw [Prog.get_bind, if_neg hin]
      rfl
    · have hcheck : ¬ (0 ≤ shl32 sector log2 ∧ toU32 (int32 (shl32 sector log2 +
          int32 (byteOffset + n - 1) / 512)) < (s.volume env k).blocks) := hin
      dsimp only
      rw [if_neg hcheck]
      exact ⟨rfl, rfl⟩

/-- `ext2fs_devread` on a device that works. -/
theorem devread_eq (h : env.Works) (k : KernelSource) (s : St) (sector log2 byteOffset : ℤ) (n : ℕ) :
    ∃ ok ws s', ext2fsDevread env k sector log2 byteOffset n s = some (.ok (ok, ws), s') ∧
      Reads s s' ∧ match (s.volume env k).struct sector log2 byteOffset n with
        | none => ok = false ∧ ws = []
        | some bytes => ok = true ∧ Ext2.Puts ws bytes := by
  obtain ⟨skip, ok, ws, s', hrun, hreads, hskip, hspec⟩ :=
    devread_done h.outcome k s sector log2 byteOffset n
  obtain rfl := hskip h
  exact ⟨ok, ws, s', hrun, hreads, hspec⟩

theorem Volume.length_struct {v : Volume} {sector log2 byteOffset : ℤ} {n : ℕ} {bytes : List Byte}
    (h : v.struct sector log2 byteOffset n = some bytes) : bytes.length = n := by
  unfold Volume.struct at h
  dsimp only at h
  split_ifs at h
  cases h
  exact length_load _ _ _

theorem devread_some (h : env.Works) {sector log2 byteOffset : ℤ} {n : ℕ} {bytes : List Byte}
    (hstruct : (s.volume env k).struct sector log2 byteOffset n = some bytes) :
    ∃ ws s', ext2fsDevread env k sector log2 byteOffset n s = some (.ok (true, ws), s') ∧
      Reads s s' ∧ Ext2.Puts ws bytes := by
  obtain ⟨ok, ws, s', hrun, hreads, hspec⟩ := devread_eq h k s sector log2 byteOffset n
  rw [hstruct] at hspec
  obtain ⟨rfl, hputs⟩ := hspec
  exact ⟨ws, s', hrun, hreads, hputs⟩

/-- What is got where `want` is asked for: nothing, if the skip key may be held. -/
def Got {α : Type} (env : Env) (got want : Option α) : Prop := got = want ∨ got = none ∧ ¬ env.Works

section Got

variable {α β : Type} {got want : Option α}

theorem Got.eq (h : Got env got want) (hw : env.Works) : got = want :=
  h.resolve_right fun hnone => hnone.2 hw

theorem Got.of_some {a : α} (h : Got env (some a) want) : want = some a := by
  rcases h with h | ⟨h, -⟩
  · exact h.symm
  · cases h

theorem Got.map (h : Got env got want) (f : α → β) : Got env (got.map f) (want.map f) := by
  rcases h with rfl | ⟨rfl, hnot⟩
  · exact .inl rfl
  · exact .inr ⟨rfl, hnot⟩

end Got

theorem readStruct_done (hdone : ∀ n, env.outcome n = .done) (k : KernelSource) (s : St)
    (sector log2 byteOffset : ℤ) (n : ℕ) :
    ∃ got s', readStruct env k sector log2 byteOffset n s = some (.ok got, s') ∧ Reads s s' ∧
      Got env got ((s.volume env k).struct sector log2 byteOffset n) := by
  obtain ⟨skip, ok, ws, s', hrun, hreads, hskip, hspec⟩ :=
    devread_done hdone k s sector log2 byteOffset n
  refine ⟨_, s', (Prog.bind_ok hrun).trans (Prog.pure_apply _ _), hreads, ?_⟩
  rcases hstruct : (s.volume env k).struct sector log2 byteOffset n with _ | bytes
  · rw [hstruct] at hspec
    obtain ⟨rfl, -⟩ := hspec
    exact .inl rfl
  · rw [hstruct] at hspec
    cases skip with
    | true =>
      obtain ⟨rfl, -⟩ := hspec
      exact .inr ⟨rfl, fun hw => by cases hskip hw⟩
    | false =>
      obtain ⟨rfl, hputs⟩ := hspec
      have hjunk : (env.junk s n).length = bytes.length := by
        rw [Volume.length_struct hstruct]
        simp [Env.junk]
      rw [if_pos rfl, patch_eq hjunk hputs]
      exact .inl rfl

theorem readInode_done (hdone : ∀ n, env.outcome n = .done) (k : KernelSource) (s : St)
    (node : Node) (ino : ℤ) :
    ∃ got s', ext2fsReadInode env k node ino s = some (.ok got, s') ∧ Reads s s' ∧
      Got env got ((s.volume env k).inode node ino) := by
  obtain ⟨group, s1, hgroup, hreads, hgot⟩ := readStruct_done hdone k s
    (int32 (node.firstDataBlock + 1)) node.log2
    (int32 ((toU32 (ino - 1) / node.inodesPerGroup : ℕ) * blockGroupSize)) blockGroupSize
  have hgot : Got env group
      ((s.volume env k).blockgroup node (toU32 (ino - 1) / node.inodesPerGroup)) := hgot
  have hrun : ∀ {r s'}, (match group with
      | none => pure none
      | some blkgrp => readStruct env k (int32 (u32At blkgrp 8 +
          (umod (toU32 (ino - 1)) node.inodesPerGroup / (toU32 node.blksz / s.inodeSize) : ℕ)))
          node.log2 (int32 (s.inodeSize * (umod (umod (toU32 (ino - 1)) node.inodesPerGroup)
            (toU32 node.blksz / s.inodeSize) : ℕ))) inodeSize : Phase2 (Option (List Byte))) s1 =
        some (r, s') → ext2fsReadInode env k node ino s = some (r, s') := by
    intro r s' h
    unfold ext2fsReadInode ext2fsBlockgroup
    rw [Prog.get_bind]
    exact (Prog.bind_ok hgroup).trans h
  rcases group with _ | blkgrp
  · refine ⟨none, s1, hrun rfl, hreads, ?_⟩
    rw [Volume.inode]
    rcases hgot with hnone | ⟨-, hnot⟩
    · rw [← hnone]
      exact .inl rfl
    · exact .inr ⟨rfl, hnot⟩
  · rw [Volume.inode, hgot.of_some, Option.bind_some, Volume.inodeIn]
    obtain ⟨inode, s2, hinode, hreads', hgot'⟩ := readStruct_done hdone k s1 (int32 (u32At blkgrp 8 +
      (umod (toU32 (ino - 1)) node.inodesPerGroup / (toU32 node.blksz / s.inodeSize) : ℕ)))
      node.log2 (int32 (s.inodeSize * (umod (umod (toU32 (ino - 1)) node.inodesPerGroup)
        (toU32 node.blksz / s.inodeSize) : ℕ))) inodeSize
    rw [hreads.volume_eq] at hgot'
    exact ⟨inode, s2, hrun hinode, hreads.trans _ _ _ hreads', hgot'⟩

end Works

/-! ## The cached tables -/

/-- The cached table of level `lv` is there, for blocks of `bs` bytes. -/
def Held (bs : ℕ) (lv : Level) (s : St) : Prop :=
  (s.table lv).block.isSome ∧ (s.table lv).size = bs

instance (bs : ℕ) (lv : Level) (s : St) : Decidable (Held bs lv s) := by
  unfold Held
  infer_instance

/-- A node whose blocks have `2 ^ l` sectors. -/
structure Node.Blocks (node : Node) (l : ℕ) : Prop where
  log2 : node.log2 = l
  blksz : node.blksz = (512 * 2 ^ l : ℕ)
  one_le : 1 ≤ l
  le : l ≤ 7

/-- The cached tables hold what is in their blocks. -/
def Coherent (env : Env) (k : KernelSource) (l : ℕ) (s : St) : Prop :=
  ∀ lv b, (s.table lv).block = some b → (s.table lv).size = (512 * 2 ^ l : ℕ) →
    b.length = 512 * 2 ^ l ∧ ∀ t, (s.volume env k).Placed l t →
      (s.table lv).blkno = (t * 2 ^ l : ℕ) → b = (s.volume env k).table (512 * 2 ^ l) t

/-- What reading the table of level `lv` does to the state. -/
structure Loads (env : Env) (k : KernelSource) (l : ℕ) (lv : Level) (s s' : St) : Prop where
  frame : s' = { s with
    reads := s'.reads, keys := s'.keys, log := s'.log, pool := s'.pool, indir1 := s'.indir1,
    indir2 := s'.indir2 }
  other : ∀ lv' ≠ lv, s'.table lv' = s.table lv'
  held : Held (512 * 2 ^ l) lv s'
  pool : s'.pool = if Held (512 * 2 ^ l) lv s then s.pool else poolAfter s.pool (512 * 2 ^ l)
  coherent : Coherent env k l s'

section Tables

variable {env : Env} {extent : ℕ} {k : KernelSource} {node : Node} {l : ℕ} {lv : Level} {s : St}

@[simp] theorem table_setTable (s : St) (x : Indir) (lv : Level) : (s.setTable x lv).table lv = x := by
  cases lv <;> rfl

theorem table_setTable_of_ne (s : St) (x : Indir) {lv lv' : Level} (h : lv' ≠ lv) :
    (s.setTable x lv).table lv' = s.table lv' := by
  cases lv <;> cases lv' <;> first | rfl | exact absurd rfl h

theorem volume_setTable (s : St) (x : Indir) (lv : Level) :
    (s.setTable x lv).volume env k = s.volume env k := by
  cases lv <;> rfl

/-- A block in the partition passes the check of the boundaries. -/
theorem Volume.struct_placed {v : Volume} {t : ℕ} (hl : l ≤ 7) (h : v.Placed l t) :
    v.struct (int32 t) l 0 (512 * 2 ^ l) = some (v.table (512 * 2 ^ l) t) := by
  obtain ⟨hlt, hle⟩ := h
  have hpow : 2 ^ l ≤ 2 ^ 7 := Nat.pow_le_pow_right (by norm_num) hl
  have hpos : 0 < 2 ^ l := Nat.two_pow_pos l
  have ht : t ≤ t * 2 ^ l := Nat.le_mul_of_pos_right t hpos
  have hshl : shl32 (int32 t) l = (t * 2 ^ l : ℕ) := by
    rw [int32_natCast (by omega)]
    exact shl32_natCast (by omega) hlt
  have hmul : (t + 1) * 2 ^ l = t * 2 ^ l + 2 ^ l := Nat.succ_mul _ _
  have hbytes : 512 * (t * 2 ^ l) = 512 * 2 ^ l * t := by ring
  unfold Volume.struct Volume.table
  dsimp only
  rw [hshl]
  generalize t * 2 ^ l = st at *
  generalize 2 ^ l = w at *
  have hoff : int32 ((0 : ℤ) + (512 * w : ℕ) - 1) = (512 * w - 1 : ℕ) := by
    have hcast : (0 : ℤ) + (512 * w : ℕ) - 1 = (512 * w - 1 : ℕ) := by omega
    rw [hcast, int32_natCast (by omega)]
  have hlast : toU32 (int32 ((st : ℤ) + ((512 * w - 1 : ℕ) : ℤ) / 512)) = st + (w - 1) := by
    rw [toU32_int32]
    unfold toU32
    omega
  have hstart : toU32 ((st : ℤ) + 0 / 512) = st := by
    unfold toU32
    omega
  rw [hoff, hlast, if_pos ⟨Int.natCast_nonneg st, by omega⟩, hstart, hbytes]
  rfl

/-- The globals that reading a table changes beside the tables. -/
def Aside (s s' : St) : Prop :=
  s' = { s with reads := s'.reads, keys := s'.keys, log := s'.log, pool := s'.pool }

theorem Aside.table_eq {s s' : St} (h : Aside s s') (lv : Level) : s'.table lv = s.table lv := by
  rw [h]
  cases lv <;> rfl

theorem Aside.volume_eq {s s' : St} (h : Aside s s') : s'.volume env k = s.volume env k := by
  rw [h]
  rfl

theorem loads_refl (hheld : Held (512 * 2 ^ l) lv s) (hc : Coherent env k l s) :
    Loads env k l lv s s :=
  ⟨rfl, fun _ _ => rfl, hheld, (if_pos hheld).symm, hc⟩

theorem Coherent.aside {s' : St} (hc : Coherent env k l s) (h : Aside s s') : Coherent env k l s' := by
  intro lv cached hcached hsize
  rw [h.table_eq] at hcached hsize ⊢
  rw [h.volume_eq]
  exact hc lv cached hcached hsize

theorem Coherent.setTable (hc : Coherent env k l s) {b : List Byte} {key : ℤ}
    (hlen : b.length = 512 * 2 ^ l)
    (hkey : ∀ t, (s.volume env k).Placed l t → key = (t * 2 ^ l : ℕ) →
      b = (s.volume env k).table (512 * 2 ^ l) t) :
    Coherent env k l (s.setTable ⟨some b, (512 * 2 ^ l : ℕ), key⟩ lv) := by
  intro lv' cached hcached hsize
  rw [volume_setTable]
  by_cases hne : lv' = lv
  · rw [hne, table_setTable] at hcached ⊢
    cases hcached
    exact ⟨hlen, hkey⟩
  · rw [table_setTable_of_ne _ _ hne] at hcached hsize ⊢
    exact hc lv' cached hcached hsize

/-- A table that is put in the cache. -/
theorem loads_setTable {s' : St} {b : List Byte} {key : ℤ} (h : Aside s s')
    (hpool : s'.pool = if Held (512 * 2 ^ l) lv s then s.pool else poolAfter s.pool (512 * 2 ^ l))
    (hc : Coherent env k l s) (hlen : b.length = 512 * 2 ^ l)
    (hkey : ∀ t, (s.volume env k).Placed l t → key = (t * 2 ^ l : ℕ) →
      b = (s.volume env k).table (512 * 2 ^ l) t) :
    Loads env k l lv s (s'.setTable ⟨some b, (512 * 2 ^ l : ℕ), key⟩ lv) := by
  constructor
  · rw [h]
    cases lv <;> rfl
  · intro lv' hne
    rw [table_setTable_of_ne _ _ hne, h.table_eq]
  · unfold Held
    rw [table_setTable]
    exact ⟨rfl, rfl⟩
  · rw [← hpool]
    cases lv <;> rfl
  · exact (hc.aside h).setTable hlen (by rwa [h.volume_eq])

/-- The table of a block in the partition, read into the cache. -/
theorem readTable_eq (hw : env.Works) (hnode : node.Blocks l) {t : ℕ}
    (ht : (s.volume env k).Placed l t) {b : List Byte} (hb : b.length = 512 * 2 ^ l) :
    ∃ ws s', ext2fsDevread env k (int32 t) node.log2 0 node.blksz s = some (.ok (true, ws), s') ∧
      Reads s s' ∧ patch b ws = (s.volume env k).table (512 * 2 ^ l) t := by
  obtain ⟨ws, s', hrun, hreads, hputs⟩ := devread_some hw (Volume.struct_placed hnode.le ht)
  rw [← hnode.blksz, ← hnode.log2] at hrun
  refine ⟨ws, s', hrun, hreads, patch_eq ?_ hputs⟩
  rw [hb]
  exact (length_load _ _ _).symm

/-- The number a table is kept under. -/
theorem Node.Blocks.key (hnode : node.Blocks l) {v : Volume} {t : ℕ} (ht : v.Placed l t) :
    shl32 t node.log2 = (t * 2 ^ l : ℕ) := by
  rw [hnode.log2]
  exact shl32_natCast (by have := hnode.le; omega) ht.1

theorem eq_of_key {t u : ℕ} (h : ((t * 2 ^ l : ℕ) : ℤ) = (u * 2 ^ l : ℕ)) : t = u :=
  Nat.eq_of_mul_eq_mul_right (Nat.two_pow_pos l) (by exact_mod_cast h)

/-- The table that is loaded has a block in the cache already. -/
theorem loadTable_held (hw : env.Works) (hnode : node.Blocks l) (hc : Coherent env k l s) {t : ℕ}
    (ht : (s.volume env k).Placed l t) (hheld : Held (512 * 2 ^ l) lv s) :
    ∃ s', loadTable env extent k node t lv s =
      some (.ok (some ((s.volume env k).table (512 * 2 ^ l) t)), s') ∧ Loads env k l lv s s' := by
  have hkey := hnode.key ht
  unfold loadTable
  obtain ⟨b, hb⟩ := Option.isSome_iff_exists.mp hheld.1
  obtain ⟨hlen, hcached⟩ := hc lv b hb hheld.2
  have halloc : allocTable env extent node.blksz lv s = some (.ok (), s) := by
    unfold allocTable
    rw [Prog.get_bind, hb, hheld.2, hnode.blksz, if_neg (by simp), Prog.pure_apply]
  rw [Prog.bind_ok halloc, Prog.get_bind, hb, hkey]
  dsimp only
  by_cases hsame : ((t * 2 ^ l : ℕ) : ℤ) = (s.table lv).blkno
  · rw [if_neg (not_not_intro hsame), ← hcached t ht hsame.symm]
    exact ⟨s, rfl, loads_refl hheld hc⟩
  · obtain ⟨ws, s1, hrun, hreads, hpatch⟩ := readTable_eq hw hnode ht hlen
    have haside : Aside s s1 := by
      unfold Aside
      rw [hreads.eq]
    rw [if_pos hsame, Prog.bind_ok hrun]
    simp only [Option.getD_some, if_true, Prog.modify_bind, hpatch, haside.table_eq, hheld.2]
    refine ⟨_, Prog.pure_apply _ _, ?_⟩
    exact loads_setTable haside (by rw [if_pos hheld, hreads.eq]) hc (length_load _ _ _)
      fun u _ heq => by rw [eq_of_key heq]

/-- The table that is loaded gets a block from the pool. -/
theorem loadTable_new (hw : env.Works) (hnode : node.Blocks l) (hc : Coherent env k l s) {t : ℕ}
    (ht : (s.volume env k).Placed l t) (hheld : ¬ Held (512 * 2 ^ l) lv s)
    (hfit : poolAfter s.pool (512 * 2 ^ l) ≤ extent) (hextent : extent < 2 ^ 32) :
    ∃ s', loadTable env extent k node t lv s =
      some (.ok (some ((s.volume env k).table (512 * 2 ^ l) t)), s') ∧ Loads env k l lv s s' := by
  have hpow : 2 ^ l ≤ 2 ^ 7 := Nat.pow_le_pow_right (by norm_num) hnode.le
  have hkey := hnode.key ht
  unfold loadTable
  have hnew : (s.table lv).block = none ∨ node.blksz ≠ (s.table lv).size := by
    rw [hnode.blksz]
    by_contra hboth
    push Not at hboth
    exact hheld ⟨Option.ne_none_iff_isSome.mp hboth.1, hboth.2.symm⟩
  have hmalloc : malloc extent (toU32 node.blksz) s =
      some (.ok (), { s with pool := poolAfter s.pool (512 * 2 ^ l) }) := by
    rw [hnode.blksz, toU32_natCast (by omega), malloc_apply, if_neg (by omega), if_neg (by omega)]
  obtain ⟨junk, hjunk, halloc⟩ : ∃ junk : List Byte, junk.length = 512 * 2 ^ l ∧
      allocTable env extent node.blksz lv s = some (.ok (),
        { s with pool := poolAfter s.pool (512 * 2 ^ l) }.setTable
          ⟨some junk, (512 * 2 ^ l : ℕ), -1⟩ lv) := by
    refine ⟨env.junk { s with pool := poolAfter s.pool (512 * 2 ^ l) } (512 * 2 ^ l),
      by simp [Env.junk], ?_⟩
    unfold allocTable
    rw [Prog.get_bind, if_pos hnew, Prog.bind_ok hmalloc, Prog.modify_apply, hnode.blksz,
      Int.toNat_natCast]
  rw [Prog.bind_ok halloc, Prog.get_bind, table_setTable, hkey]
  dsimp only
  have ht' : (({ s with pool := poolAfter s.pool (512 * 2 ^ l) }.setTable
      ⟨some junk, (512 * 2 ^ l : ℕ), -1⟩ lv).volume env k).Placed l t := by
    rw [volume_setTable]
    exact ht
  obtain ⟨ws, s1, hrun, hreads, hpatch⟩ := readTable_eq hw hnode ht' hjunk
  have hread : s1.setTable ⟨some ((s.volume env k).table (512 * 2 ^ l) t), (512 * 2 ^ l : ℕ),
      (t * 2 ^ l : ℕ)⟩ lv = { s with
        pool := poolAfter s.pool (512 * 2 ^ l), reads := s1.reads, keys := s1.keys,
        log := s1.log }.setTable ⟨some ((s.volume env k).table (512 * 2 ^ l) t),
          (512 * 2 ^ l : ℕ), (t * 2 ^ l : ℕ)⟩ lv := by
    rw [hreads.eq]
    cases lv <;> rfl
  have hsize : (s1.table lv).size = (512 * 2 ^ l : ℕ) := by
    rw [hreads.eq]
    cases lv <;> rfl
  rw [volume_setTable] at hpatch
  have hpatch : patch junk ws = (s.volume env k).table (512 * 2 ^ l) t := hpatch
  rw [if_pos (by omega), Prog.bind_ok hrun]
  simp only [Option.getD_some, if_true, Prog.modify_bind, hpatch, hsize]
  refine ⟨_, Prog.pure_apply _ _, ?_⟩
  rw [hread]
  exact loads_setTable rfl (if_neg hheld).symm hc (length_load _ _ _)
    fun u _ heq => by rw [eq_of_key heq]

/-- `loadTable`, for a block in the partition and with memory for the table. -/
theorem loadTable_eq (hw : env.Works) (hnode : node.Blocks l) (hc : Coherent env k l s) {t : ℕ}
    (ht : (s.volume env k).Placed l t)
    (hroom : ¬ Held (512 * 2 ^ l) lv s → poolAfter s.pool (512 * 2 ^ l) ≤ extent)
    (hextent : extent < 2 ^ 32) :
    ∃ s', loadTable env extent k node t lv s =
      some (.ok (some ((s.volume env k).table (512 * 2 ^ l) t)), s') ∧ Loads env k l lv s s' := by
  by_cases hheld : Held (512 * 2 ^ l) lv s
  · exact loadTable_held hw hnode hc ht hheld
  · exact loadTable_new hw hnode hc ht hheld (hroom hheld) hextent

/-- What a table of the cache takes from the pool, unless it is there. -/
def tableSpare (l : ℕ) (lv : Level) (s : St) : ℕ :=
  if Held (512 * 2 ^ l) lv s then 0 else 512 * 2 ^ l + 4

/-- What the tables that are not there yet take from the pool. -/
def spare (l : ℕ) (s : St) : ℕ := tableSpare l .indir1 s + tableSpare l .indir2 s

/-- What a part of the ext2 reader does to the state, when it needs the tables of `need`
    and takes `c` bytes of the pool for other objects. -/
structure Advances (env : Env) (k : KernelSource) (l : ℕ) (need : Level → Prop) (c : ℕ)
    (s s' : St) : Prop where
  frame : s' = { s with
    reads := s'.reads, keys := s'.keys, log := s'.log, pool := s'.pool, indir1 := s'.indir1,
    indir2 := s'.indir2 }
  held : ∀ lv, Held (512 * 2 ^ l) lv s' ↔ Held (512 * 2 ^ l) lv s ∨ need lv
  pool : s'.pool + spare l s' = s.pool + spare l s + c
  coherent : Coherent env k l s'

theorem Advances.refl (hc : Coherent env k l s) : Advances env k l (fun _ => False) 0 s s :=
  ⟨rfl, fun _ => (or_false _).symm.to_iff, rfl, hc⟩

theorem Advances.trans {need need' : Level → Prop} {c c' : ℕ} {s' s'' : St}
    (h : Advances env k l need c s s') (h' : Advances env k l need' c' s' s'') :
    Advances env k l (fun lv => need lv ∨ need' lv) (c + c') s s'' := by
  refine ⟨?_, fun lv => ?_, ?_, h'.coherent⟩
  · rw [h'.frame, h.frame]
  · rw [h'.held, h.held, or_assoc]
  · rw [h'.pool, h.pool, Nat.add_assoc]

theorem Advances.congr {need need' : Level → Prop} {c : ℕ} {s' : St}
    (h : Advances env k l need c s s') (hsame : ∀ lv, need lv ↔ need' lv) :
    Advances env k l need' c s s' :=
  ⟨h.frame, fun lv => by rw [h.held, hsame], h.pool, h.coherent⟩

theorem Advances.volume_eq {need : Level → Prop} {c : ℕ} {s' : St}
    (h : Advances env k l need c s s') :
    s'.volume env k = s.volume env k := by
  rw [h.frame]
  rfl

theorem Advances.reads {s' : St} (h : Reads s s') (hc : Coherent env k l s) :
    Advances env k l (fun _ => False) 0 s s' := by
  have haside : Aside s s' := by
    unfold Aside
    rw [h.eq]
  have hheld : ∀ lv, Held (512 * 2 ^ l) lv s' ↔ Held (512 * 2 ^ l) lv s := by
    intro lv
    unfold Held
    rw [haside.table_eq]
  have hpool : s'.pool = s.pool := by rw [h.eq]
  refine ⟨?_, fun lv => ?_, ?_, hc.aside haside⟩
  · rw [h.eq]
  · rw [hheld, or_false]
  · unfold spare tableSpare
    rw [if_congr (hheld .indir1) rfl rfl, if_congr (hheld .indir2) rfl rfl, hpool]
    exact (Nat.add_zero _).symm

theorem poolAfter_table (p : ℕ) : poolAfter p (512 * 2 ^ l) = p + (512 * 2 ^ l + 4) := by
  unfold poolAfter
  generalize 2 ^ l = w
  omega

theorem Loads.advances {s' : St} (h : Loads env k l lv s s') :
    Advances env k l (fun lv' => lv' = lv) 0 s s' := by
  have hother : ∀ lv' ≠ lv, (Held (512 * 2 ^ l) lv' s' ↔ Held (512 * 2 ^ l) lv' s) := by
    intro lv' hne
    unfold Held
    rw [h.other lv' hne]
  have hspare : s'.pool + tableSpare l lv s' = s.pool + tableSpare l lv s := by
    have hpool := h.pool
    unfold tableSpare
    rw [if_pos h.held]
    by_cases hheld : Held (512 * 2 ^ l) lv s
    · rw [if_pos hheld] at hpool ⊢
      rw [hpool]
    · rw [if_neg hheld] at hpool ⊢
      rw [hpool, poolAfter_table, Nat.add_zero]
  refine ⟨h.frame, fun lv' => ?_, ?_, h.coherent⟩
  · by_cases hne : lv' = lv
    · rw [hne]
      exact ⟨fun _ => .inr rfl, fun _ => h.held⟩
    · rw [hother lv' hne]
      exact ⟨.inl, fun hor => hor.resolve_right hne⟩
  · unfold spare
    cases lv with
    | indir1 =>
      have hsame : tableSpare l .indir2 s' = tableSpare l .indir2 s :=
        if_congr (hother .indir2 (by decide)) rfl rfl
      omega
    | indir2 =>
      have hsame : tableSpare l .indir1 s' = tableSpare l .indir1 s :=
        if_congr (hother .indir1 (by decide)) rfl rfl
      omega

theorem room_of_spare (h : s.pool + spare l s ≤ extent) (lv : Level)
    (hheld : ¬ Held (512 * 2 ^ l) lv s) : poolAfter s.pool (512 * 2 ^ l) ≤ extent := by
  have hcost : tableSpare l lv s = 512 * 2 ^ l + 4 := if_neg hheld
  have hle : tableSpare l lv s ≤ spare l s := by
    cases lv
    · exact Nat.le_add_right _ _
    · exact Nat.le_add_left _ _
  rw [poolAfter_table]
  omega

/-! ## The block map -/

/-- The tables that the lookup of block `i` reads. -/
def Needs (bs i : ℕ) : Level → Prop
  | .indir1 => 12 ≤ i
  | .indir2 => 12 + bs / 4 ≤ i

instance (bs i : ℕ) : (lv : Level) → Decidable (Needs bs i lv)
  | .indir1 => inferInstanceAs (Decidable (12 ≤ i))
  | .indir2 => inferInstanceAs (Decidable (12 + bs / 4 ≤ i))

theorem Needs.mono {bs i j : ℕ} (hij : i ≤ j) {lv : Level} (h : Needs bs i lv) : Needs bs j lv := by
  cases lv with
  | indir1 =>
    have h : 12 ≤ i := h
    exact h.trans hij
  | indir2 =>
    have h : 12 + bs / 4 ≤ i := h
    exact h.trans hij

/-- Block `i` of a file is below the triple indirect blocks, the tables of its lookup lie
    in the partition, and it is a positive `int`. -/
structure Volume.Mapped (v : Volume) (node : Node) (l i : ℕ) : Prop where
  lt : i < 12 + 512 * 2 ^ l / 4 + 512 * 2 ^ l / 4 * (512 * 2 ^ l / 4)
  indir : 12 ≤ i → i < 12 + 512 * 2 ^ l / 4 → v.Placed l node.indirBlock
  double : 12 + 512 * 2 ^ l / 4 ≤ i →
    v.Placed l node.doubleIndirBlock ∧ v.Placed l (v.secondTable node (512 * 2 ^ l) i)
  small : v.blockMap node (512 * 2 ^ l) i < 2 ^ 31

theorem entry_eq {v : Volume} {bs t i : ℕ} (h : v.tableEntry bs t i < 2 ^ 31) :
    entry (v.table bs t) i = v.tableEntry bs t i := int32_natCast h

/-- The number of entries of a table, as the code works it out. -/
theorem Node.Blocks.perblock (h : node.Blocks l) : cdiv node.blksz 4 = (512 * 2 ^ l / 4 : ℕ) := by
  have hpow : 2 ^ l ≤ 2 ^ 7 := Nat.pow_le_pow_right (by norm_num) h.le
  have h4 : cdiv ((512 * 2 ^ l : ℕ) : ℤ) ((4 : ℕ) : ℤ) = (512 * 2 ^ l / 4 : ℕ) :=
    cdiv_natCast (by omega)
  rw [h.blksz]
  exact h4

/-- The first block behind those of the single table. -/
theorem single_eq {n : ℕ} (h : n ≤ 2 ^ 14) : int32 (12 + (n : ℤ)) = (12 + n : ℕ) := by
  have hcast : (12 : ℤ) + n = (12 + n : ℕ) := by push_cast; rfl
  rw [hcast, int32_natCast (by omega)]

/-- The first block behind those of the two levels of tables. -/
theorem double_eq {n : ℕ} (h : n ≤ 2 ^ 14) :
    int32 (12 + int32 (n * int32 (n + 1))) = (12 + n + n * n : ℕ) := by
  have hmul : n * n ≤ 2 ^ 14 * 2 ^ 14 := Nat.mul_le_mul h h
  have hsucc : int32 ((n : ℤ) + 1) = (n + 1 : ℕ) := by
    rw [show (n : ℤ) + 1 = (n + 1 : ℕ) by push_cast; rfl, int32_natCast (by omega)]
  have hprod : int32 ((n : ℤ) * (n + 1 : ℕ)) = (n * n + n : ℕ) := by
    rw [show (n : ℤ) * (n + 1 : ℕ) = (n * n + n : ℕ) by push_cast; ring, int32_natCast (by omega)]
  rw [hsucc, hprod, show (12 : ℤ) + (n * n + n : ℕ) = (12 + n + n * n : ℕ) by push_cast; ring,
    int32_natCast (by omega)]

section ReadBlock

variable (hw : env.Works) (hnode : node.Blocks l) (hc : Coherent env k l s)
  (hroom : s.pool + spare l s ≤ extent) (hextent : extent < 2 ^ 32) {i : ℕ}

include hw hnode hc hroom hextent

/-- A block that the single table is looked up for. -/
theorem readBlock_single (hlow : 12 ≤ i) (hhigh : i < 12 + 512 * 2 ^ l / 4)
    (hplaced : (s.volume env k).Placed l node.indirBlock)
    (hsmall : (s.volume env k).tableEntry (512 * 2 ^ l) node.indirBlock (i - 12) < 2 ^ 31) :
    ∃ s', ext2fsReadBlock env extent k node i s = some (.ok
        ((s.volume env k).tableEntry (512 * 2 ^ l) node.indirBlock (i - 12) : ℤ), s') ∧
      Advances env k l (Needs (512 * 2 ^ l) i) 0 s s' := by
  have hpow : 2 ^ l ≤ 2 ^ 7 := Nat.pow_le_pow_right (by norm_num) hnode.le
  obtain ⟨s1, hload, hloads⟩ := loadTable_eq hw hnode hc hplaced (room_of_spare hroom .indir1) hextent
  have hindex : ((i : ℤ) - 12).toNat = i - 12 := by omega
  refine ⟨s1, ?_, hloads.advances.congr fun lv => ?_⟩
  · unfold ext2fsReadBlock
    dsimp only
    rw [hnode.perblock, single_eq (by omega), if_neg (by omega), if_pos (by omega),
      Prog.bind_ok hload]
    dsimp only
    rw [hindex, entry_eq hsmall, Prog.pure_apply]
  · cases lv with
    | indir1 => exact iff_of_true rfl hlow
    | indir2 => exact iff_of_false (by decide) (show ¬ 12 + 512 * 2 ^ l / 4 ≤ i by omega)

/-- The table of the second level is loaded behind that of the first. -/
theorem loadTables_double (hdouble : (s.volume env k).Placed l node.doubleIndirBlock)
    (hsecond : (s.volume env k).Placed l ((s.volume env k).secondTable node (512 * 2 ^ l) i)) :
    ∃ s1 s2, loadTable env extent k node node.doubleIndirBlock .indir1 s =
        some (.ok (some ((s.volume env k).table (512 * 2 ^ l) node.doubleIndirBlock)), s1) ∧
      loadTable env extent k node ((s.volume env k).secondTable node (512 * 2 ^ l) i) .indir2 s1 =
        some (.ok (some ((s.volume env k).table (512 * 2 ^ l)
          ((s.volume env k).secondTable node (512 * 2 ^ l) i))), s2) ∧
      Advances env k l (fun lv => lv = .indir1 ∨ lv = .indir2) 0 s s2 := by
  obtain ⟨s1, hload, hloads⟩ := loadTable_eq hw hnode hc hdouble (room_of_spare hroom .indir1) hextent
  have hadv := hloads.advances
  have hpool := hadv.pool
  have hvol := hadv.volume_eq
  rw [← hvol] at hsecond
  obtain ⟨s2, hload2, hloads2⟩ := loadTable_eq hw hnode hadv.coherent hsecond
    (room_of_spare (by omega) .indir2) hextent
  rw [hvol] at hload2
  exact ⟨s1, s2, hload, hload2, hadv.trans hloads2.advances⟩

/-- A block that the two levels of tables are looked up for. -/
theorem readBlock_double (hlow : 12 + 512 * 2 ^ l / 4 ≤ i)
    (hhigh : i < 12 + 512 * 2 ^ l / 4 + 512 * 2 ^ l / 4 * (512 * 2 ^ l / 4))
    (hdouble : (s.volume env k).Placed l node.doubleIndirBlock)
    (hsecond : (s.volume env k).Placed l ((s.volume env k).secondTable node (512 * 2 ^ l) i))
    (hsmall : (s.volume env k).tableEntry (512 * 2 ^ l)
      ((s.volume env k).secondTable node (512 * 2 ^ l) i)
      ((i - (12 + 512 * 2 ^ l / 4)) % (512 * 2 ^ l / 4)) < 2 ^ 31) :
    ∃ s', ext2fsReadBlock env extent k node i s = some (.ok
        ((s.volume env k).tableEntry (512 * 2 ^ l)
          ((s.volume env k).secondTable node (512 * 2 ^ l) i)
          ((i - (12 + 512 * 2 ^ l / 4)) % (512 * 2 ^ l / 4)) : ℤ), s') ∧
      Advances env k l (Needs (512 * 2 ^ l) i) 0 s s' := by
  have hpow : 2 ^ l ≤ 2 ^ 7 := Nat.pow_le_pow_right (by norm_num) hnode.le
  have hle : 512 * 2 ^ l / 4 ≤ 2 ^ 14 := by omega
  have hpos : 0 < 512 * 2 ^ l / 4 := by
    have := Nat.two_pow_pos l
    omega
  obtain ⟨s1, s2, hload, hload2, hadv⟩ := loadTables_double hw hnode hc hroom hextent hdouble hsecond
  have hsec : (s.volume env k).secondTable node (512 * 2 ^ l) i < 2 ^ 31 :=
    (Nat.le_mul_of_pos_right _ (Nat.two_pow_pos l)).trans_lt hsecond.1
  have hentry : entry ((s.volume env k).table (512 * 2 ^ l) node.doubleIndirBlock)
      ((i - (12 + 512 * 2 ^ l / 4)) / (512 * 2 ^ l / 4)) =
        ((s.volume env k).secondTable node (512 * 2 ^ l) i : ℕ) := entry_eq hsec
  have hrest : toU32 ((i : ℤ) - (12 + (512 * 2 ^ l / 4 : ℕ))) = i - (12 + 512 * 2 ^ l / 4) := by
    have hcast : (i : ℤ) - (12 + (512 * 2 ^ l / 4 : ℕ)) = (i - (12 + 512 * 2 ^ l / 4) : ℕ) := by
      omega
    have hmul := Nat.mul_le_mul hle hle
    rw [hcast, toU32_natCast (by omega)]
  have hmod : umod (i - (12 + 512 * 2 ^ l / 4)) (512 * 2 ^ l / 4) =
      (i - (12 + 512 * 2 ^ l / 4)) % (512 * 2 ^ l / 4) := if_neg (by omega)
  refine ⟨s2, ?_, hadv.congr fun lv => ?_⟩
  · unfold ext2fsReadBlock
    dsimp only
    rw [hnode.perblock, single_eq hle, double_eq hle, if_neg (by omega), if_neg (by omega),
      if_pos (by omega), Prog.bind_ok hload]
    dsimp only
    rw [hrest, toU32_natCast (show 512 * 2 ^ l / 4 < 2 ^ 32 by omega), hentry,
      toU32_natCast (show (s.volume env k).secondTable node (512 * 2 ^ l) i < 2 ^ 32 by omega),
      Prog.bind_ok hload2]
    dsimp only
    rw [hmod, entry_eq hsmall, Prog.pure_apply]
  · cases lv with
    | indir1 => exact iff_of_true (.inl rfl) (show 12 ≤ i by omega)
    | indir2 => exact iff_of_true (.inr rfl) hlow

/-- `ext2fs_read_block`, with the tables in the partition and memory for them. -/
theorem readBlock_eq (hi : (s.volume env k).Mapped node l i) :
    ∃ s', ext2fsReadBlock env extent k node i s =
      some (.ok ((s.volume env k).blockMap node (512 * 2 ^ l) i : ℤ), s') ∧
      Advances env k l (Needs (512 * 2 ^ l) i) 0 s s' := by
  have hsmall := hi.small
  unfold Volume.blockMap at hsmall ⊢
  by_cases hdirect : i < 12
  · rw [if_pos hdirect] at hsmall ⊢
    rw [ext2fsReadBlock_direct hdirect, int32_natCast hsmall]
    refine ⟨s, rfl, (Advances.refl hc).congr fun lv => ?_⟩
    refine iff_of_false not_false ?_
    cases lv <;> unfold Needs <;> omega
  rw [if_neg hdirect] at hsmall ⊢
  by_cases hone : i < 12 + 512 * 2 ^ l / 4
  · rw [if_pos hone] at hsmall ⊢
    exact readBlock_single hw hnode hc hroom hextent (by omega) hone (hi.indir (by omega) hone) hsmall
  · rw [if_neg hone] at hsmall ⊢
    obtain ⟨hdouble, hsecond⟩ := hi.double (by omega)
    exact readBlock_double hw hnode hc hroom hextent (by omega) hi.lt hdouble hsecond hsmall

end ReadBlock

end Tables

end SmartQ.Qi
