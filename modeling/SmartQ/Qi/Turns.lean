import SmartQ.Qi.PathWalk

/-!
# Every source gets its turn

What a kernel source takes from the pool, by the contents of its partition: the mounts, the
lookups of its files, and the two tables of the block map.

* `tryPartition_takes`: a source takes no more than `KernelSource.takes`.
* `bootloaderSecondPhase_turns`: if the sources together take no more than there is, the run
  ends, and every source has had its turn or a kernel has been started.
-/

namespace SmartQ.Qi

open SmartQ.Lib

/-! ## `ext2fs_read_file` with reads that take nothing -/

namespace Ext2

section Spends

variable {σ ε : Type} {μ : σ → ℕ} {limit : ℕ} {fine : ε → Prop} {I : σ → Prop}
  {readBlock : ℤ → Prog σ ε ℤ} {devread : ℤ → ℤ → ℤ → ℤ → Prog σ ε (Bool × List Write)}
  (hread : ∀ i, Prog.Spends μ limit fine I 0 (readBlock i) fun _ => I)
  (hdev : ∀ a b c d, Prog.Spends μ limit fine I 0 (devread a b c d) fun _ => I) (r : Req)

theorem ret_spends {α : Type} (a : α) :
    Prog.Spends μ limit fine I 0 (pure a : Prog σ ε α) fun _ => I :=
  Prog.Spends.ret a fun _ hs => hs

include hdev

theorem spillDelayed_spends (v : Vars) :
    Prog.Spends μ limit fine I 0 (spillDelayed devread v) fun _ => I := by
  unfold spillDelayed spill
  refine Prog.Spends.ite (fun _ => ?_) fun _ => ret_spends _
  exact (hdev _ _ _ _).bind_free fun _ => ret_spends _

include hread

theorem block_spends (i : ℤ) (v : Vars) :
    Prog.Spends μ limit fine I 0 (block readBlock devread r i v) fun _ => I := by
  unfold block
  refine (hread i).bind_free fun blknr => ?_
  refine Prog.Spends.ite (fun _ => ret_spends _) fun _ => ?_
  dsimp only
  refine Prog.Spends.ite (fun _ => ?_) fun _ => ?_
  · refine Prog.Spends.bind_free ?_ fun _ => ret_spends _
    unfold dataBlock
    refine Prog.Spends.ite (fun _ => ret_spends _) fun _ => ?_
    exact (spillDelayed_spends hdev v).bind_free fun _ => ret_spends _
  · refine Prog.Spends.bind_free ?_ fun _ => ret_spends _
    unfold holeBlock
    exact (spillDelayed_spends hdev v).bind_free fun _ => ret_spends _

theorem blocks_spends (n : ℕ) (i : ℤ) (v : Vars) :
    Prog.Spends μ limit fine I 0 (blocks readBlock devread r n i v) fun _ => I := by
  induction n generalizing i v with
  | zero => exact ret_spends _
  | succ n ih =>
    unfold blocks
    refine (block_spends hread hdev r i v).bind_free fun got => ?_
    obtain ⟨ok, v⟩ := got
    exact Prog.Spends.ite (fun _ => ih _ _) fun _ => ret_spends _

theorem readFile_spends : Prog.Spends μ limit fine I 0 (readFile readBlock devread r) fun _ => I := by
  unfold readFile
  refine (blocks_spends hread hdev r _ _ _).bind_free fun got => ?_
  obtain ⟨ok, v⟩ := got
  refine Prog.Spends.ite (fun _ => ?_) fun _ => ret_spends _
  exact (spillDelayed_spends hdev v).bind_free fun _ => ret_spends _

end Spends

end Ext2

/-! ## Reading a file -/

section Files

variable {env : Env} (hdone : ∀ n, env.outcome n = .done) {extent : ℕ} {k : KernelSource}
  {node : Node} {l : ℕ} {lv : Level} {P : St → Prop}

include hdone

theorem blockRead_takes {μ : St → ℕ} (hμ : Measures μ) (hP : ∀ s s', P s → Reads s s' → P s')
    (start blocks : ℕ) :
    Prog.Spends μ extent NotFull P 0 (blockRead env k start blocks) fun _ => P := by
  refine (takes_of_reads hμ (Q := fun _ => True) hP fun s _ => ?_).post fun _ s hs => hs.1
  have hrun := blockRead_done (k := k) (hdone s.reads) start blocks
  exact ⟨_, _, hrun, blockRead_reads env k start blocks _ _ _ hrun, trivial⟩

/-- Every device read ends; one of a negative length by a store over all the memory. -/
theorem devread_takes {μ : St → ℕ} (hμ : Measures μ) (hP : ∀ s s', P s → Reads s s' → P s')
    (sector log2 byteOffset byteLen : ℤ) :
    Prog.Spends μ extent NotFull P 0 (ext2fsDevread env k sector log2 byteOffset byteLen)
      fun _ => P := by
  by_cases hlen : byteLen < 0
  · have hskip : Prog.Spends μ extent NotFull P 0 (skipKey env) fun _ => P := by
      refine (takes_of_reads hμ (Q := fun _ => True) hP fun s _ => ?_).post fun _ s hs => hs.1
      obtain ⟨skip, s', hrun, -⟩ := skipKey_total env s
      exact ⟨skip, s', hrun, skipKey_reads env _ _ _ hrun, trivial⟩
    have hpure : Prog.Spends μ extent NotFull P 0 (pure (false, []) : Phase2 (Bool × List Write))
        fun _ => P := Prog.Spends.ret _ fun _ hs => hs
    unfold ext2fsDevread
    refine Prog.Spends.get_bind fun t _ => ?_
    dsimp only
    refine Prog.Spends.ite (fun _ => ?_) fun _ => hpure
    refine hskip.bind_free fun skip => ?_
    refine Prog.Spends.ite (fun _ => hpure) fun _ => ?_
    unfold transferFrom transferNegative
    dsimp only
    rw [if_pos hlen]
    refine Prog.Spends.get_bind fun t _ => ?_
    refine (blockRead_takes hdone hμ hP _ _).bind_free fun got => ?_
    refine (Prog.Spends.exitIf notFull_corrupt).bind_free fun _ => ?_
    exact Prog.Spends.ret _ fun _ hs => hs.1
  · obtain ⟨n, rfl⟩ := Int.eq_ofNat_of_zero_le (not_lt.mp hlen)
    refine (takes_of_reads hμ (Q := fun _ => True) hP fun s _ => ?_).post fun _ s hs => hs.1
    obtain ⟨skip, ok, ws, s', hrun, hreads, -⟩ := devread_done hdone k s sector log2 byteOffset n
    exact ⟨(ok, ws), s', hrun, hreads, trivial⟩

omit hdone

variable (l lv) in
/-- A table that is there takes nothing more. -/
theorem spare_setTable (s : St) {x : Indir} (hblock : x.block.isSome)
    (hsize : x.size = (512 * 2 ^ l : ℕ)) :
    spare l (s.setTable x lv) + tableSpare l lv s = spare l s := by
  have hheld : Held (512 * 2 ^ l) lv (s.setTable x lv) := by
    unfold Held
    rw [table_setTable]
    exact ⟨hblock, hsize⟩
  have hsame : tableSpare l lv (s.setTable x lv) = 0 := if_pos hheld
  unfold spare
  cases lv with
  | indir1 =>
    have hother : tableSpare l .indir2 (s.setTable x .indir1) = tableSpare l .indir2 s := rfl
    omega
  | indir2 =>
    have hother : tableSpare l .indir1 (s.setTable x .indir2) = tableSpare l .indir1 s := rfl
    omega

theorem pool_setTable (s : St) (x : Indir) (lv : Level) : (s.setTable x lv).pool = s.pool := by
  cases lv <;> rfl

/-- The memory for a table has been counted before. -/
theorem allocTable_takes (hnode : node.Blocks l) (hextent : extent < 2 ^ 32) :
    Takes extent l (fun _ => True) 0 (allocTable env extent node.blksz lv) fun _ s =>
      Held (512 * 2 ^ l) lv s := by
  have hblock := blockBytes_le hnode.le
  apply Prog.Spends.of_ok
  intro s _ hroom
  have hroom : s.pool + spare l s ≤ extent := hroom
  unfold allocTable
  rw [Prog.get_bind, hnode.blksz]
  by_cases hheld : Held (512 * 2 ^ l) lv s
  · have hkeep : ¬ ((s.table lv).block = none ∨ ((512 * 2 ^ l : ℕ) : ℤ) ≠ (s.table lv).size) := by
      rintro (hnone | hsize)
      · have hsome := hheld.1
        rw [hnone] at hsome
        cases hsome
      · exact hsize hheld.2.symm
    rw [if_neg hkeep]
    exact ⟨(), s, rfl, hheld, le_refl _⟩
  · have hnew : (s.table lv).block = none ∨ ((512 * 2 ^ l : ℕ) : ℤ) ≠ (s.table lv).size := by
      by_contra hboth
      push Not at hboth
      exact hheld ⟨Option.ne_none_iff_isSome.mp hboth.1, hboth.2.symm⟩
    have hfit := room_of_spare hroom lv hheld
    have hmalloc : malloc extent (toU32 (512 * 2 ^ l : ℕ)) s =
        some (.ok (), { s with pool := poolAfter s.pool (512 * 2 ^ l) }) := by
      rw [toU32_natCast (by omega), malloc_apply, if_neg (by omega), if_neg (by omega)]
    rw [if_pos hnew, Prog.bind_ok hmalloc, Prog.modify_apply]
    refine ⟨(), _, rfl, ⟨?_, ?_⟩, ?_⟩
    · rw [table_setTable]
      rfl
    · rw [table_setTable]
    · have hspare := spare_setTable l lv { s with pool := poolAfter s.pool (512 * 2 ^ l) }
        (x := ⟨some (env.junk { s with pool := poolAfter s.pool (512 * 2 ^ l) }
          ((512 * 2 ^ l : ℕ) : ℤ).toNat), (512 * 2 ^ l : ℕ), -1⟩) rfl rfl
      have hcost : tableSpare l lv s = 512 * 2 ^ l + 4 := if_neg hheld
      have hsame : tableSpare l lv { s with pool := poolAfter s.pool (512 * 2 ^ l) } =
        tableSpare l lv s := by cases lv <;> rfl
      have hrest : spare l { s with pool := poolAfter s.pool (512 * 2 ^ l) } = spare l s := rfl
      have hafter := poolAfter_table (l := l) s.pool
      unfold used
      rw [pool_setTable]
      show poolAfter s.pool (512 * 2 ^ l) + _ ≤ _
      omega

include hdone

/-- A table is read into memory that has been counted before. -/
theorem loadTable_takes (hnode : node.Blocks l) (hextent : extent < 2 ^ 32) (blkno : ℕ) :
    Takes extent l (fun _ => True) 0 (loadTable env extent k node blkno lv) fun _ _ => True := by
  have hreads : ∀ s s', Held (512 * 2 ^ l) lv s → Reads s s' → Held (512 * 2 ^ l) lv s' := by
    intro s s' hheld h
    rw [h.eq]
    exact hheld
  unfold loadTable
  refine (allocTable_takes hnode hextent).bind_free fun _ => ?_
  refine Prog.Spends.get_bind fun t ht => ?_
  have hret : ∀ got : Option (List Byte), Takes extent l (fun _ => True) 0
      (pure got) fun _ _ => True := fun got => Prog.Spends.ret got fun _ _ => trivial
  refine Prog.Spends.ite (fun _ => ?_) fun _ => (hret _).conseq (fun _ _ => trivial)
    (fun _ _ h => h) (le_refl 0)
  refine (devread_takes hdone (measures_used l) hreads _ _ _ _).bind_free fun got => ?_
  obtain ⟨ok, ws⟩ := got
  refine (Prog.Spends.modify (Q := fun _ _ => True) fun s hs => ⟨trivial, ?_⟩).bind_free
    fun _ => hret _
  have hspare := spare_setTable l lv s (x := ⟨some (patch ((t.table lv).block.getD [])
    ws), (s.table lv).size, if ok then shl32 blkno node.log2 else (s.table lv).blkno⟩) rfl hs.2
  unfold used
  rw [pool_setTable]
  omega

theorem ext2fsReadBlock_takes (hnode : node.Blocks l) (hextent : extent < 2 ^ 32) (fileblock : ℤ) :
    Takes extent l (fun _ => True) 0 (ext2fsReadBlock env extent k node fileblock)
      fun _ _ => True := by
  have hret : ∀ b : ℤ, Takes extent l (fun _ => True) 0 (pure b) fun _ _ => True :=
    fun b => Prog.Spends.ret b fun _ _ => trivial
  have hload : ∀ blkno lv, Takes extent l (fun _ => True) 0 (loadTable env extent k node blkno lv)
      fun _ _ => True := fun blkno lv => loadTable_takes hdone hnode hextent blkno
  unfold ext2fsReadBlock
  refine Prog.Spends.ite (fun _ => ?_) fun _ => ?_
  · exact ((Prog.Spends.exitIf notFull_corrupt).post fun _ _ _ => trivial).bind_free
      fun _ => hret _
  refine Prog.Spends.ite (fun _ => ?_) fun _ => ?_
  · refine (hload _ _).bind_free fun table => ?_
    cases table <;> exact hret _
  refine Prog.Spends.ite (fun _ => ?_) fun _ => hret _
  refine (hload _ _).bind_free fun table => ?_
  cases table with
  | none => exact hret _
  | some table =>
    refine (hload _ _).bind_free fun table => ?_
    cases table <;> exact hret _

omit hdone in
/-- A relation that keeps `P`. -/
theorem keepsFrame (hreads : ∀ s s', P s → Reads s s' → P s')
    (hpool : ∀ s n, P s → P { s with pool := n })
    (htable : ∀ s t lv, P s → P (s.setTable t lv)) : ReadFrame fun s s' => P s → P s' :=
  ⟨fun _ h => h, fun _ _ _ h h' hs => h' (h hs), fun s s' h hs => hreads s s' hs h,
    fun s n hs => hpool s n hs, fun s t lv hs => htable s t lv hs⟩

/-- A file of any layout, on a volume with blocks of `2 ^ l` sectors: beside the tables
    nothing is taken. -/
theorem ext2fsReadFile_takes (hnode : node.Blocks l) (hextent : extent < 2 ^ 32)
    (hP : ReadFrame fun s s' => P s → P s') (pos : ℤ) (len : ℕ) :
    Takes extent l P 0 (ext2fsReadFile env extent k node pos len) fun _ => P := by
  have hfile : Takes extent l P 0 (ext2fsReadFile env extent k node pos len) fun _ _ => True :=
    (Ext2.readFile_spends (I := fun _ => True) (ext2fsReadBlock_takes hdone hnode hextent)
      (devread_takes hdone (measures_used l) fun _ _ _ _ => trivial) _).conseq
        (fun _ _ => trivial) (fun _ _ h => h) (le_refl 0)
  have hkeeps : ∀ s s', P s → (P s → P s') → P s' := fun s s' hs h => h hs
  exact (hfile.frame ((ext2fsReadFile_tame hP env k node pos len).steps extent) hkeeps).post
    fun _ _ h => h.2

end Files

/-! ## The files of a source -/

/-- The partition `v` is selected. -/
def At (env : Env) (k : KernelSource) (v : Volume) (s : St) : Prop :=
  s.volume env k = { v with inodeSize := s.inodeSize }

section At

variable {env : Env} {k : KernelSource} {v : Volume} {s s' : St}

theorem At.reads (hs : At env k v s) (h : Reads s s') : At env k v s' := by
  unfold At
  rw [h.volume_eq, hs, h.eq]

theorem At.inodeSize (hs : At env k v s) (n : ℕ) : At env k v { s with inodeSize := n } := by
  unfold At at hs ⊢
  show { s.volume env k with inodeSize := n } = { v with inodeSize := n }
  rw [hs]

end At

theorem On.frame {env : Env} {k : KernelSource} {v : Volume} {root : Node} {n : ℕ} :
    ReadFrame fun s s' => On env k v root n s → On env k v root n s' := by
  refine keepsFrame (fun s s' hs h => hs.reads h) (fun s n hs => hs.pool n) fun s t lv hs => ?_
  refine ⟨(volume_setTable s t lv).trans hs.volume, ?_, ?_⟩
  · cases lv <;> exact hs.root
  · cases lv <;> exact hs.nest

section Source

variable {env : Env} (hdone : ∀ n, env.outcome n = .done) {extent : ℕ}
  (hextent : extent < 2 ^ 32) {k : KernelSource} {v : Volume}

omit hdone hextent in
theorem Volume.mount_read {w : Volume} {root : Node} (h : v.mount = some (w, root)) :
    root.inodeRead = true := by
  unfold Volume.mount at h
  rcases hsblock : v.struct 2 0 0 sblockSize with _ | sblock
  · rw [hsblock] at h
    cases h
  · rw [hsblock] at h
    dsimp only at h
    split_ifs at h
    obtain ⟨inode, -, heq⟩ := Option.map_eq_some_iff.mp h
    rw [← (Prod.mk.inj heq).2]

theorem Mounted.at {w : Volume} {root : Node} {s : St} (h : Mounted env k w root s)
    (hmount : v.mount = some (w, root)) : At env k v s := by
  obtain ⟨n, hn⟩ := h
  unfold Volume.mount at hmount
  rcases hsblock : v.struct 2 0 0 sblockSize with _ | sblock
  · rw [hsblock] at hmount
    cases hmount
  · rw [hsblock] at hmount
    dsimp only at hmount
    split_ifs at hmount
    obtain ⟨inode, -, heq⟩ := Option.map_eq_some_iff.mp hmount
    have hvol := hn.volume
    rw [← (Prod.mk.inj heq).1] at hvol
    have hsize : s.inodeSize = ext2InodeSize sblock := congrArg Volume.inodeSize hvol
    unfold At
    rw [hvol, hsize]

/-- A mount that gives up. -/
theorem unmount_takes {μ : St → ℕ} (hμ : Measures μ) :
    Prog.Spends μ extent NotFull (At env k v) 0 (do
      Prog.modify fun s => { s with root := none }
      pure false : Phase2 Bool) fun mounted s => At env k v s ∧ (mounted = true → ∃ w root,
        v.mount = some (w, root) ∧ Mounted env k w root s) := by
  have hunmount : Prog.Spends μ extent NotFull (At env k v) 0
      (Prog.modify fun s => { s with root := none }) fun _ => At env k v :=
    modify_takes hμ (fun s hs => hs) fun _ => ⟨rfl, rfl, rfl⟩
  exact hunmount.bind_free fun _ => Prog.Spends.ret false fun s hs => ⟨hs, fun h => by cases h⟩

include hdone

/-- The read of the superblock. -/
theorem readSblock_takes {μ : St → ℕ} (hμ : Measures μ) :
    Prog.Spends μ extent NotFull (At env k v) 0 (readStruct env k 2 0 0 sblockSize)
      fun got s => At env k v s ∧ Got env got (v.struct 2 0 0 sblockSize) := by
  refine takes_of_reads hμ (fun s s' hs h => hs.reads h) fun s hs => ?_
  obtain ⟨got, s', hrun, hreads, hgot⟩ := readStruct_done hdone k s 2 0 0 sblockSize
  rw [hs] at hgot
  exact ⟨got, s', hrun, hreads, hgot⟩

/-- The read of the root directory's inode, behind the superblock. -/
theorem readRoot_takes {μ : St → ℕ} (hμ : Measures μ) {w : Volume} {data : List Byte} {n : ℕ}
    (hvolume : ∀ s, At env k v s → s.inodeSize = n → s.volume env k = w) :
    Prog.Spends μ extent NotFull (fun s => At env k v s ∧ s.inodeSize = n) 0
      (ext2fsReadInode env k ⟨data, 2, [], true⟩ 2) fun got s =>
        (At env k v s ∧ s.inodeSize = n) ∧ Got env got (w.inode ⟨data, 2, [], true⟩ 2) := by
  refine takes_of_reads hμ (fun s s' hs h => ⟨hs.1.reads h, ?_⟩) fun s hs => ?_
  · rw [h.eq]
    exact hs.2
  · obtain ⟨got, s', hrun, hreads, hgot⟩ := readInode_done hdone k s ⟨data, 2, [], true⟩ 2
    rw [hvolume s hs.1 hs.2] at hgot
    exact ⟨got, s', hrun, hreads, hgot⟩

include hextent

/-- A mount, which delivers what is in the superblock or nothing. -/
theorem ext2fsMount_takes {μ : St → ℕ} (hμ : Measures μ) :
    Prog.Spends μ extent NotFull (At env k v) (dataSize + 4) (ext2fsMount env extent k)
      fun mounted s => At env k v s ∧ (mounted = true → ∃ w root,
        v.mount = some (w, root) ∧ Mounted env k w root s) := by
  have hmalloc : Prog.Spends μ extent NotFull (At env k v) (dataSize + 4) (malloc extent dataSize)
      fun _ => At env k v := malloc_takes hμ (fun s n hs => hs) hextent dataSize
  unfold ext2fsMount
  refine (hmalloc.bind (d := 0) fun _ => ?_).within (Nat.add_zero _).le
  refine (readSblock_takes hdone hμ).bind_free fun got => ?_
  refine Prog.Spends.given fun hgot => ?_
  cases got with
  | none => exact unmount_takes hμ
  | some sblock =>
    dsimp only
    by_cases hmagic : u16At sblock 56 ≠ 0xef53
    · rw [if_pos hmagic]
      exact unmount_takes hμ
    · rw [if_neg hmagic]
      -- the volume behind the superblock
      obtain ⟨w, hw⟩ : ∃ w, w = { v with inodeSize := ext2InodeSize sblock } := ⟨_, rfl⟩
      have hvolume : ∀ s, At env k v s → s.inodeSize = ext2InodeSize sblock →
          s.volume env k = w := by
        intro s hs hsize
        unfold At at hs
        rw [hs, hsize, hw]
      have hsize : Prog.Spends μ extent NotFull (At env k v) 0
          (Prog.modify fun s => { s with inodeSize := ext2InodeSize sblock })
          fun _ s => At env k v s ∧ s.inodeSize = ext2InodeSize sblock :=
        modify_takes hμ (fun s hs => ⟨hs.inodeSize _, rfl⟩) fun _ => ⟨rfl, rfl, rfl⟩
      refine hsize.bind_free fun _ => (readRoot_takes hdone hμ hvolume).bind_free fun got => ?_
      refine Prog.Spends.given fun hinode => ?_
      cases got with
      | none => exact (unmount_takes hμ).conseq (fun _ hs => hs.1) (fun _ _ h => h) (le_refl 0)
      | some inode =>
        have hmount : v.mount = some (w, ⟨sblock, 2, inode, true⟩) := by
          unfold Volume.mount
          rw [hgot.of_some]
          dsimp only
          rw [if_neg hmagic, ← hw, hinode.of_some]
          rfl
        have hset : Prog.Spends μ extent NotFull
            (fun s => At env k v s ∧ s.inodeSize = ext2InodeSize sblock) 0
            (Prog.modify fun s => { s with root := some ⟨sblock, 2, inode, true⟩ }) fun _ s =>
              At env k v s ∧ Mounted env k w ⟨sblock, 2, inode, true⟩ s :=
          modify_takes hμ (fun s hs => ⟨hs.1, s.symlinknest, hvolume s hs.1 hs.2, rfl, rfl⟩)
            fun _ => ⟨rfl, rfl, rfl⟩
        refine hset.bind_free fun _ => ?_
        exact Prog.Spends.ret true fun s hs => ⟨hs.1, fun _ => ⟨w, _, hmount, hs.2⟩⟩

omit hdone hextent

/-- What the work on the partition of a source is measured by. -/
def KernelSource.measure (k : KernelSource) (v : Volume) : St → ℕ :=
  if k.filesystem = .ext2 then
    match v.mount with
    | none => St.pool
    | some (_, root) => used root.log2.toNat
  else St.pool

theorem measures_source (k : KernelSource) (v : Volume) : Measures (k.measure v) := by
  unfold KernelSource.measure
  split_ifs
  · rcases v.mount with _ | ⟨w, root⟩
    · exact measures_pool
    · exact measures_used _
  · exact measures_pool

theorem measure_le (k : KernelSource) (v : Volume) (s : St) :
    k.measure v s ≤ s.pool + k.tablesTake v := by
  unfold KernelSource.measure KernelSource.tablesTake
  split_ifs
  · rcases v.mount with _ | ⟨w, root⟩
    · exact le_refl _
    · have hone : ∀ lv, tableSpare root.log2.toNat lv s ≤ 512 * 2 ^ root.log2.toNat + 4 := fun lv => by
        unfold tableSpare
        split_ifs
        · exact Nat.zero_le _
        · exact le_refl _
      have h1 := hone .indir1
      have h2 := hone .indir2
      show s.pool + spare root.log2.toNat s ≤ _
      unfold spare
      dsimp only
      omega
  · exact le_refl _

theorem deliver_takes {P : St → Prop} {μ : St → ℕ} (hμ : Measures μ)
    (hram : ∀ s m, P s → P { s with ram := m })
    (happend : ∀ s bs, P s → P { s with commandlineRootfsAppend := bs }) (dest : Dest)
    (ws : List Write) : Prog.Spends μ extent NotFull P 0 (deliver dest ws) fun _ => P := by
  cases dest with
  | ram addr => exact modify_takes hμ (fun s hs => hram s _ hs) fun _ => ⟨rfl, rfl, rfl⟩
  | append =>
    refine (Prog.Spends.exitIf notFull_corrupt).bind_free fun _ => ?_
    exact modify_takes hμ (fun s hs => happend s _ hs.1) fun _ => ⟨rfl, rfl, rfl⟩

include hdone hextent

/-- The file that is open is read. -/
theorem ext2fsRead_takes {w : Volume} {root : Node} {l : ℕ} (hroot : root.Blocks l) (len : ℕ) :
    Takes extent l (Opens env k w root) 0 (ext2fsRead env extent k len) fun _ =>
      Mounted env k w root := by
  have hframe : ReadFrame fun s s' => Mounted env k w root s → Mounted env k w root s' := by
    have hon : ∀ n, ReadFrame fun s s' => On env k w root n s → On env k w root n s' :=
      fun n => On.frame
    refine keepsFrame (fun s s' hs h => ?_) (fun s n hs => ?_) fun s t lv hs => ?_
    all_goals obtain ⟨m, hm⟩ := hs
    · exact ⟨m, (hon m).reads s s' h hm⟩
    · exact ⟨m, (hon m).pool s n hm⟩
    · exact ⟨m, (hon m).table s t lv hm⟩
  unfold ext2fsRead
  refine Prog.Spends.get_bind fun t ht => ?_
  obtain ⟨⟨n, hn⟩, file, hfile, hsame⟩ := ht
  rw [hn.root, hfile]
  exact (ext2fsReadFile_takes hdone (hroot.congr hsame) hextent hframe 0 len).conseq
    (fun s hs => hs.1) (fun _ _ h => h) (le_refl 0)

variable {fuel : ℕ} (hfuel : 2 ^ 17 ≤ fuel)

include hfuel

/-- A file of the source is read. -/
theorem readFile_takes (hsound : k.Sound env v) {path : Option (List Byte)}
    (hpath : path ∈ [env.board.noboot, env.board.append, k.filepath, k.initramfsFilepath])
    (dest : Dest) (size : ℤ) :
    Prog.Spends (k.measure v) extent NotFull (At env k v) (k.fileTakes v path)
      (readFile env extent fuel k path dest size) fun _ => At env k v := by
  have hret : ∀ c (n : ℤ), Prog.Spends (k.measure v) extent NotFull (At env k v) c (pure n)
      fun _ => At env k v := fun c n =>
    (Prog.Spends.ret (Q := fun _ => At env k v) n fun _ hs => hs).within (Nat.zero_le c)
  have hdeliver : ∀ ws, Prog.Spends (k.measure v) extent NotFull (At env k v) 0 (deliver dest ws)
      fun _ => At env k v := fun ws =>
    deliver_takes (measures_source k v) (fun s m hs => hs) (fun s bs hs => hs) dest ws
  unfold readFile KernelSource.fileTakes
  by_cases hfs : k.filesystem = .ext2
  · rw [if_pos hfs, if_pos hfs]
    refine (ext2fsMount_takes hdone hextent (measures_source k v)).bind fun mounted => ?_
    intro s hs
    cases mounted with
    | false => exact hret _ (-2) s hs.1
    | true =>
      obtain ⟨-, hopen⟩ := hs
      obtain ⟨w, root, hmount, hmounted⟩ := hopen rfl
      obtain ⟨hroot, hpaths⟩ := hsound hfs w root hmount
      have hmeasure : k.measure v = used root.log2.toNat := by
        unfold KernelSource.measure
        rw [if_pos hfs, hmount]
      have hlookup : v.lookupTakes path = (w.findFile root.log2.toNat root path).takes := by
        unfold Volume.lookupTakes
        rw [hmount]
      have hread : root.inodeRead = true := Volume.mount_read hmount
      have hback : ∀ n : ℤ, Takes extent root.log2.toNat (Mounted env k w root) 0 (pure n)
          fun _ => At env k v := fun n => Prog.Spends.ret n fun s hs => hs.at hmount
      rw [hmeasure, hlookup]
      refine (((ext2fsOpen_takes hdone hextent hroot hfuel hread path (hpaths path hpath)).bind
        (d := 0) fun len => ?_).within (Nat.add_zero _).le) s hmounted
      refine Prog.Spends.ite (fun _ => (hback (-1)).conseq (fun s hs => hs.1) (fun _ _ h => h)
        (le_refl 0)) fun hlen => ?_
      refine ((ext2fsRead_takes hdone hextent hroot (toU32 size)).conseq
        (fun s hs => hs.2 (not_lt.mp hlen)) (fun _ _ h => h) (le_refl 0)).bind_free fun got => ?_
      refine (deliver_takes (measures_used _) (fun s m hs => ?_) (fun s bs hs => ?_) dest
        got.2).bind_free fun _ => hback _
      all_goals obtain ⟨n, hn⟩ := hs
      · exact ⟨n, hn.volume, hn.root, hn.nest⟩
      · exact ⟨n, hn.volume, hn.root, hn.nest⟩
  · rw [if_neg hfs, if_neg hfs]
    refine Prog.Spends.ite (fun _ => hret 0 _) fun _ => ?_
    refine ((Prog.Spends.exitIf notFull_corrupt).post fun _ s hs => hs.1).bind_free fun _ => ?_
    refine Prog.Spends.get_bind fun t _ => ?_
    refine (blockRead_takes hdone (measures_source k v) (fun s s' hs h => hs.reads h) _ _).bind_free
      fun got => ?_
    exact (hdeliver _).bind_free fun _ => hret 0 _

/-! ## The boot loop -/

theorem loadUimage_takes (hsound : k.Sound env v) :
    Prog.Spends (k.measure v) extent NotFull (At env k v) (k.fileTakes v k.filepath)
      (loadUimage env extent fuel k) fun _ => At env k v := by
  have hret : ∀ entry : Option ℕ, Prog.Spends (k.measure v) extent NotFull (At env k v) 0
      (pure entry) fun _ => At env k v := fun entry => Prog.Spends.ret entry fun _ hs => hs
  unfold loadUimage
  refine Prog.Spends.get_bind fun t _ => ?_
  dsimp only
  refine Prog.Spends.ite (fun _ => (hret _).within (Nat.zero_le _)) fun _ => ?_
  refine ((readFile_takes hdone hextent hfuel hsound (by simp) _ _).bind (d := 0)
    fun got => ?_).within (Nat.add_zero _).le
  refine Prog.Spends.ite (fun _ => hret _) fun _ => ?_
  exact Prog.Spends.get_bind fun t _ => hret _

theorem loadZimage_takes (hsound : k.Sound env v) :
    Prog.Spends (k.measure v) extent NotFull (At env k v) (k.fileTakes v k.filepath)
      (loadZimage env extent fuel k) fun _ => At env k v := by
  have hret : ∀ entry : Option ℕ, Prog.Spends (k.measure v) extent NotFull (At env k v) 0
      (pure entry) fun _ => At env k v := fun entry => Prog.Spends.ret entry fun _ hs => hs
  unfold loadZimage
  refine Prog.Spends.get_bind fun t _ => ?_
  dsimp only
  refine Prog.Spends.ite (fun _ => (hret _).within (Nat.zero_le _)) fun _ => ?_
  exact ((readFile_takes hdone hextent hfuel hsound (by simp) _ _).bind (d := 0)
    fun got => hret _).within (Nat.add_zero _).le

theorem loadKernel_takes (hsound : k.Sound env v) :
    Prog.Spends (k.measure v) extent NotFull (At env k v) (3 * k.fileTakes v k.filepath)
      (loadKernel env extent fuel k) fun _ => At env k v := by
  have hret : ∀ c (entry : Option ℕ), Prog.Spends (k.measure v) extent NotFull (At env k v) c
      (pure entry) fun _ => At env k v := fun c entry =>
    (Prog.Spends.ret (Q := fun _ => At env k v) entry fun _ hs => hs).within (Nat.zero_le c)
  unfold loadKernel
  refine ((readFile_takes hdone hextent hfuel hsound (by simp) _ _).bind
    (d := 2 * k.fileTakes v k.filepath) fun got => ?_).within (by omega)
  refine Prog.Spends.ite (fun _ => hret _ _) fun _ => ?_
  refine ((loadUimage_takes hdone hextent hfuel hsound).bind
    (d := k.fileTakes v k.filepath) fun entry => ?_).within (by omega)
  cases entry with
  | none => exact loadZimage_takes hdone hextent hfuel hsound
  | some entry => exact hret _ _

theorem loadInitramfs_takes (hsound : k.Sound env v) :
    Prog.Spends (k.measure v) extent NotFull (At env k v) (k.fileTakes v k.initramfsFilepath)
      (loadInitramfs env extent fuel k) fun _ => At env k v := by
  have hret : ∀ len : ℕ, Prog.Spends (k.measure v) extent NotFull (At env k v) 0
      (pure len) fun _ => At env k v := fun len => Prog.Spends.ret len fun _ hs => hs
  unfold loadInitramfs
  refine Prog.Spends.ite (fun _ => (hret 0).within (Nat.zero_le _)) fun _ => ?_
  exact ((readFile_takes hdone hextent hfuel hsound (by simp) _ _).bind (d := 0)
    fun len => hret _).within (Nat.add_zero _).le

omit hdone hextent hfuel in
theorem startKernel_takes {μ : St → ℕ} (hμ : Measures μ) {P Q : St → Prop}
    (entry initramfsLen : ℕ) :
    Prog.Spends μ extent NotFull P 0 (startKernel env k entry initramfsLen) fun _ => Q := by
  unfold startKernel
  refine Prog.Spends.get_bind fun t _ => ?_
  dsimp only
  refine (Prog.Spends.exitIf notFull_corrupt).bind_free fun _ => ?_
  refine Prog.Spends.bind_free (modify_takes hμ (Q := fun _ _ => True) (fun _ _ => trivial)
    fun _ => ⟨rfl, rfl, rfl⟩) fun _ => ?_
  exact Prog.Spends.exit fun h => by cases h

/-- What a source takes, once its partition is selected. -/
theorem tryPartition_takes (hsound : k.Sound env v) :
    Prog.Spends (k.measure v) extent NotFull (At env k v) (k.filesTake env.board v)
      (tryPartition env extent fuel k) fun _ => At env k v := by
  have hret : ∀ c, Prog.Spends (k.measure v) extent NotFull (At env k v) c (pure ())
      fun _ => At env k v := fun c =>
    (Prog.Spends.ret (Q := fun _ => At env k v) () fun _ hs => hs).within (Nat.zero_le c)
  have happend : Prog.Spends (k.measure v) extent NotFull (At env k v) 0
      (Prog.modify fun s =>
        { s with commandlineRootfsAppend := patch s.commandlineRootfsAppend [(0, [0])] })
      fun _ => At env k v := modify_takes (measures_source k v) (fun _ hs => hs)
        fun _ => ⟨rfl, rfl, rfl⟩
  unfold tryPartition KernelSource.filesTake
  refine ((readFile_takes hdone hextent hfuel hsound (by simp) _ _).bind (d :=
    k.fileTakes v env.board.append + 3 * k.fileTakes v k.filepath +
      k.fileTakes v k.initramfsFilepath) fun ret => ?_).within (by omega)
  refine Prog.Spends.ite (fun _ => hret _) fun _ => ?_
  refine happend.bind_free fun _ => ?_
  refine ((readFile_takes hdone hextent hfuel hsound (by simp) _ _).bind (d :=
    3 * k.fileTakes v k.filepath + k.fileTakes v k.initramfsFilepath) fun ret => ?_).within
      (by omega)
  refine (loadKernel_takes hdone hextent hfuel hsound).bind fun entry => ?_
  cases entry with
  | none => exact hret _
  | some entry =>
    exact ((loadInitramfs_takes hdone hextent hfuel hsound).bind (d := 0) fun len =>
      startKernel_takes (measures_source k v) entry len).within (Nat.add_zero _).le

omit hextent hfuel

/-- Before the partition of a source is selected. -/
def Unselected (s : St) : Prop := s.partitionLengthBlocks = 0

omit hdone in
theorem doBlockInit_takes {μ : St → ℕ} (hμ : Measures μ) :
    Prog.Spends μ extent NotFull Unselected 0 (doBlockInit env k) fun _ => Unselected := by
  have hret : ∀ ok : Bool, Prog.Spends μ extent NotFull Unselected 0 (pure ok)
      fun _ => Unselected := fun ok => Prog.Spends.ret ok fun _ hs => hs
  unfold doBlockInit
  rcases k.blockInit with _ | init
  · exact hret _
  · refine Prog.Spends.get_bind fun t _ => ?_
    refine Prog.Spends.bind_free (Q := fun _ => Unselected) ?_ fun _ =>
      Prog.Spends.get_bind fun t _ => hret _
    unfold Prog.doIf
    exact Prog.Spends.ite (fun _ => modify_takes hμ (fun _ hs => hs) fun _ => ⟨rfl, rfl, rfl⟩)
      fun _ => Prog.Spends.ret () fun _ hs => hs

omit hdone in
theorem deliver_table {P : St → Prop} {μ : St → ℕ} (hμ : Measures μ) (addr : ℕ) (bs : List Byte) :
    Prog.Spends μ extent NotFull P 0 (deliver (.ram addr) [(0, bs)]) fun _ s =>
      ∃ m : Ram, s.ram = m.set addr bs :=
  modify_takes hμ (fun s _ => ⟨s.ram, rfl⟩) fun _ => ⟨rfl, rfl, rfl⟩

/-- The partition that is selected is the one of the table. -/
theorem doPartitions_takes {μ : St → ℕ} (hμ : Measures μ) :
    Prog.Spends μ extent NotFull Unselected 0 (doPartitions env k) fun found s =>
      found = true → ∃ m v, partitionOf env k m = some v ∧ At env k v s := by
  have hfalse : ∀ P, Prog.Spends μ extent NotFull P 0 (pure false) fun found s =>
      found = true → ∃ m v, partitionOf env k m = some v ∧ At env k v s := fun P =>
    Prog.Spends.ret false fun _ _ h => by cases h
  unfold doPartitions
  by_cases hindex : k.partitionIndex = 0
  · rw [if_pos hindex]
    refine Prog.Spends.bind_free (Q := fun _ s => At env k
      ⟨partition env k (toU32 k.offsetBlocks512IfNoPartition), 0, 0⟩ s)
      (modify_takes hμ (fun s hs => ?_) fun _ => ⟨rfl, rfl, rfl⟩) fun _ => ?_
    · have hs : s.partitionLengthBlocks = 0 := hs
      unfold At St.volume
      dsimp only
      rw [hs]
    · exact Prog.Spends.ret true fun s hs _ => ⟨fun _ => 0, _, if_pos hindex, hs⟩
  · rw [if_neg hindex]
    have htable : Prog.Spends μ extent NotFull Unselected 0 (blockRead env k 0 4) fun got s =>
        Unselected s ∧ got = ((4 : ℤ), sectors env k 0 (512 * 4)) := by
      refine takes_of_reads hμ (fun s s' hs h => ?_) fun s _ => ?_
      · unfold Unselected
        rw [h.eq]
        exact hs
      · have hrun := blockRead_done (k := k) (hdone s.reads) 0 4
        exact ⟨_, _, hrun, blockRead_reads env k 0 4 _ _ _ hrun, rfl⟩
    refine htable.bind_free fun got => Prog.Spends.given fun hgot => ?_
    rw [hgot]
    dsimp only
    refine (deliver_table hμ (kernelDram env) (sectors env k 0 (512 * 4))).bind_free fun _ => ?_
    refine Prog.Spends.get_bind fun t ht => ?_
    obtain ⟨m, hm⟩ := ht
    refine Prog.Spends.ite (fun _ => hfalse _) fun _ => ?_
    by_cases hsign : t.ram.bytes (kernelDram env + 0x1fe) 2 ≠ [0x55, 0xaa]
    · rw [if_pos hsign]
      exact hfalse _
    · rw [if_neg hsign]
      rw [hm] at hsign ⊢
      have hpart : partitionOf env k m = some ⟨partition env k (u32At ((m.set (kernelDram env)
          (sectors env k 0 (512 * 4))).bytes (kernelDram env +
            toU32 (0x1be + 8 + 0x10 * (k.partitionIndex - 1))) 8) 0),
          u32At ((m.set (kernelDram env) (sectors env k 0 (512 * 4))).bytes (kernelDram env +
            toU32 (0x1be + 8 + 0x10 * (k.partitionIndex - 1))) 8) 4, 0⟩ := by
        unfold partitionOf
        dsimp only
        rw [if_neg hindex, if_neg hsign]
      generalize (m.set (kernelDram env) (sectors env k 0 (512 * 4))).bytes (kernelDram env +
        toU32 (0x1be + 8 + 0x10 * (k.partitionIndex - 1))) 8 = p at hpart ⊢
      refine Prog.Spends.bind_free (Q := fun _ s => At env k
        ⟨partition env k (u32At p 0), u32At p 4, 0⟩ s)
        (modify_takes hμ (fun s _ => rfl) fun _ => ⟨rfl, rfl, rfl⟩)
        fun _ => Prog.Spends.ret true fun s hs _ => ⟨m, _, hpart, hs⟩

include hextent hfuel

/-- What a source takes, whatever its partition is. -/
theorem tryThisKernel_takes {c : ℕ}
    (hcost : ∀ m v, partitionOf env k m = some v → k.Sound env v ∧ k.takes env.board v ≤ c) :
    Prog.Spends St.pool extent NotFull (fun _ => True) c (tryThisKernel env extent fuel k)
      fun _ _ => True := by
  have hret : Prog.Spends St.pool extent NotFull (fun _ => True) c (pure () : Phase2 Unit)
      fun _ _ => True := (Prog.Spends.ret () fun _ _ => trivial).within (Nat.zero_le c)
  unfold tryThisKernel
  refine Prog.Spends.bind_free (Q := fun _ => Unselected)
    (modify_takes measures_pool (fun s _ => rfl) fun _ => ⟨rfl, rfl, rfl⟩) fun _ => ?_
  refine (doBlockInit_takes measures_pool).bind_free fun initialised => ?_
  refine Prog.Spends.ite (fun _ => ?_) fun _ =>
    hret.conseq (fun _ _ => trivial) (fun _ _ h => h) (le_refl c)
  refine (doPartitions_takes hdone measures_pool).bind_free fun found => ?_
  refine Prog.Spends.ite (fun hfound => ?_) fun _ =>
    hret.conseq (fun _ _ => trivial) (fun _ _ h => h) (le_refl c)
  intro s hs
  obtain ⟨m, v, hpart, hat⟩ := hs hfound
  obtain ⟨hsound, htakes⟩ := hcost m v hpart
  exact (((tryPartition_takes hdone hextent hfuel hsound).measure (fun s _ => measure_le k v s)
    fun _ s _ => (measures_source k v).le s).conseq (fun _ h => h) (fun _ _ _ => trivial)
      htakes) s hat

end Source

section Boot

variable {env : Env} (hdone : ∀ n, env.outcome n = .done) {extent : ℕ} (hextent : extent < 2 ^ 32)
  {fuel : ℕ} (hfuel : 2 ^ 17 ≤ fuel)

include hdone hextent hfuel

/-- The sources take what they take together. -/
theorem trySources_takes {cost : KernelSource → ℕ} {ks : List KernelSource}
    (hcost : ∀ k ∈ ks, ∀ m v, partitionOf env k m = some v →
      k.Sound env v ∧ k.takes env.board v ≤ cost k) :
    Prog.Spends St.pool extent NotFull (fun _ => True) (ks.map cost).sum
      (trySources env extent fuel ks) fun _ _ => True := by
  induction ks with
  | nil => exact Prog.Spends.ret () fun _ _ => trivial
  | cons k ks ih =>
    rw [List.map_cons, List.sum_cons]
    unfold trySources
    exact (tryThisKernel_takes hdone hextent hfuel (hcost k List.mem_cons_self)).bind fun _ =>
      ih fun j hj => hcost j (List.mem_cons_of_mem k hj)

end Boot

/-- The end of a run of the second phase from its start: a kernel is started, or every
    source has been tried in order and the loop is left. -/
def GotTurns (env : Env) (r : Except Exit Unit) (s' : St) : Prop :=
  (∃ entry, r = .error (.started entry)) ∨
    r = .ok () ∧ tried s'.log = env.board.kernelSource.map KernelSource.name

/-- A card with an ext2 partition whose root directory has one entry `n`, a symbolic
    link with a target of `size` bytes. -/
def linkDisk (size : ℕ) : Disk :=
  applyWrites
    [(454, le32 4 ++ le32 64), (510, [0x55, 0xaa]),
      (3072 + 20, le32 1), (3072 + 40, le32 16), (3072 + 56, [0x53, 0xef]),
      (4096 + 8, le32 5),
      (7296 + 4, le32 1024), (7296 + 40, le32 10),
      (7424 + 4, le32 size),
      (12288, le32 3 ++ [0x00, 0x04, 1, 7, 0x6e])] fun _ => 0

/-- A directory of one record, in one block. -/
theorem Volume.listed_single {v : Volume} {dir : Node} {l : ℕ} (hsize : dir.size = 512 * 2 ^ l)
    (hblock : dir.dirBlock 0 ≠ 0 ∧ dir.dirBlock 0 * 2 ^ l < 2 ^ 31)
    (hname : direntSize + v.nameLen dir l 0 ≤ v.direntLen dir l 0)
    (hlen : v.direntLen dir l 0 = 512 * 2 ^ l) : v.Listed dir l := by
  have hl : 0 < 512 * 2 ^ l := by positivity
  have hone : ∀ n, v.IsRecord dir l n → n = 0 := by
    intro n hn
    by_contra hne
    have h1 := hn 1 (by omega)
    have hrec : v.record dir l 1 = add32 0 (v.direntLen dir l 0) := rfl
    have hlt := direntLen_lt dir l v 0
    rw [hrec, add32_of_lt (by omega), hlen, hsize] at h1
    omega
  refine ⟨hsize ▸ dvd_refl _, by omega, fun i hi => ?_, fun n hn => ?_, fun n hn => ?_⟩
  · have hzero : i = 0 := by
      rw [hsize] at hi
      exact Nat.lt_one_iff.mp (Nat.lt_of_mul_lt_mul_right (lt_of_lt_of_le hi (Nat.one_mul _).ge))
    rw [hzero]
    exact hblock
  · rw [hone n hn]
    exact hname
  · rw [hone n hn]
    show 0 % (512 * 2 ^ l) + v.direntLen dir l 0 ≤ 512 * 2 ^ l
    rw [Nat.zero_mod, Nat.zero_add, hlen]

/-- The partition of the card. -/
def linkVolume (size : ℕ) : Volume :=
  ⟨partition (workingEnv (linkDisk size) [ext2Source]) ext2Source 4, 64, 0⟩

theorem linkDisk_partition (m : Ram) (v : Volume)
    (h : partitionOf (workingEnv (linkDisk 50) [ext2Source]) ext2Source m = some v) :
    v = linkVolume 50 := by
  have htable : ((sectors (workingEnv (linkDisk 50) [ext2Source]) ext2Source 0 (512 * 4)).drop
      454).take 8 = le32 4 ++ le32 64 := by decide +kernel
  have hsign : ((sectors (workingEnv (linkDisk 50) [ext2Source]) ext2Source 0 (512 * 4)).drop
      0x1fe).take 2 = [0x55, 0xaa] := by decide +kernel
  rw [partitionOf_index (by decide) (by decide), if_neg (by rw [hsign]; decide)] at h
  have hplace : toU32 (0x1be + 8 + 0x10 * (ext2Source.partitionIndex - 1)) = 454 := by decide
  dsimp only at h
  rw [hplace, htable] at h
  exact (Option.some.inj h).symm

/-- Only the directory `dir` is scanned, and a link has its target in the inode. -/
def Met.Plain (dir : Node) : Met → Prop
  | .scanned d _ => d = dir
  | .followed link => link.size < 60

instance (dir : Node) (m : Met) : Decidable (m.Plain dir) := by
  cases m with
  | scanned d _ => exact inferInstanceAs (Decidable (d = dir))
  | followed link => exact inferInstanceAs (Decidable (link.size < 60))

/-- What is on the card: a root directory of one record in one block, which alone is scanned. -/
theorem linkVolume_mount : ∀ x ∈ (linkVolume 50).mount,
    (x.2.log2 = 1 ∧ x.2.blksz = 1024 ∧ x.2.size = 1024) ∧
    x.2.dirBlock 0 = 10 ∧ x.1.nameLen x.2 1 0 = 1 ∧ x.1.direntLen x.2 1 0 = 1024 := by
  decide

theorem linkVolume_plain : ∀ x ∈ (linkVolume 50).mount,
    ∀ path ∈ [some [0x6e], some [0x61], some [0x6b], none],
      ∀ m ∈ (x.1.findFile 1 x.2 path).met, m.Plain x.2 := by
  decide +kernel

theorem linkVolume_takes : ext2Source.takes (workingEnv (linkDisk 50) [ext2Source]).board
    (linkVolume 50) = 4940 := by
  decide

theorem linkDisk_sound : ext2Source.Sound (workingEnv (linkDisk 50) [ext2Source]) (linkVolume 50) := by
  intro _ w root h
  obtain ⟨⟨hlog2, hblksz, hsize⟩, hblock, hname, hlen⟩ := linkVolume_mount (w, root) h
  have hplain := linkVolume_plain (w, root) h
  dsimp only at hlog2 hblksz hsize hblock hname hlen hplain
  have hroot : w.Listed root 1 := Volume.listed_single hsize
    ⟨by rw [hblock]; decide, by rw [hblock]; decide⟩ (by rw [hname, hlen]; decide) hlen
  have hl : root.log2.toNat = 1 := by rw [hlog2]; rfl
  rw [hl]
  refine ⟨⟨hlog2, hblksz, le_refl 1, by decide⟩, fun path hpath m hm => ?_⟩
  have hm : m.Plain root := hplain path hpath m hm
  cases m with
  | scanned dir entries =>
    have hdir : dir = root := hm
    rw [hdir]
    exact hroot
  | followed link => exact .inl hm

end SmartQ.Qi
