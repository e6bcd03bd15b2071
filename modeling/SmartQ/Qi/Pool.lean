import SmartQ.Lib.Limit
import SmartQ.Qi.FileReads
import SmartQ.Qi.Phase2

/-!
# The pool of the second phase

* `Tame`: a fragment that depends on the size of the pool only in that it stops when
  the pool is used up, and that changes the globals only as some relation allows.
* `trySources_tried`: the sources are tried in order, and all of them unless the run exits.
-/

namespace SmartQ.Qi

open SmartQ.Lib

theorem malloc_apply (e size : ℕ) (s : St) :
    malloc e size s =
      if e < poolAfter s.pool size % 2 ^ 32 then
        some (.error .outOfPool, { s with pool := poolAfter s.pool size })
      else if 2 ^ 32 ≤ poolAfter s.pool size then
        some (.error .corrupt, { s with pool := poolAfter s.pool size })
      else some (.ok (), { s with pool := poolAfter s.pool size }) := by
  unfold malloc
  rw [Prog.get_bind, Prog.modify_bind]
  by_cases hfull : e < poolAfter s.pool size % 2 ^ 32
  · rw [Prog.exitIf_of hfull, if_pos hfull]
  · rw [Prog.exitIf_of_not hfull, if_neg hfull]
    unfold Prog.exitIf
    by_cases hwrap : 2 ^ 32 ≤ poolAfter s.pool size
    · rw [if_pos hwrap, if_pos hwrap, Prog.exit_apply]
    · rw [if_neg hwrap, if_neg hwrap]
      rfl

/-! ## Tame fragments -/

/-- A relation between states that reading a file keeps: everything but the pool and the
    cached tables is left alone. -/
structure ReadFrame (R : St → St → Prop) : Prop where
  refl : ∀ s, R s s
  trans : ∀ s s' s'', R s s' → R s' s'' → R s s''
  reads : ∀ s s', Reads s s' → R s s'
  pool : ∀ s n, R s { s with pool := n }
  table : ∀ s t lv, R s (s.setTable t lv)

/-- A relation between states that opening a file keeps as well. -/
structure OpenFrame (R : St → St → Prop) : Prop extends ReadFrame R where
  nest : ∀ s n, R s { s with symlinknest := n }
  file : ∀ s f, R s { s with file := f }

/-- A relation between states that the ext2 reader keeps: everything but its own
    globals is left alone. -/
structure Ext2Frame (R : St → St → Prop) : Prop extends OpenFrame R where
  root : ∀ s r, R s { s with root := r }
  inodeSize : ∀ s n, R s { s with inodeSize := n }

/-- An exit that is not the end of the pool, nor a store outside its object. -/
def Regular : Exit → Prop
  | .started _ => True
  | .outOfPool => False
  | .corrupt => False

/-- The fragment `x`, over the size of the pool. -/
structure Tame {α : Type} (R : St → St → Prop) (x : ℕ → Phase2 α) : Prop where
  limited : Prog.Limited St.pool .outOfPool Regular x
  steps : ∀ e, Prog.Steps R (x e)

namespace Tame

variable {R : St → St → Prop} {α β : Type} (hR : ReadFrame R)

include hR

theorem ret (a : α) : Tame R fun _ => (pure a : Phase2 α) :=
  ⟨Prog.Limited.ret a, fun _ => Prog.Steps.ret hR.refl a⟩

theorem get : Tame R fun _ => (Prog.get : Phase2 St) :=
  ⟨Prog.Limited.get, fun _ => Prog.Steps.get hR.refl⟩

theorem exit (b : Exit) : Tame R fun _ => (Prog.exit b : Phase2 α) :=
  ⟨Prog.Limited.exit b, fun _ => Prog.Steps.exit hR.refl b⟩

theorem exitIf (c : Prop) [Decidable c] (b : Exit) :
    Tame R fun _ => (Prog.exitIf c b : Phase2 Unit) :=
  ⟨Prog.Limited.exitIf c b, fun _ => Prog.Steps.exitIf hR.refl c b⟩

theorem bind {x : ℕ → Phase2 α} {f : ℕ → α → Phase2 β} (hx : Tame R x)
    (hf : ∀ a, Tame R fun e => f e a) : Tame R fun e => x e >>= f e :=
  ⟨hx.limited.bind fun a => (hf a).limited,
    fun e => Prog.Steps.bind hR.trans (hx.steps e) fun a => (hf a).steps e⟩

omit hR

theorem stuck : Tame R fun _ => (Prog.stuck : Phase2 α) :=
  ⟨Prog.Limited.stuck, fun _ => Prog.Steps.stuck⟩

theorem modify {f : St → St} (hpool : ∀ s, (f s).pool = s.pool) (hf : ∀ s, R s (f s)) :
    Tame R fun _ => (Prog.modify f : Phase2 Unit) :=
  ⟨Prog.Limited.modify hpool, fun _ => Prog.Steps.modify hf⟩

theorem ite {c : Prop} [Decidable c] {x y : ℕ → Phase2 α} (hx : Tame R x) (hy : Tame R y) :
    Tame R fun e => if c then x e else y e := by
  refine ⟨hx.limited.ite hy.limited, fun e => ?_⟩
  split_ifs
  · exact hx.steps e
  · exact hy.steps e

include hR

/-- A fragment that only reads the device. -/
theorem reads {x : Phase2 α} (h : Prog.Steps Reads x) : Tame R fun _ => x := by
  refine ⟨Prog.Limited.const fun s r s' hrun => ?_, fun _ s r s' hrun => hR.reads s s' (h s r s' hrun)⟩
  show s'.pool = s.pool
  rw [(h s r s' hrun).eq]

/-- A request either fits or ends the run. -/
theorem malloc (size : ℕ) : Tame R fun e => Qi.malloc e size := by
  constructor
  · intro e s r s' hrun hr
    have hrun : Qi.malloc e size s = some (r, s') := hrun
    rw [malloc_apply] at hrun
    split_ifs at hrun with hfull hwrap
    · cases hrun
      exact (hr _ rfl).elim
    · cases hrun
      exact (hr _ rfl).elim
    · cases hrun
      have hpool : poolAfter s.pool size % 2 ^ 32 = poolAfter s.pool size :=
        Nat.mod_eq_of_lt (by omega)
      have hle : s.pool ≤ poolAfter s.pool size := Nat.le_add_right _ _
      refine ⟨hle, fun e' _ => ⟨fun hin => ?_, fun hlt => ?_⟩⟩
      · show Qi.malloc e' size s = _
        have hin : poolAfter s.pool size ≤ e' := hin
        rw [malloc_apply, if_neg (by omega), if_neg hwrap]
      · refine ⟨{ s with pool := poolAfter s.pool size }, ?_⟩
        show Qi.malloc e' size s = _
        have hlt : e' < poolAfter s.pool size := hlt
        rw [malloc_apply, if_pos (by omega)]
  · intro e s r s' hrun
    rw [malloc_apply] at hrun
    split_ifs at hrun
    all_goals
      cases hrun
      exact hR.pool s _

end Tame

/-! ## The ext2 reader -/

section Ext2

variable {R : St → St → Prop} (hR : ReadFrame R) (env : Env) (k : KernelSource)

include hR

theorem devread_tame (sector log2 byteOffset byteLen : ℤ) :
    Tame R fun _ => ext2fsDevread env k sector log2 byteOffset byteLen :=
  Tame.reads hR (devread_reads env k sector log2 byteOffset byteLen)

theorem readStruct_tame (sector log2 byteOffset : ℤ) (n : ℕ) :
    Tame R fun _ => readStruct env k sector log2 byteOffset n := by
  unfold readStruct
  apply Tame.bind hR (Tame.get hR)
  intro s
  apply Tame.bind hR (devread_tame hR env k _ _ _ _)
  exact fun _ => Tame.ret hR _

theorem ext2fsReadInode_tame (node : Node) (ino : ℤ) :
    Tame R fun _ => ext2fsReadInode env k node ino := by
  unfold ext2fsReadInode ext2fsBlockgroup
  apply Tame.bind hR (Tame.get hR)
  intro s
  apply Tame.bind hR (readStruct_tame hR env k _ _ _ _)
  intro blkgrp
  cases blkgrp with
  | none => exact Tame.ret hR _
  | some blkgrp => exact readStruct_tame hR env k _ _ _ _

theorem allocTable_tame (blksz : ℤ) (lv : Level) :
    Tame R fun e => allocTable env e blksz lv := by
  unfold allocTable
  apply Tame.bind hR (Tame.get hR)
  intro s
  apply Tame.ite
  · apply Tame.bind hR (Tame.malloc hR _)
    intro _
    apply Tame.modify
    · intro s
      cases lv <;> rfl
    · exact fun s => hR.table s _ lv
  · exact Tame.ret hR _

theorem loadTable_tame (node : Node) (blkno : ℕ) (lv : Level) :
    Tame R fun e => loadTable env e k node blkno lv := by
  unfold loadTable
  apply Tame.bind hR (allocTable_tame hR env _ lv)
  intro _
  apply Tame.bind hR (Tame.get hR)
  intro s
  apply Tame.ite
  · apply Tame.bind hR (devread_tame hR env k _ _ _ _)
    rintro ⟨ok, ws⟩
    apply Tame.bind hR
    · apply Tame.modify
      · intro s
        cases lv <;> rfl
      · exact fun s => hR.table s _ lv
    · exact fun _ => Tame.ret hR _
  · exact Tame.ret hR _

theorem ext2fsReadBlock_tame (node : Node) (fileblock : ℤ) :
    Tame R fun e => ext2fsReadBlock env e k node fileblock := by
  unfold ext2fsReadBlock
  apply Tame.ite
  · apply Tame.bind hR (Tame.exitIf hR _ _)
    exact fun _ => Tame.ret hR _
  apply Tame.ite
  · apply Tame.bind hR (loadTable_tame hR env k _ _ _)
    intro table
    cases table <;> exact Tame.ret hR _
  apply Tame.ite
  · apply Tame.bind hR (loadTable_tame hR env k _ _ _)
    intro table
    cases table with
    | none => exact Tame.ret hR _
    | some table =>
      apply Tame.bind hR (loadTable_tame hR env k _ _ _)
      intro table
      cases table <;> exact Tame.ret hR _
  · exact Tame.ret hR _

/-! The loop of `ext2fs_read_file`. -/

variable {readBlock : ℕ → ℤ → Phase2 ℤ} {devread : ℤ → ℤ → ℤ → ℤ → Phase2 (Bool × List Write)}
  (hread : ∀ i, Tame R fun e => readBlock e i)
  (hdev : ∀ a b c d, Tame R fun _ => devread a b c d) (r : Ext2.Req)

include hdev

theorem spillDelayed_tame (v : Ext2.Vars) : Tame R fun _ => Ext2.spillDelayed devread v := by
  unfold Ext2.spillDelayed Ext2.spill
  apply Tame.ite
  · apply Tame.bind hR (hdev _ _ _ _)
    exact fun _ => Tame.ret hR _
  · exact Tame.ret hR _

include hread

theorem block_tame (i : ℤ) (v : Ext2.Vars) :
    Tame R fun e => Ext2.block (readBlock e) devread r i v := by
  unfold Ext2.block
  apply Tame.bind hR (hread i)
  intro blknr
  apply Tame.ite
  · exact Tame.ret hR _
  dsimp only
  apply Tame.ite
  · apply Tame.bind hR
    · unfold Ext2.dataBlock
      apply Tame.ite
      · exact Tame.ret hR _
      · apply Tame.bind hR (spillDelayed_tame hR hdev v)
        exact fun _ => Tame.ret hR _
    · exact fun _ => Tame.ret hR _
  · apply Tame.bind hR
    · unfold Ext2.holeBlock
      apply Tame.bind hR (spillDelayed_tame hR hdev v)
      exact fun _ => Tame.ret hR _
    · exact fun _ => Tame.ret hR _

theorem blocks_tame (n : ℕ) (i : ℤ) (v : Ext2.Vars) :
    Tame R fun e => Ext2.blocks (readBlock e) devread r n i v := by
  induction n generalizing i v with
  | zero => exact Tame.ret hR _
  | succ n ih =>
    unfold Ext2.blocks
    apply Tame.bind hR (block_tame hR hread hdev r i v)
    rintro ⟨ok, v⟩
    exact Tame.ite (ih _ _) (Tame.ret hR _)

theorem ext2ReadFile_tame : Tame R fun e => Ext2.readFile (readBlock e) devread r := by
  unfold Ext2.readFile
  apply Tame.bind hR (blocks_tame hR hread hdev r _ _ _)
  rintro ⟨ok, v⟩
  apply Tame.ite
  · apply Tame.bind hR (spillDelayed_tame hR hdev v)
    exact fun _ => Tame.ret hR _
  · exact Tame.ret hR _

end Ext2

section Files

variable {R : St → St → Prop} (hR : ReadFrame R) (env : Env) (k : KernelSource)

include hR

theorem ext2fsReadFile_tame (node : Node) (pos : ℤ) (len : ℕ) :
    Tame R fun e => ext2fsReadFile env e k node pos len :=
  ext2ReadFile_tame hR (ext2fsReadBlock_tame hR env k node) (devread_tame hR env k) _

theorem readObject_tame (node : Node) (pos : ℤ) (len n : ℕ) :
    Tame R fun e => readObject env e k node pos len n := by
  unfold readObject
  apply Tame.bind hR (Tame.get hR)
  intro s
  apply Tame.bind hR (ext2fsReadFile_tame hR env k _ _ _)
  rintro ⟨ret, ws⟩
  apply Tame.bind hR (Tame.exitIf hR _ _)
  exact fun _ => Tame.ret hR _

theorem readNode_tame (node : Node) : Tame R fun _ => readNode env k node := by
  unfold readNode
  apply Tame.ite
  · exact Tame.ret hR _
  · apply Tame.bind hR (ext2fsReadInode_tame hR env k _ _)
    exact fun _ => Tame.ret hR _

theorem entryNode_tame (dir : Node) (dirent : List Byte) :
    Tame R fun _ => entryNode env k dir dirent := by
  unfold entryNode
  apply Tame.bind hR (Tame.get hR)
  intro s
  apply Tame.ite
  · exact Tame.ret hR _
  · apply Tame.bind hR (ext2fsReadInode_tame hR env k _ _)
    exact fun _ => Tame.ret hR _

theorem iterate_tame (dir : Node) (name : List Byte) (fuel fpos : ℕ) :
    Tame R fun e => iterate env e k dir name fuel fpos := by
  induction fuel generalizing fpos with
  | zero => exact Tame.stuck
  | succ fuel ih =>
    unfold iterate
    apply Tame.ite
    · apply Tame.bind hR (readObject_tame hR env k _ _ _ _)
      rintro ⟨status, dirent⟩
      dsimp only
      apply Tame.ite
      · exact Tame.ret hR _
      apply Tame.ite
      · apply Tame.bind hR (readObject_tame hR env k _ _ _ _)
        rintro ⟨status, filename⟩
        apply Tame.ite
        · exact Tame.ret hR _
        · apply Tame.bind hR (Tame.malloc hR _)
          intro _
          apply Tame.bind hR (entryNode_tame hR env k _ _)
          intro found
          cases found with
          | none => exact Tame.ret hR _
          | some found => exact Tame.ite (Tame.ret hR _) (ih _)
      · exact ih _
    · exact Tame.ret hR _

theorem ext2fsIterateDir_tame (fuel : ℕ) (dir : Node) (name : List Byte) :
    Tame R fun e => ext2fsIterateDir env e k fuel dir name := by
  unfold ext2fsIterateDir
  apply Tame.bind hR (readNode_tame hR env k _)
  intro dir
  cases dir with
  | none => exact Tame.ret hR _
  | some dir => exact iterate_tame hR env k _ _ _ _

theorem ext2fsReadSymlink_tame (node : Node) :
    Tame R fun e => ext2fsReadSymlink env e k node := by
  unfold ext2fsReadSymlink
  apply Tame.bind hR (readNode_tame hR env k _)
  intro node
  cases node with
  | none => exact Tame.ret hR _
  | some node =>
    apply Tame.bind hR (Tame.malloc hR _)
    intro _
    apply Tame.ite
    · exact Tame.ret hR _
    · apply Tame.bind hR (Tame.exitIf hR _ _)
      intro _
      apply Tame.bind hR (readObject_tame hR env k _ _ _ _)
      exact fun _ => Tame.ret hR _

theorem ext2fsRead_tame (len : ℕ) : Tame R fun e => ext2fsRead env e k len := by
  unfold ext2fsRead
  apply Tame.bind hR (Tame.get hR)
  intro s
  rcases s.root with _ | root <;> rcases s.file with _ | file
  · exact Tame.ret hR _
  · exact Tame.ret hR _
  · exact Tame.ret hR _
  · exact ext2fsReadFile_tame hR env k _ _ _

end Files

section Paths

variable {R : St → St → Prop} (hR : OpenFrame R) (env : Env) (k : KernelSource)

include hR

theorem findNames_tame (fuel : ℕ) {follow : ℕ → List Byte → Node → Phase2 (Option (Node × Ftype))}
    (hfollow : ∀ path node, Tame R fun e => follow e path node) (names : List (List Byte))
    (node : Node) (type : Ftype) :
    Tame R fun e => findNames env e k fuel (follow e) names node type := by
  induction names generalizing node type with
  | nil => exact Tame.ret hR.toReadFrame _
  | cons name names ih =>
    unfold findNames
    apply Tame.ite
    · exact Tame.ret hR.toReadFrame _
    · apply Tame.bind hR.toReadFrame (ext2fsIterateDir_tame hR.toReadFrame env k _ _ _)
      rintro (_ | ⟨next, type⟩)
      · exact Tame.ret hR.toReadFrame _
      cases type with
      | symlink =>
        apply Tame.bind hR.toReadFrame
        · exact Tame.modify (fun _ => rfl) fun s => hR.nest s _
        intro _
        apply Tame.bind hR.toReadFrame (Tame.get hR.toReadFrame)
        intro s
        apply Tame.ite
        · exact Tame.ret hR.toReadFrame _
        · apply Tame.bind hR.toReadFrame (ext2fsReadSymlink_tame hR.toReadFrame env k _)
          rintro (_ | symlink)
          · exact Tame.ret hR.toReadFrame _
          · apply Tame.bind hR.toReadFrame (hfollow _ _)
            rintro (_ | ⟨next, type⟩)
            · exact Tame.ret hR.toReadFrame _
            · exact ih _ _
      | unknown => exact ih _ _
      | reg => exact ih _ _
      | directory => exact ih _ _

theorem ext2fsFindFile1_tame (fuel depth : ℕ) (path : List Byte) (currroot : Node)
    (foundtype : Ftype) :
    Tame R fun e => ext2fsFindFile1 env e k fuel depth path currroot foundtype := by
  induction depth generalizing path currroot foundtype with
  | zero => exact Tame.stuck
  | succ depth ih =>
    unfold ext2fsFindFile1
    apply Tame.ite
    · exact Tame.ret hR.toReadFrame _
    · exact findNames_tame hR env k fuel (fun path node => ih path node .symlink) _ _ _

theorem ext2fsFindFile_tame (fuel : ℕ) (path : Option (List Byte)) (root : Node) :
    Tame R fun e => ext2fsFindFile env e k fuel path root := by
  unfold ext2fsFindFile
  apply Tame.bind hR.toReadFrame
  · exact Tame.modify (fun _ => rfl) fun s => hR.nest s 0
  intro _
  cases path with
  | none => exact Tame.ret hR.toReadFrame _
  | some path =>
    apply Tame.bind hR.toReadFrame (ext2fsFindFile1_tame hR env k _ _ _ _ _)
    rintro (_ | ⟨node, type⟩)
    · exact Tame.ret hR.toReadFrame _
    · cases type <;> exact Tame.ret hR.toReadFrame _

theorem ext2fsOpen_tame (fuel : ℕ) (filename : Option (List Byte)) :
    Tame R fun e => ext2fsOpen env e k fuel filename := by
  unfold ext2fsOpen
  apply Tame.bind hR.toReadFrame (Tame.get hR.toReadFrame)
  intro s
  rcases s.root with _ | root
  · exact Tame.ret hR.toReadFrame _
  apply Tame.bind hR.toReadFrame
  · exact Tame.modify (fun _ => rfl) fun s => hR.file s none
  intro _
  apply Tame.bind hR.toReadFrame (ext2fsFindFile_tame hR env k _ _ _)
  rintro (_ | node)
  · exact Tame.ret hR.toReadFrame _
  apply Tame.bind hR.toReadFrame (readNode_tame hR.toReadFrame env k _)
  rintro (_ | node)
  · exact Tame.ret hR.toReadFrame _
  apply Tame.bind hR.toReadFrame
  · exact Tame.modify (fun _ => rfl) fun s => hR.file s (some node)
  exact fun _ => Tame.ret hR.toReadFrame _

end Paths

section Mount

variable {R : St → St → Prop} (hR : Ext2Frame R) (env : Env) (k : KernelSource)

include hR

theorem ext2fsMount_tame : Tame R fun e => ext2fsMount env e k := by
  have hfail : Tame R fun _ => ((Prog.modify fun s => { s with root := none }) >>= fun _ =>
      pure false : Phase2 Bool) := by
    apply Tame.bind hR.toReadFrame
    · exact Tame.modify (fun _ => rfl) fun s => hR.root s none
    · exact fun _ => Tame.ret hR.toReadFrame _
  unfold ext2fsMount
  apply Tame.bind hR.toReadFrame (Tame.malloc hR.toReadFrame _)
  intro _
  apply Tame.bind hR.toReadFrame (readStruct_tame hR.toReadFrame env k _ _ _ _)
  rintro (_ | sblock)
  · exact hfail
  apply Tame.ite
  · exact hfail
  apply Tame.bind hR.toReadFrame
  · exact Tame.modify (fun _ => rfl) fun s => hR.inodeSize s _
  intro _
  apply Tame.bind hR.toReadFrame (ext2fsReadInode_tame hR.toReadFrame env k _ _)
  rintro (_ | inode)
  · exact hfail
  apply Tame.bind hR.toReadFrame
  · exact Tame.modify (fun _ => rfl) fun s => hR.root s _
  exact fun _ => Tame.ret hR.toReadFrame _

end Mount

/-! ## The boot loop -/

/-- A relation that the work on one kernel source keeps. -/
structure BootFrame (R : St → St → Prop) : Prop extends Ext2Frame R where
  ram : ∀ s m, R s { s with ram := m }
  append : ∀ s bs, R s { s with commandlineRootfsAppend := bs }
  blockInit : ∀ s n i r,
    R s { s with inits := n, lastBlockInit := i, lastBlockInitResult := r }
  offset : ∀ s n, R s { s with partitionOffsetBlocks := n }
  partition : ∀ s n m, R s { s with partitionOffsetBlocks := n, partitionLengthBlocks := m }

section Boot

variable {R : St → St → Prop} (hB : BootFrame R) (env : Env) (k : KernelSource) (fuel : ℕ)

include hB

theorem deliver_tame (dest : Dest) (ws : List Write) : Tame R fun _ => deliver dest ws := by
  have hR := hB.toReadFrame
  cases dest with
  | ram addr => exact Tame.modify (fun _ => rfl) fun s => hB.ram s _
  | append =>
    apply Tame.bind hR (Tame.exitIf hR _ _)
    intro _
    exact Tame.modify (fun _ => rfl) fun s => hB.append s _

theorem blockRead_tame (start blocks : ℕ) : Tame R fun _ => blockRead env k start blocks :=
  Tame.reads hB.toReadFrame (blockRead_reads env k start blocks)

theorem readFile_tame (filepath : Option (List Byte)) (dest : Dest) (size : ℤ) :
    Tame R fun e => readFile env e fuel k filepath dest size := by
  have hR := hB.toReadFrame
  unfold readFile
  apply Tame.ite
  · apply Tame.bind hR (ext2fsMount_tame hB.toExt2Frame env k)
    intro mounted
    apply Tame.ite
    · apply Tame.bind hR (ext2fsOpen_tame hB.toOpenFrame env k _ _)
      intro len
      apply Tame.ite
      · exact Tame.ret hR _
      · apply Tame.bind hR (ext2fsRead_tame hB.toReadFrame env k _)
        rintro ⟨ret, ws⟩
        apply Tame.bind hR (deliver_tame hB dest ws)
        exact fun _ => Tame.ret hR _
    · exact Tame.ret hR _
  apply Tame.ite
  · exact Tame.ret hR _
  · apply Tame.bind hR (Tame.exitIf hR _ _)
    intro _
    apply Tame.bind hR (Tame.get hR)
    intro s
    apply Tame.bind hR (blockRead_tame hB env k _ _)
    rintro ⟨ret, bytes⟩
    apply Tame.bind hR (deliver_tame hB dest _)
    exact fun _ => Tame.ret hR _

theorem doBlockInit_tame : Tame R fun _ => doBlockInit env k := by
  have hR := hB.toReadFrame
  unfold doBlockInit
  rcases k.blockInit with _ | init
  · exact Tame.ret hR _
  · apply Tame.bind hR (Tame.get hR)
    intro s
    apply Tame.bind hR
    · unfold Prog.doIf
      apply Tame.ite
      · exact Tame.modify (fun _ => rfl) fun s => hB.blockInit s _ _ _
      · exact Tame.ret hR _
    intro _
    apply Tame.bind hR (Tame.get hR)
    exact fun _ => Tame.ret hR _

theorem doPartitions_tame : Tame R fun _ => doPartitions env k := by
  have hR := hB.toReadFrame
  unfold doPartitions
  apply Tame.ite
  · apply Tame.bind hR
    · exact Tame.modify (fun _ => rfl) fun s => hB.offset s _
    exact fun _ => Tame.ret hR _
  · apply Tame.bind hR (blockRead_tame hB env k _ _)
    rintro ⟨ret, bytes⟩
    apply Tame.bind hR (deliver_tame hB _ _)
    intro _
    apply Tame.bind hR (Tame.get hR)
    intro s
    apply Tame.ite
    · exact Tame.ret hR _
    apply Tame.ite
    · exact Tame.ret hR _
    apply Tame.bind hR
    · exact Tame.modify (fun _ => rfl) fun s => hB.partition s _ _
    exact fun _ => Tame.ret hR _

theorem loadUimage_tame : Tame R fun e => loadUimage env e fuel k := by
  have hR := hB.toReadFrame
  unfold loadUimage
  apply Tame.bind hR (Tame.get hR)
  intro s
  dsimp only
  apply Tame.ite
  · exact Tame.ret hR _
  apply Tame.bind hR (readFile_tame hB env k fuel _ _ _)
  intro got
  apply Tame.ite
  · exact Tame.ret hR _
  · apply Tame.bind hR (Tame.get hR)
    exact fun _ => Tame.ret hR _

theorem loadZimage_tame : Tame R fun e => loadZimage env e fuel k := by
  have hR := hB.toReadFrame
  unfold loadZimage
  apply Tame.bind hR (Tame.get hR)
  intro s
  dsimp only
  apply Tame.ite
  · exact Tame.ret hR _
  · apply Tame.bind hR (readFile_tame hB env k fuel _ _ _)
    exact fun _ => Tame.ret hR _

theorem loadKernel_tame : Tame R fun e => loadKernel env e fuel k := by
  have hR := hB.toReadFrame
  unfold loadKernel
  apply Tame.bind hR (readFile_tame hB env k fuel _ _ _)
  intro got
  apply Tame.ite
  · exact Tame.ret hR _
  · apply Tame.bind hR (loadUimage_tame hB env k fuel)
    rintro (_ | entry)
    · exact loadZimage_tame hB env k fuel
    · exact Tame.ret hR _

theorem loadInitramfs_tame : Tame R fun e => loadInitramfs env e fuel k := by
  have hR := hB.toReadFrame
  unfold loadInitramfs
  apply Tame.ite
  · exact Tame.ret hR _
  · apply Tame.bind hR (readFile_tame hB env k fuel _ _ _)
    exact fun _ => Tame.ret hR _

theorem startKernel_tame (entry initramfsLen : ℕ) :
    Tame R fun _ => startKernel env k entry initramfsLen := by
  have hR := hB.toReadFrame
  unfold startKernel
  apply Tame.bind hR (Tame.get hR)
  intro s
  dsimp only
  apply Tame.bind hR (Tame.exitIf hR _ _)
  intro _
  apply Tame.bind hR
  · exact Tame.modify (fun _ => rfl) fun s => hB.ram s _
  exact fun _ => Tame.exit hR _

theorem tryPartition_tame : Tame R fun e => tryPartition env e fuel k := by
  have hR := hB.toReadFrame
  unfold tryPartition
  apply Tame.bind hR (readFile_tame hB env k fuel _ _ _)
  intro ret
  apply Tame.ite
  · exact Tame.ret hR _
  · apply Tame.bind hR
    · exact Tame.modify (fun _ => rfl) fun s => hB.append s _
    intro _
    apply Tame.bind hR (readFile_tame hB env k fuel _ _ _)
    intro _
    apply Tame.bind hR (loadKernel_tame hB env k fuel)
    rintro (_ | entry)
    · exact Tame.ret hR _
    · apply Tame.bind hR (loadInitramfs_tame hB env k fuel)
      exact fun _ => startKernel_tame hB env k _ _

/-- `try_this_kernel` behind its first message. -/
theorem tryBlockInit_tame :
    Tame R fun e => (doBlockInit env k >>= fun initialised =>
      if initialised then doPartitions env k >>= fun found =>
        if found then tryPartition env e fuel k else pure ()
      else pure ()) := by
  have hR := hB.toReadFrame
  apply Tame.bind hR (doBlockInit_tame hB env k)
  intro initialised
  apply Tame.ite
  · apply Tame.bind hR (doPartitions_tame hB env k)
    intro found
    exact Tame.ite (tryPartition_tame hB env k fuel) (Tame.ret hR _)
  · exact Tame.ret hR _

end Boot

/-! ## Whole runs -/

/-- The kernel sources a log names. -/
def tried (log : List Msg) : List String :=
  log.filterMap fun
    | .tryingKernel name => some name
    | .skipping => none

theorem tried_append (log log' : List Msg) : tried (log ++ log') = tried log ++ tried log' :=
  List.filterMap_append

theorem tried_skipping (n : ℕ) : tried (List.replicate n .skipping) = [] := by
  rw [tried, List.filterMap_eq_nil_iff]
  intro msg hmsg
  rw [List.eq_of_mem_replicate hmsg]

/-- Nothing is printed but messages of skipped reads. -/
theorem triedFrame : BootFrame fun s s' => tried s'.log = tried s.log where
  refl _ := rfl
  trans _ _ _ h h' := h'.trans h
  reads s s' h := by
    obtain ⟨n, hn⟩ := h.log
    rw [hn, tried_append, tried_skipping, List.append_nil]
  pool _ _ := rfl
  table _ _ lv := by cases lv <;> rfl
  nest _ _ := rfl
  file _ _ := rfl
  root _ _ := rfl
  inodeSize _ _ := rfl
  ram _ _ := rfl
  append _ _ := rfl
  blockInit _ _ _ _ := rfl
  offset _ _ := rfl
  partition _ _ _ := rfl

section Runs

variable {env : Env} {extent fuel : ℕ} {s s' : St}

theorem tryThisKernel_tried {k : KernelSource} {r : Except Exit Unit}
    (hrun : tryThisKernel env extent fuel k s = some (r, s')) :
    tried s'.log = tried s.log ++ [k.name] := by
  unfold tryThisKernel at hrun
  rw [Prog.modify_bind] at hrun
  rw [(tryBlockInit_tame triedFrame env k fuel).steps extent _ _ _ hrun, tried_append]
  rfl

/-- The sources are tried in order, and all of them unless the run exits. -/
theorem trySources_tried {ks : List KernelSource} {r : Except Exit Unit}
    (hrun : trySources env extent fuel ks s = some (r, s')) :
    ∃ done, done <+: ks ∧ tried s'.log = tried s.log ++ done.map KernelSource.name ∧
      (r = .ok () → done = ks) := by
  induction ks generalizing s with
  | nil =>
    cases hrun
    exact ⟨[], List.nil_prefix, (List.append_nil _).symm, fun _ => rfl⟩
  | cons k ks ih =>
    unfold trySources at hrun
    rcases Prog.bind_eq_some.mp hrun with ⟨b, hb, rfl⟩ | ⟨_, s1, hone, hrest⟩
    · refine ⟨[k], ⟨ks, rfl⟩, tryThisKernel_tried hb, fun hok => by cases hok⟩
    · obtain ⟨done, hdone, htried, hall⟩ := ih hrest
      refine ⟨k :: done, List.prefix_cons_inj k |>.mpr hdone, ?_, fun hok => by rw [hall hok]⟩
      rw [htried, tryThisKernel_tried hone, List.map_cons, List.append_assoc]
      rfl

end Runs

end SmartQ.Qi
