import Mathlib.Data.List.TakeWhile
import SmartQ.Lib.Walk
import SmartQ.Qi.Contents

/-!
# The walk over a directory

`ext2fs_iterate_dir` goes from record to record of a directory as the records say, and
takes memory for each record that has a name.

* `iterate_step`: one round of the loop.
* `iterateDir_meets_iff`: when the walk ends and delivers the live entry of the name.
-/

namespace SmartQ.Qi

open SmartQ.Lib

/-! ## Records -/

/-- The node without an inode that has not been read. -/
def Node.bare (node : Node) : Node := if node.inodeRead then node else { node with inode := [] }

theorem Node.bare_read (sblock : List Byte) (ino : ℤ) (inode : List Byte) :
    (Node.mk sblock ino inode true).bare = ⟨sblock, ino, inode, true⟩ := rfl

theorem Node.bare_unread (sblock : List Byte) (ino : ℤ) (inode : List Byte) :
    (Node.mk sblock ino inode false).bare = ⟨sblock, ino, [], false⟩ := rfl

theorem Node.bare_ino (node : Node) : node.bare.ino = node.ino := by
  unfold Node.bare
  split_ifs <;> rfl

namespace Volume

variable (v : Volume) (dir : Node) (l p : ℕ)

/-- The record header at byte `p` of a directory, `struct ext2_dirent`. -/
def dirent : List Byte := v.bytes dir l p direntSize

/-- `dirent.inode`, the number of the inode that the record stands for, as an `int`. -/
def direntIno : ℤ := int32 (u32At (v.dirent dir l p) 0)

/-- `dirent.direntlen`, how far the next record is away; the code does not check it. -/
def direntLen : ℕ := u16At (v.dirent dir l p) 4

/-- `dirent.namelen`, with 0 for a record that is passed over. -/
def nameLen : ℕ := (byteAt (v.dirent dir l p) 6).toNat

/-- The bytes of the name behind the header of the record at `p`. -/
def nameBytes : List Byte := v.bytes dir l (p + direntSize) (v.nameLen dir l p)

/-- What the record stands for: an inode number and a type. The type of a record without
    one is in the inode; `none` if that cannot be read. -/
def direntEntry : Option (ℤ × Ftype) :=
  if byteAt (v.dirent dir l p) 7 ≠ 0 then
    some (v.direntIno dir l p, Ftype.ofDirent (byteAt (v.dirent dir l p) 7))
  else (v.inode dir (v.direntIno dir l p)).map fun inode =>
    (v.direntIno dir l p, Ftype.ofInode inode)

/-- The node and the type of the record, as `entryNode` makes them. -/
def entryAt : Option (Node × Ftype) :=
  if byteAt (v.dirent dir l p) 7 ≠ 0 then
    some (⟨dir.sblock, v.direntIno dir l p, [], false⟩,
      Ftype.ofDirent (byteAt (v.dirent dir l p) 7))
  else (v.inode dir (v.direntIno dir l p)).map fun inode =>
    (⟨dir.sblock, v.direntIno dir l p, inode, true⟩, Ftype.ofInode inode)

theorem direntEntry_eq :
    v.direntEntry dir l p = (v.entryAt dir l p).map fun f => (f.1.ino, f.2) := by
  unfold direntEntry entryAt
  generalize v.direntIno dir l p = ino
  generalize byteAt (v.dirent dir l p) 7 = type
  by_cases htype : type ≠ 0
  · rw [if_pos htype, if_pos htype]
    rfl
  · rw [if_neg htype, if_neg htype, Option.map_map]
    rfl

variable {v dir l p} in
theorem entryAt_none : v.entryAt dir l p = none ↔ v.direntEntry dir l p = none := by
  rw [direntEntry_eq, Option.map_eq_none_iff]

/-- The record is the one the scan for `name` ends at. -/
def StopsAt (name : List Byte) : Prop :=
  v.nameLen dir l p ≠ 0 ∧
    (v.direntEntry dir l p = none ∨ cstr (v.nameBytes dir l p) = name)

instance (name : List Byte) : Decidable (v.StopsAt dir l p name) := by
  unfold StopsAt
  infer_instance

/-- The walk over the records of a directory, for an entry called `name`. -/
def scan (name : List Byte) : Walk ℕ where
  start := 0
  next p := add32 p (v.direntLen dir l p)
  stop p := dir.size ≤ p ∨ v.StopsAt dir l p name

/-- The header and the name at `p` can be read: their numbers do not wrap, and no zero
    filling goes on behind the objects they are read into. -/
def DirentFits : Prop :=
  p < 2 ^ 31 ∧ v.Fits dir l p direntSize direntSize ∧
    (v.nameLen dir l p ≠ 0 → p + direntSize < 2 ^ 31 ∧
      v.Fits dir l (p + direntSize) (v.nameLen dir l p) 256)

/-- The last block that the record at `p` is read from. -/
def direntBlock : ℕ := (p + direntSize + v.nameLen dir l p - 1) / (512 * 2 ^ l)

/-- What the record takes from the pool. -/
def direntNode : ℕ := if v.nameLen dir l p = 0 then 0 else nodeSize + 4

/-- Where record `n` is: each one is found by the length of the one before it. -/
def record : ℕ → ℕ
  | 0 => 0
  | n + 1 => add32 (record n) (v.direntLen dir l (record n))

/-- The last block that the first `n` records are read from. -/
def scanBlock : ℕ → ℕ
  | 0 => 0
  | n + 1 => max (scanBlock n) (v.direntBlock dir l (v.record dir l n))

/-- What the first `n` records take from the pool. -/
def scanNodes : ℕ → ℕ
  | 0 => 0
  | n + 1 => scanNodes n + v.direntNode dir l (v.record dir l n)

end Volume

/-! ## One round of the loop -/

section Round

variable {env : Env} {extent : ℕ} {k : KernelSource} {dir : Node} {l : ℕ} {name : List Byte}
  {s : St}

/-- A directory of whole blocks, which can be read together with the block behind its
    end, in the state `s`. -/
structure DirectoryOn (env : Env) (extent : ℕ) (k : KernelSource) (dir : Node) (l : ℕ) (s : St) :
    Prop where
  file : FileOn env k dir l (dir.size / (512 * 2 ^ l) + 1) s
  whole : 512 * 2 ^ l ∣ dir.size
  pool : s.pool ≤ extent
  extent_le : extent ≤ 2 ^ 31

theorem blockBytes_le (hl : l ≤ 7) : 512 * 2 ^ l ≤ 2 ^ 16 := by
  have hpow : 2 ^ l ≤ 2 ^ 7 := Nat.pow_le_pow_right (by norm_num) hl
  omega

theorem le_blockBytes (hl : 1 ≤ l) : 2 ^ 10 ≤ 512 * 2 ^ l := by
  have hpow : 2 ^ 1 ≤ 2 ^ l := Nat.pow_le_pow_right (by norm_num) hl
  omega

/-- The bytes of a record and of its name. -/
theorem DirectoryOn.part (h : DirectoryOn env extent k dir l s) {p q n : ℕ} (hp : p < dir.size)
    (hq : q < 2 ^ 31) (hpos : 0 < n) (hn : n ≤ 255) (hend : q + n ≤ p + 263) :
    dir.Part l (dir.size / (512 * 2 ^ l) + 1) q n := by
  have hle := blockBytes_le h.file.sizes.le
  have hge := le_blockBytes h.file.sizes.one_le
  obtain ⟨nb, hnb⟩ := h.whole
  have hnbpos : 0 < nb := by
    apply Nat.pos_of_ne_zero
    rintro rfl
    omega
  have hsize : 512 * 2 ^ l ≤ dir.size := by
    rw [hnb]
    exact Nat.le_mul_of_pos_right _ hnbpos
  have hdiv : (dir.size / (512 * 2 ^ l) + 1) * (512 * 2 ^ l) = dir.size + 512 * 2 ^ l := by
    rw [Nat.succ_mul, Nat.div_mul_cancel h.whole]
  refine ⟨hpos, by omega, hq, by omega, by omega, ?_⟩
  rw [hdiv]
  omega

theorem list_eq_bytes {v : Volume} {p n : ℕ} {obj : List Byte} (hlen : obj.length = n)
    (h : ∀ x < n, byteAt obj x = v.byte dir l (p + x)) : obj = v.bytes dir l p n := by
  apply List.ext_getElem
  · rw [hlen, Volume.length_bytes]
  · intro x hx hx'
    have hbyte := h x (by omega)
    rw [byteAt_of_lt hx] at hbyte
    rw [hbyte]
    simp [Volume.bytes]

/-- Reading the header of a record. -/
theorem readDirent_eq (h : DirectoryOn env extent k dir l s) {p j c : ℕ} {s1 : St}
    (hadv : Advances env k l (Needs (512 * 2 ^ l) j) c s s1)
    (hp : p < dir.size) (hp31 : p < 2 ^ 31)
    (hroom : s.pool + c + tables l (max j ((p + direntSize - 1) / (512 * 2 ^ l))) s ≤ extent)
    (hfits : (s.volume env k).Fits dir l p direntSize direntSize) :
    ∃ s2, readObject env extent k dir (int32 p) direntSize direntSize s1 =
        some (.ok ((direntSize : ℤ), (s.volume env k).dirent dir l p), s2) ∧
      Advances env k l (Needs (512 * 2 ^ l) (max j ((p + direntSize - 1) / (512 * 2 ^ l)))) c
        s s2 := by
  have hpart := h.part (n := direntSize) hp hp31 (by decide) (by decide)
    (by unfold direntSize; omega)
  obtain ⟨obj, s2, hrun, hadv2, hlen, hbytes⟩ :=
    readObject_after h.file hadv hpart (le_refl _) h.extent_le hroom hfits
  rw [int32_natCast hp31]
  rw [list_eq_bytes hlen hbytes] at hrun
  exact ⟨s2, hrun, hadv2⟩

/-- Reading the name of a record. -/
theorem readName_eq (h : DirectoryOn env extent k dir l s) {p j c n : ℕ} {s1 : St}
    (hadv : Advances env k l (Needs (512 * 2 ^ l) j) c s s1)
    (hp : p < dir.size) (hp31 : p + direntSize < 2 ^ 31) (hpos : 0 < n) (hn : n ≤ 255)
    (hroom : s.pool + c + tables l (max j ((p + direntSize + n - 1) / (512 * 2 ^ l))) s ≤ extent)
    (hfits : (s.volume env k).Fits dir l (p + direntSize) n 256) :
    ∃ filename s2, readObject env extent k dir (int32 (add32 p direntSize : ℕ)) n 256 s1 =
        some (.ok ((n : ℤ), filename), s2) ∧
      filename.take n = (s.volume env k).bytes dir l (p + direntSize) n ∧
      Advances env k l (Needs (512 * 2 ^ l)
        (max j ((p + direntSize + n - 1) / (512 * 2 ^ l)))) c s s2 := by
  have hpart := h.part (n := n) hp hp31 hpos hn (by unfold direntSize; omega)
  obtain ⟨obj, s2, hrun, hadv2, hlen, hbytes⟩ :=
    readObject_after h.file hadv hpart (by omega) h.extent_le hroom hfits
  have hpos : int32 (add32 p direntSize : ℕ) = (p + direntSize : ℕ) := by
    rw [add32_of_lt (by omega), int32_natCast hp31]
  rw [hpos]
  refine ⟨obj, s2, hrun, list_eq_bytes (by rw [List.length_take]; omega) fun x hx => ?_, hadv2⟩
  rw [← hbytes x hx, byteAt_of_lt (by rw [List.length_take]; omega), byteAt_of_lt (by omega),
    List.getElem_take]

/-- The inode of a record without a type is read. -/
theorem entryNode_done (hdone : ∀ n, env.outcome n = .done) (dir : Node) (l p : ℕ) (s1 : St)
    (hvol : s1.volume env k = s.volume env k) :
    ∃ found s2, entryNode env k dir ((s.volume env k).dirent dir l p) s1 = some (.ok found, s2) ∧
      Reads s1 s2 ∧ Got env (found.map fun f => (f.1.bare, f.2))
        ((s.volume env k).entryAt dir l p) := by
  unfold entryNode
  rw [Prog.get_bind]
  unfold Volume.entryAt Volume.direntIno
  generalize int32 (u32At ((s.volume env k).dirent dir l p) 0 : ℕ) = ino
  generalize byteAt ((s.volume env k).dirent dir l p) 7 = type
  by_cases htype : type ≠ 0
  · rw [if_pos htype, if_pos htype]
    refine ⟨_, s1, Prog.pure_apply _ _, Reads.refl s1, ?_⟩
    rw [Option.map_some, Node.bare_unread]
    exact .inl rfl
  · rw [if_neg htype, if_neg htype]
    obtain ⟨inode, s2, hrun, hreads, hgot⟩ := readInode_done hdone k s1 dir ino
    rw [hvol] at hgot
    refine ⟨_, s2, (Prog.bind_ok hrun).trans (Prog.pure_apply _ _), hreads, ?_⟩
    rw [Option.map_map]
    simp only [Function.comp_def, Node.bare_read]
    exact hgot.map _

/-- Behind the largest `int` the read starts before the first block of the file. -/
theorem readObject_far (env : Env) (extent : ℕ) (k : KernelSource)
    (hnode : dir.Blocks l) {p n : ℕ} (hp : 2 ^ 31 ≤ p) (hp' : p < 2 ^ 31 + 2 ^ 17)
    (hn : n ≤ 255) (hsize : n ≤ dir.size) (m : ℕ) (s1 : St) :
    readObject env extent k dir (int32 p) n m s1 = some (.error .corrupt, s1) := by
  have hpos : int32 p = (p : ℤ) - 2 ^ 32 := by
    unfold int32
    omega
  have hle := blockBytes_le hnode.le
  have hge := le_blockBytes hnode.one_le
  have hfit : (request dir 0 0).Fits l (512 * 2 ^ l) 0 := by
    have hl := hnode.le
    refine ⟨?_, hnode.one_le, by omega, rfl, rfl, by norm_num, ?_⟩
    · simp only [request]
      exact hnode.log2
    · rw [request_len (Nat.zero_le _)]
      omega
  have hbs : (request dir (int32 p) n).blocksize = (512 * 2 ^ l : ℕ) := by
    rw [← hfit.blocksize_eq]
    simp only [Ext2.Req.blocksize, request]
  have hlen : (request dir (int32 p) n).len = n := request_len hsize
  have hreqpos : (request dir (int32 p) n).pos = (p : ℤ) - 2 ^ 32 := by
    rw [← hpos]
    simp only [request]
  have htotal : (request dir (int32 p) n).total = p + n := by
    unfold Ext2.Req.total add32 toU32
    rw [hlen, hreqpos]
    omega
  -- The first block is negative and the number of blocks is not.
  obtain ⟨b, hfirst⟩ : ∃ b : ℕ, (request dir (int32 p) n).first = -((b : ℤ) + 1) := by
    have hneg : (p : ℤ) - 2 ^ 32 = -((2 ^ 32 - p : ℕ) : ℤ) := by omega
    have hone : 1 ≤ (2 ^ 32 - p) / (512 * 2 ^ l) := by
      rw [Nat.le_div_iff_mul_le (by omega)]
      omega
    have hdiv : (2 ^ 32 - p) / (512 * 2 ^ l) ≤ 2 ^ 31 := (Nat.div_le_self _ _).trans (by omega)
    have hcast : (-((2 ^ 32 - p : ℕ) : ℤ)).tdiv (512 * 2 ^ l : ℕ) =
        -(((2 ^ 32 - p) / (512 * 2 ^ l) : ℕ) : ℤ) := by
      rw [Int.neg_tdiv]
      rfl
    refine ⟨(2 ^ 32 - p) / (512 * 2 ^ l) - 1, ?_⟩
    rw [Ext2.Req.first, hreqpos, hbs, cdiv, hneg, hcast, int32_of_range (by omega) (by omega)]
    omega
  obtain ⟨q, hcnt⟩ : ∃ q : ℕ, (request dir (int32 p) n).blockcnt = q := by
    have hpred : ((512 * 2 ^ l : ℕ) : ℤ) - 1 = (512 * 2 ^ l - 1 : ℕ) := by omega
    have hdiv : (p + n + (512 * 2 ^ l - 1)) / (512 * 2 ^ l) < 2 ^ 31 := by
      rw [Nat.div_lt_iff_lt_mul (by omega)]
      omega
    refine ⟨(p + n + (512 * 2 ^ l - 1)) / (512 * 2 ^ l), ?_⟩
    rw [Ext2.Req.blockcnt, htotal, hbs, hpred, toU32_natCast (by omega), toU32_natCast (by omega),
      add32_of_lt (by omega), int32_natCast hdiv]
  have hround : ((q : ℤ) - -((b : ℤ) + 1)).toNat = q + b + 1 := by omega
  have hread : ext2fsReadBlock env extent k dir (-((b : ℤ) + 1)) s1 = some (.error .corrupt, s1) := by
    unfold ext2fsReadBlock
    dsimp only
    rw [if_pos (by omega), Prog.exitIf_of (by omega)]
  have hfile : ext2fsReadFile env extent k dir (int32 p) n s1 = some (.error .corrupt, s1) := by
    unfold ext2fsReadFile Ext2.readFile
    rw [hcnt, hfirst, hround]
    refine Prog.bind_error ?_
    unfold Ext2.blocks Ext2.block
    exact Prog.bind_error (Prog.bind_error hread)
  unfold readObject
  rw [Prog.get_bind]
  exact Prog.bind_error hfile

/-- The walk goes on behind a record, or stops there with `found`. -/
def after (env : Env) (extent : ℕ) (k : KernelSource) (dir : Node) (name filename : List Byte)
    (next fuel : ℕ) : Option (Node × Ftype) → Phase2 (Option (Node × Ftype))
  | none => pure none
  | some found =>
    if filename = name then pure (some found) else iterate env extent k dir name fuel next

/-- The part of a round at `p` that looks at the name. -/
def nameRound (env : Env) (extent : ℕ) (k : KernelSource) (dir : Node) (name dirent : List Byte)
    (p namelen next fuel : ℕ) : Phase2 (Option (Node × Ftype)) := do
  let (status, filename) ← readObject env extent k dir (int32 (add32 p direntSize : ℕ)) namelen 256
  if status < 1 then pure none else do
    malloc extent nodeSize
    let found ← entryNode env k dir dirent
    after env extent k dir name (cstr (filename.take namelen)) next fuel found

/-- A round at `p`, once the header is read. -/
theorem iterate_of_dirent {p : ℕ} {s1 s2 : St} {dirent : List Byte} (hp : p < dir.size)
    (hrun : readObject env extent k dir (int32 p) direntSize direntSize s1 =
      some (.ok ((direntSize : ℤ), dirent), s2)) (fuel : ℕ) :
    iterate env extent k dir name (fuel + 1) p s1 =
      (if (byteAt dirent 6).toNat ≠ 0 then
        nameRound env extent k dir name dirent p (byteAt dirent 6).toNat
          (add32 p (u16At dirent 4)) fuel
      else iterate env extent k dir name fuel (add32 p (u16At dirent 4))) s2 := by
  have hstatus : ¬ ((direntSize : ℕ) : ℤ) < 1 := by decide
  conv_lhs => unfold iterate
  rw [if_pos hp, Prog.bind_ok hrun]
  apply congrFun
  dsimp only
  rw [if_neg hstatus]
  refine if_congr Iff.rfl ?_ rfl
  unfold nameRound
  refine bind_congr fun got => ?_
  dsimp only
  refine if_congr Iff.rfl rfl ?_
  refine bind_congr fun _ => bind_congr fun found => ?_
  cases found <;> rfl

/-- Before the name at `p` is read. -/
structure AtName (env : Env) (extent : ℕ) (k : KernelSource) (dir : Node) (l : ℕ) (s : St)
    (p j c : ℕ) (s2 : St) : Prop where
  advances : Advances env k l
    (Needs (512 * 2 ^ l) (max j ((p + direntSize - 1) / (512 * 2 ^ l)))) c s s2
  pool : s2.pool ≤ extent
  lt : p < dir.size
  named : (s.volume env k).nameLen dir l p ≠ 0

theorem direntBlock_max (v : Volume) (p j : ℕ) :
    max (max j ((p + direntSize - 1) / (512 * 2 ^ l))) (v.direntBlock dir l p) =
      max j (v.direntBlock dir l p) := by
  have hblock : (p + direntSize - 1) / (512 * 2 ^ l) ≤ v.direntBlock dir l p :=
    Nat.div_le_div_right (by omega)
  rw [max_assoc, max_eq_right hblock]

theorem malloc_node {c j : ℕ} {s3 : St} (h : DirectoryOn env extent k dir l s)
    (hadv : Advances env k l (Needs (512 * 2 ^ l) j) c s s3) (hpool : s3.pool ≤ extent) :
    (s.pool + (c + (nodeSize + 4)) + tables l j s ≤ extent →
      malloc extent nodeSize s3 = some (.ok (), { s3 with pool := s3.pool + (nodeSize + 4) })) ∧
    (¬ s.pool + (c + (nodeSize + 4)) + tables l j s ≤ extent → malloc extent nodeSize s3 =
      some (.error .outOfPool, { s3 with pool := s3.pool + (nodeSize + 4) })) := by
  have hused := hadv.pool_eq
  have hextent := h.extent_le
  have hafter : poolAfter s3.pool nodeSize = s3.pool + (nodeSize + 4) := rfl
  have hlt : s3.pool + (nodeSize + 4) < 2 ^ 32 := by
    unfold nodeSize
    omega
  rw [malloc_apply, hafter, Nat.mod_eq_of_lt hlt]
  constructor
  · intro hroom
    rw [if_neg (by omega), if_neg (by omega)]
  · intro hroom
    rw [if_pos (by omega)]

/-- The name is read, and the walk goes on or stops. -/
theorem nameRound_eq (name : List Byte) (h : DirectoryOn env extent k dir l s) {p j c : ℕ} {s2 : St}
    (hat : AtName env extent k dir l s p j c s2) (hp31 : p + direntSize < 2 ^ 31)
    (hfits : (s.volume env k).Fits dir l (p + direntSize) ((s.volume env k).nameLen dir l p) 256)
    (hroom : s.pool + (c + (nodeSize + 4)) +
      tables l (max j ((s.volume env k).direntBlock dir l p)) s ≤ extent) :
    ∃ found s3, (∀ next fuel, nameRound env extent k dir name ((s.volume env k).dirent dir l p) p
        ((s.volume env k).nameLen dir l p) next fuel s2 =
        after env extent k dir name (cstr ((s.volume env k).nameBytes dir l p)) next fuel found s3) ∧
      Advances env k l (Needs (512 * 2 ^ l) (max j ((s.volume env k).direntBlock dir l p)))
        (c + (nodeSize + 4)) s s3 ∧
      found.map (fun f => (f.1.bare, f.2)) = (s.volume env k).entryAt dir l p := by
  obtain ⟨hadv, hpool, hp, hnamed⟩ := hat
  have hlt : (s.volume env k).nameLen dir l p < 256 := (byteAt _ 6).toNat_lt
  obtain ⟨filename, s3, hrun3, hbytes, hadv3⟩ := readName_eq (n := (s.volume env k).nameLen dir l p)
    h hadv hp hp31 (Nat.pos_of_ne_zero hnamed) (by omega)
    (by
      show _ + tables l (max _ ((s.volume env k).direntBlock dir l p)) s ≤ _
      rw [direntBlock_max]
      omega) hfits
  have hadv3 : Advances env k l (Needs (512 * 2 ^ l)
      (max (max j ((p + direntSize - 1) / (512 * 2 ^ l))) ((s.volume env k).direntBlock dir l p)))
        c s s3 := hadv3
  rw [direntBlock_max] at hadv3
  have hpool3 := hadv3.pool_eq
  obtain ⟨found, s4, hrun4, hreads, hfound⟩ := entryNode_done h.file.works.outcome dir l p
    { s3 with pool := s3.pool + (nodeSize + 4) } hadv3.add_pool.volume_eq
  refine ⟨found, s4, fun next fuel => ?_, hadv3.add_pool.reads_after hreads,
    hfound.eq h.file.works⟩
  have hstatus : ¬ ((s.volume env k).nameLen dir l p : ℤ) < 1 := by omega
  refine (Prog.bind_ok hrun3).trans ?_
  dsimp only
  rw [if_neg hstatus, Prog.bind_ok ((malloc_node h hadv3 (by omega)).1 hroom), Prog.bind_ok hrun4,
    hbytes]
  rfl

/-- The name cannot be read, or there is no memory for the node. -/
theorem nameRound_fails (name : List Byte) (h : DirectoryOn env extent k dir l s) {p j c : ℕ} {s2 : St}
    (hat : AtName env extent k dir l s p j c s2) (hp31 : p < 2 ^ 31)
    (hbad : ¬ (p + direntSize < 2 ^ 31 ∧
      (s.volume env k).Fits dir l (p + direntSize) ((s.volume env k).nameLen dir l p) 256 ∧
      s.pool + (c + (nodeSize + 4)) +
        tables l (max j ((s.volume env k).direntBlock dir l p)) s ≤ extent)) (next fuel : ℕ) :
    ∃ b s3, nameRound env extent k dir name ((s.volume env k).dirent dir l p) p
      ((s.volume env k).nameLen dir l p) next fuel s2 = some (.error b, s3) := by
  obtain ⟨hadv, hpool, hp, hnamed⟩ := hat
  have hlt : (s.volume env k).nameLen dir l p < 256 := (byteAt _ 6).toNat_lt
  have hpos : add32 p direntSize = p + direntSize := add32_of_lt (by unfold direntSize; omega)
  by_cases hp31' : p + direntSize < 2 ^ 31
  · by_cases hname : s.pool + c + tables l (max j ((s.volume env k).direntBlock dir l p)) s ≤ extent ∧
        (s.volume env k).Fits dir l (p + direntSize) ((s.volume env k).nameLen dir l p) 256
    · obtain ⟨filename, s3, hrun3, -, hadv3⟩ := readName_eq
        (n := (s.volume env k).nameLen dir l p) h hadv hp hp31'
        (Nat.pos_of_ne_zero hnamed) (by omega)
        (by
          show _ + tables l (max _ ((s.volume env k).direntBlock dir l p)) s ≤ _
          rw [direntBlock_max]
          exact hname.1) hname.2
      have hadv3 : Advances env k l (Needs (512 * 2 ^ l)
          (max (max j ((p + direntSize - 1) / (512 * 2 ^ l)))
            ((s.volume env k).direntBlock dir l p))) c s s3 := hadv3
      rw [direntBlock_max] at hadv3
      have hpool3 := hadv3.pool_eq
      have hfull := (malloc_node h hadv3 (by omega)).2 fun hroom => hbad ⟨hp31', hname.2, hroom⟩
      have hstatus : ¬ ((s.volume env k).nameLen dir l p : ℤ) < 1 := by omega
      refine ⟨.outOfPool, { s3 with pool := s3.pool + (nodeSize + 4) }, ?_⟩
      refine (Prog.bind_ok hrun3).trans ?_
      dsimp only
      rw [if_neg hstatus, Prog.bind_error hfull]
    · have hpart := h.part (n := (s.volume env k).nameLen dir l p) hp hp31'
        (Nat.pos_of_ne_zero hnamed) (by omega) (by unfold direntSize; omega)
      obtain ⟨b, s3, hrun3⟩ := readObject_fails (m := 256) h.file hadv hpart (by omega)
        h.extent_le hpool
        (by
          show ¬ (s.pool + c + tables l (max _ ((s.volume env k).direntBlock dir l p)) s ≤ _ ∧ _)
          rw [direntBlock_max]
          exact hname)
      rw [← int32_natCast hp31', ← hpos] at hrun3
      exact ⟨b, s3, Prog.bind_error hrun3⟩
  · have hge := le_blockBytes h.file.sizes.one_le
    have hsize : 2 ^ 10 ≤ dir.size := hge.trans (Nat.le_of_dvd (by omega) h.whole)
    have hrun3 := readObject_far env extent k (p := p + direntSize)
      (n := (s.volume env k).nameLen dir l p) h.file.sizes (by omega)
      (by unfold direntSize; omega) (by omega) (by omega) 256 s2
    rw [← hpos] at hrun3
    exact ⟨_, s2, Prog.bind_error hrun3⟩

/-- What the records before a round have brought about. -/
structure Scanned (env : Env) (extent : ℕ) (k : KernelSource) (dir : Node) (l : ℕ) (s : St) (n : ℕ)
    (s1 : St) : Prop where
  advances : Advances env k l
    (Needs (512 * 2 ^ l) ((s.volume env k).scanBlock dir l n))
    ((s.volume env k).scanNodes dir l n) s s1
  pool : s1.pool ≤ extent

/-- There is memory for the tables and the nodes of the records up to that of round `n`. -/
def Volume.ScanRoom (v : Volume) (extent : ℕ) (dir : Node) (l : ℕ) (s : St) (n : ℕ) : Prop :=
  s.pool + v.scanNodes dir l (n + 1) + tables l (v.scanBlock dir l (n + 1)) s ≤ extent

/-- What a round at a record with a name does once its node is made. -/
theorem after_eq {name : List Byte} {p : ℕ} {found : Option (Node × Ftype)} {s3 : St}
    (hnamed : (s.volume env k).nameLen dir l p ≠ 0)
    (hfound : found.map (fun f : Node × Ftype => (f.1.bare, f.2)) =
      (s.volume env k).entryAt dir l p) (next fuel : ℕ) :
    after env extent k dir name (cstr ((s.volume env k).nameBytes dir l p)) next fuel found s3 =
      if (s.volume env k).StopsAt dir l p name then some (.ok found, s3)
      else iterate env extent k dir name fuel next s3 := by
  cases found with
  | none =>
    rw [if_pos ⟨hnamed, .inl (Volume.entryAt_none.mp hfound.symm)⟩]
    rfl
  | some found =>
    by_cases hsame : cstr ((s.volume env k).nameBytes dir l p) = name
    · rw [after, if_pos hsame, if_pos ⟨hnamed, .inr hsame⟩, Prog.pure_apply]
    · have hgo : ¬ (s.volume env k).StopsAt dir l p name := by
        rintro ⟨-, hnone | heq⟩
        · rw [Volume.entryAt_none.mpr hnone] at hfound
          cases hfound
        · exact hsame heq
      rw [after, if_neg hsame, if_neg hgo]

/-- A round at a record that comes to its end: the scan stops there and delivers what the
    record stands for, or goes on behind it. -/
theorem iterate_step (name : List Byte) (h : DirectoryOn env extent k dir l s) {n : ℕ} {s1 : St}
    (hs : Scanned env extent k dir l s n s1)
    (hp : (s.volume env k).record dir l n < dir.size)
    (hfits : (s.volume env k).DirentFits dir l ((s.volume env k).record dir l n))
    (hroom : (s.volume env k).ScanRoom extent dir l s n) :
    ∃ s2, Scanned env extent k dir l s (n + 1) s2 ∧
      if (s.volume env k).StopsAt dir l ((s.volume env k).record dir l n) name then
        ∃ found, found.map (fun f : Node × Ftype => (f.1.bare, f.2)) =
            (s.volume env k).entryAt dir l ((s.volume env k).record dir l n) ∧
          ∀ fuel, iterate env extent k dir name (fuel + 1)
            ((s.volume env k).record dir l n) s1 = some (.ok found, s2)
      else ∀ fuel, iterate env extent k dir name (fuel + 1)
        ((s.volume env k).record dir l n) s1 =
          iterate env extent k dir name fuel ((s.volume env k).record dir l (n + 1)) s2 := by
  generalize hpos : (s.volume env k).record dir l n = p at hp hfits ⊢
  have hblock : (s.volume env k).scanBlock dir l (n + 1) =
      max ((s.volume env k).scanBlock dir l n) ((s.volume env k).direntBlock dir l p) := by
    rw [← hpos]
    rfl
  have hnodes : (s.volume env k).scanNodes dir l (n + 1) =
      (s.volume env k).scanNodes dir l n + (s.volume env k).direntNode dir l p := by
    rw [← hpos]
    rfl
  have hnext : (s.volume env k).record dir l (n + 1) =
      add32 p ((s.volume env k).direntLen dir l p) := by
    rw [← hpos]
    rfl
  unfold Volume.ScanRoom at hroom
  rw [hblock, hnodes] at hroom
  rw [hnext]
  obtain ⟨hp31, hhead, hname⟩ := hfits
  have hle : (p + direntSize - 1) / (512 * 2 ^ l) ≤ (s.volume env k).direntBlock dir l p :=
    Nat.div_le_div_right (by omega)
  have hmono := tables_mono (l := l)
    (max_le_max (le_refl ((s.volume env k).scanBlock dir l n)) hle) s
  obtain ⟨s2, hrun, hadv2⟩ := readDirent_eq h hs.advances hp hp31 (by omega) hhead
  have hpool2 := hadv2.pool_eq
  by_cases hnamed : (s.volume env k).nameLen dir l p = 0
  · have hcost : (s.volume env k).direntNode dir l p = 0 := if_pos hnamed
    have hsame : (s.volume env k).direntBlock dir l p = (p + direntSize - 1) / (512 * 2 ^ l) := by
      unfold Volume.direntBlock
      rw [hnamed, Nat.add_zero]
    refine ⟨s2, ⟨?_, by omega⟩, ?_⟩
    · rw [hblock, hnodes, hcost, hsame]
      exact hadv2
    · rw [if_neg fun hstop => hstop.1 hnamed]
      intro fuel
      rw [iterate_of_dirent hp hrun]
      exact congrFun (if_neg (not_not_intro hnamed)) s2
  · obtain ⟨hp31', hfits'⟩ := hname hnamed
    have hcost : (s.volume env k).direntNode dir l p = nodeSize + 4 := if_neg hnamed
    rw [hcost] at hroom hnodes
    obtain ⟨found, s3, hround, hadv3, hfound⟩ := nameRound_eq name h
      ⟨hadv2, by omega, hp, hnamed⟩ hp31' hfits' hroom
    have hpool3 := hadv3.pool_eq
    refine ⟨s3, ⟨?_, by omega⟩, ?_⟩
    · rw [hblock, hnodes]
      exact hadv3
    · have hrest : ∀ fuel, iterate env extent k dir name (fuel + 1) p s1 =
          after env extent k dir name (cstr ((s.volume env k).nameBytes dir l p))
            (add32 p ((s.volume env k).direntLen dir l p)) fuel found s3 := by
        intro fuel
        rw [iterate_of_dirent hp hrun, ← hround]
        exact congrFun (if_pos hnamed) s2
      by_cases hstop : (s.volume env k).StopsAt dir l p name
      · rw [if_pos hstop]
        refine ⟨found, hfound, fun fuel => ?_⟩
        rw [hrest, after_eq hnamed hfound, if_pos hstop]
      · rw [if_neg hstop]
        intro fuel
        rw [hrest, after_eq hnamed hfound, if_neg hstop]

/-- A round whose reads, or whose request for memory, do not come to their end. -/
theorem iterate_fails (name : List Byte) (h : DirectoryOn env extent k dir l s) {n : ℕ} {s1 : St}
    (hs : Scanned env extent k dir l s n s1)
    (hp : (s.volume env k).record dir l n < dir.size)
    (hfar : (s.volume env k).record dir l n < 2 ^ 31 + 2 ^ 16)
    (hbad : ¬ ((s.volume env k).DirentFits dir l ((s.volume env k).record dir l n) ∧
      (s.volume env k).ScanRoom extent dir l s n)) (fuel : ℕ) :
    ∃ b s2, iterate env extent k dir name (fuel + 1) ((s.volume env k).record dir l n) s1 =
      some (.error b, s2) := by
  unfold Volume.ScanRoom Volume.scanBlock Volume.scanNodes at hbad
  generalize (s.volume env k).record dir l n = p at hp hfar hbad ⊢
  have hge := le_blockBytes h.file.sizes.one_le
  have hsize : 2 ^ 10 ≤ dir.size := hge.trans (Nat.le_of_dvd (by omega) h.whole)
  by_cases hp31 : p < 2 ^ 31
  · by_cases hhead : s.pool + (s.volume env k).scanNodes dir l n +
        tables l (max ((s.volume env k).scanBlock dir l n)
          ((p + direntSize - 1) / (512 * 2 ^ l))) s ≤ extent ∧
        (s.volume env k).Fits dir l p direntSize direntSize
    · obtain ⟨s2, hrun, hadv2⟩ := readDirent_eq h hs.advances hp hp31 hhead.1 hhead.2
      have hpool2 := hadv2.pool_eq
      by_cases hnamed : (s.volume env k).nameLen dir l p = 0
      · have hcost : (s.volume env k).direntNode dir l p = 0 := if_pos hnamed
        have hsame : (s.volume env k).direntBlock dir l p =
            (p + direntSize - 1) / (512 * 2 ^ l) := by
          unfold Volume.direntBlock
          rw [hnamed, Nat.add_zero]
        rw [hcost, hsame] at hbad
        exact (hbad ⟨⟨hp31, hhead.2, fun hne => (hne hnamed).elim⟩, hhead.1⟩).elim
      · have hcost : (s.volume env k).direntNode dir l p = nodeSize + 4 := if_neg hnamed
        rw [hcost] at hbad
        obtain ⟨b, s3, hround⟩ := nameRound_fails name h
          ⟨hadv2, by omega, hp, hnamed⟩ hp31
          (fun hall => hbad ⟨⟨hp31, hhead.2, fun _ => ⟨hall.1, hall.2.1⟩⟩, hall.2.2⟩)
          (add32 p ((s.volume env k).direntLen dir l p)) fuel
        refine ⟨b, s3, ?_⟩
        rw [iterate_of_dirent hp hrun, ← hround]
        exact congrFun (if_pos hnamed) s2
    · have hpart := h.part (n := direntSize) hp hp31 (by decide) (by decide)
        (by unfold direntSize; omega)
      obtain ⟨b, s2, hrun⟩ :=
        readObject_fails h.file hs.advances hpart (le_refl _) h.extent_le hs.pool hhead
      rw [← int32_natCast hp31] at hrun
      refine ⟨b, s2, ?_⟩
      conv_lhs => unfold iterate
      rw [if_pos hp, Prog.bind_error hrun]
  · refine ⟨.corrupt, s1, ?_⟩
    conv_lhs => unfold iterate
    rw [if_pos hp, Prog.bind_error (readObject_far env extent k h.file.sizes (by omega) (by omega)
      (by decide) (by unfold direntSize; omega) direntSize s1)]

/-! ## The whole walk -/

theorem scan_pos (v : Volume) (n : ℕ) : (v.scan dir l name).pos n = v.record dir l n := by
  induction n with
  | zero => rfl
  | succ n ih =>
    show add32 ((v.scan dir l name).pos n) (v.direntLen dir l ((v.scan dir l name).pos n)) = _
    rw [ih]
    rfl

/-- The length of a record is an `unsigned short`. -/
theorem direntLen_lt (dir : Node) (l : ℕ) (v : Volume) (p : ℕ) : v.direntLen dir l p < 2 ^ 16 := by
  have hlow := (byteAt (v.dirent dir l p) 4).toNat_lt
  have hhigh := (byteAt (v.dirent dir l p) (4 + 1)).toNat_lt
  unfold Volume.direntLen u16At
  omega

/-- The walk can be made in the pool: each record it gets to can be read, and each one it
    passes has a length. -/
structure Volume.Walkable (v : Volume) (extent : ℕ) (dir : Node) (l : ℕ) (name : List Byte)
    (s : St) : Prop where
  fits : ∀ n, (v.scan dir l name).Visits n → v.record dir l n < dir.size →
    v.DirentFits dir l (v.record dir l n)
  room : ∀ n, (v.scan dir l name).Visits n → v.record dir l n < dir.size →
    v.ScanRoom extent dir l s n
  moves : ∀ n, (v.scan dir l name).Visits n → v.record dir l n < dir.size →
    ¬ v.StopsAt dir l (v.record dir l n) name → v.direntLen dir l (v.record dir l n) ≠ 0

/-- What the scan delivers when it ends in round `n`. -/
def Volume.scanResult (v : Volume) (dir : Node) (l n : ℕ) : Option (ℤ × Ftype) :=
  if v.record dir l n < dir.size then v.direntEntry dir l (v.record dir l n) else none

/-- A run of the loop that returns. -/
theorem iterate_returns (h : DirectoryOn env extent k dir l s) {fuel n : ℕ} {s1 s' : St}
    {found : Option (Node × Ftype)} (hs : Scanned env extent k dir l s n s1)
    (hvisit : ((s.volume env k).scan dir l name).Visits n)
    (hfar : (s.volume env k).record dir l n < 2 ^ 31 + 2 ^ 16)
    (hrun : iterate env extent k dir name fuel ((s.volume env k).record dir l n) s1 =
      some (.ok found, s')) :
    ∃ m, ((s.volume env k).scan dir l name).Ends m ∧
      found.map (fun f => (f.1.ino, f.2)) = (s.volume env k).scanResult dir l m ∧
      ∀ i, n ≤ i → i ≤ m → (s.volume env k).record dir l i < dir.size →
        (s.volume env k).DirentFits dir l ((s.volume env k).record dir l i) ∧
          (s.volume env k).ScanRoom extent dir l s i := by
  induction fuel generalizing n s1 with
  | zero => cases hrun
  | succ fuel ih =>
    by_cases hp : (s.volume env k).record dir l n < dir.size
    · by_cases hgood : (s.volume env k).DirentFits dir l ((s.volume env k).record dir l n) ∧
          (s.volume env k).ScanRoom extent dir l s n
      · obtain ⟨s2, hs2, hstep⟩ := iterate_step name h hs hp hgood.1 hgood.2
        by_cases hstop : (s.volume env k).StopsAt dir l ((s.volume env k).record dir l n) name
        · rw [if_pos hstop] at hstep
          obtain ⟨found', hfound, hend⟩ := hstep
          rw [hend] at hrun
          cases hrun
          refine ⟨n, ⟨hvisit, ?_⟩, ?_, fun i hi hi' _ => ?_⟩
          · rw [scan_pos]
            exact .inr hstop
          · rw [Volume.scanResult, if_pos hp, Volume.direntEntry_eq, ← hfound, Option.map_map]
            congr 1
            funext f
            exact congrArg (·, f.2) f.1.bare_ino.symm
          · obtain rfl : i = n := by omega
            exact hgood
        · rw [if_neg hstop] at hstep
          rw [hstep] at hrun
          have hgo : ¬ ((s.volume env k).scan dir l name).stop
              (((s.volume env k).scan dir l name).pos n) := by
            rw [scan_pos]
            rintro (hend | hstop')
            · omega
            · exact hstop hstop'
          have hlen := direntLen_lt dir l (s.volume env k)
            ((s.volume env k).record dir l n)
          have hnext : (s.volume env k).record dir l (n + 1) =
              (s.volume env k).record dir l n +
                (s.volume env k).direntLen dir l ((s.volume env k).record dir l n) :=
            add32_of_lt (by omega)
          have hp31 := hgood.1.1
          obtain ⟨m, hends, hfound, hrest⟩ := ih hs2 (hvisit.succ hgo) (by omega) hrun
          refine ⟨m, hends, hfound, fun i hi hi' hin => ?_⟩
          rcases Nat.eq_or_lt_of_le hi with rfl | hlt
          · exact hgood
          · exact hrest i hlt hi' hin
      · obtain ⟨b, s2, hfail⟩ := iterate_fails name h hs hp hfar hgood fuel
        rw [hfail] at hrun
        cases hrun
    · unfold iterate at hrun
      rw [if_neg hp] at hrun
      cases hrun
      refine ⟨n, ⟨hvisit, ?_⟩, (if_neg hp).symm, fun i hi hi' hin => ?_⟩
      · rw [scan_pos]
        exact .inl (Nat.le_of_not_lt hp)
      · obtain rfl : i = n := by omega
        exact absurd hin hp

/-- The run of the loop up to the round where the walk ends. -/
theorem iterate_ends (h : DirectoryOn env extent k dir l s) {m : ℕ}
    (hends : ((s.volume env k).scan dir l name).Ends m)
    (hgood : ∀ i ≤ m, (s.volume env k).record dir l i < dir.size →
      (s.volume env k).DirentFits dir l ((s.volume env k).record dir l i) ∧
        (s.volume env k).ScanRoom extent dir l s i) {n d : ℕ} (hd : n + d = m) {s1 : St}
    (hs : Scanned env extent k dir l s n s1) :
    ∃ found s', iterate env extent k dir name (d + 1) ((s.volume env k).record dir l n) s1 =
      some (.ok found, s') := by
  induction d generalizing n s1 with
  | zero =>
    obtain rfl : n = m := hd
    by_cases hp : (s.volume env k).record dir l n < dir.size
    · obtain ⟨hfits, hroom⟩ := hgood n (le_refl n) hp
      obtain ⟨s2, -, hstep⟩ := iterate_step name h hs hp hfits hroom
      have hstop := hends.2
      rw [scan_pos] at hstop
      rw [if_pos (hstop.resolve_left (Nat.not_le_of_lt hp))] at hstep
      obtain ⟨found, -, hend⟩ := hstep
      exact ⟨found, s2, hend 0⟩
    · refine ⟨none, s1, ?_⟩
      unfold iterate
      rw [if_neg hp, Prog.pure_apply]
  | succ d ih =>
    have hgo := hends.1 n (by omega)
    rw [scan_pos] at hgo
    have hp : (s.volume env k).record dir l n < dir.size :=
      Nat.lt_of_not_le fun hend => hgo (.inl hend)
    obtain ⟨hfits, hroom⟩ := hgood n (by omega) hp
    obtain ⟨s2, hs2, hstep⟩ := iterate_step name h hs hp hfits hroom
    rw [if_neg fun hstop => hgo (.inr hstop)] at hstep
    obtain ⟨found, s', hrun⟩ := ih (n := n + 1) (by omega) hs2
    exact ⟨found, s', (hstep (d + 1)).trans hrun⟩

/-- The walk can be made exactly if it ends and its records can be read. -/
theorem walkable_iff (v : Volume) :
    v.Walkable extent dir l name s ↔ ∃ m, (v.scan dir l name).Ends m ∧
      ∀ i ≤ m, v.record dir l i < dir.size →
        v.DirentFits dir l (v.record dir l i) ∧ v.ScanRoom extent dir l s i := by
  have hstop : ∀ n, (v.scan dir l name).stop ((v.scan dir l name).pos n) ↔
      dir.size ≤ v.record dir l n ∨ v.StopsAt dir l (v.record dir l n) name := by
    intro n
    rw [scan_pos]
    rfl
  constructor
  · intro h
    have hup : ∀ n, (v.scan dir l name).Visits n →
        ¬ (v.scan dir l name).stop ((v.scan dir l name).pos n) →
        (v.scan dir l name).pos n < (v.scan dir l name).next ((v.scan dir l name).pos n) := by
      intro n hvisit hgo
      rw [hstop, not_or, not_le] at hgo
      have hlen := direntLen_lt dir l v (v.record dir l n)
      have hp31 := (h.fits n hvisit hgo.1).1
      have hmove := h.moves n hvisit hgo.1 hgo.2
      rw [scan_pos]
      show _ < add32 _ _
      rw [add32_of_lt (by omega)]
      omega
    have hbound : ∀ p, dir.size ≤ p → (v.scan dir l name).stop p := fun p hp => Or.inl hp
    obtain ⟨m, hends⟩ := Walk.exists_ends dir.size hbound hup
    refine ⟨m, hends, fun i hi hp => ?_⟩
    have hvisit := hends.1.mono hi
    exact ⟨h.fits i hvisit hp, h.room i hvisit hp⟩
  · rintro ⟨m, hends, hgood⟩
    refine ⟨fun n hvisit hp => ?_, fun n hvisit hp => ?_, fun n hvisit hp hgo hzero => ?_⟩
    · exact (hgood n (hends.le_of_visits hvisit) hp).1
    · exact (hgood n (hends.le_of_visits hvisit) hp).2
    · have hp31 := (hgood n (hends.le_of_visits hvisit) hp).1.1
      refine Walk.not_ends_of_fixed hvisit ?_ ?_ hends
      · rw [hstop, not_or, not_le]
        exact ⟨hp, hgo⟩
      · rw [scan_pos]
        show add32 _ (v.direntLen dir l _) = _
        rw [hzero, add32_of_lt (by omega), Nat.add_zero]

/-! ## Well-formed directories -/

namespace Volume

variable (v : Volume) (dir : Node) (l n : ℕ)

/-- The chain of records gets to record `n` inside the directory. -/
def IsRecord : Prop := ∀ m ≤ n, v.record dir l m < dir.size

/-- Record `n` is not deleted: the scan reaches it, and it has the number of an inode. -/
def Live : Prop := v.IsRecord dir l n ∧ v.direntIno dir l (v.record dir l n) ≠ 0

/-- The name in record `n`. -/
def recordName : List Byte := v.nameBytes dir l (v.record dir l n)

/-- What the record stands for. -/
def recordEntry : Option (ℤ × Ftype) := v.direntEntry dir l (v.record dir l n)

/-- A directory as the file system lays it out: whole blocks of records, none across the
    end of a block, with room for their names; the live ones have different names and
    inodes that can be read. -/
structure WellFormed : Prop where
  ends : ∃ n, v.record dir l n = dir.size
  blocks : ∀ i, i * (512 * 2 ^ l) < dir.size → v.blockMap dir (512 * 2 ^ l) i ≠ 0
  room : ∀ n, v.IsRecord dir l n → direntSize + v.nameLen dir l (v.record dir l n) ≤
    v.direntLen dir l (v.record dir l n)
  aligned : ∀ n, v.IsRecord dir l n → 4 ∣ v.direntLen dir l (v.record dir l n)
  inside : ∀ n, v.IsRecord dir l n →
    v.record dir l n % (512 * 2 ^ l) + v.direntLen dir l (v.record dir l n) ≤ 512 * 2 ^ l
  named : ∀ n, v.Live dir l n → v.recordName dir l n ≠ []
  clean : ∀ n, v.Live dir l n → ∀ c ∈ v.recordName dir l n, c ≠ 0 ∧ c ≠ 0x2f
  unique : ∀ n m, v.Live dir l n → v.Live dir l m →
    v.recordName dir l n = v.recordName dir l m → n = m
  inodes : ∀ n, v.Live dir l n → v.recordEntry dir l n ≠ none

/-- `found` is the inode number and the type of the live record called `name`. -/
def Delivers (name : List Byte) (found : Option (ℤ × Ftype)) : Prop :=
  ∀ ino type, found = some (ino, type) ↔ ∃ n, v.Live dir l n ∧ v.recordName dir l n = name ∧
    v.recordEntry dir l n = some (ino, type)

/-- The scan does not stop at a deleted record, unless there is no live one of the name and
    nothing is delivered. -/
def StopsLive (name : List Byte) : Prop :=
  ∀ n, (v.scan dir l name).Visits n → v.record dir l n < dir.size →
    v.StopsAt dir l (v.record dir l n) name → v.direntIno dir l (v.record dir l n) = 0 →
      v.recordEntry dir l n = none ∧ ∀ m, v.Live dir l m → v.recordName dir l m ≠ name

variable {v dir l n}

theorem WellFormed.cstr_eq (h : v.WellFormed dir l) (hlive : v.Live dir l n) :
    cstr (v.recordName dir l n) = v.recordName dir l n := by
  unfold cstr
  rw [List.takeWhile_eq_self_iff]
  intro c hc
  exact decide_eq_true (h.clean n hlive c hc).1

theorem WellFormed.nameLen_ne (h : v.WellFormed dir l) (hlive : v.Live dir l n) :
    v.nameLen dir l (v.record dir l n) ≠ 0 := by
  intro hzero
  apply h.named n hlive
  unfold recordName nameBytes bytes
  rw [hzero]
  rfl

theorem direntEntry_ino {p : ℕ} {e : ℤ × Ftype} (h : v.direntEntry dir l p = some e) :
    e.1 = v.direntIno dir l p := by
  unfold direntEntry at h
  generalize v.direntIno dir l p = ino at h ⊢
  split_ifs at h
  · rw [← Option.some.inj h]
  · obtain ⟨inode, -, rfl⟩ := Option.map_eq_some_iff.mp h
    rfl

/-- The walk ends in round `n` exactly if it visits it and there is its stop. -/
theorem ends_iff_record {name : List Byte} :
    (v.scan dir l name).Ends n ↔ (v.scan dir l name).Visits n ∧
      (dir.size ≤ v.record dir l n ∨ v.StopsAt dir l (v.record dir l n) name) := by
  unfold Walk.Ends
  rw [scan_pos]
  rfl

theorem visits_record {name : List Byte} (h : (v.scan dir l name).Visits n) {m : ℕ} (hm : m < n) :
    v.record dir l m < dir.size ∧ ¬ v.StopsAt dir l (v.record dir l m) name := by
  have hgo := h m hm
  rw [scan_pos] at hgo
  exact ⟨Nat.lt_of_not_le fun hend => hgo (.inl hend), fun hstop => hgo (.inr hstop)⟩

/-- What a walk that ends delivers is right exactly if it does not stop at a deleted
    record. -/
theorem WellFormed.delivers_iff {name : List Byte} (h : v.WellFormed dir l) {m : ℕ}
    (hends : (v.scan dir l name).Ends m) :
    v.Delivers dir l name (v.scanResult dir l m) ↔ v.StopsLive dir l name := by
  obtain ⟨hvisit, hstop⟩ := ends_iff_record.mp hends
  have honly : ∀ n, (v.scan dir l name).Visits n →
      v.StopsAt dir l (v.record dir l n) name → n = m := fun n hn hn' =>
    (ends_iff_record.mpr ⟨hn, .inr hn'⟩).unique hends
  -- A live record that the walk has passed has another name.
  have hpassed : ∀ n, n < m → v.Live dir l n → v.recordName dir l n ≠ name := by
    intro n hn hlive hname
    apply (visits_record hvisit hn).2
    refine ⟨h.nameLen_ne hlive, .inr ?_⟩
    rw [← hname]
    exact h.cstr_eq hlive
  by_cases hp : v.record dir l m < dir.size
  · have hres : v.scanResult dir l m = v.recordEntry dir l m := if_pos hp
    have hstop := hstop.resolve_left (Nat.not_le_of_lt hp)
    have hrec : v.IsRecord dir l m := by
      intro n hn
      rcases Nat.lt_or_eq_of_le hn with hn | rfl
      · exact (visits_record hvisit hn).1
      · exact hp
    rw [hres]
    by_cases hino : v.direntIno dir l (v.record dir l m) = 0
    · constructor
      · intro hdel n hn hlt hn' _
        obtain rfl := honly n hn hn'
        have hnone : v.recordEntry dir l n = none := by
          rcases hentry : v.recordEntry dir l n with _ | ⟨ino, type⟩
          · rfl
          · obtain ⟨i, hlive, -, hi⟩ := (hdel ino type).mp hentry
            have hsame := (direntEntry_ino hi).symm.trans (direntEntry_ino hentry)
            exact absurd (hsame.trans hino) hlive.2
        refine ⟨hnone, fun i hlive hname => ?_⟩
        rcases hi : v.recordEntry dir l i with _ | ⟨ino, type⟩
        · exact h.inodes i hlive hi
        · have hsome := (hdel ino type).mpr ⟨i, hlive, hname, hi⟩
          rw [hnone] at hsome
          cases hsome
      · intro hlive ino type
        obtain ⟨hnone, hother⟩ := hlive m hvisit hp hstop hino
        rw [hnone]
        refine iff_of_false (fun hsome => by cases hsome) ?_
        rintro ⟨n, hn, hname, -⟩
        exact hother n hn hname
    · have hlive : v.Live dir l m := ⟨hrec, hino⟩
      have hname : v.recordName dir l m = name := by
        rw [← h.cstr_eq hlive]
        exact hstop.2.resolve_left (h.inodes m hlive)
      refine iff_of_true (fun ino type => ?_) fun n hn _ hn' hzero => ?_
      · constructor
        · exact fun hentry => ⟨m, hlive, hname, hentry⟩
        · rintro ⟨n, hn, hnname, hentry⟩
          rwa [h.unique n m hn hlive (hnname.trans hname.symm)] at hentry
      · obtain rfl := honly n hn hn'
        exact absurd hzero hino
  · have hres : v.scanResult dir l m = none := if_neg hp
    rw [hres]
    refine iff_of_true (fun ino type => ?_) fun n hn hlt hn' _ => ?_
    · refine iff_of_false (fun hsome => by cases hsome) ?_
      rintro ⟨n, hlive, hname, -⟩
      refine hpassed n ?_ hlive hname
      by_contra hle
      exact hp (hlive.1 m (by omega))
    · obtain rfl := honly n hn hn'
      exact absurd hlt hp

end Volume

/-! ## `ext2fs_iterate_dir` -/

/-- `dir` with its inode. -/
def Volume.loaded (v : Volume) (dir : Node) : Option Node :=
  if dir.inodeRead then some dir
  else (v.inode dir dir.ino).map fun inode => { dir with inode := inode }

theorem readNode_done (hdone : ∀ n, env.outcome n = .done) (k : KernelSource) (dir : Node) (s : St) :
    ∃ got s', readNode env k dir s = some (.ok got, s') ∧ Reads s s' ∧
      Got env got ((s.volume env k).loaded dir) := by
  unfold readNode Volume.loaded
  by_cases hread : dir.inodeRead = true
  · rw [if_pos hread, if_pos hread]
    exact ⟨_, s, Prog.pure_apply _ _, Reads.refl s, .inl rfl⟩
  · rw [if_neg hread, if_neg hread]
    obtain ⟨inode, s', hrun, hreads, hgot⟩ := readInode_done hdone k s dir dir.ino
    exact ⟨_, s', (Prog.bind_ok hrun).trans (Prog.pure_apply _ _), hreads, hgot.map _⟩

/-- A node with its inode, on a device that works. -/
theorem readNode_eq (hw : env.Works) (k : KernelSource) (dir : Node) (s : St) :
    ∃ s', readNode env k dir s = some (.ok ((s.volume env k).loaded dir), s') ∧ Reads s s' := by
  obtain ⟨got, s', hrun, hreads, hgot⟩ := readNode_done hw.outcome k dir s
  rw [hgot.eq hw] at hrun
  exact ⟨s', hrun, hreads⟩

/-- The scan for `name` returns, and in a well-formed directory it delivers the live entry
    of that name. -/
def ScanMeets (env : Env) (k : KernelSource) (dir : Node) (l : ℕ) (name : List Byte) (s : St) :
    Prop :=
  ∃ fuel found s', ext2fsIterateDir env mallocPoolExtent k fuel dir name s =
      some (.ok found, s') ∧
    ∀ node, (s.volume env k).loaded dir = some node → (s.volume env k).WellFormed node l →
      (s.volume env k).Delivers node l name (found.map fun f => (f.1.ino, f.2))

/-- The walk over the records can be made, and in a well-formed directory it does not stop
    at a deleted one. -/
def ScanHolds (env : Env) (k : KernelSource) (dir : Node) (l : ℕ) (name : List Byte) (s : St) :
    Prop :=
  ∀ node, (s.volume env k).loaded dir = some node →
    (s.volume env k).Walkable mallocPoolExtent node l name s ∧
      ((s.volume env k).WellFormed node l → (s.volume env k).StopsLive node l name)

variable (name) in
/-- The run of the scan behind the read of the inode. -/
theorem iterateDir_loaded (hw : env.Works) {node : Node} (hdir : DirectoryOn env extent k node l s)
    (hnode : (s.volume env k).loaded dir = some node) :
    ∃ s1, Scanned env extent k node l s 0 s1 ∧ ∀ fuel, ext2fsIterateDir env extent k fuel dir name s =
      iterate env extent k node name fuel ((s.volume env k).record node l 0) s1 := by
  obtain ⟨s1, hrun, hreads⟩ := readNode_eq hw k dir s
  rw [hnode] at hrun
  refine ⟨s1, ⟨(Advances.reads hreads hdir.file.coherent).congr fun lv => ?_, ?_⟩, fun fuel => ?_⟩
  · refine iff_of_false not_false ?_
    cases lv <;> (show ¬ _ ≤ 0; omega)
  · rw [hreads.eq]
    exact hdir.pool
  · exact Prog.bind_ok hrun

theorem record_zero_lt (v : Volume) : v.record dir l 0 < 2 ^ 31 + 2 ^ 16 := by
  show 0 < _
  norm_num

/-- A scan that meets its claim has made the walk. -/
theorem ScanMeets.holds (hw : env.Works) (h : ∀ node, (s.volume env k).loaded dir = some node →
      DirectoryOn env mallocPoolExtent k node l s) (hmeets : ScanMeets env k dir l name s) :
    ScanHolds env k dir l name s := by
  intro node hnode
  obtain ⟨fuel, found, s', hret, hexact⟩ := hmeets
  obtain ⟨s1, hs1, hstart⟩ := iterateDir_loaded name hw (h node hnode) hnode
  rw [hstart] at hret
  obtain ⟨m, hends, hfound, hgood⟩ :=
    iterate_returns (h node hnode) hs1 Walk.visits_zero (record_zero_lt _) hret
  refine ⟨(walkable_iff _).mpr ⟨m, hends, fun i hi => hgood i (Nat.zero_le i) hi⟩, fun hwf => ?_⟩
  rw [← hwf.delivers_iff hends, ← hfound]
  exact hexact node hnode hwf

/-- On a directory that can be read, the scan returns what it should exactly if the walk
    over the records can be made and does not stop at a deleted one. -/
theorem scanMeets_iff (hw : env.Works) (h : ∀ node, (s.volume env k).loaded dir = some node →
      DirectoryOn env mallocPoolExtent k node l s) :
    ScanMeets env k dir l name s ↔ ScanHolds env k dir l name s := by
  constructor
  · exact ScanMeets.holds hw h
  · intro hholds
    rcases hnode : (s.volume env k).loaded dir with _ | node
    · obtain ⟨s1, hrun, -⟩ := readNode_eq hw k dir s
      rw [hnode] at hrun
      refine ⟨0, none, s1, (Prog.bind_ok hrun).trans (Prog.pure_apply _ _), fun node hnone => ?_⟩
      rw [hnode] at hnone
      cases hnone
    · obtain ⟨s1, hs1, hstart⟩ := iterateDir_loaded name hw (h node hnode) hnode
      obtain ⟨hwalk, hlive⟩ := hholds node hnode
      obtain ⟨m, hends, hgood⟩ := (walkable_iff _).mp hwalk
      obtain ⟨found, s', hret⟩ := iterate_ends (h node hnode) hends hgood (Nat.zero_add m) hs1
      obtain ⟨m', hends', hfound, -⟩ :=
        iterate_returns (h node hnode) hs1 Walk.visits_zero (record_zero_lt _) hret
      refine ⟨m + 1, found, s', (hstart _).trans hret, fun node' hsame hwf => ?_⟩
      rw [hnode] at hsame
      cases hsame
      rw [hfound, hwf.delivers_iff hends']
      exact hlive hwf

/-- A directory of one block. -/
def zeroDirectory : Node := fileNode 0 1024 [5]

/-- The board with a partition of 64 blocks selected. -/
def selected64 : St := { St.start (fun _ => 0) with partitionLengthBlocks := 64 }

theorem zeroDirectory_facts :
    zeroDirectory.log2 = (1 : ℕ) ∧ zeroDirectory.blksz = (1024 : ℕ) ∧ zeroDirectory.size = 1024 ∧
      zeroDirectory.dirBlock 0 = 5 ∧ zeroDirectory.dirBlock 1 = 0 ∧
      zeroDirectory.inodeRead = true := by
  decide +kernel

theorem zeroDirectory_on :
    DirectoryOn (workingEnv (fun _ => 0) [])
      mallocPoolExtent ext2Source zeroDirectory 1 selected64 := by
  obtain ⟨hlog2, hblksz, hsize, hblock, hhole, -⟩ := zeroDirectory_facts
  have hmap : ∀ i < 2, (selected64.volume (workingEnv (fun _ => 0) []) ext2Source).blockMap
      zeroDirectory (512 * 2 ^ 1) i = if i = 0 then 5 else 0 := by
    intro i hi
    unfold Volume.blockMap
    rw [if_pos (by omega)]
    obtain rfl | rfl : i = 0 ∨ i = 1 := by omega
    · rw [hblock, if_pos rfl]
    · rw [hhole, if_neg (by norm_num)]
  have hblocks : zeroDirectory.size / (512 * 2 ^ 1) + 1 = 2 := by
    rw [hsize]
    norm_num
  refine ⟨⟨workingEnv_works _ _, ⟨hlog2, hblksz, le_refl 1, by norm_num⟩, ?_, ?_, ?_⟩, ?_,
    Nat.zero_le _, by norm_num [mallocPoolExtent]⟩
  · intro lv b hb
    cases lv <;> cases hb
  · show 64 < 2 ^ 32
    norm_num
  · rw [hblocks]
    refine ⟨fun i hi => ⟨by omega, fun hge => by omega, fun hge => by omega, ?_⟩,
      fun i hi hne => ?_, fun i j hij hj hne => ?_⟩
    · rw [hmap i hi]
      split_ifs <;> norm_num
    · rw [hmap i hi] at hne ⊢
      rw [if_pos (by_contra fun h => hne (if_neg h))]
      exact ⟨by norm_num, by show _ ≤ 64; norm_num⟩
    · rw [hmap i (by omega), hmap j hj, if_pos (by omega), if_neg (by omega)]
      norm_num
  · rw [hsize]
    norm_num

theorem zeroDirectory_loaded (v : Volume) : v.loaded zeroDirectory = some zeroDirectory :=
  if_pos zeroDirectory_facts.2.2.2.2.2

/-- A block of zeros is a record of length 0, and the scan never passes it. -/
theorem zeroDirectory_not_meets :
    ¬ ScanMeets (workingEnv (fun _ => 0) []) ext2Source zeroDirectory 1 [0x6b] selected64 := by
  intro hmeets
  have hbytes : ∀ p, IsZero ((selected64.volume (workingEnv (fun _ => 0) []) ext2Source).dirent
      zeroDirectory 1 p) := by
    intro p j
    by_cases hj : j < direntSize
    · unfold Volume.dirent
      rw [Volume.byteAt_bytes hj]
      unfold Volume.byte Ext2.contents
      split_ifs <;> rfl
    · exact List.getD_eq_default _ _ (by unfold Volume.dirent; rw [Volume.length_bytes]; omega)
  have hname : ∀ p, (selected64.volume (workingEnv (fun _ => 0) []) ext2Source).nameLen
      zeroDirectory 1 p = 0 := by
    intro p
    unfold Volume.nameLen
    rw [hbytes]
    rfl
  have hlen : ∀ p, (selected64.volume (workingEnv (fun _ => 0) []) ext2Source).direntLen
      zeroDirectory 1 p = 0 := by
    intro p
    unfold Volume.direntLen u16At
    rw [hbytes, hbytes]
    rfl
  have hholds := hmeets.holds (workingEnv_works _ _) fun node hnode => by
    rw [zeroDirectory_loaded] at hnode
    cases hnode
    exact zeroDirectory_on
  have hstart : (selected64.volume (workingEnv (fun _ => 0) []) ext2Source).record zeroDirectory 1 0 <
      zeroDirectory.size := by
    rw [zeroDirectory_facts.2.2.1]
    show 0 < 1024
    norm_num
  exact (hholds zeroDirectory (zeroDirectory_loaded _)).1.moves 0 Walk.visits_zero hstart
    (fun hstop => hstop.1 (hname _)) (hlen _)

/-- The scan of that directory. -/
theorem zeroDirectory_meets_iff :
    ScanMeets (workingEnv (fun _ => 0) []) ext2Source zeroDirectory 1 [0x6b] selected64 ↔
      ScanHolds (workingEnv (fun _ => 0) []) ext2Source zeroDirectory 1 [0x6b] selected64 :=
  scanMeets_iff (workingEnv_works _ _) fun node hnode => by
    rw [zeroDirectory_loaded] at hnode
    cases hnode
    exact zeroDirectory_on

end Round

end SmartQ.Qi
