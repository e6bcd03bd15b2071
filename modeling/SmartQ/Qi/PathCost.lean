import SmartQ.Qi.Directory

/-!
# What a path takes from the pool

What the contents of a volume say about the lookup of a path: which directories are scanned
and how many entries are passed in each, which symbolic links are followed, and what is found.

* `Volume.lookup`: the entries up to the one called `name`, and what it stands for.
* `Volume.findFile`: the lookup of a path, with its links.
* `Trace.takes`, `Trace.Sound`: what it takes from the pool, and what the directories and the
  links on the way keep to.
-/

namespace SmartQ.Qi

open SmartQ.Lib

/-- What the lookup of a path meets: a directory of which `entries` entries with a name are
    looked at, and a symbolic link that is followed. -/
inductive Met
  | scanned (dir : Node) (entries : ℕ)
  | followed (link : Node)

/-- The lookup of a path: what it meets, the links that have been followed behind it, and the
    node and the type that it finds. -/
structure Trace where
  met : List Met
  nest : ℕ
  found : Option (Node × Ftype)

namespace Trace

/-- A lookup that ends at once. -/
def ends (nest : ℕ) (found : Option (Node × Ftype)) : Trace := ⟨[], nest, found⟩

/-- The lookup behind `m`. -/
def behind (t : Trace) (m : Met) : Trace := { t with met := m :: t.met }

/-- The lookup that goes on from what has been found. -/
def bind (t : Trace) (f : Node → Ftype → ℕ → Trace) : Trace :=
  match t.found with
  | none => t
  | some (node, type) =>
    { f node type t.nest with met := t.met ++ (f node type t.nest).met }

end Trace

namespace Volume

variable (v : Volume)

/-! ## The lookup -/

/-- The scan of at most `fuel` records from byte `p` on for an entry called `name`: how many
    entries with a name it looks at, and what it finds. -/
def scanFrom (dir : Node) (l : ℕ) (name : List Byte) : ℕ → ℕ → ℕ × Option (Node × Ftype)
  | 0, _ => (0, none)
  | fuel + 1, p =>
    if dir.size ≤ p then (0, none)
    else if v.nameLen dir l p = 0 then
      scanFrom dir l name fuel (add32 p (v.direntLen dir l p))
    else if v.StopsAt dir l p name then (1, v.entryAt dir l p)
    else Prod.map Nat.succ id (scanFrom dir l name fuel (add32 p (v.direntLen dir l p)))

/-- The scan of a directory; a record has 8 bytes at least. -/
def lookup (dir : Node) (l : ℕ) (name : List Byte) : ℕ × Option (Node × Ftype) :=
  v.scanFrom dir l name (dir.size / 8 + 1) 0

/-- The target of a symbolic link: a short one is in the inode. -/
def target (link : Node) (l : ℕ) : List Byte :=
  if link.size < 60 then cstr ((link.inode.drop 40).take link.size)
  else cstr (v.bytes link l 0 link.size)

section Paths

variable (l : ℕ) (root : Node) (follow : List Byte → Node → ℕ → Trace)

/-- Follow the link `next` in the directory `node`; it is the one with the number `nest`. -/
def followLink (node next : Node) (nest : ℕ) : Trace :=
  if nest = 8 then .ends nest none
  else match v.loaded next with
  | none => .ends nest none
  | some link =>
    (follow (v.target link l) (if (v.target link l).head? = some 0x2f then root else node)
      nest).behind (.followed link)

/-- The lookup of one name in the directory `node`, behind `nest` links. -/
def findName (node : Node) (name : List Byte) (nest : ℕ) : Trace :=
  match v.loaded node with
  | none => .ends nest none
  | some dir =>
    Trace.behind
      (match (v.lookup dir l name).2 with
        | none => .ends nest none
        | some (next, .symlink) => v.followLink l root follow node next (nest + 1)
        | some (next, type) => .ends nest (some (next, type)))
      (.scanned dir (v.lookup dir l name).1)

/-- The lookup of the names of a path, one after the other. -/
def findNames : List (List Byte) → Node → Ftype → ℕ → Trace
  | [], node, type, nest => .ends nest (some (node, type))
  | name :: names, node, type, nest =>
    if type ≠ .directory then .ends nest none
    else (v.findName l root follow node name nest).bind (findNames names)

/-- The lookup of a path from `node` on, with at most `depth` nested links. -/
def findFile1 : ℕ → List Byte → Node → Ftype → ℕ → Trace
  | 0, _, _, _, nest => .ends nest none
  | depth + 1, path, node, type, nest =>
    if components path = [] then .ends nest (some (node, type))
    else v.findNames l root (fun target node => findFile1 depth target node .symlink)
      (components path) node .directory nest

/-- The lookup of a path from the root directory; a source without the file has no path. -/
def findFile (path : Option (List Byte)) : Trace :=
  match path with
  | none => .ends 0 none
  | some path => v.findFile1 l root 8 path root .directory 0

end Paths

/-! ## What the file system keeps to -/

/-- A directory as the file system lays it out, in the blocks of its inode: whole blocks of
    records, none across the end of a block and each with room for its name. -/
structure Listed (dir : Node) (l : ℕ) : Prop where
  whole : 512 * 2 ^ l ∣ dir.size
  direct : dir.size ≤ 12 * (512 * 2 ^ l)
  blocks : ∀ i, i * (512 * 2 ^ l) < dir.size →
    dir.dirBlock i ≠ 0 ∧ dir.dirBlock i * 2 ^ l < 2 ^ 31
  room : ∀ n, v.IsRecord dir l n → direntSize + v.nameLen dir l (v.record dir l n) ≤
    v.direntLen dir l (v.record dir l n)
  inside : ∀ n, v.IsRecord dir l n →
    v.record dir l n % (512 * 2 ^ l) + v.direntLen dir l (v.record dir l n) ≤ 512 * 2 ^ l

/-- A symbolic link with its target in the inode, or in a block of the partition that can be
    read: what is left in memory when that is skipped is taken for the target. -/
def Linked (env : Env) (link : Node) (l : ℕ) : Prop :=
  link.size < 60 ∨ env.Works ∧ link.size ≤ 512 * 2 ^ l ∧ link.dirBlock 0 ≠ 0 ∧
    v.Placed l (link.dirBlock 0)

end Volume

/-- What is taken from the pool: a node for each entry, and room for the target of a link. -/
def Met.takes : Met → ℕ
  | .scanned _ entries => entries * (nodeSize + 4)
  | .followed link => (link.size + 1) % 2 ^ 32 / 4 * 4 + 4

/-- What is met is as the file system lays it out. -/
def Met.Sound (env : Env) (v : Volume) (l : ℕ) : Met → Prop
  | .scanned dir _ => v.Listed dir l
  | .followed link => v.Linked env link l

namespace Trace

/-- What a lookup takes from the pool. -/
def takes (t : Trace) : ℕ := (t.met.map Met.takes).sum

/-- All that a lookup meets is as the file system lays it out. -/
def Sound (env : Env) (v : Volume) (l : ℕ) (t : Trace) : Prop := ∀ m ∈ t.met, m.Sound env v l

variable {env : Env} {v : Volume} {l nest : ℕ} {t : Trace} {m : Met}
  {f : Node → Ftype → ℕ → Trace} {found : Option (Node × Ftype)}

@[simp] theorem takes_ends : (ends nest found).takes = 0 := rfl

@[simp] theorem takes_behind : (t.behind m).takes = m.takes + t.takes := List.sum_cons

theorem sound_behind : (t.behind m).Sound env v l ↔ m.Sound env v l ∧ t.Sound env v l :=
  List.forall_mem_cons

theorem bind_none (h : t.found = none) : t.bind f = t := by
  unfold bind
  rw [h]

section Some

variable {node : Node} {type : Ftype} (h : t.found = some (node, type))

include h

theorem bind_some : t.bind f =
    { f node type t.nest with met := t.met ++ (f node type t.nest).met } := by
  unfold bind
  rw [h]

theorem takes_bind : (t.bind f).takes = t.takes + (f node type t.nest).takes := by
  rw [bind_some h]
  unfold takes
  rw [List.map_append, List.sum_append]

theorem sound_bind : (t.bind f).Sound env v l ↔
    t.Sound env v l ∧ (f node type t.nest).Sound env v l := by
  rw [bind_some h]
  exact List.forall_mem_append

end Some

theorem Sound.of_bind (h : (t.bind f).Sound env v l) : t.Sound env v l := by
  rcases hfound : t.found with _ | ⟨node, type⟩
  · rwa [bind_none hfound] at h
  · exact ((sound_bind hfound).mp h).1

end Trace

/-! ## Kernel sources -/

/-- The partition of a kernel source, with `m` in the memory: the table of partitions is read
    to `kernel_dram`. -/
def partitionOf (env : Env) (k : KernelSource) (m : Ram) : Option Volume :=
  if k.partitionIndex = 0 then
    some ⟨partition env k (toU32 k.offsetBlocks512IfNoPartition), 0, 0⟩
  else
    let m := m.set (kernelDram env) (sectors env k 0 (512 * 4))
    if m.bytes (kernelDram env + 0x1fe) 2 ≠ [0x55, 0xaa] then none
    else
      let p := m.bytes (kernelDram env + toU32 (0x1be + 8 + 0x10 * (k.partitionIndex - 1))) 8
      some ⟨partition env k (u32At p 0), u32At p 4, 0⟩

/-- The entry of the table for the partitions 1 to 4. -/
theorem partitionOf_index {env : Env} {k : KernelSource} (hpos : 0 < k.partitionIndex)
    (hle : k.partitionIndex ≤ 4) (m : Ram) :
    partitionOf env k m =
      if ((sectors env k 0 (512 * 4)).drop 0x1fe).take 2 ≠ [0x55, 0xaa] then none
      else
        let p := ((sectors env k 0 (512 * 4)).drop
          (toU32 (0x1be + 8 + 0x10 * (k.partitionIndex - 1)))).take 8
        some ⟨partition env k (u32At p 0), u32At p 4, 0⟩ := by
  have hlen : (sectors env k 0 (512 * 4)).length = 2048 := by
    unfold sectors
    rw [List.length_map, List.length_range]
  have hplace : toU32 (0x1be + 8 + 0x10 * (k.partitionIndex - 1)) + 8 ≤ 2048 := by
    unfold toU32
    omega
  unfold partitionOf
  rw [if_neg (by omega)]
  dsimp only
  rw [Ram.bytes_set_inside (by omega) (by omega), Ram.bytes_set_inside (by omega) (by omega)]

namespace Volume

variable (v : Volume)

/-- What a mount finds in a partition: the volume with the size of its inodes, and its root
    directory. -/
def mount : Option (Volume × Node) :=
  match v.struct 2 0 0 sblockSize with
  | none => none
  | some sblock =>
    if u16At sblock 56 ≠ 0xef53 then none
    else
      let v := { v with inodeSize := ext2InodeSize sblock }
      (v.inode ⟨sblock, 2, [], true⟩ 2).map fun inode => (v, ⟨sblock, 2, inode, true⟩)

/-- What the lookup of a file takes from the pool behind the mount. -/
def lookupTakes (path : Option (List Byte)) : ℕ :=
  match v.mount with
  | none => 0
  | some (v, root) => (v.findFile root.log2.toNat root path).takes

end Volume

namespace KernelSource

variable (k : KernelSource)

/-- What it takes to open a file of the source: a mount and a lookup. -/
def fileTakes (v : Volume) (path : Option (List Byte)) : ℕ :=
  if k.filesystem = .ext2 then dataSize + 4 + v.lookupTakes path else 0

/-- What the files of the source take: the kernel is opened three times at most, and the others
    once. -/
def filesTake (board : BoardApi) (v : Volume) : ℕ :=
  k.fileTakes v board.noboot + k.fileTakes v board.append + 3 * k.fileTakes v k.filepath +
    k.fileTakes v k.initramfsFilepath

/-- What the two tables of the block map take. -/
def tablesTake (v : Volume) : ℕ :=
  if k.filesystem = .ext2 then
    match v.mount with
    | none => 0
    | some (_, root) => 2 * (512 * 2 ^ root.log2.toNat + 4)
  else 0

/-- What the source takes from the pool. -/
def takes (board : BoardApi) (v : Volume) : ℕ := k.filesTake board v + k.tablesTake v

/-- The blocks of the volume have a size of ext2's, and what is met on the way to the files of
    the source is as the file system lays it out. -/
def Sound (env : Env) (v : Volume) : Prop :=
  k.filesystem = .ext2 → ∀ w root, v.mount = some (w, root) →
    root.Blocks root.log2.toNat ∧
    ∀ path ∈ [env.board.noboot, env.board.append, k.filepath, k.initramfsFilepath],
      (w.findFile root.log2.toNat root path).Sound env w root.log2.toNat

end KernelSource

/-! ## Nodes -/

theorem Node.bare_sblock (node : Node) : node.bare.sblock = node.sblock := by
  unfold Node.bare
  split_ifs <;> rfl

theorem Node.bare_of_read {node : Node} (h : node.inodeRead = true) : node.bare = node := if_pos h

/-- The inode that has not been read does not matter. -/
theorem Volume.loaded_bare (v : Volume) (node : Node) : v.loaded node.bare = v.loaded node := by
  unfold Volume.loaded Node.bare
  by_cases hread : node.inodeRead = true
  · rw [if_pos hread]
  · rw [if_neg hread, if_neg hread, if_neg hread]
    rfl

theorem Volume.loaded_sblock {v : Volume} {node dir : Node} (h : v.loaded node = some dir) :
    dir.sblock = node.sblock := by
  unfold Volume.loaded at h
  split_ifs at h
  · cases h
    rfl
  · obtain ⟨inode, -, rfl⟩ := Option.map_eq_some_iff.mp h
    rfl

theorem Volume.entryAt_sblock {v : Volume} {dir node : Node} {l p : ℕ} {type : Ftype}
    (h : v.entryAt dir l p = some (node, type)) : node.sblock = dir.sblock := by
  unfold Volume.entryAt at h
  split_ifs at h
  · cases h
    rfl
  · obtain ⟨inode, -, heq⟩ := Option.map_eq_some_iff.mp h
    cases heq
    rfl

/-- What is found in a directory is on the same volume. -/
theorem Volume.lookup_sblock (v : Volume) {dir node : Node} {l : ℕ} {name : List Byte}
    {type : Ftype} (h : (v.lookup dir l name).2 = some (node, type)) :
    node.sblock = dir.sblock := by
  have hscan : ∀ fuel p, (v.scanFrom dir l name fuel p).2 = some (node, type) →
      node.sblock = dir.sblock := by
    intro fuel
    induction fuel with
    | zero => exact fun p h => by cases h
    | succ fuel ih =>
      intro p h
      unfold Volume.scanFrom at h
      by_cases hend : dir.size ≤ p
      · rw [if_pos hend] at h
        cases h
      rw [if_neg hend] at h
      split_ifs at h
      · exact ih _ h
      · exact Volume.entryAt_sblock h
      · exact ih _ h
  exact hscan _ _ h

end SmartQ.Qi
