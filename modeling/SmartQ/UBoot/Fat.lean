import SmartQ.Lib.Prog
import SmartQ.Lib.CInt

/-!
# The FAT reader of U-Boot

Model of `u-boot/fs/fat/fat.c` and `u-boot/include/fat.h` as this board builds them
(`CONFIG_SUPPORT_VFAT`, `CONFIG_HHTECH_MINIPMP`): the three cluster buffers are
globals on the heap. Strings are lists without their terminator. An access outside a
buffer ends a run, and so does a loop that reaches its bound. Locals that are not
initialised are zero.
-/

namespace SmartQ.UBoot.Fat

open SmartQ.Lib

/-! ## State -/

/-- Memory contents by offset, of a buffer or of a part of the caller's memory. -/
abbrev Mem := ℕ → Byte

/-- A block on the heap, with the size it was asked for and its contents. -/
structure Block where
  addr : ℕ
  size : ℕ
  byte : Mem

/-- The cluster buffers `do_fat_read_block`, `get_vfatname_block` and
    `get_dentfromdir_block`. -/
inductive Work
  | doFatRead
  | getVfatname
  | getDentfromdir
  deriving DecidableEq, Repr

/-- `malloc` and `free` on the heap `H`. A block comes with what is left in it. -/
structure Allocator (H : Type) where
  malloc : H → ℕ → Option (ℕ × Mem) × H
  free : H → ℕ → H

/-- The device `cur_dev` and the start of its partition: the result of the `n`-th
    `block_read` and what it leaves in its destination. -/
structure BlockDev where
  partOffset : ℕ
  read : (n start count : ℕ) → Mem → ℤ × Mem

/-- A cluster buffer as the destination of a read: the size of the block it points to
    and the bytes written. -/
structure Use where
  work : Work
  held : Option ℕ
  need : ℕ
  deriving DecidableEq, Repr

/-- A line of a directory listing. -/
inductive Line
  | file (size : ℕ) (name : List Byte)
  | dir (name : List Byte)
  | total (files dirs : ℕ)
  deriving DecidableEq, Repr

/-- How a run ends that does not return: a cluster read into a buffer that is too small
    or missing, another access outside its buffer, or the bound on a loop. -/
inductive Fault
  | overflow
  | wild
  | unfinished
  deriving DecidableEq, Repr

/-- The globals, the FAT buffer of `fsdata`, and what the caller's buffer receives. -/
structure St (H : Type) where
  heap : H
  block : Work → Option Block
  clock : ℕ
  fatbuf : Mem
  fatbufnum : ℤ
  buffer : Mem
  uses : List Use
  out : List Line

/-- A fragment of the FAT reader. -/
abbrev FatM (H : Type) := Prog (St H) Fault

variable {H : Type}

/-- `fsdata` but for its FAT buffer. -/
structure Fsdata where
  fatsize : ℕ
  fatlength : ℕ
  fatSect : ℕ
  rootdirSect : ℕ
  clustSize : ℕ
  dataBegin : ℤ
  deriving DecidableEq, Repr

/-- `clust_size * SECTOR_SIZE`: the bytes of a cluster, with sectors of 512 bytes whatever the
    volume says. -/
def Fsdata.clustBytes (mydata : Fsdata) : ℕ := 512 * mydata.clustSize

/-! ## Memory -/

/-- `new` laid over the first `n` bytes of `old`. -/
def laid (n : ℕ) (new old : Mem) : Mem := fun i => if i < n then new i else old i

/-- `memcpy(dst + d, src + s, n)`. -/
def memcpy (dst : Mem) (d : ℕ) (src : Mem) (s n : ℕ) : Mem := fun i =>
  if d ≤ i ∧ i < d + n then src (s + (i - d)) else dst i

/-- The bytes at `o, …, o + n - 1`. -/
def bytesAt (m : Mem) (o n : ℕ) : List Byte := (List.range n).map fun i => m (o + i)

/-- `FAT2CPU16` of the two bytes at `o`, the low one first. -/
def mem16 (m : Mem) (o : ℕ) : ℕ := (m o).toNat + (m (o + 1)).toNat * 2 ^ 8

/-- `FAT2CPU32` of the four bytes at `o`, the lowest one first. -/
def mem32 (m : Mem) (o : ℕ) : ℕ := mem16 m o + mem16 m (o + 2) * 2 ^ 16

/-! ## Reading the card -/

section Reader

variable (dev : BlockDev)

/-- The bytes that `mmc_read_block` (`vfat_hs_mmc.c`, lines 972–1026) stores when it is asked
    for `getsize` blocks: it sends `CMD17`, the read of a single block, for no blocks too. -/
def transferred (getsize : ℕ) : ℕ := 512 * max getsize 1

theorem transferred_of_pos {getsize : ℕ} (h : 0 < getsize) : transferred getsize = 512 * getsize := by
  rw [transferred, max_eq_left h]

theorem le_transferred (getsize : ℕ) : 512 * getsize ≤ transferred getsize :=
  Nat.mul_le_mul_left _ (le_max_left _ _)

/-- `disk_read` (lines 53–62): its result and the destination, which held `old`. -/
def diskRead (startblock getsize : ℕ) (old : Mem) : FatM H (ℤ × Mem) :=
  Prog.step fun s =>
    let r := dev.read s.clock ((startblock + dev.partOffset) % 2 ^ 32) getsize old
    ((r.1, laid (transferred getsize) r.2 old), { s with clock := s.clock + 1 })

/-- `disk_read` into a cluster buffer. The log has the bytes that the cluster has; a volume
    whose clusters have no sectors still stores one. -/
def workRead (w : Work) (startblock getsize : ℕ) : FatM H ℤ := do
  let s ← Prog.get
  Prog.modify fun s => { s with
    uses := s.uses ++ [⟨w, (s.block w).map Block.size, 512 * getsize⟩] }
  match s.block w with
  | none => Prog.exit .overflow
  | some b => do
    Prog.exitIf (b.size < transferred getsize) .overflow
    let (ret, mem) ← diskRead dev startblock getsize b.byte
    Prog.modify fun s => { s with
      block := Function.update s.block w (some { b with byte := mem }) }
    pure ret

variable (mydata : Fsdata)

/-- `FAT32BUFSIZE`, `FAT16BUFSIZE` and `FAT12BUFSIZE`. -/
def fatBufSize (fatsize : ℕ) : ℕ := if fatsize = 32 then 768 else if fatsize = 16 then 1536 else 2048

/-- The entry at `offset` of a FAT buffer (lines 240–276). -/
def fatEntry (fatsize : ℕ) (fatbuf : Mem) (offset : ℕ) : ℕ :=
  let off16 := offset * 3 / 4
  if fatsize = 32 then mem32 fatbuf (4 * offset)
  else if fatsize = 16 then mem16 fatbuf (2 * offset)
  else match offset % 4 with
    | 0 => mem16 fatbuf (2 * off16) % 2 ^ 12
    | 1 => mem16 fatbuf (2 * (off16 + 1)) % 2 ^ 8 * 2 ^ 4 + mem16 fatbuf (2 * off16) / 2 ^ 12
    | 2 => mem16 fatbuf (2 * (off16 + 1)) % 2 ^ 4 * 2 ^ 8 + mem16 fatbuf (2 * off16) / 2 ^ 8
    | _ => mem16 fatbuf (2 * off16) / 2 ^ 4

/-- The refill of the FAT buffer in `get_fatent` (lines 221–237): whether it holds
    buffer `bufnum`. -/
def loadFat (bufnum : ℕ) : FatM H Bool := do
  let s ← Prog.get
  if (bufnum : ℤ) = s.fatbufnum then pure true else do
    -- `fatlength` is in bytes here, so only an empty FAT shortens the read
    let getsize := min 6 (mydata.fatlength * 512)
    let (ret, mem) ← diskRead dev (bufnum * 6 + mydata.fatSect) getsize s.fatbuf
    Prog.modify fun s => { s with fatbuf := mem }
    if ret < 0 then pure false else do
      Prog.modify fun s => { s with fatbufnum := bufnum }
      pure true

/-- `get_fatent` (lines 199–281): entry `entry` of the FAT, 0 on failure. -/
def getFatent (entry : ℕ) : FatM H ℕ := do
  if mydata.fatsize ≠ 32 ∧ mydata.fatsize ≠ 16 ∧ mydata.fatsize ≠ 12 then pure 0 else do
    let bufnum := entry / fatBufSize mydata.fatsize
    let ok ← loadFat dev mydata bufnum
    let s ← Prog.get
    pure (if ok then
      fatEntry mydata.fatsize s.fatbuf (entry - bufnum * fatBufSize mydata.fatsize) else 0)

/-- The first sector `get_cluster` reads for a cluster (lines 294–298). -/
def startSect (clustnum : ℕ) : ℕ :=
  if clustnum > 0 then toU32 (mydata.dataBegin + clustnum * mydata.clustSize)
  else mydata.rootdirSect

/-- `get_cluster` (lines 288–319) of a whole cluster into a cluster buffer. -/
def getWorkCluster (clustnum : ℕ) (w : Work) : FatM H Bool := do
  let ret ← workRead dev w (startSect mydata clustnum) mydata.clustSize
  pure (decide (0 ≤ ret))

/-- `get_cluster` (lines 288–319) into the caller's buffer at `off`. Its first read goes there
    even if no whole sector is asked for. -/
def getCluster (clustnum off size : ℕ) : FatM H Bool := do
  let start := startSect mydata clustnum
  let s ← Prog.get
  let (ret, mem) ← diskRead dev start (size / 512) fun i => s.buffer (off + i)
  Prog.modify fun s => { s with buffer := memcpy s.buffer off mem 0 (transferred (size / 512)) }
  if ret < 0 then pure false
  else if size % 512 ≠ 0 then do
    let idx := size / 512
    let (ret, tmpbuf) ← diskRead dev ((start + idx) % 2 ^ 32) 1 fun _ => 0
    if ret < 0 then pure false else do
      Prog.modify fun s => { s with
        buffer := memcpy s.buffer (off + 512 * idx) tmpbuf 0 (size % 512) }
      pure true
  else pure true

/-! ## Directory entries -/

end Reader

/-- The fields of `dir_entry` the reader looks at. -/
structure DirEntry where
  name : List Byte
  ext : List Byte
  attr : ℕ
  starthi : ℕ
  start : ℕ
  size : ℕ
  deriving DecidableEq, Repr

/-- The entry at offset `o`. -/
def dentAt (m : Mem) (o : ℕ) : DirEntry where
  name := bytesAt m o 8
  ext := bytesAt m (o + 8) 3
  attr := (m (o + 11)).toNat
  starthi := mem16 m (o + 20)
  start := mem16 m (o + 26)
  size := mem32 m (o + 28)

/-- `ATTR_VOLUME`: the entry is a label, or a slot of a long name. -/
def attrVolume : ℕ := 8

/-- `ATTR_DIR`: the entry is a directory. -/
def attrDir : ℕ := 16

/-- `ATTR_VFAT`: read-only, hidden, system and volume. -/
def attrVfat : ℕ := 15

/-- `DELETED_FLAG`: the first byte of the name of an entry that is free again. -/
def deletedFlag : Byte := 0xe5

/-- `LAST_LONG_ENTRY_MASK`: set in the number of the slot with the end of a long name. -/
def lastLongEntryMask : ℕ := 0x40

/-- `dentptr->name[0]`, which is 0 behind the last entry and `DELETED_FLAG` in one that is gone.
    -/
def DirEntry.name0 (d : DirEntry) : Byte := byteAt d.name 0

/-- `dentptr->attr & mask`: whether the entry has one of the attributes. -/
def DirEntry.has (d : DirEntry) (mask : ℕ) : Bool := d.attr &&& mask ≠ 0

/-- `START(dent)`: the first cluster of a file, whose high half only a FAT32 has. -/
def DirEntry.first (d : DirEntry) (fatsize : ℕ) : ℕ :=
  d.start + if fatsize ≠ 32 then 0 else d.starthi * 2 ^ 16

/-- `TOLOWER`: a capital letter of ASCII becomes a small one, any other byte stays. -/
def tolower (c : Byte) : Byte := if 65 ≤ c ∧ c ≤ 90 then c + 32 else c

/-- `downcase` (lines 37–44): every byte of a name through `TOLOWER`. -/
def downcase (str : List Byte) : List Byte := str.map tolower

/-- The last steps of `get_name` and `get_vfatname`. -/
def finishName (str : List Byte) : List Byte :=
  downcase <| match str with
    | [] => []
    | c :: rest => if c = deletedFlag then [] else if c = 0x05 then 0xe5 :: rest else c :: rest

/-- The characters before the first zero or blank. -/
def field (str : List Byte) : List Byte := str.takeWhile fun c => c ≠ 0 ∧ c ≠ 32

/-- `get_name` (lines 171–194): the short name of an entry, in small letters, with a dot if it
    has an extension. -/
def getName (d : DirEntry) : List Byte :=
  finishName <|
    if byteAt d.ext 0 ≠ 0 ∧ byteAt d.ext 0 ≠ 32 then field d.name ++ 46 :: field d.ext
    else field d.name

/-- `mkcksum` (lines 518–528): the checksum of a short name that the slots of its long name
    carry. -/
def mkcksum (d : DirEntry) : ℕ :=
  (d.name ++ d.ext).foldl (fun ret c => (ret % 2 * 2 ^ 7 + ret / 2 + c.toNat) % 2 ^ 8) 0

/-! ## Long names -/

/-- The sequence number of a slot without its last-slot bit. -/
def slotId (m : Mem) (o : ℕ) : ℕ :=
  let id := (m o).toNat
  if id &&& lastLongEntryMask ≠ 0 then id - lastLongEntryMask else id

/-- The slot has the bit of the last one of a name, which stands first in the directory. -/
def slotIsLast (m : Mem) (o : ℕ) : Bool := (m o).toNat &&& lastLongEntryMask ≠ 0

/-- The low bytes of the 13 characters of a slot. -/
def slotChars (m : Mem) (o : ℕ) : List Byte :=
  [1, 3, 5, 7, 9, 14, 16, 18, 20, 22, 24, 28, 30].map fun j => m (o + j)

/-- `slot2str` (lines 409–432): whether the terminator was found, and the name so far. -/
def slot2str (m : Mem) (o : ℕ) (lName : List Byte) : Bool × List Byte :=
  (decide (0 ∈ slotChars m o), lName ++ (slotChars m o).takeWhile (· ≠ 0))

/-- The loop over the slots of a name (lines 457–463): where it stops, `none` if a
    slot is out of sequence. -/
def slotRun (m : Mem) (nextclust : ℕ) : (counter o : ℕ) → Option ℕ
  | 0, o => some o
  | counter + 1, o =>
    if o < nextclust then
      if slotId m o = counter + 1 then slotRun m nextclust counter (o + 32) else none
    else some o

/-- The loop over `get_vfatname_block` (lines 480–482), `n` slots from its end. -/
def slotEnd (m : Mem) : (n o : ℕ) → Option ℕ
  | 0, _ => none
  | n + 1, o => if (m o).toNat ≤ 1 then some o else slotEnd m n (o + 32)

/-- The loop down to the start of `get_vfatname_block` (lines 485–488). -/
def slotsDown (m : Mem) : (k : ℕ) → List Byte → List Byte
  | 0, lName => lName
  | k + 1, lName => slotsDown m k (slot2str m (32 * k) lName).2

/-- The loop back to the first slot (lines 494–497) from slot `k`; `none` below the
    buffer. -/
def slotsBack (m : Mem) : (k : ℕ) → List Byte → Option (List Byte)
  | 0, _ => none
  | k + 1, lName =>
    let (found, lName) := slot2str m (32 * k) lName
    if found || slotIsLast m (32 * k) then some lName else slotsBack m k lName

section Reader

variable (dev : BlockDev) (mydata : Fsdata)

/-- The contents of a cluster buffer. -/
def contents (w : Work) : FatM H Block := do
  let s ← Prog.get
  match s.block w with
  | none => Prog.exit .wild
  | some b => pure b

/-- The end of `get_vfatname` (lines 494–506): the name goes on from slot `k` down, and
    the real entry replaces the slot at `retdent`. -/
def vfatnameEnd (w : Work) (retdent k : ℕ) (real : Mem) (realdent : ℕ) (lName : List Byte) :
    FatM H (List Byte) := do
  let b ← contents w
  match slotsBack b.byte k lName with
  | none => Prog.exit .wild
  | some lName => do
    Prog.exitIf (255 < lName.length) .wild
    Prog.modify fun s => { s with
      block := Function.update s.block w
        (some { b with byte := memcpy b.byte retdent real realdent 32 }) }
    pure (finishName lName)

/-- `get_vfatname` (lines 447–509) of the slot at `retdent` in the cluster in buffer
    `w`: the long name, empty if it fails. -/
def getVfatname (curclust : ℕ) (w : Work) (retdent : ℕ) : FatM H (List Byte) := do
  let b ← contents w
  let nextclust := mydata.clustBytes
  match slotRun b.byte nextclust (slotId b.byte retdent) retdent with
  | none => pure []
  | some slotptr =>
    if slotptr < nextclust then vfatnameEnd w retdent (slotptr / 32) b.byte slotptr []
    else do
      let curclust ← getFatent dev mydata curclust
      if int32 curclust ≤ 1 ∨ 0xfffffff0 ≤ curclust then pure [] else do
        let ok ← getWorkCluster dev mydata curclust .getVfatname
        if ok then do
          let b2 ← contents .getVfatname
          match slotEnd b2.byte (b2.size / 32) 0 with
          | none => Prog.exit .wild
          | some slotptr2 => do
            Prog.exitIf (b2.size < slotptr2 + 64) .wild
            -- the slot before `slotptr` is stepped over twice
            vfatnameEnd w retdent (slotptr / 32 - 1) b2.byte (slotptr2 + 32)
              (slotsDown b2.byte (slotptr2 / 32 + 1) [])
        else pure []

/-! ## Scanning a directory -/

/-- The counters of a scan, which a listing prints at its end, and the checksum of the last long
    name. -/
structure Tally where
  prevcksum : ℕ
  files : ℕ
  dirs : ℕ

/-- The counters in front of a scan; no checksum of a slot is remembered. -/
def Tally.zero : Tally := ⟨0xffff, 0, 0⟩

/-- What one entry of a directory leads to. -/
inductive Scan
  | next (t : Tally)
  | empty
  | wrongType
  | found (dent : DirEntry)

/-- `printf`: a line of a listing goes to the console. -/
def say (l : Line) : FatM H Unit := Prog.modify fun s => { s with out := s.out ++ [l] }

/-- The listing of one entry under `name`; a name is needed for a file, and for a
    directory if `dirNamed`. -/
def lsEntry (dent : DirEntry) (name : List Byte) (dirNamed : Bool) (t : Tally) : FatM H Tally :=
  if dent.has attrDir then
    if dirNamed ∧ name = [] then pure t
    else do
      say (.dir name)
      pure { t with dirs := t.dirs + 1 }
  else if name ≠ [] then do
    say (.file dent.size name)
    pure { t with files := t.files + 1 }
  else pure t

/-- The comparison with the name looked for (lines 642–648, 924–930). -/
def matchName (filename : List Byte) (dent : DirEntry) (lName : List Byte) : Bool :=
  filename = getName dent || filename = lName

/-- The end of the loop body of `get_dentfromdir` (lines 607–659). -/
def dirEntryEnd (filename : List Byte) (dols : Bool) (dent : DirEntry) (lName : List Byte)
    (t : Tally) : FatM H Scan :=
  if dent.name0 = 0 ∧ byteAt dent.ext 0 = 0 then do
    Prog.doIf dols (say (.total t.files t.dirs))
    pure .empty
  else if dols then
    if mkcksum dent = t.prevcksum then pure (.next t)
    else do
      let t ← lsEntry dent (getName dent) false t
      pure (.next t)
  else if matchName filename dent lName then pure (.found dent)
  else pure (.next t)

/-- One entry of the loop of `get_dentfromdir` (lines 559–659). -/
def dirEntryStep (curclust : ℕ) (filename : List Byte) (dols : Bool) (i : ℕ) (t : Tally) :
    FatM H Scan := do
  let b ← contents .getDentfromdir
  Prog.exitIf (b.size < 32 * i + 32) .wild
  let dent := dentAt b.byte (32 * i)
  if dent.name0 = deletedFlag then pure (.next t)
  else if dent.has attrVolume then
    if dent.has attrVfat ∧ slotIsLast b.byte (32 * i) then do
      let t := { t with prevcksum := (b.byte (32 * i + 13)).toNat }
      let lName ← getVfatname dev mydata curclust .getDentfromdir (32 * i)
      let b ← contents .getDentfromdir
      let dent := dentAt b.byte (32 * i)
      if dols then do
        let t ← lsEntry dent lName false t
        pure (.next t)
      else dirEntryEnd filename dols dent lName t
    else pure (.next t)
  else dirEntryEnd filename dols dent [] t

/-- The `for` loop of `get_dentfromdir`, `n` entries left. -/
def dirEntries (curclust : ℕ) (filename : List Byte) (dols : Bool) :
    (n i : ℕ) → Tally → FatM H Scan
  | 0, _, t => pure (.next t)
  | n + 1, i, t => do
    match ← dirEntryStep dev mydata curclust filename dols i t with
    | .next t => dirEntries curclust filename dols n (i + 1) t
    | r => pure r

/-- `get_dentfromdir` (lines 537–675); `none` for `NULL`. -/
def getDentfromdir (filename : List Byte) (dols : Bool) :
    (fuel curclust : ℕ) → Tally → FatM H (Option DirEntry)
  | 0, _, _ => Prog.exit .unfinished
  | fuel + 1, curclust, t => do
    let ok ← getWorkCluster dev mydata curclust .getDentfromdir
    if ok then
      match ← dirEntries dev mydata curclust filename dols (mydata.clustBytes / 32) 0 t with
      | .found dent => pure (some dent)
      | .next t => do
        let curclust ← getFatent dev mydata curclust
        if curclust ≤ 1 ∨ 0xfff0 ≤ curclust then pure none
        else getDentfromdir filename dols fuel curclust t
      | _ => pure none
    else pure none

/-- The end of the loop body of `do_fat_read` (lines 924–937). -/
def rootEntryEnd (fnamecopy : List Byte) (isdir : Bool) (dent : DirEntry) (lName : List Byte)
    (t : Tally) : Scan :=
  if matchName fnamecopy dent lName then
    if isdir ∧ ¬ dent.has attrDir then .wrongType else .found dent
  else .next t

/-- One entry of the loop of `do_fat_read` (lines 855–937). `dols == LS_ROOT` is
    `lsRoot`. -/
def rootEntryStep (fnamecopy : List Byte) (isdir lsRoot : Bool) (i : ℕ) (t : Tally) :
    FatM H Scan := do
  let b ← contents .doFatRead
  Prog.exitIf (b.size < 32 * i + 32) .wild
  let dent := dentAt b.byte (32 * i)
  if dent.has attrVolume then
    if dent.has attrVfat ∧ slotIsLast b.byte (32 * i) then do
      let t := { t with prevcksum := (b.byte (32 * i + 13)).toNat }
      let lName ← getVfatname dev mydata 0 .doFatRead (32 * i)
      let b ← contents .doFatRead
      let dent := dentAt b.byte (32 * i)
      if lsRoot then do
        let t ← lsEntry dent lName false t
        pure (.next t)
      else pure (rootEntryEnd fnamecopy isdir dent lName t)
    else pure (.next t)
  else if dent.name0 = 0 then do
    Prog.doIf lsRoot (say (.total t.files t.dirs))
    pure .empty
  else if lsRoot then
    if mkcksum dent = t.prevcksum then pure (.next t)
    else do
      let t ← lsEntry dent (getName dent) true t
      pure (.next t)
  else pure (rootEntryEnd fnamecopy isdir dent [] t)

/-- The `for` loop of `do_fat_read`, `n` entries left. -/
def rootEntries (fnamecopy : List Byte) (isdir lsRoot : Bool) : (n i : ℕ) → Tally → FatM H Scan
  | 0, _, t => pure (.next t)
  | n + 1, i, t => do
    match ← rootEntryStep dev mydata fnamecopy isdir lsRoot i t with
    | .next t => rootEntries fnamecopy isdir lsRoot n (i + 1) t
    | r => pure r

/-- The root directory scan of `do_fat_read` (lines 846–939): it reads a cluster's
    sectors at `cursect`, looks at `DIRENTSPERBLOCK` entries and moves on one sector.
    The entry found, or the value returned. -/
def rootScan (fnamecopy : List Byte) (isdir lsRoot : Bool) :
    (fuel cursect : ℕ) → Tally → FatM H (Except ℤ DirEntry)
  | 0, _, _ => Prog.exit .unfinished
  | fuel + 1, cursect, t => do
    let ret ← workRead dev .doFatRead cursect mydata.clustSize
    if ret < 0 then pure (.error (-1)) else do
      match ← rootEntries dev mydata fnamecopy isdir lsRoot 16 0 t with
      | .found dent => pure (.ok dent)
      | .next t => rootScan fnamecopy isdir lsRoot fuel (cursect + 1) t
      | .empty => pure (.error (if lsRoot then 0 else -1))
      | .wrongType => pure (.error (-1))

/-! ## Paths -/

end Reader

/-- `ISDIRDELIM`: a slash or a backslash stands between the parts of a path. -/
def isDirDelim (c : Byte) : Bool := c = 47 || c = 92

/-- The loops that step over delimiters. -/
def dropDelims (str : List Byte) : List Byte := str.dropWhile isDirDelim

/-- What is before the first delimiter. -/
def beforeDelim (str : List Byte) : List Byte := str.takeWhile (!isDirDelim ·)

/-- What follows the first delimiter and those right behind it; `none` if there is no
    delimiter. -/
def afterDelim (str : List Byte) : Option (List Byte) :=
  match str.dropWhile (!isDirDelim ·) with
  | [] => none
  | _ :: rest => some (dropDelims rest)

section Reader

variable (dev : BlockDev) (mydata : Fsdata)

/-- The loop over the directories of the path (lines 942–981). -/
def walk (dirFuel : ℕ) (dols : Bool) :
    (fuel : ℕ) → (subname : List Byte) → (firsttime : Bool) → DirEntry → FatM H (Except ℤ DirEntry)
  | 0, _, _, _ => Prog.exit .unfinished
  | fuel + 1, subname, firsttime, dent => do
    let name := beforeDelim subname
    let next := afterDelim subname
    let isdir := next.isSome || (dols && firsttime)
    let firsttime := match next with
      | some rest => firsttime && !(dols && rest.isEmpty)
      | none => false
    match ← getDentfromdir dev mydata name (!isdir && dols) dirFuel (dent.first mydata.fatsize)
        .zero with
    | none => pure (.error (if dols && !isdir then 0 else -1))
    | some dent =>
      match next with
      | some rest =>
        if ¬ dent.has attrDir then pure (.error (-1))
        else walk dirFuel dols fuel rest firsttime dent
      | none => if isdir then walk dirFuel dols fuel subname firsttime dent else pure (.ok dent)

/-- The lookup of `do_fat_read` (lines 824–981): the entry whose contents are read, or
    the value returned. `dols` is set for a listing. -/
def lookup (fuel : ℕ) (filename : List Byte) (dols : Bool) : FatM H (Except ℤ DirEntry) := do
  let filename := dropDelims filename
  Prog.exitIf (2047 < filename.length) .wild
  let fnamecopy := downcase filename
  if fnamecopy = [] then
    if ¬ dols then pure (.error (-1))
    else rootScan dev mydata [] false true fuel mydata.rootdirSect .zero
  else do
    let isdir := (afterDelim fnamecopy).isSome || dols
    match ← rootScan dev mydata (beforeDelim fnamecopy) isdir false fuel mydata.rootdirSect
        .zero with
    | .error ret => pure (.error ret)
    | .ok dent =>
      if isdir then walk dev mydata fuel dols fuel ((afterDelim fnamecopy).getD []) true dent
      else pure (.ok dent)

/-! ## File contents -/

/-- How the search for consecutive clusters ends. -/
inductive Run
  | whole (endclust actsize : ℕ)
  | getit (endclust actsize : ℕ)
  | bad

/-- The inner loop of `get_contents` (lines 350–361). -/
def consecutive (filesize : ℕ) : (fuel endclust actsize : ℕ) → FatM H Run
  | 0, _, _ => Prog.exit .unfinished
  | fuel + 1, endclust, actsize =>
    if actsize < filesize then do
      let newclust ← getFatent dev mydata endclust
      if toU32 ((newclust : ℤ) - 1) ≠ endclust then pure (.getit endclust actsize)
      else if newclust ≤ 1 ∨ 0xfffffff0 ≤ newclust then pure .bad
      else consecutive filesize fuel newclust ((actsize + mydata.clustBytes) % 2 ^ 32)
    else pure (.whole endclust actsize)

/-- The outer loop of `get_contents` (lines 348–399). -/
def contentsLoop (runFuel : ℕ) : (fuel curclust filesize off gotsize : ℕ) → FatM H ℤ
  | 0, _, _, _, _ => Prog.exit .unfinished
  | fuel + 1, curclust, filesize, off, gotsize => do
    match ← consecutive dev mydata filesize runFuel curclust mydata.clustBytes with
    | .bad => pure (int32 gotsize)
    | .whole endclust actsize => do
      let actsize := toU32 ((actsize : ℤ) - mydata.clustBytes)
      let ok ← getCluster dev mydata curclust off actsize
      if ok then do
        let rest := toU32 ((filesize : ℤ) - actsize)
        let ok ← getCluster dev mydata endclust (off + actsize) rest
        pure (if ok then int32 (gotsize + actsize + rest) else -1)
      else pure (-1)
    | .getit endclust actsize => do
      let ok ← getCluster dev mydata curclust off actsize
      if ok then do
        let gotsize := gotsize + actsize
        let curclust ← getFatent dev mydata endclust
        if curclust ≤ 1 ∨ 0xfffffff0 ≤ curclust then pure (int32 gotsize)
        else contentsLoop runFuel fuel curclust (filesize - actsize) (off + actsize) gotsize
      else pure (-1)

/-- `get_contents` (lines 327–400): at most `maxsize` bytes of the file, and all of it if that
    is 0. -/
def getContents (fuel : ℕ) (dent : DirEntry) (maxsize : ℕ) : FatM H ℤ :=
  contentsLoop dev mydata fuel fuel (dent.first mydata.fatsize)
    (if 0 < maxsize ∧ maxsize < dent.size then maxsize else dent.size) 0 0

end Reader

/-! ## Volumes -/

/-- The fields of `boot_sector` the reader uses. -/
structure BootSector where
  clusterSize : ℕ
  reserved : ℕ
  fats : ℕ
  dirEntries : ℕ
  fatLength : ℕ
  fat32Length : ℕ
  deriving DecidableEq, Repr

/-- The fields of a boot sector at their places; the others are not looked at behind the check. -/
def bootSector (m : Mem) : BootSector where
  clusterSize := (m 13).toNat
  reserved := mem16 m 14
  fats := (m 16).toNat
  dirEntries := mem16 m 17
  fatLength := mem16 m 22
  fat32Length := mem32 m 36

/-- `FAT12_SIGN`, `FAT16_SIGN` and `FAT32_SIGN` by the size of an entry: `"FAT"`, the
    two digits and three blanks. -/
def sign (d1 d0 : Byte) : List Byte := [70, 65, 84, d1, d0, 32, 32, 32]

/-- `read_bootsectandvi` (lines 681–737) on the block read: the boot sector and
    `*fatsize`, or an error. -/
def bootSectAndVi (m : Mem) : Option (BootSector × ℕ) :=
  let bs := bootSector m
  if bs.fatLength = 0 then
    if bytesAt m 82 8 = sign 51 50 then some (bs, 32) else none
  else if bytesAt m 54 8 = sign 49 50 then some (bs, 12)
  else if bytesAt m 54 8 = sign 49 54 then some (bs, 16)
  else none

/-- The part of `do_fat_read` that fills in `fsdata` (lines 774–796). -/
def fsdata (bs : BootSector) (fatsize : ℕ) : Fsdata :=
  let fatlength := (if fatsize = 32 then bs.fat32Length else bs.fatLength) % 2 ^ 16
  let rootdirSect := (bs.reserved + fatlength * bs.fats) % 2 ^ 16
  let rootdirSize := if fatsize = 32 then 0 else bs.dirEntries * 32 / 512
  { fatsize := fatsize
    fatlength := fatlength
    fatSect := bs.reserved
    rootdirSect := rootdirSect
    clustSize := bs.clusterSize
    dataBegin := int16 (rootdirSect + rootdirSize - bs.clusterSize * 2) }

/-- `read_bootsectandvi`: the first sector of the partition, and the width of its FAT by the
    name in it. -/
def readBootsectandvi (dev : BlockDev) : FatM H (Option (BootSector × ℕ)) := do
  let (ret, mem) ← diskRead dev 0 1 fun _ => 0
  if ret < 0 then pure none else pure (bootSectAndVi mem)

variable (al : Allocator H)

/-- `if (!ptr) ptr = malloc(n);`: a cluster buffer is taken from the heap once, and kept. -/
def ensure (n : ℕ) (w : Work) : FatM H Unit :=
  Prog.modify fun s =>
    match s.block w with
    | some _ => s
    | none =>
      let r := al.malloc s.heap n
      { s with
        heap := r.2, block := Function.update s.block w (r.1.map fun p => ⟨p.1, n, p.2⟩) }

/-- The allocation of the cluster buffers (lines 806–811). -/
def ensureBlocks (n : ℕ) : FatM H Unit := do
  ensure al n .doFatRead
  ensure al n .getVfatname
  ensure al n .getDentfromdir

/-- `if (ptr) free(ptr), ptr = NULL;` -/
def release (w : Work) : FatM H Unit :=
  Prog.modify fun s =>
    match s.block w with
    | none => s
    | some b => { s with heap := al.free s.heap b.addr, block := Function.update s.block w none }

/-- `free_complain_memory` (lines 1034–1042): the cluster buffers that are there go back to the
    heap. -/
def freeComplainMemory : FatM H Unit := do
  release al .doFatRead
  release al .getVfatname
  release al .getDentfromdir

/-- The body of `do_fat_read` behind the allocation (lines 824–991). -/
def fatBody (dev : BlockDev) (mydata : Fsdata) (fuel : ℕ) (filename : List Byte) (maxsize : ℕ)
    (dols : Bool) : FatM H ℤ := do
  match ← lookup dev mydata fuel filename dols with
  | .error ret => pure ret
  | .ok dent => getContents dev mydata fuel dent maxsize

/-- `do_fat_read` (lines 746–992): the volume is looked at, the path is followed, and its end is
    listed or read. -/
def doFatRead (dev : BlockDev) (fuel : ℕ) (filename : List Byte) (maxsize : ℕ) (dols : Bool) :
    FatM H ℤ := do
  match ← readBootsectandvi dev with
  | none => pure (-1)
  | some (bs, fatsize) => do
    let mydata := fsdata bs fatsize
    Prog.modify fun s => { s with fatbufnum := -1 }
    ensureBlocks al mydata.clustBytes
    fatBody dev mydata fuel filename maxsize dols

/-- `file_fat_ls` (lines 1044–1048): the listing of a directory, which keeps its cluster
    buffers. -/
def fileFatLs (dev : BlockDev) (fuel : ℕ) (dir : List Byte) : FatM H ℤ :=
  doFatRead al dev fuel dir 0 true

/-- `file_fat_read` (lines 1051–1064): the reading of a file, which frees the cluster buffers.
    -/
def fileFatRead (dev : BlockDev) (fuel : ℕ) (filename : List Byte) (maxsize : ℕ) : FatM H ℤ := do
  let rtn ← doFatRead al dev fuel filename maxsize false
  freeComplainMemory al
  pure rtn

end SmartQ.UBoot.Fat
