import SmartQ.Lib.StringBlock
import SmartQ.UBoot.FatTable

/-!
# The partition a volume lies in

Model of the partition tables in `u-boot/disk/part_dos.c` and `u-boot/disk/part.c`, and of
`fat_register_device` in `u-boot/fs/fat/fat.c`, which takes the start of the volume from them.
The first table numbers its four entries; an extended partition leads to a chain of tables whose
drives are numbered from five on.

* `getPartitionInfoExtended_chain`: the drives of a chain of tables.
* `fatRegisterDevice_registers`: the partition that is registered under a number.
-/

namespace SmartQ.UBoot.Fat.PartDos

open SmartQ.Lib

variable {H : Type}

/-! ## Model -/

/-- What `dos_partition_t` says about a partition, but for its place in cylinders and heads. -/
structure DosPartition where
  sysInd : Byte
  start4 : ℕ
  size4 : ℕ
  deriving DecidableEq, Repr

/-- `disk_partition_t` but for its texts: the first sector and the number of sectors. -/
structure DiskPartition where
  blksz : ℕ
  start : ℕ
  size : ℕ
  deriving DecidableEq, Repr

/-- `is_extended`: the types that stand for a table of logical drives. -/
def DosPartition.isExtended (p : DosPartition) : Bool :=
  p.sysInd = 0x5 || p.sysInd = 0xf || p.sysInd = 0x85

/-- `DOS_PART_TBL_OFFSET`: where the four entries of a partition table lie in its sector. -/
def dosPartTblOffset : ℕ := 0x1be

/-- The table in a sector. -/
def partitionTable (buffer : Mem) : List DosPartition :=
  (List.range 4).map fun i =>
    let pt := dosPartTblOffset + 16 * i
    ⟨buffer (pt + 4), mem32 buffer (pt + 8), mem32 buffer (pt + 12)⟩

/-- The bytes at `DOS_PART_MAGIC_OFFSET`. -/
def hasMagic (buffer : Mem) : Bool := buffer 0x1fe = 0x55 && buffer 0x1ff = 0xaa

/-- The first loop over a table: the partition that is asked for, or the number behind the
    table. -/
def tableLoop (extPartSector : ℕ) (whichPart : ℤ) : List DosPartition → ℕ → DiskPartition ⊕ ℕ
  | [], partNum => .inr partNum
  | pt :: pts, partNum =>
    if pt.sysInd ≠ 0 ∧ (partNum : ℤ) = whichPart ∧ pt.isExtended = false then
      .inl ⟨512, (extPartSector + pt.start4) % 2 ^ 32, pt.size4⟩
    else
      tableLoop extPartSector whichPart pts
        (if extPartSector = 0 ∨ (pt.sysInd ≠ 0 ∧ pt.isExtended = false) then partNum + 1
          else partNum)

section Reader

variable (dev : BlockDev)

/-- `block_read` of one block, if it reads that many. -/
def blockRead (start : ℕ) : FatM H (Option Mem) :=
  Prog.step fun s =>
    let r := dev.read s.clock start 1 fun _ => 0
    (if r.1 = 1 then some (laid 512 r.2 fun _ => 0) else none, { s with clock := s.clock + 1 })

/-- `get_partition_info_extended`. Only the first extended partition of a table is followed. -/
def getPartitionInfoExtended (whichPart : ℤ) :
    (fuel extPartSector relative partNum : ℕ) → FatM H (Option DiskPartition)
  | 0, _, _, _ => Prog.exit .unfinished
  | fuel + 1, extPartSector, relative, partNum => do
    let read ← blockRead dev extPartSector
    match read with
    | none => pure none
    | some buffer =>
      if hasMagic buffer = false then pure none
      else
        match tableLoop extPartSector whichPart (partitionTable buffer) partNum with
        | .inl info => pure (some info)
        | .inr partNum =>
          match (partitionTable buffer).find? DosPartition.isExtended with
          | none => pure none
          | some pt =>
            let lbaStart := (pt.start4 + relative) % 2 ^ 32
            getPartitionInfoExtended whichPart fuel lbaStart
              (if extPartSector = 0 then lbaStart else relative) partNum

/-- `get_partition_info_dos`: the search begins at the first sector, with number 1. -/
def getPartitionInfoDos (fuel : ℕ) (part : ℤ) : FatM H (Option DiskPartition) :=
  getPartitionInfoExtended dev part fuel 0 0 1

/-- `test_part_dos`: whether the first sector can be read and is marked as a table. -/
def testPartDos : FatM H Bool := do
  let read ← blockRead dev 0
  pure (read.any hasMagic)

/-- `init_part`: whether the type of the device is DOS afterwards. -/
def initPart (dos : Bool) : FatM H Bool := do
  let found ← testPartDos dev
  pure (found || dos)

/-- `get_partition_info`: only DOS tables are compiled, so any other device has no partition. -/
def getPartitionInfo (fuel : ℕ) (dos : Bool) (part : ℤ) : FatM H (Option DiskPartition) :=
  if dos then getPartitionInfoDos dev fuel part else pure none

/-- `part_no && !get_partition_info(dev_desc, part_no, &info)`. -/
def askedPartition (fuel : ℕ) (dos : Bool) (partNo : ℤ) : FatM H (Option DiskPartition) :=
  if partNo ≠ 0 then getPartitionInfo dev fuel dos partNo else pure none

/-- The names of a FAT at `DOS_FS_TYPE_OFFSET` and `DOS32_FS_TYPE_OFFSET`. -/
def namesFat (buffer : Mem) : Bool :=
  bytesAt buffer 0x36 3 = ascii "FAT" || bytesAt buffer 0x52 5 = ascii "FAT32"

/-- `fat_register_device` on a device of which it is known whether its type is DOS: the result,
    and the device with the start of its volume. -/
def fatRegisterDevice (fuel : ℕ) (dos : Bool) (partNo : ℤ) : FatM H (ℤ × BlockDev) := do
  let read ← blockRead dev 0
  match read with
  | none => pure (-1, dev)
  | some buffer =>
    if hasMagic buffer = false then pure (-1, dev)
    else do
      let dos ← initPart dev dos
      let info ← askedPartition dev fuel dos partNo
      match info with
      | some info => pure (0, { dev with partOffset := info.start })
      | none =>
        if namesFat buffer then pure (0, { dev with partOffset := 0 }) else pure (-1, dev)

end Reader

/-! ## Partitions by their numbers -/

/-- Entry `k` of a list with unused numbers. -/
def nth {α : Type} (slots : List (Option α)) (k : ℤ) : Option α :=
  if 0 ≤ k then slots[k.toNat]?.join else none

/-- The partition of an entry, unless it is unused or a link. -/
def DosPartition.drive (base : ℕ) (p : DosPartition) : Option DiskPartition :=
  if p.sysInd ≠ 0 ∧ p.isExtended = false then
    some ⟨512, (base + p.start4) % 2 ^ 32, p.size4⟩
  else none

/-- A device on which a read of a sector gives what is on the card, or fails. -/
def Gives (dev : BlockDev) (card : ℕ → Option Mem) : Prop :=
  ∀ n start, (if (dev.read n start 1 fun _ => 0).1 = 1 then
    some (laid 512 (dev.read n start 1 fun _ => 0).2 fun _ => 0) else none) = card start

section Tables

variable (card : ℕ → Option Mem)

/-- The table in a sector that can be read and is marked as one. -/
def table (sect : ℕ) : Option (List DosPartition) :=
  (card sect).bind fun m => if hasMagic m then some (partitionTable m) else none

/-- The drives in the chain of tables from a sector on. A table links to the next one by its
    first extended partition, which counts from the `first` table; a sector that is no table
    ends the chain. -/
inductive Chain (first : ℕ) : ℕ → List DiskPartition → Prop
  | broken {sect : ℕ} (h : table card sect = none) : Chain first sect []
  | last {sect : ℕ} {ps : List DosPartition} (h : table card sect = some ps)
      (hlink : ps.find? DosPartition.isExtended = none) :
      Chain first sect (ps.filterMap (·.drive sect))
  | link {sect : ℕ} {ps : List DosPartition} {p : DosPartition} {ds : List DiskPartition}
      (h : table card sect = some ps) (hlink : ps.find? DosPartition.isExtended = some p)
      (hne : (p.start4 + first) % 2 ^ 32 ≠ 0)
      (hrest : Chain first ((p.start4 + first) % 2 ^ 32) ds) :
      Chain first sect (ps.filterMap (·.drive sect) ++ ds)

/-- The drives behind the first extended partition of the first table. -/
inductive Logical (ps : List DosPartition) : List DiskPartition → Prop
  | none (hlink : ps.find? DosPartition.isExtended = none) : Logical ps []
  | some {p : DosPartition} {ds : List DiskPartition}
      (hlink : ps.find? DosPartition.isExtended = some p) (hne : p.start4 ≠ 0)
      (hchain : Chain card p.start4 p.start4 ds) : Logical ps ds

/-- The partition with a number: the entries of the first table come first, whether they are in
    use or not, and then the drives of the chain. -/
def numbered (ps : List DosPartition) (ds : List DiskPartition) (part : ℤ) :
    Option DiskPartition :=
  nth (ps.map (·.drive 0) ++ ds.map some) (part - 1)

end Tables

section Numbers

variable {α : Type} {slots : List (Option α)} {k : ℤ}

@[simp] theorem nth_nil : nth ([] : List (Option α)) k = none := by
  simp [nth]

theorem nth_of_neg (hk : k < 0) : nth slots k = none := if_neg (not_le.mpr hk)

@[simp] theorem nth_cons_zero (x : Option α) : nth (x :: slots) 0 = x := by
  simp [nth]

theorem nth_cons_of_ne (x : Option α) (hk : k ≠ 0) : nth (x :: slots) k = nth slots (k - 1) := by
  unfold nth
  by_cases hneg : k < 0
  · rw [if_neg (by omega), if_neg (by omega)]
  · rw [if_pos (by omega), if_pos (by omega), show k.toNat = (k - 1).toNat + 1 by omega,
      List.getElem?_cons_succ]

/-- An unused number in front. -/
theorem nth_none_cons : nth (none :: slots) k = nth slots (k - 1) := by
  by_cases hk : k = 0
  · rw [hk, nth_cons_zero, nth_of_neg (by omega)]
  · exact nth_cons_of_ne none hk

theorem nth_append (slots' : List (Option α)) :
    nth (slots ++ slots') k = (nth slots k).or (nth slots' (k - slots.length)) := by
  induction slots generalizing k with
  | nil => simp
  | cons x slots ih =>
    rw [List.cons_append]
    by_cases hk : k = 0
    · subst hk
      rw [nth_cons_zero, nth_cons_zero, nth_of_neg (by simp; omega), Option.or_none]
    · rw [nth_cons_of_ne x hk, nth_cons_of_ne x hk, ih, List.length_cons]
      congr 2
      push_cast
      omega

end Numbers

/-! ## One table -/

/-- The numbers a table gives out: all entries of the first table have one, and the drives of
    any other. -/
def slotsOf (base : ℕ) (ps : List DosPartition) : List (Option DiskPartition) :=
  if base = 0 then ps.map (·.drive base) else (ps.filterMap (·.drive base)).map some

theorem tableLoop_eq (base : ℕ) (which : ℤ) (ps : List DosPartition) (n : ℕ) :
    tableLoop base which ps n =
      (nth (slotsOf base ps) (which - n)).elim (.inr (n + (slotsOf base ps).length)) .inl := by
  induction ps generalizing n with
  | nil => simp [tableLoop, slotsOf]
  | cons p ps ih =>
    rw [tableLoop]
    by_cases hdrive : p.sysInd ≠ 0 ∧ p.isExtended = false
    · have hslots : slotsOf base (p :: ps) =
          some ⟨512, (base + p.start4) % 2 ^ 32, p.size4⟩ :: slotsOf base ps := by
        unfold slotsOf
        split_ifs <;> simp [DosPartition.drive, hdrive.1, hdrive.2]
      rw [hslots]
      by_cases hn : (n : ℤ) = which
      · rw [if_pos ⟨hdrive.1, hn, hdrive.2⟩, show which - n = 0 by omega, nth_cons_zero]
        rfl
      · rw [if_neg (fun h => hn h.2.1), if_pos (.inr hdrive), ih,
          nth_cons_of_ne _ (by omega), List.length_cons,
          show which - ((n + 1 : ℕ) : ℤ) = which - n - 1 by omega]
        congr 2
        omega
    · rw [if_neg (fun h => hdrive ⟨h.1, h.2.2⟩)]
      by_cases hbase : base = 0
      · have hslots : slotsOf base (p :: ps) = none :: slotsOf base ps := by
          unfold slotsOf
          rw [if_pos hbase, if_pos hbase, List.map_cons, DosPartition.drive, if_neg hdrive]
        rw [hslots, if_pos (.inl hbase), ih, nth_none_cons, List.length_cons,
          show which - ((n + 1 : ℕ) : ℤ) = which - n - 1 by omega]
        congr 2
        omega
      · have hslots : slotsOf base (p :: ps) = slotsOf base ps := by
          unfold slotsOf
          rw [if_neg hbase, if_neg hbase, List.filterMap_cons, DosPartition.drive, if_neg hdrive]
        rw [hslots, if_neg (not_or.mpr ⟨hbase, hdrive⟩), ih]

/-! ## A chain of tables -/

section Search

variable {dev : BlockDev} {card : ℕ → Option Mem} {sect : ℕ} {ps : List DosPartition}
  {ds : List DiskPartition} {which : ℤ}

theorem blockRead_gives (hdev : Gives dev card) (start : ℕ) (s : St H) :
    blockRead dev start s = some (.ok (card start), { s with clock := s.clock + 1 }) := by
  rw [← hdev s.clock start]
  rfl

theorem table_eq_some : table card sect = some ps ↔
    ∃ m, card sect = some m ∧ hasMagic m = true ∧ partitionTable m = ps := by
  unfold table
  cases card sect with
  | none => simp
  | some m => simp

theorem start4_lt (h : table card sect = some ps) {p : DosPartition} (hp : p ∈ ps) :
    p.start4 < 2 ^ 32 := by
  obtain ⟨m, -, -, rfl⟩ := table_eq_some.mp h
  obtain ⟨i, -, rfl⟩ := List.mem_map.mp hp
  exact mem32_lt m _

/-- With enough fuel the search from a table on finds the partitions `slots` by their numbers, from
    `n` on, and leaves the state but for the reads. -/
def Finds (H : Type) (dev : BlockDev) (which : ℤ) (sect relative n : ℕ)
    (slots : List (Option DiskPartition)) : Prop :=
  ∃ N, ∀ fuel > N, ∀ s : St H, ∃ k, getPartitionInfoExtended dev which fuel sect relative n s =
    some (.ok (nth slots (which - n)), { s with clock := k })

/-- What the search does at a table: it ends with a partition that the table numbers, or goes on
    behind the link. -/
theorem extended_of_table (hdev : Gives dev card) (h : table card sect = some ps)
    (fuel relative n : ℕ) (s : St H) :
    getPartitionInfoExtended dev which (fuel + 1) sect relative n s =
      ((nth (slotsOf sect ps) (which - n)).elim
        ((ps.find? DosPartition.isExtended).elim (pure none) fun p =>
          getPartitionInfoExtended dev which fuel ((p.start4 + relative) % 2 ^ 32)
            (if sect = 0 then (p.start4 + relative) % 2 ^ 32 else relative)
            (n + (slotsOf sect ps).length))
        fun d => pure (some d)) { s with clock := s.clock + 1 } := by
  obtain ⟨m, hread, hmagic, rfl⟩ := table_eq_some.mp h
  rw [getPartitionInfoExtended, Prog.bind_ok (blockRead_gives hdev sect s), hread]
  dsimp only
  rw [if_neg (by simp [hmagic]), tableLoop_eq]
  cases nth (slotsOf sect (partitionTable m)) (which - n) with
  | some d => rfl
  | none =>
    dsimp only [Option.elim_none]
    cases (partitionTable m).find? DosPartition.isExtended <;> rfl

/-- A sector that is no table ends the search. -/
theorem finds_broken (hdev : Gives dev card) (h : table card sect = none) (relative n : ℕ) :
    Finds H dev which sect relative n [] := by
  refine ⟨0, fun fuel hfuel s => ⟨s.clock + 1, ?_⟩⟩
  obtain ⟨fuel, rfl⟩ := Nat.exists_eq_succ_of_ne_zero (by omega : fuel ≠ 0)
  rw [getPartitionInfoExtended, Prog.bind_ok (blockRead_gives hdev sect s), nth_nil]
  unfold table at h
  cases hread : card sect with
  | none => rfl
  | some m =>
    rw [hread] at h
    have hmagic : hasMagic m = false := by
      simpa using h
    dsimp only
    rw [if_pos hmagic]
    rfl

/-- And so does a table without a link. -/
theorem finds_last (hdev : Gives dev card) (h : table card sect = some ps)
    (hlink : ps.find? DosPartition.isExtended = none) (relative n : ℕ) :
    Finds H dev which sect relative n (slotsOf sect ps) := by
  refine ⟨0, fun fuel hfuel s => ⟨s.clock + 1, ?_⟩⟩
  obtain ⟨fuel, rfl⟩ := Nat.exists_eq_succ_of_ne_zero (by omega : fuel ≠ 0)
  rw [extended_of_table hdev h, hlink]
  cases nth (slotsOf sect ps) (which - n) <;> rfl

/-- Behind a link the numbers go on. -/
theorem finds_link (hdev : Gives dev card) (h : table card sect = some ps) {p : DosPartition}
    (hlink : ps.find? DosPartition.isExtended = some p) {relative n : ℕ}
    {slots : List (Option DiskPartition)}
    (hrest : Finds H dev which ((p.start4 + relative) % 2 ^ 32)
      (if sect = 0 then (p.start4 + relative) % 2 ^ 32 else relative)
      (n + (slotsOf sect ps).length) slots) :
    Finds H dev which sect relative n (slotsOf sect ps ++ slots) := by
  obtain ⟨N, hN⟩ := hrest
  refine ⟨N + 1, fun fuel hfuel s => ?_⟩
  obtain ⟨fuel, rfl⟩ := Nat.exists_eq_succ_of_ne_zero (by omega : fuel ≠ 0)
  rw [extended_of_table hdev h, hlink, nth_append]
  cases nth (slotsOf sect ps) (which - n) with
  | some d => exact ⟨s.clock + 1, rfl⟩
  | none =>
    obtain ⟨k, hk⟩ := hN fuel (by omega) { s with clock := s.clock + 1 }
    refine ⟨k, hk.trans ?_⟩
    rw [Option.none_or, show which - ((n + (slotsOf sect ps).length : ℕ) : ℤ) =
      which - n - (slotsOf sect ps).length by push_cast; omega]

/-- The drives of a chain are found by their numbers, by induction on its tables. -/
theorem getPartitionInfoExtended_chain (hdev : Gives dev card) {first : ℕ}
    (h : Chain card first sect ds) (hne : sect ≠ 0) (n : ℕ) :
    Finds H dev which sect first n (ds.map some) := by
  have hslots : ∀ {sect : ℕ} (ps : List DosPartition), sect ≠ 0 →
      slotsOf sect ps = (ps.filterMap (·.drive sect)).map some := fun ps hsect => if_neg hsect
  induction h generalizing n with
  | broken h => exact finds_broken hdev h first n
  | last h hlink =>
    rw [← hslots _ hne]
    exact finds_last hdev h hlink first n
  | link h hlink hnext _ ih =>
    rw [List.map_append, ← hslots _ hne]
    refine finds_link hdev h hlink ?_
    rw [if_neg hne]
    exact ih hnext _

/-- All partitions of a device are found by their numbers. -/
theorem getPartitionInfoDos_numbered (hdev : Gives dev card) (h : table card 0 = some ps)
    (hds : Logical card ps ds) (which : ℤ) :
    ∃ N, ∀ fuel > N, ∀ s : St H, ∃ k, getPartitionInfoDos dev fuel which s =
      some (.ok (numbered ps ds which), { s with clock := k }) := by
  have hslots : slotsOf 0 ps = ps.map (·.drive 0) := if_pos rfl
  have hfinds : Finds H dev which 0 0 1 (slotsOf 0 ps ++ ds.map some) := by
    cases hds with
    | none hlink =>
      rw [List.map_nil, List.append_nil]
      exact finds_last hdev h hlink 0 1
    | @some p _ hlink hne hchain =>
      have hstart : (p.start4 + 0) % 2 ^ 32 = p.start4 :=
        Nat.mod_eq_of_lt (start4_lt h (List.mem_of_find?_eq_some hlink))
      refine finds_link hdev h hlink ?_
      rw [hstart, if_pos rfl]
      exact getPartitionInfoExtended_chain hdev hchain hne _
  rw [hslots] at hfinds
  exact hfinds

theorem askedPartition_numbered (hdev : Gives dev card) (h : table card 0 = some ps)
    (hds : Logical card ps ds) (which : ℤ) :
    ∃ N, ∀ fuel > N, ∀ s : St H, ∃ k, askedPartition dev fuel true which s =
      some (.ok (numbered ps ds which), { s with clock := k }) := by
  obtain ⟨N, hN⟩ := getPartitionInfoDos_numbered (H := H) hdev h hds which
  refine ⟨N, fun fuel hfuel s => ?_⟩
  unfold askedPartition
  by_cases hzero : which = 0
  · refine ⟨s.clock, ?_⟩
    rw [if_neg (not_not.mpr hzero), numbered, nth_of_neg (by omega)]
    rfl
  · rw [if_pos hzero, getPartitionInfo, if_pos rfl]
    exact hN fuel hfuel s

/-- What is registered: the partition that is found, or else the whole device if it begins with
    a FAT. -/
def registered (dev : BlockDev) (mbr : Mem) (found : Option DiskPartition) : ℤ × BlockDev :=
  found.elim (if namesFat mbr then (0, { dev with partOffset := 0 }) else (-1, dev))
    fun info => (0, { dev with partOffset := info.start })

/-- The steps of `fat_register_device` around the search. -/
theorem fatRegisterDevice_of_asked (hdev : Gives dev card) {mbr : Mem} (hmbr : card 0 = some mbr)
    (hmagic : hasMagic mbr = true) (dos : Bool) {fuel : ℕ} {s s' : St H}
    {found : Option DiskPartition}
    (h : askedPartition dev fuel true which { s with clock := s.clock + 1 + 1 } =
      some (.ok found, s')) :
    fatRegisterDevice dev fuel dos which s = some (.ok (registered dev mbr found), s') := by
  have htest : testPartDos dev { s with clock := s.clock + 1 } =
      some (.ok true, { s with clock := s.clock + 1 + 1 }) := by
    rw [testPartDos, Prog.bind_ok (blockRead_gives hdev 0 _), hmbr]
    simp [hmagic]
  have hinit : initPart dev dos { s with clock := s.clock + 1 } =
      some (.ok true, { s with clock := s.clock + 1 + 1 }) := by
    rw [initPart, Prog.bind_ok htest]
    rfl
  rw [fatRegisterDevice, Prog.bind_ok (blockRead_gives hdev 0 s), hmbr]
  dsimp only
  rw [if_neg (by simp [hmagic]), Prog.bind_ok hinit, Prog.bind_ok h, registered]
  cases found with
  | some info => rfl
  | none =>
    dsimp only [Option.elim_none]
    split_ifs <;> rfl

/-- With enough fuel for the chain of its tables, the partition of a device that has the number
    is the one that is registered. -/
theorem fatRegisterDevice_registers (hdev : Gives dev card) {mbr : Mem} (hmbr : card 0 = some mbr)
    (hmagic : hasMagic mbr = true) (hds : Logical card (partitionTable mbr) ds) (dos : Bool)
    (partNo : ℤ) :
    ∃ N, ∀ fuel > N, ∀ s : St H, ∃ k, fatRegisterDevice dev fuel dos partNo s =
      some (.ok (registered dev mbr (numbered (partitionTable mbr) ds partNo)),
        { s with clock := k }) := by
  obtain ⟨N, hN⟩ := askedPartition_numbered (H := H) hdev
    (table_eq_some.mpr ⟨mbr, hmbr, hmagic, rfl⟩) hds partNo
  refine ⟨N, fun fuel hfuel s => ?_⟩
  obtain ⟨k, hasked⟩ := hN fuel hfuel { s with clock := s.clock + 1 + 1 }
  exact ⟨k, fatRegisterDevice_of_asked hdev hmbr hmagic dos hasked⟩

end Search

/-- A sector with a table. -/
def tableSector (ps : List DosPartition) : Mem :=
  laid 512 (byteAt (List.replicate dosPartTblOffset 0 ++
    (ps.flatMap fun p => [0, 0, 0, 0, p.sysInd, 0, 0, 0] ++ le32 p.start4 ++ le32 p.size4) ++
    List.replicate (16 * (4 - ps.length)) 0 ++ [0x55, 0xaa])) fun _ => 0

/-- A primary partition, and two drives in the extended partition behind it. -/
def twoDrives (sect : ℕ) : Option Mem :=
  if sect = 0 then some (tableSector [⟨0x83, 63, 1000⟩, ⟨0x5, 2000, 4000⟩])
  else if sect = 2000 then some (tableSector [⟨0xb, 63, 500⟩, ⟨0x5, 600, 700⟩])
  else if sect = 2600 then some (tableSector [⟨0xc, 63, 600⟩])
  else none

/-- A device that holds it. -/
def twoDrivesDev : BlockDev :=
  ⟨0, fun _ start _ _ => (if (twoDrives start).isSome then 1 else -1,
    (twoDrives start).getD fun _ => 0)⟩

theorem laid_tableSector (ps : List DosPartition) :
    laid 512 (tableSector ps) (fun _ => 0) = tableSector ps := by
  funext i
  unfold tableSector laid
  split_ifs <;> rfl

theorem gives_twoDrives : Gives twoDrivesDev twoDrives := by
  intro n start
  show (if (if (twoDrives start).isSome then (1 : ℤ) else -1) = 1 then
    some (laid 512 ((twoDrives start).getD fun _ => 0) fun _ => 0) else none) = twoDrives start
  cases h : twoDrives start with
  | none => rfl
  | some m =>
    obtain ⟨ps, rfl⟩ : ∃ ps, m = tableSector ps := by
      unfold twoDrives at h
      split_ifs at h <;> exact ⟨_, (Option.some.inj h).symm⟩
    simp [laid_tableSector]

/-- The second drive of the chain has number six. -/
theorem fatRegisterDevice_sixth : ∃ fuel s', fatRegisterDevice twoDrivesDev fuel false 6 St.fresh =
    some (.ok (0, { twoDrivesDev with partOffset := 2663 }), s') := by
  have hfirst : table twoDrives 2000 =
      some [⟨0xb, 63, 500⟩, ⟨0x5, 600, 700⟩, ⟨0, 0, 0⟩, ⟨0, 0, 0⟩] := by
    decide +kernel
  have hsecond : table twoDrives 2600 = some [⟨0xc, 63, 600⟩, ⟨0, 0, 0⟩, ⟨0, 0, 0⟩, ⟨0, 0, 0⟩] := by
    decide +kernel
  have hchain : Chain twoDrives 2000 2000 ([⟨512, 2063, 500⟩] ++ [⟨512, 2663, 600⟩]) :=
    .link hfirst (p := ⟨0x5, 600, 700⟩) rfl (by decide) (.last hsecond rfl)
  have hmbr : twoDrives 0 = some (tableSector [⟨0x83, 63, 1000⟩, ⟨0x5, 2000, 4000⟩]) := rfl
  obtain ⟨N, hN⟩ := fatRegisterDevice_registers (H := Unit) gives_twoDrives hmbr
    (by decide +kernel) (.some (p := ⟨0x5, 2000, 4000⟩) (by decide +kernel) (by decide) hchain)
    false 6
  obtain ⟨k, hk⟩ := hN (N + 1) (by omega) St.fresh
  exact ⟨N + 1, _, hk⟩

end SmartQ.UBoot.Fat.PartDos
