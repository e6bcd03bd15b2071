import SmartQ.Firmware.Upgrade

/-!
# The partitions of the flash

Model of `partition_inand` of `fw-utils/upgrade.c`. The root partition gets what
the other two and the 16 MiB of the firmware copies leave of the device; the
sectors in front of the first partition are not subtracted, and the value of
`fdisk` is only printed.

* `partitionInand_ok_iff`: the devices and layouts for which the partitions end
  in front of the firmware copies.
* `partitionInand_overlaps`: partitions that do not start at sector 1 never do.
-/

namespace SmartQ.Firmware.Upgrade

open SmartQ.Lib

/-! ## Model -/

/-- `HOME_SECTORS`: the second partition has 128 MB, counted in sectors of 512 bytes. -/
def homeSectors : ℕ := 128 * 1024 * 2

/-- `SWAP_SECTORS`: the third partition has 128 MB, counted in sectors of 512 bytes. -/
def swapSectors : ℕ := 128 * 1024 * 2

/-- `get_BLKGETSIZE_sectors` (lines 438–451): the two `ioctl`s give a value or fail. An
    `unsigned long` has 32 bits. -/
def getBlkgetsizeSectors (blkgetsize64 blkgetsize : Option ℕ) : ℕ :=
  match blkgetsize64 with
  | some v64 => v64 / 2 ^ 9 % 2 ^ 32
  | none => blkgetsize.getD 0 % 2 ^ 32

/-- The extents `fdisk` is given for the three partitions, in KiB. -/
structure FdiskSizes where
  root : ℤ
  home : ℤ
  swap : ℤ
  deriving DecidableEq, Repr

/-- The arguments of the `sprintf` of `fdisk_cmd` (lines 711–714); `sectors` is a `long`. -/
def fdiskSizes (sectors : ℤ) : FdiskSizes where
  root := (int32 (sectors - (homeSectors + swapSectors + zimageInitramfsSectors))).tdiv 2
  home := homeSectors / 2
  swap := swapSectors / 2

/-- What `partition_inand` does: the commands it gives to `fdisk`, what it reports and
    what it returns. -/
structure Partitioned where
  commands : List FdiskSizes
  message : String
  ret : ℤ

/-- `partition_inand` (lines 683–730), `status` being the exit status of its second
    `fdisk`. -/
def partitionInand (status : ℕ) (sectors : ℤ) : Partitioned where
  commands := [fdiskSizes sectors, fdiskSizes sectors]
  message := if status ≠ 0 then "ERROR: fdisk fails" else "fdisk success"
  ret := 0

/-- The partitioning in `main` (lines 886–901): the `unsigned long` is passed as a `long`. -/
def partitioning (status : ℕ) (blkgetsize64 blkgetsize : Option ℕ) : Partitioned :=
  partitionInand status (int32 (getBlkgetsizeSectors blkgetsize64 blkgetsize))

/-! ## What `fdisk` makes of it -/

/-- A partition: its first sector and its number of sectors. -/
structure Partition where
  start : ℕ
  sectors : ℕ
  deriving DecidableEq, Repr

/-- The sector behind a partition. -/
def Partition.stop (p : Partition) : ℕ := p.start + p.sectors

/-- The three partitions of a device. -/
structure Partitions where
  root : Partition
  home : Partition
  swap : Partition
  deriving DecidableEq, Repr

/-- `fdisk` starts at sector 1 or later, puts every partition behind the one before and
    gives it the KiB asked for at least. -/
structure Lays (sizes : FdiskSizes) (l : Partitions) : Prop where
  first : 1 ≤ l.root.start
  home : l.root.stop ≤ l.home.start
  swap : l.home.stop ≤ l.swap.start
  rootSize : 2 * sizes.root ≤ l.root.sectors
  homeSize : 2 * sizes.home ≤ l.home.sectors
  swapSize : 2 * sizes.swap ≤ l.swap.sectors

/-- `partition_inand` fails, or the sizes it gives to `fdisk` are positive and the
    partitions end in front of the firmware copies. -/
def PartitionOk (S : ℕ) (p : Partitioned) (l : Partitions) : Prop :=
  p.ret = -1 ∨
    (∀ sizes ∈ p.commands, 0 < sizes.root ∧ 0 < sizes.home ∧ 0 < sizes.swap) ∧
      (l.swap.stop : ℤ) ≤ S + base1

/-- The partitions lie from sector 1 on without a gap, the first one filling what is left
    of `S` sectors. -/
structure Partitions.Tight (S : ℕ) (l : Partitions) : Prop where
  first : l.root.start = 1
  home : l.home.start = l.root.stop
  swap : l.swap.start = l.home.stop
  rootSize : l.root.sectors = S - 557057
  homeSize : l.home.sectors = homeSectors
  swapSize : l.swap.sectors = swapSectors

/-! ## Where the partitions end -/

section Device

variable {S : ℕ} {l : Partitions}

theorem fdiskSizes_root (sectors : ℤ) :
    (fdiskSizes sectors).root = (int32 (sectors - 557056)).tdiv 2 := rfl

/-- Half of a number, rounded towards zero, is positive from 2 on. -/
theorem tdiv_two_pos (z : ℤ) : 0 < z.tdiv 2 ↔ 2 ≤ z := by
  rcases le_total 0 z with h | h
  · rw [Int.tdiv_eq_ediv_of_nonneg h]
    omega
  · have hneg := Int.tdiv_nonneg (show 0 ≤ -z by omega) (show (0 : ℤ) ≤ 2 by norm_num)
    rw [Int.neg_tdiv] at hneg
    omega

/-- The root partition of a device that is large enough. -/
theorem fdiskSizes_root_pos (hS : S < 2 ^ 32) :
    0 < (fdiskSizes (int32 S)).root ↔ 557058 ≤ S ∧ S < 2 ^ 31 + 557056 := by
  rw [fdiskSizes_root, tdiv_two_pos]
  unfold int32
  split_ifs <;> omega

/-- It gets half of what is left, rounded down. -/
theorem fdiskSizes_root_eq (h0 : 557056 ≤ S) (h1 : S < 2 ^ 31 + 557056) :
    (fdiskSizes (int32 S)).root = ((S - 557056) / 2 : ℕ) := by
  have hdiff : int32 (int32 S - 557056) = (S - 557056 : ℕ) := by
    unfold int32
    split_ifs <;> omega
  rw [fdiskSizes_root, hdiff]
  rfl

theorem fdiskSizes_home (sectors : ℤ) : 2 * (fdiskSizes sectors).home = homeSectors := rfl

theorem fdiskSizes_swap (sectors : ℤ) : 2 * (fdiskSizes sectors).swap = swapSectors := rfl

/-- The partitions end no earlier than this. -/
theorem Lays.le_stop {sizes : FdiskSizes} (hlays : Lays sizes l) :
    l.root.start + 2 * sizes.root + 2 * sizes.home + 2 * sizes.swap ≤ (l.swap.stop : ℤ) := by
  obtain ⟨-, hhome, hswap, h1, h2, h3⟩ := hlays
  unfold Partition.stop at *
  omega

/-- On a device of an odd number of sectors, large enough, the partitions end in front of
    the firmware copies if they lie without a gap from sector 1 on; otherwise they do
    not, or a size is not positive. -/
theorem partitionOk_iff {status : ℕ} (hS : S < 2 ^ 32) (hlays : Lays (fdiskSizes (int32 S)) l) :
    PartitionOk S (partitionInand status (int32 S)) l ↔
      S % 2 = 1 ∧ 557058 ≤ S ∧ S < 2 ^ 31 + 557056 ∧ l.Tight S := by
  have hpos := fdiskSizes_root_pos hS
  have hhome := fdiskSizes_home (int32 S)
  have hswap := fdiskSizes_swap (int32 S)
  have hstop := hlays.le_stop
  obtain ⟨hfirst, hnext1, hnext2, hsize1, hsize2, hsize3⟩ := hlays
  have hbase : base1 = -32768 := rfl
  have hsectors : homeSectors = 262144 ∧ swapSectors = 262144 := ⟨rfl, rfl⟩
  constructor
  · rintro (hret | ⟨hsizes, hend⟩)
    · cases hret
    · obtain ⟨hroot, -, -⟩ := hsizes (fdiskSizes (int32 S)) (List.mem_cons_self ..)
      obtain ⟨h0, h1⟩ := hpos.mp hroot
      have heq := fdiskSizes_root_eq (show 557056 ≤ S by omega) h1
      have hodd : S % 2 = 1 := by omega
      unfold Partition.stop at *
      exact ⟨hodd, h0, h1, ⟨by omega, by unfold Partition.stop; omega,
        by unfold Partition.stop; omega, by omega, by omega, by omega⟩⟩
  · rintro ⟨hodd, h0, h1, htight⟩
    refine .inr ⟨?_, ?_⟩
    · intro sizes hmem
      have hsizes : sizes = fdiskSizes (int32 S) := by
        rcases List.mem_cons.mp hmem with h | h
        · exact h
        · exact List.mem_singleton.mp h
      rw [hsizes]
      exact ⟨hpos.mpr ⟨h0, h1⟩, by omega, by omega⟩
    · obtain ⟨t1, t2, t3, t4, t5, t6⟩ := htight
      unfold Partition.stop at *
      omega

/-- Partitions that start behind sector 1, as they do where a track or a cylinder is left
    free, reach into the firmware copies. -/
theorem partitionInand_overlaps {status : ℕ} (hS : S < 2 ^ 32)
    (hlays : Lays (fdiskSizes (int32 S)) l) (hstart : 2 ≤ l.root.start) :
    ¬ PartitionOk S (partitionInand status (int32 S)) l := by
  rw [partitionOk_iff hS hlays]
  rintro ⟨-, -, -, htight⟩
  have := htight.first
  omega

end Device

/-! ## Every device -/

theorem getBlkgetsizeSectors_lt (blkgetsize64 blkgetsize : Option ℕ) :
    getBlkgetsizeSectors blkgetsize64 blkgetsize < 2 ^ 32 := by
  unfold getBlkgetsizeSectors
  split
  · exact Nat.mod_lt _ (by norm_num)
  · exact Nat.mod_lt _ (by norm_num)

/-- For whatever size the device reports, and however `fdisk` lays the partitions out: they
    are right if and only if the number of sectors is odd and large enough, and they lie
    from sector 1 on without a gap. -/
theorem partitionInand_ok_iff (status : ℕ) (blkgetsize64 blkgetsize : Option ℕ) (l : Partitions)
    (hlays : Lays (fdiskSizes (int32 (getBlkgetsizeSectors blkgetsize64 blkgetsize))) l) :
    PartitionOk (getBlkgetsizeSectors blkgetsize64 blkgetsize)
        (partitioning status blkgetsize64 blkgetsize) l ↔
      getBlkgetsizeSectors blkgetsize64 blkgetsize % 2 = 1 ∧
        557058 ≤ getBlkgetsizeSectors blkgetsize64 blkgetsize ∧
        getBlkgetsizeSectors blkgetsize64 blkgetsize < 2 ^ 31 + 557056 ∧
        l.Tight (getBlkgetsizeSectors blkgetsize64 blkgetsize) :=
  partitionOk_iff (getBlkgetsizeSectors_lt _ _) hlays

/-- A device of 1 GiB with the first partition on sector 63. -/
def gigabyteLayout : Partitions where
  root := ⟨63, 1540096⟩
  home := ⟨1540159, 262144⟩
  swap := ⟨1802303, 262144⟩

/-- Its swap partition covers the header of the first firmware copy, sector 2064384. -/
theorem gigabyteLayout_not_ok :
    ¬ ∀ (status : ℕ) (blkgetsize64 blkgetsize : Option ℕ) (l : Partitions),
      Lays (fdiskSizes (int32 (getBlkgetsizeSectors blkgetsize64 blkgetsize))) l →
      PartitionOk (getBlkgetsizeSectors blkgetsize64 blkgetsize)
        (partitioning status blkgetsize64 blkgetsize) l := by
  intro hall
  have hS : getBlkgetsizeSectors (some (2 ^ 30)) none = 2097152 := rfl
  have hsizes : fdiskSizes (int32 (2097152 : ℕ)) = ⟨770048, 131072, 131072⟩ := rfl
  have hok := hall 0 (some (2 ^ 30)) none gigabyteLayout
  rw [partitioning, hS, hsizes] at hok
  rcases hok ⟨by decide, by decide, by decide, by decide, by decide, by decide⟩ with hret | ⟨-, hend⟩
  · cases hret
  · exact absurd hend (by decide)

/-- `partitionInand_ok_iff` of that device. -/
theorem partitionInand_ok_iff_gigabyte :
    PartitionOk (getBlkgetsizeSectors (some (2 ^ 30)) none) (partitioning 0 (some (2 ^ 30)) none)
        gigabyteLayout ↔
      getBlkgetsizeSectors (some (2 ^ 30)) none % 2 = 1 ∧
        557058 ≤ getBlkgetsizeSectors (some (2 ^ 30)) none ∧
        getBlkgetsizeSectors (some (2 ^ 30)) none < 2 ^ 31 + 557056 ∧
        gigabyteLayout.Tight (getBlkgetsizeSectors (some (2 ^ 30)) none) := by
  refine partitionInand_ok_iff 0 (some (2 ^ 30)) none gigabyteLayout ?_
  have hsizes : fdiskSizes (int32 (getBlkgetsizeSectors (some (2 ^ 30)) none)) =
      ⟨770048, 131072, 131072⟩ := rfl
  rw [hsizes]
  exact ⟨by decide, by decide, by decide, by decide, by decide, by decide⟩

end SmartQ.Firmware.Upgrade
