import SmartQ.UBoot.FatContents

/-!
# The geometry of a FAT volume

`do_fat_read` in `u-boot/fs/fat/fat.c` fills `fsdata` from the boot sector. Its fields have 16
bits, the one for the start of the data area a sign as well.

* `represents_iff`: the fields are those of the volume, and each data cluster is read where it
  lies, exactly if the data area begins early enough, the root directory fills its sectors and
  these have 512 bytes.
* `ValidVolume.inVolume`: then the files of the volume are read as `getContents_eq` says.
-/

namespace SmartQ.UBoot.Fat

open SmartQ.Lib

/-! ## The volume a boot sector describes -/

/-- `sector_size`: the bytes of a sector by the boot sector, which the reader does not look at.
    -/
def sectorSize (m : Mem) : ℕ := mem16 m 11

/-- `sectors`, or `total_sect` if that is zero. -/
def totalSect (m : Mem) : ℕ := if mem16 m 19 ≠ 0 then mem16 m 19 else mem32 m 32

section Volume

variable (m : Mem) (bs : BootSector) (fatsize : ℕ)

/-- The sectors of one FAT. -/
def fatSects : ℕ := if fatsize = 32 then bs.fat32Length else bs.fatLength

/-- The sectors of the root directory, the last one perhaps not full. -/
def rootSects : ℕ :=
  if fatsize = 32 then 0 else (bs.dirEntries * 32 + sectorSize m - 1) / sectorSize m

/-- The sector of the root directory, or of the data area if there is none. -/
def rootSect : ℕ := bs.reserved + bs.fats * fatSects bs fatsize

/-- The first sector of the data area. -/
def firstData : ℕ := rootSect bs fatsize + rootSects m bs fatsize

/-- The number of data clusters. -/
def clusters : ℕ := (totalSect m - firstData m bs fatsize) / bs.clusterSize

/-- The cluster lies in the data area. -/
def IsData (c : ℕ) : Prop := 2 ≤ c ∧ c < clusters m bs fatsize + 2

/-- The first sector of a data cluster. -/
def dataSect (c : ℕ) : ℕ := firstData m bs fatsize + (c - 2) * bs.clusterSize

/-- A volume that the reader takes for one of FAT, with sectors of a size the specification has,
    a FAT for its clusters and at least one of these. -/
structure ValidVolume : Prop where
  boot : bootSectAndVi m = some (bs, fatsize)
  sectorSize : sectorSize m ∈ [512, 1024, 2048, 4096]
  reserved : 0 < bs.reserved
  fats : 0 < bs.fats
  clusterSize : 0 < bs.clusterSize
  clusters : 0 < clusters m bs fatsize
  fat : fatsize * (Fat.clusters m bs fatsize + 2) ≤ 8 * (Fat.sectorSize m * fatSects bs fatsize)

/-- The fields of `fsdata` are those of the volume, and the bytes of each data cluster are read
    from where they are. -/
structure Represents : Prop where
  fatlength : (fsdata bs fatsize).fatlength = fatSects bs fatsize
  fatSect : (fsdata bs fatsize).fatSect = bs.reserved
  rootdirSect : (fsdata bs fatsize).rootdirSect = rootSect bs fatsize
  clustSize : (fsdata bs fatsize).clustSize = bs.clusterSize
  dataBegin : (fsdata bs fatsize).dataBegin = firstData m bs fatsize - 2 * bs.clusterSize
  data : ∀ c, IsData m bs fatsize c →
    512 * startSect (fsdata bs fatsize) c = sectorSize m * dataSect m bs fatsize c

end Volume

/-! ## The fields of the boot sector -/

section Fields

theorem totalSect_lt (m : Mem) : totalSect m < 2 ^ 32 := by
  have h16 := mem16_lt m 19
  have h32 := mem32_lt m 32
  unfold totalSect
  split_ifs <;> omega

variable {m : Mem} {bs : BootSector} {fatsize : ℕ}

theorem bootSectAndVi_some (h : bootSectAndVi m = some (bs, fatsize)) :
    bs = bootSector m ∧ (fatsize = 12 ∨ fatsize = 16 ∨ fatsize = 32) := by
  unfold bootSectAndVi at h
  simp only at h
  split_ifs at h
  all_goals
    cases h
    exact ⟨rfl, by decide⟩

variable (h : ValidVolume m bs fatsize)

include h

theorem ValidVolume.type : fatsize = 12 ∨ fatsize = 16 ∨ fatsize = 32 :=
  (bootSectAndVi_some h.boot).2

theorem ValidVolume.clusterSize_lt : bs.clusterSize < 2 ^ 8 := by
  rw [(bootSectAndVi_some h.boot).1]
  exact (m 13).toNat_lt

theorem ValidVolume.fatSects_pos : 0 < fatSects bs fatsize := by
  apply Nat.pos_of_ne_zero
  intro hzero
  have hfat := h.fat
  have htype := h.type
  have hpos : 0 < fatsize * (Fat.clusters m bs fatsize + 2) := Nat.mul_pos (by omega) (by omega)
  rw [hzero, Nat.mul_zero, Nat.mul_zero] at hfat
  omega

/-- A data cluster ends inside the volume. -/
theorem ValidVolume.dataSect_le {c : ℕ} (hc : IsData m bs fatsize c) :
    dataSect m bs fatsize c + bs.clusterSize ≤ totalSect m := by
  obtain ⟨hlow, hhigh⟩ := hc
  have hfit : Fat.clusters m bs fatsize * bs.clusterSize ≤
      totalSect m - firstData m bs fatsize := Nat.div_mul_le_self _ _
  have hmul : (c - 2 + 1) * bs.clusterSize ≤ Fat.clusters m bs fatsize * bs.clusterSize :=
    Nat.mul_le_mul_right _ (by omega)
  have hsize := h.clusterSize
  unfold dataSect
  rw [Nat.succ_mul] at hmul
  omega

theorem ValidVolume.isData_two : IsData m bs fatsize 2 :=
  ⟨le_rfl, Nat.lt_add_of_pos_left h.clusters⟩

theorem ValidVolume.firstData_le :
    firstData m bs fatsize + bs.clusterSize ≤ totalSect m := by
  have hle := h.dataSect_le h.isData_two
  rw [dataSect, Nat.sub_self, Nat.zero_mul, Nat.add_zero] at hle
  exact hle

/-- Where its clusters lie once the start of the data area is right. -/
theorem ValidVolume.startSect_eq {c : ℕ} (hc : IsData m bs fatsize c)
    (hclust : (fsdata bs fatsize).clustSize = bs.clusterSize)
    (hbegin : (fsdata bs fatsize).dataBegin = firstData m bs fatsize - 2 * bs.clusterSize) :
    startSect (fsdata bs fatsize) c = dataSect m bs fatsize c := by
  have hle := h.dataSect_le hc
  have htotal := totalSect_lt m
  obtain ⟨d, rfl⟩ := Nat.exists_eq_add_of_le hc.1
  have hsum : (firstData m bs fatsize : ℤ) - 2 * bs.clusterSize +
      ((2 + d : ℕ) : ℤ) * bs.clusterSize = (dataSect m bs fatsize (2 + d) : ℕ) := by
    unfold dataSect
    rw [Nat.add_sub_cancel_left]
    push_cast
    ring
  rw [startSect, if_pos (by omega), hclust, hbegin, hsum]
  exact toU32_natCast (by omega)

/-- The fields of a volume whose data area begins early enough. -/
theorem ValidVolume.fsdata_eq (hsect : Fat.sectorSize m = 512)
    (hbegin : firstData m bs fatsize < 2 ^ 15 + 2 * bs.clusterSize)
    (hfull : fatsize = 32 ∨ bs.dirEntries % 16 = 0) :
    fsdata bs fatsize = ⟨fatsize, fatSects bs fatsize, bs.reserved, rootSect bs fatsize,
      bs.clusterSize, firstData m bs fatsize - 2 * bs.clusterSize⟩ := by
  have hclust := h.clusterSize_lt
  have hfats : 1 * fatSects bs fatsize ≤ bs.fats * fatSects bs fatsize :=
    Nat.mul_le_mul_right _ h.fats
  have hroot : rootSects m bs fatsize =
      if fatsize = 32 then 0 else bs.dirEntries * 32 / 512 := by
    unfold rootSects
    rw [hsect]
    split_ifs with htype
    · rfl
    · omega
  have hsum : rootSect bs fatsize + rootSects m bs fatsize < 2 ^ 15 + 2 * bs.clusterSize := hbegin
  have hlength : (if fatsize = 32 then bs.fat32Length else bs.fatLength) % 2 ^ 16 =
      fatSects bs fatsize := by
    apply Nat.mod_eq_of_lt
    show fatSects bs fatsize < 2 ^ 16
    unfold rootSect at hsum
    omega
  have hrootdir : (bs.reserved + fatSects bs fatsize * bs.fats) % 2 ^ 16 =
      rootSect bs fatsize := by
    rw [Nat.mul_comm]
    apply Nat.mod_eq_of_lt
    show rootSect bs fatsize < 2 ^ 16
    omega
  have hdata : int16 ((rootSect bs fatsize : ℤ) + (rootSects m bs fatsize : ℕ) -
      bs.clusterSize * 2) = firstData m bs fatsize - 2 * bs.clusterSize := by
    unfold firstData int16
    push_cast
    omega
  unfold fsdata
  simp only
  rw [hlength, hrootdir, ← hroot, hdata]

/-- The fields are right and every data cluster is found exactly if the data area begins early
    enough for a field of 16 bits with a sign, the root directory fills its sectors, and sectors
    have 512 bytes. -/
theorem represents_iff :
    Represents m bs fatsize ↔
      Fat.sectorSize m = 512 ∧ firstData m bs fatsize < 2 ^ 15 + 2 * bs.clusterSize ∧
        (fatsize = 32 ∨ bs.dirEntries % 16 = 0) := by
  constructor
  · intro hrep
    have htotal := totalSect_lt m
    have hle := h.firstData_le
    have hfirst := hrep.data 2 h.isData_two
    rw [h.startSect_eq h.isData_two hrep.clustSize hrep.dataBegin, dataSect, Nat.sub_self,
      Nat.zero_mul, Nat.add_zero] at hfirst
    have hpos : 0 < firstData m bs fatsize := by
      have := h.reserved
      unfold firstData rootSect
      omega
    have hsect : Fat.sectorSize m = 512 := (Nat.eq_of_mul_eq_mul_right hpos hfirst).symm
    have hbegin := hrep.dataBegin
    have hroot := hrep.rootdirSect
    have hdata : (fsdata bs fatsize).dataBegin = int16 ((fsdata bs fatsize).rootdirSect +
      (if fatsize = 32 then 0 else bs.dirEntries * 32 / 512 : ℕ) - bs.clusterSize * 2) := rfl
    rw [hroot, hbegin] at hdata
    have hrange : ∀ z, int16 z < 2 ^ 15 := by
      intro z
      unfold int16
      omega
    have hlt := hrange ((rootSect bs fatsize : ℤ) +
      (if fatsize = 32 then 0 else bs.dirEntries * 32 / 512 : ℕ) - bs.clusterSize * 2)
    refine ⟨hsect, ?_, ?_⟩
    · omega
    · by_cases htype : fatsize = 32
      · exact .inl htype
      · right
        rw [if_neg htype] at hdata
        unfold firstData rootSects int16 at hdata
        rw [if_neg htype, hsect] at hdata
        push_cast at hdata
        omega
  · rintro ⟨hsect, hbegin, hfull⟩
    have heq := h.fsdata_eq hsect hbegin hfull
    constructor
    · rw [heq]
    · rw [heq]
    · rw [heq]
    · rw [heq]
    · rw [heq]
    · intro c hc
      rw [h.startSect_eq hc (by rw [heq]) (by rw [heq]), hsect]

variable {dev : BlockDev} (hsect : Fat.sectorSize m = 512)
  (hbegin : firstData m bs fatsize < 2 ^ 15 + 2 * bs.clusterSize)
  (hfull : fatsize = 32 ∨ bs.dirEntries % 16 = 0) (hcard : totalSect m + dev.partOffset ≤ 2 ^ 32)

include hsect hbegin hfull hcard

/-- Such a volume on the card is one whose files can be read. -/
theorem ValidVolume.volume : Volume dev (fsdata bs fatsize) := by
  have heq := h.fsdata_eq hsect hbegin hfull
  have hlt := h.clusterSize_lt
  have hle := h.firstData_le
  have hfats : 1 * fatSects bs fatsize ≤ bs.fats * fatSects bs fatsize :=
    Nat.mul_le_mul_right _ h.fats
  constructor
  · rw [heq]
    refine ⟨h.type, h.fatSects_pos, ?_⟩
    show bs.reserved + fatSects bs fatsize + dev.partOffset ≤ 2 ^ 32
    unfold firstData rootSect at hle
    omega
  · rw [heq]
    exact ⟨h.clusterSize, hlt.trans (by decide)⟩

/-- And its data clusters lie in it. -/
theorem ValidVolume.inVolume {c : ℕ} (hc : IsData m bs fatsize c) :
    InVolume dev (fsdata bs fatsize) c := by
  have heq := h.fsdata_eq hsect hbegin hfull
  have hle := h.dataSect_le hc
  have hfirst : (firstData m bs fatsize : ℤ) - 2 * bs.clusterSize + c * bs.clusterSize =
      dataSect m bs fatsize c := by
    obtain ⟨d, rfl⟩ := Nat.exists_eq_add_of_le hc.1
    unfold dataSect
    rw [Nat.add_sub_cancel_left]
    push_cast
    ring
  constructor
  · have hfat := h.fat
    have hmul : fatsize * c < fatsize * (Fat.clusters m bs fatsize + 2) :=
      Nat.mul_lt_mul_of_pos_left hc.2 (by have := h.type; omega)
    rw [heq]
    rw [hsect] at hfat
    exact hmul.trans_le hfat
  · rw [heq]
    show 0 ≤ (firstData m bs fatsize : ℤ) - 2 * bs.clusterSize + c * bs.clusterSize
    omega
  · rw [heq]
    show (firstData m bs fatsize : ℤ) - 2 * bs.clusterSize + c * bs.clusterSize +
      dev.partOffset + bs.clusterSize ≤ 2 ^ 32
    omega

end Fields

/-! ### Examples -/

/-- The boot sector of a volume of FAT32: two FATs behind 32 sectors, clusters of eight. -/
def boot32 (length total : ℕ) : Mem := fun i =>
  if i = 12 ∨ i = 16 then 2
  else if i = 13 then 8
  else if i = 14 then 32
  else if 32 ≤ i ∧ i < 36 then UInt8.ofNat (total / 256 ^ (i - 32))
  else if 36 ≤ i ∧ i < 40 then UInt8.ofNat (length / 256 ^ (i - 36))
  else if 82 ≤ i ∧ i < 90 then byteAt (sign 51 50) (i - 82)
  else 0

theorem validVolume_small :
    ValidVolume (boot32 1000 526232) (bootSector (boot32 1000 526232)) 32 where
  boot := by decide
  sectorSize := by decide
  reserved := by decide
  fats := by decide
  clusterSize := by decide
  clusters := by decide
  fat := by decide

/-- A volume of 256 MiB. -/
theorem represents_small :
    Represents (boot32 1000 526232) (bootSector (boot32 1000 526232)) 32 :=
  (represents_iff validVolume_small).mpr
    ⟨by decide, by decide, .inl rfl⟩

/-- A volume of 16 GiB: cluster 2 is read at sector 32, inside the first FAT. -/
theorem not_represents_large :
    ¬ ∀ m bs fatsize, ValidVolume m bs fatsize → Represents m bs fatsize := by
  intro h
  have hrep := h (boot32 32768 33619984) (bootSector (boot32 32768 33619984)) 32
    { boot := by decide
      sectorSize := by decide
      reserved := by decide
      fats := by decide
      clusterSize := by decide
      clusters := by decide
      fat := by decide }
  have hdata : IsData (boot32 32768 33619984) (bootSector (boot32 32768 33619984)) 32 2 :=
    ⟨le_rfl, by decide⟩
  exact absurd (hrep.data 2 hdata) (by decide)

end SmartQ.UBoot.Fat
