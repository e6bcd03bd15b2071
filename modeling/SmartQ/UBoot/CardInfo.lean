import SmartQ.Lib.SdCard
import SmartQ.UBoot.Addressing

/-!
# The number of blocks of a card

`display_card_info` in `u-boot/cpu/s3c64xx/vfat_hs_mmc.c` decodes the CSD in the response
registers and keeps a number of blocks of 512 bytes in `mmc_dev.lba`; the firmware copies
are counted from that end.

* `toNat_unstuffBits`: the fields are those of the CSD.
* `lba_iff`: the number is the card's for blocks of 512 and 1024 bytes, and for high
  capacity cards below the largest C_SIZE.
-/

namespace SmartQ.UBoot

open SmartQ.Lib

/-! ## The fields -/

/-- The response registers behind the command for the CSD, `top` in their last byte. -/
def csdResponse (csd : Csd) (top : BitVec 8) : List (BitVec 32) :=
  [csd.rspReg top 0, csd.rspReg top 1, csd.rspReg top 2, csd.rspReg top 3]

variable (csd : Csd) (top : BitVec 8)

/-- `MOVLEFT_CID_CSD` on two neighbouring registers. -/
theorem getLsbD_movleft (hi lo : BitVec 32) {i : ℕ} (h : i < 32) :
    (((hi <<< 8) &&& 0xFFFFFF00#32) ||| ((lo >>> 24) &&& 0xFF#32)).getLsbD i =
      if i < 8 then lo.getLsbD (24 + i) else hi.getLsbD (i - 8) := by
  have hupper : ∀ i < 32, (0xFFFFFF00#32).getLsbD i = decide (8 ≤ i) := by decide
  have hlower : ∀ i < 32, (0xFF#32).getLsbD i = decide (i < 8) := by decide
  rw [BitVec.getLsbD_or, BitVec.getLsbD_and, BitVec.getLsbD_and, hupper i h, hlower i h,
    BitVec.getLsbD_shiftLeft, BitVec.getLsbD_ushiftRight]
  by_cases hi8 : i < 8
  · simp [hi8, show ¬ 8 ≤ i by omega]
  · simp [hi8, h, show 8 ≤ i by omega]

/-- A register behind the first, moved left. -/
theorem movleft_rspReg {k : ℕ} (hpos : 0 < k) (hk : k < 4) :
    ((csd.rspReg top k <<< 8) &&& 0xFFFFFF00#32) |||
        ((csd.rspReg top (k - 1) >>> 24) &&& 0xFF#32) =
      (csd.withLow 0).extractLsb' (32 * k) 32 := by
  apply BitVec.eq_of_getLsbD_eq
  intro i hi
  rw [Csd.extract_withLow (by omega) (by omega), getLsbD_movleft _ _ hi,
    BitVec.getLsbD_extractLsb']
  by_cases hi8 : i < 8
  · have hbit : 8 + 32 * (k - 1) + (24 + i) = 32 * k + i := by omega
    rw [if_pos hi8, Csd.getLsbD_rspReg csd top (by omega) (by omega) (by omega), hbit]
    simp [hi]
  · have hbit : 8 + 32 * k + (i - 8) = 32 * k + i := by omega
    rw [if_neg hi8, Csd.getLsbD_rspReg csd top hk (by omega) (by omega), hbit]
    simp [hi]

/-- The first register, moved left. -/
theorem movleft_rspReg_zero :
    (csd.rspReg top 0 <<< 8) &&& 0xFFFFFF00#32 = (csd.withLow 0).extractLsb' 0 32 := by
  have hupper : ∀ i < 32, (0xFFFFFF00#32).getLsbD i = decide (8 ≤ i) := by decide
  apply BitVec.eq_of_getLsbD_eq
  intro i hi
  rw [BitVec.getLsbD_and, hupper i hi, BitVec.getLsbD_shiftLeft, BitVec.getLsbD_extractLsb',
    Nat.zero_add]
  by_cases hi8 : i < 8
  · rw [Csd.getLsbD_withLow hi8]
    simp [hi8, show ¬ 8 ≤ i by omega]
  · have hbit : 8 + (i - 8) = i := by omega
    have hrest : i - 8 < 120 := by omega
    rw [Csd.getLsbD_rspReg csd top (by omega) (by omega) (by omega), Csd.withLow,
      BitVec.getLsbD_append, if_neg hi8]
    simp [hi, hi8, hbit, hrest, show 8 ≤ i by omega]

/-- After `MOVLEFT_CID_CSD` the words hold the CSD without its last byte. -/
theorem getD_movleftCidCsd (off : ℕ) :
    (movleftCidCsd (csdResponse csd top)).getD off 0#32 =
      (csd.withLow 0).extractLsb' (32 * off) 32 := by
  match off with
  | 0 => exact movleft_rspReg_zero csd top
  | 1 => exact movleft_rspReg csd top (k := 1) (by decide) (by decide)
  | 2 => exact movleft_rspReg csd top (k := 2) (by decide) (by decide)
  | 3 => exact movleft_rspReg csd top (k := 3) (by decide) (by decide)
  | off + 4 =>
    show 0#32 = _
    apply BitVec.eq_of_getLsbD_eq
    intro i hi
    have hout : 128 ≤ 32 * (off + 4) + i := by omega
    rw [BitVec.getLsbD_extractLsb', BitVec.getLsbD_of_ge _ _ hout]
    simp

/-- `UNSTUFF_BITS` gives the fields of the CSD. -/
theorem toNat_unstuffBits (start size : ℕ) (hlow : 8 ≤ start) (hend : start + size ≤ 128)
    (hsize : size < 32) :
    (unstuffBits (movleftCidCsd (csdResponse csd top)) start size).toNat =
      csd.field start size := by
  have hbits := bits_of_words (csd.withLow 0) hsize (getD_movleftCidCsd csd top (start / 32))
    (getD_movleftCidCsd csd top (start / 32 + 1))
  rw [Csd.extract_withLow hlow hend] at hbits
  rw [← csd.toNat_setWidth_field hsize, ← hbits]
  unfold unstuffBits
  simp only [if_pos hsize]

/-! ## The number of blocks -/

/-- A slot with the card. -/
def csdSlot (contents : Disk) : Slot := ⟨csdResponse csd top, contents⟩

variable {csd} {stale : MmcCsd} {contents : Disk} {blockAddr : Bool}

/-- What is stored for a standard capacity card. -/
theorem lba_standard (h : csd.structureVersion = 0) (hlen : 8 ≤ csd.readBlLen) :
    (displayCardInfo stale (csdSlot csd top contents) blockAddr).1 =
      csd.blocks * (csd.readBlLen - 8) := by
  have hver := (toNat_unstuffBits csd top 126 2 (by decide) (by decide) (by decide)).trans h
  have hc := toNat_unstuffBits csd top 62 12 (by decide) (by decide) (by decide)
  have hm := toNat_unstuffBits csd top 47 3 (by decide) (by decide) (by decide)
  have hl := toNat_unstuffBits csd top 80 4 (by decide) (by decide) (by decide)
  have hle : csd.readBlLen < 2 ^ 4 := csd.field_lt 80 4
  have hblocks := csd.blocks_le
  have hprod : csd.blocks * (csd.readBlLen - 8) ≤ 2 ^ 21 * 8 :=
    Nat.mul_le_mul hblocks (by omega)
  have hcap : (1 + csd.field 62 12) <<< (csd.field 47 3 + 2) = csd.blocks := by
    rw [Nat.shiftLeft_eq, Nat.add_comm 1]
    rfl
  unfold displayCardInfo mmcDecodeCsd csdSlot
  simp only [hver, hc, hm, hl, hcap]
  have hsub : sub32 (csd.field 80 4) 8 = csd.readBlLen - 8 := sub32_of_le hlen (by omega)
  have hfit : csd.blocks % 2 ^ 32 = csd.blocks := Nat.mod_eq_of_lt (by omega)
  rw [hsub, hfit, Nat.mod_eq_of_lt (by omega)]

/-- What is stored for a high capacity card. -/
theorem lba_high (h : csd.structureVersion = 1) :
    (displayCardInfo stale (csdSlot csd top contents) blockAddr).1 =
      (csd.cSizeHigh + 1) * 1024 % 2 ^ 32 := by
  have hver := (toNat_unstuffBits csd top 126 2 (by decide) (by decide) (by decide)).trans h
  have hc := toNat_unstuffBits csd top 48 22 (by decide) (by decide) (by decide)
  have hone : sub32 9 8 = 1 := by decide
  unfold displayCardInfo mmcDecodeCsd csdSlot
  simp only [hver, hc, hone, Nat.shiftLeft_eq]
  rw [Nat.mul_one, Nat.mod_mod, Nat.add_comm 1]
  rfl

/-- The number of blocks kept for a card with blocks of 512, 1024 or 2048 bytes, or of high
    capacity, is its capacity in sectors exactly if the blocks do not have 2048 bytes and
    C_SIZE of a high capacity card is not the largest. -/
theorem lba_iff (stale : MmcCsd) (csd : Csd) (top : BitVec 8) (contents : Disk) (blockAddr : Bool)
    (h : csd.structureVersion = 0 ∧ 9 ≤ csd.readBlLen ∧ csd.readBlLen ≤ 11 ∨
      csd.structureVersion = 1) :
    (displayCardInfo stale (csdSlot csd top contents) blockAddr).1 = csd.sectors ↔
      csd.structureVersion = 0 ∧ csd.readBlLen ≠ 11 ∨
        csd.structureVersion = 1 ∧ csd.cSizeHigh ≠ 2 ^ 22 - 1 := by
  rcases h with ⟨h, hlow, hhigh⟩ | h
  · have hpos := csd.blocks_pos
    rw [lba_standard top h (by omega), Csd.sectors_standard h hlow]
    have hnot : ¬ csd.structureVersion = 1 := by omega
    rw [and_iff_right h, iff_false_intro hnot, false_and, or_false]
    -- one, two or three blocks are kept for each block of the card
    have hcases : csd.readBlLen = 9 ∨ csd.readBlLen = 10 ∨ csd.readBlLen = 11 := by omega
    rcases hcases with hlen | hlen | hlen
    all_goals
      rw [hlen]
      omega
  · have hlt : csd.cSizeHigh < 2 ^ 22 := csd.field_lt 48 22
    have hnot : ¬ csd.structureVersion = 0 := by omega
    rw [lba_high top h, Csd.sectors, if_neg hnot, and_iff_right h, iff_false_intro hnot, false_and,
      false_or]
    omega

/-- A card of 16 sectors in blocks of 2048 bytes. -/
def largeBlocks : Csd := BitVec.ofNat 128 (11 * 2 ^ 80)

/-- 12 sectors are kept for it. -/
theorem lba_largeBlocks :
    largeBlocks.structureVersion = 0 ∧ largeBlocks.readBlLen = 11 ∧ largeBlocks.sectors = 16 ∧
      (displayCardInfo ⟨0, 0⟩ (csdSlot largeBlocks 0 fun _ => 0) false).1 = 12 := by
  decide

/-- A card of 8192 sectors in blocks of 1024 bytes. -/
theorem lba_mediumBlocks :
    (displayCardInfo ⟨0, 0⟩ (csdSlot (BitVec.ofNat 128 (10 * 2 ^ 80)) 0 fun _ => 0) false).1 =
      Csd.sectors (BitVec.ofNat 128 (10 * 2 ^ 80)) :=
  (lba_iff ⟨0, 0⟩ _ 0 (fun _ => 0) false (.inl ⟨by decide, by decide, by decide⟩)).mpr
    (.inl ⟨by decide, by decide⟩)

end SmartQ.UBoot
