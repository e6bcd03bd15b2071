import Mathlib.Tactic

/-!
# The CSD register of SD cards

The capacity that the CSD of an SD card stands for, and how a host gets at its fields:
the response registers of a host controller hold it without its last byte, and a field is
put together from two words.

* `bits_of_words`: shifting and masking two neighbouring words gives the field.
-/

namespace SmartQ.Lib

/-! ## Fields of a long register -/

/-- The mask of the low `size` bits. -/
theorem getLsbD_mask {size i : ℕ} (hsize : size < 32) :
    ((1#32 <<< size) - 1#32).getLsbD i = decide (i < size) := by
  have hval : (1#32 <<< size - 1#32).toNat = 2 ^ size - 1 := by
    have hpow : 2 ^ size < 2 ^ 32 := Nat.pow_lt_pow_right (by decide) hsize
    have hpos : 0 < 2 ^ size := Nat.two_pow_pos size
    rw [BitVec.toNat_sub, BitVec.toNat_shiftLeft, Nat.shiftLeft_eq]
    have hone : (1#32).toNat = 1 := rfl
    rw [hone]
    omega
  rw [BitVec.getLsbD, hval, Nat.testBit_two_pow_sub_one]

/-- Bits `start, …, start + size - 1` of a register that is kept in words of 32 bits. -/
theorem bits_of_words {n : ℕ} (x : BitVec n) {start size : ℕ} (hsize : size < 32)
    {lo hi : BitVec 32} (hlo : lo = x.extractLsb' (32 * (start / 32)) 32)
    (hhi : hi = x.extractLsb' (32 * (start / 32 + 1)) 32) :
    (if size + start % 32 > 32 then lo >>> (start % 32) ||| hi <<< (32 - start % 32)
      else lo >>> (start % 32)) &&& ((1#32 <<< size) - 1#32) =
      (x.extractLsb' start size).setWidth 32 := by
  have hsplit : 32 * (start / 32) + start % 32 = start := Nat.div_add_mod _ _
  apply BitVec.eq_of_getLsbD_eq
  intro i hi32
  rw [BitVec.getLsbD_and, getLsbD_mask hsize, BitVec.getLsbD_setWidth, BitVec.getLsbD_extractLsb']
  by_cases hi' : i < size
  · by_cases hcross : size + start % 32 > 32
    · rw [if_pos hcross, BitVec.getLsbD_or, BitVec.getLsbD_ushiftRight, BitVec.getLsbD_shiftLeft,
        hlo, hhi, BitVec.getLsbD_extractLsb', BitVec.getLsbD_extractLsb']
      -- the bit comes from the first word or, past its end, from the second
      by_cases hword : start % 32 + i < 32
      · have hbit : 32 * (start / 32) + (start % 32 + i) = start + i := by omega
        have hlow : i < 32 - start % 32 := by omega
        simp [hi', hi32, hword, hbit, hlow]
      · have hbit : 32 * (start / 32 + 1) + (i - (32 - start % 32)) = start + i := by omega
        have hhigh : ¬ i < 32 - start % 32 := by omega
        have hoff : i - (32 - start % 32) < 32 := by omega
        simp [hi', hi32, hword, hbit, hhigh, hoff]
    · have hword : start % 32 + i < 32 := by omega
      have hbit : 32 * (start / 32) + (start % 32 + i) = start + i := by omega
      rw [if_neg hcross, BitVec.getLsbD_ushiftRight, hlo, BitVec.getLsbD_extractLsb']
      simp [hi', hi32, hword, hbit]
  · simp [hi']

/-! ## The CSD -/

/-- A CSD register, as a card sends it: 128 bits, of which bit 0 is the last one. -/
abbrev Csd := BitVec 128

namespace Csd

/-- The field of `size` bits from bit `start` on. -/
def field (csd : Csd) (start size : ℕ) : ℕ := (csd.extractLsb' start size).toNat

/-- CSD_STRUCTURE: 0 for standard capacity, 1 for high capacity. -/
def structureVersion (csd : Csd) : ℕ := csd.field 126 2

/-- C_SIZE, C_SIZE_MULT and READ_BL_LEN of a standard capacity card. -/
def cSize (csd : Csd) : ℕ := csd.field 62 12

/-- C_SIZE_MULT: the number of blocks is `C_SIZE + 1` times `2 ^ (C_SIZE_MULT + 2)`. -/
def cSizeMult (csd : Csd) : ℕ := csd.field 47 3

/-- READ_BL_LEN, the logarithm of the length of the blocks that the capacity is counted in. -/
def readBlLen (csd : Csd) : ℕ := csd.field 80 4

/-- C_SIZE of a high capacity card. -/
def cSizeHigh (csd : Csd) : ℕ := csd.field 48 22

/-- The number of blocks of a standard capacity card, of the size it names. -/
def blocks (csd : Csd) : ℕ := (csd.cSize + 1) * 2 ^ (csd.cSizeMult + 2)

/-- The capacity in sectors of 512 bytes. -/
def sectors (csd : Csd) : ℕ :=
  if csd.structureVersion = 0 then csd.blocks * 2 ^ csd.readBlLen / 512
  else (csd.cSizeHigh + 1) * 1024

variable (csd : Csd)

theorem field_lt (start size : ℕ) : csd.field start size < 2 ^ size :=
  (csd.extractLsb' start size).isLt

/-- A field of less than 32 bits as a word. -/
theorem toNat_setWidth_field {start size : ℕ} (hsize : size < 32) :
    ((csd.extractLsb' start size).setWidth 32).toNat = csd.field start size := by
  rw [BitVec.toNat_setWidth]
  apply Nat.mod_eq_of_lt
  exact Nat.lt_trans (csd.field_lt start size) (Nat.pow_lt_pow_right (by decide) hsize)

theorem blocks_pos : 0 < csd.blocks := Nat.mul_pos (Nat.succ_pos _) (Nat.two_pow_pos _)

theorem blocks_le : csd.blocks ≤ 2 ^ 21 := by
  have hsize : csd.cSize + 1 ≤ 2 ^ 12 := csd.field_lt 62 12
  have hmult : csd.cSizeMult < 2 ^ 3 := csd.field_lt 47 3
  have hpow : 2 ^ (csd.cSizeMult + 2) ≤ 2 ^ 9 := Nat.pow_le_pow_right (by decide) (by omega)
  calc
    csd.blocks ≤ 2 ^ 12 * 2 ^ 9 := Nat.mul_le_mul hsize hpow
    _ = 2 ^ 21 := by decide

theorem sectors_standard {csd : Csd} (h : csd.structureVersion = 0) (hlen : 9 ≤ csd.readBlLen) :
    csd.sectors = csd.blocks * 2 ^ (csd.readBlLen - 9) := by
  have hpow : 2 ^ csd.readBlLen = 2 ^ (csd.readBlLen - 9) * 512 := by
    rw [← Nat.pow_add 2 _ 9, Nat.sub_add_cancel hlen]
  rw [sectors, if_pos h, hpow, ← Nat.mul_assoc, Nat.mul_div_cancel _ (by decide)]

/-! ### In the response registers -/

/-- Response register `k` of a host controller that leaves the last byte out; `top` is what
    its highest byte holds. -/
def rspReg (top : BitVec 8) : ℕ → BitVec 32
  | 0 => csd.extractLsb' 8 32
  | 1 => csd.extractLsb' 40 32
  | 2 => csd.extractLsb' 72 32
  | _ => top ++ csd.extractLsb' 104 24

theorem getLsbD_rspReg (top : BitVec 8) {k j : ℕ} (hk : k < 4) (hj : j < 32)
    (hin : 32 * k + j < 120) : (csd.rspReg top k).getLsbD j = csd.getLsbD (8 + 32 * k + j) := by
  match k, hk with
  | 0, _ => simp [rspReg, hj]
  | 1, _ => simp [rspReg, hj]
  | 2, _ => simp [rspReg, hj]
  | 3, _ =>
    have hlow : j < 24 := by omega
    show (top ++ csd.extractLsb' 104 24 : BitVec (8 + 24)).getLsbD j = _
    rw [BitVec.getLsbD_append, if_pos hlow]
    simp [hlow]

/-- The register with another last byte. -/
def withLow (low : BitVec 8) : Csd := csd.extractLsb' 8 120 ++ low

variable {csd}

theorem extract_withLow {low : BitVec 8} {start size : ℕ} (hlow : 8 ≤ start)
    (hend : start + size ≤ 128) :
    (csd.withLow low).extractLsb' start size = csd.extractLsb' start size := by
  apply BitVec.eq_of_getLsbD_eq
  intro i hi
  have hbit : 8 + (start + i - 8) = start + i := by omega
  have hnot : ¬ start + i < 8 := by omega
  have hin : start + i - 8 < 120 := by omega
  rw [withLow, BitVec.getLsbD_extractLsb', BitVec.getLsbD_extractLsb', BitVec.getLsbD_append]
  simp [hnot, hbit, hin]

theorem getLsbD_withLow {low : BitVec 8} {i : ℕ} (hi : i < 8) :
    (csd.withLow low).getLsbD i = low.getLsbD i := by
  rw [withLow, BitVec.getLsbD_append, if_pos hi]

end Csd

end SmartQ.Lib
