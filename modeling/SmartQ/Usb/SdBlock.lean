import SmartQ.Lib.CInt
import SmartQ.Lib.Disk

/-!
# Block reads of the USB loader

Model of `sd_card_block_read_smartq` in `qi-usb-lcd/src/cpu/s3c6410/smartq.c` over the copy
routine in the ROM, which takes the number of blocks as an `unsigned short`. The buffer on the
stack is a memory of its own.

* `complete_iff`: the requests that are read in full or refused.
-/

namespace SmartQ.Usb.SdBlock

open SmartQ.Lib

/-! ## Model -/

/-- The copy routine at `0x0C004008`: its value and the memory behind it. -/
abbrev Rom := (start count dest : ℕ) → Disk → Byte × Disk

/-- A copy of two or more blocks that succeeds reads these blocks. -/
def Rom.Reads (rom : Rom) (card : Disk) : Prop :=
  ∀ start count dest mem, 2 ≤ count → count < 2 ^ 16 → (rom start count dest mem).1 ≠ 0 →
    (rom start count dest mem).2 = store mem dest (load card (512 * start) (512 * count))

section Model

variable (rom : Rom) (tmpbuf : ℕ)

/-- `CopyMMCtoMem`, the routine in the ROM; its count is an unsigned short. -/
def copyMMCtoMem (start : ℕ) (count : ℤ) (dest : ℕ) (mem : Disk) : Byte × Disk :=
  rom start (count % 2 ^ 16).toNat dest mem

/-- `sd_card_block_read_smartq` (lines 230–248): its value and the memory. -/
def sdCardBlockReadSmartq (buf start512 : ℕ) (blocks512 : ℤ) (mem : Disk) : ℤ × Disk :=
  if blocks512 > 1 then
    let r := copyMMCtoMem rom start512 blocks512 buf mem
    (if r.1 = 0 then -1 else blocks512, r.2)
  else if blocks512 = 1 then
    let r := copyMMCtoMem rom start512 2 tmpbuf fun _ => 0
    if r.1 = 0 then (-1, mem) else (blocks512, store mem buf (load r.2 tmpbuf 512))
  else (0, mem)

/-! ## Requests -/

/-- The request fails, or its sectors are read and nothing else. -/
def Complete (card : Disk) (buf start512 : ℕ) (blocks512 : ℤ) (mem : Disk) : Prop :=
  let r := sdCardBlockReadSmartq rom tmpbuf buf start512 blocks512 mem
  r.1 < 0 ∨ r.1 = blocks512 ∧
    r.2 = store mem buf (load card (512 * start512) (512 * blocks512.toNat))

end Model

section Requests

variable {rom : Rom} {card : Disk} (hrom : rom.Reads card) (tmpbuf buf start512 : ℕ)

theorem load_store_left (mem : Disk) (a : ℕ) (xs ys : List Byte) :
    load (store mem a (xs ++ ys)) a xs.length = xs := by
  rw [← store_append, load_store_disjoint (.inr le_rfl), load_store]

include hrom

/-- A single block comes from the two in the buffer on the stack. -/
theorem complete_one (mem : Disk) : Complete rom tmpbuf card buf start512 1 mem := by
  unfold Complete sdCardBlockReadSmartq
  simp only
  rw [if_neg (by decide), if_pos trivial]
  by_cases hret : (copyMMCtoMem rom start512 2 tmpbuf fun _ => 0).1 = 0
  · rw [if_pos hret]
    exact .inl (show (-1 : ℤ) < 0 by decide)
  · have hread := hrom start512 2 tmpbuf (fun _ => 0) le_rfl (by decide) hret
    have htwo : load card (512 * start512) (512 * 2) =
        load card (512 * start512) 512 ++ load card (512 * start512 + 512) 512 :=
      load_append card (512 * start512) 512 512
    have hfirst : load (copyMMCtoMem rom start512 2 tmpbuf fun _ => 0).2 tmpbuf 512 =
        load card (512 * start512) 512 := by
      have hleft := load_store_left (fun _ => 0) tmpbuf (load card (512 * start512) 512)
        (load card (512 * start512 + 512) 512)
      rw [length_load, ← htwo, ← hread] at hleft
      exact hleft
    rw [if_neg hret, hfirst]
    exact .inr ⟨rfl, rfl⟩

/-- Two blocks and more are read as one if their number fits. -/
theorem complete_many {n : ℕ} (hlow : 2 ≤ n) (hhigh : n < 2 ^ 16) (mem : Disk) :
    Complete rom tmpbuf card buf start512 n mem := by
  have hcount : ((n : ℤ) % 2 ^ 16).toNat = n := by omega
  unfold Complete sdCardBlockReadSmartq copyMMCtoMem
  simp only
  rw [if_pos (by omega), hcount, Int.toNat_natCast]
  by_cases hret : (rom start512 n buf mem).1 = 0
  · rw [if_pos hret]
    exact .inl (show (-1 : ℤ) < 0 by decide)
  · rw [if_neg hret]
    exact .inr ⟨rfl, hrom start512 n buf mem hlow hhigh hret⟩

theorem complete_of_range {blocks512 : ℤ} (hlow : 0 ≤ blocks512) (hhigh : blocks512 < 2 ^ 16)
    (mem : Disk) : Complete rom tmpbuf card buf start512 blocks512 mem := by
  obtain ⟨n, rfl⟩ := Int.eq_ofNat_of_zero_le hlow
  by_cases hmany : 2 ≤ n
  · exact complete_many hrom tmpbuf buf start512 hmany (by omega) mem
  · by_cases hone : n = 1
    · subst hone
      exact complete_one hrom tmpbuf buf start512 mem
    · obtain rfl : n = 0 := by omega
      exact .inr ⟨rfl, (store_nil mem buf).symm⟩

end Requests

/-! ## Requests out of range -/

section Refuted

variable (tmpbuf buf start512 : ℕ)

/-- A routine that copies the blocks it is asked for. -/
def copyRom (card : Disk) : Rom := fun start count dest mem =>
  (1, store mem dest (load card (512 * start) (512 * count)))

theorem copyRom_reads (card : Disk) : (copyRom card).Reads card := fun _ _ _ _ _ _ _ => rfl

/-- A request for fewer than no blocks gets the value 0. -/
theorem not_complete_negative {blocks512 : ℤ} (h : blocks512 < 0) (rom : Rom) (card mem : Disk) :
    ¬ Complete rom tmpbuf card buf start512 blocks512 mem := by
  unfold Complete sdCardBlockReadSmartq
  simp only
  rw [if_neg (by omega), if_neg (by omega)]
  rintro (hneg | ⟨heq, -⟩)
  · exact lt_irrefl 0 hneg
  · exact absurd heq h.ne'

/-- Of a request for `2 ^ 16` blocks and more the last one is not read. -/
theorem not_complete_large {blocks512 : ℤ} (h : 2 ^ 16 ≤ blocks512) :
    ¬ Complete (copyRom fun _ => 1) tmpbuf (fun _ => 1) buf start512 blocks512 fun _ => 0 := by
  obtain ⟨n, rfl⟩ := Int.eq_ofNat_of_zero_le (show 0 ≤ blocks512 by omega)
  unfold Complete sdCardBlockReadSmartq copyMMCtoMem copyRom
  simp only
  rw [if_pos (by omega), if_neg (by decide), Int.toNat_natCast]
  rintro (hneg | ⟨-, hmem⟩)
  · omega
  · have hcode : store (fun _ => 0) buf
        (load (fun _ => 1) (512 * start512) (512 * ((n : ℤ) % 2 ^ 16).toNat))
        (buf + (512 * n - 1)) = 0 := store_apply_of_ge (by rw [length_load]; omega)
    have hfull : store (fun _ => 0) buf (load (fun _ => 1) (512 * start512) (512 * n))
        (buf + (512 * n - 1)) = 1 := by
      rw [store_apply_of_mem (by omega) (by rw [length_load]; omega), Nat.add_sub_cancel_left,
        byteAt_load (by omega)]
    have hlast : (0 : Byte) = 1 := hcode.symm.trans ((congrFun hmem _).trans hfull)
    exact absurd hlast (by decide)

end Refuted

/-- A request is read in full or fails, whatever the card and the memory, exactly if its count is
    not negative and fits into an `unsigned short`. -/
theorem complete_iff (tmpbuf buf start512 : ℕ) (blocks512 : ℤ) :
    (∀ (rom : Rom) (card : Disk), rom.Reads card →
      ∀ mem, Complete rom tmpbuf card buf start512 blocks512 mem) ↔
        0 ≤ blocks512 ∧ blocks512 < 2 ^ 16 := by
  constructor
  · intro h
    constructor
    · by_contra hneg
      exact not_complete_negative tmpbuf buf start512 (not_le.mp hneg) _ _ _
        (h (copyRom fun _ => 0) (fun _ => 0) (copyRom_reads _) fun _ => 0)
    · by_contra hlarge
      exact not_complete_large tmpbuf buf start512 (not_lt.mp hlarge)
        (h (copyRom fun _ => 1) (fun _ => 1) (copyRom_reads _) fun _ => 0)
  · rintro ⟨hlow, hhigh⟩ rom card hrom mem
    exact complete_of_range hrom tmpbuf buf start512 hlow hhigh mem

/-- A request for 65537 blocks, the first one at sector 0. -/
theorem not_complete_65537 :
    ¬ ∀ (rom : Rom) (card : Disk), rom.Reads card →
      ∀ mem, Complete rom 0 card 0x50000000 0 65537 mem := by
  intro h
  exact not_complete_large 0 0x50000000 0 (by decide)
    (h (copyRom fun _ => 1) (fun _ => 1) (copyRom_reads _) fun _ => 0)

end SmartQ.Usb.SdBlock
