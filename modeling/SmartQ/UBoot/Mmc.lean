import SmartQ.Lib.Disk

/-!
# The MMC driver's current card

Model of `mmc_get_dev` and `mmc_release_dev` in
`u-boot/cpu/s3c64xx/vfat_hs_mmc.c` (lines 1087–1236). The driver serves one slot
at a time, named by the static `dev_select`; the static `mmc_dev` describes the
card in it. Of the descriptor the fields its users look at are kept.

* `mmcGetDev_release`: a released slot that is still selected is not
  initialised again.
-/

namespace SmartQ.UBoot

open SmartQ.Lib

/-- `IF_TYPE_MMC`: the interface that the descriptors of the slots name. -/
def ifTypeMmc : ℕ := 6

/-- `block_dev_desc_t`: the interface type, the number of blocks and whether
    `block_read` is set. -/
structure BlockDevDesc where
  ifType : ℕ
  lba : ℕ
  blockRead : Bool
  deriving DecidableEq, Repr

/-- A descriptor of zeros. -/
def BlockDevDesc.zero : BlockDevDesc := ⟨0, 0, false⟩

/-- A card: the number of blocks `display_card_info` works out, and its bytes. -/
structure Card where
  blocks : ℕ
  contents : Disk

/-- The descriptor `hsmmc_init` fills in for a card. -/
def Card.desc (c : Card) : BlockDevDesc := ⟨ifTypeMmc, c.blocks, true⟩

/-- The static state of the driver. `dev_select` starts as -1. -/
structure Mmc where
  devSelect : ℤ
  mmcDev : BlockDevDesc
  deriving DecidableEq, Repr

/-- `mmc_release_dev` (lines 1217–1221): the one descriptor is zeroed, and the slot stays
    selected. -/
def mmcReleaseDev (m : Mmc) : Mmc := { m with mmcDev := .zero }

/-- `hsmmc_init` (lines 1087–1215) with `card` in the selected slot: success and
    the new state. -/
def hsmmcInit (card : Option Card) (m : Mmc) : Bool × Mmc :=
  match card with
  | none => (false, { m with mmcDev := .zero })
  | some c => (true, { m with mmcDev := c.desc })

/-- `mmc_get_dev` (lines 1223–1236): the descriptor, `none` for `NULL`. -/
def mmcGetDev (cards : ℕ → Option Card) (dev : ℕ) (m : Mmc) : Option BlockDevDesc × Mmc :=
  if (dev : ℤ) ≠ m.devSelect then
    let m := if m.mmcDev.ifType = ifTypeMmc then mmcReleaseDev m else m
    let (ok, m) := hsmmcInit (cards dev) { m with devSelect := dev }
    if ok then (some m.mmcDev, m) else (none, m)
  else (some m.mmcDev, m)

/-- A slot that is selected is not looked at again. -/
theorem mmcGetDev_selected (cards : ℕ → Option Card) {dev : ℕ} {m : Mmc}
    (h : m.devSelect = dev) : mmcGetDev cards dev m = (some m.mmcDev, m) := by
  rw [mmcGetDev, if_neg (by simp [h])]

/-- A successful `mmc_get_dev` leaves its slot selected. -/
theorem devSelect_mmcGetDev (cards : ℕ → Option Card) (dev : ℕ) (m : Mmc) :
    (mmcGetDev cards dev m).2.devSelect = dev := by
  by_cases h : (dev : ℤ) = m.devSelect
  · rw [mmcGetDev_selected cards h.symm]
    exact h.symm
  · rw [mmcGetDev, if_pos h]
    cases cards dev <;> rfl

end SmartQ.UBoot
