import SmartQ.UBoot.Mmc

/-!
# Byte and block addresses

Cards with a CSD of structure 0 take byte addresses in their commands, cards with
structure 1 block addresses. `mmc_decode_csd` in
`u-boot/cpu/s3c64xx/vfat_hs_mmc.c` sets the static `block_addr` for the second
kind and clears it for neither, and the transfers of every card look at it.

* `Inv.run`: the flag tells whether a block-addressed card was ever selected.
* `addressing_iff`: so it suits the selected card throughout a run iff no
  byte-addressed card is asked for after a block-addressed one.
-/

namespace SmartQ.UBoot

open SmartQ.Lib

/-! ## The CSD of a card -/

/-- `UNSTUFF_BITS` (lines 29–43) on the four words of a response. -/
def unstuffBits (resp : List (BitVec 32)) (start size : ℕ) : BitVec 32 :=
  let mask := (if size < 32 then 1#32 <<< size else 0#32) - 1#32
  let off := start / 32
  let shft := start % 32
  let res := resp.getD off 0#32 >>> shft
  let res := if size + shft > 32 then res ||| (resp.getD (off + 1) 0#32 <<< (32 - shft)) else res
  res &&& mask

/-- `MOVLEFT_CID_CSD` (lines 90–96): the registers hold a response without its
    last byte. -/
def movleftCidCsd (v : List (BitVec 32)) : List (BitVec 32) :=
  let join := fun i => ((v.getD i 0#32 <<< 8) &&& 0xFFFFFF00#32) |||
    ((v.getD (i - 1) 0#32 >>> 24) &&& 0xFF#32)
  [(v.getD 0 0#32 <<< 8) &&& 0xFFFFFF00#32, join 1, join 2, join 3]

/-- `mmc_csd_t`, as far as the number of blocks needs it. -/
structure MmcCsd where
  capacity : ℕ
  readBlkbits : ℕ
  deriving DecidableEq, Repr

/-- `mmc_decode_csd` (lines 903–969) on what `csd` and `block_addr` were: its
    value, and what they are then. -/
def mmcDecodeCsd (resp : List (BitVec 32)) (csd : MmcCsd) (blockAddr : Bool) :
    ℤ × MmcCsd × Bool :=
  let bits := fun start size => (unstuffBits resp start size).toNat
  match bits 126 2 with
  | 0 => (0, ⟨((1 + bits 62 12) <<< (bits 47 3 + 2)) % 2 ^ 32, bits 80 4⟩, blockAddr)
  | 1 => (1, ⟨((1 + bits 48 22) <<< 10) % 2 ^ 32, 9⟩, true)
  | _ => (-2, csd, blockAddr)

/-- A card in a slot: what the response registers hold when its CSD is decoded,
    and its bytes. -/
structure Slot where
  resp : List (BitVec 32)
  contents : Disk

/-- `csd_struct`: the version of the CSD in the slot's response registers, 0 for a card that
    counts bytes. -/
def Slot.csdStruct (s : Slot) : ℕ := (unstuffBits (movleftCidCsd s.resp) 126 2).toNat

/-- `display_card_info` (lines 807–852): the number of blocks and `block_addr`;
    `stale` is what the stack held. -/
def displayCardInfo (stale : MmcCsd) (s : Slot) (blockAddr : Bool) : ℕ × Bool :=
  let r := mmcDecodeCsd (movleftCidCsd s.resp) stale blockAddr
  ((r.2.1.capacity * sub32 r.2.1.readBlkbits 8) % 2 ^ 32, r.2.2)

/-- The card as `mmc_get_dev` describes it. -/
def Slot.card (stale : MmcCsd) (s : Slot) : Card where
  blocks := (displayCardInfo stale s false).1
  contents := s.contents

/-! ## The driver -/

/-- The command of a transfer: the slot it goes to, the command, its argument and
    the block asked for. -/
structure Transfer where
  slot : ℤ
  cmd : ℕ
  arg : ℕ
  startBlk : ℕ
  deriving DecidableEq, Repr

/-- The driver with `block_addr`, and the commands sent so far. -/
structure Driver where
  mmc : Mmc
  blockAddr : Bool
  sent : List Transfer

/-- The driver before any call. -/
def Driver.init : Driver := ⟨⟨-1, .zero⟩, false, []⟩

variable (stale : MmcCsd) (cards : ℕ → Option Slot)

/-- `block_addr` behind `hsmmc_init`; without a card it fails before the CSD. -/
def initBlockAddr (dev : ℕ) (blockAddr : Bool) : Bool :=
  match cards dev with
  | none => blockAddr
  | some s => (displayCardInfo stale s blockAddr).2

/-- `mmc_get_dev` (lines 1223–1236), with `block_addr`. -/
def Driver.getDev (dev : ℕ) (d : Driver) : Driver where
  mmc := (mmcGetDev (fun n => (cards n).map (Slot.card stale)) dev d.mmc).2
  blockAddr := if (dev : ℤ) ≠ d.mmc.devSelect then initBlockAddr stale cards dev d.blockAddr
    else d.blockAddr
  sent := d.sent

/-- `SD_BLOCK_SIZE`: the unit of the block numbers that the callers give. -/
def sdBlockSize : ℕ := 512

/-- The argument of a transfer (lines 1001–1004, 1050–1053). -/
def transferArg (blockAddr : Bool) (startBlk : ℕ) : ℕ :=
  if blockAddr then startBlk else (startBlk * sdBlockSize) % 2 ^ 32

/-- Sending the command of a transfer. -/
def Driver.send (cmd startBlk : ℕ) (d : Driver) : Driver :=
  { d with sent := d.sent ++ [⟨d.mmc.devSelect, cmd, transferArg d.blockAddr startBlk, startBlk⟩] }

/-- `mmc_read_block` (lines 972–1027): the command it sends, for more than one block the one for
    several. -/
def Driver.readBlock (startBlk blknum : ℕ) (d : Driver) : Driver :=
  d.send (if blknum > 1 then 18 else 17) startBlk

/-- `mmc_write_block` (lines 1029–1079): the command it sends, for one block the one for a
    single block. -/
def Driver.writeBlock (startBlk blknum : ℕ) (d : Driver) : Driver :=
  d.send (if blknum = 1 then 24 else 25) startBlk

/-- A call of the driver: a slot is selected or released, or blocks are read or written. -/
inductive Op
  | getDev (dev : ℕ)
  | releaseDev
  | readBlock (startBlk blknum : ℕ)
  | writeBlock (startBlk blknum : ℕ)
  deriving DecidableEq, Repr

/-- What a call does to the driver and sends to the selected card. -/
def Driver.step (d : Driver) : Op → Driver
  | .getDev dev => d.getDev stale cards dev
  | .releaseDev => { d with mmc := mmcReleaseDev d.mmc }
  | .readBlock startBlk blknum => d.readBlock startBlk blknum
  | .writeBlock startBlk blknum => d.writeBlock startBlk blknum

/-- What a sequence of calls does. -/
def Driver.run (ops : List Op) (d : Driver) : Driver := ops.foldl (Driver.step stale cards) d

/-- The device a call asks for. -/
def Op.dev : Op → Option ℕ
  | .getDev dev => some dev
  | _ => none

/-- The devices a sequence of calls asks for, in order. -/
def devs (ops : List Op) : List ℕ := ops.filterMap Op.dev

/-! ## What is wanted -/

/-- Slot `dev` holds a block-addressed card. -/
def IsBlock (dev : ℕ) : Prop := ∃ s, cards dev = some s ∧ s.csdStruct = 1

/-- Slot `dev` holds a byte-addressed card. -/
def IsByte (dev : ℕ) : Prop := ∃ s, cards dev = some s ∧ s.csdStruct = 0

/-- The flag suits the selected card. -/
def Driver.Agrees (d : Driver) : Prop :=
  ∀ dev : ℕ, d.mmc.devSelect = dev →
    (IsBlock cards dev → d.blockAddr = true) ∧ (IsByte cards dev → d.blockAddr = false)

/-- The argument of a transfer suits the card it goes to. -/
def Transfer.Right (t : Transfer) : Prop :=
  ∀ dev : ℕ, t.slot = dev →
    (IsBlock cards dev → t.arg = t.startBlk) ∧
      (IsByte cards dev → t.arg = (t.startBlk * sdBlockSize) % 2 ^ 32)

variable {stale cards}

theorem not_isByte_of_isBlock {dev : ℕ} (h : IsBlock cards dev) : ¬ IsByte cards dev := by
  rintro ⟨s, hs, hbyte⟩
  obtain ⟨t, ht, hblock⟩ := h
  rw [hs] at ht
  cases ht
  omega

/-! ## The flag -/

/-- Decoding sets the flag for structure 1 and leaves it for the others. -/
theorem blockAddr_mmcDecodeCsd (resp : List (BitVec 32)) (csd : MmcCsd) (blockAddr : Bool) :
    (mmcDecodeCsd resp csd blockAddr).2.2 =
      (blockAddr || (unstuffBits resp 126 2).toNat == 1) := by
  unfold mmcDecodeCsd
  simp only
  generalize (unstuffBits resp 126 2).toNat = n
  rcases n with _ | _ | n
  · exact (Bool.or_false _).symm
  · exact (Bool.or_true _).symm
  · show blockAddr = (blockAddr || n + 2 == 1)
    simp

theorem blockAddr_displayCardInfo (s : Slot) (blockAddr : Bool) :
    (displayCardInfo stale s blockAddr).2 = (blockAddr || s.csdStruct == 1) :=
  blockAddr_mmcDecodeCsd _ _ _

theorem initBlockAddr_eq_true_iff (dev : ℕ) (blockAddr : Bool) :
    initBlockAddr stale cards dev blockAddr = true ↔ blockAddr = true ∨ IsBlock cards dev := by
  unfold initBlockAddr IsBlock
  cases cards dev with
  | none => simp
  | some s => simp [blockAddr_displayCardInfo]

/-- What holds when the devices `seen` have been asked for: the last one is
    selected, and the flag tells whether one of them is block-addressed. -/
structure Inv (cards : ℕ → Option Slot) (seen : List ℕ) (d : Driver) : Prop where
  selected : ∀ dev : ℕ, d.mmc.devSelect = dev → seen.getLast? = some dev
  flag : d.blockAddr = true ↔ ∃ dev ∈ seen, IsBlock cards dev

theorem Inv.init : Inv cards [] Driver.init where
  selected dev h := by
    have : (-1 : ℤ) = dev := h
    omega
  flag := by simp [Driver.init]

theorem Inv.getDev {seen : List ℕ} {d : Driver} (h : Inv cards seen d) (dev : ℕ) :
    Inv cards (seen ++ [dev]) (d.getDev stale cards dev) := by
  constructor
  case selected =>
    intro dev' hdev'
    have hsel := devSelect_mmcGetDev (fun n => (cards n).map (Slot.card stale)) dev d.mmc
    have hsame : (dev : ℤ) = dev' := hsel.symm.trans hdev'
    rw [List.getLast?_concat, Nat.cast_injective hsame]
  case flag =>
    have hsplit : (∃ dev' ∈ seen ++ [dev], IsBlock cards dev') ↔
        (∃ dev' ∈ seen, IsBlock cards dev') ∨ IsBlock cards dev := by
      simp only [List.mem_append, List.mem_singleton, or_and_right, exists_or, exists_eq_left]
    rw [hsplit, ← h.flag]
    by_cases hsel : (dev : ℤ) ≠ d.mmc.devSelect
    · rw [Driver.getDev, if_pos hsel, initBlockAddr_eq_true_iff]
    · -- the slot is selected already, so its card was decoded before
      rw [Driver.getDev, if_neg hsel]
      refine ⟨.inl, fun hor => hor.elim id fun hblock => h.flag.mpr ⟨dev, ?_, hblock⟩⟩
      exact List.mem_of_getLast? (h.selected dev (not_not.mp hsel).symm)

theorem Inv.step {seen : List ℕ} {d : Driver} (h : Inv cards seen d) (op : Op) :
    Inv cards (seen ++ devs [op]) (d.step stale cards op) := by
  cases op with
  | getDev dev => exact h.getDev dev
  | releaseDev | readBlock _ _ | writeBlock _ _ =>
    rw [show devs [_] = [] from rfl, List.append_nil]
    exact ⟨h.selected, h.flag⟩

theorem devs_concat (ops : List Op) (op : Op) : devs (ops ++ [op]) = devs ops ++ devs [op] :=
  List.filterMap_append

theorem run_concat (ops : List Op) (op : Op) (d : Driver) :
    d.run stale cards (ops ++ [op]) = (d.run stale cards ops).step stale cards op := by
  rw [Driver.run, List.foldl_append]
  rfl

/-- The flag tells whether a block-addressed card was ever selected. -/
theorem Inv.run (ops : List Op) : Inv cards (devs ops) (Driver.init.run stale cards ops) := by
  induction ops using List.reverseRecOn with
  | nil => exact Inv.init
  | append_singleton ops op ih =>
    rw [devs_concat, run_concat]
    exact ih.step op

/-! ## Runs -/

/-- Along a run the flag suits the selected card. -/
def FlagSuits (stale : MmcCsd) (cards : ℕ → Option Slot) (ops : List Op) : Prop :=
  ∀ k, (Driver.init.run stale cards (ops.take k)).Agrees cards

/-- No byte-addressed card is asked for after a block-addressed one. -/
def BytesFirst (cards : ℕ → Option Slot) (ops : List Op) : Prop :=
  (devs ops).Pairwise fun a b => IsBlock cards a → ¬ IsByte cards b

theorem FlagSuits.of_concat {ops : List Op} {op : Op} (h : FlagSuits stale cards (ops ++ [op])) :
    FlagSuits stale cards ops := by
  intro k
  have hk := h (min k ops.length)
  rw [List.take_append_of_le_length (Nat.min_le_right _ _)] at hk
  rw [List.take_eq_take_min]
  exact hk

/-- With byte-addressed cards first the flag suits the last card asked for. -/
theorem Inv.agrees {ops : List Op} {d : Driver} (h : Inv cards (devs ops) d)
    (hfirst : BytesFirst cards ops) : d.Agrees cards := by
  intro dev hsel
  have hlast := h.selected dev hsel
  refine ⟨fun hblock => h.flag.mpr ⟨dev, List.mem_of_getLast? hlast, hblock⟩, fun hbyte => ?_⟩
  rw [← Bool.not_eq_true, h.flag]
  rintro ⟨a, ha, hblock⟩
  obtain ⟨pre, hpre⟩ := List.getLast?_eq_some_iff.mp hlast
  rw [BytesFirst, hpre, List.pairwise_append] at hfirst
  rw [hpre] at ha
  rcases List.mem_append.mp ha with ha | ha
  · exact hfirst.2.2 a ha dev List.mem_cons_self hblock hbyte
  · rw [List.mem_singleton] at ha
    subst ha
    exact not_isByte_of_isBlock hblock hbyte

theorem BytesFirst.take {ops : List Op} (h : BytesFirst cards ops) (k : ℕ) :
    BytesFirst cards (ops.take k) :=
  h.sublist ((List.take_sublist k ops).filterMap _)

theorem flagSuits_of_bytesFirst {ops : List Op} (h : BytesFirst cards ops) :
    FlagSuits stale cards ops := fun k => (Inv.run _).agrees (h.take k)

/-- A flag that suits every card shows that byte-addressed cards came first. -/
theorem bytesFirst_of_flagSuits {ops : List Op} (h : FlagSuits stale cards ops) :
    BytesFirst cards ops := by
  induction ops using List.reverseRecOn with
  | nil => exact List.Pairwise.nil
  | append_singleton ops op ih =>
    have hinv : Inv cards (devs (ops ++ [op])) (Driver.init.run stale cards (ops ++ [op])) :=
      Inv.run _
    have hall := h (ops ++ [op]).length
    rw [List.take_length] at hall
    rw [BytesFirst, devs_concat, List.pairwise_append]
    refine ⟨ih h.of_concat, ?_, fun a ha b hb hblock hbyte => ?_⟩
    · cases op with
      | getDev dev => exact List.pairwise_singleton _ _
      | releaseDev | readBlock _ _ | writeBlock _ _ => exact List.Pairwise.nil
    · -- the flag was set by `a` and is still when `b` is selected
      obtain ⟨dev, rfl⟩ : ∃ dev, op = .getDev dev := by
        cases op with
        | getDev dev => exact ⟨dev, rfl⟩
        | releaseDev | readBlock _ _ | writeBlock _ _ => cases hb
      rw [List.mem_singleton.mp (show b ∈ [dev] from hb)] at hbyte
      have hsel : (Driver.init.run stale cards (ops ++ [.getDev dev])).mmc.devSelect = dev := by
        rw [run_concat]
        exact devSelect_mmcGetDev _ _ _
      have hset := hinv.flag.mpr ⟨a, by rw [devs_concat]; exact List.mem_append_left _ ha, hblock⟩
      rw [((hall dev hsel).2 hbyte)] at hset
      cases hset

/-- A flag that suits the selected card makes the right argument. -/
theorem Driver.Agrees.right {d : Driver} (h : d.Agrees cards) (cmd startBlk : ℕ) :
    Transfer.Right cards ⟨d.mmc.devSelect, cmd, transferArg d.blockAddr startBlk, startBlk⟩ := by
  intro dev hsel
  obtain ⟨hblock, hbyte⟩ := h dev hsel
  exact ⟨fun hb => by simp [transferArg, hblock hb], fun hb => by simp [transferArg, hbyte hb]⟩

theorem FlagSuits.right {ops : List Op} (h : FlagSuits stale cards ops) :
    ∀ t ∈ (Driver.init.run stale cards ops).sent, t.Right cards := by
  induction ops using List.reverseRecOn with
  | nil => intro t ht; cases ht
  | append_singleton ops op ih =>
    have hprev := h.of_concat ops.length
    rw [List.take_length] at hprev
    intro t ht
    rw [run_concat] at ht
    cases op with
    | getDev dev => exact ih h.of_concat t ht
    | releaseDev => exact ih h.of_concat t ht
    | readBlock startBlk blknum =>
      rcases List.mem_append.mp ht with ht | ht
      · exact ih h.of_concat t ht
      · rw [List.mem_singleton.mp ht]
        exact hprev.right _ _
    | writeBlock startBlk blknum =>
      rcases List.mem_append.mp ht with ht | ht
      · exact ih h.of_concat t ht
      · rw [List.mem_singleton.mp ht]
        exact hprev.right _ _

/-! ## The result -/

/-- In a run the flag suits the selected card in every state, and every transfer
    has the right argument, iff no byte-addressed card is asked for after a
    block-addressed one. -/
theorem addressing_iff (stale : MmcCsd) (cards : ℕ → Option Slot) (ops : List Op) :
    ((∀ k, (Driver.init.run stale cards (ops.take k)).Agrees cards) ∧
        ∀ t ∈ (Driver.init.run stale cards ops).sent, t.Right cards) ↔
      (devs ops).Pairwise fun a b => IsBlock cards a → ¬ IsByte cards b := by
  constructor
  · intro h
    exact bytesFirst_of_flagSuits h.1
  · intro h
    have hflag : FlagSuits stale cards ops := flagSuits_of_bytesFirst h
    exact ⟨hflag, hflag.right⟩

/-- An SDHC card in slot 0 and a byte-addressed one in slot 1. -/
def mixedCards (dev : ℕ) : Option Slot :=
  if dev = 0 then some ⟨[0, 0, 0, 0x00400000], fun _ => 0⟩
  else if dev = 1 then some ⟨[0, 0, 0, 0], fun _ => 0⟩
  else none

/-- Block 1 of the byte-addressed card is asked for as byte 1. -/
theorem addressing_mixedCards :
    IsByte mixedCards 1 ∧
      (Driver.init.run ⟨0, 0⟩ mixedCards [.getDev 0, .getDev 1, .readBlock 1 1]).sent =
        [⟨1, 17, 1, 1⟩] ∧
      ¬ Transfer.Right mixedCards ⟨1, 17, 1, 1⟩ := by
  have hbyte : IsByte mixedCards 1 := ⟨_, rfl, by decide⟩
  refine ⟨hbyte, by decide, fun h => ?_⟩
  exact absurd ((h 1 rfl).2 hbyte) (by decide)

end SmartQ.UBoot
