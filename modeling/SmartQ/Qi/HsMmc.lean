import Mathlib.Tactic.SplitIfs
import SmartQ.Lib.Bytes
import SmartQ.Lib.SdCard

/-!
# Qi: initialising the SD card

Model of `s3c6410_mmc_init` and `s3c6410_mmc_bread` in
`qi/src/cpu/s3c6410/hs_mmc.c` and of their use in `start_qi` (`start_qi.c`, lines
181–203). What a card answers to the commands is a parameter; so is the layout of the bit
fields of `struct mmc_csd`, which the compiler chooses.

* `toNat_unstuffBits_response`: C_SIZE of a high capacity card is taken from the right
  bits.
* `init_sectors`, `init_failed`: what a success and a failure say of the card, and
  `init_of_silent`, `init_of_comesUp`: when they happen.
* `loadsRight_iff`: the second stage is looked for in the right place if the card comes up
  within the tries, is of high capacity below the largest C_SIZE and gives its CSD.
-/

namespace SmartQ.Qi.HsMmc

open SmartQ.Lib

/-! ## The card -/

/-- `enum card_type`: what the driver takes the card for, by the commands it has answered. -/
inductive CardType
  | none
  | mmc
  | sd
  | sd20
  | sdhc
  deriving DecidableEq, Repr

/-- What `issue_command` returns and the response registers hold then. -/
structure Answer where
  ok : Bool
  reg : ℕ → BitVec 32

/-- What the card answers to the commands of the start, as the driver reads it. -/
structure Answers where
  /-- `SD_SEND_IF_COND` -/
  ifCond : Answer
  /-- `SD_APP_OP_COND` in each round, if it and the command before it get an answer -/
  opCond : ℕ → Option (BitVec 32)
  /-- `MMC_ALL_SEND_CID`, `MMC_SEND_CSD` and `MMC_SELECT_CARD` -/
  allSendCid : Answer
  sendCsd : Answer
  selectCard : Answer
  /-- whether `set_bus_width`, `check_card_status` and `MMC_SET_BLOCKLEN` succeed at each
  try -/
  busWidth : ℕ → Bool
  status : ℕ → Bool
  blockLen : ℕ → Bool

/-- `csd->c_size_mult1` and `csd->c_size` of the 16 bytes of a response. -/
abbrev BitFields := (ℕ → BitVec 8) → ℕ × ℕ

/-- The globals `movi_hc` and `card_type`. -/
structure Globals where
  moviHc : Bool
  cardType : CardType
  deriving DecidableEq, Repr

/-- The globals as the program starts. -/
def Globals.boot : Globals := ⟨true, .none⟩

/-! ## Decoding the CSD -/

/-- The bytes `p8` of the registers in `r1`, the last one first (lines 559–562). -/
def p8 (reg : ℕ → BitVec 32) (i : ℕ) : BitVec 8 := (reg (3 - i / 4)).extractLsb' (8 * (i % 4)) 8

/-- `mangle`: the order in which the bytes of the response registers make up the CSD. -/
def mangle : List ℕ := [7, 0, 1, 2, 11, 4, 5, 6, 15, 8, 9, 10, 0, 12, 13, 14]

/-- `response` (lines 563–564): byte `n` of the CSD, taken from the registers through `mangle`.
    -/
def response (reg : ℕ → BitVec 32) (n : ℕ) : BitVec 8 := p8 reg (mangle.getD n 0)

/-- Word `off` of the bytes. -/
def word (bytes : ℕ → BitVec 8) (off : ℕ) : BitVec 32 :=
  bytes (4 * off + 3) ++ bytes (4 * off + 2) ++ bytes (4 * off + 1) ++ bytes (4 * off)

/-- `UNSTUFF_BITS` (lines 59–69): a field of the CSD, which may lie across two of the four
    words. -/
def unstuffBits (resp : ℕ → BitVec 32) (start size : ℕ) : BitVec 32 :=
  let mask := (if size < 32 then 1#32 <<< size else 0#32) - 1#32
  let off := 3 - start / 32
  let shft := start % 32
  let res := resp off >>> shft
  let res := if size + shft > 32 then res ||| (resp (off - 1) <<< ((32 - shft) % 32)) else res
  res &&& mask

variable (layout : BitFields)

/-- The number of sectors (lines 556–581). -/
def sdSectors (sendCsd : Answer) (cardType : CardType) : ℕ :=
  if sendCsd.ok then
    let bytes := response sendCsd.reg
    match cardType with
    | .sdhc => (((unstuffBits (word bytes) 48 22).toNat + 1) % 2 ^ 32) <<< 10 % 2 ^ 32
    | _ => (((1 <<< (layout bytes).1) * (layout bytes).2) % 2 ^ 32) >>> 9
  else 0

/-! ## Initialisation -/

/-- How `s3c6410_mmc_init` returns: with an error, or with a number of sectors. -/
inductive InitResult
  | failed (ret : ℤ)
  | sectors (n : ℕ)
  deriving DecidableEq, Repr

/-- The value returned by the start of the card: an error code or the number of sectors, both as
    a word. -/
def InitResult.value : InitResult → ℕ
  | .failed ret => toU32 ret
  | .sectors n => n

variable (a : Answers)

/-- `card_type` behind `SD_SEND_IF_COND` (lines 488–494). -/
def ifCondType (cardType : CardType) : CardType :=
  if a.ifCond.ok ∧ (a.ifCond.reg 0).extractLsb' 0 8 = 0xaa then .sd20 else cardType

/-- The loop over `SD_APP_OP_COND` (lines 498–524) from round `n` on: `retries` and
    `card_type` behind it. -/
def opCondLoop : (fuel n : ℕ) → (retries : ℤ) → CardType → Option (ℤ × CardType)
  | 0, _, _, _ => none
  | fuel + 1, n, retries, cardType =>
    if retries = 0 then some (-1, cardType)
    else match a.opCond n with
      | none => opCondLoop fuel (n + 1) (retries - 1) cardType
      | some ocr =>
        -- block addressing is looked at before the card is ready, too
        let hc := ocr.getLsbD 30
        let cardType := if hc then .sdhc else cardType
        if ocr.getLsbD 31 then some (-2, if cardType = .none then .sd else cardType)
        else opCondLoop fuel (n + 1) (if hc then -2 else retries - 1) cardType

/-- A loop that ends with the first try that succeeds. -/
def await (try_ : ℕ → Bool) (fuel : ℕ) : Bool := (List.range fuel).any try_

/-- `s3c6410_mmc_init` (lines 442–603): the card is started, its CSD read, and its size worked
    out from that. -/
def s3c6410MmcInit (fuel : ℕ) (g : Globals) : Option (InitResult × Globals) :=
  match opCondLoop a fuel 0 50 (ifCondType a g.cardType) with
  | none => none
  | some (retries, cardType) =>
    let g := { g with cardType := cardType }
    if retries = -1 then some (.failed (-2), g)
    else if a.allSendCid.ok = false then some (.failed (-3), g)
    else if cardType = .none ∨ cardType = .mmc then some (.failed 1, g)
    else if a.selectCard.ok = false then some (.failed 1, g)
    else if await a.busWidth fuel ∧ await a.status fuel ∧ await a.blockLen fuel then
      some (.sectors (sdSectors layout a.sendCsd cardType), g)
    else none

/-! ## Reading -/

/-- The command of a read: the argument, the number of blocks in the register for it and
    the destination. -/
structure Read where
  cmd : ℕ
  arg : ℕ
  blkcnt : ℕ
  dst : ℕ
  deriving DecidableEq, Repr

/-- `s3c6410_mmc_bread` (lines 605–650) up to its command. -/
def s3c6410MmcBread (g : Globals) (startBlk blknum dst : ℕ) : Read where
  cmd := if blknum > 1 then 18 else 17
  arg := if g.moviHc then startBlk else startBlk * 512 % 2 ^ 32
  blkcnt := blknum % 2 ^ 16
  dst := dst

/-- `start_qi` (lines 181–203): what is read from the card. -/
def startQi (fuel : ℕ) (isJtag : Bool) : Option (List Read) :=
  if isJtag then some []
  else match s3c6410MmcInit layout a fuel Globals.boot with
    | none => none
    | some (r, g) =>
      some [s3c6410MmcBread g (sub32 r.value (1026 + 16 + 256 * 2)) (32 * 2) 0x53000000]

/-! ## The bits of C_SIZE -/

section Bits

variable (csd : Csd) (top : BitVec 8)

/-- A byte of a response register. -/
theorem extract_rspReg {k b : ℕ} (hk : k < 4) (hb : b < 4) (hin : 32 * k + 8 * b + 8 ≤ 120) :
    (csd.rspReg top k).extractLsb' (8 * b) 8 = csd.extractLsb' (8 + 32 * k + 8 * b) 8 := by
  apply BitVec.eq_of_getLsbD_eq
  intro i hi
  rw [BitVec.getLsbD_extractLsb', BitVec.getLsbD_extractLsb',
    Csd.getLsbD_rspReg csd top hk (by omega) (by omega), Nat.add_assoc (8 + 32 * k)]

variable {reg : ℕ → BitVec 32}

/-- The bytes of the first three words, in order of their bits. -/
theorem response_eq (hreg : ∀ k < 4, reg k = csd.rspReg top k) {off j : ℕ} (hoff : off < 3)
    (hj : j < 4) :
    response reg (4 * off + j) = csd.extractLsb' (32 * (3 - off) + 8 * j) 8 := by
  -- the lowest byte of a word is the highest of the register behind
  rcases Nat.eq_zero_or_pos j with rfl | hpos
  · have hmangle : mangle.getD (4 * off + 0) 0 = 4 * (off + 1) + 3 := by
      interval_cases off <;> rfl
    have hdiv : (4 * (off + 1) + 3) / 4 = off + 1 := by omega
    have hmod : (4 * (off + 1) + 3) % 4 = 3 := by omega
    have hstart : 8 + 32 * (3 - (off + 1)) + 8 * 3 = 32 * (3 - off) + 8 * 0 := by omega
    rw [response, hmangle, p8, hdiv, hmod, hreg _ (by omega),
      extract_rspReg csd top (by omega) (by omega) (by omega), hstart]
  · have hmangle : mangle.getD (4 * off + j) 0 = 4 * off + (j - 1) := by
      interval_cases off <;> interval_cases j <;> rfl
    have hdiv : (4 * off + (j - 1)) / 4 = off := by omega
    have hmod : (4 * off + (j - 1)) % 4 = j - 1 := by omega
    have hstart : 8 + 32 * (3 - off) + 8 * (j - 1) = 32 * (3 - off) + 8 * j := by omega
    rw [response, hmangle, p8, hdiv, hmod, hreg _ (by omega),
      extract_rspReg csd top (by omega) (by omega) (by omega), hstart]

/-- The first three words. -/
theorem word_response (hreg : ∀ k < 4, reg k = csd.rspReg top k) {off : ℕ} (hoff : off < 3) :
    word (response reg) off = csd.extractLsb' (32 * (3 - off)) 32 := by
  unfold word
  rw [response_eq csd top hreg hoff (by decide), response_eq csd top hreg hoff (by decide),
    response_eq csd top hreg hoff (by decide), ← Nat.add_zero (4 * off),
    response_eq csd top hreg hoff (by decide)]
  generalize 32 * (3 - off) = s
  have hupper : csd.extractLsb' (s + 8 * 3) 8 ++ csd.extractLsb' (s + 8 * 2) 8 =
      csd.extractLsb' (s + 8 * 2) (8 + 8) :=
    BitVec.extractLsb'_append_extractLsb'_eq_extractLsb' rfl
  have hthree : csd.extractLsb' (s + 8 * 2) (8 + 8) ++ csd.extractLsb' (s + 8 * 1) 8 =
      csd.extractLsb' (s + 8 * 1) (8 + 8 + 8) :=
    BitVec.extractLsb'_append_extractLsb'_eq_extractLsb' rfl
  have hall : csd.extractLsb' (s + 8 * 1) (8 + 8 + 8) ++ csd.extractLsb' (s + 8 * 0) 8 =
      csd.extractLsb' s (8 + 8 + 8 + 8) :=
    BitVec.extractLsb'_append_extractLsb'_eq_extractLsb' rfl
  rw [hupper, hthree, hall]

/-- A field that ends in the second word. -/
theorem toNat_unstuffBits_response (hreg : ∀ k < 4, reg k = csd.rspReg top k) {start size : ℕ}
    (hstart : 32 ≤ start) (hend : start < 96) (hsize : size < 32) :
    (unstuffBits (word (response reg)) start size).toNat = csd.field start size := by
  have hlo : word (response reg) (3 - start / 32) = csd.extractLsb' (32 * (start / 32)) 32 := by
    rw [word_response csd top hreg (by omega), Nat.sub_sub_self (by omega)]
  have hhi : word (response reg) (3 - start / 32 - 1) =
      csd.extractLsb' (32 * (start / 32 + 1)) 32 := by
    rw [word_response csd top hreg (by omega), show 3 - (3 - start / 32 - 1) = start / 32 + 1 by omega]
  have hbits := bits_of_words csd hsize hlo hhi
  rw [← csd.toNat_setWidth_field hsize, ← hbits]
  unfold unstuffBits
  simp only [if_pos hsize]
  by_cases hcross : size + start % 32 > 32
  · have hshft : (32 - start % 32) % 32 = 32 - start % 32 := Nat.mod_eq_of_lt (by omega)
    rw [if_pos hcross, if_pos hcross, hshft]
  · rw [if_neg hcross, if_neg hcross]

end Bits

/-! ## The loop over the operating conditions -/

section Loop

variable {a}

/-- In round `n` the card is ready. -/
def Answers.ReadyAt (a : Answers) (n : ℕ) : Prop := ∃ ocr, a.opCond n = some ocr ∧ ocr.getLsbD 31

/-- In round `n` the card asks for block addresses. -/
def Answers.HighAt (a : Answers) (n : ℕ) : Prop := ∃ ocr, a.opCond n = some ocr ∧ ocr.getLsbD 30

/-- The card lets all tries pass. -/
def Answers.Silent (a : Answers) : Prop := ∀ n < 50, ¬ a.ReadyAt n ∧ ¬ a.HighAt n

/-- The card gets ready before the tries are used up; once it has asked for block
    addresses there is no limit on them. -/
def Answers.ComesUp (a : Answers) : Prop :=
  ∃ n, a.ReadyAt n ∧ (n < 50 ∨ ∃ m < 50, a.HighAt m)

/-- `card_type` once the card is ready. -/
def SdType (cardType : CardType) : Prop := cardType ≠ .none ∧ cardType ≠ .mmc

/-- A round in which the card is not ready. -/
theorem opCondLoop_notReady {n : ℕ} (h : ¬ a.ReadyAt n) {retries : ℤ} (hr : retries ≠ 0)
    (cardType : CardType) :
    ∃ r ty, (∀ fuel, opCondLoop a (fuel + 1) n retries cardType = opCondLoop a fuel (n + 1) r ty) ∧
      (a.HighAt n ∧ r = -2 ∨ ¬ a.HighAt n ∧ r = retries - 1) ∧
      (cardType ≠ .mmc → ty ≠ .mmc) := by
  rcases hocr : a.opCond n with _ | ocr
  · have hlow : ¬ a.HighAt n := by
      rintro ⟨ocr, h, -⟩
      rw [hocr] at h
      cases h
    refine ⟨retries - 1, cardType, fun fuel => ?_, .inr ⟨hlow, rfl⟩, id⟩
    rw [opCondLoop, if_neg hr]
    simp only [hocr]
  · have hbusy : ¬ ocr.getLsbD 31 = true := fun hready => h ⟨ocr, hocr, hready⟩
    by_cases hhc : ocr.getLsbD 30 = true
    · refine ⟨-2, .sdhc, fun fuel => ?_, .inl ⟨⟨ocr, hocr, hhc⟩, rfl⟩, fun _ => by decide⟩
      rw [opCondLoop, if_neg hr]
      simp only [hocr, if_pos hhc, if_neg hbusy]
    · have hlow : ¬ a.HighAt n := by
        rintro ⟨ocr', h, hhigh⟩
        rw [hocr] at h
        cases h
        exact hhc hhigh
      refine ⟨retries - 1, cardType, fun fuel => ?_, .inr ⟨hlow, rfl⟩, id⟩
      rw [opCondLoop, if_neg hr]
      simp only [hocr, if_neg hhc, if_neg hbusy]

/-- The round in which it is. -/
theorem opCondLoop_ready {n : ℕ} (h : a.ReadyAt n) {retries : ℤ} (hr : retries ≠ 0)
    {cardType : CardType} (hty : cardType ≠ .mmc) :
    ∃ ty, (∀ fuel, opCondLoop a (fuel + 1) n retries cardType = some (-2, ty)) ∧ SdType ty ∧
      (a.HighAt n → ty = .sdhc) := by
  obtain ⟨ocr, hocr, hready⟩ := h
  have hstep : ∀ fuel, opCondLoop a (fuel + 1) n retries cardType =
      some (-2, if (if ocr.getLsbD 30 then .sdhc else cardType) = .none then .sd
        else if ocr.getLsbD 30 then .sdhc else cardType) := by
    intro fuel
    rw [opCondLoop, if_neg hr]
    simp only [hocr, if_pos hready]
  by_cases hhc : ocr.getLsbD 30 = true
  · rw [if_pos hhc, if_neg (by decide)] at hstep
    exact ⟨.sdhc, hstep, ⟨by decide, by decide⟩, fun _ => rfl⟩
  · rw [if_neg hhc] at hstep
    have hlow : ¬ a.HighAt n := by
      rintro ⟨ocr', h, hhigh⟩
      rw [hocr] at h
      cases h
      exact hhc hhigh
    by_cases hnone : cardType = .none
    · rw [if_pos hnone] at hstep
      exact ⟨.sd, hstep, ⟨by decide, by decide⟩, fun h => absurd h hlow⟩
    · rw [if_neg hnone] at hstep
      exact ⟨cardType, hstep, ⟨hnone, hty⟩, fun h => absurd h hlow⟩

/-- How the loop ends: all tries have passed, or the card is ready. -/
theorem opCondLoop_some {fuel n : ℕ} {retries r : ℤ} {cardType ty : CardType}
    (h : opCondLoop a fuel n retries cardType = some (r, ty)) (hty : cardType ≠ .mmc)
    (hr : retries < 0 ∨ retries = 50 - n) :
    r = -1 ∧ 0 ≤ retries ∧ (∀ m, n ≤ m → m < 50 → ¬ a.ReadyAt m ∧ ¬ a.HighAt m) ∨
      r = -2 ∧ SdType ty ∧ ∃ m, a.ReadyAt m ∧ (a.HighAt m → ty = .sdhc) ∧
        (retries < 0 ∨ m < 50 ∨ ∃ i < 50, a.HighAt i) := by
  induction fuel generalizing n retries cardType with
  | zero => cases h
  | succ fuel ih =>
    by_cases hzero : retries = 0
    · rw [opCondLoop, if_pos hzero] at h
      cases h
      exact .inl ⟨rfl, hzero.ge, fun m hm hlt => by omega⟩
    · by_cases hready : a.ReadyAt n
      · obtain ⟨ty', hstep, hsd, hhigh⟩ := opCondLoop_ready hready hzero hty
        rw [hstep] at h
        cases h
        exact .inr ⟨rfl, hsd, n, hready, hhigh, by omega⟩
      · obtain ⟨r1, ty1, hstep, hround, hmmc⟩ := opCondLoop_notReady hready hzero cardType
        rw [hstep] at h
        have hnext : r1 < 0 ∨ r1 = 50 - ((n + 1 : ℕ) : ℤ) := by
          rcases hround with ⟨-, rfl⟩ | ⟨-, rfl⟩ <;> omega
        rcases ih h (hmmc hty) hnext with ⟨rfl, hpos, hsilent⟩ | ⟨rfl, hsd, m, hm, hhigh, hin⟩
        · refine .inl ⟨rfl, by omega, fun m hm hlt => ?_⟩
          rcases hm.eq_or_lt with rfl | hm
          · refine ⟨hready, fun hhigh => ?_⟩
            rcases hround with ⟨-, rfl⟩ | ⟨hlow, -⟩
            · omega
            · exact hlow hhigh
          · exact hsilent m hm hlt
        · refine .inr ⟨rfl, hsd, m, hm, hhigh, ?_⟩
          rcases hin with hneg | hin
          · rcases hround with ⟨hhigh, rfl⟩ | ⟨-, rfl⟩
            · by_cases hsign : retries < 0
              · exact .inl hsign
              · exact .inr (.inr ⟨n, by omega, hhigh⟩)
            · exact .inl (by omega)
          · exact .inr hin

/-- A card that lets all tries pass ends the loop. -/
theorem opCondLoop_silent (h : a.Silent) (k n : ℕ) (hn : n + k = 50) (cardType : CardType) :
    ∃ fuel ty, opCondLoop a fuel n k cardType = some (-1, ty) := by
  induction k generalizing n cardType with
  | zero => exact ⟨1, cardType, if_pos rfl⟩
  | succ k ih =>
    obtain ⟨hready, hhigh⟩ := h n (by omega)
    obtain ⟨r1, ty1, hstep, hround, -⟩ :=
      opCondLoop_notReady hready (show ((k + 1 : ℕ) : ℤ) ≠ 0 by omega) cardType
    obtain ⟨fuel, ty, hrun⟩ := ih (n + 1) (by omega) ty1
    refine ⟨fuel + 1, ty, ?_⟩
    rcases hround with ⟨hhigh', -⟩ | ⟨-, rfl⟩
    · exact absurd hhigh' hhigh
    · rw [hstep, ← hrun, Nat.cast_succ, add_sub_cancel_right]

/-- A card that gets ready in round `m` ends it, too. -/
theorem opCondLoop_comesUp {m : ℕ} (h : a.ReadyAt m) (k n : ℕ) (hn : n + k = m) {retries : ℤ}
    {cardType : CardType} (hty : cardType ≠ .mmc) (hr : retries < 0 ∨
      retries = 50 - n ∧ (m < 50 ∨ ∃ i < 50, n ≤ i ∧ a.HighAt i)) :
    ∃ ty, SdType ty ∧ ∃ fuel0, ∀ fuel ≥ fuel0,
      opCondLoop a fuel n retries cardType = some (-2, ty) := by
  induction k generalizing n retries cardType with
  | zero =>
    rw [Nat.add_zero] at hn
    subst hn
    have hzero : retries ≠ 0 := by
      rcases hr with hr | ⟨hr, hlt | ⟨i, hi, hle, -⟩⟩ <;> omega
    obtain ⟨ty, hstep, hsd, -⟩ := opCondLoop_ready h hzero hty
    refine ⟨ty, hsd, 1, fun fuel hfuel => ?_⟩
    obtain ⟨fuel, rfl⟩ := Nat.exists_eq_add_of_le' hfuel
    exact hstep fuel
  | succ k ih =>
    have hzero : retries ≠ 0 := by
      rcases hr with hr | ⟨hr, hlt | ⟨i, hi, hle, -⟩⟩ <;> omega
    by_cases hready : a.ReadyAt n
    · obtain ⟨ty, hstep, hsd, -⟩ := opCondLoop_ready hready hzero hty
      refine ⟨ty, hsd, 1, fun fuel hfuel => ?_⟩
      obtain ⟨fuel, rfl⟩ := Nat.exists_eq_add_of_le' hfuel
      exact hstep fuel
    · obtain ⟨r1, ty1, hstep, hround, hmmc⟩ := opCondLoop_notReady hready hzero cardType
      have hnext : r1 < 0 ∨
          r1 = 50 - ((n + 1 : ℕ) : ℤ) ∧ (m < 50 ∨ ∃ i < 50, n + 1 ≤ i ∧ a.HighAt i) := by
        rcases hround with ⟨-, rfl⟩ | ⟨hlow, rfl⟩
        · exact .inl (by omega)
        · rcases hr with hr | ⟨hr, hlt | ⟨i, hi, hle, hhigh⟩⟩
          · exact .inl (by omega)
          · exact .inr ⟨by omega, .inl hlt⟩
          · refine .inr ⟨by omega, .inr ⟨i, hi, ?_, hhigh⟩⟩
            rcases hle.eq_or_lt with rfl | hlt
            · exact absurd hhigh hlow
            · exact hlt
      obtain ⟨ty, hsd, fuel0, hrun⟩ := ih (n + 1) (by omega) (hmmc hty) hnext
      refine ⟨ty, hsd, fuel0 + 1, fun fuel hfuel => ?_⟩
      obtain ⟨fuel, rfl⟩ := Nat.exists_eq_add_of_le' (Nat.le_of_add_left_le hfuel)
      rw [hstep]
      exact hrun fuel (by omega)

end Loop

/-! ## The initialisation as a whole -/

section Init

variable {layout : BitFields} {a : Answers}

/-- The loops behind the selection of the card end. -/
def Answers.Settles (a : Answers) : Prop :=
  (∃ n, a.busWidth n) ∧ (∃ n, a.status n) ∧ ∃ n, a.blockLen n

theorem await_iff {try_ : ℕ → Bool} {fuel : ℕ} : await try_ fuel = true ↔ ∃ n < fuel, try_ n := by
  unfold await
  rw [List.any_eq_true]
  exact exists_congr fun n => and_congr_left' List.mem_range

theorem ifCondType_boot : ifCondType a Globals.boot.cardType ≠ .mmc := by
  unfold ifCondType
  split_ifs <;> decide

/-- The initialisation keeps `movi_hc`. -/
theorem moviHc_init {fuel : ℕ} {g g' : Globals} {r : InitResult}
    (h : s3c6410MmcInit layout a fuel g = some (r, g')) : g'.moviHc = g.moviHc := by
  unfold s3c6410MmcInit at h
  split at h
  · cases h
  · split_ifs at h
    all_goals
      cases h
      rfl

/-- The rest of the initialisation of a card that is ready. -/
theorem init_of_ready {fuel : ℕ} {ty : CardType} (hsd : SdType ty)
    (h : opCondLoop a fuel 0 50 (ifCondType a Globals.boot.cardType) = some (-2, ty)) :
    s3c6410MmcInit layout a fuel Globals.boot =
      if a.allSendCid.ok = false then some (.failed (-3), ⟨true, ty⟩)
      else if a.selectCard.ok = false then some (.failed 1, ⟨true, ty⟩)
      else if await a.busWidth fuel ∧ await a.status fuel ∧ await a.blockLen fuel then
        some (.sectors (sdSectors layout a.sendCsd ty), ⟨true, ty⟩)
      else none := by
  unfold s3c6410MmcInit
  rw [h]
  simp only [if_neg (show ¬ (-2 : ℤ) = -1 by decide), if_neg (not_or.mpr hsd)]
  rfl

/-- What a success says of the card. -/
theorem init_sectors {fuel n : ℕ} {g : Globals}
    (h : s3c6410MmcInit layout a fuel Globals.boot = some (.sectors n, g)) :
    a.ComesUp ∧ a.allSendCid.ok ∧ a.selectCard.ok ∧ a.Settles ∧
      ∃ m ty, a.ReadyAt m ∧ (a.HighAt m → ty = .sdhc) ∧ n = sdSectors layout a.sendCsd ty := by
  rcases hloop : opCondLoop a fuel 0 50 (ifCondType a Globals.boot.cardType) with _ | ⟨r, ty⟩
  · unfold s3c6410MmcInit at h
    rw [hloop] at h
    cases h
  · rcases opCondLoop_some hloop ifCondType_boot (.inr rfl) with
      ⟨rfl, -⟩ | ⟨rfl, hsd, m, hm, hhigh, hin⟩
    · unfold s3c6410MmcInit at h
      rw [hloop] at h
      cases h
    · rw [init_of_ready hsd hloop] at h
      by_cases hcid : a.allSendCid.ok = false
      · rw [if_pos hcid] at h
        cases h
      rw [if_neg hcid] at h
      by_cases hsel : a.selectCard.ok = false
      · rw [if_pos hsel] at h
        cases h
      rw [if_neg hsel] at h
      obtain ⟨⟨hwidth, hstatus, hlen⟩, h⟩ := Option.ite_none_right_eq_some.mp h
      cases h
      obtain ⟨i, -, hi⟩ := await_iff.mp hwidth
      obtain ⟨j, -, hj⟩ := await_iff.mp hstatus
      obtain ⟨k, -, hk⟩ := await_iff.mp hlen
      exact ⟨⟨m, hm, hin.resolve_left (by omega)⟩, Bool.not_eq_false _ ▸ hcid,
        Bool.not_eq_false _ ▸ hsel, ⟨⟨i, hi⟩, ⟨j, hj⟩, ⟨k, hk⟩⟩, m, ty, hm, hhigh, rfl⟩

/-- What a failure says of the card. -/
theorem init_failed {fuel : ℕ} {g : Globals} {ret : ℤ}
    (h : s3c6410MmcInit layout a fuel Globals.boot = some (.failed ret, g)) :
    a.Silent ∨ a.ComesUp ∧ ¬ (a.allSendCid.ok ∧ a.selectCard.ok) := by
  rcases hloop : opCondLoop a fuel 0 50 (ifCondType a Globals.boot.cardType) with _ | ⟨r, ty⟩
  · unfold s3c6410MmcInit at h
    rw [hloop] at h
    cases h
  · rcases opCondLoop_some hloop ifCondType_boot (.inr rfl) with
      ⟨rfl, -, hsilent⟩ | ⟨rfl, hsd, m, hm, -, hin⟩
    · exact .inl fun n hn => hsilent n (Nat.zero_le n) hn
    · refine .inr ⟨⟨m, hm, hin.resolve_left (by omega)⟩, ?_⟩
      rintro ⟨hcid, hsel⟩
      rw [init_of_ready hsd hloop, if_neg (by simp [hcid]), if_neg (by simp [hsel])] at h
      cases (Option.ite_none_right_eq_some.mp h).2

variable (layout)

/-- A card that lets all tries pass makes it fail. -/
theorem init_of_silent (h : a.Silent) :
    ∃ fuel ret g, s3c6410MmcInit layout a fuel Globals.boot = some (.failed ret, g) := by
  obtain ⟨fuel, ty, hrun⟩ := opCondLoop_silent h 50 0 rfl (ifCondType a Globals.boot.cardType)
  refine ⟨fuel, -2, ⟨true, ty⟩, ?_⟩
  have hrun : opCondLoop a fuel 0 50 (ifCondType a Globals.boot.cardType) = some (-1, ty) := hrun
  unfold s3c6410MmcInit
  rw [hrun]
  rfl

/-- A card that comes up does so unless it gives its CID and is selected, and then it
    succeeds if the loops behind that end. -/
theorem init_of_comesUp (h : a.ComesUp) :
    (¬ (a.allSendCid.ok ∧ a.selectCard.ok) →
        ∃ fuel ret g, s3c6410MmcInit layout a fuel Globals.boot = some (.failed ret, g)) ∧
      (a.allSendCid.ok → a.selectCard.ok → a.Settles →
        ∃ fuel n g, s3c6410MmcInit layout a fuel Globals.boot = some (.sectors n, g)) := by
  obtain ⟨m, hm, hin⟩ := h
  obtain ⟨ty, hsd, fuel0, hrun⟩ := opCondLoop_comesUp hm m 0 (Nat.zero_add m) ifCondType_boot
    (.inr ⟨rfl, hin.imp_right fun ⟨i, hi, hhigh⟩ => ⟨i, hi, Nat.zero_le i, hhigh⟩⟩)
  have hinit : ∀ fuel ≥ fuel0, s3c6410MmcInit layout a fuel Globals.boot = _ :=
    fun fuel hfuel => init_of_ready hsd (hrun fuel hfuel)
  constructor
  · intro hnot
    by_cases hcid : a.allSendCid.ok = false
    · exact ⟨fuel0, _, _, (hinit fuel0 le_rfl).trans (if_pos hcid)⟩
    · have hsel : a.selectCard.ok = false := by
        rw [← Bool.not_eq_true]
        exact fun hsel => hnot ⟨Bool.not_eq_false _ ▸ hcid, hsel⟩
      exact ⟨fuel0, _, _, (hinit fuel0 le_rfl).trans ((if_neg hcid).trans (if_pos hsel))⟩
  · rintro hcid hsel ⟨⟨i, hi⟩, ⟨j, hj⟩, ⟨k, hk⟩⟩
    have hwait : await a.busWidth (fuel0 + i + j + k + 1) ∧ await a.status (fuel0 + i + j + k + 1) ∧
        await a.blockLen (fuel0 + i + j + k + 1) :=
      ⟨await_iff.mpr ⟨i, by omega, hi⟩, await_iff.mpr ⟨j, by omega, hj⟩,
        await_iff.mpr ⟨k, by omega, hk⟩⟩
    refine ⟨fuel0 + i + j + k + 1, sdSectors layout a.sendCsd ty, ⟨true, ty⟩, ?_⟩
    rw [hinit _ (by omega), if_neg (by simp [hcid]), if_neg (by simp [hsel]), if_pos hwait]

end Init

/-! ## The second stage -/

section Result

/-- The answers are those of an SD card with this CSD: it has one of the two structures,
    a card that is ready asks for block addresses exactly if it is of high capacity, and the
    registers hold the CSD it sends. -/
structure IsCard (csd : Csd) (a : Answers) : Prop where
  version : csd.structureVersion = 0 ∨ csd.structureVersion = 1
  high : ∀ n, a.ReadyAt n → (a.HighAt n ↔ csd.structureVersion = 1)
  regs : a.sendCsd.ok → ∃ top, ∀ k < 4, a.sendCsd.reg k = csd.rspReg top k

/-- The argument of a read of sector `startBlk`. -/
def sectorArg (csd : Csd) (startBlk : ℕ) : ℕ :=
  if csd.structureVersion = 1 then startBlk else startBlk * 512 % 2 ^ 32

/-- The second stage is looked for in the right place: a success counts the sectors and
    leaves the addressing right, and a failure is not used. -/
structure LoadsRight (layout : BitFields) (csd : Csd) (a : Answers) : Prop where
  count : ∀ fuel n g, s3c6410MmcInit layout a fuel Globals.boot = some (.sectors n, g) →
    n = csd.sectors
  address : ∀ fuel n g, s3c6410MmcInit layout a fuel Globals.boot = some (.sectors n, g) →
    ∀ startBlk < 2 ^ 32, ∀ blknum dst,
      (s3c6410MmcBread g startBlk blknum dst).arg = sectorArg csd startBlk
  unused : ∀ fuel isJtag ret g reads,
    s3c6410MmcInit layout a fuel Globals.boot = some (.failed ret, g) →
    startQi layout a fuel isJtag = some reads → reads = []

variable {layout : BitFields} {csd : Csd} {a : Answers}

/-- What a high capacity card is said to have. -/
theorem sdSectors_high (h : IsCard csd a) (hok : a.sendCsd.ok) :
    sdSectors layout a.sendCsd .sdhc = (csd.cSizeHigh + 1) * 1024 % 2 ^ 32 := by
  obtain ⟨top, hreg⟩ := h.regs hok
  have hlt : csd.cSizeHigh < 2 ^ 22 := csd.field_lt 48 22
  have hsize : (unstuffBits (word (response a.sendCsd.reg)) 48 22).toNat = csd.cSizeHigh :=
    toNat_unstuffBits_response csd top hreg (by decide) (by decide) (by decide)
  have hfit : (csd.cSizeHigh + 1) % 2 ^ 32 = csd.cSizeHigh + 1 := Nat.mod_eq_of_lt (by omega)
  unfold sdSectors
  rw [if_pos hok]
  simp only [hsize, hfit, Nat.shiftLeft_eq]

/-- A failure is always used. -/
theorem not_loadsRight_of_failed {fuel : ℕ} {ret : ℤ} {g : Globals}
    (h : s3c6410MmcInit layout a fuel Globals.boot = some (.failed ret, g)) :
    ¬ LoadsRight layout csd a := by
  intro hright
  have hread : ∃ r, startQi layout a fuel false = some [r] := by
    unfold startQi
    rw [if_neg (by decide), h]
    exact ⟨_, rfl⟩
  obtain ⟨r, hread⟩ := hread
  cases hright.unused fuel false ret g [r] h hread

/-- A success is right only for a high capacity card. -/
theorem high_of_loadsRight (hright : LoadsRight layout csd a) {fuel n : ℕ} {g : Globals}
    (h : s3c6410MmcInit layout a fuel Globals.boot = some (.sectors n, g)) :
    csd.structureVersion = 1 := by
  by_contra hver
  have harg : (s3c6410MmcBread g 1 1 0).arg = 1 := by
    unfold s3c6410MmcBread
    rw [moviHc_init h]
    rfl
  have hone := hright.address fuel n g h 1 (by decide) 1 0
  rw [harg, sectorArg, if_neg hver] at hone
  cases hone

/-- What a success returns for a high capacity card. -/
theorem sectors_high (hcard : IsCard csd a) (hver : csd.structureVersion = 1) {fuel n : ℕ}
    {g : Globals} (h : s3c6410MmcInit layout a fuel Globals.boot = some (.sectors n, g)) :
    n = if a.sendCsd.ok then (csd.cSizeHigh + 1) * 1024 % 2 ^ 32 else 0 := by
  obtain ⟨-, -, -, -, m, ty, hm, hhigh, rfl⟩ := init_sectors h
  rw [hhigh ((hcard.high m hm).mpr hver)]
  by_cases hok : a.sendCsd.ok = true
  · rw [sdSectors_high hcard hok, if_pos hok]
  · rw [sdSectors, if_neg hok, if_neg hok]

/-- Qi looks in the right place exactly if the card does not let all tries pass and, if it
    comes up, gives its CID and is selected, and is then of high capacity, with a C_SIZE
    below the largest, and gives its CSD. -/
theorem loadsRight_iff (layout : BitFields) (csd : Csd) (a : Answers) (h : IsCard csd a) :
    LoadsRight layout csd a ↔
      ¬ a.Silent ∧ (a.ComesUp → a.allSendCid.ok ∧ a.selectCard.ok ∧
        (a.Settles → csd.structureVersion = 1 ∧ a.sendCsd.ok ∧ csd.cSizeHigh ≠ 2 ^ 22 - 1)) := by
  have hlt : csd.cSizeHigh < 2 ^ 22 := csd.field_lt 48 22
  have hsectors : csd.structureVersion = 1 → csd.sectors = (csd.cSizeHigh + 1) * 1024 := by
    intro hver
    exact if_neg (by omega)
  constructor
  · intro hright
    constructor
    · intro hsilent
      obtain ⟨fuel, ret, g, hfail⟩ := init_of_silent layout hsilent
      exact not_loadsRight_of_failed hfail hright
    · intro hup
      obtain ⟨hfails, hends⟩ := init_of_comesUp layout hup
      have hboth : a.allSendCid.ok ∧ a.selectCard.ok := by
        by_contra hnot
        obtain ⟨fuel, ret, g, hfail⟩ := hfails hnot
        exact not_loadsRight_of_failed hfail hright
      refine ⟨hboth.1, hboth.2, fun hsettles => ?_⟩
      obtain ⟨fuel, n, g, hrun⟩ := hends hboth.1 hboth.2 hsettles
      have hver := high_of_loadsRight hright hrun
      have hcount := hright.count fuel n g hrun
      rw [sectors_high h hver hrun, hsectors hver] at hcount
      by_cases hok : a.sendCsd.ok = true
      · rw [if_pos hok] at hcount
        exact ⟨hver, hok, by omega⟩
      · rw [if_neg hok] at hcount
        omega
  · rintro ⟨hloud, hcond⟩
    constructor
    case count =>
      intro fuel n g hrun
      obtain ⟨hup, -, -, hsettles, -⟩ := init_sectors hrun
      obtain ⟨hver, hok, hmax⟩ := (hcond hup).2.2 hsettles
      rw [sectors_high h hver hrun, if_pos hok, hsectors hver]
      omega
    case address =>
      intro fuel n g hrun startBlk _ blknum dst
      obtain ⟨hup, -, -, hsettles, -⟩ := init_sectors hrun
      unfold s3c6410MmcBread
      rw [sectorArg, if_pos ((hcond hup).2.2 hsettles).1, moviHc_init hrun]
      rfl
    case unused =>
      intro fuel isJtag ret g reads hfail
      rcases init_failed hfail with hsilent | ⟨hup, hnot⟩
      · exact absurd hsilent hloud
      · exact absurd ⟨(hcond hup).1, (hcond hup).2.1⟩ hnot

/-! ### Examples -/

/-- A card with the CSD `csd` that answers every command at once. -/
def promptCard (csd : Csd) : Answers where
  ifCond := ⟨true, fun _ => 0x1aa⟩
  opCond _ := some (if csd.structureVersion = 1 then 0xc0000000 else 0x80000000)
  allSendCid := ⟨true, fun _ => 0⟩
  sendCsd := ⟨true, csd.rspReg 0⟩
  selectCard := ⟨true, fun _ => 0⟩
  busWidth _ := true
  status _ := true
  blockLen _ := true

theorem isCard_promptCard {csd : Csd} (h : csd.structureVersion = 0 ∨ csd.structureVersion = 1) :
    IsCard csd (promptCard csd) where
  version := h
  high n _ := by
    constructor
    · rintro ⟨ocr, hocr, hhigh⟩
      by_contra hver
      cases hocr
      rw [if_neg hver] at hhigh
      exact absurd hhigh (by decide)
    · intro hver
      refine ⟨_, rfl, ?_⟩
      rw [if_pos hver]
      decide
  regs _ := ⟨0, fun _ _ => rfl⟩

theorem readyAt_promptCard (csd : Csd) : (promptCard csd).ReadyAt 0 := by
  refine ⟨_, rfl, ?_⟩
  by_cases hver : csd.structureVersion = 1
  · rw [if_pos hver]
    decide
  · rw [if_neg hver]
    decide

/-- A high capacity card of 1024 sectors. -/
theorem loadsRight_high :
    LoadsRight (fun _ => (0, 0)) (BitVec.ofNat 128 (2 ^ 126))
      (promptCard (BitVec.ofNat 128 (2 ^ 126))) :=
  (loadsRight_iff _ _ _ (isCard_promptCard (.inr (by decide)))).mpr
    ⟨fun hsilent => (hsilent 0 (by decide)).1 (readyAt_promptCard _),
      fun _ => ⟨rfl, rfl, fun _ => ⟨by decide, rfl, by decide⟩⟩⟩

/-- A standard capacity card with a CSD of zeros but for READ_BL_LEN. -/
theorem not_loadsRight_standard :
    IsCard (BitVec.ofNat 128 (9 * 2 ^ 80)) (promptCard (BitVec.ofNat 128 (9 * 2 ^ 80))) ∧
      ¬ LoadsRight (fun _ => (0, 0)) (BitVec.ofNat 128 (9 * 2 ^ 80))
        (promptCard (BitVec.ofNat 128 (9 * 2 ^ 80))) := by
  refine ⟨isCard_promptCard (.inl (by decide)), fun hright => ?_⟩
  have hup : (promptCard (BitVec.ofNat 128 (9 * 2 ^ 80))).ComesUp :=
    ⟨0, readyAt_promptCard _, .inl (by decide)⟩
  obtain ⟨fuel, n, g, hrun⟩ :=
    (init_of_comesUp (fun _ => (0, 0)) hup).2 rfl rfl ⟨⟨0, rfl⟩, ⟨0, rfl⟩, ⟨0, rfl⟩⟩
  exact absurd (high_of_loadsRight hright hrun) (by decide)

end Result

end SmartQ.Qi.HsMmc
