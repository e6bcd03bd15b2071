import SmartQ.Lib.CInt

/-!
# Qi: identifying the card at the Glamo

Model of `mmc_init` in `qi/src/drivers/glamo-mmc.c` over what `mmc_cmd` returns and leaves
in `response`. The registers of the controller and the texts printed are left out.

* `opCondLoop_silent`, `opCondLoop_ready`, `opCondLoop_unbounded`: how the loop over ACMD41
  ends, by what the card answers in its rounds.
* `cardType_mmcInit`: no card is taken for an MMC card.
* `identifies_iff`: a card is identified rightly if it gets ready in the thousand rounds and
  has asked for block addresses before only if it does then, or never does either and is not
  an MMC card.
-/

namespace SmartQ.Qi.GlamoInit

open SmartQ.Lib

/-! ## The card -/

/-- `enum card_type`: what the driver takes the card for, by the commands it has answered. -/
inductive CardType
  | none
  | mmc
  | sd
  | sd20
  | sdhc
  deriving DecidableEq, Repr

/-- What `mmc_cmd` returns, and the response of the card. -/
structure Answer where
  error : ℤ
  response : ℕ → Byte

/-- What the card answers to each command; those of a loop count its rounds. -/
structure Answers where
  goIdleState : Answer
  sendIfCond : Answer
  appCmd : ℕ → Answer
  appOpCond : ℕ → Answer
  sendOpCond : ℕ → Answer
  allSendCid : Answer
  setRelativeAddr : Answer
  sendRelativeAddr : Answer
  sendCsd : Answer
  selectCard : Answer

/-- A command sent to the card. -/
structure Cmd where
  opcode : ℕ
  arg : ℕ
  deriving DecidableEq, Repr

/-! ## The driver -/

/-- The buffer `response`, the globals of the driver and the commands since it was called. -/
structure State where
  response : ℕ → Byte
  cardType : CardType
  mmcReady : Bool
  rca : ℕ
  sent : List Cmd

/-- `MMC_RSP_R2` fills the buffer, every other response three halfwords. -/
def respR2 : ℕ := 16

/-- The six bytes of a response other than `MMC_RSP_R2`, read as three halfwords. -/
def respShort : ℕ := 6

/-- `mmc_cmd`: an error leaves the buffer as it is. -/
def State.mmcCmd (s : State) (opcode arg len : ℕ) (a : Answer) : State :=
  { s with
    response := if a.error = 0 then fun i => if i < len then a.response i else s.response i
      else s.response
    sent := s.sent ++ [⟨opcode, arg⟩] }

/-- `hcs`: a card of version 2 is told that block addresses are fine. -/
def hcs (v2 : Bool) : ℕ := if v2 then 0x40000000 else 0

variable (a : Answers)

/-- The loop over ACMD41 (lines 675–701) from round `n` on: `retries` and the state behind
    it. -/
def opCondLoop (v2 : Bool) : (fuel n : ℕ) → (retries : ℤ) → State → Option (ℤ × State)
  | 0, _, _, _ => none
  | fuel + 1, n, retries, s =>
    if retries = 0 then some (-1, s)
    else
      let retries := int32 (retries - 1)
      let s := s.mmcCmd 55 0 respShort (a.appCmd n)
      if (a.appCmd n).error ≠ 0 then opCondLoop v2 fuel (n + 1) retries s
      else
        let s := s.mmcCmd 41 (hcs v2 ||| 0x00300000) respShort (a.appOpCond n)
        if (a.appOpCond n).error ≠ 0 then opCondLoop v2 fuel (n + 1) retries s
        else
          -- block addressing is looked at before the card is ready, too
          let high := s.response 3 &&& 0x40 ≠ 0
          let s := if high then { s with cardType := .sdhc } else s
          if s.response 3 &&& 0x80 ≠ 0 then
            some (-2, if s.cardType = .none then { s with cardType := .sd } else s)
          else opCondLoop v2 fuel (n + 1) (if high then -2 else retries) s

/-- The loop over `MMC_SEND_OP_COND` (lines 710–715) from try `i` on. -/
def sendOpCondLoop : (retries i : ℕ) → State → ℤ × State
  | 0, i, s => (-1, s.mmcCmd 1 0x00ffc000 respShort (a.sendOpCond i))
  | k + 1, i, s =>
    let s := s.mmcCmd 1 0x00ffc000 respShort (a.sendOpCond i)
    if s.response 3 &&& 0x80 = 0 then sendOpCondLoop k (i + 1) s else (k, s)

/-- `SD_SEND_RELATIVE_ADDR` (lines 778–781) or its counterpart for MMC. -/
def relativeAddr (s : State) : State :=
  if s.cardType = .mmc then s.mmcCmd 3 (1 <<< 16) respShort a.setRelativeAddr
  else
    let s := s.mmcCmd 3 (1 <<< 16) respShort a.sendRelativeAddr
    { s with rca := (s.response 2).toNat ||| ((s.response 3).toNat <<< 8) }

/-- The identification behind the loops (lines 735–847). -/
def selectCard (v2 : Bool) (s : State) : ℤ × State :=
  let s := s.mmcCmd 2 (hcs v2) respR2 a.allSendCid
  if a.allSendCid.error ≠ 0 then (1, s)
  else if s.cardType = .none then (1, s)
  else
    let s := relativeAddr a s
    let s := s.mmcCmd 9 ((s.rca <<< 16) % 2 ^ 32) respR2 a.sendCsd
    let s := if a.sendCsd.error = 0 then { s with mmcReady := true } else s
    let rc := if a.sendCsd.error = 0 then 0 else -1
    let s := s.mmcCmd 7 ((s.rca <<< 16) % 2 ^ 32) respShort a.selectCard
    (if a.selectCard.error ≠ 0 then 1 else rc, s)

/-- `mmc_init` behind the loop over ACMD41 (lines 702–847). -/
def afterLoop (v2 : Bool) (retries : ℤ) (s : State) : ℤ × State :=
  if retries = -1 then (1, s)
  else if s.cardType = .none then
    let (retries, s) := sendOpCondLoop a 10 0 s
    if 0 ≤ retries then selectCard a v2 { s with cardType := .mmc } else (1, s)
  else selectCard a v2 s

/-- `mmc_init` up to `SD_SEND_IF_COND` (lines 619–666). -/
def sayHello (s : State) : State :=
  let s := { s with cardType := .none, sent := [] }
  let s := s.mmcCmd 0 0 respShort a.goIdleState
  s.mmcCmd 8 0x1aa respShort a.sendIfCond

/-- The card is one of version 2 (line 667). -/
def isV2 (s : State) : Bool :=
  decide (a.sendIfCond.error = 0) && (sayHello a s).response 0 == 0xaa

/-- `mmc_init` up to the loop over ACMD41. -/
def beforeLoop (s : State) : State :=
  if isV2 a s then { sayHello a s with cardType := .sd20 } else sayHello a s

/-- `mmc_init` (lines 610–848): the start of the card, with its loop of at most 1000 requests
    for the operating condition. -/
def mmcInit (fuel : ℕ) (s : State) : Option (ℤ × State) :=
  (opCondLoop a (isV2 a s) fuel 0 1000 (beforeLoop a s)).map fun r =>
    afterLoop a (isV2 a s) r.1 r.2

/-! ## The commands sent -/

/-- The attempts at ACMD41, each of which begins with `MMC_APP_CMD`. -/
def State.attempts (s : State) : ℕ := s.sent.countP fun c => c.opcode = 55

section Commands

variable (s : State) (arg len : ℕ) (b : Answer)

@[simp] theorem cardType_mmcCmd (opcode : ℕ) :
    (s.mmcCmd opcode arg len b).cardType = s.cardType := rfl

theorem attempts_mmcCmd {opcode : ℕ} (h : opcode ≠ 55) :
    (s.mmcCmd opcode arg len b).attempts = s.attempts := by
  unfold State.attempts State.mmcCmd
  rw [List.countP_append, List.countP_singleton, if_neg (by simpa using h), Nat.add_zero]

theorem attempts_appCmd : (s.mmcCmd 55 arg len b).attempts = s.attempts + 1 := by
  unfold State.attempts State.mmcCmd
  rw [List.countP_append, List.countP_singleton, if_pos (by simp)]

/-- Without an error the buffer begins with the response. -/
theorem response_mmcCmd {b : Answer} (h : b.error = 0) {i len : ℕ} (hi : i < len)
    (opcode : ℕ) : (s.mmcCmd opcode arg len b).response i = b.response i := by
  unfold State.mmcCmd
  simp only [if_pos h, if_pos hi]

end Commands

/-! ## The loop over ACMD41 -/

section Loop

variable {a} {v : Bool}

/-- The card answers in round `n`. -/
def Answers.AnsweredAt (a : Answers) (n : ℕ) : Prop :=
  (a.appCmd n).error = 0 ∧ (a.appOpCond n).error = 0

/-- In round `n` the card is ready. -/
def Answers.ReadyAt (a : Answers) (n : ℕ) : Prop :=
  a.AnsweredAt n ∧ (a.appOpCond n).response 3 &&& 0x80 ≠ 0

/-- In round `n` the card asks for block addresses. -/
def Answers.HighAt (a : Answers) (n : ℕ) : Prop :=
  a.AnsweredAt n ∧ (a.appOpCond n).response 3 &&& 0x40 ≠ 0

/-- The state in which a round with two answers looks at the second. -/
def asked (a : Answers) (v : Bool) (n : ℕ) (s : State) : State :=
  (s.mmcCmd 55 0 respShort (a.appCmd n)).mmcCmd 41 (hcs v ||| 0x00300000) respShort (a.appOpCond n)

theorem attempts_asked (n : ℕ) (s : State) : (asked a v n s).attempts = s.attempts + 1 := by
  unfold asked
  rw [attempts_mmcCmd _ _ _ _ (by decide), attempts_appCmd]

/-- A round with two answers. -/
theorem opCondLoop_answered {n : ℕ} (h : a.AnsweredAt n) {retries : ℤ} (hr : retries ≠ 0)
    (s : State) (fuel : ℕ) :
    opCondLoop a v (fuel + 1) n retries s =
      (let high := (a.appOpCond n).response 3 &&& 0x40 ≠ 0
      let s := if high then { asked a v n s with cardType := .sdhc } else asked a v n s
      if (a.appOpCond n).response 3 &&& 0x80 ≠ 0 then
        some (-2, if s.cardType = .none then { s with cardType := .sd } else s)
      else opCondLoop a v fuel (n + 1) (if high then -2 else int32 (retries - 1)) s) := by
  have hresp := response_mmcCmd (s.mmcCmd 55 0 respShort (a.appCmd n)) (hcs v ||| 0x00300000)
    h.2 (show 3 < respShort by decide) 41
  rw [opCondLoop, if_neg hr, if_neg (not_not.mpr h.1), if_neg (not_not.mpr h.2)]
  by_cases hhigh : (a.appOpCond n).response 3 &&& 0x40 ≠ 0
  · simp only [hresp, if_pos hhigh]
    rfl
  · simp only [hresp, if_neg hhigh]
    rfl

/-- A round in which the card is not ready. -/
theorem opCondLoop_notReady {n : ℕ} (h : ¬ a.ReadyAt n) {retries : ℤ} (hr : retries ≠ 0)
    (s : State) :
    ∃ r s', (∀ fuel, opCondLoop a v (fuel + 1) n retries s =
        opCondLoop a v fuel (n + 1) r s') ∧ s'.attempts = s.attempts + 1 ∧
      (a.HighAt n ∧ r = -2 ∧ s'.cardType = .sdhc ∨
        ¬ a.HighAt n ∧ r = int32 (retries - 1) ∧ s'.cardType = s.cardType) := by
  by_cases happ : (a.appCmd n).error = 0
  · by_cases hop : (a.appOpCond n).error = 0
    · have hbusy : ¬ (a.appOpCond n).response 3 &&& 0x80 ≠ 0 := fun hb => h ⟨⟨happ, hop⟩, hb⟩
      by_cases hhigh : (a.appOpCond n).response 3 &&& 0x40 ≠ 0
      · refine ⟨-2, { asked a v n s with cardType := .sdhc }, fun fuel => ?_, attempts_asked n s,
          .inl ⟨⟨⟨happ, hop⟩, hhigh⟩, rfl, rfl⟩⟩
        rw [opCondLoop_answered ⟨happ, hop⟩ hr]
        simp only [if_pos hhigh, if_neg hbusy]
      · refine ⟨int32 (retries - 1), asked a v n s, fun fuel => ?_, attempts_asked n s,
          .inr ⟨fun hh => hhigh hh.2, rfl, rfl⟩⟩
        rw [opCondLoop_answered ⟨happ, hop⟩ hr]
        simp only [if_neg hhigh, if_neg hbusy]
    · refine ⟨int32 (retries - 1), asked a v n s, fun fuel => ?_, attempts_asked n s,
        .inr ⟨fun hh => hop hh.1.2, rfl, rfl⟩⟩
      rw [opCondLoop, if_neg hr, if_neg (not_not.mpr happ), if_pos hop]
      rfl
  · refine ⟨int32 (retries - 1), s.mmcCmd 55 0 respShort (a.appCmd n), fun fuel => ?_,
      attempts_appCmd .., .inr ⟨fun hh => happ hh.1.1, rfl, rfl⟩⟩
    rw [opCondLoop, if_neg hr, if_pos happ]

/-- What a card that is ready is taken for, by what it was before. -/
def readyType (high : Prop) [Decidable high] (cardType : CardType) : CardType :=
  if high then .sdhc else if cardType = .none then .sd else cardType

open Classical in
/-- The round in which it is. -/
theorem opCondLoop_readyAt {n : ℕ} (h : a.ReadyAt n) {retries : ℤ} (hr : retries ≠ 0)
    (s : State) :
    ∃ s', (∀ fuel, opCondLoop a v (fuel + 1) n retries s = some (-2, s')) ∧
      s'.attempts = s.attempts + 1 ∧ s'.cardType = readyType (a.HighAt n) s.cardType := by
  obtain ⟨hanswered, hready⟩ := h
  unfold readyType
  by_cases hhigh : (a.appOpCond n).response 3 &&& 0x40 ≠ 0
  · refine ⟨{ asked a v n s with cardType := .sdhc }, fun fuel => ?_, attempts_asked n s, ?_⟩
    · rw [opCondLoop_answered hanswered hr]
      simp only [if_pos hhigh, if_pos hready]
      rw [if_neg (by decide)]
    · rw [if_pos ⟨hanswered, hhigh⟩]
  · have hlow : ¬ a.HighAt n := fun hh => hhigh hh.2
    have hsame : (asked a v n s).cardType = s.cardType := rfl
    rw [if_neg hlow]
    by_cases hnone : s.cardType = .none
    · refine ⟨{ asked a v n s with cardType := .sd }, fun fuel => ?_, attempts_asked n s, ?_⟩
      · rw [opCondLoop_answered hanswered hr]
        simp only [if_neg hhigh, if_pos hready]
        rw [if_pos (hsame.trans hnone)]
      · rw [if_pos hnone]
    · refine ⟨asked a v n s, fun fuel => ?_, attempts_asked n s, ?_⟩
      · rw [opCondLoop_answered hanswered hr]
        simp only [if_neg hhigh, if_pos hready]
        rw [if_neg (hsame ▸ hnone)]
      · rw [if_neg hnone, hsame]

/-- The counter stays away from zero for `k` rounds. -/
def Lasts (k : ℕ) (retries : ℤ) : Prop :=
  k ≤ retries ∧ retries < 2 ^ 31 ∨ retries < 0 ∧ k - 2 ^ 31 ≤ retries

theorem Lasts.ne_zero {k : ℕ} {retries : ℤ} (h : Lasts (k + 1) retries) : retries ≠ 0 := by
  unfold Lasts at h
  omega

theorem Lasts.int32_pred {k : ℕ} {retries : ℤ} (h : Lasts (k + 1) retries) :
    int32 (retries - 1) = retries - 1 := by
  unfold Lasts at h
  exact int32_of_range (by omega) (by omega)

theorem Lasts.pred {k : ℕ} {retries : ℤ} (h : Lasts (k + 1) retries) :
    Lasts k (int32 (retries - 1)) := by
  rw [h.int32_pred]
  unfold Lasts at h ⊢
  omega

theorem lasts_neg_two {k : ℕ} (hk : k < 2 ^ 31 - 1) : Lasts k (-2) := by
  unfold Lasts
  omega

/-- A card that neither gets ready nor asks for block addresses uses the tries up. -/
theorem opCondLoop_silent {k n : ℕ} (hk : k ≤ 1000)
    (h : ∀ i < k, ¬ a.ReadyAt (n + i) ∧ ¬ a.HighAt (n + i)) (s : State) :
    ∃ s', opCondLoop a v (k + 1) n k s = some (-1, s') ∧ s'.attempts = s.attempts + k ∧
      s'.cardType = s.cardType := by
  induction k generalizing n s with
  | zero => exact ⟨s, if_pos rfl, rfl, rfl⟩
  | succ k ih =>
    obtain ⟨hready, hlow⟩ := h 0 (Nat.succ_pos k)
    have hlasts : Lasts (k + 1) ((k + 1 : ℕ) : ℤ) := .inl ⟨le_rfl, by omega⟩
    obtain ⟨r, s1, hstep, hcount, hround⟩ := opCondLoop_notReady hready hlasts.ne_zero s
    rcases hround with ⟨hhigh, -⟩ | ⟨-, rfl, hty⟩
    · exact absurd hhigh hlow
    · have hpred : int32 (((k + 1 : ℕ) : ℤ) - 1) = k := by
        rw [hlasts.int32_pred]
        omega
      have hrest : ∀ i < k, ¬ a.ReadyAt (n + 1 + i) ∧ ¬ a.HighAt (n + 1 + i) := by
        intro i hi
        rw [Nat.add_right_comm]
        exact h (i + 1) (by omega)
      obtain ⟨s', hrun, hcount', hty'⟩ := ih (by omega) hrest s1
      refine ⟨s', ?_, by omega, hty'.trans hty⟩
      have hstep' := hstep (k + 1)
      rw [hpred] at hstep'
      exact hstep'.trans hrun

open Classical in
/-- A card that gets ready after `k` rounds ends the loop then. -/
theorem opCondLoop_ready {k n : ℕ} (hk : k < 1000) (h : ∀ i < k, ¬ a.ReadyAt (n + i))
    (hready : a.ReadyAt (n + k)) {retries : ℤ} (hr : Lasts (k + 1) retries) (s : State) :
    ∃ s', opCondLoop a v (k + 1) n retries s = some (-2, s') ∧
      s'.attempts = s.attempts + (k + 1) ∧
      s'.cardType = readyType (∃ i ≤ k, a.HighAt (n + i)) s.cardType := by
  induction k generalizing n retries s with
  | zero =>
    obtain ⟨s', hstep, hcount, hty⟩ := opCondLoop_readyAt hready hr.ne_zero s
    refine ⟨s', hstep 0, hcount, hty.trans ?_⟩
    have hiff : a.HighAt (n + 0) ↔ ∃ i ≤ 0, a.HighAt (n + i) := by simp
    unfold readyType
    exact if_congr hiff rfl rfl
  | succ k ih =>
    obtain ⟨r, s1, hstep, hcount, hround⟩ := opCondLoop_notReady (h 0 (by omega)) hr.ne_zero s
    have hr1 : Lasts (k + 1) r := by
      rcases hround with ⟨-, rfl, -⟩ | ⟨-, rfl, -⟩
      · exact lasts_neg_two (by omega)
      · exact hr.pred
    have hrest : ∀ i < k, ¬ a.ReadyAt (n + 1 + i) := by
      intro i hi
      rw [Nat.add_right_comm]
      exact h (i + 1) (by omega)
    have hready' : a.ReadyAt (n + 1 + k) := by
      rw [Nat.add_right_comm]
      exact hready
    obtain ⟨s', hrun, hcount', hty'⟩ := ih (by omega) hrest hready' hr1 s1
    refine ⟨s', (hstep (k + 1)).trans hrun, by omega, hty'.trans ?_⟩
    have hshift : (∃ i ≤ k + 1, a.HighAt (n + i)) ↔
        a.HighAt n ∨ ∃ i ≤ k, a.HighAt (n + 1 + i) := by
      constructor
      · rintro ⟨i, hi, hhigh⟩
        rcases i with _ | i
        · exact .inl hhigh
        · exact .inr ⟨i, by omega, by rwa [Nat.add_right_comm]⟩
      · rintro (hhigh | ⟨i, hi, hhigh⟩)
        · exact ⟨0, by omega, hhigh⟩
        · exact ⟨i + 1, by omega, by rwa [Nat.add_right_comm] at hhigh⟩
    unfold readyType
    rcases hround with ⟨hhigh, -, hs1⟩ | ⟨hlow, -, hs1⟩
    · rw [if_pos (hshift.mpr (.inl hhigh)), hs1, if_neg (show CardType.sdhc ≠ .none by decide)]
      exact ite_self _
    · rw [hs1]
      exact if_congr ⟨fun h => hshift.mpr (.inr h), fun h => (hshift.mp h).resolve_left hlow⟩
        rfl rfl

/-- Attempts are only added. -/
theorem attempts_opCondLoop {fuel n : ℕ} {retries r : ℤ} {s s' : State}
    (h : opCondLoop a v fuel n retries s = some (r, s')) : s.attempts ≤ s'.attempts := by
  induction fuel generalizing n retries s with
  | zero => cases h
  | succ fuel ih =>
    by_cases hzero : retries = 0
    · rw [opCondLoop, if_pos hzero] at h
      cases h
      exact le_rfl
    · by_cases hready : a.ReadyAt n
      · obtain ⟨s1, hstep, hcount, -⟩ := opCondLoop_readyAt hready hzero s
        rw [hstep] at h
        cases h
        omega
      · obtain ⟨r1, s1, hstep, hcount, -⟩ := opCondLoop_notReady hready hzero s
        rw [hstep] at h
        have hle := ih h
        omega

/-- Once a card that is not ready has asked for block addresses, the tries do not end. -/
theorem opCondLoop_unbounded {k fuel n : ℕ} (hk : k ≤ 1000) (h : ∀ i < k, ¬ a.ReadyAt (n + i))
    {retries r : ℤ} (hr : Lasts k retries) (hhigh : retries < 0 ∨ ∃ i < k, a.HighAt (n + i))
    {s s' : State} (hrun : opCondLoop a v fuel n retries s = some (r, s')) :
    s.attempts + (k + 1) ≤ s'.attempts := by
  induction k generalizing fuel n retries s with
  | zero =>
    have hne : retries ≠ 0 := by
      rcases hhigh with hneg | ⟨i, hi, -⟩ <;> omega
    rcases fuel with _ | fuel
    · cases hrun
    · by_cases hready : a.ReadyAt n
      · obtain ⟨s1, hstep, hcount, -⟩ := opCondLoop_readyAt hready hne s
        rw [hstep] at hrun
        cases hrun
        omega
      · obtain ⟨r1, s1, hstep, hcount, -⟩ := opCondLoop_notReady hready hne s
        rw [hstep] at hrun
        have hle := attempts_opCondLoop hrun
        omega
  | succ k ih =>
    rcases fuel with _ | fuel
    · cases hrun
    · have hbusy : ¬ a.ReadyAt n := h 0 (by omega)
      obtain ⟨r1, s1, hstep, hcount, hround⟩ := opCondLoop_notReady hbusy hr.ne_zero s
      rw [hstep] at hrun
      have hrest : ∀ i < k, ¬ a.ReadyAt (n + 1 + i) := by
        intro i hi
        rw [Nat.add_right_comm]
        exact h (i + 1) (by omega)
      rcases hround with ⟨-, rfl, -⟩ | ⟨hlow, rfl, -⟩
      · have hle := ih (by omega) hrest (lasts_neg_two (by omega)) (.inl (by decide)) hrun
        omega
      · have hhigh' : int32 (retries - 1) < 0 ∨ ∃ i < k, a.HighAt (n + 1 + i) := by
          rcases hhigh with hneg | ⟨i, hi, hhigh⟩
          · rw [hr.int32_pred]
            exact .inl (by omega)
          · rcases i with _ | i
            · exact absurd hhigh hlow
            · exact .inr ⟨i, by omega, by rwa [Nat.add_right_comm]⟩
        have hle := ih (by omega) hrest hr.pred hhigh' hrun
        omega

/-- Behind the loop no card is taken for an MMC card, and one that has got ready is taken for
    an SD card. -/
theorem cardType_opCondLoop {fuel n : ℕ} {retries r : ℤ} {s s' : State}
    (hs : s.cardType ≠ .mmc) (h : opCondLoop a v fuel n retries s = some (r, s')) :
    s'.cardType ≠ .mmc ∧ (r = -1 ∨ r = -2 ∧ s'.cardType ≠ .none) := by
  classical
  induction fuel generalizing n retries s with
  | zero => cases h
  | succ fuel ih =>
    by_cases hzero : retries = 0
    · rw [opCondLoop, if_pos hzero] at h
      cases h
      exact ⟨hs, .inl rfl⟩
    · by_cases hready : a.ReadyAt n
      · obtain ⟨s1, hstep, -, hty⟩ := opCondLoop_readyAt hready hzero s
        rw [hstep] at h
        cases h
        rw [hty]
        unfold readyType
        split_ifs with hhigh hnone
        · exact ⟨by decide, .inr ⟨rfl, by decide⟩⟩
        · exact ⟨by decide, .inr ⟨rfl, by decide⟩⟩
        · exact ⟨hs, .inr ⟨rfl, hnone⟩⟩
      · obtain ⟨r1, s1, hstep, -, hround⟩ := opCondLoop_notReady hready hzero s
        rw [hstep] at h
        refine ih ?_ h
        rcases hround with ⟨-, -, hty⟩ | ⟨-, -, hty⟩
        · rw [hty]
          decide
        · rw [hty]
          exact hs

/-- More fuel leads to the same end. -/
theorem opCondLoop_mono {fuel n : ℕ} {retries : ℤ} {s : State} {x : ℤ × State}
    (h : opCondLoop a v fuel n retries s = some x) (m : ℕ) :
    opCondLoop a v (fuel + m) n retries s = some x := by
  induction fuel generalizing n retries s with
  | zero => cases h
  | succ fuel ih =>
    rw [Nat.add_right_comm]
    by_cases hzero : retries = 0
    · rw [opCondLoop, if_pos hzero] at h ⊢
      exact h
    · by_cases hready : a.ReadyAt n
      · obtain ⟨s1, hstep, -⟩ := opCondLoop_readyAt (v := v) hready hzero s
        rw [hstep] at h ⊢
        exact h
      · obtain ⟨r1, s1, hstep, -⟩ := opCondLoop_notReady (v := v) hready hzero s
        rw [hstep] at h ⊢
        exact ih h

end Loop

/-! ## Behind the loop -/

section After

variable {a} (v2 : Bool)

@[simp] theorem cardType_relativeAddr (s : State) : (relativeAddr a s).cardType = s.cardType := by
  unfold relativeAddr
  split_ifs <;> rfl

theorem attempts_relativeAddr (s : State) : (relativeAddr a s).attempts = s.attempts := by
  unfold relativeAddr
  split_ifs
  · exact attempts_mmcCmd _ _ _ _ (by decide)
  · exact attempts_mmcCmd s (1 <<< 16) respShort a.sendRelativeAddr (by decide)

/-- The identification keeps the type of the card. -/
theorem cardType_selectCard (s : State) : (selectCard a v2 s).2.cardType = s.cardType := by
  have hcsd : ∀ t : State,
      (if a.sendCsd.error = 0 then { t with mmcReady := true } else t).cardType = t.cardType := by
    intro t
    split_ifs <;> rfl
  unfold selectCard
  by_cases herr : a.allSendCid.error ≠ 0
  · rw [if_pos herr]
    rfl
  · rw [if_neg herr]
    by_cases hnone : s.cardType = .none
    · rw [if_pos (by simpa using hnone)]
      rfl
    · rw [if_neg (by simpa using hnone)]
      exact (hcsd _).trans (cardType_relativeAddr _)

theorem attempts_selectCard (s : State) : (selectCard a v2 s).2.attempts = s.attempts := by
  have hcid : (s.mmcCmd 2 (hcs v2) respR2 a.allSendCid).attempts = s.attempts :=
    attempts_mmcCmd _ _ _ _ (by decide)
  have hcsd : ∀ t : State,
      (if a.sendCsd.error = 0 then { t with mmcReady := true } else t).attempts = t.attempts := by
    intro t
    split_ifs <;> rfl
  unfold selectCard
  by_cases herr : a.allSendCid.error ≠ 0
  · rw [if_pos herr]
    exact hcid
  · rw [if_neg herr]
    by_cases hnone : s.cardType = .none
    · rw [if_pos (by simpa using hnone)]
      exact hcid
    · rw [if_neg (by simpa using hnone)]
      refine (attempts_mmcCmd _ _ _ _ (by decide)).trans ((hcsd _).trans ?_)
      exact (attempts_mmcCmd _ _ _ _ (by decide)).trans ((attempts_relativeAddr _).trans hcid)

theorem attempts_sendOpCondLoop (retries i : ℕ) (s : State) :
    (sendOpCondLoop a retries i s).2.attempts = s.attempts := by
  induction retries generalizing i s with
  | zero => exact attempts_mmcCmd _ _ _ _ (by decide)
  | succ k ih =>
    have hcmd : (s.mmcCmd 1 0x00ffc000 respShort (a.sendOpCond i)).attempts = s.attempts :=
      attempts_mmcCmd _ _ _ _ (by decide)
    unfold sendOpCondLoop
    dsimp only
    split_ifs
    · exact (ih _ _).trans hcmd
    · exact hcmd

theorem attempts_afterLoop (retries : ℤ) (s : State) :
    (afterLoop a v2 retries s).2.attempts = s.attempts := by
  have hmmc : ({ (sendOpCondLoop a 10 0 s).2 with cardType := .mmc } : State).attempts =
      s.attempts := attempts_sendOpCondLoop 10 0 s
  unfold afterLoop
  split_ifs
  · rfl
  · dsimp only
    split_ifs
    · exact (attempts_selectCard v2 _).trans hmmc
    · exact hmmc
  · exact attempts_selectCard v2 s

/-- A type that is known stays. -/
theorem cardType_afterLoop {retries : ℤ} (hr : retries ≠ -1) {s : State}
    (h : s.cardType ≠ .none) : (afterLoop a v2 retries s).2.cardType = s.cardType := by
  unfold afterLoop
  rw [if_neg hr, if_neg h]
  exact cardType_selectCard v2 s

end After

/-! ## Identification -/

section Identifies

/-- The card answers `SD_SEND_IF_COND` as one of version 2. -/
def Answers.IsV2 : Prop := a.sendIfCond.error = 0 ∧ a.sendIfCond.response 0 = 0xaa

instance : Decidable a.IsV2 := instDecidableAnd

/-- Round `n` is the first of the thousand in which the card is ready. -/
def Answers.FirstReady (n : ℕ) : Prop := n < 1000 ∧ a.ReadyAt n ∧ ∀ m < n, ¬ a.ReadyAt m

/-- The card answers no attempt at ACMD41. -/
def Answers.Silent : Prop := ∀ n < 1000, ¬ a.AnsweredAt n

/-- The card gets ready after `MMC_SEND_OP_COND`. -/
def Answers.MmcReady : Prop :=
  ∃ i ≤ 10, (a.sendOpCond i).error = 0 ∧ (a.sendOpCond i).response 3 &&& 0x80 ≠ 0

/-- The state of the driver is right for the card. -/
structure Right (s : State) : Prop where
  /-- the tries are those `retries` is set to -/
  bounded : s.attempts ≤ 1000
  sdhc : ∀ n, a.FirstReady n → (s.cardType = .sdhc ↔ a.HighAt n)
  sd : ∀ n, a.FirstReady n → ¬ a.HighAt n → s.cardType = if a.IsV2 then .sd20 else .sd
  mmc : a.Silent → a.MmcReady → s.cardType = .mmc

/-- `mmc_init` ends with the right card type. -/
def Identifies (s : State) : Prop :=
  ∃ fuel rc s', mmcInit a fuel s = some (rc, s') ∧ Right a s'

variable {a}

theorem isV2_iff (s : State) : isV2 a s = true ↔ a.IsV2 := by
  unfold isV2 Answers.IsV2
  rw [Bool.and_eq_true, decide_eq_true_iff, beq_iff_eq]
  refine and_congr_right fun herr => ?_
  unfold sayHello
  rw [response_mmcCmd _ _ herr (by decide)]

theorem cardType_beforeLoop (s : State) :
    (beforeLoop a s).cardType = if a.IsV2 then .sd20 else .none := by
  unfold beforeLoop
  by_cases hv2 : a.IsV2
  · rw [if_pos ((isV2_iff s).mpr hv2), if_pos hv2]
  · rw [if_neg (mt (isV2_iff s).mp hv2), if_neg hv2]
    rfl

theorem attempts_beforeLoop (s : State) : (beforeLoop a s).attempts = 0 := by
  unfold beforeLoop
  split_ifs <;> rfl

/-- No card is taken for an MMC card. -/
theorem cardType_mmcInit {fuel : ℕ} {rc : ℤ} {s s' : State}
    (h : mmcInit a fuel s = some (rc, s')) : s'.cardType ≠ .mmc := by
  obtain ⟨⟨r, s1⟩, hloop, hafter⟩ := Option.map_eq_some_iff.mp h
  have hbefore : (beforeLoop a s).cardType ≠ .mmc := by
    rw [cardType_beforeLoop]
    split_ifs <;> decide
  obtain ⟨hmmc, rfl | ⟨rfl, hnone⟩⟩ := cardType_opCondLoop hbefore hloop
  · cases hafter
    exact hmmc
  · have hkeep := cardType_afterLoop (a := a) (isV2 a s) (show (-2 : ℤ) ≠ -1 by decide) hnone
    rw [← congrArg (fun r : ℤ × State => r.2.cardType) hafter]
    exact hkeep ▸ hmmc

/-- Two runs end alike. -/
theorem mmcInit_unique {fuel fuel' : ℕ} {s : State} {x y : ℤ × State}
    (hx : mmcInit a fuel s = some x) (hy : mmcInit a fuel' s = some y) : x = y := by
  unfold mmcInit at hx hy
  obtain ⟨u, hu, rfl⟩ := Option.map_eq_some_iff.mp hx
  obtain ⟨v, hv, rfl⟩ := Option.map_eq_some_iff.mp hy
  have huv := (opCondLoop_mono hu fuel').symm.trans (Nat.add_comm _ _ ▸ opCondLoop_mono hv fuel)
  rw [Option.some.inj huv]

/-- Whether a run is right decides whether the card is identified. -/
theorem identifies_iff_right {fuel : ℕ} {s : State} {x : ℤ × State}
    (h : mmcInit a fuel s = some x) : Identifies a s ↔ Right a x.2 := by
  constructor
  · rintro ⟨fuel', rc, s', hrun, hright⟩
    rw [mmcInit_unique h hrun]
    exact hright
  · intro hright
    exact ⟨fuel, x.1, x.2, h, hright⟩

theorem FirstReady.unique {m n : ℕ} (hm : a.FirstReady m) (hn : a.FirstReady n) : m = n := by
  rcases Nat.lt_trichotomy m n with hlt | heq | hgt
  · exact absurd hm.2.1 (hn.2.2 m hlt)
  · exact heq
  · exact absurd hn.2.1 (hm.2.2 n hgt)

/-- A card that gets ready is identified iff it asks for block addresses then, should it have
    done so before. -/
theorem identifies_iff_of_firstReady {n : ℕ} (h : a.FirstReady n) (s : State) :
    Identifies a s ↔ ((∃ m < n, a.HighAt m) → a.HighAt n) := by
  classical
  obtain ⟨hn, hready, hfirst⟩ := h
  have hlasts : Lasts (n + 1) 1000 := .inl ⟨by omega, by decide⟩
  obtain ⟨s1, hloop, hcount, hty⟩ := opCondLoop_ready (v := isV2 a s) hn
    (fun i hi => by rw [Nat.zero_add]; exact hfirst i hi) (by rwa [Nat.zero_add]) hlasts
    (beforeLoop a s)
  have hshift : (∃ i ≤ n, a.HighAt (0 + i)) ↔ (∃ m < n, a.HighAt m) ∨ a.HighAt n := by
    simp only [Nat.zero_add, Nat.le_iff_lt_or_eq]
    constructor
    · rintro ⟨i, hi | rfl, hhigh⟩
      · exact .inl ⟨i, hi, hhigh⟩
      · exact .inr hhigh
    · rintro (⟨i, hi, hhigh⟩ | hhigh)
      · exact ⟨i, .inl hi, hhigh⟩
      · exact ⟨n, .inr rfl, hhigh⟩
  have hrun : mmcInit a (n + 1) s = some (afterLoop a (isV2 a s) (-2) s1) := by
    unfold mmcInit
    rw [hloop]
    rfl
  have hknown : s1.cardType ≠ .none := by
    rw [hty]
    unfold readyType
    split_ifs with h1 h2
    · decide
    · decide
    · exact h2
  have hend := cardType_afterLoop (a := a) (isV2 a s) (show (-2 : ℤ) ≠ -1 by decide) hknown
  rw [identifies_iff_right hrun]
  constructor
  · intro hright hbefore
    refine (hright.sdhc n ⟨hn, hready, hfirst⟩).mp (hend.trans (hty.trans ?_))
    exact if_pos (hshift.mpr (.inl hbefore))
  · intro hcond
    have hhigh : (∃ i ≤ n, a.HighAt (0 + i)) ↔ a.HighAt n :=
      hshift.trans ⟨fun h => h.elim hcond id, .inr⟩
    have hlow : ¬ a.HighAt n →
        s1.cardType = if a.IsV2 then .sd20 else .sd := by
      intro hlow
      rw [hty, readyType, if_neg (mt hhigh.mp hlow), cardType_beforeLoop]
      by_cases hv2 : a.IsV2
      · rw [if_pos hv2, if_neg (by decide), if_pos hv2]
      · rw [if_neg hv2, if_pos rfl, if_neg hv2]
    constructor
    case bounded =>
      rw [attempts_afterLoop, hcount, attempts_beforeLoop]
      omega
    case sdhc =>
      intro m hm
      rw [FirstReady.unique hm ⟨hn, hready, hfirst⟩, hend]
      constructor
      · intro hsdhc
        by_contra hnot
        rw [hlow hnot] at hsdhc
        split_ifs at hsdhc
      · intro hhigh'
        exact hty.trans (if_pos (hhigh.mpr hhigh'))
    case sd =>
      intro m hm hnot
      rw [FirstReady.unique hm ⟨hn, hready, hfirst⟩] at hnot
      exact hend.trans (hlow hnot)
    case mmc =>
      intro hsilent
      exact absurd hready.1 (hsilent n hn)

/-- One that does not is identified iff it never asks for block addresses and is not an MMC
    card. -/
theorem identifies_iff_of_notReady (h : ∀ n < 1000, ¬ a.ReadyAt n) (s : State) :
    Identifies a s ↔ (∀ n < 1000, ¬ a.HighAt n) ∧ ¬ (a.Silent ∧ a.MmcReady) := by
  by_cases hhigh : ∃ n < 1000, a.HighAt n
  · constructor
    · rintro ⟨fuel, rc, s', hrun, hright⟩
      obtain ⟨⟨r, s1⟩, hloop, hafter⟩ := Option.map_eq_some_iff.mp hrun
      have hmany := opCondLoop_unbounded (k := 1000) le_rfl
        (fun i hi => by rw [Nat.zero_add]; exact h i hi) (.inl ⟨by decide, by decide⟩)
        (.inr (by simpa using hhigh)) hloop
      have hsame := attempts_afterLoop (a := a) (isV2 a s) (r, s1).1 (r, s1).2
      rw [hafter] at hsame
      have hbounded : s'.attempts ≤ 1000 := hright.bounded
      have heq : s'.attempts = s1.attempts := hsame
      omega
    · rintro ⟨hlow, -⟩
      obtain ⟨n, hn, hn'⟩ := hhigh
      exact absurd hn' (hlow n hn)
  · have hlow : ∀ n < 1000, ¬ a.HighAt n := fun n hn hn' => hhigh ⟨n, hn, hn'⟩
    obtain ⟨s1, hloop, hcount, -⟩ := opCondLoop_silent (v := isV2 a s) (k := 1000) le_rfl
      (fun i hi => by rw [Nat.zero_add]; exact ⟨h i hi, hlow i hi⟩) (beforeLoop a s)
    have hrun : mmcInit a 1001 s = some (1, s1) := by
      unfold mmcInit
      refine (congrArg _ hloop).trans ?_
      rfl
    have hnot : s1.cardType ≠ .mmc := cardType_mmcInit hrun
    rw [identifies_iff_right hrun]
    constructor
    · intro hright
      exact ⟨hlow, fun hmmc => hnot (hright.mmc hmmc.1 hmmc.2)⟩
    · rintro ⟨-, hmmc⟩
      constructor
      case bounded =>
        show s1.attempts ≤ 1000
        rw [hcount, attempts_beforeLoop]
      case sdhc => exact fun n hn => absurd hn.2.1 (h n hn.1)
      case sd => exact fun n hn => absurd hn.2.1 (h n hn.1)
      case mmc => exact fun hsilent hready => absurd ⟨hsilent, hready⟩ hmmc

variable (a)

/-- A card is identified rightly iff, should it get ready in the thousand rounds, it does not
    give up asking for block addresses, and, should it not, it never asks for them and does not
    get ready after `MMC_SEND_OP_COND` without having answered ACMD41. -/
theorem identifies_iff (s : State) :
    Identifies a s ↔
      (∀ n, a.FirstReady n → (∃ m < n, a.HighAt m) → a.HighAt n) ∧
        ((∀ n < 1000, ¬ a.ReadyAt n) →
          (∀ n < 1000, ¬ a.HighAt n) ∧ ¬ (a.Silent ∧ a.MmcReady)) := by
  classical
  by_cases h : ∃ n, n < 1000 ∧ a.ReadyAt n
  · obtain ⟨hn, hready⟩ := Nat.find_spec h
    have hfirst : a.FirstReady (Nat.find h) :=
      ⟨hn, hready, fun m hm hm' => Nat.find_min h hm ⟨hm.trans hn, hm'⟩⟩
    rw [identifies_iff_of_firstReady hfirst]
    constructor
    · intro hcond
      refine ⟨fun n hn' => FirstReady.unique hfirst hn' ▸ hcond, fun hnone => ?_⟩
      exact absurd hready (hnone _ hn)
    · rintro ⟨hcond, -⟩
      exact hcond _ hfirst
  · have hnone : ∀ n < 1000, ¬ a.ReadyAt n := fun n hn hn' => h ⟨n, hn, hn'⟩
    rw [identifies_iff_of_notReady hnone]
    constructor
    · intro hcond
      exact ⟨fun n hn => absurd hn.2.1 (hnone n hn.1), fun _ => hcond⟩
    · rintro ⟨-, hcond⟩
      exact hcond hnone

/-- An MMC card: it knows no command of SD cards, and is ready at once. -/
def mmcCard : Answers where
  goIdleState := ⟨0, fun _ => 0⟩
  sendIfCond := ⟨-4, fun _ => 0⟩
  appCmd _ := ⟨-4, fun _ => 0⟩
  appOpCond _ := ⟨-4, fun _ => 0⟩
  sendOpCond _ := ⟨0, fun _ => 0x80⟩
  allSendCid := ⟨0, fun _ => 0⟩
  setRelativeAddr := ⟨0, fun _ => 0⟩
  sendRelativeAddr := ⟨0, fun _ => 0⟩
  sendCsd := ⟨0, fun _ => 0⟩
  selectCard := ⟨0, fun _ => 0⟩

/-- The driver as it is loaded. -/
def State.boot : State := ⟨fun _ => 0, .none, false, 1, []⟩

theorem not_identifies_mmcCard : ¬ Identifies mmcCard State.boot := by
  have hsilent : mmcCard.Silent := fun n _ h => absurd h.1 (show (-4 : ℤ) ≠ 0 by decide)
  have hnone : ∀ n < 1000, ¬ mmcCard.ReadyAt n := fun n hn h => hsilent n hn h.1
  rw [identifies_iff_of_notReady hnone]
  rintro ⟨-, hmmc⟩
  exact hmmc ⟨hsilent, 0, by decide, rfl, by decide⟩

end Identifies

end SmartQ.Qi.GlamoInit
