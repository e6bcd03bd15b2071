import SmartQ.Firmware.MkSmartQ
import SmartQ.UBoot.CmdHhtech

/-!
# The fallback to the backup copy

`do_start_firmware` and `do_upgrade` try copy 1 and, when that fails, copy 0.
When it is `do_bootm` that fails, `boot_image` has released the slot before:
`mmc_get_dev` hands out the zeroed descriptor of a slot it takes for selected,
and `do_read_inand` calls its null `block_read`.

* `tryCopy_released`: a copy tried on a released slot ends in that call.
* `backup_never_tried`: so after a failed boot of copy 1 the backup is never
  read and never booted.
-/

namespace SmartQ.UBoot

open SmartQ.Lib SmartQ.Firmware

variable {b : Board}

/-! ## The selected slot -/

/-- The fragment leaves the MMC driver alone. -/
def SameMmc (s s' : St) : Prop := s'.mmc = s.mmc

namespace SameMmc

variable {α β : Type}

theorem refl (s : St) : SameMmc s s := rfl

theorem trans (s s' s'' : St) (h : SameMmc s s') (h' : SameMmc s' s'') : SameMmc s s'' :=
  Eq.trans h' h

theorem bind {x : Prog St Halt α} {f : α → Prog St Halt β} (hx : Prog.Steps SameMmc x)
    (hf : ∀ a, Prog.Steps SameMmc (f a)) : Prog.Steps SameMmc (x >>= f) :=
  Prog.Steps.bind trans hx hf

theorem blockRead (blk cnt addr : ℕ) : Prog.Steps SameMmc (blockRead b blk cnt addr) :=
  bind (Prog.Steps.get refl) fun _ => bind (Prog.Steps.exitIf refl _ _) fun _ =>
    Prog.Steps.modify fun _ => rfl

theorem setMachType (withFirmware : Bool) : Prog.Steps SameMmc (setMachType withFirmware) := by
  refine Prog.Steps.modify fun s => ?_
  unfold SameMmc
  simp only
  split_ifs <;> rfl

theorem readSection (offsetEnd : ℕ) (sec : Section) (addr : ℕ) (err : ℤ) :
    Prog.Steps SameMmc (readSection b offsetEnd sec addr err) := by
  refine bind (Prog.Steps.get refl) fun s => ?_
  simp only
  split_ifs
  · exact Prog.Steps.ret refl _
  · exact bind (blockRead _ _ _) fun _ => Prog.Steps.ret refl _

theorem readSections (offsetEnd : ℕ) (flag : Bool) :
    Prog.Steps SameMmc (readSections b offsetEnd flag) := by
  refine bind (Prog.Steps.get refl) fun s => ?_
  split_ifs
  · exact Prog.Steps.ret refl _
  · refine bind (setMachType _) fun _ => bind (readSection _ _ _ _) fun ret => ?_
    split_ifs
    · exact Prog.Steps.ret refl _
    · exact readSection _ _ _ _

end SameMmc

/-- After `do_read_inand(1, …)` slot 1 is selected. -/
theorem devSelect_doReadInand {dev offsetEnd : ℕ} {flag : Bool} {s s' : St} {r : Except Halt ℤ}
    (h : doReadInand b dev offsetEnd flag s = some (r, s')) : s'.mmc.devSelect = dev := by
  obtain ⟨found, s1, h1, h2⟩ := Prog.step_bind h
  have hs1 : s1.mmc.devSelect = dev := by
    cases h1
    exact devSelect_mmcGetDev _ _ _
  have hsame : SameMmc s1 s' := by
    split_ifs at h2
    · cases h2
      exact rfl
    · refine SameMmc.bind ?_ (fun _ => SameMmc.bind (Prog.Steps.get SameMmc.refl) fun _ =>
        SameMmc.bind (SameMmc.blockRead _ _ _) fun _ => SameMmc.readSections _ _) _ _ _ h2
      exact Prog.Steps.modify fun _ => rfl
  rw [hsame, hs1]

/-- A boot that returned has released the slot. -/
theorem mmc_bootImage {addr addr2 : ℕ} {s s' : St} {ret : ℤ}
    (h : bootImage b addr addr2 s = some (.ok ret, s')) : s'.mmc = mmcReleaseDev s.mmc := by
  rw [bootImage, Prog.modify_bind] at h
  obtain ⟨ret', s1, h1, h2⟩ := Prog.step_bind h
  cases h1
  cases hret : (b.bootm addr addr2 s.mem).1 with
  | none =>
    simp only [hret] at h2
    cases h2
  | some ret =>
    simp only [hret] at h2
    cases h2
    rfl

theorem bootImage_returns {addr addr2 : ℕ} {s : St} {ret : ℤ} {mem : Disk}
    (h : b.bootm addr addr2 s.mem = (some ret, mem)) :
    bootImage b addr addr2 s = some (.ok ret, { s with
      mmc := mmcReleaseDev s.mmc
      mem := mem
      trace := s.trace ++ [.boot addr addr2] }) := by
  rw [bootImage, Prog.modify_bind, doBootm]
  refine (Prog.bind_ok (Prog.step_apply _ _)).trans ?_
  simp only [h]
  rfl

/-! ## The second attempt -/

/-- Slot 1 has been released and not selected anew. -/
def Released (s : St) : Prop := s.mmc = ⟨inandDev, .zero⟩

/-- A copy tried on a released slot ends in a call of a null pointer, before
    anything is read or booted. -/
theorem tryCopy_released {s : St} (hs : Released s) (a : Attempt) (offsetEnd : ℕ) :
    ∃ s', tryCopy b a offsetEnd s = some (.error .nullCall, s') ∧ s'.trace = s.trace ∧
      s'.mmc = s.mmc := by
  have hdev : mmcGetDev b.cards inandDev s.mmc = (some .zero, s.mmc) := by
    have := mmcGetDev_selected b.cards (show s.mmc.devSelect = inandDev by rw [hs])
    rw [this, hs]
  have hread : ∃ s', doReadInand b inandDev offsetEnd a.flag s = some (.error .nullCall, s') ∧
      s'.trace = s.trace ∧ s'.mmc = s.mmc := by
    refine ⟨{ s with mem := store s.mem memReadFile (List.replicate fwFileHdrSize 0) }, ?_, rfl, rfl⟩
    have hget : getDev b inandDev s = some (.ok true, s) := by simp [getDev, hdev]
    rw [doReadInand, Prog.bind_ok hget]
    simp only [Bool.not_true, Bool.false_eq_true, if_false, clearHdr, Prog.modify_bind,
      Prog.get_bind]
    refine Prog.bind_error ?_
    rw [blockRead, Prog.get_bind, Prog.exitIf_of]
    simp only [show s.mmc.mmcDev = .zero by rw [hs], BlockDevDesc.zero, Bool.not_false]
  obtain ⟨s', h1, h2, h3⟩ := hread
  exact ⟨s', Prog.bind_error h1, h2, h3⟩

/-- The boot of copy 1 failed: it was read, and `do_bootm` returned. `s'` is the
    state the fallback starts in. -/
def FailedBoot (b : Board) (a : Attempt) (s s' : St) : Prop :=
  ∃ s1 ret, doReadInand b inandDev inandKernel1Bend a.flag s = some (.ok 0, s1) ∧
    bootImage b memKernelStart a.addr2 s1 = some (.ok ret, s') ∧ ret ≠ 0

theorem FailedBoot.released {a : Attempt} {s s' : St} (h : FailedBoot b a s s') : Released s' := by
  obtain ⟨s1, ret, hread, hboot, -⟩ := h
  have hsel := devSelect_doReadInand hread
  rw [Released, mmc_bootImage hboot, mmcReleaseDev, hsel]

theorem FailedBoot.tryCopies {a : Attempt} {s s' : St} (h : FailedBoot b a s s') :
    ∃ s'', tryCopies b a s = some (.error .nullCall, s'') ∧ s''.trace = s'.trace ∧
      s''.mmc = s'.mmc := by
  obtain ⟨s'', htry, htrace, hmmc⟩ := tryCopy_released (b := b) h.released a inandKernel0Bend
  obtain ⟨s1, ret, hread, hboot, hret⟩ := h
  have hfirst : tryCopy b a inandKernel1Bend s = some (.ok true, s') := by
    rw [tryCopy, Prog.bind_ok hread]
    simp only [ne_eq, not_true_eq_false, if_false]
    rw [Prog.bind_ok hboot]
    simp [hret]
  refine ⟨s'', ?_, htrace, hmmc⟩
  rw [UBoot.tryCopies, Prog.bind_ok hfirst]
  exact htry

/-! ## What the fallback owes -/

/-- What the fallback owes on a card `c` in slot 1, `s` being the state after
    the failed boot and `s'` the one in which the run ends: the descriptor is the
    card's, and copy 0's header, at the address the card's size gives, is read
    and its kernel booted. -/
structure BackupTried (b : Board) (c : Card) (a : Attempt) (s s' : St) : Prop where
  desc : (mmcGetDev b.cards inandDev s.mmc).1 = some c.desc
  header : .read (sub32 c.blocks inandKernel0Bend) 1 memReadFile ∈ s'.trace.drop s.trace.length
  boot : .boot memKernelStart a.addr2 ∈ s'.trace.drop s.trace.length

theorem not_backupTried {c : Card} {a : Attempt} {s' s'' : St} (htrace : s''.trace = s'.trace) :
    ¬ BackupTried b c a s' s'' := by
  intro hback
  have hboot := hback.boot
  rw [htrace, List.drop_length] at hboot
  exact List.not_mem_nil hboot

/-- The two functions that try the copies. -/
inductive Caller
  | startFirmware (flag : Bool)
  | upgrade
  deriving DecidableEq, Repr

/-- How a caller boots a copy. -/
def Caller.attempt : Caller → Attempt
  | .startFirmware _ => .start
  | .upgrade => .upgrade

/-- The run of a caller. -/
def Caller.run (b : Board) : Caller → Prog St Halt ℤ
  | .startFirmware flag => doStartFirmware b flag
  | .upgrade => doUpgrade b true

/-- A caller that tries the copies: `do_start_firmware` does so unless it is told to stop, and
    `do_upgrade` does not ask. -/
def Caller.Goes (b : Board) : Caller → Prop
  | .startFirmware _ => b.stop = false
  | .upgrade => True

/-- After a failed boot of copy 1 the slot's descriptor is all zeros. -/
theorem FailedBoot.mmcGetDev {a : Attempt} {s s' : St} (h : FailedBoot b a s s') :
    mmcGetDev b.cards inandDev s'.mmc = (some .zero, s'.mmc) := by
  have hrel := h.released
  rw [mmcGetDev_selected b.cards (by rw [hrel]), hrel]

/-- Either caller then ends in the null call, with nothing done since. -/
theorem FailedBoot.run (caller : Caller) {s s' : St} (h : FailedBoot b caller.attempt s s')
    (hgoes : caller.Goes b) :
    ∃ s'', caller.run b s = some (.error .nullCall, s'') ∧ s''.trace = s'.trace := by
  obtain ⟨s'', htry, htrace, -⟩ := h.tryCopies
  refine ⟨s'', ?_, htrace⟩
  cases caller with
  | startFirmware flag =>
    have hstop : b.stop = false := hgoes
    rw [Caller.run, doStartFirmware, if_neg (by simp [hstop])]
    exact Prog.bind_error htry
  | upgrade =>
    rw [Caller.run, doUpgrade, Prog.doIf, if_pos rfl]
    exact Prog.bind_error (Prog.bind_error htry)

/-! An iNAND of 32768 blocks whose copy 1 has a header, on a board whose
`do_bootm` rejects every image. -/

/-- The card with the header `h` at copy 1. -/
def sampleCard (h : FWFileHdr) : Card := ⟨inandKernel1Bend, store (fun _ => 0) 0 h.bytes⟩

/-- `do_bootm` returns 1 for every image. -/
def rejectingBoard (c : Card) : Board where
  cards slot := if slot = inandDev then some c else none
  bootm _ _ mem := (some 1, mem)
  sdFile _ := none
  stop := false

/-- U-Boot before any card was used. -/
def St.init : St where
  mmc := ⟨-1, .zero⟩
  mem := fun _ => 0
  machType := machTypeSmartQ7
  firmwareQ5 := false
  trace := []

theorem hdr_sampleCard (h : FWFileHdr) : (sampleCard h).hdr inandKernel1Bend = h := by
  have hbase : (sampleCard h).base inandKernel1Bend = 0 := by
    show sub32 inandKernel1Bend inandKernel1Bend = 0
    decide
  ext1
  rw [Card.hdr, hbase, hdrAt, Nat.zero_mul]
  have := load_store (fun _ => 0) 0 h.bytes
  rwa [h.length_eq] at this

theorem failedBoot_rejectingBoard {h : FWFileHdr} (hmagic : h.magic = headMagic)
    (hsize : (h.stanza .zimage).nand.size / nandBlkSize + 1 ≤ inandMaxReadBlk) :
    ∃ s', FailedBoot (rejectingBoard (sampleCard h)) .start St.init s' := by
  have hready : CardReady (rejectingBoard (sampleCard h)) (sampleCard h) St.init :=
    ⟨rfl, fun hsel => absurd hsel (by decide)⟩
  rw [← hdr_sampleCard h] at hmagic hsize
  obtain ⟨s1, hread, -, -⟩ := doReadInand_ok hready hmagic
    (⟨hsize, fun h => absurd h (by decide)⟩ : SizesOk _ Attempt.start.flag)
  have hreject : (rejectingBoard (sampleCard h)).bootm memKernelStart Attempt.start.addr2 s1.mem =
      (some 1, s1.mem) := rfl
  exact ⟨_, s1, 1, hread, bootImage_returns hreject, by decide⟩

/-! ## The result -/

/-- After a failed boot of copy 1 either caller ends in a call of a null
    pointer: the driver hands out a zeroed descriptor, and the backup is neither
    read nor booted. -/
theorem backup_never_tried {b : Board} (caller : Caller) {s s' : St} (c : Card)
    (hgoes : caller.Goes b) (h : FailedBoot b caller.attempt s s') :
    mmcGetDev b.cards inandDev s'.mmc = (some .zero, s'.mmc) ∧
      ∃ s'', caller.run b s = some (.error .nullCall, s'') ∧
        ¬ BackupTried b c caller.attempt s' s'' := by
  obtain ⟨s'', hrun, htrace⟩ := h.run caller hgoes
  exact ⟨h.mmcGetDev, s'', hrun, not_backupTried htrace⟩

theorem backup_never_tried_sample :
    ∃ s', mmcGetDev (rejectingBoard (sampleCard (Pack.ofFour [1] [2] [3] [4]).hdr)).cards inandDev
        s'.mmc = (some .zero, s'.mmc) ∧
      ∃ s'', Caller.run (rejectingBoard (sampleCard (Pack.ofFour [1] [2] [3] [4]).hdr))
          (.startFirmware false) St.init = some (.error .nullCall, s'') ∧
        ¬ BackupTried (rejectingBoard (sampleCard (Pack.ofFour [1] [2] [3] [4]).hdr))
          (sampleCard (Pack.ofFour [1] [2] [3] [4]).hdr) .start s' s'' := by
  obtain ⟨s', hfail⟩ := failedBoot_rejectingBoard (Pack.magic_hdr (Pack.ofFour [1] [2] [3] [4]))
    (by rw [Pack.stanza_hdr]; decide)
  exact ⟨s', backup_never_tried (.startFirmware false) _ rfl hfail⟩

/-- `do_bootm` rejects copy 1, and the backup is not tried. -/
theorem backup_not_tried_on_rejection :
    ∃ s' s'', FailedBoot (rejectingBoard (sampleCard (Pack.ofFour [1] [2] [3] [4]).hdr)) .start
        St.init s' ∧
      doStartFirmware (rejectingBoard (sampleCard (Pack.ofFour [1] [2] [3] [4]).hdr)) false
        St.init = some (.error .nullCall, s'') ∧
      ¬ BackupTried (rejectingBoard (sampleCard (Pack.ofFour [1] [2] [3] [4]).hdr))
        (sampleCard (Pack.ofFour [1] [2] [3] [4]).hdr) .start s' s'' := by
  obtain ⟨s', hfail⟩ := failedBoot_rejectingBoard (Pack.magic_hdr (Pack.ofFour [1] [2] [3] [4]))
    (by rw [Pack.stanza_hdr]; decide)
  obtain ⟨s'', hrun, htrace⟩ := hfail.run (.startFirmware false) rfl
  exact ⟨s', s'', hfail, hrun, not_backupTried htrace⟩

end SmartQ.UBoot
