import SmartQ.Firmware.CopyLoop
import SmartQ.Firmware.PowerFail

/-!
# The size of the root file system

Before it unpacks the root file system, `loading_firmware` compares its size with
`total_size_sum - size_sum`. `main` computes the one from the offset of the home file
system and the sizes of some sections; the copy loops accumulate the other.

* `loadingCopies_sizeSum`, `loadingHome_sizeSum`: what the transfers in front of the
  test add to `size_sum` if they are full.
* `rootfsSize_holds`: for a file that `mkSmartQ` wrote the test then passes.
-/

namespace SmartQ.Firmware.Upgrade

open SmartQ.Lib

variable {env : Env}

/-! ## Up to the test -/

/-- `loading_firmware` up to the size test (lines 482–651). -/
def beforeRootfsTest (env : Env) (h : FWFileHdr) (keepUserzone : Bool) : Prog St Failure Unit := do
  loadingCopies env h
  Prog.doIf (!keepUserzone) (loadingHome env h)
  runCommand env (.mount 1)
  seekSd (h.stanza .rootfs).file.offset

/-- The test and what follows it (lines 652–678). -/
def rootfsTest (env : Env) (h : FWFileHdr) (totalSizeSum : ℕ) : Prog St Failure Unit := do
  let s ← Prog.get
  Prog.exitIf (sub32 totalSizeSum s.sizeSum ≠ (h.stanza .rootfs).file.size) .rootfsSize
  loadingFs env .rootfs 1 (h.stanza .rootfs).file.size

theorem loadingFirmware_eq (h : FWFileHdr) (keep : Bool) (total : ℕ) :
    loadingFirmware env h true keep total =
      beforeRootfsTest env h keep >>= fun _ => rootfsTest env h total := by
  simp only [beforeRootfsTest, Prog.bind_assoc]
  rfl

/-- The home file system up to the `fork` (lines 629–638 and, in `loading_fs`, 335–366). -/
def beforeHome (env : Env) (h : FWFileHdr) : Prog St Failure Unit := do
  runCommand env (.mount 2)
  seekSd (h.stanza .homefs).file.offset
  let sniffer ← sniff env
  Prog.doIf (sniffer = lzmaSniff) (Prog.modify fun s => { s with untarXz := true })
  Prog.exitIf (sniffer ≠ lzmaSniff ∧ sniffer ≠ gzipSniff) (.archive .homefs)
  Prog.exitIf (!env.fork .homefs) (.fork .homefs)

/-- The correction of `size_sum` behind the home file system (lines 643–644). -/
def correctSizeSum (h : FWFileHdr) (old : ℕ) : Prog St Failure Unit :=
  Prog.modify fun s =>
    if old = s.sizeSum then { s with sizeSum := add32 s.sizeSum (h.stanza .homefs).file.size } else s

theorem loadingHome_eq (h : FWFileHdr) : loadingHome env h = (do
    let old ← Prog.get
    beforeHome env h
    parentSide env env.fuel .homefs 2 (h.stanza .homefs).file.size
    correctSizeSum h old.sizeSum) := by
  simp only [beforeHome, Prog.bind_assoc]
  simp only [loadingHome, loadingFs_eq, Prog.bind_assoc]
  rfl

/-! ## Steps that leave `size_sum` alone -/

/-- `size_sum` is as before. -/
def KeepsSum (s s' : St) : Prop := s'.sizeSum = s.sizeSum

namespace KeepsSum

theorem refl (s : St) : KeepsSum s s := rfl

theorem trans (s s' s'' : St) (h : KeepsSum s s') (h' : KeepsSum s' s'') : KeepsSum s s'' :=
  Eq.trans h' h

theorem bind {α β : Type} {x : Prog St Failure α} {f : α → Prog St Failure β}
    (hx : Prog.Steps KeepsSum x) (hf : ∀ a, Prog.Steps KeepsSum (f a)) :
    Prog.Steps KeepsSum (x >>= f) := Prog.Steps.bind trans hx hf

theorem seekSd (off : ℕ) : Prog.Steps KeepsSum (seekSd off) := by
  refine Prog.Steps.modify fun s => ?_
  split_ifs
  · rfl
  · exact refl s

theorem seekInand (off : ℤ) : Prog.Steps KeepsSum (seekInand env off) := by
  refine Prog.Steps.modify fun s => ?_
  split_ifs
  · rfl
  · exact refl s

theorem runCommand (c : Command) : Prog.Steps KeepsSum (runCommand env c) :=
  Prog.Steps.modify fun _ => rfl

theorem readInand (n : ℕ) : Prog.Steps KeepsSum (readInand env n) := Prog.Steps.step fun _ => rfl

theorem checkSumLoop (fileSize : ℤ) (fuel : ℕ) (size n : ℤ) (ret : ℕ) :
    Prog.Steps KeepsSum (checkSumLoop env fileSize fuel size n ret) := by
  induction fuel generalizing size n ret with
  | zero => exact Prog.Steps.stuck
  | succ fuel ih =>
    rw [Upgrade.checkSumLoop]
    split_ifs
    · exact bind (readInand _) fun _ => bind (Prog.Steps.get refl) fun _ => ih _ _ _
    · exact bind (readInand _) fun _ => bind (Prog.Steps.get refl) fun _ => Prog.Steps.ret refl _

theorem beforeHome (h : FWFileHdr) : Prog.Steps KeepsSum (beforeHome env h) := by
  refine bind (runCommand _) fun _ => bind (seekSd _) fun _ => bind (Prog.Steps.step fun _ => rfl)
    fun _ => bind ?_ fun _ => bind (Prog.Steps.exitIf refl _ _) fun _ => Prog.Steps.exitIf refl _ _
  exact Prog.Steps.doIf refl _ (Prog.Steps.modify fun _ => rfl)

end KeepsSum

/-! ## Full transfers -/

/-- The state in which a stage starts to copy. -/
def Stage.start (env : Env) (t : Stage) (s : St) : St :=
  if 0 ≤ env.deviceSize + t.flash ∧ t.flash ≤ 0 then
    { s with sdPos := t.source s.sdPos, inandPos := (env.deviceSize + t.flash).toNat }
  else { s with sdPos := t.source s.sdPos }

/-- All the copies of the stages `ts` are full. -/
def StagesFull (env : Env) : List Stage → St → Prop
  | [], _ => True
  | t :: ts, s =>
    CopyFull env inandSizePerWrite 1 (inandTakes env) t.size (t.start env s) ∧
      ∀ s', stage env t s = some (.ok (), s') → StagesFull env ts s'

/-- All transfers of `loading_firmware` in front of the size test are full. -/
structure CopiesFull (env : Env) (h : FWFileHdr) (keepUserzone : Bool) (s : St) : Prop where
  firmware : StagesFull env (firmwareStages h) { s with sizeSum := 0 }
  home : keepUserzone = false → ∀ s1 s2, loadingCopies env h s = some (.ok (), s1) →
    beforeHome env h s1 = some (.ok (), s2) →
    CopyFull env rootfsSizePerWrite 0 (fun _ _ => True) (h.stanza .homefs).file.size s2

theorem seekInand_start (t : Stage) (s : St) {β : Type} (f : Unit → Prog St Failure β) :
    (seekInand env t.flash >>= f) { s with sdPos := t.source s.sdPos } = f () (t.start env s) := by
  rw [seekInand, Prog.modify_bind, Stage.start]

/-- A stage whose copy is full adds its size. -/
theorem stage_sizeSum {t : Stage} {s s' : St} {r : Except Failure Unit}
    (h : stage env t s = some (r, s')) (hsize : t.size < 2 ^ 32) (hs : s.sizeSum < 2 ^ 32)
    (hfull : CopyFull env inandSizePerWrite 1 (inandTakes env) t.size (t.start env s)) :
    s'.sizeSum = add32 s.sizeSum t.size := by
  have hstart : (t.start env s).sizeSum = s.sizeSum := by
    unfold Stage.start
    split_ifs <;> rfl
  have hloop : ∀ {r s1}, loading env t.size (t.start env s) = some (r, s1) →
      s1.sizeSum = add32 s.sizeSum t.size := by
    intro r s1 hl
    rw [loading, loadingLoop_eq] at hl
    have hsum := copyLoop_sizeSum (puts_inand env) inandSizePerWrite_pos inandSizePerWrite_lt
      (Nat.zero_add _) hsize (by rw [hstart]; exact hs) hfull hl
    rw [hsum.2, hstart]
  rw [stage, Prog.bind_ok (seekSource_apply t s), seekInand_start] at h
  rcases Prog.bind_eq_some.mp h with ⟨e, hl, -⟩ | ⟨got, s1, hl, h⟩
  · exact hloop hl
  · have hrest : Prog.Steps KeepsSum (do
        seekInand env t.verify
        let inandCheckSum ← getCheckSum env t.verifySize
        Prog.exitIf (inandCheckSum ≠ t.checkSum) (.checkSum t.check)) :=
      KeepsSum.bind (KeepsSum.seekInand _) fun _ => KeepsSum.bind (KeepsSum.checkSumLoop _ _ _ _ _)
        fun _ => Prog.Steps.exitIf KeepsSum.refl _ _
    have hkeep : s'.sizeSum = s1.sizeSum := hrest _ _ _ h
    rw [hkeep, hloop hl]

/-- The sizes of the stages. -/
def stagesSize (ts : List Stage) : ℕ := (ts.map Stage.size).sum

theorem runStages_sizeSum {ts : List Stage} {s s' : St}
    (h : runStages env ts s = some (.ok (), s')) (hsize : ∀ t ∈ ts, t.size < 2 ^ 32)
    (hs : s.sizeSum < 2 ^ 32) (hfull : StagesFull env ts s) :
    s'.sizeSum = add32 s.sizeSum (stagesSize ts) := by
  induction ts generalizing s with
  | nil =>
    cases h
    have h0 : stagesSize [] = 0 := rfl
    rw [h0, add32, Nat.add_zero, Nat.mod_eq_of_lt hs]
  | cons t ts ih =>
    obtain ⟨_, s1, hst, hrest⟩ := Prog.bind_eq_ok.mp h
    have h1 := stage_sizeSum hst (hsize t List.mem_cons_self) hs hfull.1
    have h2 := ih hrest (fun u hu => hsize u (List.mem_cons_of_mem _ hu))
      (by rw [h1]; exact add32_lt _ _) (hfull.2 s1 hst)
    rw [h2, h1, stagesSize, stagesSize, List.map_cons, List.sum_cons, add32, add32, add32,
      Nat.mod_add_mod, Nat.add_assoc]

theorem stagesSize_firmwareStages (h : FWFileHdr) :
    stagesSize (firmwareStages h) = 2 * (h.fhSize + (h.stanza .uBoot).file.size +
      (h.stanza .zimage).file.size + (h.stanza .initramfs).file.size) := by
  have hsizes : (firmwareStages h).map Stage.size =
      [h.fhSize, (h.stanza .uBoot).file.size, (h.stanza .zimage).file.size,
        (h.stanza .initramfs).file.size, h.fhSize, (h.stanza .uBoot).file.size,
        (h.stanza .zimage).file.size, (h.stanza .initramfs).file.size] := by
    simp only [firmwareStages, List.map_cons, List.map_nil, headerStage, sectionStage]
  have hsum : ∀ a b c d : ℕ, [a, b, c, d, a, b, c, d].sum = 2 * (a + b + c + d) := by
    intro a b c d
    simp only [List.sum_cons, List.sum_nil]
    omega
  rw [stagesSize, hsizes, hsum]

/-- The two copies of the firmware. -/
theorem loadingCopies_sizeSum {h : FWFileHdr} {s s' : St}
    (hrun : loadingCopies env h s = some (.ok (), s'))
    (hfull : StagesFull env (firmwareStages h) { s with sizeSum := 0 }) :
    s'.sizeSum = 2 * (h.fhSize + (h.stanza .uBoot).file.size + (h.stanza .zimage).file.size +
      (h.stanza .initramfs).file.size) % 2 ^ 32 := by
  have hsize : ∀ t ∈ firmwareStages h, t.size < 2 ^ 32 := by
    have hstanza : ∀ s, (h.stanza s).file.size < 2 ^ 32 := fun s => (h.stanza_fits s).fileSize
    have hhdr : h.fhSize < 2 ^ 32 := u32At_lt _ _
    simp only [firmwareStages, List.forall_mem_cons]
    exact ⟨hhdr, hstanza _, hstanza _, hstanza _, hhdr, hstanza _, hstanza _, hstanza _, by simp⟩
  rw [loadingCopies, Prog.modify_bind] at hrun
  have hzero : (0 : ℕ) < 2 ^ 32 := by norm_num
  have hsum := runStages_sizeSum hrun hsize hzero hfull
  have hadd : ∀ n, add32 0 n = n % 2 ^ 32 := by
    intro n
    rw [add32, Nat.zero_add]
  rw [stagesSize_firmwareStages] at hsum
  exact hsum.trans (hadd _)

/-- The home file system; the correction behind it adds nothing to a full transfer. -/
theorem loadingHome_sizeSum {h : FWFileHdr} {s s' : St}
    (hrun : loadingHome env h s = some (.ok (), s')) (hs : s.sizeSum < 2 ^ 32)
    (hfull : ∀ s2, beforeHome env h s = some (.ok (), s2) →
      CopyFull env rootfsSizePerWrite 0 (fun _ _ => True) (h.stanza .homefs).file.size s2) :
    s'.sizeSum = add32 s.sizeSum (h.stanza .homefs).file.size := by
  have hsize : (h.stanza .homefs).file.size < 2 ^ 32 := (h.stanza_fits _).fileSize
  rw [loadingHome_eq, Prog.get_bind] at hrun
  obtain ⟨_, s2, hbefore, hrun⟩ := Prog.bind_eq_ok.mp hrun
  obtain ⟨_, s3, hparent, hrun⟩ := Prog.bind_eq_ok.mp hrun
  have h2 : s2.sizeSum = s.sizeSum := KeepsSum.beforeHome h _ _ _ hbefore
  have h3 : s3.sizeSum = add32 s.sizeSum (h.stanza .homefs).file.size := by
    obtain ⟨_, s4, hloop, hrest⟩ := Prog.bind_eq_ok.mp hparent
    have hkeep : s3.sizeSum = s4.sizeSum := by
      have hsteps : Prog.Steps KeepsSum (do
          let s ← Prog.get
          runCommand env (.untar 2 s.untarXz)
          Prog.exitIf (!env.waitpid .homefs) (.waitpid .homefs)) :=
        KeepsSum.bind (Prog.Steps.get KeepsSum.refl) fun _ => KeepsSum.bind (KeepsSum.runCommand _)
          fun _ => Prog.Steps.exitIf KeepsSum.refl _ _
      exact hsteps _ _ _ hrest
    have hcopy : copyLoop env rootfsSizePerWrite putPipe (h.stanza .homefs).file.size env.fuel 0
        (h.stanza .homefs).file.size s2 = some (.ok 0, s4) := by
      rw [← loadingFsLoop_eq]
      exact Prog.bind_ok hloop
    have hsum := copyLoop_sizeSum (puts_pipe env) rootfsSizePerWrite_pos rootfsSizePerWrite_lt
      (Nat.zero_add _) hsize (by rw [h2]; exact hs) (hfull s2 hbefore) hcopy
    rw [hkeep, hsum.2, h2]
  rw [correctSizeSum, Prog.modify_apply] at hrun
  cases hrun
  split_ifs with hsame
  · show add32 s3.sizeSum _ = _
    rw [← hsame]
  · exact h3

/-! ## The test -/

/-- `mkSmartQ`'s header in the memory of `upgrade`. -/
theorem extract_eq_hdr {host : Host} {p : Pack} {h : FWFileHdr}
    (hx : extract host p.image .full = .accepted h) : p.image.length < 2 ^ 31 ∧ h = p.hdr := by
  obtain ⟨hsmall, hh⟩ := extract_of_accepted hx
  have hlen : fwFileHdrSize ≤ p.image.length := by
    rw [p.length_image]
    omega
  refine ⟨hsmall, ?_⟩
  rw [hh, transferred_full (by norm_num [fwFileHdrSize]) hlen]
  ext1
  rw [readHdr_full hlen, p.image_take]

/-- For the header of a file that `mkSmartQ` wrote, the sums cancel. -/
theorem totalSizeSum_hdr {p : Pack} (hsmall : p.image.length < 2 ^ 31) (keep : Bool) :
    totalSizeSum p.hdr keep = (2 * (p.hdr.fhSize + (p.hdr.stanza .uBoot).file.size +
      (p.hdr.stanza .zimage).file.size + (p.hdr.stanza .initramfs).file.size) +
      (p.hdr.stanza .rootfs).file.size +
      (if keep then 0 else (p.hdr.stanza .homefs).file.size)) % 2 ^ 32 := by
  have hlaid := p.laid_image hsmall
  have h0 := hlaid.first
  have h1 := hlaid.next .qi .uBoot rfl
  have h2 := hlaid.next .uBoot .zimage rfl
  have h3 := hlaid.next .zimage .initramfs rfl
  have h4 := hlaid.next .initramfs .rootfs rfl
  have h5 := hlaid.next .rootfs .homefs rfl
  have h6 := hlaid.last
  rw [p.fhSize_hdr]
  unfold totalSizeSum add32 sub32
  rw [p.fhSize_hdr]
  cases keep with
  | true =>
    simp only [if_true]
    omega
  | false =>
    simp only [Bool.false_eq_true, if_false]
    omega

/-- Full transfers of a file that `mkSmartQ` wrote leave the size of the root file system. -/
theorem beforeRootfsTest_sizeSum {p : Pack} {keep : Bool} {s s' : St}
    (hsmall : p.image.length < 2 ^ 31) (hfull : CopiesFull env p.hdr keep s)
    (hrun : beforeRootfsTest env p.hdr keep s = some (.ok (), s')) :
    sub32 (totalSizeSum p.hdr keep) s'.sizeSum = (p.hdr.stanza .rootfs).file.size := by
  have hsize : (p.hdr.stanza .rootfs).file.size < 2 ^ 32 := (p.hdr.stanza_fits _).fileSize
  obtain ⟨_, s1, hcopies, hrun⟩ := Prog.bind_eq_ok.mp hrun
  obtain ⟨_, s2, hhome, hrun⟩ := Prog.bind_eq_ok.mp hrun
  have h1 := loadingCopies_sizeSum hcopies hfull.firmware
  have hkeep : s'.sizeSum = s2.sizeSum :=
    KeepsSum.bind (KeepsSum.runCommand _) (fun _ => KeepsSum.seekSd _) _ _ _ hrun
  rw [totalSizeSum_hdr hsmall, hkeep]
  cases keep with
  | true =>
    cases hhome
    rw [h1]
    unfold sub32
    simp only [if_true]
    omega
  | false =>
    rw [Prog.doIf_of (by rfl)] at hhome
    have h2 := loadingHome_sizeSum hhome (by rw [h1]; exact Nat.mod_lt _ (by norm_num))
      (fun s2 hbefore => hfull.home rfl s1 s2 hcopies hbefore)
    rw [h2, h1]
    unfold sub32 add32
    simp only [Bool.false_eq_true, if_false]
    omega

/-- The accounting: for a file that `mkSmartQ` wrote, full transfers leave
    `total_size_sum - size_sum` at the size of the root file system, whether the home
    partition is kept or not. -/
theorem rootfsSize_holds {p : Pack} {h : FWFileHdr} {keep : Bool} {s s' : St}
    (hx : extract env.host p.image .full = .accepted h) (hfull : CopiesFull env h keep s)
    (hrun : beforeRootfsTest env h keep s = some (.ok (), s')) :
    sub32 (totalSizeSum h keep) s'.sizeSum = (h.stanza .rootfs).file.size := by
  obtain ⟨hsmall, rfl⟩ := extract_eq_hdr hx
  exact beforeRootfsTest_sizeSum hsmall hfull hrun

/-! ## Runs in which nothing comes up short -/

theorem putInand_short {m : ℕ} {s s' : St} {b : Bool}
    (h : putInand env m s = some (.ok b, s')) (hs : s'.short = false) :
    s.short = false ∧ b = true := by
  obtain ⟨written, s1, hw, h⟩ := Prog.bind_eq_ok.mp h
  cases h
  obtain ⟨hr, hs0, -⟩ := writeInand_spec hw hs
  cases hr
  exact ⟨hs0, decide_eq_true rfl⟩

theorem stage_full {t : Stage} {s s' : St} {r : Except Failure Unit}
    (h : stage env t s = some (r, s')) (hsize : t.size < 2 ^ 32) (hs : s'.short = false) :
    CopyFull env inandSizePerWrite 1 (inandTakes env) t.size (t.start env s) := by
  have hloop : ∀ {r s1}, loading env t.size (t.start env s) = some (r, s1) → s1.short = false →
      CopyFull env inandSizePerWrite 1 (inandTakes env) t.size (t.start env s) := by
    intro r s1 hl hs1
    rw [loading, loadingLoop_eq] at hl
    exact (copyLoop_full (puts_inand env) inandSizePerWrite_pos inandSizePerWrite_lt
      (fun hput hs => putInand_short hput hs) (Nat.zero_add _) hsize hl hs1).1
  rw [stage, Prog.bind_ok (seekSource_apply t s), seekInand_start] at h
  rcases Prog.bind_eq_some.mp h with ⟨e, hl, -⟩ | ⟨got, s1, hl, h⟩
  · exact hloop hl hs
  · have hrest : Prog.Steps Grows (do
        seekInand env t.verify
        let inandCheckSum ← getCheckSum env t.verifySize
        Prog.exitIf (inandCheckSum ≠ t.checkSum) (.checkSum t.check)) :=
      Grows.bind (Grows.seekInand _) fun _ => Grows.bind (Grows.getCheckSum _) fun _ =>
        Prog.Steps.exitIf Grows.refl _ _
    exact hloop hl ((hrest _ _ _ h).1 hs)

/-- If nothing comes up short, all copies are full. -/
theorem stagesFull_of_short {ts : List Stage} {s s' : St}
    (h : runStages env ts s = some (.ok (), s')) (hsize : ∀ t ∈ ts, t.size < 2 ^ 32)
    (hs : s'.short = false) : StagesFull env ts s := by
  induction ts generalizing s with
  | nil => trivial
  | cons t ts ih =>
    obtain ⟨_, s1, hst, hrest⟩ := Prog.bind_eq_ok.mp h
    have hs1 := (Grows.runStages ts _ _ _ hrest).1 hs
    refine ⟨stage_full hst (hsize t List.mem_cons_self) hs1, ?_⟩
    intro s2 hst2
    rw [hst] at hst2
    cases hst2
    exact ih hrest (fun u hu => hsize u (List.mem_cons_of_mem _ hu))

/-- With full transfers and the home partition kept, `loading_firmware` reaches the test. -/
theorem Genuine.beforeRootfsTest_kept {p : Pack} (g : Genuine env p)
    (hio : ∀ k, env.io k = .full) (hfuel : 512 ≤ env.fuel) (hfit : FitsSlots p) {s : St}
    (hs : s.short = false) :
    ∃ s', beforeRootfsTest env p.hdr true s = some (.ok (), s') ∧
      s'.sdPos = (p.hdr.stanza .rootfs).file.offset ∧ CopiesFull env p.hdr true s := by
  have hfit' : ∀ s, s = .uBoot ∨ s = .zimage ∨ s = .initramfs →
      slot s + (p.body s).length ≤ copySize := by
    obtain ⟨-, hu, hz, hi⟩ := hfit
    rintro s (rfl | rfl | rfl) <;>
      simp only [slot, Pack.nandOffset, nandBlkSize, qiBlocks, copySize] at * <;> omega
  have hoffset : (p.hdr.stanza .rootfs).file.offset < 2 ^ 31 := by
    have hsmall := g.small
    have hnext := (p.laid_image hsmall).next .rootfs .homefs rfl
    have hlast := (p.laid_image hsmall).last
    omega
  obtain ⟨s1, hcopies, hs1⟩ := g.loadingCopies_total hio hfuel hfit' hs
  have hfull : CopiesFull env p.hdr true s := by
    refine ⟨?_, fun hkeep => by cases hkeep⟩
    have hstages := hcopies
    rw [loadingCopies, Prog.modify_bind] at hstages
    exact stagesFull_of_short hstages (fun t ht => (g.typed t ht).size) hs1
  rw [beforeRootfsTest, Prog.bind_ok hcopies, Prog.doIf_of_not (by simp), runCommand,
    Prog.modify_bind, seekSd, Prog.modify_apply,
    if_pos (by rw [int32_natCast hoffset]; exact Int.natCast_nonneg _)]
  exact ⟨_, rfl, rfl, hfull⟩

/-- `rootfsSize_holds` of four one-byte sections, with the home partition kept. -/
theorem rootfsSize_holds_newPack :
    ∃ s', beforeRootfsTest (Env.quiet newPack.image) newPack.hdr true
        (St.init oldDevice fun _ => 0) = some (.ok (), s') ∧
      sub32 (totalSizeSum newPack.hdr true) s'.sizeSum = (newPack.hdr.stanza .rootfs).file.size := by
  have hx : extract (Env.quiet newPack.image).host newPack.image .full = .accepted newPack.hdr :=
    extract_image _ _ (by simp [wrongPlatform, Env.quiet, Host.quiet]) genuine_newPack.small
  obtain ⟨s', hrun, -, hfull⟩ := genuine_newPack.beforeRootfsTest_kept (fun _ => rfl)
    (by simp [Env.quiet]) fitsSlots_newPack (s := St.init oldDevice fun _ => 0) rfl
  exact ⟨s', hrun, rootfsSize_holds hx hfull hrun⟩

end SmartQ.Firmware.Upgrade
