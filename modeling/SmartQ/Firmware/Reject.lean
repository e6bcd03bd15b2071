import SmartQ.Firmware.PowerFail

/-!
# When a bad file is found out

`extract` looks at the header alone. Every other fault of a file, a section with
another check sum, an archive of an unknown kind, a root file system of another
size, is found by `upgrade` when the device has been partitioned and formatted.

* `log_of_accepted`: what has been done to the device when a run fails behind
  `extract`.
* `rejected_untouched_iff`: a run that fails because of the file leaves the
  device alone iff `extract` rejected it.
-/

namespace SmartQ.Firmware.Upgrade

open SmartQ.Lib

variable {env : Env} {p : Pack}

/-- A reason that lies in the file: its header is rejected, a section has
    another check sum, an archive is missing or of an unknown kind, or the root
    file system has another size. -/
def Failure.OfFile : Failure → Prop
  | .extract _ | .checkSum _ | .archive _ | .rootfsSize => True
  | .fault | .openSd | .malloc | .fork _ | .waitpid _ | .dup2 _ => False

/-- What partitioning and formatting leave in the log: fdisk twice, and a file system on each
    partition that is not kept. -/
def prepareLog (keepUserzone : Bool) : List Action :=
  [.command .fdisk, .command .fdisk, .command (.mkfs 1)] ++
    (if keepUserzone then [] else [.command (.mkfs 2)]) ++ [.command (.mkswap 3)]

theorem prepare_apply (env : Env) (keep : Bool) (s : St) :
    ∃ s1, prepare env keep s = some (.ok (), s1) ∧ s1.log = s.log ++ prepareLog keep ∧
      s1.short = s.short := by
  cases keep
  · exact ⟨_, rfl, by simp [prepareLog], rfl⟩
  · exact ⟨_, rfl, by simp [prepareLog], rfl⟩

/-- A run that flashes has partitioned and formatted the device first. -/
theorem log_of_flashing {h : FWFileHdr} {keep : Bool} {s s' : St} {r : Except Failure Unit}
    (hrun : flashing env h true keep s = some (r, s')) :
    s.log ++ prepareLog keep <+: s'.log := by
  obtain ⟨s1, hprep, hlog, -⟩ := prepare_apply env keep s
  have hprep' : Prog.doIf (true = true) (prepare env keep) s = some (.ok (), s1) := by
    rw [Prog.doIf_of rfl, hprep]
  rw [flashing, Prog.bind_ok hprep'] at hrun
  have hgrow : Grows s1 s' := by
    refine Grows.bind (Grows.stage _) (fun _ => ?_) _ _ _ hrun
    exact Grows.bind Grows.zeroLastBlocks fun _ => Grows.loadingFirmware _ _ _ _
  rw [← hlog]
  exact hgrow.2

/-- What `extract` rejects ends the run at once; what it accepts leads past the
    preparation of the device, unless memory or the file is not to be had. -/
theorem main_cases {keep : Bool} {s s' : St} {e : Failure}
    (hrun : main env true keep s = some (.error e, s')) (he : e.OfFile) :
    (∃ why, extract env.host env.file (env.io s.calls) = .rejected why ∧
        s'.log = s.log ∧ s'.inand = s.inand) ∨
      (∃ h, extract env.host env.file (env.io s.calls) = .accepted h) ∧
        s.log ++ prepareLog keep <+: s'.log := by
  rw [main, extractStep, Prog.bind_assoc, Prog.bind_ok (Prog.step_apply _ _)] at hrun
  cases hx : extract env.host env.file (env.io s.calls) with
  | rejected why =>
    simp only [hx] at hrun
    cases hrun
    exact .inl ⟨why, rfl, rfl, rfl⟩
  | fault =>
    simp only [hx] at hrun
    cases hrun
    exact he.elim
  | accepted h =>
    simp only [hx, afterExtract, Prog.ret_bind] at hrun
    rcases Prog.exitIf_bind hrun with ⟨-, ⟨⟩, -⟩ | ⟨-, hrun⟩
    · exact he.elim
    rcases Prog.exitIf_bind hrun with ⟨-, ⟨⟩, -⟩ | ⟨-, hrun⟩
    · exact he.elim
    rw [Prog.modify_bind] at hrun
    have hlog := log_of_flashing hrun
    exact .inr ⟨⟨h, rfl⟩, hlog⟩

/-! ## A file without a home file system -/

theorem loadingFs_unknown {sec : Section} {part total : ℕ} {bytes : List Byte} {s s1 : St}
    (hsniff : sniff env s = some (.ok bytes, s1)) (hlzma : bytes ≠ lzmaSniff)
    (hgzip : bytes ≠ gzipSniff) :
    loadingFs env sec part total s = some (.error (.archive sec), s1) := by
  rw [loadingFs, Prog.bind_ok hsniff, Prog.doIf_of_not hlzma, Prog.exitIf_of ⟨hlzma, hgzip⟩]

/-- Behind the end of the file nothing is read, and the stack decides. -/
theorem Genuine.loadingHome_omitted (g : Genuine env p) (hio : ∀ k, env.io k = .full)
    (hempty : p.body .homefs = []) (hlzma : env.stack ≠ lzmaSniff) (hgzip : env.stack ≠ gzipSniff)
    (s : St) : ∃ s', loadingHome env p.hdr s = some (.error (.archive .homefs), s') := by
  have hsmall := g.small
  have hoff : (p.hdr.stanza .homefs).file.offset = p.image.length := by
    rw [p.stanza_hdr]
    show p.fileOffset .homefs = _
    rw [p.fileOffset_eq (by omega), p.length_image, hempty, List.length_append, p.hdr.length_eq]
    simp only [Section.all, Section.idx, List.take_succ_cons, List.take_zero, List.map_cons,
      List.map_nil, List.flatten_cons, List.flatten_nil, List.length_append, List.length_nil]
    omega
  have hsniff : ∀ t : St, t.sdPos = p.image.length →
      ∃ t', sniff env t = some (.ok env.stack, t') := by
    intro t ht
    have hgot : transferred (env.io t.calls) 2 (env.file.length - t.sdPos) = 0 := by
      rw [hio, g.file, ht, Nat.sub_self]
      rfl
    rw [sniff, Prog.step_apply]
    simp only [hgot]
    exact ⟨_, rfl⟩
  have hseek : ∃ t, seekSd p.image.length { s with
      inand := env.command (.mount 2) s.inand
      log := s.log ++ [.command (.mount 2)] } = some (.ok (), t) ∧ t.sdPos = p.image.length := by
    rw [seekSd, Prog.modify_apply, if_pos (by rw [int32_of_range (by omega) (by omega)]; omega)]
    exact ⟨_, rfl, rfl⟩
  obtain ⟨t, hseek, ht⟩ := hseek
  obtain ⟨t', hsniff⟩ := hsniff t ht
  refine ⟨t', ?_⟩
  rw [loadingHome, Prog.get_bind, runCommand, Prog.modify_bind, hoff, Prog.bind_ok hseek]
  exact Prog.bind_error (loadingFs_unknown hsniff hlzma hgzip)

/-- So the upgrade ends there, with everything before it done. -/
theorem Genuine.main_omitted (g : Genuine env p) (hio : ∀ k, env.io k = .full)
    (hfuel : 512 ≤ env.fuel) (hopen : env.openSd = true) (hmalloc : env.malloc = true)
    (hplat : wrongPlatform env.host p.hdr = false) (hfit : FitsSlots p)
    (hempty : p.body .homefs = []) (hlzma : env.stack ≠ lzmaSniff) (hgzip : env.stack ≠ gzipSniff)
    {s : St} (hs : s.short = false) :
    ∃ s', main env true false s = some (.error (.archive .homefs), s') := by
  obtain ⟨hq, hu, hz, hi⟩ := hfit
  have hqi : (p.body .qi).length ≤ qiBlocks * nandBlkSize := by
    simp only [nandBlkSize, qiBlocks] at *
    omega
  have hcopy : ∀ s, s = .uBoot ∨ s = .zimage ∨ s = .initramfs →
      slot s + (p.body s).length ≤ copySize := by
    rintro s (rfl | rfl | rfl) <;>
      simp only [slot, Pack.nandOffset, nandBlkSize, qiBlocks, copySize] at * <;> omega
  rw [main, Prog.bind_ok (g.extractStep_full hio hplat hs), Prog.exitIf_of_not (by simp [hopen]),
    Prog.exitIf_of_not (by simp [hmalloc]), Prog.modify_bind]
  obtain ⟨s1, hprep, -, hs1⟩ :=
    prepare_apply env false { s with calls := s.calls + 1, sdPos := 0 }
  have hdoPrep : Prog.doIf (true = true) (prepare env false)
      { s with calls := s.calls + 1, sdPos := 0 } = some (.ok (), s1) := by
    rw [Prog.doIf_of rfl, hprep]
  obtain ⟨s2, -, hrun⟩ := g.flashing_eq hio hfuel hqi hcopy true false hdoPrep (hs1.trans hs)
  obtain ⟨s', hhome⟩ := g.loadingHome_omitted hio hempty hlzma hgzip s2
  refine ⟨s', ?_⟩
  have hdo : Prog.doIf ((!false) = true) (loadingHome env p.hdr) s2 =
      some (.error (.archive .homefs), s') := by
    rw [Prog.doIf_of (by decide), hhome]
  rw [hrun, Prog.doIf_of rfl, loadingFilesystems]
  exact Prog.bind_error hdo

/-! ## The result -/

/-- A run that fails because of the file has not touched the device iff
    `extract` rejected the file. -/
theorem rejected_untouched_iff {keep : Bool} {s s' : St} {e : Failure}
    (hrun : main env true keep s = some (.error e, s')) (he : e.OfFile) :
    s'.log = s.log ∧ s'.inand = s.inand ↔
      ∃ why, extract env.host env.file (env.io s.calls) = .rejected why := by
  rcases main_cases hrun he with ⟨why, hwhy, hsame⟩ | ⟨⟨h, hx⟩, hlog⟩
  · exact iff_of_true hsame ⟨why, hwhy⟩
  · refine iff_of_false (fun hsame => ?_) fun ⟨why, hwhy⟩ => ?_
    · have hlen := hlog.length_le
      rw [hsame.1, List.length_append] at hlen
      have : 0 < (prepareLog keep).length := by simp [prepareLog]
      omega
    · rw [hx] at hwhy
      cases hwhy

/-- A file of four sections without the file systems is found out when both
    copies have been written. -/
theorem main_fourSections :
    ∃ s', main (Env.quiet newPack.image) true false (St.init oldDevice fun _ => 0) =
      some (.error (.archive .homefs), s') :=
  genuine_newPack.main_omitted (fun _ => rfl) (by simp [Env.quiet]) rfl rfl
    (by simp [wrongPlatform, Env.quiet, Host.quiet]) fitsSlots_newPack rfl
    (by simp [Env.quiet, lzmaSniff]) (by simp [Env.quiet, gzipSniff]) rfl

theorem rejected_untouched_iff_fourSections :
    ∃ s', main (Env.quiet newPack.image) true false (St.init oldDevice fun _ => 0) =
        some (.error (.archive .homefs), s') ∧
      (s'.log = [] ∧ s'.inand = oldDevice ↔
        ∃ why, extract Host.quiet newPack.image .full = .rejected why) := by
  obtain ⟨s', hrun⟩ := main_fourSections
  have hiff := rejected_untouched_iff hrun trivial
  exact ⟨s', hrun, hiff⟩

/-- The archive is missing, and the device has been partitioned. -/
theorem fourSections_touched :
    ∃ s' e, main (Env.quiet newPack.image) true false (St.init oldDevice fun _ => 0) =
        some (.error e, s') ∧ e.OfFile ∧ .command .fdisk ∈ s'.log ∧
      ¬ (s'.log = [] ∧ s'.inand = oldDevice) := by
  obtain ⟨s', hrun⟩ := main_fourSections
  have hplat : wrongPlatform (Env.quiet newPack.image).host newPack.hdr = false := by
    simp [wrongPlatform, Env.quiet, Host.quiet]
  refine ⟨s', _, hrun, trivial, ?_⟩
  rcases main_cases hrun trivial with ⟨why, hwhy, -⟩ | ⟨-, hlog⟩
  · have hacc := extract_image _ newPack hplat genuine_newPack.small
    have hsame : extract (Env.quiet newPack.image).host newPack.image .full = .rejected why := hwhy
    rw [hacc] at hsame
    cases hsame
  · have hmem : .command .fdisk ∈ s'.log := hlog.subset (by simp [prepareLog])
    refine ⟨hmem, fun h => ?_⟩
    rw [h.1] at hmem
    exact List.not_mem_nil hmem

end SmartQ.Firmware.Upgrade
