import SmartQ.Firmware.RootfsSize

/-!
# The two processes of `loading_fs`

The child that `loading_fs` forks unpacks the archive from its standard input and then
leaves the branch as the parent does: it returns 0, the exit status of the archive
command only being printed, and goes on in the caller's code. The parent waits for it
without asking for its status.

* `loadingFirmwareAs_parent`: the model of the parent is this one's.
* `child_goesOn`, `child_upgradeOk`: a child goes on where its parent does, up to
  "Upgrade OK".
* `installed_iff`: when the parent's 0 means that the file systems are installed and no
  child goes on.
-/

namespace SmartQ.Firmware.Upgrade

open SmartQ.Lib

/-! ## Model -/

/-- The two processes behind a `fork`. -/
inductive Side
  | parent
  | child
  deriving DecidableEq, Repr

/-- What a child meets: the outcome of its `dup2`, and what the archive command makes of its
    input. -/
structure ChildEnv where
  /-- `dup2` puts the pipe on its standard input. -/
  dup2 : Section → Bool
  /-- The exit status of the archive command, which is only printed. -/
  status : Section → ℕ
  /-- The bytes the archive command consumes. -/
  consumed : Section → ℕ

/-- `loading_fs` in the child (lines 415–435): it returns 0. -/
def childSide (env : Env) (ce : ChildEnv) (sec : Section) (part : ℕ) : Prog St Failure Unit := do
  Prog.exitIf (!ce.dup2 sec) (.dup2 sec)
  let s ← Prog.get
  runCommand env (.untar part s.untarXz)

/-- `loading_fs` up to the `fork` (lines 335–366). -/
def beforeFork (env : Env) (sec : Section) : Prog St Failure Unit := do
  let sniffer ← sniff env
  Prog.doIf (sniffer = lzmaSniff) (Prog.modify fun s => { s with untarXz := true })
  Prog.exitIf (sniffer ≠ lzmaSniff ∧ sniffer ≠ gzipSniff) (.archive sec)
  Prog.exitIf (!env.fork sec) (.fork sec)

/-- `loading_fs` in the process that is on `side` of its `fork`. -/
def loadingFsAs (env : Env) (ce : ChildEnv) (side : Side) (sec : Section) (part totalSize : ℕ) :
    Prog St Failure Unit := do
  beforeFork env sec
  match side with
  | .parent => parentSide env env.fuel sec part totalSize
  | .child => childSide env ce sec part

/-- The home file system in that process. -/
def loadingHomeAs (env : Env) (ce : ChildEnv) (side : Side) (h : FWFileHdr) :
    Prog St Failure Unit := do
  let old ← Prog.get
  runCommand env (.mount 2)
  seekSd (h.stanza .homefs).file.offset
  loadingFsAs env ce side .homefs 2 (h.stanza .homefs).file.size
  correctSizeSum h old.sizeSum

/-- The root file system (lines 647–678) in a process. -/
def loadingRootAs (env : Env) (ce : ChildEnv) (side : Side) (h : FWFileHdr) (totalSizeSum : ℕ) :
    Prog St Failure Unit := do
  runCommand env (.mount 1)
  seekSd (h.stanza .rootfs).file.offset
  let s ← Prog.get
  Prog.exitIf (sub32 totalSizeSum s.sizeSum ≠ (h.stanza .rootfs).file.size) .rootfsSize
  loadingFsAs env ce side .rootfs 1 (h.stanza .rootfs).file.size

/-- `loading_firmware` with flag 1 in the process that is on `sides sec` of the `fork` for
    the section `sec`; its return is "Upgrade OK". -/
def loadingFirmwareAs (env : Env) (ce : ChildEnv) (sides : Section → Side) (h : FWFileHdr)
    (keepUserzone : Bool) (totalSizeSum : ℕ) : Prog St Failure Unit := do
  loadingCopies env h
  Prog.doIf (!keepUserzone) (loadingHomeAs env ce (sides .homefs) h)
  loadingRootAs env ce (sides .rootfs) h totalSizeSum

theorem loadingFsAs_parent (env : Env) (ce : ChildEnv) (sec : Section) (part n : ℕ) :
    loadingFsAs env ce .parent sec part n = loadingFs env sec part n := by
  rw [loadingFs_eq]
  simp only [loadingFsAs, beforeFork, Prog.bind_assoc]

theorem loadingHomeAs_parent (env : Env) (ce : ChildEnv) (h : FWFileHdr) :
    loadingHomeAs env ce .parent h = loadingHome env h := by
  rw [loadingHomeAs, loadingHome, loadingFsAs_parent]
  rfl

/-- The process that is never a child is the one modelled before. -/
theorem loadingFirmwareAs_parent (env : Env) (ce : ChildEnv) (h : FWFileHdr) (keep : Bool)
    (total : ℕ) :
    loadingFirmwareAs env ce (fun _ => .parent) h keep total =
      loadingFirmware env h true keep total := by
  rw [loadingFirmwareAs, loadingHomeAs_parent, loadingRootAs, loadingFsAs_parent]
  rfl

/-! ## The forks of a run -/

section Run

variable (env : Env) (ce : ChildEnv) (h : FWFileHdr) (keep : Bool) (total : ℕ) (s : St)

/-- The size test and `loading_fs` of the root file system up to the `fork`. -/
def rootFork : Prog St Failure Unit := do
  let s ← Prog.get
  Prog.exitIf (sub32 total s.sizeSum ≠ (h.stanza .rootfs).file.size) .rootfsSize
  beforeFork env .rootfs

/-- The run of `loading_firmware` from `s` on forks for a section in state `sf`. -/
def Forks : Section → St → Prop
  | .homefs, sf => keep = false ∧
      (do loadingCopies env h; beforeHome env h : Prog St Failure Unit) s = some (.ok (), sf)
  | .rootfs, sf =>
      (do beforeRootfsTest env h keep; rootFork env h total : Prog St Failure Unit) s =
        some (.ok (), sf)
  | _, _ => False

/-- The partition of a section. -/
def partOf : Section → ℕ
  | .homefs => 2
  | _ => 1

/-- The child returns from `loading_fs` with 0, into the parent's remaining steps. -/
def Continues (sec : Section) (sf : St) : Prop :=
  ∃ s1, childSide env ce sec (partOf sec) sf = some (.ok (), s1)

/-- The archive command has run, has consumed the whole section and has exited with 0. -/
structure Unpacked (sec : Section) : Prop where
  ran : ce.dup2 sec = true
  consumed : ce.consumed sec = (h.stanza sec).file.size
  status : ce.status sec = 0

/-- The parent's 0 means that the file systems are installed, and no child goes on in its
    steps. -/
structure Installed : Prop where
  ok : ∀ s', loadingFirmware env h true keep total s = some (.ok (), s') →
    (keep = false → Unpacked ce h .homefs) ∧ Unpacked ce h .rootfs
  child : ∀ sec sf, Forks env h keep total s sec sf → ¬ Continues env ce sec sf

end Run

/-! ## Children -/

section Child

variable {env : Env} {ce : ChildEnv} {h : FWFileHdr} {keep : Bool} {total : ℕ} {s sf : St}
  {sec : Section}

theorem childSide_apply (hdup : ce.dup2 sec = true) (part : ℕ) (sf : St) :
    childSide env ce sec part sf = runCommand env (.untar part sf.untarXz) sf := by
  rw [childSide, Prog.exitIf_of_not (by simp [hdup]), Prog.get_bind]

/-- A child goes on exactly if it has the pipe on its standard input. -/
theorem continues_iff : Continues env ce sec sf ↔ ce.dup2 sec = true := by
  constructor
  · rintro ⟨s1, hrun⟩
    by_contra hdup
    rw [childSide, Prog.exitIf_of (by simpa using hdup)] at hrun
    cases hrun
  · intro hdup
    exact ⟨_, childSide_apply hdup _ _⟩

/-- The child of the home file system goes on to the root file system, and passes the size
    test where its parent would: the correction adds what the parent transfers. -/
theorem child_goesOn {sides : Section → Side} (hside : sides .homefs = .child)
    (hfork : Forks env h keep total s .homefs sf) (hdup : ce.dup2 .homefs = true) :
    ∃ s1, loadingFirmwareAs env ce sides h keep total s =
        loadingRootAs env ce (sides .rootfs) h total s1 ∧
      s1.log = sf.log ++ [.command (.untar 2 sf.untarXz)] ∧
      s1.sizeSum = add32 sf.sizeSum (h.stanza .homefs).file.size := by
  obtain ⟨rfl, hrun⟩ := hfork
  obtain ⟨_, s0, hcopies, hrun⟩ := Prog.bind_eq_ok.mp hrun
  have hsum : sf.sizeSum = s0.sizeSum := KeepsSum.beforeHome h _ _ _ hrun
  have hhome : loadingHomeAs env ce .child h s0 =
      (do childSide env ce .homefs 2
          correctSizeSum h s0.sizeSum : Prog St Failure Unit) sf := by
    have heq : loadingHomeAs env ce .child h s0 = (do
        beforeHome env h
        childSide env ce .homefs 2
        correctSizeSum h s0.sizeSum : Prog St Failure Unit) s0 := by
      rw [loadingHomeAs, Prog.get_bind]
      simp only [loadingFsAs, beforeFork, beforeHome, Prog.bind_assoc]
    rw [heq, Prog.bind_ok hrun]
  have hchild : childSide env ce .homefs 2 sf = some (.ok (), { sf with
      inand := env.command (.untar 2 sf.untarXz) sf.inand
      log := sf.log ++ [.command (.untar 2 sf.untarXz)] }) := childSide_apply hdup 2 sf
  rw [Prog.bind_ok hchild, correctSizeSum, Prog.modify_apply, if_pos hsum.symm] at hhome
  rw [loadingFirmwareAs, Prog.bind_ok hcopies, hside]
  have hdo : Prog.doIf ((!false) = true) (loadingHomeAs env ce .child h) s0 = _ :=
    (Prog.doIf_of rfl).trans hhome
  rw [Prog.bind_ok hdo]
  exact ⟨_, rfl, rfl, rfl⟩

/-- The child of the root file system reports "Upgrade OK". -/
theorem child_upgradeOk {sides : Section → Side} (hhome : sides .homefs = .parent)
    (hside : sides .rootfs = .child) (hfork : Forks env h keep total s .rootfs sf)
    (hdup : ce.dup2 .rootfs = true) :
    ∃ s1, loadingFirmwareAs env ce sides h keep total s = some (.ok (), s1) ∧
      s1.log = sf.log ++ [.command (.untar 1 sf.untarXz)] := by
  have heq : loadingFirmwareAs env ce sides h keep total = (do
      beforeRootfsTest env h keep
      rootFork env h total
      childSide env ce .rootfs 1 : Prog St Failure Unit) := by
    rw [loadingFirmwareAs, hhome, hside, loadingHomeAs_parent]
    simp only [loadingRootAs, loadingFsAs, beforeRootfsTest, rootFork, Prog.bind_assoc]
  have hrun : (do beforeRootfsTest env h keep; rootFork env h total : Prog St Failure Unit) s =
      some (.ok (), sf) := hfork
  rw [heq, ← Prog.bind_assoc, Prog.bind_ok hrun, childSide_apply hdup]
  exact ⟨_, rfl, rfl⟩

end Child

/-! ## The parent -/

section Parent

variable {env : Env} {ce : ChildEnv} {h : FWFileHdr} {keep : Bool} {total : ℕ} {s : St}

theorem loadingFsLoop_ok {n fuel size rest : ℕ} {s s' : St} {r : Except Failure Unit}
    (hrun : loadingFsLoop env n fuel size rest s = some (r, s')) : r = .ok () := by
  induction fuel generalizing size rest s with
  | zero => cases hrun
  | succ fuel ih =>
    rw [loadingFsLoop] at hrun
    split_ifs at hrun
    · rw [readSd_bind, writePipe, Prog.modify_bind] at hrun
      exact ih hrun
    · rw [readSd_bind] at hrun
      cases hrun
      rfl

/-- Behind the `fork` the parent returns 0 exactly if its loop ends and `waitpid` succeeds. -/
theorem parentSide_ok_iff {fuel : ℕ} {sec : Section} {part n : ℕ} {sf : St} :
    (∃ s', parentSide env fuel sec part n sf = some (.ok (), s')) ↔
      loadingFsLoop env n fuel 0 n sf ≠ none ∧ env.waitpid sec = true := by
  constructor
  · rintro ⟨s', hrun⟩
    obtain ⟨_, s1, hloop, hrest⟩ := Prog.bind_eq_ok.mp hrun
    refine ⟨by rw [hloop]; simp, ?_⟩
    rw [Prog.get_bind, runCommand, Prog.modify_bind] at hrest
    by_contra hwait
    have hexit : ∀ t : St, (Prog.exitIf (!env.waitpid sec) (.waitpid sec) : Prog St Failure Unit) t =
        some (.error (.waitpid sec), t) := by
      intro t
      rw [Prog.exitIf, if_pos (by simpa using hwait)]
      rfl
    rw [hexit] at hrest
    cases hrest
  · rintro ⟨hloop, hwait⟩
    obtain ⟨⟨r, s1⟩, hsome⟩ := Option.ne_none_iff_exists'.mp hloop
    have hr := loadingFsLoop_ok hsome
    subst hr
    rw [parentSide, Prog.bind_ok hsome, Prog.get_bind, runCommand, Prog.modify_bind, Prog.exitIf,
      if_neg (by simp [hwait])]
    exact ⟨_, rfl⟩

/-- `loading_firmware` returns 0 in the parent exactly if it forks for the root file system
    and then returns. -/
theorem loadingFirmware_ok_iff :
    (∃ s', loadingFirmware env h true keep total s = some (.ok (), s')) ↔
      ∃ sf, Forks env h keep total s .rootfs sf ∧
        loadingFsLoop env (h.stanza .rootfs).file.size env.fuel 0 (h.stanza .rootfs).file.size sf ≠
          none ∧ env.waitpid .rootfs = true := by
  have heq : loadingFirmware env h true keep total = (do
      (do beforeRootfsTest env h keep; rootFork env h total : Prog St Failure Unit)
      parentSide env env.fuel .rootfs 1 (h.stanza .rootfs).file.size) := by
    rw [loadingFirmware_eq]
    simp only [rootfsTest, rootFork, loadingFs_eq, beforeFork, Prog.bind_assoc]
  constructor
  · rintro ⟨s', hrun⟩
    rw [heq] at hrun
    obtain ⟨_, sf, hfork, hparent⟩ := Prog.bind_eq_ok.mp hrun
    exact ⟨sf, hfork, parentSide_ok_iff.mp ⟨s', hparent⟩⟩
  · rintro ⟨sf, hfork, hparent⟩
    obtain ⟨s', hparent⟩ := parentSide_ok_iff.mpr hparent
    refine ⟨s', ?_⟩
    rw [heq, Prog.bind_ok (show (do beforeRootfsTest env h keep; rootFork env h total :
      Prog St Failure Unit) s = some (.ok (), sf) from hfork), hparent]

end Parent

/-! ## Success -/

/-- The parent's 0 means that the file systems are installed, and no child goes on in its
    steps, if and only if every child that is forked fails to get the pipe on its standard
    input and, for the root file system, the parent then does not return either. -/
theorem installed_iff (env : Env) (ce : ChildEnv) (h : FWFileHdr) (keep : Bool) (total : ℕ)
    (s : St) :
    Installed env ce h keep total s ↔
      ∀ sec sf, Forks env h keep total s sec sf → ce.dup2 sec = false ∧
        (sec = .rootfs → env.waitpid .rootfs = false ∨
          loadingFsLoop env (h.stanza .rootfs).file.size env.fuel 0 (h.stanza .rootfs).file.size
            sf = none) := by
  constructor
  · rintro ⟨hok, hchild⟩ sec sf hfork
    have hdup : ce.dup2 sec = false := by
      have hnot := hchild sec sf hfork
      rw [continues_iff] at hnot
      simpa using hnot
    refine ⟨hdup, ?_⟩
    rintro rfl
    by_contra hboth
    obtain ⟨hwait, hloop⟩ := not_or.mp hboth
    obtain ⟨s', hrun⟩ := loadingFirmware_ok_iff.mpr ⟨sf, hfork, hloop, by simpa using hwait⟩
    have hran := (hok s' hrun).2.ran
    rw [hdup] at hran
    cases hran
  · intro hall
    constructor
    · intro s' hrun
      obtain ⟨sf, hfork, hloop, hwait⟩ := loadingFirmware_ok_iff.mp ⟨s', hrun⟩
      rcases (hall .rootfs sf hfork).2 rfl with hno | hnone
      · rw [hwait] at hno
        cases hno
      · exact absurd hnone hloop
    · intro sec sf hfork hgoes
      rw [continues_iff, (hall sec sf hfork).1] at hgoes
      cases hgoes

theorem machTypeSmartQ7_known :
    machTypeSmartQ7 = machTypeSmartQ5 ∨ machTypeSmartQ7 = machTypeSmartQ7 := .inr rfl

/-- Four sections of a byte each and a root file system that starts like a gzip archive. -/
def gzipPack : Pack where
  components := [some [1], some [2], some [3], some [4], some gzipSniff]
  machType := machTypeSmartQ7
  date := 0
  argc := by simp
  device := machTypeSmartQ7_known

theorem genuine_gzipPack : Genuine (Env.quiet gzipPack.image) gzipPack := by
  refine Env.quiet_genuine ?_
  rw [Pack.length_image]
  show fwFileHdrSize + 1 + 1 + 1 + 1 + 2 + 0 < 2 ^ 31
  norm_num [fwFileHdrSize]

theorem fitsSlots_gzipPack : FitsSlots gzipPack := by
  constructor <;>
    simp only [Pack.body, Pack.content, gzipPack, Section.idx, List.getElem?_cons_zero,
      List.getElem?_cons_succ, Option.join_some, Option.getD_some, List.length_singleton, slot,
      Pack.nandOffset, nandBlkSize, qiBlocks, copySize] <;> omega

/-- Whatever the archive command does, its child goes on. -/
theorem gzipPack_not_installed :
    ¬ ∀ (env : Env) (ce : ChildEnv) (r : IoResult) (h : FWFileHdr) (keep : Bool) (s : St),
      extract env.host env.file r = .accepted h →
      Installed env ce h keep (totalSizeSum h keep) s := by
  intro hall
  let env := Env.quiet gzipPack.image
  have g := genuine_gzipPack
  have hx : extract env.host gzipPack.image .full = .accepted gzipPack.hdr :=
    extract_image _ _ (by simp [env, wrongPlatform, Env.quiet, Host.quiet]) g.small
  obtain ⟨s1, hrun, hpos, hfull⟩ := g.beforeRootfsTest_kept (fun _ => rfl) (by simp [Env.quiet])
    fitsSlots_gzipPack (s := St.init (fun _ => 0) fun _ => 0) rfl
  have hsize := beforeRootfsTest_sizeSum g.small hfull hrun
  have hbytes : (gzipPack.image.drop s1.sdPos).take 2 = gzipSniff := by
    have hcomponent := (gzipPack.laid_image g.small).component .rootfs
    have hlen : (gzipPack.hdr.stanza .rootfs).file.size = 2 := by
      rw [(gzipPack.laid_image g.small).size]
      rfl
    rw [hlen] at hcomponent
    rw [hpos, hcomponent]
    rfl
  have hsniff : ∃ s2, sniff env s1 = some (.ok gzipSniff, s2) := by
    have havail : 2 ≤ gzipPack.image.length - s1.sdPos := by
      have hlen := congrArg List.length hbytes
      rw [List.length_take, List.length_drop] at hlen
      have htwo : gzipSniff.length = 2 := rfl
      omega
    have hgot : transferred (env.io s1.calls) 2 (gzipPack.image.length - s1.sdPos) = (2 : ℕ) :=
      transferred_full (by norm_num) havail
    have hbytes' : (env.file.drop s1.sdPos).take 2 ++ env.stack.drop 2 = gzipSniff := by
      show (gzipPack.image.drop s1.sdPos).take 2 ++ [] = _
      rw [List.append_nil, hbytes]
    rw [sniff, Prog.step_apply]
    simp only [show env.file.length = gzipPack.image.length from rfl, hgot, Int.toNat_natCast,
      hbytes']
    exact ⟨_, rfl⟩
  obtain ⟨s2, hsniff⟩ := hsniff
  have hfork : Forks env gzipPack.hdr true (totalSizeSum gzipPack.hdr true)
      (St.init (fun _ => 0) fun _ => 0) .rootfs s2 := by
    show (beforeRootfsTest env gzipPack.hdr true >>= fun _ =>
      rootFork env gzipPack.hdr (totalSizeSum gzipPack.hdr true)) _ = _
    rw [Prog.bind_ok hrun, rootFork, Prog.get_bind, Prog.exitIf_of_not (not_not.mpr hsize),
      beforeFork, Prog.bind_ok hsniff, Prog.doIf_of_not (by decide), Prog.exitIf_of_not (by decide)]
    rfl
  have hdup := (hall env ⟨fun _ => true, fun _ => 0, fun _ => 2⟩ .full gzipPack.hdr true _ hx).child
    .rootfs s2 hfork
  rw [continues_iff] at hdup
  exact hdup rfl

end SmartQ.Firmware.Upgrade
