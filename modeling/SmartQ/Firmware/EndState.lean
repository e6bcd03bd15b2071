import SmartQ.Firmware.Copies

/-!
# The flash after a successful upgrade

`upgrade` checks every section right after writing it and never again. What the
flash holds in the end is therefore decided by the writes that came later: the
zeroing of the last two blocks and the larger sections of the backup copy may
land on the Qi block, and a section longer than its slot on its neighbour.

* `flashing_spec`: the writes of a successful run over the last 16 MiB.
* `endState_iff_kept`: the flash holds the whole file in the end iff no section
  is covered by other bytes of a later write, given as a condition on the
  sections alone.
* `kept_of_fits`: sections inside their slots meet it.
-/

namespace SmartQ.Firmware.Upgrade

open SmartQ.Lib

variable {env : Env} {p : Pack}

/-! ## The Qi block and the last two blocks -/

/-- The 18 blocks Qi is written to. -/
def qiBlocks : ℕ := 18

/-- The write of the Qi block on a device of `n` bytes. -/
def qiWrite (p : Pack) (n : ℕ) : Write := (n - qiBlocks * nandBlkSize, p.body .qi)

/-- The zeroing of the last two blocks. -/
def zeroWrite (n : ℕ) : Write := (n - 2 * nandBlkSize, List.replicate (2 * nandBlkSize) 0)

namespace Genuine

variable (g : Genuine env p)

include g

theorem onDevice_qi : (qiStage p.hdr).OnDevice env := by
  have hdev := g.device
  constructor <;> simp only [qiStage, nandBlkSize, copySize] at * <;> omega

theorem verifySize_qi : (qiStage p.hdr).verifySize = (p.body .qi).length := by
  have hlt := g.body_lt .qi
  simp only [qiStage, g.fileSize]
  exact int32_of_range (by omega) (by omega)

theorem size_qi : (qiStage p.hdr).size = (p.body .qi).length := g.fileSize .qi

theorem typed_qi : (qiStage p.hdr).Typed := by
  have hlt := g.body_lt .qi
  refine ⟨?_, ?_, ?_⟩
  · rw [g.size_qi]
    omega
  · rw [g.verifySize_qi]
    omega
  · rw [g.verifySize_qi]
    omega

theorem source_qi (pos : ℕ) : (qiStage p.hdr).source pos = p.fileOffset .qi := by
  have hin := g.section_le .qi
  have hsmall := g.small
  rw [← g.file] at hsmall
  have hoff : (p.hdr.stanza .qi).file.offset = p.fileOffset .qi := by
    rw [p.stanza_hdr]
    rfl
  simp only [Stage.source, qiStage, hoff]
  exact if_pos (by rw [int32_of_range (by omega) (by omega)]; omega)

theorem flash_qi : fromEnd env (qiStage p.hdr).flash = env.deviceSize - qiBlocks * nandBlkSize := by
  have hdev := g.device
  simp only [qiStage, fromEnd, qiBlocks, nandBlkSize, copySize] at *
  omega

theorem write_qi : (qiStage p.hdr).write env (p.fileOffset .qi) = qiWrite p env.deviceSize := by
  rw [Stage.write, g.flash_qi, g.size_qi, g.slice_section]
  rfl

theorem passes_qi : (qiStage p.hdr).Passes env (p.fileOffset .qi) := by
  intro d
  have hverify : fromEnd env (qiStage p.hdr).verify = env.deviceSize - qiBlocks * nandBlkSize :=
    g.flash_qi
  have hsum : (qiStage p.hdr).checkSum = byteSum (p.body .qi) % 2 ^ 32 := by
    show (p.hdr.stanza .qi).checkSum = _
    rw [p.stanza_hdr]
    exact p.checkSum_eq (g.body_lt .qi)
  rw [g.write_qi, applyWrites_cons, applyWrites_nil, hverify, g.verifySize_qi, Int.toNat_natCast,
    hsum, qiWrite, load_store]

theorem qiStage_spec {s s' : St} (h : stage env (qiStage p.hdr) s = some (.ok (), s'))
    (hs : s'.short = false) :
    s.short = false ∧ s'.inand = applyWrites [qiWrite p env.deviceSize] s.inand ∧
      (p.body .qi).length ≤ qiBlocks * nandBlkSize := by
  obtain ⟨hst, -, -⟩ := stage_spec h hs g.onDevice_qi g.typed_qi
  refine ⟨hst.short, ?_, ?_⟩
  · rw [hst.inand, g.source_qi, g.write_qi]
  · have hle := hst.inDevice
    rw [g.size_qi, g.flash_qi] at hle
    have hdev := g.device
    simp only [qiBlocks, nandBlkSize, copySize] at *
    omega

/-- With full transfers the Qi stage succeeds when Qi fits its blocks. -/
theorem qiStage_total (hio : ∀ k, env.io k = .full) (hfuel : 512 ≤ env.fuel)
    (hqi : (p.body .qi).length ≤ qiBlocks * nandBlkSize) {s : St} (hs : s.short = false) :
    ∃ s', stage env (qiStage p.hdr) s = some (.ok (), s') ∧ s'.short = false := by
  have hdev := g.device
  have hin := g.section_le .qi
  have hverify : fromEnd env (qiStage p.hdr).verify = env.deviceSize - qiBlocks * nandBlkSize :=
    g.flash_qi
  have hfit : (qiStage p.hdr).Fits env ((qiStage p.hdr).source s.sdPos) := by
    rw [g.source_qi]
    constructor <;>
      simp only [g.size_qi, g.verifySize_qi, g.flash_qi, hverify, Int.toNat_natCast, qiBlocks,
        nandBlkSize, copySize, inandSizePerWrite] at * <;> omega
  obtain ⟨r, s', hst, hs'⟩ := stage_total hio g.onDevice_qi g.typed_qi hfit hs
  obtain ⟨hstage, -, hr⟩ := stage_spec hst hs' g.onDevice_qi g.typed_qi
  rw [hstage.inand, if_pos (by rw [g.source_qi]; exact g.passes_qi s.inand)] at hr
  subst hr
  exact ⟨s', hst, hs'⟩

end Genuine

theorem zeroLastBlocks_spec (hdev : 2 * copySize ≤ env.deviceSize) {s s' : St}
    (h : zeroLastBlocks env s = some (.ok (), s')) (hs : s'.short = false) :
    s.short = false ∧ s'.inand = applyWrites [zeroWrite env.deviceSize] s.inand := by
  rw [zeroLastBlocks, Prog.bind_ok (seekInand_apply (by
    simp only [nandBlkSize, copySize] at *; omega) (by simp only [nandBlkSize]; omega) s),
    Prog.modify_bind] at h
  obtain ⟨w1, s1, h1, h⟩ := Prog.step_bind h
  obtain ⟨w2, s2, h2, h⟩ := Prog.step_bind h
  cases h
  obtain ⟨-, hs1, -, -, rfl⟩ := writeInand_spec h2 hs
  obtain ⟨-, hs0, -, -, rfl⟩ := writeInand_spec h1 hs1
  refine ⟨hs0, ?_⟩
  have hload : load (store s.buffer 0 (List.replicate nandBlkSize (0 : Byte))) 0 nandBlkSize
      = List.replicate nandBlkSize 0 := by
    have := load_store s.buffer 0 (List.replicate nandBlkSize (0 : Byte))
    rwa [List.length_replicate] at this
  have hpos : fromEnd env (-2 * nandBlkSize) = env.deviceSize - 2 * nandBlkSize := by
    simp only [fromEnd, nandBlkSize, copySize] at *
    omega
  have happ := store_append s.inand (env.deviceSize - 2 * nandBlkSize)
    (List.replicate nandBlkSize 0) (List.replicate nandBlkSize 0)
  rw [List.length_replicate, List.replicate_append_replicate, ← Nat.two_mul] at happ
  simp only [hload, hpos, applyWrites_cons, applyWrites_nil, zeroWrite]
  exact happ

/-! ## The file systems -/

/-- Mounting and unpacking stay in front of the last 16 MiB, which no partition
    reaches. -/
def Env.FsBelow (env : Env) : Prop :=
  ∀ d x part xz, copy1 env.deviceSize ≤ x →
    env.command (.mount part) d x = d x ∧ env.command (.untar part xz) d x = d x

/-- The `write`s among what was done to the device. -/
def writesOf (log : List Action) : List Write :=
  log.filterMap fun
    | .write w => some w
    | .command _ => none

theorem writesOf_append (xs ys : List Action) : writesOf (xs ++ ys) = writesOf xs ++ writesOf ys :=
  List.filterMap_append

@[simp] theorem writesOf_map_write (ws : List Write) : writesOf (ws.map .write) = ws := by
  simp [writesOf, List.filterMap_map]

/-- What the file system part keeps: the last 16 MiB and the writes made. -/
def OffFlash (env : Env) (s s' : St) : Prop :=
  (env.FsBelow → ∀ x, copy1 env.deviceSize ≤ x → s'.inand x = s.inand x) ∧
    writesOf s'.log = writesOf s.log

namespace OffFlash

variable {α β : Type}

theorem refl (s : St) : OffFlash env s s := ⟨fun _ _ _ => rfl, rfl⟩

theorem trans (s s' s'' : St) (h : OffFlash env s s') (h' : OffFlash env s' s'') :
    OffFlash env s s'' :=
  ⟨fun hb x hx => (h'.1 hb x hx).trans (h.1 hb x hx), h'.2.trans h.2⟩

theorem bind {x : Prog St Failure α} {f : α → Prog St Failure β}
    (hx : Prog.Steps (OffFlash env) x) (hf : ∀ a, Prog.Steps (OffFlash env) (f a)) :
    Prog.Steps (OffFlash env) (x >>= f) := Prog.Steps.bind trans hx hf

theorem seekSd (off : ℕ) : Prog.Steps (OffFlash env) (seekSd off) := by
  refine Prog.Steps.modify fun s => ?_
  split_ifs
  · exact ⟨fun _ _ _ => rfl, rfl⟩
  · exact refl s

theorem readSd (n : ℕ) : Prog.Steps (OffFlash env) (readSd env n) :=
  Prog.Steps.step fun _ => ⟨fun _ _ _ => rfl, rfl⟩

theorem addSizeSum (n : ℕ) : Prog.Steps (OffFlash env) (addSizeSum n) :=
  Prog.Steps.modify fun _ => ⟨fun _ _ _ => rfl, rfl⟩

theorem writePipe (n : ℕ) : Prog.Steps (OffFlash env) (writePipe n) :=
  Prog.Steps.modify fun _ => ⟨fun _ _ _ => rfl, rfl⟩

theorem runCommand {c : Command}
    (hc : env.FsBelow → ∀ d x, copy1 env.deviceSize ≤ x → env.command c d x = d x) :
    Prog.Steps (OffFlash env) (runCommand env c) :=
  Prog.Steps.modify fun s => ⟨fun hb x hx => hc hb _ x hx, by simp [writesOf]⟩

theorem loadingFsLoop (total fuel size n : ℕ) :
    Prog.Steps (OffFlash env) (loadingFsLoop env total fuel size n) := by
  induction fuel generalizing size n with
  | zero => exact Prog.Steps.stuck
  | succ fuel ih =>
    rw [Upgrade.loadingFsLoop]
    split_ifs
    · exact bind (readSd _) fun _ => bind (addSizeSum _) fun _ => bind (writePipe _) fun _ => ih _ _
    · exact bind (readSd _) fun _ => bind (addSizeSum _) fun _ => writePipe _

theorem loadingFs (sec : Section) (part total : ℕ) :
    Prog.Steps (OffFlash env) (loadingFs env sec part total) := by
  refine bind (Prog.Steps.step fun _ => ⟨fun _ _ _ => rfl, rfl⟩) fun _ =>
    bind (Prog.Steps.doIf refl _ (Prog.Steps.modify fun _ => ⟨fun _ _ _ => rfl, rfl⟩)) fun _ =>
    bind (Prog.Steps.exitIf refl _ _) fun _ => bind (Prog.Steps.exitIf refl _ _) fun _ =>
    bind (loadingFsLoop _ _ _ _) fun _ => bind (Prog.Steps.get refl) fun _ =>
    bind (runCommand ?_) fun _ => Prog.Steps.exitIf refl _ _
  exact fun hb d x hx => (hb d x _ _ hx).2

theorem loadingHome (h : FWFileHdr) : Prog.Steps (OffFlash env) (loadingHome env h) := by
  refine bind (Prog.Steps.get refl) fun old => bind (runCommand ?_) fun _ =>
    bind (seekSd _) fun _ => bind (loadingFs _ _ _) fun _ => Prog.Steps.modify fun s => ?_
  · exact fun hb d x hx => (hb d x _ false hx).1
  · split_ifs
    · exact ⟨fun _ _ _ => rfl, rfl⟩
    · exact refl s

theorem loadingFilesystems (h : FWFileHdr) (keep : Bool) (total : ℕ) :
    Prog.Steps (OffFlash env) (loadingFilesystems env h keep total) := by
  refine bind (Prog.Steps.doIf refl _ (loadingHome h)) fun _ => bind (runCommand ?_) fun _ =>
    bind (seekSd _) fun _ => bind (Prog.Steps.get refl) fun _ =>
    bind (Prog.Steps.exitIf refl _ _) fun _ => loadingFs _ _ _
  exact fun hb d x hx => (hb d x _ false hx).1

end OffFlash

/-- `loading_firmware` is the eight stages and then nothing but file systems. -/
theorem loadingFirmware_spec {h : FWFileHdr} {homefs keep : Bool} {total : ℕ} {s s' : St}
    {r : Except Failure Unit} (hrun : loadingFirmware env h homefs keep total s = some (r, s')) :
    ∃ r1 s1, loadingCopies env h s = some (r1, s1) ∧ (s'.short = false → s1.short = false) ∧
      OffFlash env s1 s' := by
  have hfs : Prog.Steps (OffFlash env) (Prog.doIf homefs (loadingFilesystems env h keep total)) :=
    Prog.Steps.doIf OffFlash.refl _ (OffFlash.loadingFilesystems h keep total)
  have hgrow : Prog.Steps Grows (Prog.doIf homefs (loadingFilesystems env h keep total)) :=
    Prog.Steps.doIf Grows.refl _ (Grows.loadingFilesystems h keep total)
  rcases Prog.bind_eq_some.mp hrun with ⟨e, h1, -⟩ | ⟨a, s1, h1, h2⟩
  · exact ⟨_, _, h1, id, OffFlash.refl s'⟩
  · exact ⟨_, _, h1, (hgrow _ _ _ h2).1, hfs _ _ _ h2⟩

/-! ## The whole run -/

/-- What a successful run writes to the last 16 MiB of a device of `n` bytes. -/
def flashWrites (p : Pack) (n : ℕ) : List Write :=
  qiWrite p n :: zeroWrite n :: ((copyWrites p).map (Write.shift (copy1 n)) ++
    (copyWrites p).map (Write.shift (copy0 n)))

/-- The device after a successful run is, in its last 16 MiB, what these writes
    made of it, and every section ended on the device. -/
theorem Genuine.flashing_spec (g : Genuine env p) (hbelow : env.FsBelow) {homefs keep : Bool}
    {s s' : St} (hrun : flashing env p.hdr homefs keep s = some (.ok (), s'))
    (hs : s'.short = false) :
    ∃ d, (∀ x, copy1 env.deviceSize ≤ x →
        s'.inand x = applyWrites (flashWrites p env.deviceSize) d x) ∧
      (p.body .qi).length ≤ qiBlocks * nandBlkSize ∧
      ∀ w ∈ copyWrites p, w.1 + w.2.length ≤ copySize := by
  obtain ⟨_, s1, -, hrun⟩ := Prog.bind_eq_ok.mp hrun
  obtain ⟨_, s2, hqi, hrun⟩ := Prog.bind_eq_ok.mp hrun
  obtain ⟨_, s3, hzero, hload⟩ := Prog.bind_eq_ok.mp hrun
  obtain ⟨r4, s4, hcopies, hshort, hoff⟩ := loadingFirmware_spec hload
  have hs4 := hshort hs
  obtain ⟨-, hran⟩ := g.loadingCopies_spec hcopies hs4
  obtain ⟨hs2, hzero⟩ := zeroLastBlocks_spec g.device hzero hran.short
  obtain ⟨-, hqi, hqlen⟩ := g.qiStage_spec hqi hs2
  have hinand : s4.inand = applyWrites (stageWrites env (firmwareStages p.hdr) s3.sdPos) s3.inand :=
    hran.inand
  have hdev := hran.inDevice
  rw [g.stageWrites_firmwareStages] at hinand hdev
  refine ⟨s1.inand, fun x hx => ?_, hqlen, fun w hw => ?_⟩
  · rw [hoff.1 hbelow x hx, hinand, hzero, hqi, ← applyWrites_append, ← applyWrites_append,
      List.singleton_append, List.singleton_append, flashWrites]
  · have hle := hdev (Write.shift (copy0 env.deviceSize) w)
      (List.mem_append_right _ (List.mem_map_of_mem hw))
    have h16 := g.device
    simp only [Write.shift, copy0, copySize] at *
    omega

/-! ## The end state -/

/-- The device `d` of `n` bytes holds the whole file: Qi, and in both copies the
    header and the three sections. -/
structure EndState (p : Pack) (n : ℕ) (d : Disk) : Prop where
  qi : load d (n - qiBlocks * nandBlkSize) (p.body .qi).length = p.body .qi
  header : ∀ base ∈ [copy1 n, copy0 n], load d base fwFileHdrSize = p.hdr.bytes
  sections : ∀ base ∈ [copy1 n, copy0 n], ∀ s ∈ [Section.uBoot, .zimage, .initramfs],
    load d (base + (p.hdr.stanza s).nand.offset * nandBlkSize) (p.body s).length = p.body s

/-- No section is covered by other bytes of what is written after it. Offsets
    are from the base of a copy; Qi lies in the last blocks of copy 0. -/
structure SectionsKept (p : Pack) : Prop where
  uBoot : Write.KeptBy (slot .uBoot, p.body .uBoot)
    [(slot .zimage, p.body .zimage), (slot .initramfs, p.body .initramfs)]
  zimage : Write.KeptBy (slot .zimage, p.body .zimage) [(slot .initramfs, p.body .initramfs)]
  qi : Write.KeptBy (copySize - qiBlocks * nandBlkSize, p.body .qi)
    ((copySize - 2 * nandBlkSize, List.replicate (2 * nandBlkSize) 0) :: copyWrites p)

section Layout

variable {n : ℕ} (hn : 2 * copySize ≤ n)
  (hfit : ∀ w ∈ copyWrites p, w.1 + w.2.length ≤ copySize)

include hn hfit in
/-- A write of copy 1 is undone only by later writes of copy 1. -/
theorem load_copy1_iff {pre post : List Write} {w : Write} (hw : copyWrites p = pre ++ w :: post)
    (d : Disk) : load (applyWrites (flashWrites p n) d) (copy1 n + w.1) w.2.length = w.2 ↔
      w.KeptBy post := by
  have hsplit : flashWrites p n = (qiWrite p n :: zeroWrite n :: pre.map (Write.shift (copy1 n))) ++
      w.shift (copy1 n) ::
        (post.map (Write.shift (copy1 n)) ++ (copyWrites p).map (Write.shift (copy0 n))) := by
    rw [flashWrites]
    nth_rewrite 1 [hw]
    simp
  rw [hsplit]
  refine (load_applyWrites_iff _ (w.shift (copy1 n)) _ d).trans ?_
  rw [Write.keptBy_append_right, Write.keptBy_shift]
  intro v hv
  obtain ⟨u, -, rfl⟩ := List.mem_map.mp hv
  have hle := hfit w (by rw [hw]; simp)
  refine .inr ?_
  simp only [Write.shift, copy1, copy0, copySize] at *
  omega

/-- A write of copy 0 is undone only by later writes of copy 0. -/
theorem load_copy0_iff {pre post : List Write} {w : Write} (hw : copyWrites p = pre ++ w :: post)
    (d : Disk) : load (applyWrites (flashWrites p n) d) (copy0 n + w.1) w.2.length = w.2 ↔
      w.KeptBy post := by
  have hsplit : flashWrites p n = (qiWrite p n :: zeroWrite n ::
      ((copyWrites p).map (Write.shift (copy1 n)) ++ pre.map (Write.shift (copy0 n)))) ++
        w.shift (copy0 n) :: post.map (Write.shift (copy0 n)) := by
    rw [flashWrites]
    nth_rewrite 2 [hw]
    simp
  rw [hsplit]
  refine (load_applyWrites_iff _ (w.shift (copy0 n)) _ d).trans ?_
  rw [Write.keptBy_shift]

include hn hfit in
/-- Qi is undone only by the zeroing and by copy 0. -/
theorem load_qi_iff (hqi : (p.body .qi).length ≤ qiBlocks * nandBlkSize) (d : Disk) :
    load (applyWrites (flashWrites p n) d) (n - qiBlocks * nandBlkSize) (p.body .qi).length =
        p.body .qi ↔
      Write.KeptBy (copySize - qiBlocks * nandBlkSize, p.body .qi)
        ((copySize - 2 * nandBlkSize, List.replicate (2 * nandBlkSize) 0) :: copyWrites p) := by
  have hqi' : qiWrite p n =
      Write.shift (copy0 n) (copySize - qiBlocks * nandBlkSize, p.body .qi) := by
    simp only [qiWrite, Write.shift, copy0, copySize, qiBlocks, nandBlkSize, Prod.mk.injEq,
      and_true] at *
    omega
  have hzero : zeroWrite n = Write.shift (copy0 n)
      (copySize - 2 * nandBlkSize, List.replicate (2 * nandBlkSize) 0) := by
    simp only [zeroWrite, Write.shift, copy0, copySize, nandBlkSize, Prod.mk.injEq, and_true] at *
    omega
  have hsplit : flashWrites p n = [] ++ qiWrite p n :: ([zeroWrite n] ++
      ((copyWrites p).map (Write.shift (copy1 n)) ++
        (copyWrites p).map (Write.shift (copy0 n)))) := rfl
  rw [hsplit]
  refine (load_applyWrites_iff [] (qiWrite p n) _ d).trans ?_
  rw [← Write.keptBy_shift (copy0 n) (copySize - qiBlocks * nandBlkSize, p.body .qi), ← hqi',
    List.map_cons, ← hzero]
  refine forall₂_congr fun k hk => ?_
  have hcopy1 : overlay ((copyWrites p).map (Write.shift (copy1 n))) ((qiWrite p n).1 + k) = none := by
    refine overlay_of_avoids fun v hv => ?_
    obtain ⟨u, hu, rfl⟩ := List.mem_map.mp hv
    have hle := hfit u hu
    refine .inl ?_
    simp only [qiWrite, Write.shift, copy1, copySize, qiBlocks, nandBlkSize] at *
    omega
  rw [overlay_append, overlay_append, hcopy1, Option.or_none, overlay]
  simp only [overlay, Option.none_or]

end Layout

/-- The flash holds the whole file iff no section is covered by other bytes. -/
theorem endState_flashWrites_iff {n : ℕ} (hn : 2 * copySize ≤ n)
    (hfit : ∀ w ∈ copyWrites p, w.1 + w.2.length ≤ copySize)
    (hqi : (p.body .qi).length ≤ qiBlocks * nandBlkSize) {d d' : Disk}
    (hd : ∀ x, copy1 n ≤ x → d' x = applyWrites (flashWrites p n) d x) :
    EndState p n d' ↔ SectionsKept p := by
  have hcopies : copy1 n ≤ copy0 n ∧ copy1 n ≤ n - qiBlocks * nandBlkSize := by
    simp only [copy1, copy0, copySize, qiBlocks, nandBlkSize] at *
    omega
  have hload : ∀ a m, copy1 n ≤ a → load d' a m = load (applyWrites (flashWrites p n) d) a m :=
    fun a m ha => load_ext fun i _ => hd _ (by omega)
  have hbody : ∀ (base : ℕ) {pre post : List Write} {w : Write}, base = copy1 n ∨ base = copy0 n →
      copyWrites p = pre ++ w :: post →
      (load d' (base + w.1) w.2.length = w.2 ↔ w.KeptBy post) := by
    rintro base pre post w (rfl | rfl) hw
    · rw [hload _ _ (by omega)]
      exact load_copy1_iff hn hfit hw d
    · rw [hload _ _ (by omega)]
      exact load_copy0_iff hw d
  have hu : copyWrites p = [(0, p.hdr.bytes)] ++ (slot .uBoot, p.body .uBoot) ::
      [(slot .zimage, p.body .zimage), (slot .initramfs, p.body .initramfs)] := rfl
  have hz : copyWrites p = [(0, p.hdr.bytes), (slot .uBoot, p.body .uBoot)] ++
      (slot .zimage, p.body .zimage) :: [(slot .initramfs, p.body .initramfs)] := rfl
  have hi : copyWrites p = [(0, p.hdr.bytes), (slot .uBoot, p.body .uBoot),
      (slot .zimage, p.body .zimage)] ++ (slot .initramfs, p.body .initramfs) :: [] := rfl
  have hh : copyWrites p = [] ++ (0, p.hdr.bytes) :: [(slot .uBoot, p.body .uBoot),
      (slot .zimage, p.body .zimage), (slot .initramfs, p.body .initramfs)] := rfl
  have hoff : ∀ s, (p.hdr.stanza s).nand.offset * nandBlkSize = slot s := by
    intro s
    rw [p.stanza_hdr]
    rfl
  have hqload := (load_qi_iff hn hfit hqi d)
  rw [← hload _ _ hcopies.2] at hqload
  constructor
  · intro hend
    have hsec := hend.sections (copy1 n) (by simp)
    refine ⟨?_, ?_, hqload.mp hend.qi⟩
    · have h := hsec .uBoot (by simp)
      rw [hoff] at h
      exact (hbody _ (.inl rfl) hu).mp h
    · have h := hsec .zimage (by simp)
      rw [hoff] at h
      exact (hbody _ (.inl rfl) hz).mp h
  · intro hkept
    refine ⟨hqload.mpr hkept.qi, fun base hb => ?_, fun base hb s hs => ?_⟩
    · have hb' : base = copy1 n ∨ base = copy0 n := by simpa using hb
      have hkeep : Write.KeptBy (0, p.hdr.bytes) [(slot .uBoot, p.body .uBoot),
          (slot .zimage, p.body .zimage), (slot .initramfs, p.body .initramfs)] := by
        refine Write.keptBy_of_avoids fun v hv => .inr ?_
        have hlen := p.hdr.length_eq
        simp only [List.mem_cons, List.not_mem_nil, or_false] at hv
        rcases hv with rfl | rfl | rfl <;>
          simp only [hlen, slot, Pack.nandOffset, nandBlkSize, fwFileHdrSize] <;> omega
      have h := (hbody base hb' hh).mpr hkeep
      simp only [p.hdr.length_eq, Nat.add_zero] at h
      exact h
    · have hb' : base = copy1 n ∨ base = copy0 n := by simpa using hb
      rw [hoff]
      simp only [List.mem_cons, List.not_mem_nil, or_false] at hs
      rcases hs with rfl | rfl | rfl
      · exact (hbody base hb' hu).mpr hkept.uBoot
      · exact (hbody base hb' hz).mpr hkept.zimage
      · exact (hbody base hb' hi).mpr (Write.keptBy_of_avoids (by simp))

/-! ## From `main` -/

/-- A run past `extract` with a full read has the file's own header. -/
theorem extractStep_ok {h : FWFileHdr} {s s' : St}
    (hrun : extractStep env s = some (.ok h, s')) (hs : s'.short = false) :
    env.file.length < 2 ^ 31 ∧ h.bytes = env.file.take fwFileHdrSize ∧
      s' = { s with calls := s.calls + 1 } := by
  obtain ⟨r, s1, h1, h2⟩ := Prog.step_bind hrun
  cases h1
  cases hx : extract env.host env.file (env.io s.calls) with
  | accepted h' =>
    simp only [hx] at h2
    cases h2
    obtain ⟨hshort, hgot⟩ : s.short = false ∧
        transferred (env.io s.calls) fwFileHdrSize env.file.length = fwFileHdrSize := by
      simpa using hs
    obtain ⟨hsmall, hhdr⟩ := extract_of_accepted hx
    refine ⟨hsmall, ?_, by simp [hgot, hshort]⟩
    rw [hhdr, hgot, readHdr_full (transferred_eq hgot).2]
  | rejected why =>
    simp only [hx] at h2
    cases h2
  | fault =>
    simp only [hx] at h2
    cases h2

/-- A successful run of `main` on a file `mkSmartQ` wrote. -/
theorem main_ok {homefs keep : Bool} {s s' : St} (hfile : env.file = p.image)
    (hdev : 2 * copySize ≤ env.deviceSize)
    (hrun : main env homefs keep s = some (.ok (), s')) (hs : s'.short = false) :
    Genuine env p ∧ ∃ s1, flashing env p.hdr homefs keep s1 = some (.ok (), s') := by
  obtain ⟨h, s1, hextract, hrun⟩ := Prog.bind_eq_ok.mp hrun
  rcases Prog.exitIf_bind hrun with ⟨-, ⟨⟩, -⟩ | ⟨-, hrun⟩
  rcases Prog.exitIf_bind hrun with ⟨-, ⟨⟩, -⟩ | ⟨-, hrun⟩
  rw [Prog.modify_bind] at hrun
  have hs1 : s1.short = false := (Grows.flashing h homefs keep _ _ _ hrun).1 hs
  obtain ⟨hsmall, hbytes, -⟩ := extractStep_ok hextract hs1
  have hh : h = p.hdr := by
    ext1
    rw [hbytes, hfile, p.image_take]
  subst hh
  rw [hfile] at hsmall
  exact ⟨⟨hfile, hsmall, hdev⟩, _, hrun⟩

/-! ## Slots -/

/-- Every section stays inside its slot: the blocks up to the next section, and
    in copy 0 up to Qi, and for Qi up to the last two blocks. -/
structure FitsSlots (p : Pack) : Prop where
  qi : (p.body .qi).length ≤ (qiBlocks - 2) * nandBlkSize
  uBoot : slot .uBoot + (p.body .uBoot).length ≤ slot .zimage
  zimage : slot .zimage + (p.body .zimage).length ≤ slot .initramfs
  initramfs : slot .initramfs + (p.body .initramfs).length ≤ copySize - qiBlocks * nandBlkSize

theorem kept_of_fits (h : FitsSlots p) : SectionsKept p := by
  obtain ⟨hq, hu, hz, hi⟩ := h
  have hlen := p.hdr.length_eq
  simp only [slot, Pack.nandOffset, nandBlkSize, qiBlocks, copySize] at hq hu hz hi
  constructor
  all_goals
    refine Write.keptBy_of_avoids fun v hv => ?_
    simp only [copyWrites, List.mem_cons, List.not_mem_nil, or_false] at hv
  · rcases hv with rfl | rfl <;> refine .inr ?_ <;>
      simp only [slot, Pack.nandOffset, nandBlkSize] <;> omega
  · subst hv
    refine .inr ?_
    simp only [slot, Pack.nandOffset, nandBlkSize]
    omega
  · rcases hv with rfl | rfl | rfl | rfl | rfl
    · refine .inr ?_
      simp only [nandBlkSize, qiBlocks, copySize]
      omega
    all_goals
      refine .inl ?_
      simp only [slot, Pack.nandOffset, nandBlkSize, qiBlocks, copySize, hlen, fwFileHdrSize]
      omega

/-! ## Runs exist -/

theorem zeroLastBlocks_total (hio : ∀ k, env.io k = .full) (hdev : 2 * copySize ≤ env.deviceSize)
    {s : St} (hs : s.short = false) :
    ∃ s', zeroLastBlocks env s = some (.ok (), s') ∧ s'.short = false := by
  have hpos : fromEnd env (-2 * nandBlkSize) + 2 * nandBlkSize ≤ env.deviceSize := by
    simp only [fromEnd, nandBlkSize, copySize] at *
    omega
  rw [zeroLastBlocks, Prog.bind_ok (seekInand_apply (by
    simp only [nandBlkSize, copySize] at *; omega) (by simp only [nandBlkSize]; omega) s),
    Prog.modify_bind,
    Prog.bind_ok (writeInand_full hio (by norm_num [nandBlkSize]) (by simp only; omega)),
    Prog.bind_ok (writeInand_full hio (by norm_num [nandBlkSize]) (by simp only; omega))]
  exact ⟨_, rfl, hs⟩

/-- With a full read a file `mkSmartQ` made is accepted. -/
theorem Genuine.extractStep_full (g : Genuine env p) (hio : ∀ k, env.io k = .full)
    (hplat : wrongPlatform env.host p.hdr = false) {s : St} (hs : s.short = false) :
    extractStep env s = some (.ok p.hdr, { s with calls := s.calls + 1 }) := by
  have hlen : fwFileHdrSize ≤ p.image.length := by
    rw [p.length_image]
    omega
  have hx : extract env.host env.file .full = .accepted p.hdr := by
    rw [g.file]
    exact extract_image _ p hplat g.small
  have hgot : transferred .full fwFileHdrSize env.file.length = fwFileHdrSize :=
    transferred_full (by norm_num [fwFileHdrSize]) (by rw [g.file]; exact hlen)
  simp only [extractStep, hio, hgot]
  show afterExtract (extract env.host env.file .full) _ = _
  rw [hx]
  simp [afterExtract, hs]

/-- With full transfers and sections that stay on the device the run gets to the
    file systems. -/
theorem Genuine.flashing_eq (g : Genuine env p) (hio : ∀ k, env.io k = .full)
    (hfuel : 512 ≤ env.fuel) (hqi : (p.body .qi).length ≤ qiBlocks * nandBlkSize)
    (hfit : ∀ s, s = .uBoot ∨ s = .zimage ∨ s = .initramfs →
      slot s + (p.body s).length ≤ copySize) (homefs keep : Bool) {s s1 : St}
    (hprep : Prog.doIf homefs (prepare env keep) s = some (.ok (), s1)) (hs : s1.short = false) :
    ∃ s', s'.short = false ∧ flashing env p.hdr homefs keep s =
      Prog.doIf homefs (loadingFilesystems env p.hdr keep (totalSizeSum p.hdr keep)) s' := by
  obtain ⟨s2, hq, hs2⟩ := g.qiStage_total hio hfuel hqi hs
  obtain ⟨s3, hz, hs3⟩ := zeroLastBlocks_total hio g.device hs2
  obtain ⟨s4, hc, hs4⟩ := g.loadingCopies_total hio hfuel hfit hs3
  refine ⟨s4, hs4, ?_⟩
  rw [flashing, Prog.bind_ok hprep, Prog.bind_ok hq, Prog.bind_ok hz, loadingFirmware,
    Prog.bind_ok hc]

/-- With full transfers an upgrade without file systems succeeds on a file whose
    sections stay on the device. -/
theorem Genuine.main_total (g : Genuine env p) (hio : ∀ k, env.io k = .full)
    (hfuel : 512 ≤ env.fuel) (hopen : env.openSd = true) (hmalloc : env.malloc = true)
    (hplat : wrongPlatform env.host p.hdr = false)
    (hqi : (p.body .qi).length ≤ qiBlocks * nandBlkSize)
    (hfit : ∀ s, s = .uBoot ∨ s = .zimage ∨ s = .initramfs →
      slot s + (p.body s).length ≤ copySize) (keep : Bool) {s : St} (hs : s.short = false) :
    ∃ s', main env false keep s = some (.ok (), s') ∧ s'.short = false := by
  rw [main, Prog.bind_ok (g.extractStep_full hio hplat hs), Prog.exitIf_of_not (by simp [hopen]),
    Prog.exitIf_of_not (by simp [hmalloc]), Prog.modify_bind]
  obtain ⟨s', hs', hrun⟩ := g.flashing_eq hio hfuel hqi hfit false keep
    (s := { s with calls := s.calls + 1, sdPos := 0 }) rfl hs
  rw [hrun]
  exact ⟨s', rfl, hs'⟩

theorem Env.quiet_genuine (hsmall : p.image.length < 2 ^ 31) : Genuine (Env.quiet p.image) p where
  file := rfl
  small := hsmall
  device := by simp [Env.quiet, copySize, zimageInitramfsSectors, nandBlkSize]

theorem Env.quiet_fsBelow (file : List Byte) : (Env.quiet file).FsBelow :=
  fun _ _ _ _ _ => ⟨rfl, rfl⟩

/-- An undisturbed upgrade with a file `mkSmartQ7` made of four sections
    succeeds when they stay on the device. -/
theorem Env.quiet_main {q u z i : List Byte} (hq : q.length ≤ qiBlocks * nandBlkSize)
    (hu : u.length ≤ 512) (hz : z.length ≤ 512) (hi : i.length ≤ 512) (keep : Bool) (d : Disk) :
    ∃ s', main (Env.quiet (Pack.ofFour q u z i).image) false keep (St.init d d) =
        some (.ok (), s') ∧ s'.short = false := by
  have hsmall : (Pack.ofFour q u z i).image.length < 2 ^ 31 := by
    rw [Pack.length_image]
    simp only [fwFileHdrSize, qiBlocks, nandBlkSize, Pack.body, Pack.content, Pack.ofFour,
      Section.idx, List.getElem?_cons_zero, List.getElem?_cons_succ, List.getElem?_nil,
      Option.join_some, Option.join_none, Option.getD_some, Option.getD_none, List.length_nil] at *
    omega
  refine (Env.quiet_genuine hsmall).main_total (fun _ => rfl) (by simp [Env.quiet]) rfl rfl ?_ hq ?_
    keep rfl
  · simp [wrongPlatform, Env.quiet, Host.quiet]
  · rintro s (rfl | rfl | rfl)
    · show _ + u.length ≤ _
      simp only [slot, Pack.nandOffset, nandBlkSize, copySize]
      omega
    · show _ + z.length ≤ _
      simp only [slot, Pack.nandOffset, nandBlkSize, copySize]
      omega
    · show _ + i.length ≤ _
      simp only [slot, Pack.nandOffset, nandBlkSize, copySize]
      omega

/-! ## The result -/

/-- After a successful upgrade the flash holds the whole file iff no section is
    covered by other bytes of a later write. -/
theorem endState_iff {homefs keep : Bool} {s s' : St} (hfile : env.file = p.image)
    (hdev : 2 * copySize ≤ env.deviceSize) (hbelow : env.FsBelow)
    (hrun : main env homefs keep s = some (.ok (), s')) (hfull : s'.short = false) :
    EndState p env.deviceSize s'.inand ↔ SectionsKept p := by
  obtain ⟨g, s1, hflash⟩ := main_ok hfile hdev hrun hfull
  obtain ⟨d, hd, hqi, hfit⟩ := g.flashing_spec hbelow hflash hfull
  exact endState_flashWrites_iff hdev hfit hqi hd

theorem endState_iff_small :
    ∃ s', main (Env.quiet (Pack.ofFour [1] [2] [3] [4]).image) false false
        (St.init (fun _ => 0) fun _ => 0) = some (.ok (), s') ∧ s'.short = false ∧
      (EndState (Pack.ofFour [1] [2] [3] [4])
          (Env.quiet (Pack.ofFour [1] [2] [3] [4]).image).deviceSize s'.inand ↔
        SectionsKept (Pack.ofFour [1] [2] [3] [4])) := by
  obtain ⟨s', hrun, hfull⟩ := Env.quiet_main (q := [1]) (u := [2]) (z := [3]) (i := [4])
    (by simp [qiBlocks, nandBlkSize]) (by simp) (by simp) (by simp) false fun _ => 0
  exact ⟨s', hrun, hfull, endState_iff rfl
    (by simp [Env.quiet, copySize, zimageInitramfsSectors, nandBlkSize])
    (Env.quiet_fsBelow _) hrun hfull⟩

/-- A byte of Qi in the last two blocks is lost unless it is zero, when the
    other sections are far away. -/
theorem not_sectionsKept_of_qi (hlong : 16 * nandBlkSize < (p.body .qi).length)
    (hbyte : byteAt (p.body .qi) (16 * nandBlkSize) ≠ 0)
    (hrest : ∀ s, s = .uBoot ∨ s = .zimage ∨ s = .initramfs → (p.body s).length ≤ 512) :
    ¬ SectionsKept p := by
  intro hkept
  have hcopy : overlay (copyWrites p) (copySize - qiBlocks * nandBlkSize + 16 * nandBlkSize)
      = none := by
    refine overlay_of_avoids fun v hv => .inl ?_
    have hlen := p.hdr.length_eq
    have hu := hrest .uBoot (by simp)
    have hz := hrest .zimage (by simp)
    have hi := hrest .initramfs (by simp)
    simp only [copyWrites, List.mem_cons, List.not_mem_nil, or_false] at hv
    rcases hv with rfl | rfl | rfl | rfl <;>
      simp only [hlen, slot, Pack.nandOffset, fwFileHdrSize, nandBlkSize, qiBlocks, copySize] <;>
      omega
  have hq := hkept.qi (16 * nandBlkSize) hlong
  have hzero : byteAt (List.replicate (2 * nandBlkSize) (0 : Byte)) 0 = 0 := rfl
  simp only [overlay, hcopy, Option.none_or, List.length_replicate] at hq
  rw [if_pos (by simp only [copySize, qiBlocks, nandBlkSize]; omega), Option.getD_some,
    show copySize - qiBlocks * nandBlkSize + 16 * nandBlkSize - (copySize - 2 * nandBlkSize) = 0 by
      simp only [copySize, qiBlocks, nandBlkSize], hzero] at hq
  exact hbyte hq.symm

/-- Qi of 16 blocks and one byte: the zeroing of the last two blocks hits its
    last byte. -/
def oversizeQi : Pack := Pack.ofFour (List.replicate (16 * nandBlkSize) 0 ++ [1]) [2] [3] [4]

theorem not_sectionsKept_oversizeQi : ¬ SectionsKept oversizeQi := by
  have hbody : oversizeQi.body .qi = List.replicate (16 * nandBlkSize) 0 ++ [1] := rfl
  have hlen : (List.replicate (16 * nandBlkSize) (0 : Byte)).length = 16 * nandBlkSize :=
    List.length_replicate
  refine not_sectionsKept_of_qi ?_ ?_ ?_
  · rw [hbody, List.length_append, hlen]
    exact Nat.lt_succ_self _
  · rw [hbody, byteAt_append_right _ (by omega), hlen, Nat.sub_self]
    decide
  · rintro s (rfl | rfl | rfl) <;> decide

/-- A successful upgrade after which the flash does not hold the whole of Qi. -/
theorem endState_oversizeQi :
    ∃ s', main (Env.quiet oversizeQi.image) false false (St.init (fun _ => 0) fun _ => 0) =
        some (.ok (), s') ∧ s'.short = false ∧
      ¬ EndState oversizeQi (Env.quiet oversizeQi.image).deviceSize s'.inand := by
  have hdev : 2 * copySize ≤ (Env.quiet oversizeQi.image).deviceSize := by
    simp [Env.quiet, copySize, zimageInitramfsSectors, nandBlkSize]
  have hq : (List.replicate (16 * nandBlkSize) (0 : Byte) ++ [1]).length ≤ qiBlocks * nandBlkSize := by
    rw [List.length_append, List.length_replicate]
    decide
  obtain ⟨s', hrun, hfull⟩ := Env.quiet_main hq (u := [2]) (z := [3]) (i := [4]) (by simp) (by simp)
    (by simp) false fun _ => 0
  obtain ⟨g, s1, hflash⟩ := main_ok (p := oversizeQi) rfl hdev hrun hfull
  obtain ⟨d, hd, hqi, hfit⟩ := g.flashing_spec (Env.quiet_fsBelow _) hflash hfull
  exact ⟨s', hrun, hfull, fun hend =>
    not_sectionsKept_oversizeQi ((endState_flashWrites_iff hdev hfit hqi hd).mp hend)⟩

end SmartQ.Firmware.Upgrade
