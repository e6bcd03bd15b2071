import SmartQ.Firmware.Stage

/-!
# The two firmware copies

What `loading_firmware` writes for a file made by `mkSmartQ`: the header and
three sections at fixed offsets of a copy, first for copy 1, 16 MiB before the
end of the device, then for copy 0, 8 MiB before it.

* `stageWrites_firmwareStages`: these eight writes.
* `loadingCopies_spec`, `loadingCopies_total`: a run makes them, and every one
  of its checks passes.
-/

namespace SmartQ.Firmware.Upgrade

open SmartQ.Lib

/-- The offset of a section from the base of a copy, in bytes. -/
def slot (s : Section) : ℕ := Pack.nandOffset s * nandBlkSize

/-- The writes of one copy, relative to its base. -/
def copyWrites (p : Pack) : List Write :=
  [(0, p.hdr.bytes), (slot .uBoot, p.body .uBoot), (slot .zimage, p.body .zimage),
    (slot .initramfs, p.body .initramfs)]

/-- The size of a copy: 8 MiB. -/
@[irreducible]
def copySize : ℕ := 8 * 1024 * 1024

/-- The base of copy 1 on a device of `n` bytes. -/
def copy1 (n : ℕ) : ℕ := n - 2 * copySize

/-- The base of copy 0 on a device of `n` bytes. -/
def copy0 (n : ℕ) : ℕ := n - copySize

/-- A run of `upgrade` on a file `mkSmartQ` made and a device that holds the two
    copies. -/
structure Genuine (env : Env) (p : Pack) : Prop where
  file : env.file = p.image
  small : p.image.length < 2 ^ 31
  device : 2 * copySize ≤ env.deviceSize

variable {env : Env} {p : Pack}

namespace Genuine

variable (g : Genuine env p)

include g

theorem body_lt (s : Section) : (p.body s).length < 2 ^ 31 := by
  have := p.length_image
  have := g.small
  cases s <;> omega

theorem fileSize (s : Section) : (p.hdr.stanza s).file.size = (p.body s).length := by
  rw [p.stanza_hdr]
  exact p.fileSize_eq (by have := g.small; omega) s

theorem slice_section (s : Section) :
    slice env.file (p.fileOffset s) (p.body s).length = p.body s := by
  have hlen : p.image.length < 2 ^ 32 := by have := g.small; omega
  have := p.image_section hlen s
  rw [p.fileSize_eq hlen] at this
  rw [g.file]
  exact this

/-- A section ends inside the file. -/
theorem section_le (s : Section) : p.fileOffset s + (p.body s).length ≤ env.file.length := by
  have hlen : p.image.length < 2 ^ 32 := by have := g.small; omega
  have hl := p.length_image
  rw [p.fileOffset_eq hlen, g.file, hl, List.length_append, p.hdr.length_eq]
  cases s <;> simp [Section.all, Section.idx, fwFileHdrSize] <;> omega

/-- `initramfs` starts where `zimage` ends. -/
theorem initramfs_offset :
    p.fileOffset .zimage + (p.body .zimage).length = p.fileOffset .initramfs := by
  have hlen : p.image.length < 2 ^ 32 := by have := g.small; omega
  rw [p.fileOffset_eq hlen, p.fileOffset_eq hlen]
  simp [Section.all, Section.idx]
  omega

/-! ## One copy -/

/-- A section's stage reads the section when `fd_sd` stands where it needs it. -/
theorem source_section {base : ℤ} {s : Section} {c : Check} {pos : ℕ}
    (hpos : s = .initramfs → pos = p.fileOffset .initramfs) :
    (sectionStage p.hdr base s c).source pos = p.fileOffset s := by
  unfold Stage.source sectionStage
  by_cases hs : s = .initramfs
  · rw [if_pos hs, hpos hs, hs]
  · have hle := g.section_le s
    rw [g.file] at hle
    have hsmall := g.small
    rw [if_neg hs, p.stanza_hdr]
    show (if 0 ≤ int32 (p.fileOffset s) then _ else _) = _
    rw [if_pos (by rw [int32_of_range (by omega) (by omega)]; omega)]
    rfl

/-- The two copies' first blocks. -/
theorem fromEnd_flashOffset {base : ℤ} (hbase : base = base1 ∨ base = base0) {s : Section}
    (hs : s = .uBoot ∨ s = .zimage ∨ s = .initramfs) :
    fromEnd env (flashOffset base (Pack.nandOffset s)) = fromEnd env (base * nandBlkSize) + slot s ∧
      0 ≤ env.deviceSize + flashOffset base (Pack.nandOffset s) ∧
      flashOffset base (Pack.nandOffset s) ≤ 0 := by
  have hdev := g.device
  have hn : 2 ≤ Pack.nandOffset s ∧ Pack.nandOffset s ≤ 4096 := by
    rcases hs with rfl | rfl | rfl <;> decide
  have hb : base = -32768 ∨ base = -16384 := hbase
  unfold flashOffset
  rw [int32_of_range (by simp only [nandBlkSize]; omega) (by simp only [nandBlkSize]; omega)]
  simp only [fromEnd, slot, nandBlkSize, copySize] at *
  omega

theorem write_section {base : ℤ} (hbase : base = base1 ∨ base = base0) {s : Section}
    (hs : s = .uBoot ∨ s = .zimage ∨ s = .initramfs) (c : Check) :
    (sectionStage p.hdr base s c).write env (p.fileOffset s) =
      Write.shift (fromEnd env (base * nandBlkSize)) (slot s, p.body s) := by
  have hstanza : (p.hdr.stanza s).nand.offset = Pack.nandOffset s := by
    rw [p.stanza_hdr]
    rfl
  unfold Stage.write Write.shift sectionStage
  simp only [g.fileSize, hstanza, g.slice_section, (g.fromEnd_flashOffset hbase hs).1]

theorem write_header (base : ℤ) (c : Check) :
    (headerStage p.hdr base c).write env 0 =
      Write.shift (fromEnd env (base * nandBlkSize)) (0, p.hdr.bytes) := by
  unfold Stage.write Write.shift headerStage slice
  simp only [Pack.fhSize_hdr, g.file, List.drop_zero, Pack.image_take, Nat.add_zero]

omit g in
theorem source_header (base : ℤ) (c : Check) (pos : ℕ) :
    (headerStage p.hdr base c).source pos = 0 := rfl

theorem size_section (base : ℤ) (s : Section) (c : Check) :
    (sectionStage p.hdr base s c).size = (p.body s).length := g.fileSize s

theorem fromEnd_base1 : fromEnd env (base1 * nandBlkSize) = copy1 env.deviceSize := by
  have := g.device
  simp only [fromEnd, base1, copy1, zimageInitramfsSectors, nandBlkSize, copySize] at *
  omega

theorem fromEnd_base0 : fromEnd env (base0 * nandBlkSize) = copy0 env.deviceSize := by
  have := g.device
  simp only [fromEnd, base0, copy0, zimageInitramfsSectors, nandBlkSize, copySize] at *
  omega

/-- The four stages of a copy make the four writes of the copy. -/
theorem stageWrites_copy {base : ℤ} (hbase : base = base1 ∨ base = base0) (c0 c1 c2 c3 : Check)
    (ts : List Stage) (pos : ℕ) :
    stageWrites env (headerStage p.hdr base c0 :: sectionStage p.hdr base .uBoot c1 ::
        sectionStage p.hdr base .zimage c2 :: sectionStage p.hdr base .initramfs c3 :: ts) pos =
      (copyWrites p).map (Write.shift (fromEnd env (base * nandBlkSize))) ++
        stageWrites env ts (p.fileOffset .initramfs + (p.body .initramfs).length) := by
  simp only [stageWrites, source_header, g.size_section, g.write_header]
  rw [g.source_section (s := .uBoot) (by simp), g.source_section (s := .zimage) (by simp),
    g.source_section (s := .initramfs) fun _ => g.initramfs_offset,
    g.write_section hbase (by simp), g.write_section hbase (by simp),
    g.write_section hbase (by simp)]
  rfl

theorem stageWrites_firmwareStages (pos : ℕ) :
    stageWrites env (firmwareStages p.hdr) pos =
      (copyWrites p).map (Write.shift (copy1 env.deviceSize)) ++
        (copyWrites p).map (Write.shift (copy0 env.deviceSize)) := by
  rw [firmwareStages, g.stageWrites_copy (.inl rfl), g.stageWrites_copy (.inr rfl),
    g.fromEnd_base1, g.fromEnd_base0]
  simp [stageWrites]

/-! ## The checks -/

theorem onDevice_section {base : ℤ} (hbase : base = base1 ∨ base = base0) {s : Section}
    (hs : s = .uBoot ∨ s = .zimage ∨ s = .initramfs) (c : Check) :
    (sectionStage p.hdr base s c).OnDevice env := by
  have hstanza : (p.hdr.stanza s).nand.offset = Pack.nandOffset s := by
    rw [p.stanza_hdr]
    rfl
  obtain ⟨-, h0, h1⟩ := g.fromEnd_flashOffset hbase hs
  constructor <;> simp only [sectionStage, hstanza] <;> assumption

theorem onDevice_header {base : ℤ} (hbase : base = base1 ∨ base = base0) (c : Check) :
    (headerStage p.hdr base c).OnDevice env := by
  have hdev := g.device
  have hb : base = -32768 ∨ base = -16384 := hbase
  constructor <;> simp only [headerStage, nandBlkSize, copySize] at * <;> omega

theorem typed_section (base : ℤ) (s : Section) (c : Check) :
    (sectionStage p.hdr base s c).Typed := by
  have hlt := g.body_lt s
  constructor <;> simp only [sectionStage, g.fileSize]
  · omega
  · rw [int32_of_range (by omega) (by omega)]
    omega
  · rw [int32_of_range (by omega) (by omega)]
    omega

omit g in
theorem verifySize_header (base : ℤ) (c : Check) :
    (headerStage p.hdr base c).verifySize = 168 := by
  simp only [headerStage, Pack.fhSize_hdr]
  rfl

omit g in
theorem typed_header (base : ℤ) (c : Check) : (headerStage p.hdr base c).Typed := by
  refine ⟨?_, ?_, ?_⟩
  · simp [headerStage, fwFileHdrSize]
  · rw [verifySize_header]
    norm_num
  · rw [verifySize_header]
    norm_num

theorem verifySize_section (base : ℤ) (s : Section) (c : Check) :
    (sectionStage p.hdr base s c).verifySize = (p.body s).length := by
  have hlt := g.body_lt s
  simp only [sectionStage, g.fileSize]
  exact int32_of_range (by omega) (by omega)

/-- A section just written has its check sum. -/
theorem passes_section {base : ℤ} (hbase : base = base1 ∨ base = base0) {s : Section}
    (hs : s = .uBoot ∨ s = .zimage ∨ s = .initramfs) (c : Check) :
    (sectionStage p.hdr base s c).Passes env (p.fileOffset s) := by
  intro d
  have hflash : (sectionStage p.hdr base s c).verify = (sectionStage p.hdr base s c).flash := rfl
  have hwrite := g.write_section hbase hs c
  have haddr : fromEnd env (sectionStage p.hdr base s c).flash =
      fromEnd env (base * nandBlkSize) + slot s := congrArg Prod.fst hwrite
  have hsum : (sectionStage p.hdr base s c).checkSum = byteSum (p.body s) % 2 ^ 32 := by
    show (p.hdr.stanza s).checkSum = _
    rw [p.stanza_hdr]
    exact p.checkSum_eq (g.body_lt s)
  rw [hwrite, applyWrites_cons, applyWrites_nil, hflash, haddr, g.verifySize_section,
    Int.toNat_natCast, hsum]
  exact congrArg (fun bs => byteSum bs % 2 ^ 32)
    (load_store d (fromEnd env (base * nandBlkSize) + slot s) (p.body s))

/-- A header just written has its check sum. -/
theorem passes_header {base : ℤ} (hbase : base = base1 ∨ base = base0) (c : Check) :
    (headerStage p.hdr base c).Passes env 0 := by
  intro d
  have hdev := g.device
  have hb : base = -32768 ∨ base = -16384 := hbase
  have hverify : fromEnd env (headerStage p.hdr base c).verify =
      fromEnd env (base * nandBlkSize) + 8 := by
    simp only [headerStage, fromEnd, nandBlkSize, copySize] at *
    omega
  have hsum : (headerStage p.hdr base c).checkSum = p.hdr.sum := p.checkSum_hdr
  have hlen : p.hdr.bytes.length = 8 + 168 := p.hdr.length_eq
  rw [g.write_header, applyWrites_cons, applyWrites_nil, hverify, verifySize_header, hsum]
  show byteSum (load (store d (fromEnd env (base * nandBlkSize) + 0) p.hdr.bytes)
    (fromEnd env (base * nandBlkSize) + 8) 168) % 2 ^ 32 = p.hdr.sum
  have hload := load_store d (fromEnd env (base * nandBlkSize)) p.hdr.bytes
  rw [hlen, load_append] at hload
  have hdrop := congrArg (List.drop 8) hload
  rw [List.drop_left' (length_load _ _ _)] at hdrop
  rw [Nat.add_zero, hdrop]
  rfl

omit g in
theorem forall_firmwareStages {P : Stage → Prop}
    (hheader : ∀ base c, base = base1 ∨ base = base0 → P (headerStage p.hdr base c))
    (hsection : ∀ base s c, base = base1 ∨ base = base0 →
      (s = .uBoot ∨ s = .zimage ∨ s = .initramfs) → P (sectionStage p.hdr base s c)) :
    ∀ t ∈ firmwareStages p.hdr, P t := by
  intro t ht
  simp only [firmwareStages, List.mem_cons, List.not_mem_nil, or_false] at ht
  rcases ht with rfl | rfl | rfl | rfl | rfl | rfl | rfl | rfl
  · exact hheader _ _ (.inl rfl)
  · exact hsection _ _ _ (.inl rfl) (by simp)
  · exact hsection _ _ _ (.inl rfl) (by simp)
  · exact hsection _ _ _ (.inl rfl) (by simp)
  · exact hheader _ _ (.inr rfl)
  · exact hsection _ _ _ (.inr rfl) (by simp)
  · exact hsection _ _ _ (.inr rfl) (by simp)
  · exact hsection _ _ _ (.inr rfl) (by simp)

theorem onDevice : ∀ t ∈ firmwareStages p.hdr, t.OnDevice env :=
  forall_firmwareStages (fun _ c hb => g.onDevice_header hb c)
    fun _ _ c hb hs => g.onDevice_section hb hs c

theorem typed : ∀ t ∈ firmwareStages p.hdr, t.Typed :=
  forall_firmwareStages (fun base c _ => typed_header base c)
    fun base s c _ _ => g.typed_section base s c

/-- Something that holds of every stage at its own source holds along the run. -/
theorem along_firmwareStages {P : Stage → ℕ → Prop} {Q : List Stage → ℕ → Prop}
    (hnil : ∀ pos, Q [] pos)
    (hcons : ∀ t ts pos, P t (t.source pos) → Q ts (t.source pos + t.size) → Q (t :: ts) pos)
    (hheader : ∀ base c, base = base1 ∨ base = base0 → P (headerStage p.hdr base c) 0)
    (hsection : ∀ base s c, base = base1 ∨ base = base0 →
      (s = .uBoot ∨ s = .zimage ∨ s = .initramfs) →
      P (sectionStage p.hdr base s c) (p.fileOffset s)) (pos : ℕ) :
    Q (firmwareStages p.hdr) pos := by
  have hcopy : ∀ base c0 c1 c2 c3 ts pos, base = base1 ∨ base = base0 → (∀ pos, Q ts pos) →
      Q (headerStage p.hdr base c0 :: sectionStage p.hdr base .uBoot c1 ::
        sectionStage p.hdr base .zimage c2 :: sectionStage p.hdr base .initramfs c3 :: ts) pos := by
    intro base c0 c1 c2 c3 ts pos hb hts
    have hu : ∀ pos, (sectionStage p.hdr base .uBoot c1).source pos = p.fileOffset .uBoot :=
      fun pos => g.source_section (by simp)
    have hz : ∀ pos, (sectionStage p.hdr base .zimage c2).source pos = p.fileOffset .zimage :=
      fun pos => g.source_section (by simp)
    refine hcons _ _ _ (hheader base c0 hb) (hcons _ _ _ ?_ (hcons _ _ _ ?_ (hcons _ _ _ ?_ (hts _))))
    · rw [hu]
      exact hsection _ _ _ hb (by simp)
    · rw [hz]
      exact hsection _ _ _ hb (by simp)
    · rw [hz, g.size_section, g.source_section fun _ => g.initramfs_offset]
      exact hsection _ _ _ hb (by simp)
  exact hcopy _ _ _ _ _ _ _ (.inl rfl) fun pos => hcopy _ _ _ _ _ _ _ (.inr rfl) hnil

theorem allPass (pos : ℕ) : AllPass env (firmwareStages p.hdr) pos :=
  g.along_firmwareStages (P := Stage.Passes env) (fun _ => trivial) (fun _ _ _ h hs => ⟨h, hs⟩)
    (fun _ c hb => g.passes_header hb c) (fun _ _ c hb hs => g.passes_section hb hs c) pos

/-! ## The run -/

/-- A run of `loading_firmware` over the flash in which nothing came up short
    succeeds and makes the writes of both copies. -/
theorem loadingCopies_spec {s s' : St} {r : Except Failure Unit}
    (h : loadingCopies env p.hdr s = some (r, s')) (hs : s'.short = false) :
    r = .ok () ∧ Ran env (firmwareStages p.hdr) { s with sizeSum := 0 } s' := by
  rw [loadingCopies, Prog.modify_bind] at h
  have hr := runStages_passes h hs g.onDevice g.typed (g.allPass _)
  subst hr
  exact ⟨rfl, runStages_ok h hs g.onDevice g.typed⟩

/-- With full transfers it does run, when the sections stay inside a copy. -/
theorem loadingCopies_total (hio : ∀ k, env.io k = .full) (hfuel : 512 ≤ env.fuel)
    (hfit : ∀ s, s = .uBoot ∨ s = .zimage ∨ s = .initramfs →
      slot s + (p.body s).length ≤ copySize) {s : St} (hs : s.short = false) :
    ∃ s', loadingCopies env p.hdr s = some (.ok (), s') ∧ s'.short = false := by
  have hdev := g.device
  have hfile : fwFileHdrSize ≤ env.file.length := by
    have := p.length_image
    rw [g.file]
    omega
  have hbase : ∀ base, base = base1 ∨ base = base0 →
      fromEnd env (base * nandBlkSize) + copySize ≤ env.deviceSize := by
    intro base hb
    have hb' : base = -32768 ∨ base = -16384 := hb
    simp only [fromEnd, nandBlkSize, copySize] at *
    omega
  rw [loadingCopies, Prog.modify_bind]
  refine runStages_total hio g.onDevice g.typed (g.allPass _) ?_ hs
  refine g.along_firmwareStages (P := Stage.Fits env) (Q := AllFit env) (fun _ => trivial)
    (fun _ _ _ h hs => ⟨h, hs⟩)
    (fun base c hb => ?_) (fun base s c hb hsec => ?_) _
  · have hle := hbase base hb
    have hb' : base = -32768 ∨ base = -16384 := hb
    have hvs : (headerStage p.hdr base c).verifySize = 168 := verifySize_header base c
    constructor <;> (try rw [hvs]) <;>
      simp only [headerStage, Pack.fhSize_hdr, fwFileHdrSize, fromEnd, nandBlkSize, copySize,
        inandSizePerWrite] at * <;> omega
  · have hle := hbase base hb
    have hlt := g.body_lt s
    have hin := g.section_le s
    have hfits := hfit s hsec
    have haddr : fromEnd env (sectionStage p.hdr base s c).flash =
        fromEnd env (base * nandBlkSize) + slot s :=
      congrArg Prod.fst (g.write_section hb hsec c)
    have hverify : (sectionStage p.hdr base s c).verify = (sectionStage p.hdr base s c).flash := rfl
    constructor <;>
      simp only [g.size_section, g.verifySize_section, hverify, haddr, Int.toNat_natCast,
        inandSizePerWrite] at * <;> omega

end Genuine

end SmartQ.Firmware.Upgrade
