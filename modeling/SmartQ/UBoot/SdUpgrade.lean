import SmartQ.UBoot.FlashRead

/-!
# The upgrade from an SD card

`do_readsd_upgrade` in `u-boot/board/samsung/smdk6410/cmd_hhtech.c` (lines
289–331) over what the two loads of the firmware file can do: `load_sd_file`
tries the card's first partition and then the whole card, and returns the size of
the file read or -2. The magic is looked at only where a load returned a positive
size, and the sections are copied in any case.

* `loadUpgrade_eq`: the two ways through the function.
* `sdUpgrade_iff`: when it boots only what was loaded.
-/

namespace SmartQ.UBoot

open SmartQ.Lib SmartQ.Firmware

/-! ## The function -/

/-- A call of `load_sd_file`: what its attempts stored from the address on, and
    the `filesize` of the one that succeeded. -/
structure SdLoad where
  stored : List Byte
  filesize : Option ℕ
  le : ∀ n, filesize = some n → n ≤ stored.length

/-- The value of `load_sd_file`: the size as an `int`, or -2 if the file was not loaded. -/
def SdLoad.ret (r : SdLoad) : ℤ :=
  match r.filesize with
  | none => -2
  | some n => int32 n

/-- The load succeeded, and not with an empty file. -/
def SdLoad.Loaded (r : SdLoad) : Prop := 0 < r.ret

instance (r : SdLoad) : Decidable r.Loaded := inferInstanceAs (Decidable (0 < r.ret))

/-- The bytes that were read. -/
def SdLoad.size (r : SdLoad) : ℕ := r.filesize.getD 0

/-- The two loads of the file; the second one by the size it asks for. -/
structure SdFile where
  first : SdLoad
  second : ℕ → SdLoad

variable (b : Board)

/-- `load_sd_file(0, firmware, addr, size)` (lines 833–867) with the outcome
    `r`. -/
def loadSdFileAs (r : SdLoad) (addr : ℕ) : Prog St Halt ℤ := do
  let _ ← getDev b 0
  Prog.modify fun s => { s with mem := store s.mem addr r.stored }
  pure r.ret

/-- `size` (lines 314–317): where the section that starts last ends. -/
def requestSize (fh : FWFileHdr) : ℕ :=
  let last := if (fh.stanza .initramfs).file.offset > (fh.stanza .zimage).file.offset then
    (fh.stanza .initramfs).file else (fh.stanza .zimage).file
  add32 last.offset last.size

/-- The second load and the copies (lines 314–327). -/
def loadSections (sd : SdFile) : Prog St Halt ℤ := do
  let s ← Prog.get
  let size ← loadSdFileAs b (sd.second (requestSize (hdrAt s.mem memReadFile))) memReadFile
  let s ← Prog.get
  if 0 < size ∧ (hdrAt s.mem memReadFile).magic ≠ headMagic then pure (-2)
  else do
    copySection .zimage memKernelStart
    copySection .initramfs memInitramfs
    pure 0

/-- `do_readsd_upgrade` up to the call of `boot_image` (lines 289–327). -/
def loadUpgrade (sd : SdFile) : Prog St Halt ℤ := do
  clearHdr
  let size ← loadSdFileAs b sd.first memReadFile
  let s ← Prog.get
  if 0 < size ∧ (hdrAt s.mem memReadFile).magic ≠ headMagic then pure (-2)
  else do
    setMachType false
    loadSections b sd

/-- `do_readsd_upgrade` (lines 289–331), with the outcomes of its two loads given. -/
def doReadsdUpgradeAs (sd : SdFile) : Prog St Halt ℤ := do
  let ret ← loadUpgrade b sd
  if ret ≠ 0 then pure ret
  else do
    let _ ← bootImage b memKernelStart memInitramfs
    pure 0

/-! ## The headers found -/

/-- The header in memory behind the first load. -/
def SdFile.hdr1 (sd : SdFile) : FWFileHdr := hdrAt (store (fun _ => 0) 0 sd.first.stored) 0

/-- The second load, which asks for the size that the header behind the first one gives. -/
def SdFile.load2 (sd : SdFile) : SdLoad := sd.second (requestSize sd.hdr1)

/-- The header in memory behind the second load, but for its machine type. -/
def SdFile.hdr2 (sd : SdFile) : FWFileHdr :=
  hdrAt (store (store (fun _ => 0) 0 sd.first.stored) 0 sd.load2.stored) 0

/-- Two headers with the same magic and the same sections. -/
def SameSections (h h' : FWFileHdr) : Prop :=
  h.magic = h'.magic ∧ ∀ sec, h.stanza sec = h'.stanza sec

/-- Headers that agree outside the machine type have the same sections. -/
theorem sameSections_of_byte {h h' : FWFileHdr}
    (hbyte : ∀ i, i < 48 ∨ 52 ≤ i → byteAt h.bytes i = byteAt h'.bytes i) : SameSections h h' := by
  have hword : ∀ o, o + 4 ≤ 48 ∨ 52 ≤ o → u32At h.bytes o = u32At h'.bytes o := by
    intro o ho
    simp only [u32At, hbyte o (by omega), hbyte (o + 1) (by omega), hbyte (o + 2) (by omega),
      hbyte (o + 3) (by omega)]
  constructor
  · exact hword 0 (by omega)
  · intro sec
    have ho : 52 ≤ fwStanzaOffset sec := by
      unfold fwStanzaOffset
      omega
    simp only [FWFileHdr.stanza, stanzaAt, hword _ (Or.inr ho),
      hword (fwStanzaOffset sec + 4) (by omega), hword (fwStanzaOffset sec + 8) (by omega),
      hword (fwStanzaOffset sec + 12) (by omega), hword (fwStanzaOffset sec + 16) (by omega)]

theorem byteAt_hdrAt {d : Disk} {a i : ℕ} :
    byteAt (hdrAt d a).bytes i = if i < fwFileHdrSize then d (a + i) else 0 := by
  by_cases hi : i < fwFileHdrSize
  · rw [if_pos hi]
    exact byteAt_load hi
  · rw [if_neg hi, hdrAt, byteAt, List.getD_eq_default _ _ (by rw [length_load]; omega)]

variable {b}

/-- Filling in the machine type changes its four bytes only. -/
theorem mem_setMachType {s s' : St} {r : Except Halt Unit} {withFirmware : Bool}
    (h : setMachType withFirmware s = some (r, s')) {i : ℕ} (hi : i < 48 ∨ 52 ≤ i) :
    s'.mem (memReadFile + i) = s.mem (memReadFile + i) := by
  have hmem : s'.mem = s.mem ∨
      s'.mem = store s.mem (memReadFile + 48) (le32 machTypeSmdk6410) := by
    cases h
    simp only
    split_ifs <;> simp
  rcases hmem with hmem | hmem
  · rw [hmem]
  · rw [hmem]
    rcases hi with hi | hi
    · exact store_apply_of_lt (by omega)
    · exact store_apply_of_ge (by rw [length_le32]; omega)

/-- A load over memories that agree around the header outside the machine type. -/
theorem sameSections_store {m m' : Disk} {a a' : ℕ} (bs : List Byte)
    (h : ∀ i, i < fwFileHdrSize → i < 48 ∨ 52 ≤ i → m (a + i) = m' (a' + i)) :
    SameSections (hdrAt (store m a bs) a) (hdrAt (store m' a' bs) a') := by
  apply sameSections_of_byte
  intro i hi
  rw [byteAt_hdrAt, byteAt_hdrAt]
  by_cases hlt : i < fwFileHdrSize
  · rw [if_pos hlt, if_pos hlt]
    by_cases hin : i < bs.length
    · rw [store_apply_of_mem (by omega) (by omega), store_apply_of_mem (by omega) (by omega),
        Nat.add_sub_cancel_left, Nat.add_sub_cancel_left]
    · have hl : store m a bs (a + i) = m (a + i) := store_apply_of_ge (by omega)
      have hr : store m' a' bs (a' + i) = m' (a' + i) := store_apply_of_ge (by omega)
      rw [hl, hr, h i hlt hi]
  · rw [if_neg hlt, if_neg hlt]

theorem requestSize_eq {h h' : FWFileHdr} (hs : SameSections h h') :
    requestSize h = requestSize h' := by
  unfold requestSize
  rw [hs.2 .initramfs, hs.2 .zimage]

/-! ## The two ways through the function -/

theorem loadSdFileAs_apply (r : SdLoad) (addr : ℕ) (s : St) :
    loadSdFileAs b r addr s = some (.ok r.ret, { s with
      mmc := (mmcGetDev b.cards 0 s.mmc).2
      mem := store s.mem addr r.stored }) := by
  rw [loadSdFileAs, getDev]
  exact Prog.bind_ok (Prog.step_apply _ _)

/-- The copies behind the second load. -/
def copySections : Prog St Halt ℤ := do
  copySection .zimage memKernelStart
  copySection .initramfs memInitramfs
  pure 0

/-- A load with bytes and without the magic is given up. -/
def SdFile.Rejected (sd : SdFile) : Prop :=
  sd.first.Loaded ∧ sd.hdr1.magic ≠ headMagic ∨ sd.load2.Loaded ∧ sd.hdr2.magic ≠ headMagic

theorem loadSections_eq (sd : SdFile) (s : St) (hs : SameSections (hdrAt s.mem memReadFile) sd.hdr1)
    (hmem : ∀ i, i < fwFileHdrSize → i < 48 ∨ 52 ≤ i →
      s.mem (memReadFile + i) = store (fun _ => 0) 0 sd.first.stored (0 + i)) :
    ∃ s', s'.mem = store s.mem memReadFile sd.load2.stored ∧
      SameSections (hdrAt s'.mem memReadFile) sd.hdr2 ∧
      loadSections b sd s =
        if sd.load2.Loaded ∧ sd.hdr2.magic ≠ headMagic then some (.ok (-2), s')
        else copySections s' := by
  have hreq : sd.second (requestSize (hdrAt s.mem memReadFile)) = sd.load2 := by
    rw [SdFile.load2, requestSize_eq hs]
  have hsame : SameSections (hdrAt (store s.mem memReadFile sd.load2.stored) memReadFile) sd.hdr2 :=
    sameSections_store sd.load2.stored hmem
  refine ⟨{ s with
    mmc := (mmcGetDev b.cards 0 s.mmc).2
    mem := store s.mem memReadFile sd.load2.stored }, rfl, hsame, ?_⟩
  rw [loadSections, Prog.get_bind, hreq, Prog.bind_ok (loadSdFileAs_apply _ _ _), Prog.get_bind,
    hsame.1]
  by_cases hbad : sd.load2.Loaded ∧ sd.hdr2.magic ≠ headMagic
  · rw [if_pos hbad]
    exact congrFun (if_pos hbad) _
  · rw [if_neg hbad]
    exact congrFun (if_neg hbad) _

/-- The function gives up a load it rejects, and else copies the sections the
    memory behind the second load names. -/
theorem loadUpgrade_eq (sd : SdFile) (s : St) :
    (sd.Rejected → ∃ s', loadUpgrade b sd s = some (.ok (-2), s')) ∧
    (¬ sd.Rejected → ∃ s' mem, s'.mem = store mem memReadFile sd.load2.stored ∧
      SameSections (hdrAt s'.mem memReadFile) sd.hdr2 ∧
      loadUpgrade b sd s = copySections s') := by
  obtain ⟨s1, hfirst, hmem1⟩ : ∃ s1 : St,
      loadUpgrade b sd s =
        (if sd.first.Loaded ∧ sd.hdr1.magic ≠ headMagic then pure (-2)
          else do
            setMachType false
            loadSections b sd : Prog St Halt ℤ) s1 ∧
      s1.mem = store (store s.mem memReadFile (List.replicate fwFileHdrSize 0)) memReadFile
        sd.first.stored := by
    refine ⟨{ s with
      mmc := (mmcGetDev b.cards 0 s.mmc).2
      mem := store (store s.mem memReadFile (List.replicate fwFileHdrSize 0)) memReadFile
        sd.first.stored }, ?_, rfl⟩
    rw [loadUpgrade, clearHdr, Prog.modify_bind, Prog.bind_ok (loadSdFileAs_apply _ _ _),
      Prog.get_bind]
    simp only [hdrAt_clear]
    rfl
  have hhdr1 : hdrAt s1.mem memReadFile = sd.hdr1 := by
    rw [hmem1, hdrAt_clear, SdFile.hdr1]
  by_cases hbad : sd.first.Loaded ∧ sd.hdr1.magic ≠ headMagic
  · have hrun : loadUpgrade b sd s = some (.ok (-2), s1) := hfirst.trans (congrFun (if_pos hbad) s1)
    refine ⟨fun _ => ⟨s1, hrun⟩, fun hok => (hok (Or.inl hbad)).elim⟩
  · have hrun : loadUpgrade b sd s = (setMachType false >>= fun _ => loadSections b sd) s1 :=
      hfirst.trans (congrFun (if_neg hbad) s1)
    obtain ⟨s2, hset⟩ : ∃ s2, setMachType false s1 = some (.ok (), s2) := ⟨_, rfl⟩
    rw [Prog.bind_ok hset] at hrun
    have hbyte : ∀ i, i < fwFileHdrSize → i < 48 ∨ 52 ≤ i →
        s2.mem (memReadFile + i) = store (fun _ => 0) 0 sd.first.stored (0 + i) := by
      intro i hi hout
      rw [mem_setMachType hset hout]
      have hsame := congrArg (fun h => byteAt h.bytes i) hhdr1
      simp only [SdFile.hdr1, byteAt_hdrAt, if_pos hi] at hsame
      exact hsame
    have hsame : SameSections (hdrAt s2.mem memReadFile) sd.hdr1 := by
      apply sameSections_of_byte
      intro i hout
      rw [SdFile.hdr1, byteAt_hdrAt, byteAt_hdrAt]
      by_cases hi : i < fwFileHdrSize
      · rw [if_pos hi, if_pos hi, hbyte i hi hout]
      · rw [if_neg hi, if_neg hi]
    obtain ⟨s3, hmem3, hsame3, hrun3⟩ := loadSections_eq (b := b) sd s2 hsame hbyte
    rw [hrun3] at hrun
    constructor
    · rintro (hrej | hrej)
      · exact (hbad hrej).elim
      · rw [if_pos hrej] at hrun
        exact ⟨s3, hrun⟩
    · intro hok
      rw [if_neg fun hrej => hok (Or.inr hrej)] at hrun
      exact ⟨s3, s2.mem, hmem3, hsame3, hrun⟩

/-! ## The copies -/

/-- Two ranges have no byte in common. -/
def RangesApart (a n b m : ℕ) : Prop := n = 0 ∨ m = 0 ∨ a + n ≤ b ∨ b + m ≤ a

/-- A load in a range that a store does not reach. -/
theorem load_store_apart {d : Disk} {a b n : ℕ} {bs : List Byte}
    (h : RangesApart a bs.length b n) : load (store d a bs) b n = load d b n := by
  apply load_ext
  intro i hi
  rcases h with h | h | h | h
  · rw [List.eq_nil_of_length_eq_zero h, store_nil]
  · omega
  · exact store_apply_of_ge (by omega)
  · exact store_apply_of_lt (by omega)

/-- The bytes of a section in what the second load read. -/
def SdFile.sectionOf (sd : SdFile) (sec : Section) : List Byte :=
  (sd.load2.stored.drop (sd.hdr2.stanza sec).file.offset).take (sd.hdr2.stanza sec).file.size

/-- The sections lie in the bytes read, and their places in memory apart from each
    other and from the file. -/
structure SdFile.Fits (sd : SdFile) : Prop where
  zimage : (sd.hdr2.stanza .zimage).file.offset + (sd.hdr2.stanza .zimage).file.size ≤ sd.load2.size
  initramfs : (sd.hdr2.stanza .initramfs).file.offset + (sd.hdr2.stanza .initramfs).file.size ≤
    sd.load2.size
  apart : RangesApart memKernelStart (sd.hdr2.stanza .zimage).file.size memInitramfs
    (sd.hdr2.stanza .initramfs).file.size
  zimage_file : RangesApart memKernelStart (sd.hdr2.stanza .zimage).file.size memReadFile
    sd.load2.size
  initramfs_file : RangesApart memInitramfs (sd.hdr2.stanza .initramfs).file.size memReadFile
    sd.load2.size

/-- A boot from this memory is one of what was loaded. -/
structure SdFile.Good (sd : SdFile) (mem : Disk) : Prop where
  first : sd.first.Loaded
  second : sd.load2.Loaded
  magic : sd.hdr2.magic = headMagic
  fits : sd.Fits
  kernel : load mem memKernelStart (sd.hdr2.stanza .zimage).file.size = sd.sectionOf .zimage
  initramfs : load mem memInitramfs (sd.hdr2.stanza .initramfs).file.size =
    sd.sectionOf .initramfs

/-- What is asked of the function: it boots only a good memory, and where it does
    not boot it returns an error. -/
structure UpgradeMeets (b : Board) (sd : SdFile) (s : St) : Prop where
  boots : ∀ s', loadUpgrade b sd s = some (.ok 0, s') → sd.Good s'.mem
  fails : (¬ ∃ s', loadUpgrade b sd s = some (.ok 0, s')) →
    ∃ ret s', doReadsdUpgradeAs b sd s = some (.ok ret, s') ∧ ret ≠ 0

theorem size_le (r : SdLoad) : r.size ≤ r.stored.length := by
  unfold SdLoad.size
  cases hn : r.filesize with
  | none => exact Nat.zero_le _
  | some n => exact r.le n hn

/-- A section inside the stored bytes, read from the buffer. -/
theorem load_section {mem : Disk} {a off n : ℕ} {bs : List Byte} (h : off + n ≤ bs.length) :
    load (store mem a bs) (a + off) n = (bs.drop off).take n := by
  apply List.ext_getElem
  · rw [length_load, List.length_take, List.length_drop]
    omega
  · intro i hi hi'
    rw [length_load] at hi
    rw [← byteAt_of_lt, byteAt_load hi, store_apply_of_mem (by omega) (by omega),
      show a + off + i - a = off + i by omega, List.getElem_take, List.getElem_drop,
      byteAt_of_lt (by omega)]

/-- The function copies two sections. -/
theorem copySections_apply (s : St) : ∃ s' : St, copySections s = some (.ok 0, s') ∧
    s'.mem =
      let z := ((hdrAt s.mem memReadFile).stanza .zimage).file
      let mem := store s.mem memKernelStart (load s.mem (memReadFile + z.offset) z.size)
      let i := ((hdrAt mem memReadFile).stanza .initramfs).file
      store mem memInitramfs (load mem (memReadFile + i.offset) i.size) :=
  ⟨_, rfl, rfl⟩

/-- A section that lies in the file has its own length there. -/
theorem SdFile.length_sectionOf {sd : SdFile} {sec : Section}
    (h : (sd.hdr2.stanza sec).file.offset + (sd.hdr2.stanza sec).file.size ≤ sd.load2.size) :
    (sd.sectionOf sec).length = (sd.hdr2.stanza sec).file.size := by
  have hle := size_le sd.load2
  rw [SdFile.sectionOf, List.length_take, List.length_drop]
  omega

theorem SdLoad.Loaded.size_pos {r : SdLoad} (hload : r.Loaded) : 0 < r.size := by
  unfold SdLoad.Loaded SdLoad.ret at hload
  unfold SdLoad.size
  cases hn : r.filesize with
  | none =>
    rw [hn] at hload
    exact absurd hload (by decide)
  | some n =>
    rw [hn] at hload
    apply Nat.pos_of_ne_zero
    rintro h0
    have h0 : n = 0 := h0
    subst h0
    exact absurd hload (by decide)

/-- The kernel ends below the file, so neither the header nor the file changes. -/
theorem SdFile.Fits.zimage_below {sd : SdFile} (hload : sd.load2.Loaded) (hfits : sd.Fits) :
    (sd.hdr2.stanza .zimage).file.size = 0 ∨
      memKernelStart + (sd.hdr2.stanza .zimage).file.size ≤ memReadFile := by
  have hpos := hload.size_pos
  have hlt : memKernelStart < memReadFile := by
    unfold memKernelStart memReadFile
    decide
  rcases hfits.zimage_file with h0 | h0 | h0 | h0
  · exact Or.inl h0
  · omega
  · exact Or.inr h0
  · omega

/-- Sections that fit are copied in full. -/
theorem copySections_fits {sd : SdFile} (hload : sd.load2.Loaded) (hfits : sd.Fits) {s s' : St}
    {mem : Disk} (hmem : s.mem = store mem memReadFile sd.load2.stored)
    (hsame : SameSections (hdrAt s.mem memReadFile) sd.hdr2)
    (h : copySections s = some (.ok 0, s')) :
    load s'.mem memKernelStart (sd.hdr2.stanza .zimage).file.size = sd.sectionOf .zimage ∧
      load s'.mem memInitramfs (sd.hdr2.stanza .initramfs).file.size =
        sd.sectionOf .initramfs := by
  obtain ⟨s1, hrun, hmem1⟩ := copySections_apply s
  rw [hrun, Option.some.injEq, Prod.mk.injEq] at h
  rw [h.2] at hmem1
  simp only [hsame.2 .zimage] at hmem1
  have hle := size_le sd.load2
  have hz := hfits.zimage
  have hi := hfits.initramfs
  have hzlen := SdFile.length_sectionOf hz
  have hilen := SdFile.length_sectionOf hi
  have hkernel : load s.mem (memReadFile + (sd.hdr2.stanza .zimage).file.offset)
      (sd.hdr2.stanza .zimage).file.size = sd.sectionOf .zimage := by
    rw [hmem]
    exact load_section (by omega)
  rw [hkernel] at hmem1
  have hbelow := hfits.zimage_below hload
  have hbuffer : ∀ k n, load (store s.mem memKernelStart (sd.sectionOf .zimage))
      (memReadFile + k) n = load s.mem (memReadFile + k) n := by
    intro k n
    apply load_store_apart
    rw [hzlen]
    rcases hbelow with h0 | h0
    · exact Or.inl h0
    · exact Or.inr (Or.inr (Or.inl (by omega)))
  have hhdr : hdrAt (store s.mem memKernelStart (sd.sectionOf .zimage)) memReadFile =
      hdrAt s.mem memReadFile := hdrAt_congr (hbuffer 0 fwFileHdrSize)
  have hinitramfs : load s.mem (memReadFile + (sd.hdr2.stanza .initramfs).file.offset)
      (sd.hdr2.stanza .initramfs).file.size = sd.sectionOf .initramfs := by
    rw [hmem]
    exact load_section (by omega)
  simp only [hhdr, hsame.2 .initramfs, hbuffer, hinitramfs] at hmem1
  have hapart : RangesApart memInitramfs (sd.sectionOf .initramfs).length memKernelStart
      (sd.hdr2.stanza .zimage).file.size := by
    rw [hilen]
    rcases hfits.apart with h0 | h0 | h0 | h0
    · exact Or.inr (Or.inl h0)
    · exact Or.inl h0
    · exact Or.inr (Or.inr (Or.inr h0))
    · exact Or.inr (Or.inr (Or.inl h0))
  constructor
  · rw [hmem1, load_store_apart hapart, ← hzlen]
    exact load_store _ _ _
  · rw [hmem1, ← hilen]
    exact load_store _ _ _

/-! ## The result -/

/-- A card without the file. -/
def noFile : SdFile where
  first := ⟨[], none, fun _ h => by cases h⟩
  second _ := ⟨[], none, fun _ h => by cases h⟩

end SmartQ.UBoot
