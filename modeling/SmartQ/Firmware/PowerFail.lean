import SmartQ.Firmware.FirstWrites
import SmartQ.Qi.StartQi
import SmartQ.UBoot.CmdHhtech

/-!
# Power failing during an upgrade

Both boot programs take copy 1 as soon as its header has the magic, whatever the
rest of the copy holds. `loading_firmware` writes the header of copy 1 first, so
until the third write is through, a copy 1 with the new header and old sections
is selected, although copy 0 is still complete.

* `doLoadUboot_selected`, `tryCopies_selected`: Qi and U-Boot take the copy
  `selected` names.
* `powerFail_iff`: the writes after which the selected copy is complete.
-/

namespace SmartQ.Firmware.Upgrade

open SmartQ.Lib

variable {env : Env} {p : Pack}

/-! ## Complete copies -/

/-- The bytes of a section of the copy at `base` have the sum its stanza gives. -/
def SectionGood (d : Disk) (base : ℕ) (s : Section) : Prop :=
  let st := (hdrAt d base).stanza s
  byteSum (load d (base + st.nand.offset * nandBlkSize) st.nand.size) % 2 ^ 32 = st.checkSum

/-- The copy at `base` can be booted: its header is right, and so are `u_boot`
    and `zimage`. -/
structure Complete (d : Disk) (base : ℕ) : Prop where
  magic : (hdrAt d base).magic = headMagic
  checkSum : (hdrAt d base).checkSum = (hdrAt d base).sum
  uBoot : SectionGood d base .uBoot
  zimage : SectionGood d base .zimage

/-- The copy the boot programs take: copy 1 if its header has the magic, and
    otherwise copy 0. -/
def selected (n : ℕ) (d : Disk) : ℕ :=
  if (hdrAt d (copy1 n)).magic = headMagic then copy1 n else copy0 n

/-! ## The order of the writes -/

/-- The first three writes of `loading_firmware`. -/
def firstWrites (p : Pack) (n : ℕ) : List Write :=
  [Write.shift (copy1 n) (0, p.hdr.bytes), Write.shift (copy1 n) (slot .uBoot, p.body .uBoot),
    Write.shift (copy1 n) (slot .zimage, p.body .zimage)]

/-- The stages that make them. -/
def firstStages (h : FWFileHdr) : List Stage := (firmwareStages h).take 3

/-- The other stages: `initramfs` of copy 1, then all of copy 0. -/
def laterStages (h : FWFileHdr) : List Stage := (firmwareStages h).drop 3

namespace Genuine

variable (g : Genuine env p)

include g

theorem oneWrites_firstStages :
    oneWrites env (firstStages p.hdr) = firstWrites p env.deviceSize := by
  have hu : (sectionStage p.hdr base1 .uBoot .uBoot1).source 0 = p.fileOffset .uBoot :=
    g.source_section (by simp)
  have hz : (sectionStage p.hdr base1 .zimage .zimage1).source 0 = p.fileOffset .zimage :=
    g.source_section (by simp)
  simp only [oneWrites, firstStages, firmwareStages, List.take_succ_cons, List.take_zero,
    List.map_cons, List.map_nil, hu, hz, source_header, g.write_header]
  rw [g.write_section (.inl rfl) (by simp), g.write_section (.inl rfl) (by simp), g.fromEnd_base1]
  rfl

/-- The header of copy 1 takes one `write`. -/
theorem oneWrite_header (c : Check) : (headerStage p.hdr base1 c).OneWrite env := by
  have hdev := g.device
  have hlen := p.length_image
  rw [← g.file] at hlen
  refine ⟨g.onDevice_header (.inl rfl) c, ?_, ?_, fun _ => rfl, ?_, ?_⟩
  · rw [show (headerStage p.hdr base1 c).size = fwFileHdrSize from p.fhSize_hdr]
    norm_num [fwFileHdrSize, inandSizePerWrite]
  · rw [verifySize_header]
    norm_num [inandSizePerWrite]
  · rw [show (headerStage p.hdr base1 c).size = fwFileHdrSize from p.fhSize_hdr, source_header]
    omega
  · rw [show (headerStage p.hdr base1 c).size = fwFileHdrSize from p.fhSize_hdr,
      show (headerStage p.hdr base1 c).flash = base1 * nandBlkSize from rfl, g.fromEnd_base1]
    simp only [copy1, copySize, fwFileHdrSize] at *
    omega

/-- So does a section below 4 MB that ends inside copy 1. -/
theorem oneWrite_section {s : Section} (hs : s = .uBoot ∨ s = .zimage) (c : Check)
    (hsize : (p.body s).length < inandSizePerWrite)
    (hfit : slot s + (p.body s).length ≤ copySize) :
    (sectionStage p.hdr base1 s c).OneWrite env := by
  have hsec : s = .uBoot ∨ s = .zimage ∨ s = .initramfs := hs.imp_right .inl
  have hsource : ∀ pos, (sectionStage p.hdr base1 s c).source pos = p.fileOffset s := by
    intro pos
    refine g.source_section fun h => ?_
    subst h
    simp at hs
  have haddr : fromEnd env (sectionStage p.hdr base1 s c).flash =
      copy1 env.deviceSize + slot s := by
    rw [← g.fromEnd_base1]
    exact congrArg Prod.fst (g.write_section (.inl rfl) hsec c)
  have hdev := g.device
  have hin := g.section_le s
  refine ⟨g.onDevice_section (.inl rfl) hsec c, ?_, ?_, fun pos => ?_, ?_, ?_⟩
  · rw [g.size_section]
    exact hsize
  · rw [g.verifySize_section]
    exact_mod_cast hsize
  · rw [hsource, hsource]
  · rw [g.size_section, hsource]
    omega
  · rw [g.size_section, haddr]
    simp only [copy1] at *
    omega

theorem oneWrite_firstStages (hfit : FitsSlots p) : ∀ t ∈ firstStages p.hdr, t.OneWrite env := by
  obtain ⟨-, hu, hz, hi⟩ := hfit
  intro t ht
  simp only [firstStages, firmwareStages, List.take_succ_cons, List.take_zero, List.mem_cons,
    List.not_mem_nil, or_false] at ht
  simp only [slot, Pack.nandOffset, nandBlkSize, copySize] at hu hz hi
  rcases ht with rfl | rfl | rfl
  · exact g.oneWrite_header _
  · refine g.oneWrite_section (.inl rfl) _ ?_ ?_ <;>
      simp only [slot, Pack.nandOffset, nandBlkSize, copySize, inandSizePerWrite] <;> omega
  · refine g.oneWrite_section (.inr rfl) _ ?_ ?_ <;>
      simp only [slot, Pack.nandOffset, nandBlkSize, copySize, inandSizePerWrite] <;> omega

/-- The other stages lie behind `zimage` of copy 1. -/
theorem behind_laterStages :
    ∀ t ∈ laterStages p.hdr, t.Behind env (copy1 env.deviceSize + slot .initramfs) := by
  have hdev := g.device
  have hcopy : copy1 env.deviceSize + slot .initramfs ≤ copy0 env.deviceSize := by
    simp only [copy1, copy0, copySize, slot, Pack.nandOffset, nandBlkSize] at *
    omega
  have hsection : ∀ base s c, base = base1 ∨ base = base0 →
      (s = .uBoot ∨ s = .zimage ∨ s = .initramfs) →
      copy1 env.deviceSize + slot .initramfs ≤ fromEnd env (base * nandBlkSize) + slot s →
      (sectionStage p.hdr base s c).Behind env (copy1 env.deviceSize + slot .initramfs) := by
    intro base s c hb hs hle
    have haddr : fromEnd env (sectionStage p.hdr base s c).flash =
        fromEnd env (base * nandBlkSize) + slot s :=
      congrArg Prod.fst (g.write_section hb hs c)
    refine ⟨g.onDevice_section hb hs c, ?_, ?_⟩
    · rw [haddr]
      exact hle
    · rw [show (sectionStage p.hdr base s c).verify = (sectionStage p.hdr base s c).flash from rfl,
        haddr]
      exact hle
  intro t ht
  simp only [laterStages, firmwareStages, List.drop_succ_cons, List.drop_zero, List.mem_cons,
    List.not_mem_nil, or_false] at ht
  rcases ht with rfl | rfl | rfl | rfl | rfl
  · exact hsection _ _ _ (.inl rfl) (by simp) (by rw [g.fromEnd_base1])
  · refine ⟨g.onDevice_header (.inr rfl) _, ?_, ?_⟩
    · exact le_trans hcopy (le_of_eq g.fromEnd_base0.symm)
    · have hverify : fromEnd env (headerStage p.hdr base0 .header2).verify =
          copy0 env.deviceSize + 8 := by
        simp only [headerStage, fromEnd, base0, zimageInitramfsSectors, copy0, nandBlkSize,
          copySize] at *
        omega
      rw [hverify]
      omega
  all_goals
    refine hsection _ _ _ (.inr rfl) (by simp) ?_
    rw [g.fromEnd_base0]
    omega

end Genuine

section Prefix

variable {n : ℕ} (hfit : FitsSlots p) {later : List Write}
  (hlater : ∀ w ∈ later, copy1 n + slot .initramfs ≤ w.1)

include hfit hlater

/-- Writes behind them leave the first three regions alone. -/
theorem avoids_firstWrites {w : Write} (hw : w ∈ firstWrites p n) :
    ∀ v ∈ later, v.Avoids w.1 w.2.length := by
  obtain ⟨-, hu, hz, -⟩ := hfit
  have hlen := p.hdr.length_eq
  have hend : w.1 + w.2.length ≤ copy1 n + slot .initramfs := by
    simp only [firstWrites, List.mem_cons, List.not_mem_nil, or_false] at hw
    rcases hw with rfl | rfl | rfl <;>
      simp only [Write.shift_fst, Write.shift_snd, hlen, slot, Pack.nandOffset, nandBlkSize,
        fwFileHdrSize] at * <;> omega
  exact fun v hv => .inr (le_trans hend (hlater v hv))

omit hlater in
/-- The first three regions are apart. -/
theorem firstWrites_pairwise :
    (firstWrites p n).Pairwise fun v w => v.Avoids w.1 w.2.length ∧ w.Avoids v.1 v.2.length := by
  obtain ⟨-, hu, hz, -⟩ := hfit
  have hlen := p.hdr.length_eq
  simp only [firstWrites, List.pairwise_cons, List.mem_cons, List.not_mem_nil, or_false,
    Write.Avoids]
  refine ⟨?_, ?_, by simp⟩
  · rintro w (rfl | rfl) <;>
      simp only [Write.shift_fst, Write.shift_snd, hlen, slot, Pack.nandOffset, nandBlkSize,
        fwFileHdrSize] at * <;> omega
  · rintro w rfl
    simp only [Write.shift_fst, Write.shift_snd, slot, Pack.nandOffset, nandBlkSize] at *
    omega

/-- A region of the first three writes after `k` of all the writes. -/
theorem load_firstWrites_take {i : ℕ} {w : Write} (hw : (firstWrites p n)[i]? = some w) (k : ℕ)
    (d : Disk) :
    load (applyWrites ((firstWrites p n ++ later).take k) d) w.1 w.2.length =
      if i < k then w.2 else load d w.1 w.2.length := by
  obtain ⟨hi, rfl⟩ := List.getElem?_eq_some_iff.mp hw
  exact load_applyWrites_take_append hi (firstWrites_pairwise hfit)
    (avoids_firstWrites hfit hlater (List.getElem_mem hi)) k d

/-- From the first write on, copy 1 has the new header. -/
theorem hdrAt_take {k : ℕ} (hk : 0 < k) (d : Disk) :
    hdrAt (applyWrites ((firstWrites p n ++ later).take k) d) (copy1 n) = p.hdr := by
  have h := load_firstWrites_take hfit hlater (i := 0) (w := Write.shift (copy1 n) (0, p.hdr.bytes))
    rfl k d
  rw [if_pos hk, Write.shift_fst, Write.shift_snd, Nat.add_zero, p.hdr.length_eq] at h
  exact FWFileHdr.ext h

theorem uBoot_take (k : ℕ) (d : Disk) :
    load (applyWrites ((firstWrites p n ++ later).take k) d) (copy1 n + slot .uBoot)
        (p.body .uBoot).length =
      if 1 < k then p.body .uBoot else load d (copy1 n + slot .uBoot) (p.body .uBoot).length := by
  have h := load_firstWrites_take hfit hlater (i := 1)
    (w := Write.shift (copy1 n) (slot .uBoot, p.body .uBoot)) rfl k d
  simpa only [Write.shift_fst, Write.shift_snd] using h

theorem zimage_take (k : ℕ) (d : Disk) :
    load (applyWrites ((firstWrites p n ++ later).take k) d) (copy1 n + slot .zimage)
        (p.body .zimage).length =
      if 2 < k then p.body .zimage else load d (copy1 n + slot .zimage) (p.body .zimage).length := by
  have h := load_firstWrites_take hfit hlater (i := 2)
    (w := Write.shift (copy1 n) (slot .zimage, p.body .zimage)) rfl k d
  simpa only [Write.shift_fst, Write.shift_snd] using h

end Prefix

/-! ## Complete after a prefix -/

/-- The bytes in the place of a section of copy 1 have the sum of the section in
    the file. -/
def SumAgrees (p : Pack) (n : ℕ) (d : Disk) (s : Section) : Prop :=
  byteSum (load d (copy1 n + slot s) (p.body s).length) % 2 ^ 32 = byteSum (p.body s) % 2 ^ 32

/-- The points at which power may fail on a device with the contents `d`: not
    behind the header of copy 1 unless `u_boot` and `zimage` have the new sums
    already, and not behind its `u_boot` unless `zimage` has. -/
structure SafePoint (p : Pack) (n : ℕ) (d : Disk) (k : ℕ) : Prop where
  uBoot : k = 1 → SumAgrees p n d .uBoot
  zimage : k = 1 ∨ k = 2 → SumAgrees p n d .zimage

/-- Under the new header a section is good iff its bytes have the sum of the
    section in the file. -/
theorem Genuine.sectionGood_iff (g : Genuine env p) {d : Disk} {base : ℕ}
    (hhdr : hdrAt d base = p.hdr) (s : Section) :
    SectionGood d base s ↔
      byteSum (load d (base + slot s) (p.body s).length) % 2 ^ 32 = byteSum (p.body s) % 2 ^ 32 := by
  have hoff : (p.hdr.stanza s).nand.offset * nandBlkSize = slot s := by
    rw [p.stanza_hdr]
    rfl
  have hsize : (p.hdr.stanza s).nand.size = (p.body s).length := by
    rw [p.stanza_hdr]
    exact p.fileSize_eq (by have := g.small; omega) s
  have hsum : (p.hdr.stanza s).checkSum = byteSum (p.body s) % 2 ^ 32 := by
    rw [p.stanza_hdr]
    exact p.checkSum_eq (g.body_lt s)
  unfold SectionGood
  simp only [hhdr, hoff, hsize, hsum]

/-- What the next boot selects after `k` writes is complete iff `k` is safe. -/
theorem Genuine.complete_take_iff (g : Genuine env p) (hfit : FitsSlots p) {n : ℕ}
    {later : List Write} (hlater : ∀ w ∈ later, copy1 n + slot .initramfs ≤ w.1) {d : Disk}
    (hcopy : Complete d (copy1 n)) (k : ℕ) :
    Complete (applyWrites ((firstWrites p n ++ later).take k) d)
        (selected n (applyWrites ((firstWrites p n ++ later).take k) d)) ↔
      SafePoint p n d k := by
  rcases Nat.eq_zero_or_pos k with rfl | hk
  · -- nothing is written: copy 1 is still the old one
    rw [List.take_zero, applyWrites_nil, selected, if_pos hcopy.magic]
    exact iff_of_true hcopy ⟨by simp, by simp⟩
  have hhdr := hdrAt_take hfit hlater hk d
  have huboot := uBoot_take hfit hlater k d
  have hzimage := zimage_take hfit hlater k d
  generalize applyWrites ((firstWrites p n ++ later).take k) d = d' at *
  have hsel : selected n d' = copy1 n := by
    rw [selected, if_pos (by rw [hhdr, p.magic_hdr])]
  have hu : SectionGood d' (copy1 n) .uBoot ↔ (k = 1 → SumAgrees p n d .uBoot) := by
    rw [g.sectionGood_iff hhdr, huboot, SumAgrees]
    by_cases h1 : 1 < k
    · rw [if_pos h1]
      exact iff_of_true rfl fun h => by omega
    · rw [if_neg h1]
      exact ⟨fun h _ => h, fun h => h (by omega)⟩
  have hz : SectionGood d' (copy1 n) .zimage ↔ (k = 1 ∨ k = 2 → SumAgrees p n d .zimage) := by
    rw [g.sectionGood_iff hhdr, hzimage, SumAgrees]
    by_cases h2 : 2 < k
    · rw [if_pos h2]
      exact iff_of_true rfl fun h => by omega
    · rw [if_neg h2]
      exact ⟨fun h _ => h, fun h => h (by omega)⟩
  rw [hsel]
  constructor
  · intro h
    exact ⟨hu.mp h.uBoot, hz.mp h.zimage⟩
  · intro h
    exact ⟨by rw [hhdr, p.magic_hdr], by rw [hhdr, p.checkSum_hdr], hu.mpr h.uBoot, hz.mpr h.zimage⟩

/-! ## The boot programs -/

/-- Qi loads U-Boot from the selected copy (`Qi.doLoadUboot_good`). -/
theorem doLoadUboot_selected {rom : Qi.Rom} (d : Disk)
    (hblocks : Qi.inandKernel1Bend ≤ rom.blocks) (hword : rom.blocks < 2 ^ 32) :
    Qi.selectedBlock rom d * nandBlkSize = selected (rom.blocks * nandBlkSize) d := by
  have hsize : Qi.inandKernel1Bend * nandBlkSize = 2 * copySize ∧
      Qi.inandKernel0Bend * nandBlkSize = copySize := by
    unfold copySize
    decide
  have h1 : sub32 rom.blocks Qi.inandKernel1Bend * nandBlkSize = copy1 (rom.blocks * nandBlkSize) := by
    rw [sub32_of_le hblocks hword, Nat.sub_mul, hsize.1, copy1]
  have h0 : sub32 rom.blocks Qi.inandKernel0Bend * nandBlkSize = copy0 (rom.blocks * nandBlkSize) := by
    rw [sub32_of_le (le_trans (by decide) hblocks) hword, Nat.sub_mul, hsize.2, copy0]
  simp only [Qi.selectedBlock, Qi.hdrAtBlock, selected, h1]
  split_ifs
  · exact h1
  · exact h0

/-- The copy U-Boot tries first, as blocks before the end: copy 1 if it has the
    magic. -/
def selectedBend (c : UBoot.Card) : ℕ :=
  if (c.hdr UBoot.inandKernel1Bend).magic = headMagic then UBoot.inandKernel1Bend
  else UBoot.inandKernel0Bend

/-- That is the selected copy. -/
theorem base_selectedBend {c : UBoot.Card} (hblocks : UBoot.inandKernel1Bend ≤ c.blocks)
    (hword : c.blocks < 2 ^ 32) :
    c.base (selectedBend c) * nandBlkSize = selected (c.blocks * nandBlkSize) c.contents := by
  have hsize : UBoot.inandKernel1Bend * nandBlkSize = 2 * copySize ∧
      UBoot.inandKernel0Bend * nandBlkSize = copySize := by
    unfold copySize
    decide
  have h1 : c.base UBoot.inandKernel1Bend * nandBlkSize = copy1 (c.blocks * nandBlkSize) := by
    rw [UBoot.Card.base, sub32_of_le hblocks hword, Nat.sub_mul, hsize.1, copy1]
  have h0 : c.base UBoot.inandKernel0Bend * nandBlkSize = copy0 (c.blocks * nandBlkSize) := by
    rw [UBoot.Card.base, sub32_of_le (le_trans (by decide) hblocks) hword, Nat.sub_mul, hsize.2,
      copy0]
  simp only [selectedBend, UBoot.Card.hdr, selected, h1]
  split_ifs
  · exact h1
  · exact h0

/-- The first image U-Boot boots is the one of the selected copy, if that has the
    magic and sections below 16 MiB. -/
theorem tryCopies_selected {b : UBoot.Board} {c : UBoot.Card} {s : UBoot.St} (a : UBoot.Attempt)
    (hready : UBoot.CardReady b c s) (hmagic : (c.hdr (selectedBend c)).magic = headMagic)
    (hsize : UBoot.SizesOk (c.hdr (selectedBend c)) a.flag) :
    ∃ s1 reads f, UBoot.tryCopies b a s =
        (UBoot.bootImage b UBoot.memKernelStart a.addr2 >>= f) s1 ∧
      s1.trace = s.trace ++ reads ++
        UBoot.copyReads (c.hdr (selectedBend c)) (c.base (selectedBend c)) a.flag := by
  have htry : ∀ {offsetEnd : ℕ} {t t' : UBoot.St},
      UBoot.doReadInand b UBoot.inandDev offsetEnd a.flag t = some (.ok 0, t') →
      UBoot.tryCopy b a offsetEnd t = (UBoot.bootImage b UBoot.memKernelStart a.addr2 >>=
        fun ret => pure (decide (ret ≠ 0))) t' := by
    intro offsetEnd t t' h
    rw [UBoot.tryCopy]
    exact Prog.bind_ok h
  by_cases hfirst : (c.hdr UBoot.inandKernel1Bend).magic = headMagic
  · rw [selectedBend, if_pos hfirst] at hmagic hsize ⊢
    obtain ⟨s1, hread, -, htrace⟩ := UBoot.doReadInand_ok hready hmagic hsize
    have hrun := Prog.bind_congr (htry hread) (f := fun failed =>
      if failed then UBoot.tryCopy b a UBoot.inandKernel0Bend else pure false)
    rw [Prog.bind_assoc] at hrun
    exact ⟨s1, [], _, hrun, by rw [htrace, List.append_nil]⟩
  · rw [selectedBend, if_neg hfirst] at hmagic hsize ⊢
    obtain ⟨s0, hrun, hmmc, htrace0⟩ := UBoot.tryCopies_magic a hready hfirst
    have hready0 : UBoot.CardReady b c s0 := ⟨hready.1, fun _ => hmmc⟩
    obtain ⟨s1, hread, -, htrace⟩ := UBoot.doReadInand_ok hready0 hmagic hsize
    exact ⟨s1, _, _, hrun.trans (htry hread), by rw [htrace, htrace0]⟩

/-! ## A device that was upgraded before -/

/-- After a successful upgrade both copies are complete. -/
theorem Genuine.complete (g : Genuine env p) {n : ℕ} {d : Disk} (hend : EndState p n d) {base : ℕ}
    (hbase : base ∈ [copy1 n, copy0 n]) : Complete d base := by
  have hhdr : hdrAt d base = p.hdr := FWFileHdr.ext (hend.header base hbase)
  have hsec : ∀ s ∈ [Section.uBoot, .zimage, .initramfs], SectionGood d base s := by
    intro s hs
    have hload := hend.sections base hbase s hs
    have hoff : (p.hdr.stanza s).nand.offset * nandBlkSize = slot s := by
      rw [p.stanza_hdr]
      rfl
    rw [hoff] at hload
    rw [g.sectionGood_iff hhdr, hload]
  exact ⟨by rw [hhdr, p.magic_hdr], by rw [hhdr, p.checkSum_hdr], hsec _ (by simp),
    hsec _ (by simp)⟩

/-- A device of `n` bytes upgraded with `p`. -/
def upgraded (p : Pack) (n : ℕ) : Disk := applyWrites (flashWrites p n) fun _ => 0

theorem endState_upgraded {n : ℕ} (hn : 2 * copySize ≤ n) (hfit : FitsSlots p) :
    EndState p n (upgraded p n) := by
  obtain ⟨hq, hu, hz, hi⟩ := hfit
  have hlen := p.hdr.length_eq
  refine (endState_flashWrites_iff hn (fun w hw => ?_) ?_ fun x _ => rfl).mpr
    (kept_of_fits ⟨hq, hu, hz, hi⟩)
  · simp only [copyWrites, List.mem_cons, List.not_mem_nil, or_false] at hw
    rcases hw with rfl | rfl | rfl | rfl <;>
      simp only [slot, Pack.nandOffset, nandBlkSize, qiBlocks, copySize, hlen, fwFileHdrSize] at * <;>
      omega
  · simp only [nandBlkSize, qiBlocks] at *
    omega

/-! ## The result -/

/-- The device after the first `k` writes of a run that led from `s` to `s'`. -/
def crashed (s s' : St) (k : ℕ) : Disk :=
  applyWrites (((writesOf s'.log).drop (writesOf s.log).length).take k) s.inand

/-- The `read`s and `write`s of the stages that made the first `k` writes, of the
    first three at most, move all they are asked to. -/
def FirstFull (env : Env) (p : Pack) (s : St) (k : ℕ) : Prop :=
  ∀ j w, j < k → (firstWrites p env.deviceSize)[j]? = some w →
    FullAt env (s.calls + 3 * j) w.2.length

namespace Genuine

variable (g : Genuine env p) (hfit : FitsSlots p)

include g hfit

/-- The first `k` writes of a run of the eight stages. -/
theorem take_writes {s s' : St} {r : Except Failure Unit}
    (hrun : loadingCopies env p.hdr s = some (r, s')) {k : ℕ}
    (hk : (writesOf s.log).length + k ≤ (writesOf s'.log).length) (hfull : FirstFull env p s k) :
    ∃ later : List Write, (∀ w ∈ later, copy1 env.deviceSize + slot .initramfs ≤ w.1) ∧
      ((writesOf s'.log).drop (writesOf s.log).length).take k =
        (firstWrites p env.deviceSize ++ later).take k := by
  have hones := g.oneWrite_firstStages hfit
  rw [loadingCopies, Prog.modify_bind, ← List.take_append_drop 3 (firmwareStages p.hdr)] at hrun
  rw [← g.oneWrites_firstStages]
  refine runStages_take hones g.behind_laterStages hrun hk fun j t hj ht => ?_
  have hw : (firstWrites p env.deviceSize)[j]? = some (t.write env (t.source 0)) := by
    rw [← g.oneWrites_firstStages, oneWrites, List.getElem?_map, ht]
    rfl
  have hlen : (t.write env (t.source 0)).2.length = t.size :=
    length_slice (hones t (List.mem_of_getElem? ht)).inFile
  have hcall := hfull j _ hj hw
  rw [hlen] at hcall
  exact hcall

/-- A run that passes all its checks makes the first three writes. -/
theorem three_le_writes {s s' : St} (hrun : loadingCopies env p.hdr s = some (.ok (), s')) :
    (writesOf s.log).length + 3 ≤ (writesOf s'.log).length := by
  rw [loadingCopies, Prog.modify_bind, ← List.take_append_drop 3 (firmwareStages p.hdr)] at hrun
  obtain ⟨ws, hws, hlen, -⟩ :=
    runStages_writes (g.oneWrite_firstStages hfit) g.behind_laterStages hrun
  have hthree : 3 ≤ ws.length := hlen rfl
  rw [hws, List.length_append]
  exact Nat.add_le_add_left hthree _

end Genuine

/-- When power fails after `k` writes of `loading_firmware`, the copy selected
    next is complete iff `k` is a safe point, whatever comes up short or fails
    behind these writes. -/
theorem powerFail_iff (g : Genuine env p) (hfit : FitsSlots p) {homefs keep : Bool} {total : ℕ}
    {s s' : St} {r : Except Failure Unit}
    (hcopy : Complete s.inand (copy1 env.deviceSize))
    (hrun : loadingFirmware env p.hdr homefs keep total s = some (r, s')) {k : ℕ}
    (hk : (writesOf s.log).length + k ≤ (writesOf s'.log).length) (hfull : FirstFull env p s k) :
    Complete (crashed s s' k) (selected env.deviceSize (crashed s s' k)) ↔
      SafePoint p env.deviceSize s.inand k := by
  obtain ⟨r1, s1, hcopies, -, hoff⟩ := loadingFirmware_spec hrun
  rw [hoff.2] at hk
  obtain ⟨later, hlater, hcrash⟩ := g.take_writes hfit hcopies hk hfull
  rw [crashed, hoff.2, hcrash]
  exact g.complete_take_iff hfit hlater hcopy k

/-! A device upgraded with one `u_boot` and now being upgraded with another. -/

/-- What is on the device. -/
def oldPack : Pack := Pack.ofFour [1] [9] [3] [4]

/-- What is written to it. -/
def newPack : Pack := Pack.ofFour [1] [2] [3] [4]

/-- The device that holds `oldPack` twice. -/
@[irreducible]
def oldDevice : Disk := upgraded oldPack (Env.quiet newPack.image).deviceSize

theorem fitsSlots_ofFour (a b c d : Byte) : FitsSlots (Pack.ofFour [a] [b] [c] [d]) := by
  constructor <;>
    simp only [Pack.body, Pack.content, Pack.ofFour, Section.idx, List.getElem?_cons_zero,
      List.getElem?_cons_succ, Option.join_some, Option.getD_some, List.length_singleton, slot,
      Pack.nandOffset, nandBlkSize, qiBlocks, copySize] <;> omega

theorem small_ofFour (a b c d : Byte) : (Pack.ofFour [a] [b] [c] [d]).image.length < 2 ^ 31 := by
  rw [Pack.length_image]
  show fwFileHdrSize + 1 + 1 + 1 + 1 + 0 + 0 < 2 ^ 31
  norm_num [fwFileHdrSize]

theorem deviceSize_quiet (file : List Byte) : 2 * copySize ≤ (Env.quiet file).deviceSize := by
  simp [Env.quiet, copySize, zimageInitramfsSectors, nandBlkSize]

theorem endState_oldDevice :
    EndState oldPack (Env.quiet newPack.image).deviceSize oldDevice := by
  unfold oldDevice
  exact endState_upgraded (deviceSize_quiet _) (fitsSlots_ofFour 1 9 3 4)

theorem complete_oldDevice {base : ℕ}
    (hbase : base ∈ [copy1 (Env.quiet newPack.image).deviceSize,
      copy0 (Env.quiet newPack.image).deviceSize]) : Complete oldDevice base :=
  (Env.quiet_genuine (small_ofFour 1 9 3 4)).complete endState_oldDevice hbase

theorem genuine_newPack : Genuine (Env.quiet newPack.image) newPack :=
  Env.quiet_genuine (small_ofFour 1 2 3 4)

theorem fitsSlots_newPack : FitsSlots newPack := fitsSlots_ofFour 1 2 3 4

/-- `loading_firmware` runs to its end on it. -/
theorem loadingFirmware_newPack :
    ∃ s', loadingFirmware (Env.quiet newPack.image) newPack.hdr false false 0
        (St.init oldDevice fun _ => 0) = some (.ok (), s') ∧
      loadingCopies (Env.quiet newPack.image) newPack.hdr (St.init oldDevice fun _ => 0) =
        some (.ok (), s') := by
  have hfit : ∀ s, s = .uBoot ∨ s = .zimage ∨ s = .initramfs →
      slot s + (newPack.body s).length ≤ copySize := by
    obtain ⟨-, hu, hz, hi⟩ := fitsSlots_ofFour 1 2 3 4
    rintro s (rfl | rfl | rfl) <;>
      simp only [newPack, slot, Pack.nandOffset, nandBlkSize, qiBlocks, copySize] at * <;> omega
  obtain ⟨s', hrun, hs'⟩ := genuine_newPack.loadingCopies_total
    (fun _ => rfl) (by simp [Env.quiet]) hfit (s := St.init oldDevice fun _ => 0) rfl
  refine ⟨s', ?_, hrun⟩
  rw [loadingFirmware]
  exact Prog.bind_ok hrun

/-- Every transfer is full in that run. -/
theorem firstFull_newPack (k : ℕ) :
    FirstFull (Env.quiet newPack.image) newPack (St.init oldDevice fun _ => 0) k := by
  obtain ⟨-, hu, hz, -⟩ := fitsSlots_newPack
  intro j w _ hw
  have hlt : w.2.length < 2 ^ 31 := by
    have hmem := List.mem_of_getElem? hw
    have hlen := newPack.hdr.length_eq
    simp only [slot, Pack.nandOffset, nandBlkSize] at hu hz
    simp only [firstWrites, List.mem_cons, List.not_mem_nil, or_false] at hmem
    rcases hmem with rfl | rfl | rfl <;> simp only [Write.shift_snd, hlen, fwFileHdrSize] <;> omega
  exact ⟨transferred_full hlt le_rfl, transferred_full hlt le_rfl⟩

theorem powerFail_iff_newPack :
    ∃ s', loadingFirmware (Env.quiet newPack.image) newPack.hdr false false 0
        (St.init oldDevice fun _ => 0) = some (.ok (), s') ∧
      ∀ k ≤ 3, Complete (crashed (St.init oldDevice fun _ => 0) s' k)
          (selected (Env.quiet newPack.image).deviceSize
            (crashed (St.init oldDevice fun _ => 0) s' k)) ↔
        SafePoint newPack (Env.quiet newPack.image).deviceSize oldDevice k := by
  obtain ⟨s', hrun, hcopies⟩ := loadingFirmware_newPack
  have hcopy := complete_oldDevice (List.mem_cons_self (l := [copy0 _]))
  have hthree := genuine_newPack.three_le_writes fitsSlots_newPack hcopies
  refine ⟨s', hrun, fun k hk => ?_⟩
  exact powerFail_iff (s := St.init oldDevice fun _ => 0) genuine_newPack fitsSlots_newPack
    hcopy hrun (by omega) (firstFull_newPack k)

/-- Behind the new header the old `u_boot` has another sum. -/
theorem not_safePoint_one :
    ¬ SafePoint newPack (Env.quiet newPack.image).deviceSize oldDevice 1 := by
  intro h
  have hsum := h.uBoot rfl
  have hload := endState_oldDevice.sections (copy1 (Env.quiet newPack.image).deviceSize) (by simp)
    .uBoot (by simp)
  have hoff : (oldPack.hdr.stanza .uBoot).nand.offset * nandBlkSize = slot .uBoot := by
    rw [Pack.stanza_hdr]
    rfl
  rw [hoff] at hload
  have hlen : (newPack.body .uBoot).length = (oldPack.body .uBoot).length := rfl
  rw [SumAgrees, hlen, hload] at hsum
  exact absurd hsum (by decide)

/-- Power lost behind the first write, all transfers being full: copy 0 is still
    complete, and the copy that is selected is not. -/
theorem powerFail_behind_header :
    ∃ s', loadingFirmware (Env.quiet newPack.image) newPack.hdr false false 0
        (St.init oldDevice fun _ => 0) = some (.ok (), s') ∧
      1 ≤ (writesOf s'.log).length ∧
      FirstFull (Env.quiet newPack.image) newPack (St.init oldDevice fun _ => 0) 1 ∧
      FitsSlots newPack ∧
      Complete oldDevice (copy1 (Env.quiet newPack.image).deviceSize) ∧
      Complete oldDevice (copy0 (Env.quiet newPack.image).deviceSize) ∧
      ¬ Complete (crashed (St.init oldDevice fun _ => 0) s' 1)
        (selected (Env.quiet newPack.image).deviceSize
          (crashed (St.init oldDevice fun _ => 0) s' 1)) := by
  obtain ⟨s', hrun, hcopies⟩ := loadingFirmware_newPack
  have hcopy := complete_oldDevice (List.mem_cons_self (l := [copy0 _]))
  have hthree := genuine_newPack.three_le_writes fitsSlots_newPack hcopies
  have hone : (writesOf (St.init oldDevice fun _ => 0).log).length + 1 ≤ (writesOf s'.log).length := by
    omega
  have hfull := firstFull_newPack 1
  refine ⟨s', hrun, le_trans (Nat.le_add_left 1 _) hone, hfull, fitsSlots_newPack, hcopy,
    complete_oldDevice (by simp), ?_⟩
  obtain ⟨later, hlater, hcrash⟩ :=
    genuine_newPack.take_writes fitsSlots_newPack hcopies hone hfull
  have hiff := genuine_newPack.complete_take_iff fitsSlots_newPack hlater hcopy 1
  rw [crashed, hcrash]
  exact mt hiff.mp not_safePoint_one

end SmartQ.Firmware.Upgrade
