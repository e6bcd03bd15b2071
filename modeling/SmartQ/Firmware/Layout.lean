import SmartQ.Firmware.PowerFail

/-!
# One layout for the writer and its readers

`upgrade` seeks from the end of the device in bytes, Qi and U-Boot count blocks
from their own idea of the card's size. For a file made by `mkSmartQ` they mean
the same places, and each reader reads as many blocks as a section fills, but
for a `u_boot` that needs 65536 of them: the ROM counts blocks in 16 bits.

* `layout_agrees`: the addresses, the lengths and the fallback.
* `layout_uint16`: the first `u_boot` Qi does not read.
-/

namespace SmartQ.Firmware.Upgrade

open SmartQ.Lib

variable {env : Env} {p : Pack}

/-! ## Copies -/

/-- The two firmware copies at the end of the device; copy 1 lies in front of copy 0. -/
inductive Copy
  | one | zero
  deriving DecidableEq, Repr

/-- The block a copy starts at for `upgrade`, from the end. -/
def Copy.base : Copy → ℤ
  | .one => base1
  | .zero => base0

/-- How many blocks before the end it starts for the readers:
    `INAND_KERNEL1_BEND` and `INAND_KERNEL0_BEND`. -/
def Copy.bend : Copy → ℕ
  | .one => Qi.inandKernel1Bend
  | .zero => Qi.inandKernel0Bend

/-- The block a copy starts at on a device of `n` blocks, as the readers compute
    it. -/
def Copy.start (k : Copy) (n : ℕ) : ℕ := sub32 n k.bend

/-- The two readers have the same constants. -/
theorem Copy.bend_uBoot :
    Copy.one.bend = UBoot.inandKernel1Bend ∧ Copy.zero.bend = UBoot.inandKernel0Bend := by
  decide

theorem Copy.bend_le (k : Copy) : k.bend ≤ Qi.inandKernel1Bend := by
  cases k <;> decide

/-- Block `blk` is where `upgrade` puts `fd_inand` to write the section `s` of
    copy `k`. -/
def WrittenAt (env : Env) (p : Pack) (k : Copy) (s : Section) (blk : ℕ) : Prop :=
  ∀ (c : Check) (st : St), seekInand env (sectionStage p.hdr k.base s c).flash st =
    some (.ok (), { st with inandPos := blk * nandBlkSize })

/-- There is one such block. -/
theorem WrittenAt.unique {k : Copy} {s : Section} {blk blk' : ℕ} (h : WrittenAt env p k s blk)
    (h' : WrittenAt env p k s blk') : blk = blk' := by
  have heq := (h .qi (St.init (fun _ => 0) fun _ => 0)).symm.trans (h' .qi _)
  have hpos := congrArg (fun r => r.map fun x => x.2.inandPos) heq
  simp only [Option.map_some, Option.some.injEq, nandBlkSize] at hpos
  omega

/-- Both readers compute the block a section was written at. -/
theorem writtenAt_start {n : ℕ} (hdev : env.deviceSize = n * nandBlkSize)
    (hlo : Qi.inandKernel1Bend ≤ n) (hhi : n < 2 ^ 32) (k : Copy) {s : Section}
    (hs : s = .uBoot ∨ s = .zimage ∨ s = .initramfs) :
    WrittenAt env p k s (add32 (k.start n) (p.hdr.stanza s).nand.offset) := by
  intro c st
  have hoff : (p.hdr.stanza s).nand.offset = Pack.nandOffset s := by
    rw [p.stanza_hdr]
    rfl
  have hnand : 2 ≤ Pack.nandOffset s ∧ Pack.nandOffset s ≤ 4096 := by
    rcases hs with rfl | rfl | rfl <;> decide
  have hstart : k.start n = n - k.bend := sub32_of_le (k.bend_le.trans hlo) hhi
  have hbend : (k.base = -32768 ∧ k.bend = 32768) ∨ (k.base = -16384 ∧ k.bend = 16384) := by
    cases k
    · exact .inl ⟨rfl, rfl⟩
    · exact .inr ⟨rfl, rfl⟩
  have hflash : (sectionStage p.hdr k.base s c).flash =
      (k.base + Pack.nandOffset s) * (nandBlkSize : ℕ) := by
    show flashOffset k.base (p.hdr.stanza s).nand.offset = _
    rw [hoff]
    unfold flashOffset
    exact int32_of_range (by simp only [nandBlkSize]; omega) (by simp only [nandBlkSize]; omega)
  simp only [Qi.inandKernel1Bend] at hlo
  have hblk : add32 (k.start n) (Pack.nandOffset s) = n - k.bend + Pack.nandOffset s := by
    rw [hstart]
    exact add32_of_lt (by omega)
  rw [hflash, hoff, hblk, seekInand_apply (by rw [hdev]; simp only [nandBlkSize]; omega)
    (by simp only [nandBlkSize]; omega)]
  congr 4
  rw [fromEnd, hdev]
  simp only [nandBlkSize]
  omega

/-! ## The readers -/

/-- The header of copy `k` on the device `d` of `n` blocks, where the readers
    look for it. -/
def Copy.hdr (k : Copy) (n : ℕ) (d : Disk) : FWFileHdr := hdrAt d (k.start n * nandBlkSize)

/-- Qi reads the `u_boot` of copy `k` from where it was written, and all of it. -/
def QiAgrees (env : Env) (p : Pack) (n : ℕ) (d : Disk) (k : Copy) : Prop :=
  ∀ rom : Qi.Rom, rom.Good d → rom.blocks = n → ∀ mem, ∃ mem' blk cnt,
    Qi.doReadInand rom k.bend mem =
        (1, store mem' Qi.rdMemAddr (load d (blk * nandBlkSize) (cnt * nandBlkSize))) ∧
      WrittenAt env p k .uBoot blk ∧ (p.hdr.stanza .uBoot).file.size ≤ cnt * nandBlkSize

/-- The block read `e` of U-Boot brings the section `s` of copy `k` to `addr`,
    from where it was written, and all of it. -/
def ReadsSection (env : Env) (p : Pack) (k : Copy) (s : Section) (addr : ℕ) (e : UBoot.Event) :
    Prop :=
  ∃ blk cnt, e = .read blk cnt addr ∧ WrittenAt env p k s blk ∧
    (p.hdr.stanza s).file.size ≤ cnt * nandBlkSize

/-- U-Boot reads the kernel and the initramfs of copy `k` so. -/
def UBootAgrees (env : Env) (p : Pack) (n : ℕ) (d : Disk) (k : Copy) : Prop :=
  ∀ (b : UBoot.Board) (s : UBoot.St) (flag : Bool), UBoot.CardReady b ⟨n, d⟩ s →
    UBoot.SizesOk p.hdr flag → ∃ s' zimage initramfs,
      UBoot.doReadInand b UBoot.inandDev k.bend flag s = some (.ok 0, s') ∧
      s'.trace = s.trace ++ (.read (k.start n) 1 UBoot.memReadFile :: zimage ::
        if flag then [initramfs] else []) ∧
      ReadsSection env p k .zimage UBoot.memKernelStart zimage ∧
      ReadsSection env p k .initramfs UBoot.memInitramfs initramfs

/-- A copy without the magic is left for the other one: each reader goes on with
    what it does for copy 0. -/
structure FallsBack (n : ℕ) (d : Disk) : Prop where
  qi : ∀ rom : Qi.Rom, rom.Good d → rom.blocks = n → ∀ mem, ∃ mem',
    Qi.doLoadUboot rom mem = Qi.doReadInand rom Copy.zero.bend mem'
  uBoot : ∀ (b : UBoot.Board) (s : UBoot.St) (a : UBoot.Attempt), UBoot.CardReady b ⟨n, d⟩ s →
    ∃ s', UBoot.tryCopies b a s = UBoot.tryCopy b a Copy.zero.bend s' ∧
      UBoot.CardReady b ⟨n, d⟩ s'

/-- Whole blocks and one more hold a section. -/
theorem le_blocks (size : ℕ) : size ≤ (size / nandBlkSize + 1) * nandBlkSize := by
  simp only [nandBlkSize]
  omega

theorem nandSize_hdr (s : Section) : (p.hdr.stanza s).nand.size = (p.hdr.stanza s).file.size := by
  rw [p.stanza_hdr]
  rfl

section Agree

variable {n : ℕ} (hdev : env.deviceSize = n * nandBlkSize) (hlo : Qi.inandKernel1Bend ≤ n)
  (hhi : n < 2 ^ 32) {d : Disk} {k : Copy} (hhdr : k.hdr n d = p.hdr)

include hdev hlo hhi hhdr

theorem qiAgrees (hu : (p.hdr.stanza .uBoot).file.size < 2 ^ 25 - nandBlkSize) :
    QiAgrees env p n d k := by
  intro rom hgood hblocks mem
  subst hblocks
  obtain ⟨mem', -, hread⟩ := Qi.doReadInand_good hgood k.bend mem
  have hat : Qi.hdrAtBlock d (sub32 rom.blocks k.bend) = p.hdr := hhdr
  rw [hat, if_pos p.magic_hdr] at hread
  simp only [Qi.ubootBlocks, hat] at hread
  have hwritten := writtenAt_start (p := p) hdev hlo hhi k (.inl rfl : Section.uBoot = _ ∨ _)
  refine ⟨mem', _, _, hread, hwritten, ?_⟩
  -- the count stays below 2^16
  have hcount : (p.hdr.stanza .uBoot).nand.size / nandBlkSize + 1 < 2 ^ 16 := by
    rw [nandSize_hdr]
    simp only [nandBlkSize] at *
    omega
  rw [Nat.mod_eq_of_lt hcount, nandSize_hdr]
  exact le_blocks _

theorem uBootAgrees : UBootAgrees env p n d k := by
  intro b s flag hready hsize
  have hat : UBoot.Card.hdr ⟨n, d⟩ k.bend = p.hdr := hhdr
  have hsizes : UBoot.SizesOk (UBoot.Card.hdr ⟨n, d⟩ k.bend) flag := by rwa [hat]
  obtain ⟨s', hread, -, htrace⟩ := UBoot.doReadInand_ok hready (by rw [hat, p.magic_hdr]) hsizes
  refine ⟨s', _, _, hread, htrace, ?_, ?_⟩
  · rw [hat]
    refine ⟨_, _, rfl, writtenAt_start hdev hlo hhi k (.inr (.inl rfl)), ?_⟩
    rw [nandSize_hdr]
    exact le_blocks _
  · rw [hat]
    refine ⟨_, _, rfl, writtenAt_start hdev hlo hhi k (.inr (.inr rfl)), ?_⟩
    rw [nandSize_hdr]
    exact le_blocks _

end Agree

theorem fallsBack {n : ℕ} {d : Disk} (hmagic : (Copy.one.hdr n d).magic ≠ headMagic) :
    FallsBack n d := by
  constructor
  case qi =>
    intro rom hgood hblocks mem
    subst hblocks
    obtain ⟨mem', -, hread⟩ := Qi.doReadInand_good hgood Copy.one.bend mem
    have hat : (Qi.hdrAtBlock d (sub32 rom.blocks Copy.one.bend)).magic ≠ headMagic := hmagic
    rw [if_neg hat] at hread
    have hret : (Qi.doReadInand rom Qi.inandKernel1Bend mem).1 ≠ 1 := by
      show (Qi.doReadInand rom Copy.one.bend mem).1 ≠ 1
      rw [hread]
      exact (by decide : (-1 : ℤ) ≠ 1)
    exact ⟨_, if_pos hret⟩
  case uBoot =>
    intro b s a hready
    have hat : ((UBoot.Card.mk n d).hdr UBoot.inandKernel1Bend).magic ≠ headMagic := by
      rw [← Copy.bend_uBoot.1]
      exact hmagic
    obtain ⟨s', hrun, hmmc, -⟩ := UBoot.tryCopies_magic a hready hat
    rw [← Copy.bend_uBoot.2] at hrun
    exact ⟨s', hrun, hready.1, fun _ => hmmc⟩

/-! ## The result -/

/-- On a device of `n` blocks the readers take every section of a copy with the
    header of `p` from the block it was written at, and all of it; and they go
    on to copy 0 when copy 1 has not got the magic. -/
theorem layout_agrees (p : Pack) {n : ℕ} (hdev : env.deviceSize = n * nandBlkSize)
    (hlo : 32768 ≤ n) (hhi : n < 2 ^ 32)
    (hu : (p.hdr.stanza .uBoot).file.size < 2 ^ 25 - nandBlkSize) (d : Disk) :
    (∀ k : Copy, k.hdr n d = p.hdr → QiAgrees env p n d k ∧ UBootAgrees env p n d k) ∧
      ((Copy.one.hdr n d).magic ≠ headMagic → FallsBack n d) :=
  ⟨fun _ hhdr => ⟨qiAgrees hdev hlo hhi hhdr hu, uBootAgrees hdev hlo hhi hhdr⟩, fallsBack⟩

theorem layout_agrees_newPack :
    (∀ k : Copy, k.hdr 32768 (upgraded newPack 16777216) = newPack.hdr →
        QiAgrees (Env.quiet newPack.image) newPack 32768 (upgraded newPack 16777216) k ∧
          UBootAgrees (Env.quiet newPack.image) newPack 32768 (upgraded newPack 16777216) k) ∧
      ((Copy.one.hdr 32768 (upgraded newPack 16777216)).magic ≠ headMagic →
        FallsBack 32768 (upgraded newPack 16777216)) :=
  layout_agrees newPack (by simp [Env.quiet, zimageInitramfsSectors]) (by decide) (by decide)
    (by rw [Pack.stanza_hdr]; decide) (upgraded newPack 16777216)

/-! A `u_boot` of 65535 blocks: Qi asks for 65536, and the ROM for none. -/

/-- The first `u_boot` that is too long. -/
def wideUboot : Pack := Pack.ofFour [1] (List.replicate (2 ^ 25 - nandBlkSize) 0) [3] [4]

/-- A card of 32768 blocks that starts with the header of `p`, as copy 1. -/
def hdrDevice (p : Pack) : Disk := store (fun _ => 0) 0 p.hdr.bytes

theorem hdr_hdrDevice (p : Pack) : hdrAt (hdrDevice p) 0 = p.hdr := by
  have h := load_store (fun _ => 0) 0 p.hdr.bytes
  rw [p.hdr.length_eq] at h
  exact FWFileHdr.ext h

theorem byteAt_hdr_ne (p : Pack) : byteAt p.hdr.bytes 0 ≠ 0 := by
  intro h
  have hmagic := p.magic_hdr
  rw [FWFileHdr.magic, u32At, h, word32, headMagic] at hmagic
  have hzero : (0 : Byte).toNat = 0 := rfl
  omega

theorem fileSize_ofFour (q u z i : List Byte) :
    ((Pack.ofFour q u z i).hdr.stanza .uBoot).file.size = u.length % 2 ^ 32 := by
  rw [Pack.stanza_hdr]
  rfl

theorem size_wideUboot : (wideUboot.hdr.stanza .uBoot).file.size = 2 ^ 25 - nandBlkSize := by
  rw [wideUboot, fileSize_ofFour, List.length_replicate]
  decide

/-- Qi gets nothing of it: where the code was to go, the header still lies. -/
theorem layout_uint16 :
    (wideUboot.hdr.stanza .uBoot).file.size < 2 ^ 25 ∧
      Copy.one.hdr 32768 (hdrDevice wideUboot) = wideUboot.hdr ∧
      ¬ QiAgrees (Env.quiet wideUboot.image) wideUboot 32768 (hdrDevice wideUboot) .one := by
  have hstart : Copy.one.start 32768 = 0 := by decide
  have hhdr : Copy.one.hdr 32768 (hdrDevice wideUboot) = wideUboot.hdr := by
    rw [Copy.hdr, hstart, Nat.zero_mul, hdr_hdrDevice]
  refine ⟨by rw [size_wideUboot]; decide, hhdr, fun hagree => ?_⟩
  obtain ⟨mem', blk, cnt, hread, hat, hsize⟩ :=
    hagree (Qi.Rom.ofCard 32768 (hdrDevice wideUboot)) (Qi.Rom.ofCard_good _ _) rfl fun _ => 0
  obtain ⟨mem, hmem, hread'⟩ :=
    Qi.doReadInand_good (Qi.Rom.ofCard_good 32768 (hdrDevice wideUboot)) Copy.one.bend fun _ => 0
  have hheader : Qi.hdrAtBlock (hdrDevice wideUboot)
      (sub32 (Qi.Rom.ofCard 32768 (hdrDevice wideUboot)).blocks Copy.one.bend) = wideUboot.hdr := hhdr
  rw [hheader, if_pos wideUboot.magic_hdr] at hread'
  rw [hheader] at hmem
  -- the count is 0 modulo 2^16
  have hnone : Qi.ubootBlocks (hdrDevice wideUboot)
      (sub32 (Qi.Rom.ofCard 32768 (hdrDevice wideUboot)).blocks Copy.one.bend) = [] := by
    simp only [Qi.ubootBlocks, hheader, nandSize_hdr, size_wideUboot]
    exact load_zero _ _
  rw [hnone, store_nil] at hread'
  have hsame : store mem' Qi.rdMemAddr
      (load (hdrDevice wideUboot) (blk * nandBlkSize) (cnt * nandBlkSize)) = mem :=
    congrArg Prod.snd (hread.symm.trans hread')
  -- the first byte is the header's in one memory and a zero of the device in the other
  have hblk : blk = 2 := by
    have hdev : (Env.quiet wideUboot.image).deviceSize = 32768 * nandBlkSize := by
      simp [Env.quiet, zimageInitramfsSectors]
    have hwritten := writtenAt_start (p := wideUboot) hdev (by decide) (by decide) .one
      (.inl rfl : Section.uBoot = _ ∨ _)
    have := hat.unique hwritten
    rw [hstart, Pack.stanza_hdr] at this
    exact this
  have hfirst : mem Qi.rdMemAddr = byteAt wideUboot.hdr.bytes 0 := by
    rw [← hmem]
    exact (byteAt_load (d := mem) (a := Qi.rdMemAddr) (i := 0)
      (by decide : 0 < fwFileHdrSize)).symm
  rw [size_wideUboot] at hsize
  have hcnt : 0 < cnt * nandBlkSize := lt_of_lt_of_le (by decide) hsize
  have hzero : mem Qi.rdMemAddr = 0 := by
    rw [← hsame, store_apply_of_mem (le_refl _) (by rw [length_load]; omega), Nat.sub_self,
      byteAt_load hcnt, hblk]
    exact store_apply_of_ge (by rw [wideUboot.hdr.length_eq]; decide)
  exact byteAt_hdr_ne wideUboot (hfirst.symm.trans hzero)

end SmartQ.Firmware.Upgrade
