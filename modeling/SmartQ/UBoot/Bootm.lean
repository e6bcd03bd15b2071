import SmartQ.Lib.Crc32
import SmartQ.Lib.Ram

/-!
# `bootm`

Model of `do_bootm` in `u-boot/common/cmd_bootm.c` and of `do_bootm_linux` in
`u-boot/lib_arm/armlinux.c`, built with `CONFIG_ZIMAGE_BOOT`,
`CONFIG_IMAGE_BOOT` and without the MMU. Both work on the global `header`, which
an image that is rejected leaves behind, and of which the shortcut for a zImage
sets two fields.

* `doBootm_rejected`: what a rejected image leaves in the header.
* `bootm_leak_iff`: the pairs of images of which the first leaves no trace in the
  boot of the second.
-/

namespace SmartQ.UBoot.Bootm

open SmartQ.Lib

/-! ## The image header -/

/-- `image_header_t` without its name; the words in host order. -/
structure ImageHeader where
  ihMagic : ℕ
  ihHcrc : ℕ
  ihTime : ℕ
  ihSize : ℕ
  ihLoad : ℕ
  ihEp : ℕ
  ihDcrc : ℕ
  ihOs : ℕ
  ihArch : ℕ
  ihType : ℕ
  ihComp : ℕ
  deriving DecidableEq, Repr

/-- The header before any `bootm`. -/
def ImageHeader.zero : ImageHeader := ⟨0, 0, 0, 0, 0, 0, 0, 0, 0, 0, 0⟩

/-- The header in the 64 bytes `bs`. -/
def ImageHeader.ofBytes (bs : List Byte) : ImageHeader where
  ihMagic := be32At bs 0
  ihHcrc := be32At bs 4
  ihTime := be32At bs 8
  ihSize := be32At bs 12
  ihLoad := be32At bs 16
  ihEp := be32At bs 20
  ihDcrc := be32At bs 24
  ihOs := (byteAt bs 28).toNat
  ihArch := (byteAt bs 29).toNat
  ihType := (byteAt bs 30).toNat
  ihComp := (byteAt bs 31).toNat

/-- `IH_OS_NETBSD`, one of the systems that an image header names. -/
def ihOsNetbsd : ℕ := 2

/-- `IH_OS_LINUX`, the system whose loader is compiled and modelled. -/
def ihOsLinux : ℕ := 5

/-- `IH_OS_RTEMS`, one of the systems that an image header names. -/
def ihOsRtems : ℕ := 18

/-- The fields the shortcuts set: Linux, entered at `addr`. -/
def ImageHeader.linuxAt (header : ImageHeader) (addr : ℕ) : ImageHeader :=
  { header with ihOs := ihOsLinux, ihEp := addr }

@[simp] theorem ImageHeader.linuxAt_ihOs (header : ImageHeader) (addr : ℕ) :
    (header.linuxAt addr).ihOs = ihOsLinux := rfl

@[simp] theorem ImageHeader.linuxAt_ihEp (header : ImageHeader) (addr : ℕ) :
    (header.linuxAt addr).ihEp = addr := rfl

@[simp] theorem ImageHeader.linuxAt_ihType (header : ImageHeader) (addr : ℕ) :
    (header.linuxAt addr).ihType = header.ihType := rfl

/-- `sizeof(image_header_t)`: the bytes in front of the contents of an image. -/
def imageHeaderSize : ℕ := 64

/-- The bytes of the header at `addr`. -/
def headerBytes (m : Ram) (addr : ℕ) : List Byte := m.bytes addr imageHeaderSize

/-- The checksum over the header at `addr`, its own field blanked. -/
def headerCrc (m : Ram) (addr : ℕ) : ℕ :=
  crc32 ((headerBytes m addr).take 4 ++ [0, 0, 0, 0] ++ (headerBytes m addr).drop 8)

/-- `IH_MAGIC`: the first word of an image, stored with its high byte first. -/
def ihMagic : ℕ := 0x27051956

/-- `LINUX_ZIMAGE_MAGIC`: the word that a zImage has at its word 9. -/
def linuxZimageMagic : ℕ := 0x016f2818

/-- `IH_CPU_ARM`: the one processor whose images `do_bootm` takes. -/
def ihCpuArm : ℕ := 2

/-- `IH_TYPE_STANDALONE`: a program that is loaded and called, and returns. -/
def ihTypeStandalone : ℕ := 1

/-- `IH_TYPE_KERNEL`: an image of one file, which is started as the kernel. -/
def ihTypeKernel : ℕ := 2

/-- `IH_TYPE_RAMDISK`: an image that is passed on to the kernel as its initrd. -/
def ihTypeRamdisk : ℕ := 3

/-- `IH_TYPE_MULTI`: several files behind a list of their sizes; the first one is the kernel. -/
def ihTypeMulti : ℕ := 4

/-- `IH_COMP_NONE`: the contents of the image are what they stand for. -/
def ihCompNone : ℕ := 0

/-- `IH_COMP_GZIP`: the contents of the image are unpacked at the load address. -/
def ihCompGzip : ℕ := 1

/-! ## A boot attempt -/

/-- What an attempt depends on beside the memory. -/
structure BootEnv where
  /-- The environment variable `verify` is not `n`. -/
  verify : Bool
  /-- The environment variable `autostart` is `no`. -/
  autostartNo : Bool
  /-- The decompressor: the memory it leaves for a load address, a source and a
      length, `none` for an error. -/
  gunzip : Ram → ℕ → ℕ → ℕ → Option Ram
  /-- The words a scan for a zero word looks at; there are `2^30` of them. -/
  words : ℕ

/-- The arguments: the address of the image, and of an initramfs. -/
structure BootArgs where
  addr : ℕ
  addr2 : Option ℕ

/-- What becomes of an attempt: a system is started, or it ends in one of the other ways. -/
inductive Boot
  /-- The value 1, with nothing started. -/
  | rejected
  /-- The value 0: a standalone program is loaded and not started. -/
  | loaded
  /-- `do_reset`. -/
  | reset
  /-- A list of image lengths without an end. -/
  | hangs
  /-- A standalone program is called. -/
  | application (entry : ℕ)
  /-- The loader of NetBSD or RTEMS is called. -/
  | otherOs (header : ImageHeader) (addr lenPtr : ℕ)
  /-- The kernel is entered, with the range of its initrd. -/
  | linux (entry initrdStart initrdEnd : ℕ)
  deriving DecidableEq, Repr

/-- An attempt: its outcome, whether it followed `len_ptr` while that was `NULL`,
    and the header it left. -/
structure BootRun where
  outcome : Boot
  nullRead : Bool
  header : ImageHeader

variable (e : BootEnv) (m : Ram)

/-- The word at `a`. -/
def wordAt (a : ℕ) : ℕ := u32At (m.bytes a 4) 0

/-- The big-endian word at `a`. -/
def be32 (a : ℕ) : ℕ := be32At (m.bytes a 4) 0

/-- How many words from `a` on are not zero; `none` if there is no zero among
    `fuel` of them. -/
def wordsUntilZero (a : ℕ) : ℕ → Option ℕ
  | 0 => none
  | fuel + 1 => if wordAt m a = 0 then some 0 else (wordsUntilZero (a + 4) fuel).map (· + 1)

/-- The range passed to the kernel for `len` bytes at `data`. -/
def enterLinux (entry data len : ℕ) : Boot :=
  if data ≠ 0 then .linux entry data (add32 data len) else .linux entry 0 0

/-- The initramfs at `addr` (lines 102–177 of `armlinux.c`). -/
def loadRamdisk (entry addr : ℕ) : BootRun :=
  let hdr := ImageHeader.ofBytes (headerBytes m addr)
  let data := add32 addr imageHeaderSize
  let outcome :=
    if hdr.ihMagic ≠ ihMagic then .reset
    else if headerCrc m addr ≠ hdr.ihHcrc then .reset
    else if e.verify ∧ crc32 (m.bytes data hdr.ihSize) ≠ hdr.ihDcrc then .reset
    else if hdr.ihOs ≠ ihOsLinux ∨ hdr.ihArch ≠ ihCpuArm ∨ hdr.ihType ≠ ihTypeRamdisk then .reset
    else enterLinux entry data hdr.ihSize
  ⟨outcome, false, { hdr with ihHcrc := 0 }⟩

/-- The initrd in a multi-file image with its lengths at `lenPtr` (lines
    179–197). -/
def multiInitrd (entry lenPtr : ℕ) : Boot :=
  match wordsUntilZero m (lenPtr + 4) e.words with
  | none => .hangs
  | some n =>
    let kernelLen := be32 m lenPtr
    let tail := kernelLen % 4
    let data := lenPtr + 8 + 4 * n + kernelLen + (if tail = 0 then 0 else 4 - tail)
    enterLinux entry (data % 2 ^ 32) (be32 m (lenPtr + 4))

/-- `do_bootm_linux`; `none` is a `len_ptr` that is `NULL`. -/
def doBootmLinux (header : ImageHeader) (a : BootArgs) (lenPtr : Option ℕ) : BootRun :=
  match a.addr2 with
  | some addr => loadRamdisk e m header.ihEp addr
  | none =>
    if header.ihType = ihTypeMulti then
      if wordAt m (lenPtr.getD 0 + 4) ≠ 0 then
        ⟨multiInitrd e m header.ihEp (lenPtr.getD 0), lenPtr.isNone, header⟩
      else ⟨.linux header.ihEp 0 0, lenPtr.isNone, header⟩
    else ⟨.linux header.ihEp 0 0, false, header⟩

/-- From `after_header_check` on (lines 431–476): the loader of the system that the header
    names. -/
def afterHeaderCheck (header : ImageHeader) (a : BootArgs) (lenPtr : Option ℕ) : BootRun :=
  if header.ihOs = ihOsNetbsd ∨ header.ihOs = ihOsRtems then
    ⟨.otherOs header a.addr (lenPtr.getD 0), false, header⟩
  else doBootmLinux e m header a lenPtr

/-- Loading an image and starting it (lines 331–429), `data` and `len` being its
    contents. -/
def loadImage (header : ImageHeader) (a : BootArgs) (data len : ℕ) : BootRun :=
  let start := fun m : Ram =>
    if header.ihType = ihTypeStandalone then
      if e.autostartNo then ⟨.loaded, false, header⟩
      else ⟨.application header.ihEp, false, header⟩
    else afterHeaderCheck e m header a (some (add32 a.addr imageHeaderSize))
  if header.ihComp = ihCompNone then
    start (if header.ihLoad = a.addr then m else m.set header.ihLoad (m.bytes data len))
  else if header.ihComp = ihCompGzip then
    match e.gunzip m header.ihLoad data len with
    | none => ⟨.reset, false, header⟩
    | some m' => start m'
  else ⟨.rejected, false, header⟩

/-- The checks of an image with the magic (lines 217–329). -/
def checkImage (header : ImageHeader) (a : BootArgs) : BootRun :=
  let checksum := header.ihHcrc
  let header := { header with ihHcrc := 0 }
  let data := add32 a.addr imageHeaderSize
  if headerCrc m a.addr ≠ checksum then ⟨.rejected, false, header⟩
  else if e.verify ∧ crc32 (m.bytes data header.ihSize) ≠ header.ihDcrc then
    ⟨.rejected, false, header⟩
  else if header.ihArch ≠ ihCpuArm then ⟨.rejected, false, header⟩
  else if header.ihType = ihTypeStandalone then
    let header := { header with ihLoad := a.addr2.getD header.ihLoad }
    loadImage e m header a data header.ihSize
  else if header.ihType = ihTypeKernel then loadImage e m header a data header.ihSize
  else if header.ihType = ihTypeMulti then
    match wordsUntilZero m (data + 4) e.words with
    | none => ⟨.hangs, false, header⟩
    | some n => loadImage e m header a ((data + 8 + 4 * n) % 2 ^ 32) (be32 m data)
  else ⟨.rejected, false, header⟩

/-- `do_bootm` on the header `header`, which is static and keeps what was read last. -/
def doBootm (header : ImageHeader) (a : BootArgs) : BootRun :=
  if wordAt m (a.addr + 9 * 4) = linuxZimageMagic then
    afterHeaderCheck e m (header.linuxAt a.addr) a none
  else
    let header := ImageHeader.ofBytes (headerBytes m a.addr)
    if header.ihMagic ≠ ihMagic then
      afterHeaderCheck e m { header.linuxAt a.addr with ihComp := ihCompNone } a none
    else checkImage e m header a

/-! ## Rejections -/

section Rejected

variable {e m} {header : ImageHeader} {a : BootArgs} {lenPtr : Option ℕ}

theorem enterLinux_ne_rejected (entry data len : ℕ) : enterLinux entry data len ≠ .rejected := by
  unfold enterLinux
  split_ifs <;> exact Boot.noConfusion

theorem loadRamdisk_ne_rejected (entry addr : ℕ) :
    (loadRamdisk e m entry addr).outcome ≠ .rejected := by
  unfold loadRamdisk
  dsimp only
  split_ifs
  · exact Boot.noConfusion
  · exact Boot.noConfusion
  · exact Boot.noConfusion
  · exact Boot.noConfusion
  · exact enterLinux_ne_rejected _ _ _

theorem multiInitrd_ne_rejected (entry lenPtr : ℕ) : multiInitrd e m entry lenPtr ≠ .rejected := by
  unfold multiInitrd
  cases wordsUntilZero m (lenPtr + 4) e.words with
  | none => exact Boot.noConfusion
  | some n =>
    exact enterLinux_ne_rejected _ _ _

/-- Behind the checks nothing is rejected. -/
theorem afterHeaderCheck_ne_rejected : (afterHeaderCheck e m header a lenPtr).outcome ≠ .rejected := by
  unfold afterHeaderCheck doBootmLinux
  by_cases hos : header.ihOs = ihOsNetbsd ∨ header.ihOs = ihOsRtems
  · rw [if_pos hos]
    exact Boot.noConfusion
  · rw [if_neg hos]
    cases a.addr2 with
    | some addr => exact loadRamdisk_ne_rejected _ _
    | none =>
      dsimp only
      split_ifs
      · exact multiInitrd_ne_rejected _ _
      · exact Boot.noConfusion
      · exact Boot.noConfusion

/-- Only an unknown compression is found when an image is loaded. -/
theorem loadImage_rejected {data len : ℕ}
    (h : (loadImage e m header a data len).outcome = .rejected) :
    (loadImage e m header a data len).header = header := by
  unfold loadImage at h ⊢
  dsimp only at h ⊢
  have hstart : ∀ m' : Ram, (if header.ihType = ihTypeStandalone then
      if e.autostartNo then (⟨.loaded, false, header⟩ : BootRun)
      else ⟨.application header.ihEp, false, header⟩
    else afterHeaderCheck e m' header a (some (add32 a.addr imageHeaderSize))).outcome ≠
      .rejected := by
    intro m'
    split_ifs
    · exact Boot.noConfusion
    · exact Boot.noConfusion
    · exact afterHeaderCheck_ne_rejected
  by_cases hnone : header.ihComp = ihCompNone
  · rw [if_pos hnone] at h
    exact (hstart _ h).elim
  · rw [if_neg hnone] at h ⊢
    by_cases hgzip : header.ihComp = ihCompGzip
    · rw [if_pos hgzip] at h
      cases hz : e.gunzip m header.ihLoad data len with
      | none =>
        rw [hz] at h
        cases h
      | some m' =>
        rw [hz] at h
        exact (hstart m' h).elim
    · rw [if_neg hgzip]

/-- A rejected image leaves its own type in the header. -/
theorem checkImage_rejected (h : (checkImage e m header a).outcome = .rejected) :
    (checkImage e m header a).header.ihType = header.ihType := by
  unfold checkImage at h ⊢
  dsimp only at h ⊢
  split_ifs at h ⊢ with hcrc hdata harch halone hkernel hmulti
  · rfl
  · rfl
  · rfl
  · rw [loadImage_rejected h]
  · rw [loadImage_rejected h]
  · cases hn : wordsUntilZero m (add32 a.addr imageHeaderSize + 4) e.words with
    | none => rfl
    | some n =>
      rw [hn] at h
      simp only
      rw [loadImage_rejected h]
  · rfl

/-- The image at `addr` takes the shortcut for a zImage. -/
def IsZImage (m : Ram) (addr : ℕ) : Prop := wordAt m (addr + 9 * 4) = linuxZimageMagic

/-- The image at `addr` takes the shortcut for a raw image. -/
def IsRawImage (m : Ram) (addr : ℕ) : Prop :=
  ¬ IsZImage m addr ∧ (ImageHeader.ofBytes (headerBytes m addr)).ihMagic ≠ ihMagic

/-- The byte an image has where a header has its type. -/
def imageType (m : Ram) (addr : ℕ) : ℕ := (byteAt (headerBytes m addr) 30).toNat

theorem doBootm_zImage (h : IsZImage m a.addr) :
    doBootm e m header a = afterHeaderCheck e m (header.linuxAt a.addr) a none := if_pos h

theorem doBootm_raw (h : IsRawImage m a.addr) :
    doBootm e m header a = afterHeaderCheck e m
      { (ImageHeader.ofBytes (headerBytes m a.addr)).linuxAt a.addr with ihComp := ihCompNone }
      a none :=
  (if_neg h.1).trans (if_pos h.2)

theorem doBootm_image (hz : ¬ IsZImage m a.addr) (hr : ¬ IsRawImage m a.addr) :
    doBootm e m header a =
      checkImage e m (ImageHeader.ofBytes (headerBytes m a.addr)) a := by
  refine (if_neg hz).trans (if_neg ?_)
  intro hmagic
  exact hr ⟨hz, hmagic⟩

/-- What a rejected image leaves in the header. -/
theorem doBootm_rejected (h : (doBootm e m header a).outcome = .rejected) :
    (doBootm e m header a).header.ihType = imageType m a.addr := by
  by_cases hz : IsZImage m a.addr
  · rw [doBootm_zImage hz] at h
    exact (afterHeaderCheck_ne_rejected h).elim
  · by_cases hr : IsRawImage m a.addr
    · rw [doBootm_raw hr] at h
      exact (afterHeaderCheck_ne_rejected h).elim
    · rw [doBootm_image hz hr] at h ⊢
      exact checkImage_rejected h

end Rejected

/-! ## The shortcuts -/

section Shortcut

variable {e m} {h h' : ImageHeader} {a : BootArgs}

/-- Both shortcuts lead to Linux. -/
theorem afterHeaderCheck_linux (hos : h.ihOs = ihOsLinux) (lenPtr : Option ℕ) :
    afterHeaderCheck e m h a lenPtr = doBootmLinux e m h a lenPtr := by
  unfold afterHeaderCheck
  rw [hos]
  exact if_neg (by decide)

theorem doBootm_zImage_linux (hz : IsZImage m a.addr) :
    doBootm e m h a = doBootmLinux e m (h.linuxAt a.addr) a none := by
  rw [doBootm_zImage hz, afterHeaderCheck_linux (h.linuxAt_ihOs a.addr)]

/-- The header a raw image is booted with: its own first bytes. -/
def rawHeader (m : Ram) (addr : ℕ) : ImageHeader :=
  { (ImageHeader.ofBytes (headerBytes m addr)).linuxAt addr with ihComp := ihCompNone }

theorem doBootm_raw_linux (hr : IsRawImage m a.addr) :
    doBootm e m h a = doBootmLinux e m (rawHeader m a.addr) a none := by
  have hos : (rawHeader m a.addr).ihOs = ihOsLinux := rfl
  rw [doBootm_raw hr, ← rawHeader, afterHeaderCheck_linux hos]

@[simp] theorem rawHeader_ihType (m : Ram) (addr : ℕ) :
    (rawHeader m addr).ihType = imageType m addr := rfl

theorem nullRead_loadRamdisk (entry addr : ℕ) : (loadRamdisk e m entry addr).nullRead = false := by
  unfold loadRamdisk
  rfl

/-- With an initramfs `len_ptr` is not looked at. -/
theorem doBootmLinux_ramdisk {addr : ℕ} (ha : a.addr2 = some addr) (lenPtr : Option ℕ) :
    doBootmLinux e m h a lenPtr = loadRamdisk e m h.ihEp addr := by
  unfold doBootmLinux
  rw [ha]

/-- Without one a header of another type leaves it alone. -/
theorem doBootmLinux_plain (ha : a.addr2 = none) (htype : h.ihType ≠ ihTypeMulti)
    (lenPtr : Option ℕ) : doBootmLinux e m h a lenPtr = ⟨.linux h.ihEp 0 0, false, h⟩ := by
  unfold doBootmLinux
  rw [ha]
  exact if_neg htype

/-- A header of type `IH_TYPE_MULTI` has it followed. -/
theorem nullRead_multi (ha : a.addr2 = none) (htype : h.ihType = ihTypeMulti) :
    (doBootmLinux e m h a none).nullRead = true := by
  unfold doBootmLinux
  rw [ha]
  simp only [if_pos htype]
  split_ifs <;> rfl

end Shortcut

/-! ## The result -/

/-- The attempt `b` on memory `m` is the same after the header `left` as at first,
    and a shortcut does not follow `len_ptr`. -/
structure Traceless (e : BootEnv) (m : Ram) (left : ImageHeader) (b : BootArgs) : Prop where
  same : (doBootm e m left b).outcome = (doBootm e m .zero b).outcome
  noNull : IsZImage m b.addr ∨ IsRawImage m b.addr → (doBootm e m left b).nullRead = false

/-- A rejected image leaves no trace exactly if the next one comes with an initramfs,
    or neither is a zImage behind a multi-file header nor a raw image that looks like
    one. -/
theorem bootm_leak_iff (e : BootEnv) (mA mB : Ram) (A B : BootArgs)
    (hA : (doBootm e mA .zero A).outcome = .rejected) :
    Traceless e mB (doBootm e mA .zero A).header B ↔
      (B.addr2 = none →
        (IsZImage mB B.addr → imageType mA A.addr ≠ ihTypeMulti) ∧
        (IsRawImage mB B.addr → imageType mB B.addr ≠ ihTypeMulti)) := by
  have htype := doBootm_rejected hA
  generalize (doBootm e mA .zero A).header = left at htype
  constructor
  · intro h hnone
    constructor
    · intro hz hmulti
      have hnull := h.noNull (Or.inl hz)
      have hleft : (left.linuxAt B.addr).ihType = ihTypeMulti := by
        rw [ImageHeader.linuxAt_ihType, htype, hmulti]
      rw [doBootm_zImage_linux hz, nullRead_multi hnone hleft] at hnull
      cases hnull
    · intro hr hmulti
      have hnull := h.noNull (Or.inr hr)
      have hraw : (rawHeader mB B.addr).ihType = ihTypeMulti := by
        rw [rawHeader_ihType, hmulti]
      rw [doBootm_raw_linux hr, nullRead_multi hnone hraw] at hnull
      cases hnull
  · intro h
    by_cases hz : IsZImage mB B.addr
    · cases hB : B.addr2 with
      | some addr =>
        constructor
        · rw [doBootm_zImage_linux hz, doBootm_zImage_linux hz, doBootmLinux_ramdisk hB,
            doBootmLinux_ramdisk hB, ImageHeader.linuxAt_ihEp, ImageHeader.linuxAt_ihEp]
        · intro _
          rw [doBootm_zImage_linux hz, doBootmLinux_ramdisk hB, nullRead_loadRamdisk]
      | none =>
        have hleft : (left.linuxAt B.addr).ihType ≠ ihTypeMulti := by
          rw [ImageHeader.linuxAt_ihType, htype]
          exact (h hB).1 hz
        have hzero : (ImageHeader.zero.linuxAt B.addr).ihType ≠ ihTypeMulti := by
          rw [ImageHeader.linuxAt_ihType]
          decide
        constructor
        · rw [doBootm_zImage_linux hz, doBootm_zImage_linux hz, doBootmLinux_plain hB hleft,
            doBootmLinux_plain hB hzero]
          simp only [ImageHeader.linuxAt_ihEp]
        · intro _
          rw [doBootm_zImage_linux hz, doBootmLinux_plain hB hleft]
    · by_cases hr : IsRawImage mB B.addr
      · constructor
        · rw [doBootm_raw_linux hr, doBootm_raw_linux hr]
        · intro _
          rw [doBootm_raw_linux hr]
          cases hB : B.addr2 with
          | some addr => rw [doBootmLinux_ramdisk hB, nullRead_loadRamdisk]
          | none =>
            have hraw : (rawHeader mB B.addr).ihType ≠ ihTypeMulti := by
              rw [rawHeader_ihType]
              exact (h hB).2 hr
            rw [doBootmLinux_plain hB hraw]
      · constructor
        · rw [doBootm_image hz hr, doBootm_image hz hr]
        · intro hshort
          exact (hshort.elim hz hr).elim

/-- An image header of type `ty` without its checksum, where the kernel is loaded. -/
def brokenImage (ty : Byte) : Ram :=
  Ram.set (fun _ => 0) 0x50008000
    ([0x27, 0x05, 0x19, 0x56] ++ List.replicate 26 0 ++ [ty] ++ List.replicate 33 0)

/-- A memory with the mark of a zImage at the address where kernels are loaded, and zeros
    elsewhere. -/
def zImage : Ram := Ram.set (fun _ => 0) (0x50008000 + 9 * 4) [0x18, 0x28, 0x6f, 0x01]

/-- The attempts of `do_start_firmware`. -/
def kernelOnly : BootArgs := ⟨0x50008000, none⟩

/-- `do_bootm` verifies what it loads; nothing here is compressed. -/
def plainEnv : BootEnv := ⟨true, false, fun _ _ _ _ => none, 2 ^ 30⟩

theorem isZImage_zImage : IsZImage zImage kernelOnly.addr := by
  unfold IsZImage
  decide

/-- The header is rejected for its checksum. -/
theorem brokenImage_rejected (e : BootEnv) {ty : Byte}
    (hz : wordAt (brokenImage ty) (kernelOnly.addr + 9 * 4) ≠ linuxZimageMagic)
    (hmagic : (ImageHeader.ofBytes (headerBytes (brokenImage ty) kernelOnly.addr)).ihMagic = ihMagic)
    (hcrc : headerCrc (brokenImage ty) kernelOnly.addr ≠
      (ImageHeader.ofBytes (headerBytes (brokenImage ty) kernelOnly.addr)).ihHcrc) :
    (doBootm e (brokenImage ty) .zero kernelOnly).outcome = .rejected := by
  have hraw : ¬ IsRawImage (brokenImage ty) kernelOnly.addr := fun h => h.2 hmagic
  rw [doBootm_image hz hraw, checkImage]
  simp only [if_pos hcrc]

/-- A zImage behind a rejected kernel image boots as ever. -/
theorem bootm_leak_kernel :
    Traceless plainEnv zImage (doBootm plainEnv (brokenImage 2) .zero kernelOnly).header
      kernelOnly := by
  have hrej : (doBootm plainEnv (brokenImage 2) .zero kernelOnly).outcome = .rejected :=
    brokenImage_rejected plainEnv (by decide +kernel) (by decide +kernel) (by decide +kernel)
  apply (bootm_leak_iff plainEnv (brokenImage 2) zImage kernelOnly kernelOnly hrej).mpr
  intro _
  constructor
  · intro _
    decide
  · intro hraw
    exact (hraw.1 isZImage_zImage).elim

/-- Behind a rejected multi-file image it follows a null pointer. -/
theorem bootm_leak_multi :
    ¬ ∀ (e : BootEnv) (mA mB : Ram) (A B : BootArgs),
      (doBootm e mA .zero A).outcome = .rejected →
      Traceless e mB (doBootm e mA .zero A).header B := by
  intro h
  have hrej : (doBootm plainEnv (brokenImage 4) .zero kernelOnly).outcome = .rejected :=
    brokenImage_rejected plainEnv (by decide +kernel) (by decide +kernel) (by decide +kernel)
  have htype : imageType (brokenImage 4) kernelOnly.addr = ihTypeMulti := by decide
  have hleft : ((doBootm plainEnv (brokenImage 4) .zero kernelOnly).header.linuxAt
      kernelOnly.addr).ihType = ihTypeMulti := by
    rw [ImageHeader.linuxAt_ihType, doBootm_rejected hrej, htype]
  have hnull := (h plainEnv (brokenImage 4) zImage kernelOnly kernelOnly hrej).noNull
    (Or.inl isZImage_zImage)
  rw [doBootm_zImage_linux isZImage_zImage, nullRead_multi rfl hleft] at hnull
  cases hnull

end SmartQ.UBoot.Bootm
