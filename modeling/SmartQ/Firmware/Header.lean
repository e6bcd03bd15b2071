import SmartQ.Lib.Disk

/-!
# The firmware file header

Model of `fw-utils/firmware_header.h`: the 176-byte header that `mkSmartQ`
writes at the front of a firmware file and that `upgrade` copies to the flash
in front of each firmware copy, where Qi and U-Boot read it again.

The programs overlay `struct _firmware_fileheader` on 176 bytes, so the header
is those bytes and its fields are views of them (`FWFileHdr.magic`, …). Every
field is below `2^32` (`u32At_lt`).

* `FWFileHdr.sum_setCheckSum`: storing the check sum leaves the summed bytes
  alone, so a header made by storing its own sum is accepted.
-/

namespace SmartQ.Firmware

open SmartQ.Lib

/-- `HEAD_MAGIC`, the first word of every header; `upgrade`, Qi and U-Boot all look for it. -/
def headMagic : ℕ := 0x39000032

/-- `NANDBLKSIZE`, `INAND_BLOCK_SIZE`: the unit in which the headers and the boot programs count
    the device. -/
def nandBlkSize : ℕ := 512

/-- `MACH_TYPE_SMARTQ5`, the machine number in the header of a firmware for the SmartQ5. -/
def machTypeSmartQ5 : ℕ := 2534

/-- `MACH_TYPE_SMARTQ7`, the machine number in the header of a firmware for the SmartQ7. -/
def machTypeSmartQ7 : ℕ := 2479

/-- `enum sections` up to `MAX_SECTIONS`: the parts of a firmware, in the order of the file. -/
inductive Section
  | qi | uBoot | zimage | initramfs | rootfs | homefs
  deriving DecidableEq, Repr

/-- The position of a section in `enum sections`. -/
def Section.idx : Section → ℕ
  | .qi => 0
  | .uBoot => 1
  | .zimage => 2
  | .initramfs => 3
  | .rootfs => 4
  | .homefs => 5

/-- The six sections in order. -/
def Section.all : List Section := [.qi, .uBoot, .zimage, .initramfs, .rootfs, .homefs]

/-- An offset and a size of `struct stanza`. -/
structure Extent where
  offset : ℕ
  size : ℕ
  deriving DecidableEq, Repr

/-- `struct stanza`: where a section lies in the firmware file, where it goes on the device, and
    its byte sum. -/
structure Stanza where
  file : Extent
  nand : Extent
  checkSum : ℕ
  deriving DecidableEq, Repr

/-- `sizeof(firmware_fileheader)`: 56 bytes and six stanzas of 20. -/
def fwFileHdrSize : ℕ := 176

/-- `firmware_fileheader`: its 176 bytes, of which the fields are views. -/
@[ext]
structure FWFileHdr where
  bytes : List Byte
  length_eq : bytes.length = fwFileHdrSize

namespace FWFileHdr

variable (h : FWFileHdr)

/-- `magic`, the word that `upgrade`, Qi and U-Boot compare with `HEAD_MAGIC` before they use a
    header. -/
def magic : ℕ := u32At h.bytes 0

/-- `check_sum`, the sum of the bytes of the header behind this field, which `extract` works out
    anew. -/
def checkSum : ℕ := u32At h.bytes 4

/-- `fh_size`, the length of the header, up to which `extract` reads it into its own structure. -/
def fhSize : ℕ := u32At h.bytes 8

/-- `version` of the firmware, which is printed and not checked by any of the programs. -/
def version : ℕ := u32At h.bytes 12

/-- `date`, the time at which `mkSmartQ` has put the file together. -/
def date : ℕ := u32At h.bytes 16
/-- `char vendor[28]`, behind the first five words of the header. -/
def vendor : List Byte := (h.bytes.drop 20).take 28

/-- `mach_type`, by which the programs tell a SmartQ5 from a SmartQ7. -/
def machType : ℕ := u32At h.bytes 48

/-- `component_count`, the number of stanzas that follow the fields above. -/
def componentCount : ℕ := u32At h.bytes 52

end FWFileHdr

/-- `FW_STANZA_OFFSET`: where the stanza of a section lies in the header. -/
def fwStanzaOffset (s : Section) : ℕ := 56 + 20 * s.idx

/-- The stanza at offset `o` of the header bytes. -/
def stanzaAt (bs : List Byte) (o : ℕ) : Stanza where
  file := ⟨u32At bs o, u32At bs (o + 4)⟩
  nand := ⟨u32At bs (o + 8), u32At bs (o + 12)⟩
  checkSum := u32At bs (o + 16)

/-- The stanza of a section: `fw_fh->qi`, `fw_fh->u_boot`, … -/
def FWFileHdr.stanza (h : FWFileHdr) (s : Section) : Stanza := stanzaAt h.bytes (fwStanzaOffset s)

/-- The bytes of a stanza. -/
def Stanza.toBytes (s : Stanza) : List Byte :=
  le32 s.file.offset ++ le32 s.file.size ++ le32 s.nand.offset ++ le32 s.nand.size ++
    le32 s.checkSum

@[simp] theorem Stanza.length_toBytes (s : Stanza) : s.toBytes.length = 20 := rfl

/-- Every field is a `uint32_t`, so that the stanza can be stored in its 20 bytes. -/
structure Stanza.Fits (s : Stanza) : Prop where
  fileOffset : s.file.offset < 2 ^ 32
  fileSize : s.file.size < 2 ^ 32
  nandOffset : s.nand.offset < 2 ^ 32
  nandSize : s.nand.size < 2 ^ 32
  checkSum : s.checkSum < 2 ^ 32

theorem stanzaAt_fits (bs : List Byte) (o : ℕ) : (stanzaAt bs o).Fits :=
  ⟨u32At_lt _ _, u32At_lt _ _, u32At_lt _ _, u32At_lt _ _, u32At_lt _ _⟩

theorem FWFileHdr.stanza_fits (h : FWFileHdr) (s : Section) : (h.stanza s).Fits := stanzaAt_fits _ _

/-- A stanza stored after a prefix is read back at that offset. -/
theorem stanzaAt_toBytes (xs ys : List Byte) {s : Stanza} (h : s.Fits) :
    stanzaAt (xs ++ (s.toBytes ++ ys)) xs.length = s := by
  have hword : ∀ (pre post : List Byte) (v o : ℕ), v < 2 ^ 32 → o = xs.length + pre.length →
      xs ++ (s.toBytes ++ ys) = (xs ++ pre) ++ (le32 v ++ post) →
      u32At (xs ++ (s.toBytes ++ ys)) o = v := by
    intro pre post v o hv ho heq
    rw [heq, ho, ← List.length_append, u32At_le32, Nat.mod_eq_of_lt hv]
  obtain ⟨⟨fo, fs⟩, ⟨no, ns⟩, cs⟩ := s
  simp only [stanzaAt, Stanza.mk.injEq, Extent.mk.injEq]
  refine ⟨⟨?_, ?_⟩, ⟨?_, ?_⟩, ?_⟩
  · exact hword [] _ fo _ h.fileOffset rfl (by simp [Stanza.toBytes]; rfl)
  · exact hword (le32 fo) _ fs _ h.fileSize rfl (by simp [Stanza.toBytes]; rfl)
  · exact hword (le32 fo ++ le32 fs) _ no _ h.nandOffset rfl (by simp [Stanza.toBytes]; rfl)
  · exact hword (le32 fo ++ le32 fs ++ le32 no) _ ns _ h.nandSize rfl (by simp [Stanza.toBytes]; rfl)
  · exact hword (le32 fo ++ le32 fs ++ le32 no ++ le32 ns) _ cs _ h.checkSum rfl
      (by simp [Stanza.toBytes]; rfl)

/-- The header at address `a` of a device or of memory. -/
def hdrAt (d : Disk) (a : ℕ) : FWFileHdr where
  bytes := load d a fwFileHdrSize
  length_eq := length_load _ _ _

theorem hdrAt_congr {d d' : Disk} {a a' : ℕ} (h : load d a fwFileHdrSize = load d' a' fwFileHdrSize) :
    hdrAt d a = hdrAt d' a' := FWFileHdr.ext h

/-! ## The header check sum -/

/-- The sum `get_fw_fh_check_sum` of `mkSmartQ.c` (lines 127–135) forms: the
    bytes from offset 8 to the end of the header. -/
def FWFileHdr.sum (h : FWFileHdr) : ℕ := byteSum (h.bytes.drop 8) % 2 ^ 32

/-- `fw_fh->check_sum = v`: the second word of the header is replaced, all others stay. -/
def FWFileHdr.setCheckSum (h : FWFileHdr) (v : ℕ) : FWFileHdr where
  bytes := h.bytes.take 4 ++ (le32 v ++ h.bytes.drop 8)
  length_eq := by
    have := h.length_eq
    simp [fwFileHdrSize] at *
    omega

theorem FWFileHdr.drop_setCheckSum (h : FWFileHdr) (v : ℕ) :
    (h.setCheckSum v).bytes.drop 8 = h.bytes.drop 8 := by
  have hl : (h.bytes.take 4).length = 4 := by
    have := h.length_eq
    simp [fwFileHdrSize] at *
    omega
  show List.drop 8 (h.bytes.take 4 ++ (le32 v ++ h.bytes.drop 8)) = _
  rw [← List.append_assoc, List.drop_left' (by simp [hl])]

@[simp] theorem FWFileHdr.sum_setCheckSum (h : FWFileHdr) (v : ℕ) :
    (h.setCheckSum v).sum = h.sum := by
  unfold FWFileHdr.sum
  rw [FWFileHdr.drop_setCheckSum]

theorem FWFileHdr.checkSum_setCheckSum (h : FWFileHdr) {v : ℕ} (hv : v < 2 ^ 32) :
    (h.setCheckSum v).checkSum = v := by
  have hl : (h.bytes.take 4).length = 4 := by
    have := h.length_eq
    simp [fwFileHdrSize] at *
    omega
  have := u32At_le32 (h.bytes.take 4) (h.bytes.drop 8) v
  rw [hl, Nat.mod_eq_of_lt hv] at this
  exact this

end SmartQ.Firmware
