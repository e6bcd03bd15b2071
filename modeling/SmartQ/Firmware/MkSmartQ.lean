import SmartQ.Firmware.Header

/-!
# `mkSmartQ`: building a firmware file

Model of `fw-utils/mkSmartQ.c`: the section table, the header it fills in and
the file it writes. `mkSmartQ` runs with four to six section files, each of
which may be `"."` (skipped); missing arguments leave their section empty.
File reads return everything asked for and `cat` appends a whole file.

* `Pack.stanza_hdr`: the stanza of every section, from its bytes in the header.
* `getCheckSum_eq`: the chunked reader sums exactly the requested bytes.
* `Pack.image_section`: a section's bytes stand where its stanza says.
-/

namespace SmartQ.Firmware

open SmartQ.Lib

/-! ## Model -/

/-- `SIZE_PER_READ`: `get_check_sum` of the packer reads a section in pieces of 4 MB. -/
def sizePerRead : ℕ := 4 * 1024 * 1024

/-- The `while` loop and the final read of `get_check_sum` (lines 81–89), on
    the rest of the file; `ret` is an `int` returned as `uint32_t`. -/
def getCheckSumLoop (rest : List Byte) (remnantSize : ℕ) : ℕ :=
  if remnantSize / sizePerRead > 0 then
    add32 (byteSum (rest.take sizePerRead))
      (getCheckSumLoop (rest.drop sizePerRead) (remnantSize - sizePerRead))
  else byteSum (rest.take remnantSize) % 2 ^ 32
termination_by remnantSize
decreasing_by simp only [sizePerRead] at *; omega

/-- `get_check_sum(file_name, file_size)` (lines 69–94) on a readable file. A
    negative `file_size` skips the loop, `read` refuses the count, and the sum
    of a negative number of bytes is 0. -/
def getCheckSum (file : List Byte) (fileSize : ℤ) : ℕ :=
  if fileSize < 0 then 0 else getCheckSumLoop file fileSize.toNat

/-- One run of `mkSmartQ`: `argv[1] …` (`none` is `"."`), the device the
    binary's name selects and the time. -/
structure Pack where
  components : List (Option (List Byte))
  machType : ℕ
  date : ℕ
  argc : 4 ≤ components.length ∧ components.length ≤ 6
  device : machType = machTypeSmartQ5 ∨ machType = machTypeSmartQ7

/-- `mkSmartQ7` run with the four required files. -/
def Pack.ofFour (qi uBoot zimage initramfs : List Byte) : Pack where
  components := [some qi, some uBoot, some zimage, some initramfs]
  machType := machTypeSmartQ7
  date := 0
  argc := by simp
  device := .inr rfl

namespace Pack

variable (p : Pack)

/-- The file given for a section, if there is one. -/
def content (s : Section) : Option (List Byte) := (p.components[s.idx]?).join

/-- `sects[i].fileSize`: `st_size` stored in a `uint32_t`. -/
def fileSize (s : Section) : ℕ := ((p.content s).getD []).length % 2 ^ 32

/-- `sects[i].checkSum`; `get_check_sum` takes `st_size` as an `int`. -/
def checkSum (s : Section) : ℕ :=
  match p.content s with
  | none => 0
  | some file => getCheckSum file (int32 file.length)

/-- The `nandOffset` column of `sects` (lines 50–58). -/
def nandOffset : Section → ℕ
  | .qi => 0
  | .uBoot => 2
  | .zimage => 512 + 2
  | .initramfs => 4096
  | .rootfs => 0
  | .homefs => 0

/-- The stanza the loop body of `fill_fw_fh` (lines 114–124) fills for `s`. -/
def fillStanza (fileOffset : ℕ) (s : Section) : Stanza where
  file := ⟨fileOffset, p.fileSize s⟩
  nand := ⟨nandOffset s, p.fileSize s⟩
  checkSum := p.checkSum s

/-- The loop of `fill_fw_fh` (lines 114–124). -/
def fillStanzas : ℕ → List Section → List Stanza
  | _, [] => []
  | fileOffset, s :: ss =>
    p.fillStanza fileOffset s :: fillStanzas (add32 fileOffset (p.fileSize s)) ss

/-- `vendor`: `"hhtech"` in 28 zero bytes. -/
def vendorField : List Byte :=
  [0x68, 0x68, 0x74, 0x65, 0x63, 0x68] ++ List.replicate 22 0

/-- The fields in front of the stanzas, `check_sum` still zero. -/
def preamble : List Byte :=
  le32 headMagic ++ le32 0 ++ le32 fwFileHdrSize ++ le32 1 ++ le32 p.date ++ vendorField ++
    le32 p.machType ++ le32 6

/-- `fill_fw_fh` (lines 96–125) on a `calloc`ed header. -/
def fillFwFh : FWFileHdr where
  bytes := p.preamble ++ (p.fillStanzas fwFileHdrSize Section.all).flatMap Stanza.toBytes
  length_eq := rfl

/-- The header written to the file (lines 200–216). -/
def hdr : FWFileHdr := p.fillFwFh.setCheckSum p.fillFwFh.sum

/-- The firmware file: the header, then every argument that is not `"."`
    (lines 216–227). -/
def image : List Byte := p.hdr.bytes ++ (p.components.map fun c => c.getD []).flatten

/-- The `fileOffset` of a section when the loop reaches it: the sizes of the
    sections before it, added up as `unsigned`. -/
def fileOffset (s : Section) : ℕ :=
  (Section.all.take s.idx).foldl (fun o t => add32 o (p.fileSize t)) fwFileHdrSize

end Pack

/-! ## The check sum of a section -/

theorem getCheckSumLoop_eq (rest : List Byte) (n : ℕ) :
    getCheckSumLoop rest n = byteSum (rest.take n) % 2 ^ 32 := by
  induction rest, n using getCheckSumLoop.induct with
  | case1 rest n h ih =>
    have hn : sizePerRead ≤ n := by
      simp only [sizePerRead] at *
      omega
    have hsplit := byteSum_take_drop (rest.take n) sizePerRead
    rw [List.take_take, List.drop_take, Nat.min_eq_left hn] at hsplit
    rw [getCheckSumLoop, if_pos h, ih, ← hsplit, add32]
    omega
  | case2 rest n h => rw [getCheckSumLoop, if_neg h]

/-- The chunked reader returns the byte sum of the first `n` bytes. -/
theorem getCheckSum_eq (file : List Byte) (n : ℕ) :
    getCheckSum file n = byteSum (file.take n) % 2 ^ 32 := by
  rw [getCheckSum, if_neg (by omega), Int.toNat_natCast, getCheckSumLoop_eq]

theorem getCheckSum_lt (file : List Byte) (n : ℤ) : getCheckSum file n < 2 ^ 32 := by
  unfold getCheckSum
  split_ifs
  · omega
  · rw [getCheckSumLoop_eq]
    exact Nat.mod_lt _ (by norm_num)

/-! ## The header -/

namespace Pack

variable (p : Pack)

theorem fileSize_lt (s : Section) : p.fileSize s < 2 ^ 32 := Nat.mod_lt _ (by norm_num)

theorem checkSum_lt (s : Section) : p.checkSum s < 2 ^ 32 := by
  unfold checkSum
  split
  · norm_num
  · exact getCheckSum_lt _ _

theorem fileOffset_lt (s : Section) : p.fileOffset s < 2 ^ 32 := by
  cases s with
  | qi => show fwFileHdrSize < 2 ^ 32; norm_num [fwFileHdrSize]
  | uBoot | zimage | initramfs | rootfs | homefs => exact add32_lt _ _

theorem fillStanza_fits {o : ℕ} (ho : o < 2 ^ 32) (s : Section) : (p.fillStanza o s).Fits where
  fileOffset := ho
  fileSize := p.fileSize_lt s
  nandOffset := by cases s <;> norm_num [fillStanza, nandOffset]
  nandSize := p.fileSize_lt s
  checkSum := p.checkSum_lt s

/-- The loop fills the six stanzas at their running offsets. -/
theorem fillStanzas_all :
    p.fillStanzas fwFileHdrSize Section.all =
      Section.all.map fun s => p.fillStanza (p.fileOffset s) s := rfl

/-- The `i`-th of a row of stanzas stored after a prefix. -/
theorem stanzaAt_flatMap (sts : List Stanza) (hfit : ∀ s ∈ sts, s.Fits) (xs : List Byte) {i : ℕ}
    (hi : i < sts.length) :
    stanzaAt (xs ++ sts.flatMap Stanza.toBytes) (xs.length + 20 * i) = sts[i] := by
  induction sts generalizing xs i with
  | nil => simp at hi
  | cons s sts ih =>
    rw [List.flatMap_cons]
    cases i with
    | zero => simpa using stanzaAt_toBytes xs _ (hfit s List.mem_cons_self)
    | succ i =>
      have := ih (fun t ht => hfit t (List.mem_cons_of_mem _ ht)) (xs ++ s.toBytes)
        (by simpa using hi)
      rw [List.append_assoc, List.length_append, Stanza.length_toBytes] at this
      rw [show xs.length + 20 * (i + 1) = xs.length + 20 + 20 * i by ring, this]
      rfl

/-- Past the check sum, setting it changes no word. -/
theorem u32At_setCheckSum (h : FWFileHdr) (v : ℕ) {o : ℕ} (ho : 8 ≤ o) :
    u32At (h.setCheckSum v).bytes o = u32At h.bytes o := by
  have hbyte : ∀ i, 8 ≤ i → byteAt (h.setCheckSum v).bytes i = byteAt h.bytes i := by
    intro i hi
    have := h.drop_setCheckSum v
    have h1 := congrArg (fun l => byteAt l (i - 8)) this
    simp only [byteAt, List.getD_eq_getElem?_getD, List.getElem?_drop] at h1
    rw [Nat.add_sub_cancel' hi] at h1
    simpa [byteAt] using h1
  unfold u32At
  rw [hbyte o ho, hbyte (o + 1) (by omega), hbyte (o + 2) (by omega), hbyte (o + 3) (by omega)]

theorem stanzaAt_setCheckSum (h : FWFileHdr) (v : ℕ) {o : ℕ} (ho : 8 ≤ o) :
    stanzaAt (h.setCheckSum v).bytes o = stanzaAt h.bytes o := by
  unfold stanzaAt
  rw [u32At_setCheckSum _ _ ho, u32At_setCheckSum _ _ (by omega), u32At_setCheckSum _ _ (by omega),
    u32At_setCheckSum _ _ (by omega), u32At_setCheckSum _ _ (by omega)]

/-- The stanza of every section in the header. -/
theorem stanza_hdr (s : Section) : p.hdr.stanza s = p.fillStanza (p.fileOffset s) s := by
  have hidx : s.idx < 6 := by cases s <;> decide
  have hfit : ∀ st ∈ p.fillStanzas fwFileHdrSize Section.all, st.Fits := by
    intro st hst
    rw [p.fillStanzas_all] at hst
    obtain ⟨s, -, rfl⟩ := List.mem_map.mp hst
    exact p.fillStanza_fits (p.fileOffset_lt s) s
  have hlen : p.preamble.length = 56 := rfl
  have hrow := stanzaAt_flatMap _ hfit p.preamble (i := s.idx) hidx
  rw [hlen] at hrow
  unfold FWFileHdr.stanza hdr
  rw [stanzaAt_setCheckSum _ _ (by unfold fwStanzaOffset; omega)]
  refine hrow.trans ?_
  cases s <;> rfl

/-- The bytes `fill_fw_fh` leaves, field by field. -/
theorem fillFwFh_bytes : p.fillFwFh.bytes =
    le32 headMagic ++ (le32 0 ++ (le32 fwFileHdrSize ++ (le32 1 ++ (le32 p.date ++ (vendorField ++
      (le32 p.machType ++ (le32 6 ++
        (p.fillStanzas fwFileHdrSize Section.all).flatMap Stanza.toBytes))))))) := by
  simp only [fillFwFh, preamble, List.append_assoc]

@[simp] theorem magic_hdr : p.hdr.magic = headMagic := by
  have hbytes : p.hdr.bytes =
      le32 headMagic ++ (le32 p.fillFwFh.sum ++ p.fillFwFh.bytes.drop 8) := by
    simp only [hdr, FWFileHdr.setCheckSum]
    nth_rewrite 1 [fillFwFh_bytes]
    rw [List.take_left' (length_le32 _)]
  have h := u32At_le32 [] (le32 p.fillFwFh.sum ++ p.fillFwFh.bytes.drop 8) headMagic
  rw [List.nil_append, ← hbytes, Nat.mod_eq_of_lt (by norm_num [headMagic])] at h
  exact h

@[simp] theorem fhSize_hdr : p.hdr.fhSize = fwFileHdrSize := by
  rw [FWFileHdr.fhSize, hdr, u32At_setCheckSum _ _ (by norm_num), fillFwFh_bytes,
    ← List.append_assoc]
  exact (u32At_le32 (le32 headMagic ++ le32 0) _ fwFileHdrSize).trans
    (Nat.mod_eq_of_lt (by norm_num [fwFileHdrSize]))

@[simp] theorem componentCount_hdr : p.hdr.componentCount = 6 := by
  rw [FWFileHdr.componentCount, hdr, u32At_setCheckSum _ _ (by norm_num), fillFwFh_bytes]
  simp only [← List.append_assoc]
  rw [List.append_assoc]
  exact (u32At_le32 (le32 headMagic ++ le32 0 ++ le32 fwFileHdrSize ++ le32 1 ++ le32 p.date ++
    vendorField ++ le32 p.machType) _ 6).trans (by norm_num)

@[simp] theorem vendor_hdr : p.hdr.vendor = vendorField := by
  have hdrop : p.hdr.bytes.drop 20 = p.fillFwFh.bytes.drop 20 := by
    have h := congrArg (List.drop 12) (p.fillFwFh.drop_setCheckSum p.fillFwFh.sum)
    rwa [List.drop_drop, List.drop_drop] at h
  rw [FWFileHdr.vendor, hdrop, fillFwFh_bytes]
  rfl

/-- The header carries its own sum. -/
theorem checkSum_hdr : p.hdr.checkSum = p.hdr.sum := by
  rw [hdr, FWFileHdr.sum_setCheckSum, FWFileHdr.checkSum_setCheckSum]
  exact Nat.mod_lt _ (by norm_num)

/-! ## The file -/

/-- The bytes of a section; none for one that was skipped. -/
def body (s : Section) : List Byte := (p.content s).getD []

theorem flatten_components :
    (p.components.map fun c => c.getD []).flatten = (Section.all.map p.body).flatten := by
  obtain ⟨components, machType, date, ⟨hlo, hhi⟩, hdev⟩ := p
  rcases components with _ | ⟨a, _ | ⟨b, _ | ⟨c, _ | ⟨d, rest⟩⟩⟩⟩
  iterate 4 simp at hlo
  simp only [List.length_cons] at hhi
  rcases rest with _ | ⟨e, _ | ⟨f, _ | ⟨g, rest⟩⟩⟩
  · simp [Section.all, body, content, Section.idx]
  · simp [Section.all, body, content, Section.idx]
  · simp [Section.all, body, content, Section.idx]
  · simp only [List.length_cons] at hhi
    omega

/-- The file is the header and the six sections in order. -/
theorem image_eq : p.image = p.hdr.bytes ++ (Section.all.map p.body).flatten := by
  rw [image, flatten_components]

theorem length_image : p.image.length =
    fwFileHdrSize + (p.body .qi).length + (p.body .uBoot).length + (p.body .zimage).length +
      (p.body .initramfs).length + (p.body .rootfs).length + (p.body .homefs).length := by
  rw [image_eq, List.length_append, p.hdr.length_eq]
  simp only [Section.all, List.map_cons, List.map_nil, List.flatten_cons, List.flatten_nil,
    List.length_append, List.length_nil]
  omega

theorem image_take : p.image.take fwFileHdrSize = p.hdr.bytes := by
  rw [image, List.take_left' p.hdr.length_eq]

/-- A section's check sum is the sum of its bytes. -/
theorem checkSum_eq {s : Section} (h : (p.body s).length < 2 ^ 31) :
    p.checkSum s = byteSum (p.body s) % 2 ^ 32 := by
  unfold checkSum body at *
  cases hc : p.content s with
  | none => rfl
  | some file =>
    rw [hc, Option.getD_some] at h
    show getCheckSum file (int32 file.length) = byteSum file % 2 ^ 32
    rw [int32_of_range (by omega) (by omega), getCheckSum_eq, List.take_length]

section Small

/-! In a file below `2^32` bytes no size or offset wraps. -/

variable (hlen : p.image.length < 2 ^ 32)

include hlen

theorem fileSize_eq (s : Section) : p.fileSize s = (p.body s).length := by
  have := p.length_image
  refine Nat.mod_eq_of_lt ?_
  show (p.body s).length < 2 ^ 32
  cases s <;> omega

/-- The offset of a section is the length of what precedes it. -/
theorem fileOffset_eq (s : Section) :
    p.fileOffset s =
      (p.hdr.bytes ++ ((Section.all.take s.idx).map p.body).flatten).length := by
  have hl := p.length_image
  have hsize := p.fileSize_eq hlen
  rw [List.length_append, p.hdr.length_eq]
  cases s <;>
    simp only [fileOffset, Section.all, Section.idx, List.take_succ_cons, List.take_zero,
      List.foldl_cons, List.foldl_nil, List.map_cons, List.map_nil, List.flatten_cons,
      List.flatten_nil, List.length_append, List.length_nil, hsize, add32, fwFileHdrSize] at * <;>
    omega

/-- A section's bytes stand in the file where its stanza says. -/
theorem image_section (s : Section) :
    (p.image.drop (p.fileOffset s)).take (p.fileSize s) = p.body s := by
  have hsplit : p.image = (p.hdr.bytes ++ ((Section.all.take s.idx).map p.body).flatten) ++
      (p.body s ++ ((Section.all.drop (s.idx + 1)).map p.body).flatten) := by
    rw [image_eq, List.append_assoc]
    cases s <;> simp [Section.all, Section.idx]
  rw [p.fileSize_eq hlen, p.fileOffset_eq hlen]
  nth_rewrite 1 [hsplit]
  rw [List.drop_left, List.take_left]

end Small

end Pack

end SmartQ.Firmware
