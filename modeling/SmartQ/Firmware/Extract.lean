import SmartQ.Firmware.MkSmartQ

/-!
# `extract`: the check in front of an upgrade

Model of `fw-utils/extract.c`. The header is read into 176 bytes of heap that
hold whatever was there before; a short file leaves the rest of them as they
were. The check sum runs up to the header's own `fh_size`, and the listing of
the sections up to its `component_count`, so both may leave the header and the
section table: the memory behind them is a parameter.

* `extract_of_accepted`: what an accepted header has been checked for.
* `extract_image`: a file `mkSmartQ` wrote is accepted.
* `packVerify`: it is laid out as its header says.
* `readHdr_full`: a full read leaves the file's own header.
-/

namespace SmartQ.Firmware

open SmartQ.Lib

/-! ## Reads -/

/-- What the kernel does with one `read` or `write`. -/
inductive IoResult
  | full
  | short (k : ℕ)
  | error
  deriving DecidableEq, Repr

/-- The value `read(fd, buf, n)` or `write(fd, buf, n)` returns when `avail`
    bytes can be moved. A count above `SSIZE_MAX` is refused. -/
def transferred (r : IoResult) (n avail : ℕ) : ℤ :=
  if 2 ^ 31 ≤ n then -1
  else match r with
    | .full => min n avail
    | .short k => min k (min n avail)
    | .error => -1

theorem transferred_le (r : IoResult) (n avail : ℕ) :
    transferred r n avail ≤ n ∧ transferred r n avail ≤ avail := by
  unfold transferred
  split_ifs
  · omega
  · cases r <;> simp only <;> omega

/-- A transfer that returns its count had that much to move. -/
theorem transferred_eq {r : IoResult} {n avail : ℕ} (h : transferred r n avail = n) :
    n < 2 ^ 31 ∧ n ≤ avail := by
  have := transferred_le r n avail
  refine ⟨?_, by omega⟩
  by_contra hn
  unfold transferred at h
  rw [if_pos (by omega)] at h
  omega

theorem transferred_full {n avail : ℕ} (hn : n < 2 ^ 31) (h : n ≤ avail) :
    transferred .full n avail = n := by
  unfold transferred
  rw [if_neg (by omega)]
  show min (n : ℤ) avail = n
  omega

/-! ## Model -/

/-- What `extract` finds on the machine: the exit status of its two `grep`s of
    `/proc/cpuinfo`, the heap behind the header and the data behind the section
    table. -/
structure Host where
  grepQ5 : ℕ
  grepQ7 : ℕ
  /-- The `malloc`ed header before the read. -/
  garbage : FWFileHdr
  /-- The byte `i` bytes from the header's start, if it is mapped. -/
  heap : ℕ → Option Byte
  /-- Whether following entry `i` of the section table touches mapped memory. -/
  sectsMapped : ℕ → Bool

/-- Why `extract` returns -1: the check of the file that fails first. -/
inductive Reject
  | openFailed | magic | checkSum | platform | vendor
  deriving DecidableEq, Repr

/-- How `extract` ends: with the header it accepts, with the reason for which it returns an
    error, or with a read outside its objects. -/
inductive Extracted
  | accepted (h : FWFileHdr)
  | rejected (why : Reject)
  | fault

/-- `read(fd, fw_fh, sizeof(firmware_fileheader))` that returned `n`. -/
def readHdr (garbage : FWFileHdr) (file : List Byte) (n : ℤ) : FWFileHdr where
  bytes := (file.take (min n.toNat fwFileHdrSize) ++
    garbage.bytes.drop (file.take (min n.toNat fwFileHdrSize)).length)
  length_eq := by
    have := garbage.length_eq
    simp [fwFileHdrSize] at *
    omega

/-- `pchar[i]`: a byte of the header or, behind it, of the heap block that holds it, if that is
    mapped. -/
def hdrByte (h : FWFileHdr) (heap : ℕ → Option Byte) (i : ℕ) : Option Byte :=
  if i < fwFileHdrSize then some (byteAt h.bytes i) else heap i

/-- `get_fw_fh_check_sum` (lines 49–57); `none` when it runs into unmapped
    memory. -/
def getFwFhCheckSum (h : FWFileHdr) (heap : ℕ → Option Byte) : Option ℕ :=
  (List.range' 8 (h.fhSize - 8)).foldlM
    (fun ret i => (hdrByte h heap i).map fun b => add32 ret b.toNat) 0

/-- The string at byte `i` of the header is mapped up to its NUL; at most `fuel` bytes. -/
def stringMapped (h : FWFileHdr) (heap : ℕ → Option Byte) : ℕ → ℕ → Bool
  | 0, _ => true
  | fuel + 1, i =>
    match hdrByte h heap i with
    | none => false
    | some b => b == 0 || stringMapped h heap fuel (i + 1)

/-- The bytes of the address space. -/
def addressSpace : ℕ := 2 ^ 32

/-- `fprintf("%s", fw_fh->vendor)` touches only mapped memory. -/
def vendorMapped (host : Host) (h : FWFileHdr) : Bool := stringMapped h host.heap addressSpace 20

/-- `strcmp(fw_fh->vendor, "hhtech")` is 0: the vendor begins with the string and the zero that
    ends it. -/
def vendorOk (h : FWFileHdr) : Bool := h.vendor.take 7 == [0x68, 0x68, 0x74, 0x65, 0x63, 0x68, 0]

/-- The `machType` test (lines 84–106): firmware for the other device. -/
def wrongPlatform (host : Host) (h : FWFileHdr) : Bool :=
  (h.machType == machTypeSmartQ5 && host.grepQ7 == 0) ||
    (h.machType == machTypeSmartQ7 && host.grepQ5 == 0)

/-- The listing of the components (lines 127–134) touches only mapped memory. -/
def listingMapped (host : Host) (h : FWFileHdr) : Bool :=
  (List.range' 6 (h.componentCount - 6)).all host.sectsMapped

/-- The tests behind the check sum loop (lines 78–138), `sum` being its result. -/
def checkFields (host : Host) (h : FWFileHdr) (sum : ℕ) : Extracted :=
  if sum ≠ h.checkSum then .rejected .checkSum
  else if wrongPlatform host h then .rejected .platform
  else if !vendorMapped host h then .fault
  else if !vendorOk h then .rejected .vendor
  else if !listingMapped host h then .fault
  else .accepted h

/-- The tests `extract` makes on the header it has read (lines 73–138). -/
def checkHdr (host : Host) (h : FWFileHdr) : Extracted :=
  if h.magic ≠ headMagic then .rejected .magic
  else match getFwFhCheckSum h host.heap with
    | none => .fault
    | some sum => checkFields host h sum

/-- A file that `open` without `O_LARGEFILE` opens. -/
def openable (file : List Byte) : Bool := file.length < 2 ^ 31

/-- `extract` (lines 59–139), `r` being what its `read` does. -/
def extract (host : Host) (file : List Byte) (r : IoResult) : Extracted :=
  if !openable file then .rejected .openFailed
  else checkHdr host (readHdr host.garbage file (transferred r fwFileHdrSize file.length))

/-! ## What an accepted header is -/

theorem checkFields_of_accepted {host : Host} {h h' : FWFileHdr} {sum : ℕ}
    (hx : checkFields host h sum = .accepted h') : h' = h ∧ sum = h.checkSum := by
  unfold checkFields at hx
  split_ifs at hx with hsum
  cases hx
  exact ⟨rfl, not_not.mp hsum⟩

theorem checkHdr_of_accepted {host : Host} {h h' : FWFileHdr} (hx : checkHdr host h = .accepted h') :
    h' = h ∧ h.magic = headMagic ∧ getFwFhCheckSum h host.heap = some h.checkSum := by
  unfold checkHdr at hx
  split_ifs at hx with hmagic
  cases hsum : getFwFhCheckSum h host.heap with
  | none => simp [hsum] at hx
  | some sum =>
    rw [hsum] at hx
    obtain ⟨rfl, rfl⟩ := checkFields_of_accepted hx
    exact ⟨rfl, not_not.mp hmagic, rfl⟩

/-- An accepted header comes from an openable file and is what the read left. -/
theorem extract_of_accepted {host : Host} {file : List Byte} {r : IoResult} {h : FWFileHdr}
    (hx : extract host file r = .accepted h) :
    file.length < 2 ^ 31 ∧
      h = readHdr host.garbage file (transferred r fwFileHdrSize file.length) := by
  unfold extract at hx
  split_ifs at hx with hopen
  refine ⟨by simpa [openable] using hopen, (checkHdr_of_accepted hx).1⟩

/-- A full read of the header gives the file's first 176 bytes. -/
theorem readHdr_full {garbage : FWFileHdr} {file : List Byte} (h : fwFileHdrSize ≤ file.length) :
    (readHdr garbage file fwFileHdrSize).bytes = file.take fwFileHdrSize := by
  have hg := garbage.length_eq
  have hlen : (file.take (min ((fwFileHdrSize : ℕ) : ℤ).toNat fwFileHdrSize)).length
      = fwFileHdrSize := by
    simp only [List.length_take, Int.toNat_natCast]
    omega
  show _ ++ garbage.bytes.drop _ = _
  rw [hlen, List.drop_of_length_le (by omega), List.append_nil, Int.toNat_natCast, Nat.min_self]

/-! ## Genuine files -/

/-- The sum over the header's own bytes. -/
theorem foldlM_hdrByte (h : FWFileHdr) (heap : ℕ → Option Byte) (n a acc : ℕ)
    (hle : a + n ≤ fwFileHdrSize) (hacc : acc < 2 ^ 32) :
    (List.range' a n).foldlM (fun ret i => (hdrByte h heap i).map fun b => add32 ret b.toNat) acc =
      some ((acc + byteSum ((h.bytes.drop a).take n)) % 2 ^ 32) := by
  have hlen := h.length_eq
  induction n generalizing a acc with
  | zero =>
    rw [List.take_zero, byteSum_nil, Nat.add_zero, Nat.mod_eq_of_lt hacc]
    rfl
  | succ n ih =>
    have hbyte : hdrByte h heap a = some h.bytes[a] := by
      rw [hdrByte, if_pos (by omega), byteAt_of_lt (by omega)]
    rw [List.range'_succ, List.foldlM_cons, hbyte, Option.map_some]
    show List.foldlM _ (add32 acc h.bytes[a].toNat) (List.range' (a + 1) n) = _
    rw [ih (a + 1) _ (by omega) (add32_lt _ _),
      List.drop_eq_getElem_cons (show a < h.bytes.length by omega), List.take_succ_cons,
    byteSum_cons, add32, Nat.mod_add_mod, Nat.add_assoc]

theorem getFwFhCheckSum_eq (h : FWFileHdr) (heap : ℕ → Option Byte)
    (hsize : h.fhSize = fwFileHdrSize) : getFwFhCheckSum h heap = some h.sum := by
  rw [getFwFhCheckSum, foldlM_hdrByte h heap _ _ _ (by rw [hsize]; decide) (by norm_num), hsize,
    Nat.zero_add, List.take_of_length_le (by simp [h.length_eq]), FWFileHdr.sum]

/-- A string that ends in the header is mapped. -/
theorem stringMapped_of_mem (h : FWFileHdr) (heap : ℕ → Option Byte) (fuel i : ℕ)
    (hz : 0 ∈ h.bytes.drop i) : stringMapped h heap fuel i = true := by
  induction fuel generalizing i with
  | zero => rfl
  | succ fuel ih =>
    have hi : i < h.bytes.length := by
      by_contra hge
      rw [List.drop_of_length_le (by omega)] at hz
      cases hz
    have hbyte : hdrByte h heap i = some h.bytes[i] := by
      rw [hdrByte, if_pos (by rw [← h.length_eq]; exact hi), byteAt_of_lt hi]
    rw [List.drop_eq_getElem_cons hi] at hz
    rw [stringMapped, hbyte]
    rcases List.mem_cons.mp hz with h0 | hz
    · simp [← h0]
    · simp [ih (i + 1) hz]

/-- The vendor that is asked for ends in its field. -/
theorem mem_vendor_of_vendorOk {h : FWFileHdr} (hvendor : vendorOk h = true) :
    0 ∈ h.vendor := by
  rw [vendorOk, beq_iff_eq] at hvendor
  apply List.mem_of_mem_take
  rw [hvendor]
  simp

theorem vendorMapped_of_mem (host : Host) {h : FWFileHdr} (hz : 0 ∈ h.bytes.drop 20) :
    vendorMapped host h = true := stringMapped_of_mem h _ _ _ hz

theorem vendorMapped_of_vendorOk (host : Host) {h : FWFileHdr} (hvendor : vendorOk h = true) :
    vendorMapped host h = true :=
  vendorMapped_of_mem host (List.mem_of_mem_take (mem_vendor_of_vendorOk hvendor))

/-- The header `mkSmartQ` makes is accepted on its own platform. -/
theorem checkHdr_hdr (host : Host) (p : Pack) (hplat : wrongPlatform host p.hdr = false) :
    checkHdr host p.hdr = .accepted p.hdr := by
  have hvendor : vendorOk p.hdr = true := by
    rw [vendorOk, p.vendor_hdr]
    rfl
  have hlist : listingMapped host p.hdr = true := by
    rw [listingMapped, p.componentCount_hdr]
    rfl
  rw [checkHdr, if_neg (by simp), getFwFhCheckSum_eq _ _ p.fhSize_hdr]
  simp only [checkFields]
  rw [if_neg (by simp [p.checkSum_hdr]), hplat, vendorMapped_of_vendorOk host hvendor, hvendor,
    hlist]
  rfl

/-- A file `mkSmartQ` wrote is accepted, with the header it was given. -/
theorem extract_image (host : Host) (p : Pack) (hplat : wrongPlatform host p.hdr = false)
    (hsmall : p.image.length < 2 ^ 31) : extract host p.image .full = .accepted p.hdr := by
  have hlen : fwFileHdrSize ≤ p.image.length := by
    rw [p.length_image]
    omega
  have hread : readHdr host.garbage p.image (transferred .full fwFileHdrSize p.image.length)
      = p.hdr := by
    rw [transferred_full (by norm_num [fwFileHdrSize]) hlen]
    ext1
    rw [readHdr_full hlen, p.image_take]
  rw [extract, if_neg (by simpa [openable] using hsmall), hread, checkHdr_hdr host p hplat]

/-! ## The round trip -/

/-- The file is laid out as the header `h` says: every component is where its
    stanza puts it, with its check sum, and they lie behind the header in
    order without a gap up to the end of the file. -/
structure Pack.Laid (p : Pack) (h : FWFileHdr) (file : List Byte) : Prop where
  component : ∀ s, (file.drop (h.stanza s).file.offset).take (h.stanza s).file.size = p.body s
  size : ∀ s, (h.stanza s).file.size = (p.body s).length
  checkSum : ∀ s, (h.stanza s).checkSum = byteSum (p.body s) % 2 ^ 32
  first : (h.stanza .qi).file.offset = fwFileHdrSize
  next : ∀ s t : Section, t.idx = s.idx + 1 →
    (h.stanza t).file.offset = (h.stanza s).file.offset + (h.stanza s).file.size
  last : (h.stanza .homefs).file.offset + (h.stanza .homefs).file.size = file.length

theorem Pack.laid_image (p : Pack) (hsmall : p.image.length < 2 ^ 31) : p.Laid p.hdr p.image := by
  have hlen : p.image.length < 2 ^ 32 := by omega
  have himage := p.length_image
  have hsize : ∀ s, (p.hdr.stanza s).file.size = (p.body s).length := by
    intro s
    rw [p.stanza_hdr]
    exact p.fileSize_eq hlen s
  have hoffset : ∀ s, (p.hdr.stanza s).file.offset =
      (p.hdr.bytes ++ ((Section.all.take s.idx).map p.body).flatten).length := by
    intro s
    rw [p.stanza_hdr]
    exact p.fileOffset_eq hlen s
  constructor
  case component =>
    intro s
    rw [p.stanza_hdr]
    exact p.image_section hlen s
  case size => exact hsize
  case checkSum =>
    intro s
    have hbody : (p.body s).length < 2 ^ 31 := by cases s <;> omega
    rw [p.stanza_hdr]
    exact p.checkSum_eq hbody
  case first =>
    rw [hoffset, List.length_append, p.hdr.length_eq]
    rfl
  case next =>
    intro s t hst
    have htake : (Section.all.take t.idx).map p.body =
        (Section.all.take s.idx).map p.body ++ [p.body s] := by
      rw [hst]
      cases s with
      | homefs => cases t <;> cases hst
      | qi | uBoot | zimage | initramfs | rootfs => rfl
    rw [hoffset, hoffset, hsize, htake, List.flatten_append, ← List.append_assoc,
      List.length_append, List.flatten_singleton]
  case last =>
    rw [hoffset, hsize, List.length_append, p.hdr.length_eq]
    simp only [Section.all, Section.idx, List.take_succ_cons, List.take_zero, List.map_cons,
      List.map_nil, List.flatten_cons, List.flatten_nil, List.length_append, List.length_nil]
    omega

/-- What `mkSmartQ` packs, `extract` accepts: the file is laid out as the header
    it starts with says, and that header is the one `extract` returns. -/
theorem packVerify (p : Pack) (host : Host)
    (hsize : (Section.all.map fun s => (p.body s).length).sum < 2 ^ 31 - fwFileHdrSize)
    (hplat : wrongPlatform host p.hdr = false) :
    p.Laid p.hdr p.image ∧ p.image.take fwFileHdrSize = p.hdr.bytes ∧
      extract host p.image .full = .accepted p.hdr := by
  have hsmall : p.image.length < 2 ^ 31 := by
    rw [p.length_image]
    simp only [Section.all, List.map_cons, List.map_nil, List.sum_cons, List.sum_nil,
      fwFileHdrSize] at *
    omega
  exact ⟨p.laid_image hsmall, p.image_take, extract_image host p hplat hsmall⟩

/-- Two of five files skipped, on a machine without `/proc/cpuinfo`. -/
def skippingPack : Pack where
  components := [some [1, 2], none, some [3], some [4, 5, 6], none]
  machType := machTypeSmartQ5
  date := 0
  argc := by simp
  device := .inl rfl

theorem packVerify_skippingPack :
    skippingPack.Laid skippingPack.hdr skippingPack.image ∧
      skippingPack.image.take fwFileHdrSize = skippingPack.hdr.bytes ∧
      extract ⟨2, 2, skippingPack.hdr, fun _ => none, fun _ => false⟩ skippingPack.image .full =
        .accepted skippingPack.hdr :=
  packVerify skippingPack ⟨2, 2, skippingPack.hdr, fun _ => none, fun _ => false⟩ (by decide)
    (by simp [wrongPlatform])

end SmartQ.Firmware
