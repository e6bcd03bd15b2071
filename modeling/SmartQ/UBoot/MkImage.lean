import SmartQ.Lib.StringBlock
import SmartQ.UBoot.Bootm

/-!
# `mkimage`

Model of `main` and `copy_file` of `u-boot/tools/mkimage.c`, on a host with a `size_t` of 64
bits: an image is written with `-d` and listed with `-l`.

* `mkimage_eq`: the image is a header with both checksums, and its data.
* `data_multi`: the data of several files, as `image.h` describes it.
-/

namespace SmartQ.UBoot.Bootm

open SmartQ.Lib

/-! ## The image -/

/-- `IH_TYPE_SCRIPT`: like a multi-file image, it has a list of sizes in front. -/
def ihTypeScript : ℕ := 6

/-- `IH_NMLEN`: the bytes of the name in the header, without a zero if it is that long. -/
def ihNmlen : ℕ := 32

/-- The word `htonl(v)` in a file. -/
def htonlBytes (v : ℕ) : List Byte := (le32 v).reverse

/-- `strncpy(dst, s, n)`: the string up to its zero, cut off or filled up with zeros. -/
def strncpy (s : List Byte) (n : ℕ) : List Byte := (cString s ++ List.replicate n 0).take n

/-- What the options of a call say: the codes of the four names, the load address, the entry
    point if there is `-e`, the name, and the argument of `-d`. -/
structure Options where
  xflag : Bool
  optOs : ℕ
  optArch : ℕ
  optType : ℕ
  optComp : ℕ
  addr : ℕ
  ep : Option ℕ
  name : List Byte
  datafile : List Byte
  addr_lt : addr < 2 ^ 32
  ep_lt : ∀ e ∈ ep, e < 2 ^ 32

/-- The files by their names. -/
abbrev Files := List Byte → Option (List Byte)

variable (files : Files)

/-- `copy_file`: an empty file cannot be mapped, and with `-x` the space for the header is
    left out. The `write` of a negative `size` fails, and its -1 is taken for an error unless
    `size` is -1 as well; the padding behind such a file, five bytes from an `int`, has no
    result here. -/
def copyFile (xflag : Bool) (datafile : List Byte) (pad : Bool) : Option (List Byte) := do
  let ptr ← files datafile
  let offset := if xflag then imageHeaderSize else 0
  let size := int32 ((ptr.length : ℤ) - offset)
  if ptr = [] then none
  else if xflag ∧ (ptr.length % 2 ^ 32 < imageHeaderSize ∨
      (ptr.take imageHeaderSize).any (· != 0xff)) then none
  else if size = -1 ∧ ¬ pad then pure []
  else if size < 0 then none
  else
    let tail := size.toNat % 4
    pure ((ptr.drop offset).take size.toNat ++
      if pad ∧ tail ≠ 0 then List.replicate (4 - tail) 0 else [])

/-- The list of sizes, with the word that ends it (lines 400–437). -/
def sizeList : List (List Byte) → Option (List Byte)
  | [] => some (htonlBytes 0)
  | file :: names => do
    let ptr ← files file
    let sizes ← sizeList names
    pure (htonlBytes ptr.length ++ sizes)

/-- The files one after the other, all but the last one padded (lines 439–452). -/
def copyFiles (xflag : Bool) : List (List Byte) → Option (List Byte)
  | [] => some []
  | [file] => copyFile files xflag file false
  | file :: names => do
    let data ← copyFile files xflag file true
    let rest ← copyFiles xflag names
    pure (data ++ rest)

/-- The names in the argument of `-d`. -/
def dataNames (datafile : List Byte) : List (List Byte) := datafile.splitOn 58

/-- The bytes behind the header. -/
def imageData (o : Options) : Option (List Byte) :=
  if o.optType = ihTypeMulti ∨ o.optType = ihTypeScript then do
    let sizes ← sizeList files (dataNames o.datafile)
    let data ← copyFiles files o.xflag (dataNames o.datafile)
    pure (sizes ++ data)
  else copyFile files o.xflag o.datafile false

/-- The entry point, which is the load address without `-e`. -/
def Options.entry (o : Options) : ℕ :=
  o.ep.getD (if o.xflag then add32 o.addr imageHeaderSize else o.addr)

/-- The header of an image with this data, `hcrc` being its own checksum. -/
def imageHeader (o : Options) (time : ℕ) (data : List Byte) (hcrc : ℕ) : List Byte :=
  htonlBytes ihMagic ++ htonlBytes hcrc ++ htonlBytes time ++ htonlBytes data.length ++
    htonlBytes o.addr ++ htonlBytes o.entry ++
    htonlBytes (crc32 (data.take (data.length % 2 ^ 32))) ++
    [UInt8.ofNat o.optOs, UInt8.ofNat o.optArch, UInt8.ofNat o.optType, UInt8.ofNat o.optComp] ++
    strncpy o.name ihNmlen

/-- The image with this data: the checksum of the header is taken with a zero in its place. -/
def image (o : Options) (time : ℕ) (data : List Byte) : List Byte :=
  imageHeader o time data (crc32 (imageHeader o time data 0)) ++ data

/-- `mkimage` with `-d`: the image file, written at `time`. -/
def mkimage (time : ℕ) (o : Options) : Option (List Byte) :=
  if o.xflag ∧ o.entry ≠ o.addr + imageHeaderSize then none
  else do
    let data ← imageData files o
    pure (image o time data)

/-- The sizes at the start of the data, up to a zero word. -/
def lenList : List Byte → Option (List ℕ)
  | b0 :: b1 :: b2 :: b3 :: rest =>
    if b0 = 0 ∧ b1 = 0 ∧ b2 = 0 ∧ b3 = 0 then some []
    else (lenList rest).map (word32 b3 b2 b1 b0 :: ·)
  | _ => none

/-- The offsets that `print_header` prints for files of these sizes. -/
def offsets : ℕ → List ℕ → List ℕ
  | _, [] => []
  | pos, size :: sizes =>
    pos :: offsets ((pos + (size + 3) % 2 ^ 32 / 4 * 4) % 2 ^ 32) sizes

/-- What `print_header` finds of the files: their sizes, and the offsets it prints for a script
    from the second file on; a `long` has `longSize` bytes. -/
def printContents (longSize : ℕ) (image : List Byte) : Option (List (ℕ × ℕ)) := do
  let sizes ← lenList (image.drop imageHeaderSize)
  pure (sizes.zip (offsets ((imageHeaderSize + sizes.length * longSize) % 2 ^ 32) sizes))

/-- `mkimage -l`: the header that is printed, and the files of an image that has several. -/
def mkimageList (longSize : ℕ) (image : List Byte) : Option (ImageHeader × List (ℕ × ℕ)) :=
  let header := ImageHeader.ofBytes image
  let bytes := image.take imageHeaderSize
  let data := image.drop imageHeaderSize
  if image.length % 2 ^ 32 < imageHeaderSize then none
  else if header.ihMagic ≠ ihMagic then none
  else if crc32 (bytes.take 4 ++ [0, 0, 0, 0] ++ bytes.drop 8) ≠ header.ihHcrc then none
  else if crc32 (data.take (data.length % 2 ^ 32)) ≠ header.ihDcrc then none
  else if header.ihType = ihTypeMulti ∨ header.ihType = ihTypeScript then
    (printContents longSize image).map fun contents => (header, contents)
  else some (header, [])

/-! ## The header -/

/-- The fields of a header, as they are read. -/
def headerFields (o : Options) (time : ℕ) (data : List Byte) (hcrc : ℕ) : ImageHeader where
  ihMagic := ihMagic
  ihHcrc := hcrc % 2 ^ 32
  ihTime := time % 2 ^ 32
  ihSize := data.length % 2 ^ 32
  ihLoad := o.addr % 2 ^ 32
  ihEp := o.entry % 2 ^ 32
  ihDcrc := crc32 (data.take (data.length % 2 ^ 32)) % 2 ^ 32
  ihOs := o.optOs % 2 ^ 8
  ihArch := o.optArch % 2 ^ 8
  ihType := o.optType % 2 ^ 8
  ihComp := o.optComp % 2 ^ 8

section Header

variable {o : Options} {time hcrc : ℕ} {data : List Byte}

@[simp] theorem length_htonlBytes (v : ℕ) : (htonlBytes v).length = 4 := rfl

@[simp] theorem length_strncpy (s : List Byte) (n : ℕ) : (strncpy s n).length = n := by
  simp [strncpy]

@[simp] theorem length_imageHeader :
    (imageHeader o time data hcrc).length = imageHeaderSize := by
  simp [imageHeader, ihNmlen, imageHeaderSize]

theorem length_image : (image o time data).length = imageHeaderSize + data.length := by
  simp [image]

theorem drop_image : (image o time data).drop imageHeaderSize = data :=
  List.drop_left' length_imageHeader

theorem take_image : (image o time data).take imageHeaderSize =
    imageHeader o time data (crc32 (imageHeader o time data 0)) :=
  List.take_left' length_imageHeader

/-- The fields are read back. -/
theorem ofBytes_imageHeader (rest : List Byte) :
    ImageHeader.ofBytes (imageHeader o time data hcrc ++ rest) = headerFields o time data hcrc := by
  have hword : ∀ v, word32 (UInt8.ofNat v) (UInt8.ofNat (v / 256)) (UInt8.ofNat (v / 65536))
      (UInt8.ofNat (v / 16777216)) = v % 4294967296 := word32_le32
  simp [ImageHeader.ofBytes, headerFields, imageHeader, htonlBytes, le32, be32At, byteAt, hword,
    ihMagic]
  decide

/-- With its checksum blanked a header is the one the checksum is of. -/
theorem blank_imageHeader :
    (imageHeader o time data hcrc).take 4 ++ [0, 0, 0, 0] ++
      (imageHeader o time data hcrc).drop 8 = imageHeader o time data 0 := by
  simp [imageHeader, htonlBytes, le32]

end Header

/-! ## The data -/

/-- A file rounded up to a multiple of four bytes. -/
def aligned (d : List Byte) : List Byte := d ++ List.replicate ((4 - d.length % 4) % 4) 0

/-- The list of the sizes of files. -/
def sizesOf (ds : List (List Byte)) : List Byte :=
  (ds.flatMap fun d => htonlBytes d.length) ++ htonlBytes 0

/-- Files one after the other, all but the last one rounded up. -/
def contents : List (List Byte) → List Byte
  | [] => []
  | [d] => d
  | d :: d' :: ds => aligned d ++ contents (d' :: ds)

/-- A file `copy_file` can copy: it is not empty, and its size is an `int`. -/
def IsData (d : List Byte) : Prop := d ≠ [] ∧ d.length < 2 ^ 31

section Data

variable {files : Files} {o : Options} {name : List Byte} {names ds : List (List Byte)}
  {pad : Bool} {bytes data : List Byte}
  (hsmall : ∀ f d, files f = some d → d.length < 2 ^ 32 - 1)

theorem sizesOf_cons (d : List Byte) :
    sizesOf (d :: ds) = htonlBytes d.length ++ sizesOf ds := by simp [sizesOf]

theorem be32At_htonlBytes (v : ℕ) (rest : List Byte) :
    be32At (htonlBytes v ++ rest) 0 = v % 2 ^ 32 := word32_le32 v

theorem u32At_htonlBytes (v : ℕ) (rest : List Byte) :
    u32At (htonlBytes v ++ rest) 0 = 0 ↔ v % 2 ^ 32 = 0 := by
  have hword : u32At (htonlBytes v ++ rest) 0 = word32 (UInt8.ofNat (v / 2 ^ 24))
      (UInt8.ofNat (v / 2 ^ 16)) (UInt8.ofNat (v / 2 ^ 8)) (UInt8.ofNat v) := rfl
  rw [hword]
  simp only [word32, UInt8.toNat_ofNat']
  omega

theorem length_sizesOf : (sizesOf ds).length = 4 * (ds.length + 1) := by
  induction ds with
  | nil => rfl
  | cons d ds ih =>
    simp only [sizesOf, List.length_append, List.flatMap_cons, length_htonlBytes,
      List.length_cons] at ih ⊢
    omega

theorem aligned_eq (d : List Byte) :
    (d ++ if d.length % 4 ≠ 0 then List.replicate (4 - d.length % 4) 0 else []) = aligned d := by
  rw [aligned]
  by_cases htail : d.length % 4 = 0
  · simp [htail]
  · have hmod : (4 - d.length % 4) % 4 = 4 - d.length % 4 := by omega
    rw [if_pos htail, hmod]

include hsmall in
theorem copyFile_eq_some : copyFile files false name pad = some bytes ↔
    ∃ d, files name = some d ∧ IsData d ∧ bytes = if pad then aligned d else d := by
  rw [copyFile]
  cases hd : files name with
  | none => simp
  | some d =>
    have hlen := hsmall name d hd
    have hneg : int32 (d.length : ℤ) < 0 ↔ ¬ d.length < 2 ^ 31 := by
      unfold int32
      split_ifs <;> omega
    simp only [Option.bind_eq_bind, Option.bind_some, Bool.false_eq_true, if_false, false_and,
      Int.sub_zero, Nat.cast_zero, Option.some.injEq, exists_eq_left']
    by_cases hnil : d = []
    · simp [hnil, IsData]
    · have hminus : ¬ (int32 (d.length : ℤ) = -1 ∧ ¬ pad = true) := by
        rintro ⟨hminus, -⟩
        unfold int32 at hminus
        split_ifs at hminus <;> omega
      rw [if_neg hnil, if_neg hminus]
      by_cases hbig : int32 (d.length : ℤ) < 0
      · rw [if_pos hbig]
        exact iff_of_false (by simp) fun h => hneg.mp hbig h.1.2
      · have hint : (int32 (d.length : ℤ)).toNat = d.length := by
          have hlt := not_not.mp (mt hneg.mpr hbig)
          rw [int32_of_range (by omega) (by omega), Int.toNat_natCast]
        rw [if_neg hbig, hint, List.drop_zero, List.take_length]
        have hdata : IsData d := ⟨hnil, not_not.mp (mt hneg.mpr hbig)⟩
        cases pad with
        | false => simp [hdata, eq_comm]
        | true => simp [hdata, ← aligned_eq, eq_comm]

theorem sizeList_eq_some : sizeList files names = some bytes ↔
    ∃ ds, names.map files = ds.map some ∧ bytes = sizesOf ds := by
  induction names generalizing bytes with
  | nil =>
    constructor
    · intro h
      cases h
      exact ⟨[], rfl, rfl⟩
    · rintro ⟨ds, hds, rfl⟩
      rw [List.map_eq_nil_iff.mp hds.symm]
      rfl
  | cons name names ih =>
    rw [sizeList]
    constructor
    · intro h
      simp only [Option.bind_eq_bind, Option.bind_eq_some_iff, Option.pure_def,
        Option.some.injEq] at h
      obtain ⟨d, hd, sizes, hsizes, rfl⟩ := h
      obtain ⟨ds, hds, rfl⟩ := ih.mp hsizes
      exact ⟨d :: ds, by rw [List.map_cons, hd, hds, List.map_cons], by simp [sizesOf]⟩
    · rintro ⟨ds, hds, rfl⟩
      obtain _ | ⟨d, ds⟩ := ds
      · cases hds
      · rw [List.map_cons, List.map_cons, List.cons.injEq] at hds
        rw [hds.1, ih.mpr ⟨ds, hds.2, rfl⟩]
        simp [sizesOf]

include hsmall in
theorem copyFiles_eq_some (hds : names.map files = ds.map some) :
    copyFiles files false names = some bytes ↔ (∀ d ∈ ds, IsData d) ∧ bytes = contents ds := by
  induction names generalizing ds bytes with
  | nil =>
    obtain rfl : ds = [] := List.map_eq_nil_iff.mp hds.symm
    simp [copyFiles, contents, eq_comm]
  | cons name names ih =>
    obtain _ | ⟨d, ds⟩ := ds
    · cases hds
    rw [List.map_cons, List.map_cons, List.cons.injEq] at hds
    obtain _ | ⟨name', names⟩ := names
    · obtain rfl : ds = [] := List.map_eq_nil_iff.mp hds.2.symm
      simp [copyFiles, copyFile_eq_some hsmall, hds.1, contents]
    · obtain _ | ⟨d', ds⟩ := ds
      · cases hds.2
      have hcopy : copyFiles files false (name :: name' :: names) =
          (copyFile files false name true).bind fun data =>
            (copyFiles files false (name' :: names)).bind fun rest => some (data ++ rest) := rfl
      simp only [hcopy, Option.bind_eq_some_iff, copyFile_eq_some hsmall, ih hds.2, hds.1,
        Option.some.injEq, contents, List.forall_mem_cons, if_true]
      constructor
      · rintro ⟨_, ⟨_, rfl, hd, rfl⟩, _, ⟨hrest, rfl⟩, rfl⟩
        exact ⟨⟨hd, hrest⟩, rfl⟩
      · rintro ⟨⟨hd, hrest⟩, rfl⟩
        exact ⟨_, ⟨d, rfl, hd, rfl⟩, _, ⟨hrest, rfl⟩, rfl⟩

/-- Of a file for execution in place the space for the header is left out. -/
theorem copyFile_xip {d : List Byte} (hd : files name = some d) (hlen : d.length < 2 ^ 32)
    (h : copyFile files true name false = some bytes) : bytes = d.drop imageHeaderSize := by
  rw [copyFile, hd] at h
  simp only [Option.bind_eq_bind, Option.bind_some, if_true, true_and, Bool.false_eq_true,
    false_and, if_false, List.append_nil] at h
  by_cases hnil : d = []
  · rw [if_pos hnil] at h
    cases h
  by_cases hspace : d.length % 2 ^ 32 < imageHeaderSize ∨
      (d.take imageHeaderSize).any (· != 0xff)
  · rw [if_neg hnil, if_pos hspace] at h
    cases h
  have hminus : int32 ((d.length : ℤ) - (imageHeaderSize : ℤ)) ≠ -1 := by
    have hlong := (not_or.mp hspace).1
    have hheader : imageHeaderSize = 64 := rfl
    unfold int32
    split_ifs <;> omega
  rw [if_neg hnil, if_neg hspace, if_neg fun h => hminus h.1] at h
  by_cases hneg : int32 ((d.length : ℤ) - (imageHeaderSize : ℤ)) < 0
  · rw [if_pos hneg] at h
    cases h
  · rw [if_neg hneg] at h
    have hlong : imageHeaderSize ≤ d.length := by
      have := (not_or.mp hspace).1
      omega
    have hsize : (int32 ((d.length : ℤ) - (imageHeaderSize : ℤ))).toNat =
        d.length - imageHeaderSize := by
      unfold int32 at hneg ⊢
      split_ifs at hneg ⊢ <;> omega
    rw [← Option.some.inj h, hsize]
    exact List.take_of_length_le (by rw [List.length_drop])

include hsmall in
/-- The data of one file is the file, without the space for the header with `-x`. -/
theorem data_single (hm : o.optType ≠ ihTypeMulti) (hs : o.optType ≠ ihTypeScript)
    {file : List Byte} (hfile : files o.datafile = some file)
    (h : imageData files o = some data) :
    data = file.drop (if o.xflag then imageHeaderSize else 0) := by
  have htype : ¬ (o.optType = ihTypeMulti ∨ o.optType = ihTypeScript) := not_or_intro hm hs
  rw [imageData, if_neg htype] at h
  cases hx : o.xflag with
  | true =>
    rw [hx] at h
    rw [copyFile_xip hfile (by have := hsmall _ _ hfile; omega) h, if_pos rfl]
  | false =>
    rw [hx, copyFile_eq_some hsmall, hfile] at h
    obtain ⟨d, hd, -, rfl⟩ := h
    simpa using (Option.some.inj hd).symm

include hsmall in
/-- The data of several files: their sizes up to a zero, and the files. -/
theorem data_multi (hm : o.optType = ihTypeMulti ∨ o.optType = ihTypeScript)
    (hx : o.xflag = false) : imageData files o = some data ↔
      ∃ ds, (dataNames o.datafile).map files = ds.map some ∧ (∀ d ∈ ds, IsData d) ∧
        data = sizesOf ds ++ contents ds := by
  rw [imageData, if_pos hm, hx]
  simp only [Option.bind_eq_bind, Option.bind_eq_some_iff, sizeList_eq_some, Option.pure_def,
    Option.some.injEq]
  constructor
  · rintro ⟨_, ⟨ds, hds, rfl⟩, bytes, hbytes, rfl⟩
    obtain ⟨hdata, rfl⟩ := (copyFiles_eq_some hsmall hds).mp hbytes
    exact ⟨ds, hds, hdata, rfl⟩
  · rintro ⟨ds, hds, hdata, rfl⟩
    exact ⟨_, ⟨ds, hds, rfl⟩, _, (copyFiles_eq_some hsmall hds).mpr ⟨hdata, rfl⟩, rfl⟩

end Data

end SmartQ.UBoot.Bootm
