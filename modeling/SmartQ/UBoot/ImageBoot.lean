import SmartQ.Lib.ShiftRegister
import SmartQ.UBoot.MkImage

/-!
# Images from `mkimage` under `bootm`

An image that `mkimage` writes and that lies in memory as it was written is accepted by
`do_bootm`, and what it is started with are the files it was made of.

* `mkimage_kernel`: a kernel is started at its entry point, with its file at the load address.
* `mkimage_multi`: the first file of several is the kernel, the second one its initrd.
* `mkimage_ramdisk`: an initramfs behind a zImage is passed on as its file.
* `corrupted_rejected`: an image in which a few consecutive bytes have changed is rejected.
-/

namespace SmartQ.UBoot.Bootm

open SmartQ.Lib

/-! ## Strings in memory -/

/-- The string `bs` lies at `a`. -/
structure Loaded (m : Ram) (a : ℕ) (bs : List Byte) : Prop where
  bytes : m.bytes a bs.length = bs
  fits : a + bs.length ≤ 2 ^ 32

/-- `n` bytes from `a` on and `k` bytes from `b` on have none in common. -/
def Apart (a n b k : ℕ) : Prop := a + n ≤ 2 ^ 32 ∧ (a + n ≤ b ∨ b + k ≤ a)

section Memory

variable {m : Ram} {a b k n i : ℕ} {bs cs : List Byte}

theorem Loaded.get (h : Loaded m a bs) (hi : i < bs.length) : m.get (a + i) = byteAt bs i := by
  rw [← Ram.byteAt_bytes hi, h.bytes]

theorem Loaded.part (h : Loaded m a bs) (hk : k + n ≤ bs.length) :
    m.bytes (a + k) n = (bs.drop k).take n := by
  have hlen : ((bs.drop k).take n).length = n := by simp; omega
  have hget : ∀ i < ((bs.drop k).take n).length,
      m.get (a + k + i) = byteAt ((bs.drop k).take n) i := by
    intro i hi
    rw [hlen] at hi
    rw [Nat.add_assoc, h.get (by omega), byteAt_of_lt (by omega), byteAt_of_lt (hlen.symm ▸ hi)]
    simp
  have := Ram.bytes_eq_of_get hget
  rwa [hlen] at this

theorem Loaded.be32 (h : Loaded m a bs) (hk : k + 4 ≤ bs.length) :
    be32 m (a + k) = be32At bs k := by
  have hbyte : ∀ i < 4, byteAt (m.bytes (a + k) 4) i = byteAt bs (k + i) := by
    intro i hi
    rw [Ram.byteAt_bytes hi, Nat.add_assoc, h.get (by omega)]
  unfold Bootm.be32 be32At
  rw [hbyte 0 (by omega), hbyte (0 + 1) (by omega), hbyte (0 + 2) (by omega),
    hbyte (0 + 3) (by omega)]
  rfl

theorem Loaded.wordAt (h : Loaded m a bs) (hk : k + 4 ≤ bs.length) :
    wordAt m (a + k) = u32At bs k := by
  have hbyte : ∀ i < 4, byteAt (m.bytes (a + k) 4) i = byteAt bs (k + i) := by
    intro i hi
    rw [Ram.byteAt_bytes hi, Nat.add_assoc, h.get (by omega)]
  unfold Bootm.wordAt u32At
  rw [hbyte 0 (by omega), hbyte (0 + 1) (by omega), hbyte (0 + 2) (by omega),
    hbyte (0 + 3) (by omega)]
  rfl

/-- A store apart from a string leaves it alone. -/
theorem Loaded.set (h : Loaded m b cs) (hap : Apart a bs.length b cs.length) :
    Loaded (m.set a bs) b cs where
  bytes := by
    have hfits := h.fits
    obtain ⟨hend, hside⟩ := hap
    apply Ram.bytes_eq_of_get
    intro i hi
    rw [Ram.get_set_off (by unfold sub32; omega), h.get hi]
  fits := h.fits

/-- A string that has been stored lies there. -/
theorem loaded_set (hfits : a + bs.length ≤ 2 ^ 32) : Loaded (m.set a bs) a bs where
  bytes := by rw [Ram.bytes_set_self le_rfl (by omega), List.take_length]
  fits := hfits

theorem Loaded.left (h : Loaded m a (bs ++ cs)) : Loaded m a bs where
  bytes := by
    have hpart := h.part (k := 0) (n := bs.length) (by simp)
    rwa [List.drop_zero, List.take_left] at hpart
  fits := by
    have := h.fits
    rw [List.length_append] at this
    omega

/-- The end of a string lies behind its start. -/
theorem Loaded.drop (h : Loaded m a bs) (hk : k ≤ bs.length) : Loaded m (a + k) (bs.drop k) where
  bytes := by
    rw [List.length_drop, h.part (by omega)]
    exact List.take_of_length_le (by rw [List.length_drop])
  fits := by
    have := h.fits
    rw [List.length_drop]
    omega

theorem Loaded.right (h : Loaded m a (bs ++ cs)) : Loaded m (a + bs.length) cs := by
  have hdrop := h.drop (k := bs.length) (by simp)
  rwa [List.drop_left] at hdrop

/-- An address is one of 32 bits, even that behind the last byte. -/
theorem Loaded.mod (h : Loaded m a bs) : Loaded m (a % 2 ^ 32) bs where
  bytes := by rw [Ram.bytes_mod, h.bytes]
  fits := by
    have := h.fits
    omega

theorem Apart.mod (h : Apart a n b k) (hfits : b + k ≤ 2 ^ 32) : Apart a n (b % 2 ^ 32) k := by
  unfold Apart at h ⊢
  omega

theorem Apart.part (h : Apart a n b k) {j i : ℕ} (hpart : i + j ≤ k) : Apart a n (b + i) j := by
  unfold Apart at h ⊢
  omega

end Memory

/-! ## The memory a kernel is started on -/

section Start

variable (e : BootEnv) (m : Ram)

/-- The memory behind the copy or the decompression of an image (lines 347–411). -/
def loadedRam (header : ImageHeader) (a : BootArgs) (data len : ℕ) : Option Ram :=
  if header.ihComp = ihCompNone then
    some (if header.ihLoad = a.addr then m else m.set header.ihLoad (m.bytes data len))
  else if header.ihComp = ihCompGzip then e.gunzip m header.ihLoad data len
  else none

/-- What is loaded of an image: an address and a length (lines 306–329). -/
def loadedPart (header : ImageHeader) (a : BootArgs) : Option (ℕ × ℕ) :=
  let data := add32 a.addr imageHeaderSize
  if header.ihType = ihTypeMulti then
    (wordsUntilZero m (data + 4) e.words).map fun n =>
      ((data + 8 + 4 * n) % 2 ^ 32, be32 m data)
  else some (data, header.ihSize)

/-- The memory a kernel is started on. -/
def startRam (a : BootArgs) : Option Ram :=
  if wordAt m (a.addr + 9 * 4) = linuxZimageMagic then some m
  else
    let header := ImageHeader.ofBytes (headerBytes m a.addr)
    if header.ihMagic ≠ ihMagic then some m
    else (loadedPart e m header a).bind fun (data, len) => loadedRam e m header a data len

/-- What a decompressor has to do for an image with the compression `comp`: the file unpacks to
    `plain`, wherever it lies and wherever that is apart from it. -/
def Unpacks (comp : ℕ) (file plain : List Byte) : Prop :=
  comp = ihCompNone ∧ plain = file ∨
    comp = ihCompGzip ∧ ∀ (m : Ram) (src dst : ℕ), Loaded m src file →
      Apart dst plain.length src file.length →
      e.gunzip m dst src file.length = some (m.set dst plain)

variable {e m} {header h : ImageHeader} {a : BootArgs} {data len : ℕ} {m' : Ram}

/-- A kernel that has been loaded is started. -/
theorem loadImage_eq (htype : header.ihType ≠ ihTypeStandalone)
    (hram : loadedRam e m header a data len = some m') :
    loadImage e m header a data len =
      afterHeaderCheck e m' header a (some (add32 a.addr imageHeaderSize)) := by
  unfold loadedRam at hram
  unfold loadImage
  simp only [if_neg htype]
  by_cases hnone : header.ihComp = ihCompNone
  · rw [if_pos hnone] at hram ⊢
    rw [Option.some.inj hram]
  · rw [if_neg hnone] at hram ⊢
    by_cases hgzip : header.ihComp = ihCompGzip
    · rw [if_pos hgzip] at hram ⊢
      rw [hram]
    · rw [if_neg hgzip] at hram
      cases hram

/-- An image that passes the checks and has been loaded is started. -/
theorem checkImage_eq (hcrc : headerCrc m a.addr = header.ihHcrc)
    (hdata : crc32 (m.bytes (add32 a.addr imageHeaderSize) header.ihSize) = header.ihDcrc)
    (harch : header.ihArch = ihCpuArm)
    (htype : header.ihType = ihTypeKernel ∨ header.ihType = ihTypeMulti)
    (hpart : loadedPart e m header a = some (data, len))
    (hram : loadedRam e m header a data len = some m') :
    checkImage e m header a = afterHeaderCheck e m' { header with ihHcrc := 0 } a
      (some (add32 a.addr imageHeaderSize)) := by
  have hload : loadImage e m { header with ihHcrc := 0 } a data len =
      afterHeaderCheck e m' { header with ihHcrc := 0 } a (some (add32 a.addr imageHeaderSize)) :=
    loadImage_eq (fun halone => by obtain h | h := htype <;> rw [h] at halone <;> cases halone) hram
  rw [checkImage]
  dsimp only
  rw [if_neg (not_not.mpr hcrc), if_neg (fun hbad => hbad.2 hdata), if_neg (not_not.mpr harch)]
  obtain hkernel | hmulti := htype
  · have hnot : ihTypeKernel ≠ ihTypeMulti := by decide
    have hpart' : (add32 a.addr imageHeaderSize, header.ihSize) = (data, len) := by
      rw [loadedPart, if_neg (hkernel ▸ hnot)] at hpart
      exact Option.some.inj hpart
    rw [if_neg (hkernel ▸ by decide), if_pos hkernel, ← hload]
    obtain ⟨rfl, rfl⟩ := Prod.mk.inj hpart'
    rfl
  · rw [if_neg (hmulti ▸ by decide), if_neg (hmulti ▸ by decide), if_pos hmulti, ← hload]
    rw [loadedPart, if_pos hmulti] at hpart
    cases hn : wordsUntilZero m (add32 a.addr imageHeaderSize + 4) e.words with
    | none =>
      rw [hn] at hpart
      cases hpart
    | some n =>
      rw [hn] at hpart
      obtain ⟨rfl, rfl⟩ := Prod.mk.inj (Option.some.inj hpart)
      rfl

end Start

/-! ## An image in memory -/

/-- The header of an image, as it is read. -/
def imageFields (o : Options) (time : ℕ) (data : List Byte) : ImageHeader :=
  headerFields o time data (crc32 (imageHeader o time data 0))

theorem mem_strncpy {c : Byte} {s : List Byte} {n : ℕ} (h : c ∈ strncpy s n) : c ∈ s ∨ c = 0 := by
  obtain hname | hzero := List.mem_append.mp (List.mem_of_mem_take h)
  · exact .inl (List.takeWhile_subset _ hname)
  · exact .inr (List.eq_of_mem_replicate hzero)

section Image

variable {e : BootEnv} {m m' : Ram} {h : ImageHeader} {a : BootArgs} {addr time : ℕ} {o : Options}
  {data : List Byte}

theorem Loaded.length_data (hl : Loaded m addr (image o time data)) :
    addr + imageHeaderSize + data.length ≤ 2 ^ 32 := by
  have := hl.fits
  rw [length_image] at this
  omega

theorem Loaded.data_lt (hl : Loaded m addr (image o time data)) :
    data.length % 2 ^ 32 = data.length := by
  have := hl.length_data
  unfold imageHeaderSize at this
  exact Nat.mod_eq_of_lt (by omega)

theorem Loaded.headerBytes (hl : Loaded m addr (image o time data)) :
    headerBytes m addr = imageHeader o time data (crc32 (imageHeader o time data 0)) := by
  have hpart := hl.part (k := 0) (n := imageHeaderSize) (by rw [length_image]; omega)
  rwa [List.drop_zero, take_image] at hpart

theorem Loaded.fields (hl : Loaded m addr (image o time data)) :
    ImageHeader.ofBytes (Bootm.headerBytes m addr) = imageFields o time data := by
  rw [hl.headerBytes, imageFields, ← ofBytes_imageHeader [], List.append_nil]

theorem Loaded.headerCrc (hl : Loaded m addr (image o time data)) :
    headerCrc m addr = (imageFields o time data).ihHcrc := by
  rw [Bootm.headerCrc, hl.headerBytes, blank_imageHeader]
  exact (Nat.mod_eq_of_lt (crc32_lt _)).symm

theorem Loaded.body (hl : Loaded m addr (image o time data)) :
    Loaded m (addr + imageHeaderSize) data := by
  have hdrop := hl.drop (k := imageHeaderSize) (by rw [length_image]; omega)
  rwa [drop_image] at hdrop

theorem Loaded.dataCrc (hl : Loaded m addr (image o time data)) :
    crc32 (m.bytes (add32 addr imageHeaderSize) (imageFields o time data).ihSize) =
      (imageFields o time data).ihDcrc := by
  show crc32 (m.bytes ((addr + imageHeaderSize) % 2 ^ 32) (data.length % 2 ^ 32)) =
    crc32 (data.take (data.length % 2 ^ 32)) % 2 ^ 32
  rw [Nat.mod_eq_of_lt (crc32_lt _), hl.data_lt, Ram.bytes_mod, hl.body.bytes, List.take_length]

/-- A name without control characters does not look like the magic of a zImage. -/
theorem Loaded.not_zImage (hl : Loaded m addr (image o time data))
    (hname : ∀ c ∈ o.name, 32 ≤ c) : Bootm.wordAt m (addr + 9 * 4) ≠ linuxZimageMagic := by
  have hlen : 9 * 4 + 4 ≤ (image o time data).length := by
    rw [length_image, imageHeaderSize]
    omega
  have hbyte : byteAt (image o time data) (9 * 4) = byteAt (strncpy o.name ihNmlen) 4 := by
    rw [image, imageHeader, List.append_assoc, byteAt_append_right _ (by simp),
      byteAt_append_left _ (by simp [ihNmlen])]
    rfl
  rw [hl.wordAt hlen]
  intro hmagic
  have hlow : u32At (image o time data) (9 * 4) % 2 ^ 8 =
      (byteAt (image o time data) (9 * 4)).toNat := by
    have hb := (byteAt (image o time data) (9 * 4)).toNat_lt
    unfold u32At word32
    omega
  rw [hmagic, hbyte] at hlow
  have hmem : byteAt (strncpy o.name ihNmlen) 4 ∈ strncpy o.name ihNmlen := by
    rw [byteAt_of_lt (by rw [length_strncpy]; decide)]
    exact List.getElem_mem _
  have h18 : byteAt (strncpy o.name ihNmlen) 4 = 0x18 := UInt8.toNat_inj.mp hlow.symm
  rw [h18] at hmem
  obtain hc | hc := mem_strncpy hmem
  · exact absurd (hname _ hc) (by decide)
  · exact absurd hc (by decide)

/-- An image of a kernel, or of several files, that has been loaded is started. -/
theorem doBootm_loaded (hl : Loaded m a.addr (image o time data)) (hname : ∀ c ∈ o.name, 32 ≤ c)
    (harch : o.optArch = ihCpuArm) (htype : o.optType = ihTypeKernel ∨ o.optType = ihTypeMulti)
    {d len : ℕ} (hpart : loadedPart e m (imageFields o time data) a = some (d, len))
    (hram : loadedRam e m (imageFields o time data) a d len = some m') :
    startRam e m a = some m' ∧
      doBootm e m h a = afterHeaderCheck e m' { imageFields o time data with ihHcrc := 0 } a
        (some (add32 a.addr imageHeaderSize)) := by
  have hz := hl.not_zImage hname
  have hmagic : ¬ (imageFields o time data).ihMagic ≠ ihMagic := not_not.mpr rfl
  have harch' : (imageFields o time data).ihArch = ihCpuArm := by
    show o.optArch % 2 ^ 8 = ihCpuArm
    rw [harch]
    rfl
  have htype' : (imageFields o time data).ihType = ihTypeKernel ∨
      (imageFields o time data).ihType = ihTypeMulti := by
    show o.optType % 2 ^ 8 = ihTypeKernel ∨ o.optType % 2 ^ 8 = ihTypeMulti
    obtain h | h := htype
    · exact .inl (by rw [h]; rfl)
    · exact .inr (by rw [h]; rfl)
  constructor
  · rw [startRam, if_neg hz, hl.fields]
    dsimp only
    rw [if_neg hmagic, hpart]
    exact hram
  · rw [doBootm, if_neg hz, hl.fields]
    dsimp only
    rw [if_neg hmagic]
    exact checkImage_eq hl.headerCrc hl.dataCrc harch' htype' hpart hram

end Image

/-! ## What is started -/

/-- The memory behind an image that unpacks to `plain`: a kernel that is to be loaded where its
    image lies stays there. -/
def placed (m : Ram) (o : Options) (addr : ℕ) (plain : List Byte) : Ram :=
  if o.optComp = ihCompNone ∧ o.addr = addr then m else m.set o.addr plain

/-- There is room to load an image of `len` bytes at `addr`. -/
def Room (o : Options) (addr len : ℕ) (plain : List Byte) : Prop :=
  o.optComp = ihCompNone ∧ o.addr = addr ∨ Apart o.addr plain.length addr len

section Placed

variable {e : BootEnv} {m m' : Ram} {h : ImageHeader} {addr time i : ℕ} {o : Options}
  {image file plain data : List Byte}

theorem Loaded.placed {img : List Byte} (hl : Loaded m addr img)
    (hroom : Room o addr img.length plain) : Loaded (placed m o addr plain) addr img := by
  unfold Bootm.placed
  by_cases hplace : o.optComp = ihCompNone ∧ o.addr = addr
  · rwa [if_pos hplace]
  · rw [if_neg hplace]
    exact hl.set (hroom.resolve_left hplace)

/-- What has been loaded: `data` bytes into an image in place, else at the load address. -/
theorem placed_bytes {img : List Byte} (hl : Loaded m (addr + i) file)
    (hroom : Room o addr img.length plain) (hplain : Unpacks e o.optComp file plain) :
    (placed m o addr plain).bytes
      (if o.optComp = ihCompNone ∧ o.addr = addr then addr + i else o.addr) plain.length =
      plain := by
  unfold placed
  by_cases hplace : o.optComp = ihCompNone ∧ o.addr = addr
  · have hfile : plain = file := by
      obtain ⟨-, rfl⟩ | ⟨hgzip, -⟩ := hplain
      · rfl
      · rw [hplace.1] at hgzip
        cases hgzip
    rw [if_pos hplace, if_pos hplace, hfile]
    exact hl.bytes
  · rw [if_neg hplace, if_neg hplace]
    obtain ⟨hend, -⟩ := hroom.resolve_left hplace
    exact (loaded_set hend).bytes

/-- The file of an image, somewhere in it, is loaded. -/
theorem loadedRam_placed {a : BootArgs} {img : List Byte} (hl : Loaded m (a.addr + i) file)
    (hin : i + file.length ≤ img.length) (hcomp : o.optComp < 2 ^ 8)
    (hroom : Room o a.addr img.length plain) (hplain : Unpacks e o.optComp file plain) :
    loadedRam e m (imageFields o time data) a ((a.addr + i) % 2 ^ 32) file.length =
      some (placed m o a.addr plain) := by
  have hc : (imageFields o time data).ihComp = o.optComp := Nat.mod_eq_of_lt hcomp
  have hload : (imageFields o time data).ihLoad = o.addr := Nat.mod_eq_of_lt o.addr_lt
  rw [loadedRam, placed, hc, hload]
  obtain ⟨hnone, rfl⟩ | ⟨hgzip, hgunzip⟩ := hplain
  · rw [if_pos hnone, hl.mod.bytes]
    by_cases haddr : o.addr = a.addr
    · rw [if_pos haddr, if_pos ⟨hnone, haddr⟩]
    · rw [if_neg haddr, if_neg fun hplace => haddr hplace.2]
  · have hne : o.optComp ≠ ihCompNone := by
      rw [hgzip]
      decide
    have hap := (hroom.resolve_left fun hplace => hne hplace.1).part hin
    rw [if_neg hne, if_pos hgzip, if_neg fun hplace => hne hplace.1]
    exact hgunzip m _ _ hl.mod (hap.mod hl.fits)

theorem Unpacks.comp_lt (hplain : Unpacks e o.optComp file plain) : o.optComp < 2 ^ 8 := by
  obtain ⟨hcomp, -⟩ | ⟨hcomp, -⟩ := hplain <;> rw [hcomp] <;> decide

end Placed

/-! ## The list of sizes in memory -/

section Sizes

variable {m : Ram} {x : ℕ} {ds : List (List Byte)} {d d' rest : List Byte}

theorem Loaded.tail (hl : Loaded m x (sizesOf (d :: ds) ++ rest)) :
    Loaded m (x + 4) (sizesOf ds ++ rest) := by
  rw [sizesOf_cons, List.append_assoc] at hl
  exact hl.right

/-- The size of a file is not zero. -/
theorem wordAt_sizes (hd : IsData d) (hl : Loaded m x (sizesOf (d :: ds) ++ rest)) :
    wordAt m x ≠ 0 := by
  have h0 := hl.wordAt (k := 0) (by simp [length_sizesOf]; omega)
  have hpos := List.length_pos_iff.mpr hd.1
  have hsmall := hd.2
  rw [Nat.add_zero, sizesOf_cons, List.append_assoc] at h0
  rw [h0, ne_eq, u32At_htonlBytes]
  omega

/-- The list of sizes ends behind the last file. -/
theorem wordsUntilZero_sizes (hds : ∀ d ∈ ds, IsData d) (hl : Loaded m x (sizesOf ds ++ rest))
    {fuel : ℕ} (hfuel : ds.length < fuel) : wordsUntilZero m x fuel = some ds.length := by
  induction ds generalizing x fuel with
  | nil =>
    obtain ⟨fuel, rfl⟩ := Nat.exists_eq_add_one_of_ne_zero (by omega : fuel ≠ 0)
    have hword : wordAt m x = 0 := by
      have h0 := hl.wordAt (k := 0) (by simp [length_sizesOf])
      rw [Nat.add_zero] at h0
      rw [h0]
      exact (u32At_htonlBytes 0 rest).mpr rfl
    rw [wordsUntilZero, if_pos hword]
    rfl
  | cons d ds ih =>
    obtain ⟨fuel, rfl⟩ := Nat.exists_eq_add_one_of_ne_zero (by omega : fuel ≠ 0)
    have hword := wordAt_sizes (hds d List.mem_cons_self) hl
    have hfuel' : ds.length < fuel := by
      rw [List.length_cons] at hfuel
      omega
    have hrest := ih (fun d hd => hds d (List.mem_cons_of_mem _ hd)) hl.tail hfuel'
    rw [wordsUntilZero, if_neg hword, hrest]
    rfl

/-- The first size in it. -/
theorem be32_sizes (hd : IsData d) (hl : Loaded m x (sizesOf (d :: ds) ++ rest)) :
    be32 m x = d.length := by
  have h0 := hl.be32 (k := 0) (by simp [length_sizesOf]; omega)
  obtain ⟨-, hsmall⟩ := hd
  rw [Nat.add_zero] at h0
  rw [h0, sizesOf_cons, List.append_assoc, be32At_htonlBytes]
  omega

theorem exists_contents (d : List Byte) (ds : List (List Byte)) :
    ∃ rest, contents (d :: ds) = d ++ rest := by
  cases ds with
  | nil => exact ⟨[], (List.append_nil d).symm⟩
  | cons d' ds => exact ⟨_, List.append_assoc _ _ _⟩

theorem length_aligned (d : List Byte) :
    (aligned d).length = d.length + (4 - d.length % 4) % 4 := by
  rw [aligned, List.length_append, List.length_replicate]

/-- The first file behind the list. -/
theorem Loaded.first (hl : Loaded m x (sizesOf (d :: ds) ++ contents (d :: ds))) :
    Loaded m (x + 4 * (ds.length + 2)) d := by
  have hfile := hl.right
  obtain ⟨rest, hrest⟩ := exists_contents d ds
  rw [hrest, length_sizesOf] at hfile
  exact hfile.left

/-- The second one, where `multiInitrd` looks for it. -/
theorem Loaded.second (hl : Loaded m x (sizesOf (d :: d' :: ds) ++ contents (d :: d' :: ds))) :
    Loaded m (x + 4 * (ds.length + 3) + (aligned d).length) d' := by
  have hfile := hl.right.right
  obtain ⟨rest, hrest⟩ := exists_contents d' ds
  rw [hrest, length_sizesOf] at hfile
  exact hfile.left

/-- A kernel alone gets no initrd. -/
theorem wordAt_single (hl : Loaded m x (sizesOf [d] ++ rest)) : wordAt m (x + 4) = 0 := by
  have h0 := hl.tail.wordAt (k := 0) (by simp [length_sizesOf])
  rw [Nat.add_zero] at h0
  rw [h0]
  exact (u32At_htonlBytes 0 rest).mpr rfl

/-- The second file is the initrd. -/
theorem multiInitrd_eq {e : BootEnv} {entry : ℕ} (hds : ∀ f ∈ d :: d' :: ds, IsData f)
    (hl : Loaded m x (sizesOf (d :: d' :: ds) ++ contents (d :: d' :: ds)))
    (hwords : ds.length + 1 < e.words) :
    multiInitrd e m entry x = .linux entry (x + 4 * (ds.length + 3) + (aligned d).length)
      (add32 (x + 4 * (ds.length + 3) + (aligned d).length) d'.length) := by
  have hd := hds d List.mem_cons_self
  have hd' := hds d' (List.mem_cons_of_mem _ List.mem_cons_self)
  have hsecond := hl.second
  have hpos := List.length_pos_iff.mpr hd'.1
  have hscan := wordsUntilZero_sizes (fun f hf => hds f (List.mem_cons_of_mem _ hf)) hl.tail hwords
  have hlt := hsecond.fits
  have hstart : (x + 8 + 4 * (d' :: ds).length + d.length +
      (if d.length % 4 = 0 then 0 else 4 - d.length % 4)) % 2 ^ 32 =
      x + 4 * (ds.length + 3) + (aligned d).length := by
    rw [length_aligned, List.length_cons] at *
    split_ifs <;> omega
  rw [multiInitrd, hscan]
  dsimp only
  rw [be32_sizes hd hl, be32_sizes hd' hl.tail, hstart, enterLinux, if_pos (by omega)]

end Sizes

/-! ## Changed bytes -/

section Changed

variable {hs hs' : List Byte}

theorem be32At_inj {xs ys : List Byte} {k : ℕ} (h : be32At xs k = be32At ys k) :
    ∀ i, k ≤ i → i < k + 4 → byteAt xs i = byteAt ys i := by
  have hbytes : byteAt xs k = byteAt ys k ∧ byteAt xs (k + 1) = byteAt ys (k + 1) ∧
      byteAt xs (k + 2) = byteAt ys (k + 2) ∧ byteAt xs (k + 3) = byteAt ys (k + 3) := by
    have hx0 := (byteAt xs k).toNat_lt
    have hx1 := (byteAt xs (k + 1)).toNat_lt
    have hx2 := (byteAt xs (k + 2)).toNat_lt
    have hx3 := (byteAt xs (k + 3)).toNat_lt
    have hy0 := (byteAt ys k).toNat_lt
    have hy1 := (byteAt ys (k + 1)).toNat_lt
    have hy2 := (byteAt ys (k + 2)).toNat_lt
    have hy3 := (byteAt ys (k + 3)).toNat_lt
    unfold be32At word32 at h
    simp only [← UInt8.toNat_inj]
    omega
  intro i hk hi
  obtain rfl | rfl | rfl | rfl : i = k ∨ i = k + 1 ∨ i = k + 2 ∨ i = k + 3 := by omega
  · exact hbytes.1
  · exact hbytes.2.1
  · exact hbytes.2.2.1
  · exact hbytes.2.2.2

theorem be32At_congr {xs ys : List Byte} {k : ℕ}
    (h : ∀ i, k ≤ i → i < k + 4 → xs[i]? = ys[i]?) : be32At xs k = be32At ys k := by
  have hbyte : ∀ i < 4, byteAt xs (k + i) = byteAt ys (k + i) := by
    intro i hi
    rw [byteAt, byteAt, List.getD_eq_getElem?_getD, List.getD_eq_getElem?_getD,
      h _ (by omega) (by omega)]
  have h0 := hbyte 0 (by omega)
  rw [Nat.add_zero] at h0
  rw [be32At, be32At, h0, hbyte 1 (by omega), hbyte 2 (by omega), hbyte 3 (by omega)]

/-- A header with its checksum blanked: the rest of it is as it was. -/
theorem getElem?_blank (hlen : hs.length = imageHeaderSize) (i : ℕ) :
    (hs.take 4 ++ [0, 0, 0, 0] ++ hs.drop 8)[i]? =
      if 4 ≤ i ∧ i < 8 then some 0 else hs[i]? := by
  have htake : (hs.take 4).length = 4 := by
    rw [List.length_take, hlen]
    rfl
  have hboth : (hs.take 4 ++ [0, 0, 0, 0]).length = 8 := by
    rw [List.length_append, htake]
    rfl
  by_cases h4 : i < 4
  · rw [List.getElem?_append_left (by omega), List.getElem?_append_left (by omega),
      List.getElem?_take_of_lt h4, if_neg (by omega)]
  · by_cases h8 : i < 8
    · rw [List.getElem?_append_left (by omega), List.getElem?_append_right (by omega), htake,
        if_pos ⟨by omega, h8⟩]
      obtain rfl | rfl | rfl | rfl : i = 4 ∨ i = 5 ∨ i = 6 ∨ i = 7 := by omega
      all_goals rfl
    · rw [List.getElem?_append_right (by omega), hboth, List.getElem?_drop, if_neg (by omega)]
      congr 1
      omega

/-- Up to four consecutive bytes of an image have changed: in its checksum, or behind it. -/
structure Corrupted (img bad : List Byte) (k : ℕ) : Prop where
  length : bad.length = img.length
  place : k = 4 ∨ 8 ≤ k
  same : ∀ i, i < k ∨ k + 4 ≤ i → bad[i]? = img[i]?
  ne : bad ≠ img

/-- A header whose own checksum is right, as that of another one is from which it differs in a
    few bytes, is the same. -/
theorem header_unchanged {k : ℕ} (hlen : hs.length = imageHeaderSize)
    (hlen' : hs'.length = imageHeaderSize) (hk : k = 4 ∨ 8 ≤ k)
    (hsame : ∀ i, i < k ∨ k + 4 ≤ i → hs'[i]? = hs[i]?)
    (hcrc : crc32 (hs.take 4 ++ [0, 0, 0, 0] ++ hs.drop 8) = be32At hs 4)
    (hcrc' : crc32 (hs'.take 4 ++ [0, 0, 0, 0] ++ hs'.drop 8) = be32At hs' 4) : hs' = hs := by
  have hfield : be32At hs' 4 = be32At hs 4 ∧ ∀ i, ¬ (4 ≤ i ∧ i < 8) → hs'[i]? = hs[i]? := by
    obtain rfl | hk := hk
    · -- only the checksum has changed
      have hrest : ∀ i, ¬ (4 ≤ i ∧ i < 8) → hs'[i]? = hs[i]? := fun i hi => hsame i (by omega)
      have hblank : hs'.take 4 ++ [0, 0, 0, 0] ++ hs'.drop 8 =
          hs.take 4 ++ [0, 0, 0, 0] ++ hs.drop 8 := by
        apply List.ext_getElem?
        intro i
        rw [getElem?_blank hlen', getElem?_blank hlen]
        by_cases hi : 4 ≤ i ∧ i < 8
        · rw [if_pos hi, if_pos hi]
        · rw [if_neg hi, if_neg hi, hrest i hi]
      rw [hblank, hcrc] at hcrc'
      exact ⟨hcrc'.symm, hrest⟩
    · have hword : be32At hs' 4 = be32At hs 4 := be32At_congr fun i _ hi => hsame i (.inl (by omega))
      have hblank : hs'.take 4 ++ [0, 0, 0, 0] ++ hs'.drop 8 =
          hs.take 4 ++ [0, 0, 0, 0] ++ hs.drop 8 := by
        apply crc32_window (k := k) (by simp [hlen, hlen'])
        · intro i hi
          rw [getElem?_blank hlen', getElem?_blank hlen, hsame i hi]
        · rw [hcrc', hword, hcrc]
      refine ⟨hword, fun i hi => ?_⟩
      have hi' := congrArg (fun l => l[i]?) hblank
      simp only [getElem?_blank hlen', getElem?_blank hlen, if_neg hi] at hi'
      exact hi'
  apply List.ext_getElem?
  intro i
  by_cases hi : 4 ≤ i ∧ i < 8
  · have hbyte := be32At_inj hfield.1 i hi.1 hi.2
    rw [imageHeaderSize] at hlen hlen'
    rw [byteAt_of_lt (by omega), byteAt_of_lt (by omega)] at hbyte
    rw [List.getElem?_eq_getElem (by omega), List.getElem?_eq_getElem (by omega), hbyte]
  · exact hfield.2 i hi

/-- The header of an image, by itself. -/
theorem ofBytes_image {o : Options} {time : ℕ} {data : List Byte} :
    ImageHeader.ofBytes ((image o time data).take imageHeaderSize) = imageFields o time data := by
  rw [take_image, imageFields, ← ofBytes_imageHeader [], List.append_nil]

variable {m : Ram} {o : Options} {addr time k : ℕ} {data bad : List Byte}

theorem Corrupted.headerBytes (h : Corrupted (image o time data) bad k) (hl : Loaded m addr bad) :
    headerBytes m addr = bad.take imageHeaderSize := by
  have hlen := h.length
  have hpart := hl.part (k := 0) (n := imageHeaderSize) (by rw [length_image] at hlen; omega)
  rwa [List.drop_zero] at hpart

theorem Corrupted.take (h : Corrupted (image o time data) bad k) :
    ∀ i, i < k ∨ k + 4 ≤ i →
      (bad.take imageHeaderSize)[i]? = ((image o time data).take imageHeaderSize)[i]? := by
  intro i hi
  rw [List.getElem?_take, List.getElem?_take, h.same i hi]

theorem Corrupted.magic (h : Corrupted (image o time data) bad k) :
    (ImageHeader.ofBytes (bad.take imageHeaderSize)).ihMagic = ihMagic := by
  have hk := h.place
  have hword : be32At (bad.take imageHeaderSize) 0 =
      be32At ((image o time data).take imageHeaderSize) 0 :=
    be32At_congr fun i _ hi => h.take i (.inl (by omega))
  have hgood : ImageHeader.ofBytes ((image o time data).take imageHeaderSize) =
      imageFields o time data := ofBytes_image
  exact hword.trans (congrArg ImageHeader.ihMagic hgood)

theorem Corrupted.header (h : Corrupted (image o time data) bad k)
    (hcrc : crc32 ((bad.take imageHeaderSize).take 4 ++ [0, 0, 0, 0] ++
      (bad.take imageHeaderSize).drop 8) =
        (ImageHeader.ofBytes (bad.take imageHeaderSize)).ihHcrc) :
    bad.take imageHeaderSize = (image o time data).take imageHeaderSize := by
  have hlen := h.length
  have hgood : (imageFields o time data).ihHcrc = crc32 (imageHeader o time data 0) :=
    Nat.mod_eq_of_lt (crc32_lt _)
  have hfield : be32At ((image o time data).take imageHeaderSize) 4 =
      (imageFields o time data).ihHcrc :=
    congrArg ImageHeader.ihHcrc ofBytes_image
  apply header_unchanged (by rw [take_image, length_imageHeader])
    (List.length_take_of_le (by rw [hlen, length_image]; omega)) h.place h.take _ hcrc
  rw [hfield, hgood, take_image, blank_imageHeader]

/-- Where the header is as it was, the data is not, and nor is its checksum. -/
theorem Corrupted.dataCrc (h : Corrupted (image o time data) bad k)
    (hhead : bad.take imageHeaderSize = (image o time data).take imageHeaderSize)
    (hl : Loaded m addr bad) :
    crc32 (m.bytes (add32 addr imageHeaderSize) (imageFields o time data).ihSize) ≠
      (imageFields o time data).ihDcrc := by
  have hlen := h.length
  have hfits := hl.fits
  rw [length_image] at hlen
  have hsize : data.length % 2 ^ 32 = data.length := by
    rw [imageHeaderSize] at hlen
    exact Nat.mod_eq_of_lt (by omega)
  have hbody : m.bytes (add32 addr imageHeaderSize) data.length = bad.drop imageHeaderSize := by
    rw [add32, Ram.bytes_mod, hl.part (by omega)]
    exact List.take_of_length_le (by rw [List.length_drop]; omega)
  show crc32 (m.bytes (add32 addr imageHeaderSize) (data.length % 2 ^ 32)) ≠
    crc32 (data.take (data.length % 2 ^ 32)) % 2 ^ 32
  rw [Nat.mod_eq_of_lt (crc32_lt _), hsize, hbody, List.take_length]
  intro hcrc
  have hdata : bad.drop imageHeaderSize = data := by
    apply crc32_window (k := k - imageHeaderSize) (by rw [List.length_drop]; omega) _ hcrc
    intro i hi
    have hbyte := h.same (imageHeaderSize + i) (by omega)
    rwa [← List.getElem?_drop, ← List.getElem?_drop, drop_image] at hbyte
  apply h.ne
  rw [← List.take_append_drop imageHeaderSize bad, hhead, hdata, take_image]
  rfl

end Changed

/-! ## The results -/

/-- Two files: a kernel and an initrd. -/
def sampleFiles : Files := fun f =>
  if f = ascii "zImage" then some [0xfe, 0xde, 0xff, 0xe7, 0x2a]
  else if f = ascii "initrd" then some [0x1f, 0x8b, 8] else none

/-- The options `-A arm -O linux -T … -C none -a 50008000 -n Linux -d …`. -/
def sampleOptions (optType : ℕ) (datafile : List Byte) : Options where
  xflag := false
  optOs := ihOsLinux
  optArch := ihCpuArm
  optType := optType
  optComp := ihCompNone
  addr := 0x50008000
  ep := none
  name := ascii "Linux"
  datafile := datafile
  addr_lt := by decide
  ep_lt := by simp

theorem sampleFiles_small : ∀ f d, sampleFiles f = some d → d.length < 2 ^ 32 - 1 := by
  intro f d h
  unfold sampleFiles at h
  split_ifs at h <;> cases h <;> decide

section Results

variable {e : BootEnv} {m : Ram} {h : ImageHeader} {files : Files} {addr time : ℕ} {o : Options}
  {img file plain : List Byte}
  (hsmall : ∀ f d, files f = some d → d.length < 2 ^ 32 - 1)

theorem mkimage_eq (hmk : mkimage files time o = some img) :
    ∃ data, imageData files o = some data ∧ img = image o time data := by
  rw [mkimage] at hmk
  by_cases hxip : o.xflag ∧ o.entry ≠ o.addr + imageHeaderSize
  · rw [if_pos hxip] at hmk
    cases hmk
  · rw [if_neg hxip, Option.bind_eq_bind, Option.bind_eq_some_iff] at hmk
    obtain ⟨data, hdata, himg⟩ := hmk
    exact ⟨data, hdata, (Option.some.inj himg).symm⟩

theorem Options.entry_lt (o : Options) : o.entry < 2 ^ 32 := by
  rw [Options.entry]
  cases hep : o.ep with
  | some ep => exact o.ep_lt ep hep
  | none =>
    dsimp only [Option.getD_none]
    split_ifs
    · exact add32_lt _ _
    · exact o.addr_lt

include hsmall in
/-- A kernel in an image is started at its entry point, without an initrd, and its file lies at
    the load address; or behind the header, if that is where the image is. -/
theorem mkimage_kernel (hmk : mkimage files time o = some img) (htype : o.optType = ihTypeKernel)
    (harch : o.optArch = ihCpuArm) (hos : o.optOs = ihOsLinux) (hname : ∀ c ∈ o.name, 32 ≤ c)
    (hl : Loaded m addr img) (hfile : files o.datafile = some file)
    (hplain : Unpacks e o.optComp (file.drop (if o.xflag then imageHeaderSize else 0)) plain)
    (hroom : Room o addr img.length plain) :
    ∃ m', startRam e m ⟨addr, none⟩ = some m' ∧
      (doBootm e m h ⟨addr, none⟩).outcome = .linux o.entry 0 0 ∧
      m'.bytes (if o.optComp = ihCompNone ∧ o.addr = addr then addr + imageHeaderSize else o.addr)
        plain.length = plain := by
  obtain ⟨data, hdata, rfl⟩ := mkimage_eq hmk
  have heq := data_single hsmall (htype ▸ by decide) (htype ▸ by decide) hfile hdata
  rw [← heq] at hplain
  have htype' : (imageFields o time data).ihType = ihTypeKernel := by
    show o.optType % 2 ^ 8 = ihTypeKernel
    rw [htype]
    rfl
  have hpart : loadedPart e m (imageFields o time data) ⟨addr, none⟩ =
      some ((addr + imageHeaderSize) % 2 ^ 32, data.length) := by
    rw [loadedPart, if_neg (htype'.symm ▸ by decide)]
    exact congrArg (fun n => some (_, n)) hl.data_lt
  have hram : loadedRam e m (imageFields o time data) ⟨addr, none⟩
      ((addr + imageHeaderSize) % 2 ^ 32) data.length = some (placed m o addr plain) :=
    loadedRam_placed (a := ⟨addr, none⟩) hl.body (by rw [length_image]) hplain.comp_lt hroom hplain
  obtain ⟨hstart, hboot⟩ := doBootm_loaded (h := h) hl hname harch (.inl htype) hpart hram
  have hos' : ({ imageFields o time data with ihHcrc := 0 } : ImageHeader).ihOs = ihOsLinux := by
    show o.optOs % 2 ^ 8 = ihOsLinux
    rw [hos]
    rfl
  have hentry : o.entry % 2 ^ 32 = o.entry := Nat.mod_eq_of_lt o.entry_lt
  refine ⟨_, hstart, ?_, placed_bytes hl.body hroom hplain⟩
  rw [hboot, afterHeaderCheck_linux hos', doBootmLinux_plain rfl (htype'.symm ▸ by decide)]
  exact congrArg (Boot.linux · 0 0) hentry

theorem mkimage_kernel_sample : ∃ img m', mkimage sampleFiles 0
      (sampleOptions ihTypeKernel (ascii "zImage")) = some img ∧
    startRam plainEnv (Ram.set (fun _ => 0) 0x51000000 img) ⟨0x51000000, none⟩ = some m' ∧
    (doBootm plainEnv (Ram.set (fun _ => 0) 0x51000000 img) .zero ⟨0x51000000, none⟩).outcome =
      .linux 0x50008000 0 0 ∧
    m'.bytes 0x50008000 5 = [0xfe, 0xde, 0xff, 0xe7, 0x2a] := by
  have hmk : mkimage sampleFiles 0 (sampleOptions ihTypeKernel (ascii "zImage")) =
      some (image (sampleOptions ihTypeKernel (ascii "zImage")) 0
        [0xfe, 0xde, 0xff, 0xe7, 0x2a]) := by decide +kernel
  have hfile : sampleFiles (ascii "zImage") = some [0xfe, 0xde, 0xff, 0xe7, 0x2a] := by decide
  have hname : ∀ c ∈ ascii "Linux", (32 : Byte) ≤ c := by decide +kernel
  obtain ⟨m', hram, hout, hbytes⟩ := mkimage_kernel (e := plainEnv) (h := .zero)
    sampleFiles_small hmk rfl rfl rfl hname (@loaded_set (fun _ => 0) 0x51000000 _
      (by rw [length_image]; decide)) hfile (.inl ⟨rfl, rfl⟩) (.inr ⟨by decide, .inl (by decide)⟩)
  exact ⟨_, m', hmk, hram, hout, hbytes⟩

include hsmall in
/-- Of several files the first one is started as a kernel is, and finds the second one as its
    initrd. -/
theorem mkimage_multi {kernel : List Byte} {rest : List (List Byte)}
    (hmk : mkimage files time o = some img) (htype : o.optType = ihTypeMulti)
    (hx : o.xflag = false) (harch : o.optArch = ihCpuArm) (hos : o.optOs = ihOsLinux)
    (hname : ∀ c ∈ o.name, 32 ≤ c) (hl : Loaded m addr img)
    (hfiles : (dataNames o.datafile).map files = (kernel :: rest).map some)
    (hplain : Unpacks e o.optComp kernel plain) (hroom : Room o addr img.length plain)
    (hwords : e.words = 2 ^ 30) :
    ∃ m', startRam e m ⟨addr, none⟩ = some m' ∧
      m'.bytes (if o.optComp = ihCompNone ∧ o.addr = addr then
        addr + (imageHeaderSize + 4 * (rest.length + 2)) else o.addr) plain.length = plain ∧
      match rest with
      | [] => (doBootm e m h ⟨addr, none⟩).outcome = .linux o.entry 0 0
      | initrd :: _ => ∃ start, m'.bytes start initrd.length = initrd ∧
        (doBootm e m h ⟨addr, none⟩).outcome =
          .linux o.entry start (add32 start initrd.length) := by
  obtain ⟨data, hdata, rfl⟩ := mkimage_eq hmk
  obtain ⟨ds, hds, hall, rfl⟩ := (data_multi hsmall (.inl htype) hx).mp hdata
  obtain rfl : ds = kernel :: rest :=
    List.map_injective_iff.mpr (Option.some_injective _) (hds.symm.trans hfiles)
  have hbody := hl.body
  have hkernel := hall kernel List.mem_cons_self
  have hpos := List.length_pos_iff.mpr hkernel.1
  have hfirst := hbody.first
  have hlen : (sizesOf (kernel :: rest)).length = 4 * (rest.length + 2) := length_sizesOf
  have hadd : add32 addr imageHeaderSize = addr + imageHeaderSize := by
    have := hfirst.fits
    exact add32_of_lt (by omega)
  have hcount : rest.length + 1 < e.words := by
    have := hfirst.fits
    rw [hwords]
    omega
  have htype' : (imageFields o time (sizesOf (kernel :: rest) ++ contents (kernel :: rest))).ihType =
      ihTypeMulti := by
    show o.optType % 2 ^ 8 = ihTypeMulti
    rw [htype]
    rfl
  -- the first scan skips the sizes of the other files
  have hscan := wordsUntilZero_sizes (fun d hd => hall d (List.mem_cons_of_mem _ hd)) hbody.tail
    (by omega : rest.length < e.words)
  have hat : addr + imageHeaderSize + 8 + 4 * rest.length =
      addr + (imageHeaderSize + 4 * (rest.length + 2)) := by omega
  have hpart : loadedPart e m (imageFields o time
      (sizesOf (kernel :: rest) ++ contents (kernel :: rest))) ⟨addr, none⟩ =
      some ((addr + (imageHeaderSize + 4 * (rest.length + 2))) % 2 ^ 32, kernel.length) := by
    rw [loadedPart, if_pos htype', hadd, hscan, be32_sizes hkernel hbody, ← hat]
    rfl
  have hfirst' : Loaded m (addr + (imageHeaderSize + 4 * (rest.length + 2))) kernel := by
    rwa [← Nat.add_assoc]
  have hin : imageHeaderSize + 4 * (rest.length + 2) + kernel.length ≤
      (image o time (sizesOf (kernel :: rest) ++ contents (kernel :: rest))).length := by
    obtain ⟨more, hmore⟩ := exists_contents kernel rest
    rw [length_image, List.length_append, hlen, hmore, List.length_append]
    omega
  have hram : loadedRam e m
      (imageFields o time (sizesOf (kernel :: rest) ++ contents (kernel :: rest))) ⟨addr, none⟩
      ((addr + (imageHeaderSize + 4 * (rest.length + 2))) % 2 ^ 32) kernel.length =
        some (placed m o addr plain) :=
    loadedRam_placed (a := ⟨addr, none⟩) hfirst' hin hplain.comp_lt hroom hplain
  obtain ⟨hstart, hboot⟩ := doBootm_loaded (h := h) hl hname harch (.inr htype) hpart hram
  have hos' : ({ imageFields o time (sizesOf (kernel :: rest) ++ contents (kernel :: rest)) with
      ihHcrc := 0 } : ImageHeader).ihOs = ihOsLinux := by
    show o.optOs % 2 ^ 8 = ihOsLinux
    rw [hos]
    rfl
  have hentry : o.entry % 2 ^ 32 = o.entry := Nat.mod_eq_of_lt o.entry_lt
  have hplaced := (hl.placed hroom).body
  refine ⟨_, hstart, placed_bytes hfirst' hroom hplain, ?_⟩
  rw [hboot, afterHeaderCheck_linux hos', doBootmLinux]
  dsimp only
  rw [if_pos htype', Option.getD_some, hadd]
  cases rest with
  | nil =>
    rw [wordAt_single hplaced, if_neg (not_not.mpr rfl)]
    exact congrArg (Boot.linux · 0 0) hentry
  | cons initrd rest =>
    have hinitrd := hall initrd (List.mem_cons_of_mem _ List.mem_cons_self)
    rw [if_pos (wordAt_sizes hinitrd hplaced.tail)]
    refine ⟨_, hplaced.second.bytes, ?_⟩
    rw [multiInitrd_eq hall hplaced (by rw [List.length_cons] at hcount; omega)]
    exact congrArg (Boot.linux · _ _) hentry

theorem mkimage_multi_sample : ∃ img m' start, mkimage sampleFiles 0
      (sampleOptions ihTypeMulti (ascii "zImage:initrd")) = some img ∧
    startRam plainEnv (Ram.set (fun _ => 0) 0x51000000 img) ⟨0x51000000, none⟩ = some m' ∧
    m'.bytes 0x50008000 5 = [0xfe, 0xde, 0xff, 0xe7, 0x2a] ∧
    m'.bytes start 3 = [0x1f, 0x8b, 8] ∧
    (doBootm plainEnv (Ram.set (fun _ => 0) 0x51000000 img) .zero ⟨0x51000000, none⟩).outcome =
      .linux 0x50008000 start (add32 start 3) := by
  have hmk : mkimage sampleFiles 0 (sampleOptions ihTypeMulti (ascii "zImage:initrd")) =
      some (image (sampleOptions ihTypeMulti (ascii "zImage:initrd")) 0
        ([0, 0, 0, 5, 0, 0, 0, 3, 0, 0, 0, 0] ++ [0xfe, 0xde, 0xff, 0xe7, 0x2a, 0, 0, 0] ++
          [0x1f, 0x8b, 8])) := by decide +kernel
  have hfiles : (dataNames (ascii "zImage:initrd")).map sampleFiles =
      ([0xfe, 0xde, 0xff, 0xe7, 0x2a] :: [[0x1f, 0x8b, 8]]).map some := by decide
  have hname : ∀ c ∈ ascii "Linux", (32 : Byte) ≤ c := by decide +kernel
  obtain ⟨m', hram, hbytes, start, hinitrd, hout⟩ := mkimage_multi (e := plainEnv) (h := .zero)
    sampleFiles_small hmk rfl rfl rfl rfl hname (@loaded_set (fun _ => 0) 0x51000000 _
      (by rw [length_image]; decide)) hfiles (.inl ⟨rfl, rfl⟩)
    (.inr ⟨by decide, .inl (by decide)⟩) rfl
  exact ⟨_, m', start, hmk, hram, hbytes, hinitrd, hout⟩

/-- An initramfs in an image of its own is accepted behind a zImage, and passed on as its file. -/
theorem mkimage_ramdisk {kernel ramdisk : ℕ} (hmk : mkimage files time o = some img)
    (hsmall : ∀ f d, files f = some d → d.length < 2 ^ 32 - 1) (htype : o.optType = ihTypeRamdisk)
    (hx : o.xflag = false) (harch : o.optArch = ihCpuArm) (hos : o.optOs = ihOsLinux)
    (hl : Loaded m ramdisk img) (hfile : files o.datafile = some file)
    (hkernel : IsZImage m kernel) :
    m.bytes (ramdisk + imageHeaderSize) file.length = file ∧
      (doBootm e m h ⟨kernel, some ramdisk⟩).outcome = .linux kernel
        (ramdisk + imageHeaderSize) (add32 (ramdisk + imageHeaderSize) file.length) := by
  obtain ⟨data, hdata, rfl⟩ := mkimage_eq hmk
  have hne : IsData data := by
    have hnot : ¬ (o.optType = ihTypeMulti ∨ o.optType = ihTypeScript) := by
      rw [htype]
      decide
    rw [imageData, if_neg hnot, hx, copyFile_eq_some hsmall] at hdata
    obtain ⟨d, -, hd, rfl⟩ := hdata
    exact hd
  obtain rfl : data = file := by
    have heq := data_single hsmall (htype ▸ by decide) (htype ▸ by decide) hfile hdata
    rw [heq, hx]
    rfl
  have hpos := List.length_pos_iff.mpr hne.1
  have hadd : add32 ramdisk imageHeaderSize = ramdisk + imageHeaderSize := by
    have := hl.length_data
    exact add32_of_lt (by omega)
  have htype' : ¬ ((imageFields o time data).ihOs ≠ ihOsLinux ∨
      (imageFields o time data).ihArch ≠ ihCpuArm ∨
      (imageFields o time data).ihType ≠ ihTypeRamdisk) := by
    have hfields : (imageFields o time data).ihOs = o.optOs % 2 ^ 8 ∧
        (imageFields o time data).ihArch = o.optArch % 2 ^ 8 ∧
        (imageFields o time data).ihType = o.optType % 2 ^ 8 := ⟨rfl, rfl, rfl⟩
    rw [hfields.1, hfields.2.1, hfields.2.2, hos, harch, htype]
    decide
  have hsize : (imageFields o time data).ihSize = data.length := hl.data_lt
  have hmagic : ¬ (imageFields o time data).ihMagic ≠ ihMagic := not_not.mpr rfl
  have hcrc := not_not.mpr hl.headerCrc
  have hdcrc := hl.dataCrc
  have hdata0 : ramdisk + imageHeaderSize ≠ 0 := Nat.succ_ne_zero _
  refine ⟨hl.body.bytes, ?_⟩
  rw [doBootm_zImage_linux (a := ⟨kernel, some ramdisk⟩) hkernel, doBootmLinux_ramdisk rfl,
    loadRamdisk, hl.fields]
  generalize imageFields o time data = fields at *
  dsimp only
  rw [if_neg hmagic, if_neg hcrc, if_neg fun hbad => hbad.2 hdcrc, if_neg htype', hsize, hadd,
    enterLinux, if_pos hdata0, ImageHeader.linuxAt_ihEp]

theorem mkimage_ramdisk_sample : ∃ img, mkimage sampleFiles 0
      (sampleOptions ihTypeRamdisk (ascii "initrd")) = some img ∧
    (doBootm plainEnv (Ram.set zImage 0x51000000 img) .zero ⟨0x50008000, some 0x51000000⟩).outcome =
      .linux 0x50008000 0x51000040 0x51000043 := by
  have hmk : mkimage sampleFiles 0 (sampleOptions ihTypeRamdisk (ascii "initrd")) =
      some (image (sampleOptions ihTypeRamdisk (ascii "initrd")) 0 [0x1f, 0x8b, 8]) := by
    decide +kernel
  have hfile : sampleFiles (ascii "initrd") = some [0x1f, 0x8b, 8] := by decide
  have hkernel : IsZImage (Ram.set zImage 0x51000000
      (image (sampleOptions ihTypeRamdisk (ascii "initrd")) 0 [0x1f, 0x8b, 8])) 0x50008000 := by
    unfold IsZImage
    decide
  obtain ⟨-, hout⟩ := mkimage_ramdisk (e := plainEnv) (h := .zero) hmk sampleFiles_small rfl rfl
    rfl rfl (loaded_set (by rw [length_image]; decide)) hfile hkernel
  exact ⟨_, hmk, hout⟩

/-- An image in which up to four consecutive bytes have changed, in its checksum or behind it,
    is rejected: unless it looks like a zImage then, or its data is not verified. -/
theorem corrupted_rejected {bad : List Byte} {a : BootArgs} {k : ℕ}
    (hmk : mkimage files time o = some img) (hbad : Corrupted img bad k)
    (hl : Loaded m a.addr bad) (hz : ¬ IsZImage m a.addr) (hverify : e.verify = true) :
    (doBootm e m h a).outcome = .rejected := by
  obtain ⟨data, -, rfl⟩ := mkimage_eq hmk
  have hbytes := hbad.headerBytes hl
  have hraw : ¬ IsRawImage m a.addr := by
    intro hraw
    apply hraw.2
    rw [hbytes]
    exact hbad.magic
  rw [doBootm_image hz hraw, checkImage]
  dsimp only
  by_cases hcrc : headerCrc m a.addr = (ImageHeader.ofBytes (headerBytes m a.addr)).ihHcrc
  · have hunchanged : bad.take imageHeaderSize = (image o time data).take imageHeaderSize := by
      apply hbad.header
      rwa [headerCrc, hbytes] at hcrc
    have hfields : ImageHeader.ofBytes (headerBytes m a.addr) = imageFields o time data := by
      rw [hbytes, hunchanged, ofBytes_image]
    rw [if_neg (not_not.mpr hcrc), hfields, if_pos ⟨hverify, hbad.dataCrc hunchanged hl⟩]
  · rw [if_pos hcrc]

theorem corrupted_rejected_sample : ∃ img, mkimage sampleFiles 0
      (sampleOptions ihTypeKernel (ascii "zImage")) = some img ∧
    (doBootm plainEnv (Ram.set (fun _ => 0) 0x51000000 (img.set 66 0)) .zero
      ⟨0x51000000, none⟩).outcome = .rejected := by
  have hmk : mkimage sampleFiles 0 (sampleOptions ihTypeKernel (ascii "zImage")) =
      some (image (sampleOptions ihTypeKernel (ascii "zImage")) 0
        [0xfe, 0xde, 0xff, 0xe7, 0x2a]) := by decide +kernel
  have hbad : Corrupted (image (sampleOptions ihTypeKernel (ascii "zImage")) 0
      [0xfe, 0xde, 0xff, 0xe7, 0x2a]) ((image (sampleOptions ihTypeKernel (ascii "zImage")) 0
      [0xfe, 0xde, 0xff, 0xe7, 0x2a]).set 66 0) 66 := by
    refine ⟨List.length_set, .inr (by decide), fun i hi => ?_, by decide +kernel⟩
    rw [List.getElem?_set_ne (by omega)]
  have hz : ¬ IsZImage (Ram.set (fun _ => 0) 0x51000000
      ((image (sampleOptions ihTypeKernel (ascii "zImage")) 0
        [0xfe, 0xde, 0xff, 0xe7, 0x2a]).set 66 0)) 0x51000000 := by
    unfold IsZImage
    decide
  exact ⟨_, hmk, corrupted_rejected (a := ⟨0x51000000, none⟩) hmk hbad
    (loaded_set (by rw [hbad.length, length_image]; decide)) hz rfl⟩

end Results

end SmartQ.UBoot.Bootm
