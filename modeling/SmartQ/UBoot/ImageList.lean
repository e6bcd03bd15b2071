import SmartQ.UBoot.ImageBoot

/-!
# Listing an image

`mkimage -l` on an image that `mkimage` has written.

* `mkimage_listed`: the files of the image are listed with their sizes, and how far the offsets
  are off, which `print_header` reckons without the word that ends the list, and in words of
  the size of a `long`.
-/

namespace SmartQ.UBoot.Bootm

open SmartQ.Lib

section List

variable {ds : List (List Byte)} {d rest : List Byte} {L pos : ℕ}

theorem lenList_sizesOf (hds : ∀ d ∈ ds, IsData d) :
    lenList (sizesOf ds ++ rest) = some (ds.map List.length) := by
  induction ds with
  | nil => rfl
  | cons d ds ih =>
    have hd := hds d List.mem_cons_self
    have hpos := List.length_pos_iff.mpr hd.1
    have hsmall := hd.2
    have hword : word32 (UInt8.ofNat d.length) (UInt8.ofNat (d.length / 2 ^ 8))
        (UInt8.ofNat (d.length / 2 ^ 16)) (UInt8.ofNat (d.length / 2 ^ 24)) = d.length := by
      rw [word32_le32]
      omega
    have hzero : ¬ (UInt8.ofNat (d.length / 2 ^ 24) = 0 ∧ UInt8.ofNat (d.length / 2 ^ 16) = 0 ∧
        UInt8.ofNat (d.length / 2 ^ 8) = 0 ∧ UInt8.ofNat d.length = 0) := by
      rintro ⟨h3, h2, h1, h0⟩
      rw [h0, h1, h2, h3] at hword
      have : word32 0 0 0 0 = 0 := rfl
      omega
    have hcons : sizesOf (d :: ds) ++ rest = UInt8.ofNat (d.length / 2 ^ 24) ::
        UInt8.ofNat (d.length / 2 ^ 16) :: UInt8.ofNat (d.length / 2 ^ 8) ::
        UInt8.ofNat d.length :: (sizesOf ds ++ rest) := by
      rw [sizesOf_cons]
      rfl
    rw [hcons, lenList, if_neg hzero, hword, ih fun d hd => hds d (List.mem_cons_of_mem _ hd)]
    rfl

/-- The size of a file is rounded up as the file is. -/
theorem rounded_eq (hsmall : d.length < 2 ^ 31) :
    (d.length + 3) % 2 ^ 32 / 4 * 4 = (aligned d).length := by
  rw [length_aligned]
  omega

@[simp] theorem length_offsets (pos : ℕ) (sizes : List ℕ) :
    (offsets pos sizes).length = sizes.length := by
  induction sizes generalizing pos with
  | nil => rfl
  | cons size sizes ih => rw [offsets, List.length_cons, ih, List.length_cons]

/-- From the place it starts with, `print_header` goes over the files as they lie. -/
theorem offsets_contents (hds : ∀ d ∈ ds, IsData d) (hfit : pos + (contents ds).length < 2 ^ 32)
    {i : ℕ} (hi : ds[i]? = some d) : ∃ p, (offsets pos (ds.map List.length))[i]? = some (pos + p) ∧
      ((contents ds).drop p).take d.length = d := by
  induction ds generalizing pos i with
  | nil => cases hi
  | cons d' ds ih =>
    obtain _ | i := i
    · obtain rfl : d' = d := Option.some.inj hi
      obtain ⟨more, hmore⟩ := exists_contents d' ds
      exact ⟨0, rfl, by rw [hmore, List.drop_zero, List.take_left]⟩
    · obtain _ | ⟨d'', ds⟩ := ds
      · cases hi
      have hsmall := (hds d' List.mem_cons_self).2
      have hcontents : contents (d' :: d'' :: ds) = aligned d' ++ contents (d'' :: ds) := rfl
      rw [hcontents, List.length_append] at hfit
      obtain ⟨p, hp, hfile⟩ := @ih (pos + (aligned d').length)
        (fun d hd => hds d (List.mem_cons_of_mem _ hd)) (by omega) i hi
      have hnext : (pos + (d'.length + 3) % 2 ^ 32 / 4 * 4) % 2 ^ 32 =
          pos + (aligned d').length := by
        rw [rounded_eq hsmall]
        exact Nat.mod_eq_of_lt (by omega)
      refine ⟨(aligned d').length + p, ?_, ?_⟩
      · rw [List.map_cons, offsets, hnext, List.getElem?_cons_succ, hp, Nat.add_assoc]
      · rw [hcontents, List.drop_append, List.drop_of_length_le (by omega), List.nil_append,
          Nat.add_sub_cancel_left, hfile]

end List

section Results

variable {files : Files} {o : Options} {time L : ℕ} {img : List Byte} {ds : List (List Byte)}

/-- An image of several files is listed with their sizes. The offset that is printed is that of
    the file behind a list of sizes in words of `L` bytes that has no end, and so for several
    files not where the file lies, whether a `long` has four bytes or eight. -/
theorem mkimage_listed (hsmall : ∀ f d, files f = some d → d.length < 2 ^ 32 - 1)
    (hmk : mkimage files time o = some img) (hx : o.xflag = false)
    (htype : o.optType = ihTypeMulti ∨ o.optType = ihTypeScript)
    (hfiles : (dataNames o.datafile).map files = ds.map some)
    (hfit : img.length + ds.length * L < 2 ^ 32) :
    ∃ header entries, mkimageList L img = some (header, entries) ∧
      entries.length = ds.length ∧ ∀ (i : ℕ) (d : List Byte), ds[i]? = some d → ∃ pos,
        entries[i]? = some (d.length, pos) ∧ ∃ p, (img.drop p).take d.length = d ∧
          p + ds.length * L = pos + 4 * (ds.length + 1) := by
  obtain ⟨data, hdata, rfl⟩ := mkimage_eq hmk
  obtain ⟨ds', hds, hall, rfl⟩ := (data_multi hsmall htype hx).mp hdata
  obtain rfl : ds' = ds :=
    List.map_injective_iff.mpr (Option.some_injective _) (hds.symm.trans hfiles)
  have hlen : (image o time (sizesOf ds' ++ contents ds')).length =
      imageHeaderSize + (sizesOf ds' ++ contents ds').length := length_image
  have hlong : ¬ (image o time (sizesOf ds' ++ contents ds')).length % 2 ^ 32 < imageHeaderSize := by
    rw [Nat.mod_eq_of_lt (by omega), hlen]
    omega
  rw [hlen, List.length_append] at hfit
  have hmod : (sizesOf ds' ++ contents ds').length % 2 ^ 32 =
      (sizesOf ds' ++ contents ds').length := by
    rw [List.length_append]
    exact Nat.mod_eq_of_lt (by omega)
  have hfields : ImageHeader.ofBytes (image o time (sizesOf ds' ++ contents ds')) =
      imageFields o time (sizesOf ds' ++ contents ds') := ofBytes_imageHeader _
  have htype' : (imageFields o time (sizesOf ds' ++ contents ds')).ihType = ihTypeMulti ∨
      (imageFields o time (sizesOf ds' ++ contents ds')).ihType = ihTypeScript := by
    show o.optType % 2 ^ 8 = ihTypeMulti ∨ o.optType % 2 ^ 8 = ihTypeScript
    obtain h | h := htype
    · exact .inl (by rw [h]; rfl)
    · exact .inr (by rw [h]; rfl)
  have hmagic : ¬ (imageFields o time (sizesOf ds' ++ contents ds')).ihMagic ≠ ihMagic :=
    not_not.mpr rfl
  have hcrc : crc32 (imageHeader o time (sizesOf ds' ++ contents ds') 0) =
      (imageFields o time (sizesOf ds' ++ contents ds')).ihHcrc :=
    (Nat.mod_eq_of_lt (crc32_lt _)).symm
  have hdcrc : crc32 (sizesOf ds' ++ contents ds') =
      (imageFields o time (sizesOf ds' ++ contents ds')).ihDcrc := by
    show _ = crc32 (List.take _ _) % 2 ^ 32
    rw [Nat.mod_eq_of_lt (crc32_lt _), hmod, List.take_length]
  have hcontents : printContents L (image o time (sizesOf ds' ++ contents ds')) =
      some ((ds'.map List.length).zip (offsets (imageHeaderSize + ds'.length * L)
        (ds'.map List.length))) := by
    have hstart : (imageHeaderSize + ds'.length * L) % 2 ^ 32 = imageHeaderSize + ds'.length * L :=
      Nat.mod_eq_of_lt (by omega)
    rw [printContents, drop_image, lenList_sizesOf hall, Option.bind_eq_bind, Option.bind_some,
      List.length_map, hstart]
    rfl
  refine ⟨imageFields o time (sizesOf ds' ++ contents ds'),
    (ds'.map List.length).zip (offsets (imageHeaderSize + ds'.length * L)
      (ds'.map List.length)), ?_, by simp, fun i d hi => ?_⟩
  · rw [mkimageList, if_neg hlong, hfields, if_neg hmagic, take_image, blank_imageHeader,
      if_neg (not_not.mpr hcrc), drop_image, hmod, List.take_length, if_neg (not_not.mpr hdcrc),
      if_pos htype', hcontents]
    rfl
  · have hfit' : imageHeaderSize + ds'.length * L + (contents ds').length < 2 ^ 32 := by omega
    obtain ⟨p, hp, hfile⟩ := offsets_contents hall hfit' hi
    refine ⟨imageHeaderSize + ds'.length * L + p, ?_,
      imageHeaderSize + (sizesOf ds').length + p, ?_, ?_⟩
    · rw [List.getElem?_zip_eq_some]
      exact ⟨by rw [List.getElem?_map, hi]; rfl, hp⟩
    · rw [Nat.add_assoc, ← List.drop_drop, drop_image, ← List.drop_drop, List.drop_left, hfile]
    · rw [length_sizesOf]
      omega

theorem mkimage_listed_sample : ∃ img header entries, mkimage sampleFiles 0
      (sampleOptions ihTypeScript (ascii "zImage:initrd")) = some img ∧
    mkimageList 4 img = some (header, entries) ∧ entries.length = 2 := by
  have hmk : mkimage sampleFiles 0 (sampleOptions ihTypeScript (ascii "zImage:initrd")) =
      some (image (sampleOptions ihTypeScript (ascii "zImage:initrd")) 0
        ([0, 0, 0, 5, 0, 0, 0, 3, 0, 0, 0, 0] ++ [0xfe, 0xde, 0xff, 0xe7, 0x2a, 0, 0, 0] ++
          [0x1f, 0x8b, 8])) := by decide +kernel
  have hfiles : (dataNames (ascii "zImage:initrd")).map sampleFiles =
      [[0xfe, 0xde, 0xff, 0xe7, 0x2a], [0x1f, 0x8b, 8]].map some := by decide +kernel
  obtain ⟨header, entries, hlist, hlen, -⟩ := mkimage_listed (L := 4) sampleFiles_small hmk rfl
    (.inr rfl) hfiles (by rw [length_image]; decide)
  exact ⟨_, header, entries, hmk, hlist, hlen⟩

end Results

end SmartQ.UBoot.Bootm
