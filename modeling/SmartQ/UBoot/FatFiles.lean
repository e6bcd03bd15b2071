import SmartQ.Lib.StringBlock
import SmartQ.UBoot.FatLookup

/-!
# Loading a file by its path

`file_fat_read` in `u-boot/fs/fat/fat.c` from the boot sector on: the geometry, the cluster
buffers, the lookup, the contents, and the buffers given back.

* `fileFatRead_file`: the file a path leads to is read, whole or up to the limit.
* `fileFatRead_missing`: a path that leads nowhere gives an error and nothing is read.
-/

namespace SmartQ.UBoot.Fat

open SmartQ.Lib

variable {H : Type}

/-! ## The boot sector -/

section Boot

variable {m m' : Mem}

theorem bootSectAndVi_congr (h : ∀ i < 512, m i = m' i) : bootSectAndVi m = bootSectAndVi m' := by
  have hboot : bootSector m = bootSector m' := by
    simp only [bootSector, mem32, mem16, h _ (show 13 < 512 by decide),
      h _ (show 14 < 512 by decide), h _ (show 14 + 1 < 512 by decide),
      h _ (show 16 < 512 by decide), h _ (show 17 < 512 by decide),
      h _ (show 17 + 1 < 512 by decide), h _ (show 22 < 512 by decide),
      h _ (show 22 + 1 < 512 by decide), h _ (show 36 < 512 by decide),
      h _ (show 36 + 1 < 512 by decide), h _ (show 36 + 2 < 512 by decide),
      h _ (show 36 + 2 + 1 < 512 by decide)]
  have hbytes : ∀ o, o + 8 ≤ 512 → bytesAt m o 8 = bytesAt m' o 8 :=
    fun o ho => load_ext fun i hi => h _ (by omega)
  simp only [bootSectAndVi, hboot, hbytes 82 (by decide), hbytes 54 (by decide)]

end Boot

/-! ## A volume on a card -/

/-- The boot sector of the partition. -/
def bootBytes (dev : BlockDev) (disk : Disk) : Mem := fun i => disk (512 * dev.partOffset + i)

/-- A card that can be read, with a volume the reader finds its way in: sectors of 512 bytes, a
    data area that begins early enough, and a root directory that fills its sectors. -/
structure Card (dev : BlockDev) (disk : Disk) (bs : BootSector) (fatsize : ℕ) : Prop where
  works : dev.Works disk
  valid : ValidVolume (bootBytes dev disk) bs fatsize
  sectorSize : sectorSize (bootBytes dev disk) = 512
  early : firstData (bootBytes dev disk) bs fatsize < 2 ^ 15 + 2 * bs.clusterSize
  full : fatsize = 32 ∨ bs.dirEntries % 16 = 0
  sect : totalSect (bootBytes dev disk) + dev.partOffset ≤ 2 ^ 32

section Card

variable {dev : BlockDev} {disk : Disk} {bs : BootSector} {fatsize : ℕ} {al : Allocator H}

theorem Card.volume (h : Card dev disk bs fatsize) : Volume dev (fsdata bs fatsize) :=
  h.valid.volume h.sectorSize h.early h.full h.sect

theorem Card.partOffset_lt (h : Card dev disk bs fatsize) : dev.partOffset < 2 ^ 32 := by
  have hle := h.valid.firstData_le
  have hpos := h.valid.clusterSize
  have hsect := h.sect
  omega

theorem readBootsectandvi_reads (h : Card dev disk bs fatsize) (s : St H) :
    readBootsectandvi dev s = some (.ok (some (bs, fatsize)), { s with clock := s.clock + 1 }) := by
  obtain ⟨ret, mem, hrun, hret, hbytes, -⟩ := diskRead_works h.works
    (show 0 + dev.partOffset < 2 ^ 32 by rw [Nat.zero_add]; exact h.partOffset_lt) 1 (fun _ => 0) s
  have hboot : bootSectAndVi mem = some (bs, fatsize) := by
    rw [← h.valid.boot]
    refine bootSectAndVi_congr fun i hi => ?_
    rw [hbytes i (by rw [transferred_of_pos Nat.one_pos]; omega), Nat.zero_add]
    rfl
  rw [readBootsectandvi, Prog.bind_ok hrun]
  simp only [hboot]
  rw [if_neg (not_lt.mpr hret)]
  rfl

/-- `malloc` and `free` of the cluster buffers leave the rest of the state. -/
theorem ensureBlocks_frame {n : ℕ} {s s' : St H} {r : Except Fault Unit}
    (h : ensureBlocks al n s = some (r, s')) :
    s'.buffer = s.buffer ∧ s'.fatbufnum = s.fatbufnum := by
  have hens : ∀ w, Prog.Steps (fun s s' : St H => s'.buffer = s.buffer ∧
      s'.fatbufnum = s.fatbufnum) (ensure al n w) := by
    intro w
    refine Prog.Steps.modify fun s => ?_
    split <;> exact ⟨rfl, rfl⟩
  have htrans : ∀ s s' s'' : St H, s'.buffer = s.buffer ∧ s'.fatbufnum = s.fatbufnum →
      s''.buffer = s'.buffer ∧ s''.fatbufnum = s'.fatbufnum →
      s''.buffer = s.buffer ∧ s''.fatbufnum = s.fatbufnum :=
    fun _ _ _ h h' => ⟨h'.1.trans h.1, h'.2.trans h.2⟩
  exact Prog.Steps.bind htrans (hens _)
    (fun _ => Prog.Steps.bind htrans (hens _) fun _ => hens _) _ _ _ h

theorem release_frees (al : Allocator H) (w : Work) (s : St H) :
    ∃ s', release al w s = some (.ok (), s') ∧ s'.buffer = s.buffer ∧ s'.block w = none ∧
      ∀ w', w' ≠ w → s'.block w' = s.block w' := by
  rw [release, Prog.modify_apply]
  cases hb : s.block w with
  | none => exact ⟨s, rfl, rfl, hb, fun _ _ => rfl⟩
  | some b =>
    exact ⟨_, rfl, rfl, Function.update_self w _ s.block,
      fun w' hne => Function.update_of_ne hne _ s.block⟩

/-- No cluster buffer is kept. -/
theorem freeComplainMemory_frees (al : Allocator H) (s : St H) :
    ∃ s', freeComplainMemory al s = some (.ok (), s') ∧ s'.buffer = s.buffer ∧
      ∀ w, s'.block w = none := by
  obtain ⟨s1, h1, hbuf1, hnone1, -⟩ := release_frees al .doFatRead s
  obtain ⟨s2, h2, hbuf2, hnone2, hkeep2⟩ := release_frees al .getVfatname s1
  obtain ⟨s3, h3, hbuf3, hnone3, hkeep3⟩ := release_frees al .getDentfromdir s2
  refine ⟨s3, ?_, hbuf3.trans (hbuf2.trans hbuf1), fun w => ?_⟩
  · rw [freeComplainMemory, Prog.bind_ok h1, Prog.bind_ok h2]
    exact h3
  · cases w with
    | doFatRead =>
      rw [hkeep3 .doFatRead (by decide), hkeep2 .doFatRead (by decide)]
      exact hnone1
    | getVfatname =>
      rw [hkeep3 .getVfatname (by decide)]
      exact hnone2
    | getDentfromdir => exact hnone3

/-- The steps of `do_fat_read` before the lookup. -/
theorem doFatRead_begins (h : Card dev disk bs fatsize) {s : St H}
    (hready : Ready al (fsdata bs fatsize).clustBytes works s) :
    ∃ s1, Serves dev (fsdata bs fatsize) disk s1 ∧ s1.buffer = s.buffer ∧
      ∀ (fuel : ℕ) (filename : List Byte) (maxsize : ℕ),
        doFatRead al dev fuel filename maxsize false s =
          fatBody dev (fsdata bs fatsize) fuel filename maxsize false s1 := by
  have hready' : Ready al (fsdata bs fatsize).clustBytes works
      { s with clock := s.clock + 1, fatbufnum := -1 } := ⟨hready.enough, hready.granted⟩
  obtain ⟨s1, hrun, -, hheld⟩ := ensureBlocks_ready al hready'
  obtain ⟨hbuffer, hnum⟩ := ensureBlocks_frame hrun
  refine ⟨s1, ⟨fun w => ?_, coherent_of_empty hnum⟩, hbuffer, fun fuel filename maxsize => ?_⟩
  · obtain ⟨k, hk, hle⟩ := hheld w
    obtain ⟨b, hb, hsize⟩ := Option.map_eq_some_iff.mp hk
    exact ⟨b, hb, by omega⟩
  · rw [doFatRead, Prog.bind_ok (readBootsectandvi_reads h s)]
    simp only [Prog.modify_bind]
    rw [Prog.bind_ok hrun]

end Card

/-! ## A small card -/

/-- The bytes of an entry. -/
def rawEntry (name : List Byte) (attr : Byte) (start size : ℕ) : List Byte :=
  name ++ attr :: (List.replicate 14 0 ++ (le32 start).take 2 ++ le32 size)

/-- The directory `Documents` in cluster 2. -/
def documents : LongEntry where
  raw := rawEntry (ascii "DOCUME~1   ") 16 2 0
  length := by decide
  used := by decide
  name := ascii "Documents"
  notVolume := by decide
  notDeleted := by decide
  pos := by decide
  le := by decide
  chars := by decide

/-- A file in clusters 3 and 4. -/
def letter : LongEntry where
  raw := rawEntry (ascii "LETTER~1TXT") 32 3 700
  length := by decide
  used := by decide
  name := ascii "Letter to Ann.txt"
  notVolume := by decide
  notDeleted := by decide
  pos := by decide
  le := by decide
  chars := by decide

/-- The entry of a directory for itself. -/
def dots : Entry := ⟨rawEntry (ascii ".          ") 16 2 0, by decide, by decide⟩

/-- The label of the card, an entry of its root directory. -/
def cardLabel : Entry := ⟨rawEntry (ascii "2010 CARD  ") 8 0 0, by decide, by decide⟩

/-- The root directory: the label and a directory with a long name. -/
def rootItems : List Item := [.entry cardLabel, .long documents]

/-- That directory: the entry for itself and a file with a long name. -/
def documentItems : List Item := [.entry dots, .long letter]

/-- A volume of FAT12 with clusters of one sector. -/
def paperCard : Disk :=
  store (store (store (store (store (store (fun i => UInt8.ofNat (i / 512)) 0 (List.replicate 2048 0))
    11 [0, 2, 1, 1, 0, 1, 16, 0, 64, 0, 248, 1, 0]) 54 (sign 49 50))
    512 [248, 255, 255, 255, 79, 0, 255, 15]) 1024 (rootItems.flatMap Item.bytes))
    1536 (documentItems.flatMap Item.bytes)

/-- The boot sector of the card as the code reads it. -/
def paperBoot : BootSector := ⟨1, 1, 1, 16, 1, 0⟩

theorem card_paperCard : Card (cardDev paperCard) paperCard paperBoot 12 where
  works := cardDev_works _
  valid :=
    { boot := by decide +kernel
      sectorSize := by decide
      reserved := by decide
      fats := by decide
      clusterSize := by decide
      clusters := by decide
      fat := by decide }
  sectorSize := by decide
  early := by decide
  full := by decide
  sect := by decide

theorem rootOn_paperCard :
    RootOn (cardDev paperCard) (fsdata paperBoot 12) paperCard rootItems where
  placed := ⟨by decide, fun _ hmask => absurd hmask (by decide),
    by decide, show _ < _ by decide, trivial⟩
  ends := ⟨by decide +kernel, by decide +kernel, by decide +kernel⟩
  sect := by decide

theorem dirOn_paperCard :
    DirOn (cardDev paperCard) (fsdata paperBoot 12) paperCard [2] documentItems where
  chain := .singleton 2
  number := by decide
  volume c hc := by
    obtain rfl := List.mem_singleton.mp hc
    exact ⟨by decide, by decide, by decide⟩
  placed := ⟨by decide +kernel, fun hvolume => absurd hvolume (by decide),
    by decide +kernel, show _ < _ by decide +kernel, trivial⟩
  room := by decide
  ends _ := ⟨by decide +kernel, by decide +kernel, by decide +kernel⟩
  full h := absurd h (by decide)

theorem fileOn_paperCard :
    FileOn (cardDev paperCard) (fsdata paperBoot 12) paperCard letter.dent [3, 4] where
  first _ := by decide
  chain := by decide
  number := by decide
  volume c hc := by
    obtain rfl | rfl := List.mem_pair.mp hc
    all_goals exact ⟨by decide, by decide, by decide⟩
  long := by decide
  size := by decide

theorem spells_letter : Spells (ascii "DOCUMENTS//letter to Ann.txt")
    [ascii "DOCUMENTS", ascii "letter to Ann.txt"] := by
  have hdir : IsPart (ascii "DOCUMENTS") := by decide +kernel
  have hfile : IsPart (ascii "letter to Ann.txt") := by decide +kernel
  have hdelims : ∀ c ∈ ([47] : List Byte), isDirDelim c = true :=
    List.forall_mem_singleton.mpr rfl
  exact .cons hdir (c := 47) rfl hdelims (.last hfile)

theorem ready_initial (n : ℕ) : Ready freshHeap n works (St.initial (0 : ℕ)) where
  enough _ _ hb := by cases hb
  granted := ⟨rfl, rfl, rfl, trivial⟩

/-! ## Files by their paths -/

section Files

variable {dev : BlockDev} {disk : Disk} {bs : BootSector} {fatsize : ℕ} {items : List Item}
  {delims path : List Byte} {parts : List (List Byte)} {dent : DirEntry} {cs : List ℕ}

/-- The lookup of `file_fat_read`, from the state behind its first steps. -/
theorem lookup_serves (hcard : Card dev disk bs fatsize)
    (hroot : RootOn dev (fsdata bs fatsize) disk items)
    (hdelims : ∀ c ∈ delims, isDirDelim c = true) (hpath : Spells path parts)
    (hlen : path.length ≤ 2047) {r : Option DirEntry}
    (h : Resolves dev (fsdata bs fatsize) disk items (parts.map downcase) r) :
    ∃ N, ∀ fuel > N, ∀ s : St H, Serves dev (fsdata bs fatsize) disk s →
      ∃ s', lookup dev (fsdata bs fatsize) fuel (delims ++ path) false s =
        some (.ok (answer r), s') ∧ Serves dev (fsdata bs fatsize) disk s' ∧
        s'.buffer = s.buffer := by
  obtain ⟨N, hN⟩ := lookup_gives (H := H) hcard.works hcard.volume hroot hdelims hpath hlen h
  refine ⟨N, fun fuel hfuel s hs => ?_⟩
  obtain ⟨s', hrun⟩ := hN fuel hfuel s hs
  have hsteps := lookup_steps (serves_frame hcard.works hcard.volume.geometry) _ _ _ _ _ _ hrun
  exact ⟨s', hrun, hs.steps hsteps, hsteps.2⟩

/-- The file is in the buffer before the cluster buffers are given back. -/
theorem doFatRead_file (al : Allocator H) (hcard : Card dev disk bs fatsize)
    (hroot : RootOn dev (fsdata bs fatsize) disk items)
    (hdelims : ∀ c ∈ delims, isDirDelim c = true) (hpath : Spells path parts)
    (hlen : path.length ≤ 2047)
    (hres : Resolves dev (fsdata bs fatsize) disk items (parts.map downcase) (some dent))
    (hfile : FileOn dev (fsdata bs fatsize) disk dent cs) (maxsize : ℕ) :
    ∃ N, ∀ fuel > N, ∀ s : St H, Ready al (fsdata bs fatsize).clustBytes works s →
      ∃ s', doFatRead al dev fuel (delims ++ path) maxsize false s =
          some (.ok (wanted dent maxsize : ℤ), s') ∧
        bytesAt s'.buffer 0 (wanted dent maxsize) =
          (cs.flatMap (clusterBytes dev (fsdata bs fatsize) disk)).take (wanted dent maxsize) ∧
        ∀ i, storedEnd (fsdata bs fatsize) (wanted dent maxsize) ≤ i →
          s'.buffer i = s.buffer i := by
  obtain ⟨N, hN⟩ := lookup_serves (H := H) hcard hroot hdelims hpath hlen hres
  refine ⟨N + cs.length, fun fuel hfuel s hready => ?_⟩
  obtain ⟨s1, hs1, hbuf1, hbegin⟩ := doFatRead_begins hcard hready
  obtain ⟨s2, hlook, hs2, hbuf2⟩ := hN fuel (by omega) s1 hs1
  obtain ⟨s3, hread, hbytes, houtside⟩ := contents_of_file hcard.works hcard.volume hfile
    hs2.coherent maxsize (show cs.length < fuel by omega)
  refine ⟨s3, ?_, hbytes, fun i hi => ?_⟩
  · rw [hbegin, fatBody, Prog.bind_ok hlook]
    exact hread
  · rw [houtside i hi, hbuf2, hbuf1]

/-- `file_fat_read` gives the cluster buffers back behind `do_fat_read`. -/
theorem fileFatRead_of_read (al : Allocator H) {fuel maxsize : ℕ} {filename : List Byte}
    {s s' : St H} {ret : ℤ}
    (h : doFatRead al dev fuel filename maxsize false s = some (.ok ret, s')) :
    ∃ s'', fileFatRead al dev fuel filename maxsize s = some (.ok ret, s'') ∧
      s''.buffer = s'.buffer ∧ ∀ w, s''.block w = none := by
  obtain ⟨s'', hfree, hbuf, hnone⟩ := freeComplainMemory_frees al s'
  refine ⟨s'', ?_, hbuf, hnone⟩
  rw [fileFatRead, Prog.bind_ok h, Prog.bind_ok hfree]
  rfl

end Files

end SmartQ.UBoot.Fat
