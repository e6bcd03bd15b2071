import SmartQ.UBoot.Environment
import SmartQ.UBoot.FatFiles
import SmartQ.UBoot.PartDos

/-!
# Loading a file from the command line

`do_fat_fsload` in `u-boot/common/cmd_fat.c`: the device and the partition are taken from the
arguments, the partition is registered, the file is read to its address, and its size is left in
the environment.

* `vsprintf_hex`: the text of the size, which is read back as the size.
* `doFatFsload_loads`: what the command leaves in memory and in the environment.
-/

namespace SmartQ.UBoot.Fat

open SmartQ.Lib SmartQ.UBoot.Fat.PartDos

variable {H : Type}

/-! ## Model -/

/-- `get_dev`: the only interface is `mmc`. A device comes with whether its type is known to be
    DOS. -/
def getDev (mmcGetDev : ℤ → Option (BlockDev × Bool)) (ifname : List Byte) (dev : ℤ) :
    Option (BlockDev × Bool) :=
  if ifname.take 3 = ascii "mmc" then mmcGetDev dev else none

/-- A fragment whose buffer is the memory at an address. -/
def atOffset {α : Type} (offset : ℕ) (x : FatM H α) : FatM H α := fun s =>
  (x { s with buffer := fun i => s.buffer (offset + i) }).map fun r => (r.1, { r.2 with
    buffer := fun a => if offset ≤ a then r.2.buffer (a - offset) else s.buffer a })

/-- `filesize`, the variable that `fatload` leaves the size of the file in. -/
def filesizeName : List Byte := ascii "filesize"

variable (m : Machine) (al : Allocator H) (mmcGetDev : ℤ → Option (BlockDev × Bool))

/-- `setenv("filesize", buf)` with the size as `%lX` prints it. -/
def setFilesize (size : ℤ) (e : Env) : FatM H (ℤ × Env) :=
  match (vsprintf (ascii "%lX") [.num size]).bind fun buf => doSetenv m e ⟨filesizeName, [buf]⟩ with
  | some (_, e) => pure (0, e)
  | none => Prog.exit .wild

/-- The limit in `argv[5]`, if there are so many arguments. -/
def loadCount (bytes : List (List Byte)) : ℕ :=
  if bytes.length = 1 then (simpleStrtoul (bytes.headD []) 16).1 else 0

/-- `do_fat_fsload` behind the registration. -/
def loadRegistered (dev : BlockDev) (fuel : ℕ) (addr filename : List Byte)
    (bytes : List (List Byte)) (e : Env) : FatM H (ℤ × Env) := do
  let offset := (simpleStrtoul addr 16).1
  let size ← atOffset offset (fileFatRead al dev fuel filename (loadCount bytes))
  if size = -1 then pure (1, e) else setFilesize m size e

/-- `do_fat_fsload` (lines 76–126), whose memory is the buffer of the state. -/
def doFatFsload (fuel : ℕ) (argv : List (List Byte)) (e : Env) : FatM H (ℤ × Env) :=
  match argv with
  | _ :: ifname :: devText :: addr :: filename :: bytes =>
    let (n, ep) := simpleStrtoul devText 16
    match getDev mmcGetDev ifname (int32 n) with
    | none => pure (1, e)
    | some (dev, dos) =>
      if ep ≠ [] ∧ ep.head? ≠ some 58 then pure (1, e)
      else do
        let part := if ep = [] then 1 else int32 (simpleStrtoul ep.tail 16).1
        let (ret, dev) ← fatRegisterDevice dev fuel dos part
        if ret ≠ 0 then pure (1, e) else loadRegistered m al dev fuel addr filename bytes e
  | _ => pure (1, e)

/-! ## Texts of numbers -/

/-- A number in hexadecimal. -/
def hexText (large : Bool) (n : ℕ) : List Byte := (numDigits 16 n).map (digitChar large)

theorem simpleStrtoul_hexText {n : ℕ} (hn : n < 2 ^ 32) (large : Bool) {rest : List Byte}
    (hstop : Stops 16 rest) (hx : rest.head? ≠ some 120) :
    simpleStrtoul (hexText large n ++ rest) 16 = (n, rest) := by
  rw [hexText, simpleStrtoul_digits (by decide) le_rfl large numDigits_ne_nil
    (fun d hd => lt_of_mem_numDigits (by decide) hd) hstop hx, valueFrom_numDigits,
    Nat.mod_eq_of_lt hn]

theorem simpleStrtoul_hexText_end {n : ℕ} (hn : n < 2 ^ 32) (large : Bool) :
    simpleStrtoul (hexText large n) 16 = (n, []) := by
  have hstop : Stops 16 [] := by
    intro c hc
    cases hc
  have h := simpleStrtoul_hexText hn large hstop (by decide)
  rwa [List.append_nil] at h

/-- Without a width the digits are printed alone. -/
theorem number_hex {n : ℕ} (hn : n < 2 ^ 32) (large : Bool) :
    number (int32 n) 16 (-1) (-1) { large := large } = hexText large n := by
  have hmod : toU32 (int32 (n : ℤ)) = n := by
    rw [toU32_int32, toU32_natCast hn]
  unfold number
  simp only [signChar, specialPrefix, tmpDigits_reverse, Bool.false_eq_true, false_and, if_false,
    not_false_eq_true, if_true, hmod, or_self, Bool.false_and, List.length_nil]
  rw [show ((-1 : ℤ) - (0 : ℕ) - (0 : ℕ) - max (-1) ((tmpDigits large 16 n).length : ℤ)).toNat = 0
      by omega, show (max (-1) ((tmpDigits large 16 n).length : ℤ) -
        ((tmpDigits large 16 n).length : ℤ)).toNat = 0 by omega]
  simp [hexText]

theorem vsprintf_hex {n : ℕ} (hn : n < 2 ^ 32) :
    vsprintf (ascii "%lX") [.num n] = some (hexText true n) := by
  have hfmt : ascii "%lX" = [37, 108, 88] := by decide
  have hdir : directive [108, 88] [.num n] =
      some (number (int32 n) 16 (-1) (-1) { large := true }, [], []) := by
    simp [directive, readFlags, fieldWidth, isDigit, precisionOf, qualifierOf, convert, convertInt,
      integer]
  rw [hfmt, vsprintf, List.length_cons, vsprintfLoop, if_neg (by decide), hdir, number_hex hn]
  simp [vsprintfLoop]

theorem zero_not_mem_hexText (n : ℕ) : 0 ∉ hexText true n := by
  intro h
  obtain ⟨d, hd, hzero⟩ := List.mem_map.mp h
  have hx := (isXDigit_digitChar true d (lt_of_mem_numDigits (by decide) hd)).1
  rw [hzero] at hx
  exact absurd hx (by decide)

/-! ## The size in the environment -/

section Filesize

variable {m} {e : Env} {vars : Vars} {n : ℕ}

theorem isName_filesize : IsName filesizeName := by
  constructor <;> decide

/-- The variables with the size of a file. -/
def withFilesize (vars : Vars) (n : ℕ) : Vars :=
  vars.erase filesizeName ++ [(filesizeName, hexText true n)]

theorem request_filesize {size : ℕ} (hroom : (withFilesize vars n).Fits size) :
    vars.request m size ⟨filesizeName, [hexText true n]⟩ = (0, withFilesize vars n) := by
  have hrefused : Request.refused m ⟨filesizeName, [hexText true n]⟩ = false := by
    have hname : ¬ (filesizeName = stdin ∨ filesizeName = stdout ∨ filesizeName = stderr) ∧
        filesizeName ≠ baudrateName := by
      decide
    unfold Request.refused
    dsimp only
    rw [if_neg hname.1, if_neg hname.2]
  unfold Vars.request
  rw [if_neg isName_filesize.2, if_neg (by simp [hrefused])]
  dsimp only
  rw [List.flatMap_nil, List.append_nil]
  exact if_pos hroom

theorem lookup_withFilesize : (withFilesize vars n).lookup filesizeName =
    some (hexText true n) := by
  have hnone : (vars.erase filesizeName).lookup filesizeName = none := by
    rw [List.lookup_eq_none_iff]
    intro x hx
    have hmem : x.1 ∈ (vars.erase filesizeName).map Prod.fst := List.mem_map_of_mem hx
    have hne : filesizeName ≠ x.1 := by
      intro h
      rw [← h] at hmem
      exact not_mem_erase vars filesizeName hmem
    simpa using hne
  rw [withFilesize, List.lookup_append, hnone]
  simp

/-- The size is there to be read back. -/
theorem setFilesize_sets (henv : UBoot.Represents e.data vars) (hn : n < 2 ^ 31)
    (hroom : (withFilesize vars n).Fits e.data.length) (s : St H) :
    ∃ e', setFilesize m n e s = some (.ok (0, e'), s) ∧
      UBoot.Represents e'.data (withFilesize vars n) := by
  have hstrings : Request.Strings ⟨filesizeName, [hexText true n]⟩ := by
    refine ⟨isName_filesize.1, fun val hval => ?_⟩
    rw [List.mem_singleton.mp hval]
    exact zero_not_mem_hexText n
  obtain ⟨e', hrun, hrep, -⟩ := setenv_represents (m := m) henv hstrings
  rw [request_filesize hroom] at hrun hrep
  refine ⟨e', ?_, hrep⟩
  rw [setFilesize, vsprintf_hex (hn.trans (by decide)), Option.bind_some, hrun]
  rfl

end Filesize

/-! ## The command -/

section Load

variable {mmcGetDev} {dev : BlockDev} {disk : Disk} {bs : BootSector} {fatsize : ℕ}
  {items : List Item} {delims path : List Byte} {parts : List (List Byte)} {dent : DirEntry}
  {cs : List ℕ} {e : Env} {vars : Vars}

theorem atOffset_ok {α : Type} {offset : ℕ} {x : FatM H α} {s s' : St H} {a : α}
    (h : x { s with buffer := fun i => s.buffer (offset + i) } = some (.ok a, s')) :
    atOffset offset x s = some (.ok a, { s' with
      buffer := fun i => if offset ≤ i then s'.buffer (i - offset) else s.buffer i }) := by
  rw [atOffset, h]
  rfl

/-- What a file is loaded to: its bytes at the address, and nothing else has changed than the
    `stored` bytes there. -/
structure LoadedAt (addr stored : ℕ) (content : List Byte) (s s' : St H) : Prop where
  bytes : bytesAt s'.buffer addr content.length = content
  outside : ∀ a, a < addr ∨ addr + stored ≤ a → s'.buffer a = s.buffer a

/-- The clusters of a file are long enough for what is asked for. -/
theorem length_wanted (hfile : FileOn dev (fsdata bs fatsize) disk dent cs) (maxsize : ℕ) :
    ((cs.flatMap (clusterBytes dev (fsdata bs fatsize) disk)).take
      (wanted dent maxsize)).length = wanted dent maxsize := by
  have hlong := hfile.long
  have hle := wanted_le dent maxsize
  have hall : (cs.flatMap (clusterBytes dev (fsdata bs fatsize) disk)).length =
      cs.length * (fsdata bs fatsize).clustBytes := by
    simp [List.length_flatMap, clusterBytes]
  rw [List.length_take, hall]
  omega

/-- The file a path leads to is loaded from a registered volume, up to the limit. -/
theorem loadRegistered_loads (hcard : Card dev disk bs fatsize)
    (hroot : RootOn dev (fsdata bs fatsize) disk items)
    (hdelims : ∀ c ∈ delims, isDirDelim c = true) (hpath : Spells path parts)
    (hlen : path.length ≤ 2047)
    (hres : Resolves dev (fsdata bs fatsize) disk items (parts.map downcase) (some dent))
    (hfile : FileOn dev (fsdata bs fatsize) disk dent cs) (addrText : List Byte)
    (bytes : List (List Byte)) (henv : UBoot.Represents e.data vars)
    (hroom : (withFilesize vars (wanted dent (loadCount bytes))).Fits e.data.length) :
    ∃ N, ∀ fuel > N, ∀ s : St H, Ready al (fsdata bs fatsize).clustBytes works s →
      ∃ s' e', loadRegistered m al dev fuel addrText (delims ++ path) bytes e s =
          some (.ok (0, e'), s') ∧
        LoadedAt (simpleStrtoul addrText 16).1
          (storedEnd (fsdata bs fatsize) (wanted dent (loadCount bytes)))
          ((cs.flatMap (clusterBytes dev (fsdata bs fatsize) disk)).take
            (wanted dent (loadCount bytes))) s s' ∧
        UBoot.Represents e'.data (withFilesize vars (wanted dent (loadCount bytes))) := by
  obtain ⟨N, hN⟩ := doFatRead_file al hcard hroot hdelims hpath hlen hres hfile (loadCount bytes)
  refine ⟨N, fun fuel hfuel s hready => ?_⟩
  generalize haddr : (simpleStrtoul addrText 16).1 = addr
  obtain ⟨s1, hread, hbytes, houtside⟩ := hN fuel hfuel
    { s with buffer := fun i => s.buffer (addr + i) } ⟨hready.enough, hready.granted⟩
  obtain ⟨s2, hrun, hbuf, -⟩ := fileFatRead_of_read al hread
  have hsize : wanted dent (loadCount bytes) < 2 ^ 31 := (wanted_le dent _).trans_lt hfile.size
  obtain ⟨e', hset, hrep⟩ := setFilesize_sets (m := m) henv hsize hroom
    { s2 with buffer := fun i => if addr ≤ i then s2.buffer (i - addr) else s.buffer i }
  have hlength := length_wanted hfile (loadCount bytes)
  refine ⟨{ s2 with buffer := fun i => if addr ≤ i then s2.buffer (i - addr) else s.buffer i }, e',
    ?_, ⟨?_, ?_⟩, hrep⟩
  · rw [loadRegistered, haddr, Prog.bind_ok (atOffset_ok hrun), if_neg (by omega)]
    exact hset
  · rw [hlength, ← hbytes, ← hbuf]
    refine List.map_congr_left fun i _ => ?_
    dsimp only
    rw [if_pos (by omega), Nat.add_sub_cancel_left, Nat.zero_add]
  · intro a ha
    dsimp only
    split_ifs with hle
    · rw [hbuf, houtside _ (by omega)]
      dsimp only
      rw [Nat.add_sub_cancel' hle]
    · rfl

/-- The steps of `do_fat_fsload` before. -/
theorem doFatFsload_registered {d : BlockDev} {dos : Bool} {fuel : ℕ} {s s' : St H} {n : ℕ}
    {cmd ifname devText partText addrText filename : List Byte} {bytes : List (List Byte)}
    (hparse : simpleStrtoul devText 16 = (n, 58 :: partText))
    (hget : getDev mmcGetDev ifname (int32 n) = some (d, dos))
    (hreg : fatRegisterDevice d fuel dos (int32 (simpleStrtoul partText 16).1) s =
      some (.ok (0, dev), s')) :
    doFatFsload m al mmcGetDev fuel
        (cmd :: ifname :: devText :: addrText :: filename :: bytes) e s =
      loadRegistered m al dev fuel addrText filename bytes e s' := by
  unfold doFatFsload
  dsimp only
  rw [hparse]
  dsimp only
  rw [hget]
  dsimp only
  rw [if_neg (by simp), if_neg (List.cons_ne_nil _ _), List.tail_cons, Prog.bind_ok hreg]
  rfl

/-- The command with a partition that has a volume with the file, whatever the texts of its
    arguments are. -/
theorem doFatFsload_found {d : BlockDev} {dos : Bool} {card : ℕ → Option Mem} {mbr : Mem}
    {ds : List DiskPartition} {info : DiskPartition} {ifname devText partText : List Byte}
    {n : ℕ} (hgives : Gives d card) (hmbr : card 0 = some mbr) (hmagic : hasMagic mbr = true)
    (hds : Logical card (partitionTable mbr) ds)
    (hparse : simpleStrtoul devText 16 = (n, 58 :: partText))
    (hget : getDev mmcGetDev ifname (int32 n) = some (d, dos))
    (hinfo : numbered (partitionTable mbr) ds (int32 (simpleStrtoul partText 16).1) = some info)
    (hdev : dev = { d with partOffset := info.start }) (hcard : Card dev disk bs fatsize)
    (hroot : RootOn dev (fsdata bs fatsize) disk items)
    (hdelims : ∀ c ∈ delims, isDirDelim c = true) (hpath : Spells path parts)
    (hlen : path.length ≤ 2047)
    (hres : Resolves dev (fsdata bs fatsize) disk items (parts.map downcase) (some dent))
    (hfile : FileOn dev (fsdata bs fatsize) disk dent cs) (cmd addrText : List Byte)
    (bytes : List (List Byte)) (henv : UBoot.Represents e.data vars)
    (hroom : (withFilesize vars (wanted dent (loadCount bytes))).Fits e.data.length) :
    ∃ N, ∀ fuel > N, ∀ s : St H, Ready al (fsdata bs fatsize).clustBytes works s →
      ∃ s' e', doFatFsload m al mmcGetDev fuel
            (cmd :: ifname :: devText :: addrText :: (delims ++ path) :: bytes) e s =
          some (.ok (0, e'), s') ∧
        LoadedAt (simpleStrtoul addrText 16).1
          (storedEnd (fsdata bs fatsize) (wanted dent (loadCount bytes)))
          ((cs.flatMap (clusterBytes dev (fsdata bs fatsize) disk)).take
            (wanted dent (loadCount bytes))) s s' ∧
        UBoot.Represents e'.data (withFilesize vars (wanted dent (loadCount bytes))) := by
  obtain ⟨N, hN⟩ := askedPartition_numbered (H := H) hgives
    (table_eq_some.mpr ⟨mbr, hmbr, hmagic, rfl⟩) hds (int32 (simpleStrtoul partText 16).1)
  obtain ⟨N', hN'⟩ := loadRegistered_loads m al hcard hroot hdelims hpath hlen hres hfile addrText
    bytes henv hroom
  refine ⟨N + N', fun fuel hfuel s hready => ?_⟩
  obtain ⟨k, hasked⟩ := hN fuel (by omega) { s with clock := s.clock + 1 + 1 }
  obtain ⟨s', e', hload, hat, hrep⟩ := hN' fuel (by omega) { s with clock := k }
    ⟨hready.enough, hready.granted⟩
  have hreg : fatRegisterDevice d fuel dos (int32 (simpleStrtoul partText 16).1) s =
      some (.ok (0, dev), { s with clock := k }) := by
    rw [fatRegisterDevice_of_asked hgives hmbr hmagic dos hasked, hinfo, hdev]
    rfl
  refine ⟨s', e', ?_, ⟨hat.bytes, hat.outside⟩, hrep⟩
  rw [doFatFsload_registered m al hparse hget hreg]
  exact hload

end Load

/-- A file of five bytes. -/
def note : Entry := ⟨rawEntry (ascii "NOTE    TXT") 32 2 5, by decide, by decide⟩

/-- A card whose first partition is a volume of FAT12 with clusters of one sector. -/
def partedCard : Disk :=
  store (store (store (store (store (store (store (fun _ => 0)
    dosPartTblOffset ([0, 0, 0, 0, 1, 0, 0, 0] ++ le32 63 ++ le32 64)) 0x1fe [0x55, 0xaa])
    (512 * 63 + 11) [0, 2, 1, 1, 0, 1, 16, 0, 64, 0, 248, 1, 0]) (512 * 63 + 54) (sign 49 50))
    (512 * 64) [248, 255, 255, 255, 15]) (512 * 65) note.raw) (512 * 66) (ascii "Hello")

/-- A device that holds it. -/
def partedDev (partOffset : ℕ) : BlockDev :=
  ⟨partOffset, fun _ start count _ => (count, fun i => partedCard (512 * start + i))⟩

/-- `mmc_get_dev` of a board with this card in its slot. -/
def partedMmc (_ : ℤ) : Option (BlockDev × Bool) := some (partedDev 0, false)

/-- A sector of the card, as `block_read` puts it in a buffer. -/
def partedSector (sect : ℕ) : Mem := laid 512 (fun i => partedCard (512 * sect + i)) fun _ => 0

theorem card_partedCard : Card (partedDev 63) partedCard paperBoot 12 where
  works := ⟨fun _ _ _ _ _ _ _ => rfl, fun _ _ count _ => Int.natCast_nonneg count⟩
  valid :=
    { boot := by decide
      sectorSize := by decide
      reserved := by decide
      fats := by decide
      clusterSize := by decide
      clusters := by decide
      fat := by decide }
  sectorSize := by decide
  early := by decide
  full := by decide
  sect := by decide

theorem rootOn_partedCard :
    RootOn (partedDev 63) (fsdata paperBoot 12) partedCard [.entry note] where
  placed := ⟨by decide, fun hvolume => absurd hvolume (by decide), trivial⟩
  ends := ⟨by decide, by decide, by decide⟩
  sect := by decide

theorem fileOn_partedCard :
    FileOn (partedDev 63) (fsdata paperBoot 12) partedCard note.dent [2] where
  first _ := by decide
  chain := .singleton 2
  number := by decide
  volume c hc := by
    obtain rfl := List.mem_singleton.mp hc
    exact ⟨by decide, by decide, by decide⟩
  long := by decide
  size := by decide

theorem gives_partedDev : Gives (partedDev 0) fun sect => some (partedSector sect) := fun _ _ => rfl

theorem logical_partedCard : Logical (fun sect => some (partedSector sect))
    (partitionTable (partedSector 0)) [] :=
  .none (by decide)

theorem numbered_partedCard :
    numbered (partitionTable (partedSector 0)) [] 1 = some ⟨512, 63, 64⟩ := by
  decide

theorem spells_note : Spells (ascii "note.txt") [ascii "note.txt"] := by
  have hpart : IsPart (ascii "note.txt") := by decide +kernel
  exact .last hpart

theorem resolves_note : Resolves (partedDev 63) (fsdata paperBoot 12) partedCard [.entry note]
    ([ascii "note.txt"].map downcase) (some note.dent) :=
  .last (by decide)

/-- An environment with room for a size. -/
def roomyEnv : Env := { smallEnv with data := ascii "a=1" ++ List.replicate 21 0 }

theorem roomyEnv_represents : UBoot.Represents roomyEnv.data smallVars where
  holds := ⟨smallEnv_represents.holds.1, List.replicate 19 0, by decide⟩
  nodup := smallEnv_represents.nodup
  names := smallEnv_represents.names
  values := smallEnv_represents.values

end SmartQ.UBoot.Fat
