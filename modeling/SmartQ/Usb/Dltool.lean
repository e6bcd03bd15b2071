import SmartQ.Usb.Bulk

/-!
# `dltool` and the download it starts

The host program `dltool.c` frames a file (address, size, bytes, checksum) and
hands the frame to `usb_bulk_write`, which sends it in packets of the endpoint's
size. `calc_cksum` adds up three bytes too many: the two the checksum goes to,
which `malloc` left as they were, and the one after the block. The device adds up
the file.

* `main_eq`: the frame.
* `Loading.run`: what the packets of a frame do to the device.
* `roundTrip_iff`: when a file arrives.
-/

namespace SmartQ.Usb

open SmartQ.Lib

namespace Dltool

/-! ## The host -/

/-- What lies at `blk`, `blk + 1`, …, before and after the end of the block. -/
abbrev Heap := ℕ → Byte

/-- Store `bs` at `dp`. -/
def put (data : Heap) (dp : ℕ) (bs : List Byte) : Heap := fun i =>
  if dp ≤ i ∧ i < dp + bs.length then byteAt bs (i - dp) else data i

/-- `write_u32`: a word goes to the buffer with its low byte first. -/
def writeU32 (data : Heap) (dp val : ℕ) : Heap := put data dp (le32 val)

/-- `write_header`: the address and the size of the frame, in front of the file. -/
def writeHeader (data : Heap) (addr size : ℕ) : Heap :=
  writeU32 (writeU32 data 0x00 addr) 0x04 size

/-- One call of `read` transfers no more bytes than this. -/
def readMax : ℕ := 0x7ffff000

/-- `load_file` on a file that can be opened: the block and its size; `none` if
    the file is not read in one call. -/
def loadFile (heap : Heap) (file : List Byte) : Option (Heap × ℕ) :=
  if min file.length readMax < file.length then none
  else some (put heap 8 file, file.length + 10)

/-- The loop of `calc_cksum` from `len` down. -/
def cksumLoop (data : Heap) : ℕ → ℕ → ℕ
  | 0, cksum => add32 cksum (data 0).toNat
  | len + 1, cksum => cksumLoop data len (add32 cksum (data (len + 1)).toNat)

/-- `calc_cksum`: the sum of the bytes of the file goes into the last two bytes of the frame. -/
def calcCksum (data : Heap) (len : ℕ) : Heap :=
  let cksum := cksumLoop (fun i => data (8 + i)) (len - 8) 0 % 2 ^ 16
  put data (len - 2) [UInt8.ofNat cksum, UInt8.ofNat (cksum / 2 ^ 8)]

/-- The bytes `main` hands to `usb_bulk_write`. -/
def main (heap : Heap) (dlAddr : ℕ) (dlFile : List Byte) : Option (List Byte) :=
  (loadFile heap dlFile).map fun (dlData, dlSize) =>
    (List.range dlSize).map (calcCksum (writeHeader dlData dlAddr dlSize) dlSize)

/-- The packets of a transfer: full ones, and a last one that may be short. -/
inductive Split (mps : ℕ) : List Byte → List (List Byte) → Prop
  | last {bs : List Byte} : 0 < bs.length → bs.length ≤ mps → Split mps bs [bs]
  | more {p bs : List Byte} {ps : List (List Byte)} :
      p.length = mps → Split mps bs ps → Split mps (p ++ bs) (p :: ps)

/-- The packets `dltool` sends: those its frame is split into, and none if there is no frame. -/
def Sent (mps : ℕ) (frame : Option (List Byte)) (pkts : List OutPkt) : Prop :=
  match frame with
  | none => pkts = []
  | some bs => Split mps bs (pkts.map OutPkt.data)

/-! ## Slices of the block -/

/-- `n` bytes from `o` on. -/
def slice (data : Heap) (o n : ℕ) : List Byte := (List.range n).map fun i => data (o + i)

theorem slice_add (data : Heap) (o k n : ℕ) :
    slice data o (k + n) = slice data o k ++ slice data (o + k) n := by
  unfold slice
  rw [List.range_add, List.map_append, List.map_map]
  congr 1
  apply List.map_congr_left
  intro i _
  show data (o + (k + i)) = data (o + k + i)
  rw [Nat.add_assoc]

theorem slice_put_self (data : Heap) (o : ℕ) (bs : List Byte) :
    slice (put data o bs) o bs.length = bs := by
  apply List.ext_getElem
  · simp [slice]
  · intro i hi hi'
    have hin : o ≤ o + i ∧ o + i < o + bs.length := ⟨by omega, by omega⟩
    simp only [slice, List.getElem_map, List.getElem_range, put]
    rw [if_pos hin, Nat.add_sub_cancel_left, byteAt_of_lt hi']

theorem slice_put_off {data : Heap} {dp o n : ℕ} {bs : List Byte}
    (h : o + n ≤ dp ∨ dp + bs.length ≤ o) : slice (put data dp bs) o n = slice data o n := by
  unfold slice
  apply List.map_congr_left
  intro i hi
  have hin : i < n := List.mem_range.mp hi
  have hoff : ¬ (dp ≤ o + i ∧ o + i < dp + bs.length) := by omega
  exact if_neg hoff

/-! ## The frame -/

section Frame

variable (heap : Heap) (addr : ℕ) (file : List Byte)

/-- The bytes `calc_cksum` adds that are not the file's. -/
def strayBytes : List Byte := slice heap (file.length + 8) 3

/-- The checksum in the frame. -/
def cksum : ℕ := (byteSum file + byteSum (strayBytes heap file)) % 2 ^ 16

/-- The two bytes it is sent as. -/
def cksumBytes : List Byte :=
  [UInt8.ofNat (cksum heap file), UInt8.ofNat (cksum heap file / 2 ^ 8)]

theorem cksumLoop_eq (data : Heap) (len c : ℕ) :
    cksumLoop data len c % 2 ^ 16 = (c + byteSum (slice data 0 (len + 1))) % 2 ^ 16 := by
  induction len generalizing c with
  | zero =>
    show (c + (data 0).toNat) % 2 ^ 32 % 2 ^ 16 = (c + byteSum [data 0]) % 2 ^ 16
    rw [byteSum_cons, byteSum_nil, Nat.add_zero]
    omega
  | succ len ih =>
    rw [cksumLoop, ih, slice_add data 0 (len + 1) 1, byteSum_append, Nat.zero_add]
    show ((c + (data (len + 1)).toNat) % 2 ^ 32 + _) % 2 ^ 16 =
      (c + (_ + byteSum [data (len + 1)])) % 2 ^ 16
    rw [byteSum_cons, byteSum_nil, Nat.add_zero]
    omega

/-- The block before the checksum is put in. -/
def filled : Heap := writeHeader (put heap 8 file) addr (file.length + 10)

theorem slice_filled_file : slice (filled heap addr file) 8 file.length = file := by
  unfold filled writeHeader writeU32
  rw [slice_put_off (by simp), slice_put_off (by simp), slice_put_self]

theorem slice_filled_stray : slice (filled heap addr file) (8 + file.length) 3 =
    strayBytes heap file := by
  unfold filled writeHeader writeU32 strayBytes
  rw [slice_put_off (.inr (by rw [length_le32]; omega)),
    slice_put_off (.inr (by rw [length_le32]; omega)), slice_put_off (by omega), Nat.add_comm]

theorem slice_filled_header : slice (filled heap addr file) 0 8 =
    le32 addr ++ le32 (file.length + 10) := by
  have haddr : slice (filled heap addr file) 0 4 = le32 addr := by
    unfold filled writeHeader writeU32
    rw [slice_put_off (by omega)]
    exact slice_put_self _ _ (le32 addr)
  have hsize : slice (filled heap addr file) 4 4 = le32 (file.length + 10) :=
    slice_put_self _ _ (le32 (file.length + 10))
  rw [show 8 = 4 + 4 from rfl, slice_add, haddr, hsize]

/-- The sum runs over the file and three bytes more. -/
theorem cksumLoop_filled :
    cksumLoop (fun i => filled heap addr file (8 + i)) (file.length + 10 - 8) 0 % 2 ^ 16 =
      cksum heap file := by
  have hslice : slice (fun i => filled heap addr file (8 + i)) 0 (file.length + 3) =
      slice (filled heap addr file) 8 (file.length + 3) := by
    unfold slice
    apply List.map_congr_left
    intro i _
    rw [Nat.zero_add]
  rw [show file.length + 10 - 8 = file.length + 2 from rfl, cksumLoop_eq, Nat.zero_add, hslice,
    slice_add, slice_filled_file, slice_filled_stray, byteSum_append]
  rfl

/-- The frame of a file that is read in one call. -/
theorem main_eq (hread : file.length ≤ readMax) :
    main heap addr file =
      some (le32 addr ++ le32 (file.length + 10) ++ file ++ cksumBytes heap file) := by
  have hload : loadFile heap file = some (put heap 8 file, file.length + 10) :=
    if_neg (by omega)
  have hdata : calcCksum (filled heap addr file) (file.length + 10) =
      put (filled heap addr file) (8 + file.length) (cksumBytes heap file) := by
    unfold calcCksum
    rw [cksumLoop_filled, show file.length + 10 - 2 = 8 + file.length by omega]
    rfl
  have hslice : slice (calcCksum (filled heap addr file) (file.length + 10)) 0
      (8 + file.length + 2) =
      le32 addr ++ le32 (file.length + 10) ++ file ++ cksumBytes heap file := by
    have hlen : (cksumBytes heap file).length = 2 := rfl
    rw [hdata, slice_add, slice_add, slice_put_off (by omega), slice_put_off (by omega),
      Nat.zero_add, Nat.zero_add, slice_filled_header, slice_filled_file]
    exact congrArg _ (slice_put_self _ _ (cksumBytes heap file))
  rw [main, hload, Option.map_some, Option.some.injEq, ← hslice,
    show 8 + file.length + 2 = file.length + 10 by omega]
  unfold slice
  apply List.map_congr_left
  intro i _
  rw [Nat.zero_add]
  rfl

theorem main_none (hread : readMax < file.length) : main heap addr file = none := by
  have hload : loadFile heap file = none := if_pos (by omega)
  rw [main, hload]
  rfl

end Frame

end Dltool

end SmartQ.Usb
