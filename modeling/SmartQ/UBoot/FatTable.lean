import SmartQ.Lib.Disk
import SmartQ.Lib.Runs
import SmartQ.UBoot.FatFrame

/-!
# The FAT and its buffer

`get_fatent` in `u-boot/fs/fat/fat.c` answers from a buffer of six sectors of the FAT and
refills it when an entry lies elsewhere. A refill that fails may leave anything in the buffer,
while the number of the part it held before stays.

* `fatEntry_twelve`: an entry of 12 bits is put together from words of the buffer.
* `getFatent_works`: with reads that succeed the entry is the one of the table.
* `queries_iff`: in any run of queries, with any reads failing, the values are right and the
  buffer holds what it is marked with exactly if no failed refill spoils a part it is marked
  with and the reserved bits of the entries of 32 bits are zero.
-/

namespace SmartQ.UBoot.Fat

open SmartQ.Lib

/-! ## The FAT on the card -/

/-- A read that succeeds gives what is on the card, of one sector if it asks for none. -/
def BlockDev.Faithful (dev : BlockDev) (disk : Disk) : Prop :=
  ∀ n start count old, 0 ≤ (dev.read n start count old).1 →
    ∀ i < transferred count, (dev.read n start count old).2 i = disk (512 * start + i)

/-- And every read succeeds. -/
structure BlockDev.Works (dev : BlockDev) (disk : Disk) : Prop where
  faithful : dev.Faithful disk
  succeeds : ∀ n start count old, 0 ≤ (dev.read n start count old).1

section Table

variable (dev : BlockDev) (mydata : Fsdata) (disk : Disk)

/-- Byte `i` of the FAT. -/
def fatByte (i : ℕ) : Byte := disk (512 * (mydata.fatSect + dev.partOffset) + i)

/-- The value of entry `c` of the FAT. -/
def fatValue (c : ℕ) : ℕ :=
  if mydata.fatsize = 32 then mem32 (fatByte dev mydata disk) (4 * c)
  else if mydata.fatsize = 16 then mem16 (fatByte dev mydata disk) (2 * c)
  else if c % 2 = 0 then mem16 (fatByte dev mydata disk) (3 * c / 2) % 2 ^ 12
  else mem16 (fatByte dev mydata disk) (3 * c / 2) / 2 ^ 4

/-- The FAT of a volume has one of the three kinds of entries, is not empty and lies on the
    card. -/
structure Geometry : Prop where
  fatsize : mydata.fatsize = 12 ∨ mydata.fatsize = 16 ∨ mydata.fatsize = 32
  fatlength : 0 < mydata.fatlength
  fat : mydata.fatSect + mydata.fatlength + dev.partOffset ≤ 2 ^ 32

/-- The part of the FAT an entry belongs to, and its place there. -/
def bufnum (c : ℕ) : ℕ := c / fatBufSize mydata.fatsize

/-- The place of an entry in the part that it belongs to. -/
def offset (c : ℕ) : ℕ := c - bufnum mydata c * fatBufSize mydata.fatsize

/-- The first sector of a part. -/
def partSect (bufnum : ℕ) : ℕ := (bufnum * 6 + mydata.fatSect + dev.partOffset) % 2 ^ 32

/-- An entry begins inside the FAT. -/
def InFat (c : ℕ) : Prop := mydata.fatsize * c < 8 * (512 * mydata.fatlength)

instance (c : ℕ) : Decidable (InFat mydata c) := inferInstanceAs (Decidable (_ < _))

end Table

/-! ## Entries -/

section Entries

variable {H : Type} {dev : BlockDev} {mydata : Fsdata} {disk : Disk}

theorem mem16_lt (m : Mem) (o : ℕ) : mem16 m o < 2 ^ 16 := by
  have hlow := (m o).toNat_lt
  have hhigh := (m (o + 1)).toNat_lt
  unfold mem16
  omega

theorem mem32_lt (m : Mem) (o : ℕ) : mem32 m o < 2 ^ 32 := by
  have hlow := mem16_lt m o
  have hhigh := mem16_lt m (o + 2)
  unfold mem32
  omega

theorem mem16_congr {m m' : Mem} {o o' : ℕ} (h : m o = m' o') (h' : m (o + 1) = m' (o' + 1)) :
    mem16 m o = mem16 m' o' := by
  unfold mem16
  rw [h, h']

/-- An entry of 12 bits, put together from words of the buffer. -/
theorem fatEntry_word (m : Mem) {o w : ℕ} (hw : o * 3 / 4 = w) :
    fatEntry 12 m o =
      match o % 4 with
      | 0 => mem16 m (2 * w) % 2 ^ 12
      | 1 => mem16 m (2 * w + 2) % 2 ^ 8 * 2 ^ 4 + mem16 m (2 * w) / 2 ^ 12
      | 2 => mem16 m (2 * w + 2) % 2 ^ 4 * 2 ^ 8 + mem16 m (2 * w) / 2 ^ 8
      | _ => mem16 m (2 * w) / 2 ^ 4 := by
  subst hw
  rfl

/-- An entry of 12 bits begins at a byte or in the middle of one. -/
theorem fatEntry_twelve (m : Mem) (o : ℕ) :
    fatEntry 12 m o =
      if o % 2 = 0 then mem16 m (3 * o / 2) % 2 ^ 12 else mem16 m (3 * o / 2) / 2 ^ 4 := by
  have hbyte : ∀ i, (m i).toNat < 256 := fun i => (m i).toNat_lt
  obtain ⟨q, r, hr, rfl⟩ : ∃ q r, r < 4 ∧ o = 4 * q + r :=
    ⟨o / 4, o % 4, Nat.mod_lt _ (by decide), (Nat.div_add_mod o 4).symm⟩
  have hmod : (4 * q + r) % 4 = r := by omega
  rw [fatEntry_word m (show (4 * q + r) * 3 / 4 = 3 * q + r * 3 / 4 by omega), hmod]
  unfold mem16
  interval_cases r
  · rw [if_pos (by omega), show 3 * (4 * q + 0) / 2 = 2 * (3 * q + 0 * 3 / 4) by omega]
    rfl
  · -- the last nibble of one byte and the next byte
    rw [if_neg (by omega), show 3 * (4 * q + 1) / 2 = 6 * q + 1 by omega]
    simp only [show 2 * (3 * q + 1 * 3 / 4) = 6 * q by omega, Nat.add_assoc, Nat.reduceAdd]
    have h0 := hbyte (6 * q)
    have h1 := hbyte (6 * q + 1)
    have h2 := hbyte (6 * q + 2)
    show ((m (6 * q + 2)).toNat + (m (6 * q + 3)).toNat * 2 ^ 8) % 2 ^ 8 * 2 ^ 4 +
        ((m (6 * q)).toNat + (m (6 * q + 1)).toNat * 2 ^ 8) / 2 ^ 12 =
      ((m (6 * q + 1)).toNat + (m (6 * q + 2)).toNat * 2 ^ 8) / 2 ^ 4
    omega
  · rw [if_pos (by omega), show 3 * (4 * q + 2) / 2 = 6 * q + 3 by omega]
    simp only [show 2 * (3 * q + 2 * 3 / 4) = 6 * q + 2 by omega, Nat.add_assoc, Nat.reduceAdd]
    have h2 := hbyte (6 * q + 2)
    have h3 := hbyte (6 * q + 3)
    have h4 := hbyte (6 * q + 4)
    show ((m (6 * q + 4)).toNat + (m (6 * q + 5)).toNat * 2 ^ 8) % 2 ^ 4 * 2 ^ 8 +
        ((m (6 * q + 2)).toNat + (m (6 * q + 3)).toNat * 2 ^ 8) / 2 ^ 8 =
      ((m (6 * q + 3)).toNat + (m (6 * q + 4)).toNat * 2 ^ 8) % 2 ^ 12
    omega
  · rw [if_neg (by omega), show 3 * (4 * q + 3) / 2 = 2 * (3 * q + 3 * 3 / 4) by omega]
    rfl

/-- The value of an entry is found in the part it belongs to. -/
theorem fatEntry_of_part (hgeo : Geometry dev mydata) {fatbuf : Mem} {c : ℕ}
    (h : ∀ i < 3072, fatbuf i =
      fatByte dev mydata disk (3072 * (c / fatBufSize mydata.fatsize) + i)) :
    fatEntry mydata.fatsize fatbuf (offset mydata c) = fatValue dev mydata disk c := by
  unfold offset bufnum
  unfold fatValue
  rcases hgeo.fatsize with htype | htype | htype
  · have hsize : fatBufSize 12 = 2048 := rfl
    rw [htype, hsize] at h ⊢
    obtain ⟨b, o, ho, rfl⟩ : ∃ b o, o < 2048 ∧ c = 2048 * b + o :=
      ⟨c / 2048, c % 2048, Nat.mod_lt _ (by decide), (Nat.div_add_mod c 2048).symm⟩
    rw [show (2048 * b + o) / 2048 = b by omega] at h ⊢
    rw [show 2048 * b + o - b * 2048 = o by omega, fatEntry_twelve,
      if_neg (by decide : ¬ (12 : ℕ) = 32), if_neg (by decide : ¬ (12 : ℕ) = 16)]
    have hparity : (2048 * b + o) % 2 = o % 2 := by omega
    have hpos : 3 * (2048 * b + o) / 2 = 3072 * b + 3 * o / 2 := by omega
    have hword : mem16 fatbuf (3 * o / 2) =
        mem16 (fatByte dev mydata disk) (3072 * b + 3 * o / 2) :=
      mem16_congr (h _ (by omega)) (h _ (by omega))
    rw [hparity, hpos, hword]
  · have hsize : fatBufSize 16 = 1536 := rfl
    rw [htype, hsize] at h ⊢
    obtain ⟨b, o, ho, rfl⟩ : ∃ b o, o < 1536 ∧ c = 1536 * b + o :=
      ⟨c / 1536, c % 1536, Nat.mod_lt _ (by decide), (Nat.div_add_mod c 1536).symm⟩
    rw [show (1536 * b + o) / 1536 = b by omega] at h ⊢
    rw [show 1536 * b + o - b * 1536 = o by omega, if_neg (by decide), if_pos rfl,
      show 2 * (1536 * b + o) = 3072 * b + 2 * o by omega]
    exact mem16_congr (h _ (by omega)) (h _ (by omega))
  · have hsize : fatBufSize 32 = 768 := rfl
    rw [htype, hsize] at h ⊢
    obtain ⟨b, o, ho, rfl⟩ : ∃ b o, o < 768 ∧ c = 768 * b + o :=
      ⟨c / 768, c % 768, Nat.mod_lt _ (by decide), (Nat.div_add_mod c 768).symm⟩
    rw [show (768 * b + o) / 768 = b by omega] at h ⊢
    rw [show 768 * b + o - b * 768 = o by omega, if_pos rfl,
      show 4 * (768 * b + o) = 3072 * b + 4 * o by omega]
    have hlow : mem16 fatbuf (4 * o) = mem16 (fatByte dev mydata disk) (3072 * b + 4 * o) :=
      mem16_congr (h _ (by omega)) (h _ (by omega))
    have hhigh : mem16 fatbuf (4 * o + 2) =
        mem16 (fatByte dev mydata disk) (3072 * b + 4 * o + 2) :=
      mem16_congr (h _ (by omega)) (h _ (by omega))
    show mem16 fatbuf (4 * o) + mem16 fatbuf (4 * o + 2) * 2 ^ 16 = _
    rw [hlow, hhigh]
    rfl

/-- The buffer holds part `n` of the FAT. -/
def Holds (dev : BlockDev) (mydata : Fsdata) (disk : Disk) (fatbuf : Mem) (n : ℕ) : Prop :=
  ∀ i < 3072, fatbuf i = disk (512 * partSect dev mydata n + i)

/-- The part of an entry of the FAT lies in the FAT. -/
theorem InFat.part (hgeo : Geometry dev mydata) {c : ℕ} (hin : InFat mydata c) :
    6 * bufnum mydata c < mydata.fatlength := by
  have hmul : mydata.fatsize * fatBufSize mydata.fatsize = 8 * 3072 := by
    unfold fatBufSize
    rcases hgeo.fatsize with h | h | h
    all_goals
      rw [h]
      rfl
  have hle : mydata.fatsize * (bufnum mydata c * fatBufSize mydata.fatsize) ≤
      mydata.fatsize * c := Nat.mul_le_mul_left _ (Nat.div_mul_le_self c _)
  unfold InFat at hin
  rw [Nat.mul_comm (bufnum mydata c), ← Nat.mul_assoc, hmul] at hle
  omega

theorem fatEntry_of_holds (hgeo : Geometry dev mydata) {fatbuf : Mem} {c : ℕ}
    (hin : InFat mydata c) (h : Holds dev mydata disk fatbuf (bufnum mydata c)) :
    fatEntry mydata.fatsize fatbuf (offset mydata c) = fatValue dev mydata disk c := by
  have hpart := hin.part hgeo
  have hfat := hgeo.fat
  have hsect : partSect dev mydata (bufnum mydata c) =
      bufnum mydata c * 6 + mydata.fatSect + dev.partOffset := Nat.mod_eq_of_lt (by omega)
  apply fatEntry_of_part hgeo
  intro i hi
  rw [h i hi, hsect, fatByte]
  congr 1
  unfold bufnum
  omega

/-! ## A query -/

/-- The buffer of the FAT holds the part it is marked with. -/
def Coherent (dev : BlockDev) (mydata : Fsdata) (disk : Disk) (s : St H) : Prop :=
  ∀ n : ℕ, s.fatbufnum = n → Holds dev mydata disk s.fatbuf n

/-- The read of a refill, and the buffer behind it. -/
def refill (dev : BlockDev) (mydata : Fsdata) (n : ℕ) (s : St H) : ℤ × Mem :=
  let r := dev.read s.clock (partSect dev mydata n) 6 s.fatbuf
  (r.1, laid 3072 r.2 s.fatbuf)

theorem holds_refill (hdev : dev.Faithful disk) {n : ℕ} {s : St H}
    (h : 0 ≤ (refill dev mydata n s).1) : Holds dev mydata disk (refill dev mydata n s).2 n := by
  intro i hi
  have hread := hdev s.clock (partSect dev mydata n) 6 s.fatbuf h i hi
  exact (if_pos hi).trans hread

theorem coherent_of_empty {s : St H} (h : s.fatbufnum = -1) : Coherent dev mydata disk s := by
  intro n hn
  omega

/-- The part asked for is in the buffer. -/
theorem loadFat_hit {n : ℕ} {s : St H} (h : s.fatbufnum = n) :
    loadFat dev mydata n s = some (.ok true, s) := by
  rw [loadFat, Prog.get_bind, if_pos h.symm, Prog.pure_apply]

theorem loadFat_read (hgeo : Geometry dev mydata) {n : ℕ} {s : St H} (h : s.fatbufnum ≠ n) :
    loadFat dev mydata n s =
      (do
        Prog.modify fun s' => { s' with fatbuf := (refill dev mydata n s).2 }
        if (refill dev mydata n s).1 < 0 then pure false else do
          Prog.modify fun s' => { s' with fatbufnum := n }
          pure true : FatM H Bool) { s with clock := s.clock + 1 } := by
  have hpos := hgeo.fatlength
  have hsize : min 6 (mydata.fatlength * 512) = 6 := by omega
  rw [loadFat, Prog.get_bind, if_neg (Ne.symm h), hsize]
  rfl

/-- It is not, and its read fails. -/
theorem loadFat_fails (hgeo : Geometry dev mydata) {n : ℕ} {s : St H} (h : s.fatbufnum ≠ n)
    (hret : (refill dev mydata n s).1 < 0) :
    loadFat dev mydata n s = some (.ok false,
      { s with clock := s.clock + 1, fatbuf := (refill dev mydata n s).2 }) := by
  rw [loadFat_read hgeo h, Prog.modify_bind, if_pos hret, Prog.pure_apply]

/-- It is not, and it is read. -/
theorem loadFat_loads (hgeo : Geometry dev mydata) {n : ℕ} {s : St H} (h : s.fatbufnum ≠ n)
    (hret : 0 ≤ (refill dev mydata n s).1) :
    loadFat dev mydata n s = some (.ok true,
      { s with clock := s.clock + 1, fatbuf := (refill dev mydata n s).2, fatbufnum := n }) := by
  rw [loadFat_read hgeo h, Prog.modify_bind, if_neg (not_lt.mpr hret), Prog.modify_bind,
    Prog.pure_apply]

/-- `get_fatent` behind the look for the part. -/
theorem getFatent_of_load (hgeo : Geometry dev mydata) {c : ℕ} {ok : Bool} {s s' : St H}
    (h : loadFat dev mydata (bufnum mydata c) s = some (.ok ok, s')) :
    getFatent dev mydata c s = some (.ok (if ok then
      fatEntry mydata.fatsize s'.fatbuf (offset mydata c) else 0), s') := by
  have htype : ¬ (mydata.fatsize ≠ 32 ∧ mydata.fatsize ≠ 16 ∧ mydata.fatsize ≠ 12) := by
    have := hgeo.fatsize
    omega
  unfold getFatent
  exact (congrFun (if_neg htype) s).trans (Prog.bind_ok h)

/-- With reads that succeed every query keeps the buffer as it is marked. -/
theorem loadFat_works (hdev : dev.Works disk) (hgeo : Geometry dev mydata) (n : ℕ) {s : St H}
    (hs : Coherent dev mydata disk s) :
    ∃ s', loadFat dev mydata n s = some (.ok true, s') ∧ Coherent dev mydata disk s' ∧
      Holds dev mydata disk s'.fatbuf n ∧ s'.buffer = s.buffer := by
  by_cases hheld : s.fatbufnum = n
  · exact ⟨s, loadFat_hit hheld, hs, hs n hheld, rfl⟩
  · have hret : 0 ≤ (refill dev mydata n s).1 := hdev.succeeds _ _ _ _
    have hholds := holds_refill hdev.faithful hret
    refine ⟨_, loadFat_loads hgeo hheld hret, fun m hm => ?_, hholds, rfl⟩
    rw [← Nat.cast_injective (show (n : ℤ) = m from hm)]
    exact hholds

/-- `get_fatent` gives the value of the entry. -/
theorem getFatent_works (hdev : dev.Works disk) (hgeo : Geometry dev mydata) {c : ℕ}
    (hin : InFat mydata c) {s : St H} (hs : Coherent dev mydata disk s) :
    ∃ s', getFatent dev mydata c s = some (.ok (fatValue dev mydata disk c), s') ∧
      Coherent dev mydata disk s' ∧ s'.buffer = s.buffer := by
  obtain ⟨s', hrun, hs', hholds, hbuffer⟩ := loadFat_works hdev hgeo (bufnum mydata c) hs
  refine ⟨s', ?_, hs', hbuffer⟩
  rw [getFatent_of_load hgeo hrun, if_pos rfl, fatEntry_of_holds hgeo hin hholds]

/-- A lookup keeps the buffer as it is marked. -/
theorem coherent_frame (hdev : dev.Works disk) (hgeo : Geometry dev mydata) :
    Frame dev mydata fun s s' : St H =>
      Coherent dev mydata disk s → Coherent dev mydata disk s' where
  refl _ hs := hs
  trans _ _ _ h h' hs := h' (h hs)
  block _ _ _ _ _ hs := hs
  out _ _ hs := hs
  fatent c := by
    intro s r s' hrun hs
    obtain ⟨s1, hload, hs1, -⟩ := loadFat_works hdev hgeo (bufnum mydata c) hs
    rw [getFatent_of_load hgeo hload] at hrun
    cases hrun
    exact hs1
  work w start := by
    intro s r s' hrun hs
    rw [workRead, Prog.get_bind, Prog.modify_bind] at hrun
    cases hb : s.block w with
    | none =>
      rw [hb] at hrun
      cases hrun
      exact hs
    | some b =>
      rw [hb] at hrun
      rcases Prog.exitIf_bind hrun with ⟨-, -, rfl⟩ | ⟨-, hrun⟩
      · exact hs
      · obtain ⟨⟨ret, mem⟩, s1, hread, hrest⟩ := Prog.step_bind hrun
        cases hread
        cases hrest
        exact hs

end Entries

/-! ## Runs of queries -/

section Queries

variable {H : Type} (dev : BlockDev) (mydata : Fsdata) (disk : Disk)

/-- A query: an entry of the FAT. -/
structure Query (mydata : Fsdata) where
  entry : ℕ
  inFat : InFat mydata entry

/-- The entry as the FAT specification has it: of 32 bits the low 28 count. -/
def entryValue (c : ℕ) : ℕ :=
  if mydata.fatsize = 32 then fatValue dev mydata disk c % 2 ^ 28 else fatValue dev mydata disk c

/-- The part of the entry is not in the buffer and cannot be read. -/
def ReadFails (s : St H) (c : ℕ) : Prop :=
  s.fatbufnum ≠ bufnum mydata c ∧ (refill dev mydata (bufnum mydata c) s).1 < 0

/-- The state behind a query. -/
def next (s : St H) (q : Query mydata) : Option (St H) :=
  (getFatent dev mydata q.entry s).map Prod.snd

/-- The query gets the value of the entry, or 0 if that cannot be read, and leaves the buffer as
    it is marked. -/
def Answers (s : St H) (q : Query mydata) : Prop :=
  ∃ v s', getFatent dev mydata q.entry s = some (.ok v, s') ∧
    (ReadFails dev mydata s q.entry → v = 0) ∧
    (¬ ReadFails dev mydata s q.entry → v = entryValue dev mydata disk q.entry) ∧
    Coherent dev mydata disk s'

/-- A read that fails leaves the part in the buffer as it was, and what is looked up has no
    reserved bits. -/
structure Clean (s : St H) (q : Query mydata) : Prop where
  kept : ReadFails dev mydata s q.entry → ∀ n : ℕ, s.fatbufnum = n →
    Holds dev mydata disk (refill dev mydata (bufnum mydata q.entry) s).2 n
  reserved : ¬ ReadFails dev mydata s q.entry → mydata.fatsize = 32 →
    fatValue dev mydata disk q.entry < 2 ^ 28

theorem fatValue_eq_entryValue_iff (c : ℕ) :
    fatValue dev mydata disk c = entryValue dev mydata disk c ↔
      (mydata.fatsize = 32 → fatValue dev mydata disk c < 2 ^ 28) := by
  unfold entryValue
  by_cases htype : mydata.fatsize = 32
  · rw [if_pos htype, eq_comm, Nat.mod_eq_iff_lt (by decide)]
    exact ⟨fun h _ => h, fun h => h htype⟩
  · rw [if_neg htype]
    exact iff_of_true rfl fun h => absurd h htype

variable {dev mydata disk}

/-- A query whose part is in the buffer or can be read: its value, and the state behind. -/
theorem getFatent_readable (hdev : dev.Faithful disk) (hgeo : Geometry dev mydata) {c : ℕ}
    (hin : InFat mydata c) {s : St H} (hs : Coherent dev mydata disk s)
    (hread : ¬ ReadFails dev mydata s c) :
    ∃ s', getFatent dev mydata c s = some (.ok (fatValue dev mydata disk c), s') ∧
      Coherent dev mydata disk s' := by
  by_cases hheld : s.fatbufnum = bufnum mydata c
  · refine ⟨s, ?_, hs⟩
    rw [getFatent_of_load hgeo (loadFat_hit hheld), if_pos rfl,
      fatEntry_of_holds hgeo hin (hs _ hheld)]
  · have hret : 0 ≤ (refill dev mydata (bufnum mydata c) s).1 := by
      by_contra hneg
      exact hread ⟨hheld, not_le.mp hneg⟩
    have hholds := holds_refill hdev hret
    have hrun := getFatent_of_load hgeo (loadFat_loads hgeo hheld hret)
    rw [if_pos rfl, fatEntry_of_holds hgeo hin hholds] at hrun
    refine ⟨_, hrun, fun n hn => ?_⟩
    rw [← Nat.cast_injective (show ((bufnum mydata c : ℕ) : ℤ) = n from hn)]
    exact hholds

/-- A query whose read fails. -/
theorem getFatent_fails (hgeo : Geometry dev mydata) {c : ℕ} {s : St H}
    (hread : ReadFails dev mydata s c) :
    getFatent dev mydata c s = some (.ok 0, { s with
      clock := s.clock + 1, fatbuf := (refill dev mydata (bufnum mydata c) s).2 }) := by
  rw [getFatent_of_load hgeo (loadFat_fails hgeo hread.1 hread.2)]
  rfl

/-- In a state whose buffer is as it is marked. -/
theorem answers_iff (hdev : dev.Faithful disk) (hgeo : Geometry dev mydata) {s : St H}
    (hs : Coherent dev mydata disk s) (q : Query mydata) :
    Answers dev mydata disk s q ↔ Clean dev mydata disk s q := by
  by_cases hread : ReadFails dev mydata s q.entry
  · have hrun := getFatent_fails hgeo hread
    constructor
    · rintro ⟨v, s', hrun', -, -, hs'⟩
      rw [hrun] at hrun'
      cases hrun'
      exact ⟨fun _ => hs', fun hnot => absurd hread hnot⟩
    · intro hclean
      exact ⟨0, _, hrun, fun _ => rfl, fun hnot => absurd hread hnot, hclean.kept hread⟩
  · obtain ⟨s', hrun, hs'⟩ := getFatent_readable hdev hgeo q.inFat hs hread
    have hvalue := fatValue_eq_entryValue_iff dev mydata disk q.entry
    constructor
    · rintro ⟨v, s1, hrun', -, hv, -⟩
      rw [hrun] at hrun'
      cases hrun'
      exact ⟨fun hfail => absurd hfail hread, fun _ => hvalue.mp (hv hread)⟩
    · intro hclean
      exact ⟨_, s', hrun, fun hfail => absurd hfail hread,
        fun _ => hvalue.mpr (hclean.reserved hread), hs'⟩

/-- In a run of queries that starts with an empty buffer, every query is answered right and leaves
    the buffer as it is marked exactly if no failed read spoils the part in the buffer and no entry
    looked up has reserved bits. -/
theorem queries_iff (dev : BlockDev) (mydata : Fsdata) (disk : Disk) (hdev : dev.Faithful disk)
    (hgeo : Geometry dev mydata) (qs : List (Query mydata)) (s : St H) (hs : s.fatbufnum = -1) :
    Throughout (next dev mydata) (Answers dev mydata disk) s qs ↔
      Throughout (next dev mydata) (Clean dev mydata disk) s qs := by
  apply throughout_iff (I := Coherent dev mydata disk) (fun s q hs => answers_iff hdev hgeo hs q)
    ?_ (coherent_of_empty hs)
  intro s q t hs hclean hstep
  obtain ⟨v, s', hrun, -, -, hs'⟩ := (answers_iff hdev hgeo hs q).mpr hclean
  unfold next at hstep
  rw [hrun] at hstep
  cases hstep
  exact hs'

/-! ### Examples -/

/-- A card that gives what is on it. -/
def cardDev (disk : Disk) : BlockDev := ⟨0, fun _ start _ _ => (0, fun i => disk (512 * start + i))⟩

theorem cardDev_works (disk : Disk) : (cardDev disk).Works disk :=
  ⟨fun _ _ _ _ _ _ _ => rfl, fun _ _ _ _ => le_rfl⟩

/-- The state before the first query of a volume. -/
def St.fresh : St Unit := ⟨(), fun _ => none, 0, fun _ => 0, -1, fun _ => 0, [], []⟩

/-- A volume with a FAT of one sector behind the first one. -/
def oneSector (fatsize : ℕ) : Fsdata := ⟨fatsize, 1, 1, 2, 1, 1⟩

theorem geometry_oneSector {fatsize : ℕ} (h : fatsize = 12 ∨ fatsize = 16 ∨ fatsize = 32)
    (disk : Disk) : Geometry (cardDev disk) (oneSector fatsize) where
  fatsize := h
  fatlength := Nat.one_pos
  fat := show 1 + 1 + 0 ≤ 2 ^ 32 by decide

theorem not_readFails_cardDev (disk : Disk) (fatsize : ℕ) (s : St Unit) (c : ℕ) :
    ¬ ReadFails (cardDev disk) (oneSector fatsize) s c := by
  intro hfail
  exact absurd hfail.2 (lt_irrefl 0)

/-- Two entries of 12 bits are looked up. -/
theorem queries_twelve :
    Throughout (next (cardDev fun i => UInt8.ofNat i) (oneSector 12))
      (Answers (cardDev fun i => UInt8.ofNat i) (oneSector 12) fun i => UInt8.ofNat i) St.fresh
      [⟨2, by decide⟩, ⟨3, by decide⟩] := by
  apply (queries_iff _ _ _ (cardDev_works _).faithful (geometry_oneSector (.inl rfl) _) _ _
    rfl).mpr
  intro _ q _ t _ _
  constructor
  · intro hfail
    exact absurd hfail (not_readFails_cardDev _ _ _ _)
  · intro _ htype
    exact absurd htype (show ¬ (12 : ℕ) = 32 by decide)

/-- Entry 2 of 32 bits with reserved bits is looked up. -/
theorem not_queries_reserved :
    ¬ Throughout (next (cardDev fun _ => 0xff) (oneSector 32))
      (Answers (cardDev fun _ => 0xff) (oneSector 32) fun _ => 0xff) St.fresh
      [⟨2, by decide⟩] := by
  intro h
  have hanswers := (throughout_cons.mp h).1
  have hclean := (answers_iff (cardDev_works _).faithful
    (geometry_oneSector (.inr (.inr rfl)) _) (coherent_of_empty rfl) _).mp hanswers
  have hvalue : fatValue (cardDev fun _ => 0xff) (oneSector 32) (fun _ => 0xff) 2 < 2 ^ 28 :=
    hclean.reserved (not_readFails_cardDev _ _ _ _) rfl
  exact absurd hvalue (by decide)

end Queries

end SmartQ.UBoot.Fat
