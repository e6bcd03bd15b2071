import SmartQ.UBoot.FatLongName

/-!
# Directories of a FAT volume

A directory as FAT lays it out: entries of 32 bytes, a long name in slots in front of its entry,
the slot with the end of the name first. The two loops of `u-boot/fs/fat/fat.c` over a directory
see it through a window of one cluster.

* `slotsBack_slots`: the slots of a name, read backwards, give the name.
* `find_marks`: the first entry that has a name is the one of the first item that has it.
* `Placed.reads`: how the loops read each entry of the items that lie in a directory.
-/

namespace SmartQ.UBoot.Fat

open SmartQ.Lib

/-! ## Entries -/

/-- The entry in 32 bytes. -/
def dentOf (raw : List Byte) : DirEntry := dentAt (byteAt raw) 0

/-- An entry that is in use or was. -/
structure Entry where
  raw : List Byte
  length : raw.length = 32
  used : byteAt raw 0 ≠ 0

/-- A file or a directory with a long name of one byte a character. -/
structure LongEntry extends Entry where
  name : List Byte
  notVolume : (dentOf raw).has attrVolume = false
  notDeleted : byteAt raw 0 ≠ deletedFlag
  pos : 0 < name.length
  le : name.length ≤ 255
  chars : 0 ∉ name

/-- An item of a directory: an entry by itself, which may also be deleted or a volume label, or
    one with a long name. -/
inductive Item
  | entry (e : Entry)
  | long (e : LongEntry)

/-- The entry as `dir_entry` sees its 32 bytes. -/
def Entry.dent (e : Entry) : DirEntry := dentOf e.raw

/-- `name[0] & LAST_LONG_ENTRY_MASK`: whether a slot says that its long name ends in it. -/
def Entry.hasMask (e : Entry) : Bool := (byteAt e.raw 0).toNat &&& lastLongEntryMask ≠ 0

/-- The names the loops compare with: none if the entry is deleted, and a label has one only if
    its first character passes for the number of a last slot, as a letter does. -/
def Entry.names (e : Entry) : List (List Byte) :=
  if byteAt e.raw 0 = deletedFlag ∨ (e.dent.has attrVolume ∧ ¬ e.hasMask) then []
  else [getName e.dent]

/-- The low byte of character `i` in the slots of a name: a zero ends the name, and the slot is
    filled up. -/
def charLow (name : List Byte) (i : ℕ) : Byte :=
  if i < name.length then byteAt name i else if i = name.length then 0 else 0xff

/-- The high byte of character `i`: 0 up to the end of the name, and filled up with 0xff behind
    it. -/
def charHigh (name : List Byte) (i : ℕ) : Byte := if i ≤ name.length then 0 else 0xff

/-- The number of slots of a name. -/
def slotCount (name : List Byte) : ℕ := (name.length + 12) / 13

/-- Slot `j` of a name, counted back from its entry. -/
def slotBytes (name : List Byte) (cksum : Byte) (j : ℕ) : List Byte :=
  let chars (k n : ℕ) := (List.range n).flatMap fun i =>
    [charLow name (13 * j + (k + i)), charHigh name (13 * j + (k + i))]
  UInt8.ofNat (if j + 1 = slotCount name then lastLongEntryMask + (j + 1) else j + 1) ::
    chars 0 5 ++ [UInt8.ofNat attrVfat, 0, cksum] ++ chars 5 6 ++ [0, 0] ++ chars 11 2

/-- The checksum of its entry in the slots of a name. -/
def LongEntry.cksum (e : LongEntry) : Byte := UInt8.ofNat (mkcksum e.dent)

/-- The first `n` slots of a name, the first one last. -/
def slots (e : LongEntry) : (n : ℕ) → List Byte
  | 0 => []
  | n + 1 => slotBytes e.name e.cksum n ++ slots e n

namespace Item

/-- The bytes of an item in the directory: the slots of a long name stand in front of its entry.
    -/
def bytes : Item → List Byte
  | entry e => e.raw
  | long e => slots e (slotCount e.name) ++ e.raw

/-- The number of entries of an item. -/
def size : Item → ℕ
  | entry _ => 1
  | long e => slotCount e.name + 1

/-- The entry that the item is found as. -/
def dent : Item → DirEntry
  | entry e => e.dent
  | long e => e.dent

/-- The names that a lookup finds the item under: the short one, and the long one in lower case.
    -/
def names : Item → List (List Byte)
  | entry e => e.names
  | long e => [getName e.dent, finishName e.name]

end Item

/-- The first item of a directory that has the name. -/
def findItem (name : List Byte) (items : List Item) : Option DirEntry :=
  (items.find? (name ∈ ·.names)).map Item.dent

/-! ## What an entry says to the loops -/

/-- What an entry leads to: the names it is compared under and the entry it gives. -/
structure Mark where
  names : List (List Byte)
  dent : DirEntry

/-- What the comparison of `name` with a mark leads to. -/
def Mark.check (name : List Byte) (mark : Mark) : Option DirEntry :=
  if name ∈ mark.names then some mark.dent else none

/-- What the entries of an item say, one after the other. -/
def Item.marks : Item → List Mark
  | entry e => [⟨e.names, e.dent⟩]
  | long e => ⟨[getName e.dent, finishName e.name], e.dent⟩ ::
      (List.replicate (slotCount e.name - 1) ⟨[], e.dent⟩ ++ [⟨[getName e.dent], e.dent⟩])

theorem slotCount_pos {name : List Byte} (h : 0 < name.length) : 0 < slotCount name := by
  unfold slotCount
  omega

theorem slotCount_le {name : List Byte} (h : name.length ≤ 255) : slotCount name ≤ 20 := by
  unfold slotCount
  omega

theorem Item.length_marks (it : Item) : it.marks.length = it.size := by
  cases it with
  | entry e => rfl
  | long e =>
    have hpos := slotCount_pos e.pos
    simp [marks, size]
    omega

/-- The first entry with a name is found in the first item that has it. -/
theorem find_marks (name : List Byte) (items : List Item) :
    (items.flatMap Item.marks).findSome? (Mark.check name) = findItem name items := by
  have hitem : ∀ it : Item, it.marks.findSome? (Mark.check name) =
      if name ∈ it.names then some it.dent else none := by
    intro it
    cases it with
    | entry e =>
      by_cases hname : name ∈ e.names <;>
        simp [Item.marks, Mark.check, Item.names, Item.dent, hname]
    | long e =>
      have hskip : (List.replicate (slotCount e.name - 1) (⟨[], e.dent⟩ : Mark)).findSome?
          (Mark.check name) = none := by
        rw [List.findSome?_eq_none_iff]
        intro mark hmark
        rw [List.eq_of_mem_replicate hmark]
        rfl
      rw [Item.marks, List.findSome?_cons, List.findSome?_append, hskip]
      by_cases hshort : name = getName e.dent
      · simp [Mark.check, Item.names, Item.dent, hshort]
      · by_cases hlong : name = finishName e.name <;>
          simp [Mark.check, Item.names, Item.dent, hshort, hlong]
  unfold findItem
  induction items with
  | nil => rfl
  | cons it items ih =>
    rw [List.flatMap_cons, List.findSome?_append, hitem, ih, List.find?_cons]
    by_cases hname : name ∈ it.names <;> simp [hname]

/-! ## Placement -/

section Placed

variable (per stride : ℕ) (root : Bool) (d : Mem)

/-- The entries from entry `j` on, as far as they lie in its window, do not count down as the
    slots of a long name do. -/
def Misread (j : ℕ) : Prop :=
  ∃ k, j % stride + k < per ∧ k < slotId d (32 * j) ∧
    slotId d (32 * (j + k)) ≠ slotId d (32 * j) - k

/-- An item at entry `j` is not misread: a long name lies in one window with its entry, and what
    passes for the last slot of a long name is not counted off as one. The loop over the root
    directory does not leave out deleted entries. -/
def Item.Readable (j : ℕ) : Item → Prop
  | entry e => e.dent.has attrVolume → e.hasMask →
      (root = false ∧ byteAt e.raw 0 = deletedFlag) ∨ Misread per stride d j
  | long e => j % stride + slotCount e.name < per

/-- The items lie one behind the other from entry `j` on and are not misread. Windows have `per`
    entries, of which the loop looks at `stride`. -/
def Placed : ℕ → List Item → Prop
  | _, [] => True
  | j, it :: items =>
    load d (32 * j) it.bytes.length = it.bytes ∧ it.Readable per stride root d j ∧
      Placed (j + it.size) items

/-- Entry `j` ends the directory. -/
def EndsAt (j : ℕ) : Prop :=
  d (32 * j) = 0 ∧ d (32 * j + 8) = 0 ∧ (dentAt d (32 * j)).has attrVolume = false

/-- How the loops read entry `j`. -/
inductive Reads (j : ℕ) : Mark → Prop
  | passed (dent : DirEntry) (hvolume : (dentAt d (32 * j)).has attrVolume = true)
      (hlast : slotIsLast d (32 * j) = false) : Reads j ⟨[], dent⟩
  | deleted (dent : DirEntry) (hdeleted : d (32 * j) = deletedFlag)
      (hmis : root = true → (dentAt d (32 * j)).has attrVolume = true → Misread per stride d j) :
      Reads j ⟨[], dent⟩
  | plain (hvolume : (dentAt d (32 * j)).has attrVolume = false) (hused : d (32 * j) ≠ 0)
      (hdeleted : d (32 * j) ≠ deletedFlag) :
      Reads j ⟨[getName (dentAt d (32 * j))], dentAt d (32 * j)⟩
  | loose (hvolume : (dentAt d (32 * j)).has attrVolume = true)
      (hlast : slotIsLast d (32 * j) = true) (hdeleted : d (32 * j) ≠ deletedFlag)
      (hmis : Misread per stride d j) :
      Reads j ⟨[getName (dentAt d (32 * j))], dentAt d (32 * j)⟩
  | long (n : ℕ) (name : List Byte) (hvolume : (dentAt d (32 * j)).has attrVolume = true)
      (hlast : slotIsLast d (32 * j) = true) (hdeleted : d (32 * j) ≠ deletedFlag)
      (hid : ∀ k < n, slotId d (32 * (j + k)) = n - k) (hin : j % stride + n < per)
      (hpos : 0 < n) (hlen : name.length ≤ 255)
      (hname : ∀ (m : Mem) (i : ℕ), (∀ o < 32 * n, m (32 * i + o) = d (32 * j + o)) →
        slotsBack m (i + n) [] = some name)
      (hused : d (32 * (j + n)) ≠ 0) :
      Reads j ⟨[getName (dentAt d (32 * (j + n))), finishName name], dentAt d (32 * (j + n))⟩

end Placed

/-! ## The slots of a long name -/

section Slots

variable {d m : Mem} {name : List Byte} {cksum : Byte} {i j n o p c : ℕ}

/-- `c` characters in the slots of a name, from character `p` on. -/
def nameChars (name : List Byte) (p c : ℕ) : List Byte := (List.range' p c).map (charLow name)

@[simp] theorem length_slotBytes : (slotBytes name cksum j).length = 32 := rfl

@[simp] theorem length_slots (e : LongEntry) (n : ℕ) : (slots e n).length = 32 * n := by
  induction n with
  | zero => rfl
  | succ n ih => simp [slots, ih]; omega

theorem getD_slotBytes (h : load d o 32 = slotBytes name cksum j) {k : ℕ} (hk : k < 32) :
    d (o + k) = byteAt (slotBytes name cksum j) k := by
  rw [← h, byteAt_load hk]

theorem slotChars_slotBytes (h : load d o 32 = slotBytes name cksum j) :
    slotChars d o = nameChars name (13 * j) 13 := by
  have hat : ∀ k < 32, d (o + k) = byteAt (slotBytes name cksum j) k :=
    fun k hk => getD_slotBytes h hk
  simp only [slotChars, List.map_cons, List.map_nil, hat _ (show 1 < 32 by decide),
    hat _ (show 3 < 32 by decide), hat _ (show 5 < 32 by decide), hat _ (show 7 < 32 by decide),
    hat _ (show 9 < 32 by decide), hat _ (show 14 < 32 by decide), hat _ (show 16 < 32 by decide),
    hat _ (show 18 < 32 by decide), hat _ (show 20 < 32 by decide), hat _ (show 22 < 32 by decide),
    hat _ (show 24 < 32 by decide), hat _ (show 28 < 32 by decide), hat _ (show 30 < 32 by decide)]
  rfl

/-- The name is what is in its slots up to the terminator. -/
theorem takeWhile_nameChars (hzero : 0 ∉ name) (hp : p ≤ name.length) :
    (nameChars name p c).takeWhile (· ≠ 0) = (name.drop p).take c := by
  induction c generalizing p with
  | zero => simp [nameChars]
  | succ c ih =>
    obtain hlt | rfl := Nat.lt_or_eq_of_le hp
    · have hne : charLow name p ≠ 0 := by
        rw [charLow, if_pos hlt, byteAt_of_lt hlt]
        exact fun h0 => hzero (h0 ▸ List.getElem_mem hlt)
      have hrest := ih (p := p + 1) hlt
      rw [nameChars, List.range'_succ, List.map_cons, List.takeWhile_cons_of_pos (by simpa using hne),
        List.drop_eq_getElem_cons hlt, List.take_succ_cons, ← hrest, charLow, if_pos hlt,
        byteAt_of_lt hlt]
      rfl
    · have hzero' : charLow name name.length = 0 := by simp [charLow]
      rw [nameChars, List.range'_succ, List.map_cons, hzero', List.drop_length]
      rfl

theorem zero_mem_nameChars (hzero : 0 ∉ name) :
    0 ∈ nameChars name p c ↔ p ≤ name.length ∧ name.length < p + c := by
  simp only [nameChars, List.mem_map, List.mem_range'_1]
  constructor
  · rintro ⟨k, hk, h0⟩
    by_cases hlt : k < name.length
    · rw [charLow, if_pos hlt, byteAt_of_lt hlt] at h0
      exact absurd (h0 ▸ List.getElem_mem hlt) hzero
    · by_cases heq : k = name.length
      · omega
      · rw [charLow, if_neg hlt, if_neg heq] at h0
        exact absurd h0 (by decide)
  · intro h
    exact ⟨name.length, h, by simp [charLow]⟩

/-- The slots of a name, read backwards from its entry, give the name. -/
theorem slotsBack_slots (hzero : 0 ∉ name) (hpos : 0 < name.length)
    (hchars : ∀ k < slotCount name,
      slotChars m (32 * (i + k)) = nameChars name (13 * (slotCount name - 1 - k)) 13)
    (hfirst : slotIsLast m (32 * i) = true)
    (hlast : ∀ k < slotCount name, 0 < k → slotIsLast m (32 * (i + k)) = false) :
    slotsBack m (i + slotCount name) [] = some name := by
  have hcount : 13 * (slotCount name - 1) < name.length ∧ name.length ≤ 13 * slotCount name := by
    unfold slotCount
    omega
  have hn := slotCount_pos hpos
  -- on the slots that are left
  have hleft : ∀ r < slotCount name,
      slotsBack m (i + (r + 1)) (name.take (13 * (slotCount name - 1 - r))) = some name := by
    intro r
    induction r with
    | zero =>
      intro _
      have hends : Ends m i := .inr hfirst
      have hslot := hchars 0 hn
      rw [Nat.add_zero, Nat.sub_zero] at hslot
      rw [show i + (0 + 1) = i + 1 from rfl, slotsBack_succ, if_pos hends, hslot,
        takeWhile_nameChars hzero (by omega), Nat.sub_zero, ← List.take_add,
        List.take_of_length_le (by omega)]
    | succ r ih =>
      intro hr
      have hchar := hchars (r + 1) hr
      have hmore : ¬ Ends m (i + (r + 1)) := by
        rintro (h0 | hmark)
        · rw [hchar, zero_mem_nameChars hzero] at h0
          omega
        · rw [hlast (r + 1) hr (Nat.succ_pos r)] at hmark
          cases hmark
      rw [show i + (r + 1 + 1) = i + (r + 1) + 1 from rfl, slotsBack_succ, if_neg hmore, hchar,
        takeWhile_nameChars hzero (by omega), ← List.take_add,
        show 13 * (slotCount name - 1 - (r + 1)) + 13 = 13 * (slotCount name - 1 - r) by omega]
      exact ih (by omega)
  have hall := hleft (slotCount name - 1) (by omega)
  rwa [Nat.sub_self, Nat.mul_zero, List.take_zero, Nat.sub_add_cancel hn] at hall

/-- The number of a slot, and whether it is the last one. -/
theorem id_slotBytes (h : load d o 32 = slotBytes name cksum j) (hj : j < slotCount name)
    (hlen : name.length ≤ 255) :
    slotId d o = j + 1 ∧ slotIsLast d o = decide (j + 1 = slotCount name) ∧
      d o ≠ 0 ∧ d o ≠ deletedFlag := by
  have hid : d o = UInt8.ofNat (if j + 1 = slotCount name then lastLongEntryMask + (j + 1)
      else j + 1) := getD_slotBytes h (k := 0) (by decide)
  have hbyte : ∀ x < 20, ∀ last : Bool, (fun b : Byte =>
      (if b.toNat &&& 64 ≠ 0 then b.toNat - 64 else b.toNat) = x + 1 ∧
        decide (b.toNat &&& 64 ≠ 0) = last ∧ b ≠ 0 ∧ b ≠ deletedFlag)
      (UInt8.ofNat (bif last then 64 + (x + 1) else x + 1)) := by
    beta_reduce
    decide
  have hcount := slotCount_le hlen
  have hthis := hbyte j (by omega) (decide (j + 1 = slotCount name))
  rwa [Bool.cond_decide, ← show d o = UInt8.ofNat (if j + 1 = slotCount name then 64 + (j + 1)
    else j + 1) from hid] at hthis

theorem volume_slotBytes (h : load d o 32 = slotBytes name cksum j) :
    (dentAt d o).has attrVolume = true := by
  have hattr : d (o + 11) = UInt8.ofNat attrVfat := getD_slotBytes h (k := 11) (by decide)
  simp [dentAt, DirEntry.has, hattr]
  decide

/-- The slots of a name, one behind the other. -/
theorem slots_at {e : LongEntry} (h : load d (32 * j) (32 * n) = slots e n) :
    ∀ k < n, load d (32 * (j + k)) 32 = slotBytes e.name e.cksum (n - 1 - k) := by
  induction n generalizing j with
  | zero => exact fun k hk => absurd hk (Nat.not_lt_zero k)
  | succ n ih =>
    rw [show 32 * (n + 1) = 32 + 32 * n by ring, load_append, slots] at h
    obtain ⟨hfirst, hrest⟩ := List.append_inj h (by simp)
    intro k hk
    obtain _ | k := k
    · exact hfirst
    · rw [show 32 * j + 32 = 32 * (j + 1) by ring] at hrest
      have hslot := ih hrest k (by omega)
      rwa [show j + 1 + k = j + (k + 1) by ring, show n - 1 - k = n + 1 - 1 - (k + 1) by omega]
        at hslot

end Slots

/-! ## Placed items -/

section Items

variable {per stride : ℕ} {root : Bool} {d m m' : Mem} {i j n o o' : ℕ} {items : List Item}

/-- An entry is its 32 bytes. -/
theorem dentAt_congr (h : ∀ k < 32, m (o + k) = m' (o' + k)) : dentAt m o = dentAt m' o' := by
  have hname : bytesAt m o 8 = bytesAt m' o' 8 := load_ext fun k hk => h k (by omega)
  have hext : bytesAt m (o + 8) 3 = bytesAt m' (o' + 8) 3 := by
    refine load_ext fun k hk => ?_
    rw [Nat.add_assoc, Nat.add_assoc]
    exact h _ (by omega)
  simp [dentAt, mem32, mem16, Nat.add_assoc, hname, hext, h]

theorem dentAt_load {raw : List Byte} (h : load d o 32 = raw) :
    dentAt d o = dentOf raw := by
  refine dentAt_congr fun k hk => ?_
  rw [Nat.zero_add, ← h, byteAt_load hk]

theorem slotChars_congr (h : ∀ k < 32, m (o + k) = m' (o' + k)) :
    slotChars m o = slotChars m' o' := by
  simp [slotChars, h]

theorem slotIsLast_congr (h : m o = m' o') : slotIsLast m o = slotIsLast m' o' := by
  simp [slotIsLast, h]

theorem slotId_congr (h : m o = m' o') : slotId m o = slotId m' o' := by
  simp [slotId, h]

theorem reads_entry {e : Entry} (h : load d (32 * j) 32 = e.raw)
    (hread : (Item.entry e).Readable per stride root d j) :
    Reads per stride root d j ⟨e.names, e.dent⟩ := by
  have hdent : dentAt d (32 * j) = e.dent := dentAt_load h
  have hbyte : d (32 * j) = byteAt e.raw 0 := by
    rw [← h, byteAt_load (by decide), Nat.add_zero]
  have hmask : slotIsLast d (32 * j) = e.hasMask := by
    rw [slotIsLast, hbyte]
    rfl
  have hused : d (32 * j) ≠ 0 := hbyte ▸ e.used
  by_cases hdel : byteAt e.raw 0 = deletedFlag
  · rw [Entry.names, if_pos (.inl hdel)]
    refine .deleted _ (hbyte.trans hdel) fun hroot hvolume => ?_
    rw [hdent] at hvolume
    have hset : e.hasMask = true := by
      rw [Entry.hasMask, hdel]
      rfl
    obtain ⟨hsub, -⟩ | hmis := hread hvolume hset
    · exact absurd (hroot.symm.trans hsub) (by decide)
    · exact hmis
  · cases hvolume : e.dent.has attrVolume with
    | false =>
      rw [Entry.names, if_neg (by simp [hdel, hvolume]), ← hdent]
      exact .plain (hdent.symm ▸ hvolume) hused (hbyte ▸ hdel)
    | true =>
      cases hset : e.hasMask with
      | false =>
        rw [Entry.names, if_pos (.inr (by simp [hvolume, hset]))]
        exact .passed _ (hdent.symm ▸ hvolume) (hmask.trans hset)
      | true =>
        obtain ⟨-, hdel'⟩ | hmis := hread hvolume hset
        · exact absurd hdel' hdel
        · rw [Entry.names, if_neg (by simp [hdel, hset]), ← hdent]
          exact .loose (hdent.symm ▸ hvolume) (hmask.trans hset) (hbyte ▸ hdel) hmis

/-- The entries of a long name, one behind the other. -/
theorem reads_long {e : LongEntry} (h : load d (32 * j) (32 * slotCount e.name + 32) =
      slots e (slotCount e.name) ++ e.raw) (hread : j % stride + slotCount e.name < per)
    {k : ℕ} {mark : Mark} (hmark : (Item.long e).marks[k]? = some mark) :
    Reads per stride root d (j + k) mark := by
  have hpos := slotCount_pos e.pos
  rw [load_append] at h
  obtain ⟨hslots, hraw⟩ := List.append_inj h (by simp)
  rw [show 32 * j + 32 * slotCount e.name = 32 * (j + slotCount e.name) by ring] at hraw
  have hslot := slots_at hslots
  have hdent : dentAt d (32 * (j + slotCount e.name)) = e.dent := dentAt_load hraw
  have hbyte : d (32 * (j + slotCount e.name)) = byteAt e.raw 0 := by
    rw [← hraw, byteAt_load (by decide), Nat.add_zero]
  have hid : ∀ k < slotCount e.name, slotId d (32 * (j + k)) = slotCount e.name - k ∧
      slotIsLast d (32 * (j + k)) = decide (k = 0) ∧ d (32 * (j + k)) ≠ deletedFlag := by
    intro k hk
    obtain ⟨hnum, hlast, -, hdel⟩ := id_slotBytes (hslot k hk) (by omega) e.le
    refine ⟨by omega, hlast.trans ?_, hdel⟩
    rw [decide_eq_decide]
    omega
  rw [Item.marks] at hmark
  obtain _ | k := k
  · obtain rfl := Option.some.inj hmark
    rw [← hdent, Nat.add_zero]
    obtain ⟨-, hlast, hdel⟩ := hid 0 hpos
    refine .long _ _ (volume_slotBytes (hslot 0 hpos)) hlast hdel (fun k hk => (hid k hk).1) hread
      hpos e.le (fun m i hm => ?_) (hbyte ▸ e.used)
    -- the same slots in a window
    have hwindow : ∀ k < slotCount e.name, ∀ r < 32,
        m (32 * (i + k) + r) = d (32 * (j + k) + r) := by
      intro k hk r hr
      have hat := hm (32 * k + r) (by omega)
      rwa [show 32 * i + (32 * k + r) = 32 * (i + k) + r by ring,
        show 32 * j + (32 * k + r) = 32 * (j + k) + r by ring] at hat
    have hmark : ∀ k < slotCount e.name, slotIsLast m (32 * (i + k)) = decide (k = 0) := by
      intro k hk
      have hfirst : m (32 * (i + k)) = d (32 * (j + k)) := hwindow k hk 0 (by decide)
      rw [slotIsLast_congr hfirst]
      exact (hid k hk).2.1
    refine slotsBack_slots e.chars e.pos (fun k hk => ?_) (hmark 0 hpos) fun k hk h0 => ?_
    · rw [slotChars_congr (hwindow k hk), slotChars_slotBytes (hslot k hk)]
    · rw [hmark k hk, decide_eq_false (by omega)]
  · rw [List.getElem?_cons_succ, List.getElem?_append, List.length_replicate] at hmark
    by_cases hk : k < slotCount e.name - 1
    · rw [if_pos hk, List.getElem?_replicate, if_pos hk] at hmark
      obtain rfl := Option.some.inj hmark
      have hlast := (hid (k + 1) (by omega)).2.1
      exact .passed _ (volume_slotBytes (hslot (k + 1) (by omega))) hlast
    · rw [if_neg hk, List.getElem?_singleton] at hmark
      split_ifs at hmark with hend
      obtain rfl := Option.some.inj hmark
      rw [show k + 1 = slotCount e.name by omega, ← hdent]
      refine .plain ?_ (hbyte ▸ e.used) (hbyte ▸ e.notDeleted)
      rw [hdent]
      exact e.notVolume

theorem Item.length_bytes (it : Item) : it.bytes.length = 32 * it.size := by
  cases it with
  | entry e => exact e.length
  | long e => simp [bytes, size, e.length]; ring

/-- Each entry of placed items is read as its mark says. -/
theorem Placed.reads (h : Placed per stride root d j items) {k : ℕ} {mark : Mark}
    (hmark : (items.flatMap Item.marks)[k]? = some mark) :
    Reads per stride root d (j + k) mark := by
  induction items generalizing j k with
  | nil => cases hmark
  | cons it items ih =>
    obtain ⟨hbytes, hread, hrest⟩ := h
    rw [List.flatMap_cons, List.getElem?_append, it.length_marks] at hmark
    by_cases hk : k < it.size
    · rw [if_pos hk] at hmark
      rw [it.length_bytes] at hbytes
      cases it with
      | entry e =>
        obtain rfl : k = 0 := Nat.lt_one_iff.mp hk
        obtain rfl := Option.some.inj hmark
        exact reads_entry hbytes hread
      | long e =>
        rw [show 32 * (Item.long e).size = 32 * slotCount e.name + 32 by simp [Item.size]; ring]
          at hbytes
        exact reads_long hbytes hread hmark
    · rw [if_neg hk] at hmark
      have hentry := ih hrest hmark
      rwa [show j + it.size + (k - it.size) = j + k by omega] at hentry

end Items

end SmartQ.UBoot.Fat
