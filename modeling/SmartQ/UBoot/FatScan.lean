import SmartQ.UBoot.FatDirectory
import SmartQ.UBoot.FatBuffers
import SmartQ.UBoot.FatGeometry

/-!
# Scanning a directory

The loops of `get_dentfromdir` and `do_fat_read` in `u-boot/fs/fat/fat.c` over the entries of a
cluster buffer, which may have been changed in front of the entry they look at.

* `dirEntryStep_reads`, `rootEntryStep_reads`: what the loops do with one entry of a directory.
* `dirEntries_reads`, `rootEntries_reads`: and with those in the buffer.
-/

namespace SmartQ.UBoot.Fat

open SmartQ.Lib

/-! ## One entry -/

section Step

variable {H : Type} {dev : BlockDev} {mydata : Fsdata} {d : Mem} {stride base i n c : ℕ}
  {name filename : List Byte} {b : Block} {w : Work} {s : St H} {mark : Mark} {root : Bool}

/-- From entry `i` on the cluster in a buffer has the bytes of the directory from entry `base`
    on. -/
structure Window (mydata : Fsdata) (d : Mem) (base i : ℕ) (b : Block) : Prop where
  size : mydata.clustBytes ≤ b.size
  same : ∀ o, 32 * i ≤ o → o < mydata.clustBytes → b.byte o = d (32 * base + o)

theorem Window.entry (h : Window mydata d base i b) {k : ℕ} (hk : i ≤ k)
    (hin : k < mydata.direntsPerClust) :
    ∀ r < 32, b.byte (32 * k + r) = d (32 * (base + k) + r) := by
  intro r hr
  have hbytes := clustBytes_eq mydata
  rw [h.same _ (by omega) (by omega)]
  congr 1
  ring

theorem Window.byte (h : Window mydata d base i b) {k : ℕ} (hk : i ≤ k)
    (hin : k < mydata.direntsPerClust) : b.byte (32 * k) = d (32 * (base + k)) :=
  h.entry hk hin 0 (by decide)

theorem Window.dent (h : Window mydata d base i b) {k : ℕ} (hk : i ≤ k)
    (hin : k < mydata.direntsPerClust) : dentAt b.byte (32 * k) = dentAt d (32 * (base + k)) :=
  dentAt_congr (h.entry hk hin)

theorem Window.next (h : Window mydata d base i b) : Window mydata d base (i + 1) b :=
  ⟨h.size, fun o ho => h.same o (by omega)⟩

/-- A long name in the window. -/
theorem getVfatname_long (dev : BlockDev) (c : ℕ) (hb : s.block w = some b)
    (hid : ∀ k < n, slotId b.byte (32 * (i + k)) = n - k) (hpos : 0 < n)
    (hin : i + n < mydata.direntsPerClust) (hback : slotsBack b.byte (i + n) [] = some name)
    (hlen : name.length ≤ 255) :
    getVfatname dev mydata c w (32 * i) s = some (.ok (finishName name), { s with
      block := Function.update s.block w
        (some { b with byte := memcpy b.byte (32 * i) b.byte (32 * (i + n)) 32 }) }) := by
  have hmin : min n (mydata.direntsPerClust - i) = n := by omega
  have hrun : slotRun b.byte mydata.clustBytes (slotId b.byte (32 * i)) (32 * i) =
      some (32 * (i + n)) := by
    have hfirst := hid 0 hpos
    rw [Nat.add_zero, Nat.sub_zero] at hfirst
    have hcount := (slotRun_eq (m := b.byte) n i mydata.direntsPerClust (by omega)).1
    rw [hmin] at hcount
    rw [hfirst, clustBytes_eq]
    exact hcount hid
  have hbytes := clustBytes_eq mydata
  have hslot : 32 * (i + n) / 32 = i + n := by omega
  rw [getVfatname, Prog.bind_ok (contents_of_block hb)]
  simp only [hrun]
  rw [if_pos (by omega), hslot, vfatnameEnd, Prog.bind_ok (contents_of_block hb)]
  simp only [hback]
  rw [Prog.exitIf_of_not (by omega)]
  rfl

/-- What only passes for one. -/
theorem getVfatname_misread (dev : BlockDev) (c : ℕ) (hb : s.block w = some b)
    (hmis : ∃ k, i + k < mydata.direntsPerClust ∧ k < slotId b.byte (32 * i) ∧
      slotId b.byte (32 * (i + k)) ≠ slotId b.byte (32 * i) - k) :
    getVfatname dev mydata c w (32 * i) s = some (.ok [], s) := by
  obtain ⟨k, hin, hk, hne⟩ := hmis
  have hrun : slotRun b.byte mydata.clustBytes (slotId b.byte (32 * i)) (32 * i) = none := by
    rw [clustBytes_eq]
    refine (slotRun_eq _ i mydata.direntsPerClust (by omega)).2 fun hall => ?_
    exact hne (hall k (by omega))
  rw [getVfatname, Prog.bind_ok (contents_of_block hb)]
  simp only [hrun]
  rfl

/-- What `get_vfatname` makes of a long name in the window: its entry stands in for the first slot,
    and what follows is as before. -/
theorem Window.long (hwin : Window mydata d base i b) (dev : BlockDev) (c : ℕ)
    (hb : s.block w = some b) (hid : ∀ k < n, slotId d (32 * (base + i + k)) = n - k)
    (hpos : 0 < n) (hin : i + n < mydata.direntsPerClust) (hlen : name.length ≤ 255)
    (hname : ∀ (m : Mem) (i' : ℕ), (∀ o < 32 * n, m (32 * i' + o) = d (32 * (base + i) + o)) →
      slotsBack m (i' + n) [] = some name) :
    ∃ b', getVfatname dev mydata c w (32 * i) s = some (.ok (finishName name),
        { s with block := Function.update s.block w (some b') }) ∧
      dentAt b'.byte (32 * i) = dentAt d (32 * (base + i + n)) ∧
      Window mydata d base (i + 1) b' := by
  have hbytes := clustBytes_eq mydata
  have hback : slotsBack b.byte (i + n) [] = some name := by
    refine hname b.byte i fun o ho => ?_
    rw [hwin.same _ (by omega) (by omega)]
    congr 1
    ring
  have hcount : ∀ k < n, slotId b.byte (32 * (i + k)) = n - k := by
    intro k hk
    rw [slotId_congr (hwin.byte (by omega) (by omega)), ← Nat.add_assoc]
    exact hid k hk
  refine ⟨_, getVfatname_long dev c hb hcount hpos hin hback hlen, ?_, hwin.size, fun o ho hend => ?_⟩
  · rw [Nat.add_assoc, ← hwin.dent (by omega) hin]
    refine dentAt_congr fun k hk => ?_
    show memcpy _ _ _ _ _ (32 * i + k) = _
    rw [memcpy, if_pos (by omega), Nat.add_sub_cancel_left]
  · show memcpy _ _ _ _ _ o = _
    rw [memcpy, if_neg (by omega)]
    exact hwin.same o (by omega) hend

theorem Window.misread (hwin : Window mydata d base i b) (dev : BlockDev) (c : ℕ)
    (hb : s.block w = some b) (hmod : (base + i) % stride = i)
    (hmis : Misread mydata.direntsPerClust stride d (base + i)) :
    getVfatname dev mydata c w (32 * i) s = some (.ok [], s) := by
  obtain ⟨k, hin, hk, hne⟩ := hmis
  rw [hmod] at hin
  have hfirst := slotId_congr (hwin.byte le_rfl (by omega))
  refine getVfatname_misread dev c hb ⟨k, hin, hfirst ▸ hk, ?_⟩
  rwa [hfirst, slotId_congr (hwin.byte (by omega) hin), ← Nat.add_assoc]

theorem name0_dentAt (m : Mem) (o : ℕ) : (dentAt m o).name0 = m o := rfl

theorem DirEntry.vfat_of_volume {dent : DirEntry} (h : dent.has attrVolume = true) :
    dent.has attrVfat = true := by
  unfold has attrVolume attrVfat at *
  rw [decide_eq_true_eq] at *
  intro hzero
  refine h ?_
  rw [show 8 = 15 &&& 8 from rfl, ← Nat.and_assoc, hzero, Nat.zero_and]

/-- A deleted entry has no name. -/
theorem getName_deleted {m : Mem} {o : ℕ} (h : m o = deletedFlag) : getName (dentAt m o) = [] := by
  have hname : (dentAt m o).name = deletedFlag :: bytesAt m (o + 1) 7 := by
    rw [← h]
    simp [dentAt, bytesAt, List.range_succ, Nat.add_assoc]
  have hfield : field (deletedFlag :: bytesAt m (o + 1) 7) =
      deletedFlag :: field (bytesAt m (o + 1) 7) := rfl
  rw [getName, hname, hfield]
  split_ifs <;> rfl

theorem matchName_iff {dent : DirEntry} {lName : List Byte} :
    matchName filename dent lName = true ↔ filename ∈ [getName dent, lName] := by
  simp [matchName]

/-- What a loop does with an entry that has the name, or with one that has not. -/
def Scan.Agrees (isdir : Bool) (r : Scan) : Option DirEntry → Prop
  | some dent => r = if isdir ∧ ¬ dent.has attrDir then .wrongType else .found dent
  | none => ∃ t, r = .next t

/-- The end of the loop body of `get_dentfromdir`. -/
theorem dirEntryEnd_agrees {dent : DirEntry} {lName : List Byte} {names : List (List Byte)}
    (hused : dent.name0 ≠ 0) (hnames : filename ∈ [getName dent, lName] ↔ filename ∈ names)
    (t : Tally) (s : St H) :
    ∃ r, dirEntryEnd filename false dent lName t s = some (.ok r, s) ∧
      r.Agrees false (Mark.check filename ⟨names, dent⟩) := by
  rw [dirEntryEnd, if_neg (fun h => hused h.1), if_neg (by decide), Mark.check]
  by_cases hmatch : filename ∈ names
  · rw [if_pos (matchName_iff.mpr (hnames.mpr hmatch)), if_pos hmatch]
    exact ⟨_, rfl, rfl⟩
  · rw [if_neg (fun h => hmatch (hnames.mp (matchName_iff.mp h))), if_neg hmatch]
    exact ⟨_, rfl, t, rfl⟩

theorem rootEntryEnd_agrees {dent : DirEntry} {lName : List Byte} {names : List (List Byte)}
    (hnames : filename ∈ [getName dent, lName] ↔ filename ∈ names) (isdir : Bool) (t : Tally) :
    (rootEntryEnd filename isdir dent lName t).Agrees isdir (Mark.check filename ⟨names, dent⟩) := by
  rw [rootEntryEnd, Mark.check]
  by_cases hmatch : filename ∈ names
  · rw [if_pos (matchName_iff.mpr (hnames.mpr hmatch)), if_pos hmatch]
    rfl
  · rw [if_neg (fun h => hmatch (hnames.mp (matchName_iff.mp h))), if_neg hmatch]
    exact ⟨t, rfl⟩

/-- Without a long name the names compared are the short one and the empty one. -/
theorem mem_getName_nil (hname : filename ≠ []) {dent : DirEntry} :
    filename ∈ [getName dent, []] ↔ filename ∈ [getName dent] := by
  simp [hname]

/-- One entry of the loop of `get_dentfromdir`. -/
theorem dirEntryStep_reads (hwin : Window mydata d base i b)
    (hb : s.block .getDentfromdir = some b) (hi : i < mydata.direntsPerClust)
    (hmod : (base + i) % stride = i)
    (hentry : Reads mydata.direntsPerClust stride false d (base + i) mark) (hname : filename ≠ [])
    (dev : BlockDev) (c : ℕ) (t : Tally) :
    ∃ r s' b', dirEntryStep dev mydata c filename false i t s = some (.ok r, s') ∧
      r.Agrees false (mark.check filename) ∧ s'.block .getDentfromdir = some b' ∧
      Window mydata d base (i + 1) b' := by
  have hbytes := clustBytes_eq mydata
  have hsize := hwin.size
  have hdent := hwin.dent le_rfl hi
  have hlast := slotIsLast_congr (hwin.byte le_rfl hi)
  rw [dirEntryStep, Prog.bind_ok (contents_of_block hb), Prog.exitIf_of_not (by omega)]
  simp only [hdent, hlast, name0_dentAt]
  cases hentry with
  | passed dent hvolume hlast' =>
    by_cases hdel : d (32 * (base + i)) = deletedFlag
    · rw [if_pos hdel]
      exact ⟨_, s, b, rfl, ⟨t, rfl⟩, hb, hwin.next⟩
    · rw [if_neg hdel, if_pos hvolume, if_neg (by simp [hlast'])]
      exact ⟨_, s, b, rfl, ⟨t, rfl⟩, hb, hwin.next⟩
  | deleted dent hdel hmis =>
    rw [if_pos hdel]
    exact ⟨_, s, b, rfl, ⟨t, rfl⟩, hb, hwin.next⟩
  | plain hvolume hused hdel =>
    rw [if_neg hdel, if_neg (by simp [hvolume])]
    have hused' : (dentAt d (32 * (base + i))).name0 ≠ 0 := hused
    obtain ⟨r, hrun, hr⟩ := dirEntryEnd_agrees hused' (mem_getName_nil hname) t s
    exact ⟨r, s, b, hrun, hr, hb, hwin.next⟩
  | loose hvolume hlast' hdel hmis =>
    have hused : (dentAt d (32 * (base + i))).name0 ≠ 0 := by
      intro h0
      rw [name0_dentAt] at h0
      simp [slotIsLast, h0] at hlast'
    obtain ⟨r, hrun, hr⟩ := dirEntryEnd_agrees hused (mem_getName_nil hname)
      { t with prevcksum := (b.byte (32 * i + 13)).toNat } s
    refine ⟨r, s, b, ?_, hr, hb, hwin.next⟩
    rw [if_neg hdel, if_pos hvolume, if_pos ⟨DirEntry.vfat_of_volume hvolume, hlast'⟩,
      Prog.bind_ok (hwin.misread dev c hb hmod hmis), Prog.bind_ok (contents_of_block hb), hdent,
      if_neg (by decide)]
    exact hrun
  | long n name hvolume hlast' hdel hid hin hpos hlen hslots hused =>
    rw [hmod] at hin
    obtain ⟨b', hrun, hdent', hwin'⟩ := hwin.long dev c hb hid hpos hin hlen hslots
    have hb' : ({ s with block := Function.update s.block .getDentfromdir (some b') } :
        St H).block .getDentfromdir = some b' := Function.update_self Work.getDentfromdir _ s.block
    have hused' : (dentAt d (32 * (base + i + n))).name0 ≠ 0 := hused
    have hnames : filename ∈ [getName (dentAt d (32 * (base + i + n))), finishName name] ↔
        filename ∈ [getName (dentAt d (32 * (base + i + n))), finishName name] := Iff.rfl
    obtain ⟨r, hend, hr⟩ := dirEntryEnd_agrees hused' hnames
      { t with prevcksum := (b.byte (32 * i + 13)).toNat }
      { s with block := Function.update s.block .getDentfromdir (some b') }
    refine ⟨r, _, b', ?_, hr, hb', hwin'⟩
    rw [if_neg hdel, if_pos hvolume, if_pos ⟨DirEntry.vfat_of_volume hvolume, hlast'⟩,
      Prog.bind_ok hrun, Prog.bind_ok (contents_of_block hb'), hdent', if_neg (by decide)]
    exact hend

/-- One entry of the loop of `do_fat_read`. -/
theorem rootEntryStep_reads (hwin : Window mydata d base i b) (hb : s.block .doFatRead = some b)
    (hi : i < mydata.direntsPerClust) (hmod : (base + i) % stride = i)
    (hentry : Reads mydata.direntsPerClust stride true d (base + i) mark) (hname : filename ≠ [])
    (dev : BlockDev) (isdir : Bool) (t : Tally) :
    ∃ r s' b', rootEntryStep dev mydata filename isdir false i t s = some (.ok r, s') ∧
      r.Agrees isdir (mark.check filename) ∧ s'.block .doFatRead = some b' ∧
      Window mydata d base (i + 1) b' := by
  have hbytes := clustBytes_eq mydata
  have hsize := hwin.size
  have hdent := hwin.dent le_rfl hi
  have hlast := slotIsLast_congr (hwin.byte le_rfl hi)
  rw [rootEntryStep, Prog.bind_ok (contents_of_block hb), Prog.exitIf_of_not (by omega)]
  simp only [hdent, hlast, name0_dentAt]
  -- an entry that is compared under its short name, be it a volume that is misread or none
  have hshort : ∀ names : List (List Byte),
      (filename ∈ [getName (dentAt d (32 * (base + i))), []] ↔ filename ∈ names) → ∀ t : Tally,
      (rootEntryEnd filename isdir (dentAt d (32 * (base + i))) [] t).Agrees isdir
        (Mark.check filename ⟨names, dentAt d (32 * (base + i))⟩) :=
    fun names hnames t => rootEntryEnd_agrees hnames isdir t
  cases hentry with
  | passed dent hvolume hlast' =>
    rw [if_pos hvolume, if_neg (by simp [hlast'])]
    exact ⟨_, s, b, rfl, ⟨t, rfl⟩, hb, hwin.next⟩
  | deleted dent hdel hmis =>
    have hnone : filename ∉ [getName (dentAt d (32 * (base + i))), []] := by
      simp [getName_deleted hdel, hname]
    have hnext : ∀ t, (rootEntryEnd filename isdir (dentAt d (32 * (base + i))) [] t).Agrees isdir
        (Mark.check filename ⟨[], dent⟩) := by
      intro t
      rw [rootEntryEnd, if_neg (fun h => hnone (matchName_iff.mp h))]
      exact ⟨t, rfl⟩
    have hlast' : slotIsLast d (32 * (base + i)) = true := by simp [slotIsLast, hdel]; decide
    cases hvolume : (dentAt d (32 * (base + i))).has attrVolume with
    | true =>
      rw [if_pos rfl, if_pos ⟨DirEntry.vfat_of_volume hvolume, hlast'⟩,
        Prog.bind_ok (hwin.misread dev 0 hb hmod (hmis rfl hvolume)),
        Prog.bind_ok (contents_of_block hb), hdent, if_neg (by decide)]
      exact ⟨_, s, b, rfl, hnext _, hb, hwin.next⟩
    | false =>
      rw [if_neg (by decide), if_neg (by rw [hdel]; decide), if_neg (by decide)]
      exact ⟨_, s, b, rfl, hnext _, hb, hwin.next⟩
  | plain hvolume hused hdel =>
    rw [if_neg (by simp [hvolume]), if_neg hused, if_neg (by decide)]
    exact ⟨_, s, b, rfl, hshort _ (mem_getName_nil hname) t, hb, hwin.next⟩
  | loose hvolume hlast' hdel hmis =>
    rw [if_pos hvolume, if_pos ⟨DirEntry.vfat_of_volume hvolume, hlast'⟩,
      Prog.bind_ok (hwin.misread dev 0 hb hmod hmis), Prog.bind_ok (contents_of_block hb), hdent,
      if_neg (by decide)]
    exact ⟨_, s, b, rfl, hshort _ (mem_getName_nil hname) _, hb, hwin.next⟩
  | long n name hvolume hlast' hdel hid hin hpos hlen hslots hused =>
    rw [hmod] at hin
    obtain ⟨b', hrun, hdent', hwin'⟩ := hwin.long dev 0 hb hid hpos hin hlen hslots
    have hb' : ({ s with block := Function.update s.block .doFatRead (some b') } :
        St H).block .doFatRead = some b' := Function.update_self Work.doFatRead _ s.block
    rw [if_pos hvolume, if_pos ⟨DirEntry.vfat_of_volume hvolume, hlast'⟩, Prog.bind_ok hrun,
      Prog.bind_ok (contents_of_block hb'), hdent', if_neg (by decide)]
    exact ⟨_, _, b', rfl, rootEntryEnd_agrees Iff.rfl isdir _, hb', hwin'⟩

/-- The end of the directory. -/
theorem dirEntryStep_end (hwin : Window mydata d base i b) (hb : s.block .getDentfromdir = some b)
    (hi : i < mydata.direntsPerClust) (hend : EndsAt d (base + i)) (dev : BlockDev) (c : ℕ)
    (filename : List Byte) (t : Tally) :
    dirEntryStep dev mydata c filename false i t s = some (.ok .empty, s) := by
  have hbytes := clustBytes_eq mydata
  have hsize := hwin.size
  obtain ⟨hname0, hext, hvolume⟩ := hend
  rw [dirEntryStep, Prog.bind_ok (contents_of_block hb), Prog.exitIf_of_not (by omega)]
  simp only [hwin.dent le_rfl hi, name0_dentAt]
  rw [if_neg (by rw [hname0]; decide), if_neg (by simp [hvolume]), dirEntryEnd,
    if_pos ⟨hname0, hext⟩]
  rfl

theorem rootEntryStep_end (hwin : Window mydata d base i b) (hb : s.block .doFatRead = some b)
    (hi : i < mydata.direntsPerClust) (hend : EndsAt d (base + i)) (dev : BlockDev)
    (filename : List Byte) (isdir : Bool) (t : Tally) :
    rootEntryStep dev mydata filename isdir false i t s = some (.ok .empty, s) := by
  have hbytes := clustBytes_eq mydata
  have hsize := hwin.size
  obtain ⟨hname0, -, hvolume⟩ := hend
  rw [rootEntryStep, Prog.bind_ok (contents_of_block hb), Prog.exitIf_of_not (by omega)]
  simp only [hwin.dent le_rfl hi, name0_dentAt]
  rw [if_neg (by simp [hvolume]), if_pos hname0]
  rfl

end Step

/-! ## A window -/

section Entries

variable {H : Type} {mydata : Fsdata} {d : Mem} {stride base : ℕ} {filename : List Byte}
  {root : Bool}

/-- From entry `j` on a directory of `last` entries reads as `marks`, and there it ends. -/
structure ReadsAs (mydata : Fsdata) (stride : ℕ) (root : Bool) (d : Mem) (last j : ℕ)
    (marks : List Mark) : Prop where
  entries : ∀ k mark, marks[k]? = some mark →
    Reads mydata.direntsPerClust stride root d (j + k) mark
  ends : j + marks.length < last → EndsAt d (j + marks.length)

theorem ReadsAs.tail {last j : ℕ} {mark : Mark} {marks : List Mark}
    (h : ReadsAs mydata stride root d last j (mark :: marks)) :
    ReadsAs mydata stride root d last (j + 1) marks where
  entries k mark' hmark := by
    rw [Nat.add_assoc, Nat.add_comm 1 k]
    exact h.entries (k + 1) mark' hmark
  ends := by
    rw [Nat.add_assoc, Nat.add_comm 1]
    exact h.ends

/-- How a loop over `n` entries of the marks ends: at the first entry that has the name, at the
    end of the directory, or behind the last of the entries. -/
def Scan.Ends (isdir : Bool) (filename : List Byte) (marks : List Mark) (n : ℕ) (r : Scan) :
    Prop :=
  match (marks.take n).findSome? (Mark.check filename) with
  | some dent => r = if isdir ∧ ¬ dent.has attrDir then .wrongType else .found dent
  | none => if marks.length < n then r = .empty else ∃ t, r = .next t

theorem Scan.ends_cons {isdir : Bool} {mark : Mark} {marks : List Mark} {n : ℕ} {r : Scan}
    (hnone : mark.check filename = none) :
    Scan.Ends isdir filename (mark :: marks) (n + 1) r ↔ Scan.Ends isdir filename marks n r := by
  simp [Scan.Ends, hnone]

theorem Scan.ends_found {isdir : Bool} {mark : Mark} {marks : List Mark} {n : ℕ} {r : Scan}
    {dent : DirEntry} (hsome : mark.check filename = some dent) :
    Scan.Ends isdir filename (mark :: marks) (n + 1) r ↔
      r = if isdir ∧ ¬ dent.has attrDir then .wrongType else .found dent := by
  simp [Scan.Ends, hsome]

/-- The loop of `get_dentfromdir` over the entries that are left in a window. -/
theorem dirEntries_reads (hname : filename ≠ []) (hbase : base % stride = 0)
    (hstride : stride ≤ mydata.direntsPerClust) (dev : BlockDev) (c last n : ℕ) :
    ∀ (i : ℕ) (marks : List Mark) (b : Block) (s : St H) (t : Tally),
      Window mydata d base i b → s.block .getDentfromdir = some b → i + n ≤ stride →
      base + i + n ≤ last → ReadsAs mydata stride false d last (base + i) marks →
      ∃ r s', dirEntries dev mydata c filename false n i t s = some (.ok r, s') ∧
        r.Ends false filename marks n := by
  induction n with
  | zero =>
    intro i marks b s t _ _ _ _ _
    exact ⟨_, s, rfl, by simp [Scan.Ends]⟩
  | succ n ih =>
    intro i marks b s t hwin hb hin hlast hreads
    rw [dirEntries]
    cases marks with
    | nil =>
      have hend : base + i + ([] : List Mark).length < last := by
        rw [List.length_nil]
        omega
      rw [Prog.bind_ok (dirEntryStep_end hwin hb (by omega) (hreads.ends hend) dev c filename t)]
      exact ⟨_, s, rfl, by simp [Scan.Ends]⟩
    | cons mark marks =>
      have hmod : (base + i) % stride = i := by
        rw [Nat.add_mod, hbase, Nat.zero_add, Nat.mod_mod, Nat.mod_eq_of_lt (by omega)]
      obtain ⟨r, s1, b1, hstep, hr, hb1, hwin1⟩ := dirEntryStep_reads hwin hb (by omega) hmod
        (hreads.entries 0 mark rfl) hname dev c t
      rw [Prog.bind_ok hstep]
      cases hcheck : mark.check filename with
      | some dent =>
        rw [hcheck] at hr
        rw [Scan.Agrees, if_neg (by simp)] at hr
        obtain rfl := hr
        exact ⟨_, s1, rfl, (Scan.ends_found hcheck).mpr (by simp)⟩
      | none =>
        rw [hcheck] at hr
        obtain ⟨t1, rfl⟩ := hr
        obtain ⟨r, s2, hrun, hends⟩ := ih (i + 1) marks b1 s1 t1 hwin1 hb1 (by omega) (by omega)
          hreads.tail
        exact ⟨r, s2, hrun, (Scan.ends_cons hcheck).mpr hends⟩

/-- And the one of `do_fat_read`. -/
theorem rootEntries_reads (hname : filename ≠ []) (hbase : base % stride = 0)
    (hstride : stride ≤ mydata.direntsPerClust) (dev : BlockDev) (isdir : Bool) (last n : ℕ) :
    ∀ (i : ℕ) (marks : List Mark) (b : Block) (s : St H) (t : Tally),
      Window mydata d base i b → s.block .doFatRead = some b → i + n ≤ stride →
      base + i + n ≤ last → ReadsAs mydata stride true d last (base + i) marks →
      ∃ r s', rootEntries dev mydata filename isdir false n i t s = some (.ok r, s') ∧
        r.Ends isdir filename marks n := by
  induction n with
  | zero =>
    intro i marks b s t _ _ _ _ _
    exact ⟨_, s, rfl, by simp [Scan.Ends]⟩
  | succ n ih =>
    intro i marks b s t hwin hb hin hlast hreads
    rw [rootEntries]
    cases marks with
    | nil =>
      have hend : base + i + ([] : List Mark).length < last := by
        rw [List.length_nil]
        omega
      rw [Prog.bind_ok (rootEntryStep_end hwin hb (by omega) (hreads.ends hend) dev filename isdir t)]
      exact ⟨_, s, rfl, by simp [Scan.Ends]⟩
    | cons mark marks =>
      have hmod : (base + i) % stride = i := by
        rw [Nat.add_mod, hbase, Nat.zero_add, Nat.mod_mod, Nat.mod_eq_of_lt (by omega)]
      obtain ⟨r, s1, b1, hstep, hr, hb1, hwin1⟩ := rootEntryStep_reads hwin hb (by omega) hmod
        (hreads.entries 0 mark rfl) hname dev isdir t
      rw [Prog.bind_ok hstep]
      cases hcheck : mark.check filename with
      | some dent =>
        rw [hcheck] at hr
        have hends : r.Ends isdir filename (mark :: marks) (n + 1) :=
          (Scan.ends_found hcheck).mpr hr
        refine ⟨r, s1, ?_, hends⟩
        obtain rfl := hr
        split_ifs <;> rfl
      | none =>
        rw [hcheck] at hr
        obtain ⟨t1, rfl⟩ := hr
        obtain ⟨r, s2, hrun, hends⟩ := ih (i + 1) marks b1 s1 t1 hwin1 hb1 (by omega) (by omega)
          hreads.tail
        exact ⟨r, s2, hrun, (Scan.ends_cons hcheck).mpr hends⟩

theorem ReadsAs.drop {last j n : ℕ} {marks : List Mark}
    (h : ReadsAs mydata stride root d last j marks) (hn : n ≤ marks.length) :
    ReadsAs mydata stride root d last (j + n) (marks.drop n) where
  entries k mark hmark := by
    rw [List.getElem?_drop] at hmark
    rw [Nat.add_assoc]
    exact h.entries _ mark hmark
  ends := by
    rw [List.length_drop, show j + n + (marks.length - n) = j + marks.length by omega]
    exact h.ends

/-- What is not found in the first entries is found behind them. -/
theorem findSome?_take_drop {marks : List Mark} {n : ℕ}
    (hnone : (marks.take n).findSome? (Mark.check filename) = none) :
    marks.findSome? (Mark.check filename) = (marks.drop n).findSome? (Mark.check filename) := by
  conv_lhs => rw [← List.take_append_drop n marks, List.findSome?_append, hnone]
  rfl

theorem findSome?_take_of_some {marks : List Mark} {n : ℕ} {dent : DirEntry}
    (hsome : (marks.take n).findSome? (Mark.check filename) = some dent) :
    marks.findSome? (Mark.check filename) = some dent := by
  conv_lhs => rw [← List.take_append_drop n marks, List.findSome?_append, hsome]
  rfl

end Entries

/-! ## The state between the steps -/

section State

variable {H : Type} {dev : BlockDev} {mydata : Fsdata} {disk : Disk} {R R' : St H → St H → Prop}

theorem Frame.and (h : Frame dev mydata R) (h' : Frame dev mydata R') :
    Frame dev mydata fun s s' => R s s' ∧ R' s s' where
  refl s := ⟨h.refl s, h'.refl s⟩
  trans _ _ _ h1 h2 := ⟨h.trans _ _ _ h1.1 h2.1, h'.trans _ _ _ h1.2 h2.2⟩
  block s w b hb byte := ⟨h.block s w b hb byte, h'.block s w b hb byte⟩
  out s out := ⟨h.out s out, h'.out s out⟩
  fatent entry s r s' hrun := ⟨h.fatent entry s r s' hrun, h'.fatent entry s r s' hrun⟩
  work w start s r s' hrun := ⟨h.work w start s r s' hrun, h'.work w start s r s' hrun⟩

/-- Every cluster buffer has room for a cluster. -/
def Sized (mydata : Fsdata) (s : St H) : Prop :=
  ∀ w, ∃ b, s.block w = some b ∧ mydata.clustBytes ≤ b.size

theorem sized_of_held {s s' : St H} (h : ∀ w, held s' w = held s w) (hs : Sized mydata s) :
    Sized mydata s' := by
  intro w
  obtain ⟨b, hb, hsize⟩ := hs w
  have hheld : (s'.block w).map Block.size = some b.size := by
    rw [← held, h w, held, hb]
    rfl
  obtain ⟨b', hb', heq⟩ := Option.map_eq_some_iff.mp hheld
  exact ⟨b', hb', by omega⟩

/-- A lookup leaves the buffer of the caller alone. -/
theorem buffer_frame (dev : BlockDev) (mydata : Fsdata) :
    Frame dev mydata fun s s' : St H => s'.buffer = s.buffer where
  refl _ := rfl
  trans _ _ _ h h' := h'.trans h
  block _ _ _ _ _ := rfl
  out _ _ := rfl
  fatent c := by
    intro s r s' hrun
    unfold getFatent at hrun
    split_ifs at hrun
    · cases hrun
      rfl
    · have hload : ∀ s1 r1, loadFat dev mydata (c / fatBufSize mydata.fatsize) s =
          some (r1, s1) → s1.buffer = s.buffer := by
        intro s1 r1 hrun
        rw [loadFat, Prog.get_bind] at hrun
        split_ifs at hrun
        · cases hrun
          rfl
        · obtain ⟨⟨ret, mem⟩, hread⟩ := diskRead_returns dev
            (c / fatBufSize mydata.fatsize * 6 + mydata.fatSect) (min 6 (mydata.fatlength * 512))
            s.fatbuf s
          rw [Prog.bind_ok hread] at hrun
          simp only [Prog.modify_bind] at hrun
          split_ifs at hrun
          · cases hrun
            rfl
          · cases hrun
            rfl
      rcases Prog.bind_eq_some.mp hrun with ⟨e, he, -⟩ | ⟨ok, s1, hok, hrest⟩
      · exact hload _ _ he
      · cases hrest
        exact hload _ _ hok
  work w start := by
    intro s r s' hrun
    rw [workRead, Prog.get_bind, Prog.modify_bind] at hrun
    cases hb : s.block w with
    | none =>
      rw [hb] at hrun
      cases hrun
      rfl
    | some b =>
      rw [hb] at hrun
      rcases Prog.exitIf_bind hrun with ⟨-, -, rfl⟩ | ⟨-, hrun⟩
      · rfl
      · obtain ⟨⟨ret, mem⟩, s1, hread, hrest⟩ := Prog.step_bind hrun
        cases hread
        cases hrest
        rfl

/-- What holds of the state from step to step of a lookup. -/
structure Serves (dev : BlockDev) (mydata : Fsdata) (disk : Disk) (s : St H) : Prop where
  sized : Sized mydata s
  coherent : Coherent dev mydata disk s

theorem serves_frame (hdev : dev.Works disk) (hgeo : Geometry dev mydata) :
    Frame dev mydata fun s s' : St H => (Body mydata.clustBytes s s' ∧
      (Coherent dev mydata disk s → Coherent dev mydata disk s')) ∧ s'.buffer = s.buffer :=
  ((body_frame dev mydata).and (coherent_frame hdev hgeo)).and (buffer_frame dev mydata)

/-- A part of a lookup keeps it, and the buffer of the caller. -/
theorem Serves.steps {s s' : St H} (hs : Serves dev mydata disk s)
    (h : (Body mydata.clustBytes s s' ∧
      (Coherent dev mydata disk s → Coherent dev mydata disk s')) ∧ s'.buffer = s.buffer) :
    Serves dev mydata disk s' :=
  ⟨sized_of_held h.1.1.held hs.sized, h.1.2 hs.coherent⟩

/-- A read into a cluster buffer. -/
theorem workRead_works (hdev : dev.Works disk) {w : Work} {start count : ℕ} {b : Block} {s : St H}
    (hb : s.block w = some b) (hcount : 0 < count) (hsize : 512 * count ≤ b.size)
    (hstart : start + dev.partOffset < 2 ^ 32) :
    ∃ ret s' b', workRead dev w start count s = some (.ok ret, s') ∧ 0 ≤ ret ∧
      s'.block w = some b' ∧ b'.size = b.size ∧
      ∀ i < 512 * count, b'.byte i = disk (512 * (start + dev.partOffset) + i) := by
  obtain ⟨ret, mem, hread, hret, hbytes, -⟩ := diskRead_works hdev hstart count b.byte
    { s with uses := s.uses ++ [⟨w, (s.block w).map Block.size, 512 * count⟩] }
  have hstored := transferred_of_pos hcount
  rw [hstored] at hbytes
  refine ⟨ret, { s with
      uses := s.uses ++ [⟨w, (s.block w).map Block.size, 512 * count⟩]
      clock := s.clock + 1
      block := Function.update s.block w (some { b with byte := mem }) },
    { b with byte := mem }, ?_, hret, Function.update_self w _ s.block, rfl, hbytes⟩
  rw [workRead, Prog.get_bind, Prog.modify_bind, hb]
  simp only
  rw [hstored, Prog.exitIf_of_not (by omega)]
  rw [hb] at hread
  rw [Prog.bind_ok hread]
  rfl

end State

end SmartQ.UBoot.Fat
