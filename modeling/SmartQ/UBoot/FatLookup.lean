import SmartQ.UBoot.FatScan
import SmartQ.UBoot.FatGeometry

/-!
# Looking up a path

`do_fat_read` in `u-boot/fs/fat/fat.c` looks for the first part of a path in the root directory
and for each further one, with `get_dentfromdir`, in the directory found before.

* `getDentfromdir_finds`, `rootScan_finds`: a directory gives its first item that has the name.
* `lookup_resolves`: a path gives the entry that its parts lead to, or an error.
-/

namespace SmartQ.UBoot.Fat

open SmartQ.Lib

/-! ## Directories on the card -/

section Directories

variable (dev : BlockDev) (mydata : Fsdata) (disk : Disk)

/-- The number of entries of a directory. -/
def entryCount (items : List Item) : ℕ := (items.map Item.size).sum

/-- A directory with its items in the clusters `cs`. If the items fill the last cluster, the FAT
    ends the directory in a way the reader sees. -/
structure DirOn (cs : List ℕ) (items : List Item) : Prop where
  chain : cs.IsChain fun a b => fatValue dev mydata disk a = b
  number : ∀ c ∈ cs, 2 ≤ c ∧ c < 0xfff0
  volume : ∀ c ∈ cs, InVolume dev mydata c
  placed : Placed mydata.direntsPerClust mydata.direntsPerClust false
    (chainByte dev mydata disk cs) 0 items
  room : entryCount items ≤ cs.length * mydata.direntsPerClust
  ends : entryCount items < cs.length * mydata.direntsPerClust →
    EndsAt (chainByte dev mydata disk cs) (entryCount items)
  full : entryCount items = cs.length * mydata.direntsPerClust →
    ∀ c ∈ cs.getLast?, fatValue dev mydata disk c ≤ 1 ∨ 0xfff0 ≤ fatValue dev mydata disk c

/-- The bytes of the root directory and of what is behind it. -/
def rootByte (i : ℕ) : Byte := disk (512 * (mydata.rootdirSect + dev.partOffset) + i)

/-- The root directory with its items. -/
structure RootOn (items : List Item) : Prop where
  placed : Placed mydata.direntsPerClust 16 true (rootByte dev mydata disk) 0 items
  ends : EndsAt (rootByte dev mydata disk) (entryCount items)
  sect : mydata.rootdirSect + entryCount items / 16 + dev.partOffset < 2 ^ 32

/-- The parts of a path lead from a directory with the items to an entry, or nowhere: the first
    part that is not there, or is a file with parts behind it, ends the way. -/
inductive Resolves : List Item → List (List Byte) → Option DirEntry → Prop
  | missing {items : List Item} {name : List Byte} {names : List (List Byte)}
      (hname : findItem name items = none) : Resolves items (name :: names) none
  | last {items : List Item} {name : List Byte} {dent : DirEntry}
      (hname : findItem name items = some dent) : Resolves items [name] (some dent)
  | file {items : List Item} {name : List Byte} {names : List (List Byte)} {dent : DirEntry}
      (hname : findItem name items = some dent) (hfile : dent.has attrDir = false)
      (hmore : names ≠ []) : Resolves items (name :: names) none
  | down {items sub : List Item} {name : List Byte} {names : List (List Byte)} {dent : DirEntry}
      {cs : List ℕ} {r : Option DirEntry} (hname : findItem name items = some dent)
      (hattr : dent.has attrDir = true) (hdir : DirOn dev mydata disk cs sub)
      (hfirst : cs.head? = some (dent.first mydata.fatsize)) (hrest : Resolves sub names r) :
      Resolves items (name :: names) r

end Directories

/-! ## One directory -/

section Scan

variable {H : Type} {dev : BlockDev} {mydata : Fsdata} {disk : Disk} {filename : List Byte}
  {cs : List ℕ} {items : List Item}

theorem length_marks (items : List Item) :
    (items.flatMap Item.marks).length = entryCount items := by
  rw [List.length_flatMap, entryCount]
  congr 1
  exact List.map_congr_left fun it _ => it.length_marks

theorem direntsPerClust_eq (mydata : Fsdata) : mydata.direntsPerClust = 16 * mydata.clustSize := by
  unfold Fsdata.direntsPerClust Fsdata.clustBytes
  omega

/-- A cluster in a cluster buffer. -/
theorem getWorkCluster_reads (hdev : dev.Works disk) (hvol : Volume dev mydata) {s : St H}
    (hs : Serves dev mydata disk s) {c : ℕ} (hc : 0 < c) (hin : InVolume dev mydata c) (w : Work) :
    ∃ s' b, getWorkCluster dev mydata c w s = some (.ok true, s') ∧ s'.block w = some b ∧
      mydata.clustBytes ≤ b.size ∧
      ∀ i < mydata.clustBytes, b.byte i = clusterByte dev mydata disk c i := by
  obtain ⟨b, hb, hsize⟩ := hs.sized w
  have hlast := hin.last
  have hpos := hvol.clustSize.1
  have hlt : clusterSect dev mydata c < 2 ^ 32 := by omega
  obtain ⟨hsect, hstart⟩ := startSect_eq hc hin.sect hlt
  obtain ⟨ret, s', b', hrun, hret, hb', hsize', hbytes⟩ :=
    workRead_works hdev hb hpos hsize hstart
  refine ⟨s', b', ?_, hb', by omega, fun i hi => ?_⟩
  · rw [getWorkCluster, Prog.bind_ok hrun, decide_eq_true hret]
    rfl
  · rw [hbytes i hi, hsect]
    rfl

/-- The clusters of a directory, one window each. -/
theorem chainByte_window (hvol : Volume dev mydata) {q c o : ℕ} (hc : cs[q]? = some c)
    (ho : o < mydata.clustBytes) :
    chainByte dev mydata disk cs (32 * (q * mydata.direntsPerClust) + o) =
      clusterByte dev mydata disk c o := by
  have hpos := hvol.clustBytes_pos
  have hshift : 32 * (q * mydata.direntsPerClust) + o = o + mydata.clustBytes * q := by
    rw [clustBytes_eq]
    ring
  rw [chainByte, hshift, Nat.add_mul_div_left _ _ hpos, Nat.add_mul_mod_self_left,
    Nat.div_eq_of_lt ho, Nat.mod_eq_of_lt ho, Nat.zero_add, List.getD_eq_getElem?_getD, hc]
  rfl

/-- The FAT leads from a cluster of a directory to the next one. -/
theorem DirOn.next (hdir : DirOn dev mydata disk cs items) {q c : ℕ} (hc : cs[q]? = some c)
    (hlast : q + 1 < cs.length) : cs[q + 1]? = some (fatValue dev mydata disk c) := by
  obtain ⟨hlt, hget⟩ := List.getElem?_eq_some_iff.mp hc
  rw [List.getElem?_eq_getElem hlast, ← hget]
  exact congrArg some (List.isChain_iff_getElem.mp hdir.chain q hlast).symm

/-- A directory that has been read to its last entry without an end fills its clusters. -/
theorem DirOn.filled (hdir : DirOn dev mydata disk cs items) {q c n : ℕ} (hc : cs[q]? = some c)
    (hlen : cs.length = q + 1) (hcount : q * mydata.direntsPerClust + n = entryCount items)
    (hn : mydata.direntsPerClust ≤ n) :
    n = mydata.direntsPerClust ∧
      (fatValue dev mydata disk c ≤ 1 ∨ 0xfff0 ≤ fatValue dev mydata disk c) := by
  have hroom := hdir.room
  rw [hlen, Nat.succ_mul] at hroom
  have hfull : entryCount items = cs.length * mydata.direntsPerClust := by
    rw [hlen, Nat.succ_mul]
    omega
  have hgetLast : cs.getLast? = some c := by
    rw [List.getLast?_eq_getElem?, hlen, Nat.add_sub_cancel, hc]
  exact ⟨by omega, hdir.full hfull c hgetLast⟩

/-- A directory from cluster `q` on. -/
theorem getDentfromdir_reads (hdev : dev.Works disk) (hvol : Volume dev mydata)
    (hdir : DirOn dev mydata disk cs items) (hname : filename ≠ []) (fuel : ℕ) :
    ∀ (q c : ℕ) (marks : List Mark) (s : St H) (t : Tally), cs[q]? = some c →
      cs.length ≤ q + fuel → Serves dev mydata disk s →
      q * mydata.direntsPerClust + marks.length = entryCount items →
      ReadsAs mydata mydata.direntsPerClust false (chainByte dev mydata disk cs)
        (cs.length * mydata.direntsPerClust) (q * mydata.direntsPerClust) marks →
      ∃ s', getDentfromdir dev mydata filename false fuel c t s =
        some (.ok (marks.findSome? (Mark.check filename)), s') := by
  have hper : mydata.clustBytes / 32 = mydata.direntsPerClust := rfl
  have hframe : Frame dev mydata _ := serves_frame (H := H) hdev hvol.geometry
  induction fuel with
  | zero =>
    intro q c marks s t hc hfuel
    obtain ⟨hlt, -⟩ := List.getElem?_eq_some_iff.mp hc
    omega
  | succ fuel ih =>
    intro q c marks s t hc hfuel hs hcount hreads
    obtain ⟨hlt, hget⟩ := List.getElem?_eq_some_iff.mp hc
    have hmem : c ∈ cs := List.mem_of_getElem? hc
    have hnumber := hdir.number c hmem
    have hroom : (q + 1) * mydata.direntsPerClust ≤ cs.length * mydata.direntsPerClust :=
      Nat.mul_le_mul_right _ hlt
    rw [Nat.succ_mul] at hroom
    obtain ⟨s1, b, hcluster, hb, hsize, hbytes⟩ := getWorkCluster_reads hdev hvol hs (by omega)
      (hdir.volume c hmem) .getDentfromdir
    have hs1 := hs.steps (getWorkCluster_steps hframe _ _ _ _ _ hcluster)
    have hwin : Window mydata (chainByte dev mydata disk cs) (q * mydata.direntsPerClust) 0 b :=
      ⟨hsize, fun o _ ho => (hbytes o ho).trans (chainByte_window hvol hc ho).symm⟩
    obtain ⟨r, s2, hrun, hends⟩ := dirEntries_reads hname (Nat.mul_mod_left _ _) le_rfl dev c
      (cs.length * mydata.direntsPerClust) mydata.direntsPerClust 0 marks b s1 t hwin hb
      (Nat.zero_add _).le (by omega) hreads
    have hs2 := hs1.steps (dirEntries_steps hframe _ _ _ _ _ _ _ _ _ hrun)
    rw [getDentfromdir, Prog.bind_ok hcluster, if_pos rfl, hper, Prog.bind_ok hrun]
    cases hfirst : (marks.take mydata.direntsPerClust).findSome? (Mark.check filename) with
    | some dent =>
      rw [Scan.Ends, hfirst] at hends
      simp only [Bool.false_eq_true, false_and, if_false] at hends
      rw [hends, findSome?_take_of_some hfirst]
      exact ⟨s2, rfl⟩
    | none =>
      rw [Scan.Ends, hfirst] at hends
      simp only at hends
      by_cases hshort : marks.length < mydata.direntsPerClust
      · rw [if_pos hshort] at hends
        rw [List.take_of_length_le hshort.le] at hfirst
        rw [hends, hfirst]
        exact ⟨s2, rfl⟩
      · rw [if_neg hshort] at hends
        obtain ⟨t2, rfl⟩ := hends
        obtain ⟨s3, hentry, -, -⟩ := getFatent_works hdev hvol.geometry (hdir.volume c hmem).fat
          hs2.coherent
        have hs3 := hs2.steps (hframe.fatent _ _ _ _ hentry)
        simp only
        rw [Prog.bind_ok hentry]
        by_cases hlast : q + 1 < cs.length
        · -- the FAT leads to the next cluster
          have hnext := hdir.next hc hlast
          have hnum := hdir.number _ (List.mem_of_getElem? hnext)
          have hdrop := hreads.drop (Nat.le_of_not_lt hshort)
          rw [← Nat.succ_mul] at hdrop
          obtain ⟨s4, hrest⟩ := ih (q + 1) _ (marks.drop mydata.direntsPerClust) s3 t2 hnext
            (by omega) hs3 (by rw [List.length_drop, Nat.succ_mul]; omega) hdrop
          rw [if_neg (by omega), hrest, findSome?_take_drop hfirst]
          exact ⟨s4, rfl⟩
        · -- or it ends the directory, which is full
          have hlen : cs.length = q + 1 := by omega
          obtain ⟨hfull, hvalue⟩ := hdir.filled hc hlen hcount (Nat.le_of_not_lt hshort)
          rw [List.take_of_length_le hfull.le] at hfirst
          rw [if_pos hvalue, hfirst]
          exact ⟨s3, rfl⟩

/-- `get_dentfromdir` finds the first item of a directory that has the name. -/
theorem getDentfromdir_finds (hdev : dev.Works disk) (hvol : Volume dev mydata)
    (hdir : DirOn dev mydata disk cs items) (hname : filename ≠ []) {first : ℕ}
    (hfirst : cs.head? = some first) {fuel : ℕ} (hfuel : cs.length ≤ fuel) {s : St H}
    (hs : Serves dev mydata disk s) (t : Tally) :
    ∃ s', getDentfromdir dev mydata filename false fuel first t s =
      some (.ok (findItem filename items), s') ∧ Serves dev mydata disk s' ∧
      s'.buffer = s.buffer := by
  rw [← find_marks]
  have hcount := length_marks items
  have hreads : ReadsAs mydata mydata.direntsPerClust false (chainByte dev mydata disk cs)
      (cs.length * mydata.direntsPerClust) (0 * mydata.direntsPerClust)
      (items.flatMap Item.marks) := by
    rw [Nat.zero_mul]
    refine ⟨fun k mark hmark => hdir.placed.reads hmark, fun hlt => ?_⟩
    rw [Nat.zero_add, hcount] at hlt ⊢
    exact hdir.ends hlt
  obtain ⟨s', hrun⟩ := getDentfromdir_reads hdev hvol hdir hname fuel 0 first
    (items.flatMap Item.marks) s t (List.head?_eq_getElem? ▸ hfirst) (by omega) hs
    (by rw [Nat.zero_mul, Nat.zero_add, hcount]) hreads
  have hsteps := getDentfromdir_steps (serves_frame hdev hvol.geometry) _ _ _ _ _ _ _ _ hrun
  exact ⟨s', hrun, hs.steps hsteps, hsteps.2⟩

/-- The root directory from its sector `q` on. -/
theorem rootScan_reads (hdev : dev.Works disk) (hvol : Volume dev mydata)
    (hroot : RootOn dev mydata disk items) (hname : filename ≠ []) (isdir : Bool) (fuel : ℕ) :
    ∀ (q : ℕ) (marks : List Mark) (s : St H) (t : Tally), marks.length / 16 < fuel →
      16 * q + marks.length = entryCount items → Serves dev mydata disk s →
      (∀ last, ReadsAs mydata 16 true (rootByte dev mydata disk) last (16 * q) marks) →
      ∃ s', rootScan dev mydata filename isdir false fuel (mydata.rootdirSect + q) t s =
        some (.ok (match marks.findSome? (Mark.check filename) with
          | some dent => if isdir ∧ ¬ dent.has attrDir then .error (-1) else .ok dent
          | none => .error (-1)), s') := by
  have hframe : Frame dev mydata _ := serves_frame (H := H) hdev hvol.geometry
  have hpos := hvol.clustSize.1
  have hper := direntsPerClust_eq mydata
  induction fuel with
  | zero =>
    intro q marks s t hfuel
    exact absurd hfuel (Nat.not_lt_zero _)
  | succ fuel ih =>
    intro q marks s t hfuel hcount hs hreads
    have hsect := hroot.sect
    obtain ⟨b, hb, hsize⟩ := hs.sized .doFatRead
    have hstart : mydata.rootdirSect + q + dev.partOffset < 2 ^ 32 := by omega
    obtain ⟨ret, s1, b1, hread, hret, hb1, hsize1, hbytes⟩ :=
      workRead_works hdev hb hpos hsize hstart
    have hs1 := hs.steps (hframe.work _ _ _ _ _ hread)
    have hwin : Window mydata (rootByte dev mydata disk) (16 * q) 0 b1 := by
      refine ⟨by omega, fun o _ ho => ?_⟩
      rw [hbytes o ho, rootByte]
      congr 1
      ring
    obtain ⟨r, s2, hrun, hends⟩ := rootEntries_reads hname (Nat.mul_mod_right 16 q) (by omega) dev
      isdir (16 * q + 0 + 16) 16 0 marks b1 s1 t hwin hb1 (Nat.zero_add _).le le_rfl (hreads _)
    have hs2 := hs1.steps (rootEntries_steps hframe _ _ _ _ _ _ _ _ _ hrun)
    rw [rootScan, Prog.bind_ok hread, if_neg (not_lt.mpr hret), Prog.bind_ok hrun]
    cases hfirst : (marks.take 16).findSome? (Mark.check filename) with
    | some dent =>
      rw [Scan.Ends, hfirst] at hends
      simp only at hends
      rw [hends, findSome?_take_of_some hfirst]
      refine ⟨s2, ?_⟩
      simp only
      split_ifs <;> rfl
    | none =>
      rw [Scan.Ends, hfirst] at hends
      simp only at hends
      by_cases hshort : marks.length < 16
      · rw [if_pos hshort] at hends
        rw [List.take_of_length_le hshort.le] at hfirst
        rw [hends, hfirst]
        exact ⟨s2, rfl⟩
      · rw [if_neg hshort] at hends
        obtain ⟨t2, rfl⟩ := hends
        obtain ⟨s3, hrest⟩ := ih (q + 1) (marks.drop 16) s2 t2
          (by rw [List.length_drop]; omega) (by rw [List.length_drop]; omega) hs2
          fun last => (hreads last).drop (Nat.le_of_not_lt hshort)
        rw [findSome?_take_drop hfirst]
        exact ⟨s3, hrest⟩

/-- The root directory gives the first item that has the name; with more parts to come it has to
    be a directory. -/
theorem rootScan_finds (hdev : dev.Works disk) (hvol : Volume dev mydata)
    (hroot : RootOn dev mydata disk items) (hname : filename ≠ []) (isdir : Bool) {fuel : ℕ}
    (hfuel : entryCount items / 16 < fuel) {s : St H} (hs : Serves dev mydata disk s) (t : Tally) :
    ∃ s', rootScan dev mydata filename isdir false fuel mydata.rootdirSect t s =
      some (.ok (match findItem filename items with
        | some dent => if isdir ∧ ¬ dent.has attrDir then .error (-1) else .ok dent
        | none => .error (-1)), s') ∧ Serves dev mydata disk s' ∧ s'.buffer = s.buffer := by
  rw [← find_marks]
  have hcount := length_marks items
  have hreads : ∀ last, ReadsAs mydata 16 true (rootByte dev mydata disk) last (16 * 0)
      (items.flatMap Item.marks) := by
    refine fun last => ⟨fun k mark hmark => hroot.placed.reads hmark, fun _ => ?_⟩
    rw [hcount, Nat.mul_zero, Nat.zero_add]
    exact hroot.ends
  obtain ⟨s', hrun⟩ := rootScan_reads hdev hvol hroot hname isdir fuel 0
    (items.flatMap Item.marks) s t (hcount ▸ hfuel) (by rw [hcount, Nat.mul_zero, Nat.zero_add]) hs
    hreads
  have hsteps := rootScan_steps (serves_frame hdev hvol.geometry) _ _ _ _ _ _ _ _ _ hrun
  exact ⟨s', hrun, hs.steps hsteps, hsteps.2⟩

end Scan

/-! ## Paths -/

/-- A part of a path. -/
def IsPart (part : List Byte) : Prop := part ≠ [] ∧ ∀ c ∈ part, isDirDelim c = false

instance (part : List Byte) : Decidable (IsPart part) := inferInstanceAs (Decidable (_ ∧ _))

/-- A path with these parts: one or more delimiters between two of them, and none at the end. -/
inductive Spells : List Byte → List (List Byte) → Prop
  | last {part : List Byte} (hpart : IsPart part) : Spells part [part]
  | cons {part delims path : List Byte} {c : Byte} {parts : List (List Byte)} (hpart : IsPart part)
      (hdelim : isDirDelim c = true) (hdelims : ∀ c ∈ delims, isDirDelim c = true)
      (hrest : Spells path parts) : Spells (part ++ c :: (delims ++ path)) (part :: parts)

section Paths

variable {part path delims : List Byte} {parts : List (List Byte)} {c : Byte}

theorem isDirDelim_tolower (c : Byte) : isDirDelim (tolower c) = isDirDelim c := by
  have hall : ∀ n < 256, isDirDelim (tolower (UInt8.ofNat n)) = isDirDelim (UInt8.ofNat n) := by
    decide +kernel
  have hthis := hall c.toNat c.toNat_lt
  rwa [UInt8.ofNat_toNat] at hthis

theorem IsPart.downcase (h : IsPart part) : IsPart (downcase part) := by
  refine ⟨fun hnil => h.1 (List.map_eq_nil_iff.mp hnil), fun c hc => ?_⟩
  obtain ⟨c', hc', rfl⟩ := List.mem_map.mp hc
  rw [isDirDelim_tolower]
  exact h.2 c' hc'

/-- A path in lower case has its parts in lower case. -/
theorem Spells.downcase (h : Spells path parts) :
    Spells (downcase path) (parts.map Fat.downcase) := by
  induction h with
  | last hpart => exact .last hpart.downcase
  | cons hpart hdelim hdelims _ ih =>
    rw [Fat.downcase, List.map_append, List.map_cons, List.map_append]
    refine .cons hpart.downcase ((isDirDelim_tolower _).trans hdelim) (fun c hc => ?_) ih
    obtain ⟨c', hc', rfl⟩ := List.mem_map.mp hc
    exact (isDirDelim_tolower c').trans (hdelims c' hc')

/-- A path does not begin with a delimiter. -/
theorem Spells.dropDelims (h : Spells path parts) (hdelims : ∀ c ∈ delims, isDirDelim c = true) :
    dropDelims (delims ++ path) = path := by
  have hself : Fat.dropDelims path = path := by
    unfold Fat.dropDelims
    cases h with
    | last hpart =>
      obtain ⟨c, part, rfl⟩ := List.exists_cons_of_ne_nil hpart.1
      rw [List.dropWhile_cons_of_neg]
      simp [hpart.2 c List.mem_cons_self]
    | cons hpart _ _ _ =>
      rename_i part _ _ _ _
      obtain ⟨c, part, rfl⟩ := List.exists_cons_of_ne_nil hpart.1
      rw [List.cons_append, List.dropWhile_cons_of_neg]
      simp [hpart.2 c List.mem_cons_self]
  unfold Fat.dropDelims at *
  rw [List.dropWhile_append_of_pos hdelims, hself]

theorem beforeDelim_part (h : IsPart part) : beforeDelim part = part := by
  unfold beforeDelim
  rw [List.takeWhile_eq_self_iff]
  intro c hc
  simp [h.2 c hc]

theorem afterDelim_part (h : IsPart part) : afterDelim part = none := by
  have hdrop : part.dropWhile (!isDirDelim ·) = [] := by
    rw [List.dropWhile_eq_nil_iff]
    intro c hc
    simp [h.2 c hc]
  simp [afterDelim, hdrop]

theorem beforeDelim_cons (h : IsPart part) (hc : isDirDelim c = true) (rest : List Byte) :
    beforeDelim (part ++ c :: rest) = part := by
  unfold beforeDelim
  rw [List.takeWhile_append_of_pos (fun c hc => by simp [h.2 c hc]),
    List.takeWhile_cons_of_neg (by simp [hc]), List.append_nil]

theorem afterDelim_cons (h : IsPart part) (hc : isDirDelim c = true)
    (hdelims : ∀ c ∈ delims, isDirDelim c = true) (hrest : Spells path parts) :
    afterDelim (part ++ c :: (delims ++ path)) = some path := by
  have hdrop : (part ++ c :: (delims ++ path)).dropWhile (!isDirDelim ·) =
      c :: (delims ++ path) := by
    rw [List.dropWhile_append_of_pos (fun c hc => by simp [h.2 c hc]),
      List.dropWhile_cons_of_neg (by simp [hc])]
  simp [afterDelim, hdrop, hrest.dropDelims hdelims]

/-- The first part of a path and what follows it. -/
theorem Spells.head {names : List (List Byte)} (h : Spells path (part :: names)) :
    beforeDelim path = part ∧ part ≠ [] ∧
      ((names = [] ∧ afterDelim path = none) ∨
        ∃ rest, afterDelim path = some rest ∧ Spells rest names) := by
  cases h with
  | last hpart =>
    exact ⟨beforeDelim_part hpart, hpart.1, .inl ⟨rfl, afterDelim_part hpart⟩⟩
  | cons hpart hdelim hdelims hrest =>
    exact ⟨beforeDelim_cons hpart hdelim _, hpart.1,
      .inr ⟨_, afterDelim_cons hpart hdelim hdelims hrest, hrest⟩⟩

theorem Spells.ne_nil (h : Spells path parts) : parts ≠ [] := by
  cases h <;> simp

theorem Spells.path_ne_nil (h : Spells path parts) : path ≠ [] := by
  cases h with
  | last hpart => exact hpart.1
  | cons hpart hdelim hdelims hrest => simp

end Paths

/-! ## The way along a path -/

section Walk

variable {H : Type} {dev : BlockDev} {mydata : Fsdata} {disk : Disk} {dir : DirEntry}
  {path : List Byte} {parts : List (List Byte)} {r : Option DirEntry} {items : List Item}

/-- What a lookup returns. -/
def answer : Option DirEntry → Except ℤ DirEntry
  | some dent => .ok dent
  | none => .error (-1)

/-- A directory of the path, once it has been searched. -/
theorem walk_step {dirFuel fuel : ℕ} {name : List Byte} {firsttime : Bool} {o : Option DirEntry}
    {s s1 : St H} (hbefore : beforeDelim path = name)
    (hrun : getDentfromdir dev mydata name false dirFuel (dir.first mydata.fatsize) .zero s =
      some (.ok o, s1)) :
    walk dev mydata dirFuel false (fuel + 1) path firsttime dir s =
      (match o with
        | none => pure (.error (-1))
        | some dent =>
          match afterDelim path with
          | some rest =>
            if ¬ dent.has attrDir then pure (.error (-1))
            else walk dev mydata dirFuel false fuel rest firsttime dent
          | none => pure (.ok dent) : FatM H (Except ℤ DirEntry)) s1 := by
  rw [walk]
  simp only [hbefore, Bool.and_false, Bool.false_and, Bool.or_false, Bool.not_false, Bool.and_true,
    Bool.false_eq_true, if_false]
  rw [Prog.bind_ok hrun]
  cases o with
  | none => rfl
  | some dent => cases hafter : afterDelim path <;> rfl

/-- With enough fuel the loop over the directories of a path goes where its parts lead. -/
theorem walk_resolves (hdev : dev.Works disk) (hvol : Volume dev mydata)
    (h : Resolves dev mydata disk items parts r) :
    ∃ N, ∀ (cs : List ℕ) (dir : DirEntry), DirOn dev mydata disk cs items →
      cs.head? = some (dir.first mydata.fatsize) → ∀ fuel > N, ∀ dirFuel ≥ N + cs.length,
      ∀ (path : List Byte) (firsttime : Bool) (s : St H), Spells path parts →
      Serves dev mydata disk s →
      ∃ s', walk dev mydata dirFuel false fuel path firsttime dir s = some (.ok (answer r), s') := by
  induction h with
  | @missing items name names hname =>
    refine ⟨0, fun cs dir hdir hfirst fuel hfuel dirFuel hdirFuel path firsttime s hpath hs => ?_⟩
    obtain ⟨fuel, rfl⟩ := Nat.exists_eq_succ_of_ne_zero (Nat.ne_zero_of_lt hfuel)
    have hclusters : cs.length ≤ dirFuel := by omega
    obtain ⟨hbefore, hne, -⟩ := hpath.head
    obtain ⟨s1, hrun, -⟩ := getDentfromdir_finds hdev hvol hdir hne hfirst hclusters hs .zero
    rw [hname] at hrun
    rw [walk_step hbefore hrun]
    exact ⟨s1, rfl⟩
  | @last items name dent hname =>
    refine ⟨0, fun cs dir hdir hfirst fuel hfuel dirFuel hdirFuel path firsttime s hpath hs => ?_⟩
    obtain ⟨fuel, rfl⟩ := Nat.exists_eq_succ_of_ne_zero (Nat.ne_zero_of_lt hfuel)
    have hclusters : cs.length ≤ dirFuel := by omega
    obtain ⟨hbefore, hne, ⟨-, hafter⟩ | ⟨rest, -, hrest⟩⟩ := hpath.head
    · obtain ⟨s1, hrun, -⟩ := getDentfromdir_finds hdev hvol hdir hne hfirst hclusters hs .zero
      rw [hname] at hrun
      rw [walk_step hbefore hrun, hafter]
      exact ⟨s1, rfl⟩
    · exact absurd rfl hrest.ne_nil
  | @file items name names dent hname hfile hmore =>
    refine ⟨0, fun cs dir hdir hfirst fuel hfuel dirFuel hdirFuel path firsttime s hpath hs => ?_⟩
    obtain ⟨fuel, rfl⟩ := Nat.exists_eq_succ_of_ne_zero (Nat.ne_zero_of_lt hfuel)
    have hclusters : cs.length ≤ dirFuel := by omega
    obtain ⟨hbefore, hne, ⟨hnil, -⟩ | ⟨rest, hafter, -⟩⟩ := hpath.head
    · exact absurd hnil hmore
    · obtain ⟨s1, hrun, -⟩ := getDentfromdir_finds hdev hvol hdir hne hfirst hclusters hs .zero
      rw [hname] at hrun
      rw [walk_step hbefore hrun, hafter]
      simp only
      rw [if_pos (by simp [hfile])]
      exact ⟨s1, rfl⟩
  | @down items sub name names dent cs' r hname hattr hdir' hfirst' hrest ih =>
    obtain ⟨N, hN⟩ := ih
    refine ⟨N + cs'.length + 1,
      fun cs dir hdir hfirst fuel hfuel dirFuel hdirFuel path firsttime s hpath hs => ?_⟩
    obtain ⟨fuel, rfl⟩ := Nat.exists_eq_succ_of_ne_zero (Nat.ne_zero_of_lt hfuel)
    have hclusters : cs.length ≤ dirFuel := by omega
    obtain ⟨hbefore, hne, ⟨hnil, -⟩ | ⟨rest, hafter, hspells⟩⟩ := hpath.head
    · rw [hnil] at hrest
      cases hrest
    · obtain ⟨s1, hrun, hs1, -⟩ := getDentfromdir_finds hdev hvol hdir hne hfirst hclusters hs .zero
      rw [hname] at hrun
      rw [walk_step hbefore hrun, hafter]
      simp only
      rw [if_neg (by simp [hattr])]
      exact hN cs' dent hdir' hfirst' fuel (by omega) dirFuel (by omega) rest firsttime s1 hspells hs1

/-- A path that spells some parts goes on with the search of the root directory. -/
theorem lookup_spelled {delims : List Byte} (hdelims : ∀ c ∈ delims, isDirDelim c = true)
    (hpath : Spells path parts) (hlen : path.length ≤ 2047) {after : Option (List Byte)}
    (hafter : afterDelim (downcase path) = after) {fuel : ℕ} {s s1 : St H}
    {o : Except ℤ DirEntry}
    (hrun : rootScan dev mydata (beforeDelim (downcase path)) after.isSome false fuel
      mydata.rootdirSect .zero s = some (.ok o, s1)) :
    (∀ ret, o = .error ret →
      lookup dev mydata fuel (delims ++ path) false s = some (.ok (.error ret), s1)) ∧
    ∀ dent, o = .ok dent → lookup dev mydata fuel (delims ++ path) false s =
      (if after.isSome then walk dev mydata fuel false fuel (after.getD []) true dent
        else pure (.ok dent) : FatM H (Except ℤ DirEntry)) s1 := by
  have hnil : downcase path ≠ [] := by
    intro hnil
    rw [downcase, List.map_eq_nil_iff] at hnil
    exact hpath.path_ne_nil hnil
  have hshort : ¬ 2047 < (dropDelims (delims ++ path)).length := by
    rw [hpath.dropDelims hdelims]
    omega
  rw [lookup]
  simp only
  rw [Prog.exitIf_of_not hshort]
  simp only [hpath.dropDelims hdelims]
  rw [if_neg hnil, Bool.or_false, hafter]
  constructor
  · rintro ret rfl
    exact Prog.bind_ok hrun
  · rintro dent rfl
    exact Prog.bind_ok hrun

/-- With enough fuel a lookup gives the entry that the parts of the path lead to. -/
theorem lookup_gives (hdev : dev.Works disk) (hvol : Volume dev mydata)
    (hroot : RootOn dev mydata disk items) {delims : List Byte}
    (hdelims : ∀ c ∈ delims, isDirDelim c = true) (hpath : Spells path parts)
    (hlen : path.length ≤ 2047) (h : Resolves dev mydata disk items (parts.map downcase) r) :
    ∃ N, ∀ fuel > N, ∀ s : St H, Serves dev mydata disk s →
      ∃ s', lookup dev mydata fuel (delims ++ path) false s = some (.ok (answer r), s') := by
  have hlower := hpath.downcase
  obtain ⟨name, names, hparts⟩ := List.exists_cons_of_ne_nil hlower.ne_nil
  rw [hparts] at h hlower
  obtain ⟨hbefore, hne, hafter⟩ := hlower.head
  have hscan : ∀ fuel > entryCount items / 16, ∀ s : St H, Serves dev mydata disk s →
      ∃ s', rootScan dev mydata (beforeDelim (downcase path)) (afterDelim (downcase path)).isSome
        false fuel mydata.rootdirSect .zero s = some (.ok (match findItem name items with
          | some dent =>
            if (afterDelim (downcase path)).isSome ∧ ¬ dent.has attrDir then .error (-1)
            else .ok dent
          | none => .error (-1)), s') ∧ Serves dev mydata disk s' := by
    intro fuel hfuel s hs
    obtain ⟨s', hrun, hs', -⟩ := rootScan_finds hdev hvol hroot hne
      (afterDelim (downcase path)).isSome hfuel hs .zero
    rw [hbefore]
    exact ⟨s', hrun, hs'⟩
  generalize hspelled : afterDelim (downcase path) = after at hscan hafter
  cases h with
  | missing hname =>
    refine ⟨entryCount items / 16, fun fuel hfuel s hs => ?_⟩
    obtain ⟨s1, hrun, -⟩ := hscan fuel hfuel s hs
    rw [hname] at hrun
    rw [(lookup_spelled hdelims hpath hlen hspelled hrun).1 _ rfl]
    exact ⟨s1, rfl⟩
  | last hname =>
    refine ⟨entryCount items / 16, fun fuel hfuel s hs => ?_⟩
    obtain ⟨s1, hrun, -⟩ := hscan fuel hfuel s hs
    obtain ⟨-, rfl⟩ | ⟨rest, -, hrest⟩ := hafter
    · rw [hname] at hrun
      rw [(lookup_spelled hdelims hpath hlen hspelled hrun).2 _ rfl]
      exact ⟨s1, rfl⟩
    · exact absurd rfl hrest.ne_nil
  | file hname hfile hmore =>
    refine ⟨entryCount items / 16, fun fuel hfuel s hs => ?_⟩
    obtain ⟨s1, hrun, -⟩ := hscan fuel hfuel s hs
    obtain ⟨hnil, -⟩ | ⟨rest, rfl, -⟩ := hafter
    · exact absurd hnil hmore
    · rw [hname] at hrun
      simp only at hrun
      rw [if_pos (by simp [hfile])] at hrun
      rw [(lookup_spelled hdelims hpath hlen hspelled hrun).1 _ rfl]
      exact ⟨s1, rfl⟩
  | @down _ _ _ _ dent cs _ hname hattr hdir hfirst hrest =>
    obtain ⟨N, hN⟩ := walk_resolves (H := H) hdev hvol hrest
    refine ⟨entryCount items / 16 + N + cs.length, fun fuel hfuel s hs => ?_⟩
    obtain ⟨s1, hrun, hs1⟩ := hscan fuel (by omega) s hs
    obtain ⟨hnil, -⟩ | ⟨rest, rfl, hspells⟩ := hafter
    · rw [hnil] at hrest
      cases hrest
    · rw [hname] at hrun
      simp only at hrun
      rw [if_neg (by simp [hattr])] at hrun
      rw [(lookup_spelled hdelims hpath hlen hspelled hrun).2 _ rfl]
      exact hN cs dent hdir hfirst fuel (by omega) fuel (by omega) rest true s1 hspells hs1

end Walk

end SmartQ.UBoot.Fat
