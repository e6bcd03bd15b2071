import SmartQ.UBoot.FatTable

/-!
# Reading a file of a FAT volume

`get_contents` in `u-boot/fs/fat/fat.c` follows the clusters of a file through the FAT and
reads clusters that lie one behind the other together, up to the last one, of which it reads
what is left.

The card gives a sector where it is asked for none, so a last part below 512 bytes comes with
the rest of its sector.

* `getContents_exact_iff`: on a well-formed volume the bytes read are the first ones of the
  clusters of the file, one after the other, and nothing else is written exactly if at least a
  sector of them lies in the last cluster.
* `fatBody_eq`: and so they are behind the lookup of the file.
-/

namespace SmartQ.UBoot.Fat

open SmartQ.Lib

/-! ## The data area on the card -/

section Volume

variable (dev : BlockDev) (mydata : Fsdata) (disk : Disk)

/-- The first sector of cluster `c`. -/
def clusterSect (c : ℕ) : ℤ := mydata.dataBegin + c * mydata.clustSize + dev.partOffset

/-- Byte `i` of cluster `c`. -/
def clusterByte (c i : ℕ) : Byte := disk (512 * (clusterSect dev mydata c).toNat + i)

/-- The bytes of cluster `c`. -/
def clusterBytes (c : ℕ) : List Byte :=
  (List.range mydata.clustBytes).map (clusterByte dev mydata disk c)

/-- The entry of a cluster lies in the FAT and its sectors on the card. -/
structure InVolume (c : ℕ) : Prop where
  fat : InFat mydata c
  sect : 0 ≤ mydata.dataBegin + c * mydata.clustSize
  last : clusterSect dev mydata c + mydata.clustSize ≤ 2 ^ 32

/-- A volume has clusters, whose size has 16 bits. -/
structure Volume : Prop where
  geometry : Geometry dev mydata
  clustSize : 0 < mydata.clustSize ∧ mydata.clustSize < 2 ^ 16

end Volume

/-! ## Clusters -/

section Clusters

variable {H : Type} {dev : BlockDev} {mydata : Fsdata} {disk : Disk}

/-- A read that works: what it leaves in its destination. -/
theorem diskRead_works (hdev : dev.Works disk) {start : ℕ} (hstart : start + dev.partOffset < 2 ^ 32)
    (count : ℕ) (old : Mem) (s : St H) :
    ∃ ret mem, diskRead dev start count old s =
        some (.ok (ret, mem), { s with clock := s.clock + 1 }) ∧
      0 ≤ ret ∧
      (∀ i < transferred count, mem i = disk (512 * (start + dev.partOffset) + i)) ∧
      ∀ i, transferred count ≤ i → mem i = old i := by
  have hret := hdev.succeeds s.clock (start + dev.partOffset) count old
  have hbytes := hdev.faithful s.clock (start + dev.partOffset) count old hret
  refine ⟨_, _, rfl, ?_, ?_, ?_⟩
  · show 0 ≤ (dev.read s.clock ((start + dev.partOffset) % 2 ^ 32) count old).1
    rw [Nat.mod_eq_of_lt hstart]
    exact hret
  · intro i hi
    show laid (transferred count)
      (dev.read s.clock ((start + dev.partOffset) % 2 ^ 32) count old).2 old i = _
    rw [Nat.mod_eq_of_lt hstart, laid, if_pos hi]
    exact hbytes i hi
  · intro i hi
    exact if_neg (Nat.not_lt.mpr hi)

/-- From `s` to `s'` the bytes `data` are written at `off`, and the buffer of the FAT is kept. -/
structure Wrote (off size : ℕ) (data : ℕ → Byte) (s s' : St H) : Prop where
  fatbuf : s'.fatbuf = s.fatbuf
  fatbufnum : s'.fatbufnum = s.fatbufnum
  inside : ∀ i < size, s'.buffer (off + i) = data i
  outside : ∀ i, i < off ∨ off + size ≤ i → s'.buffer i = s.buffer i

theorem Wrote.coherent {off size : ℕ} {data : ℕ → Byte} {s s' : St H}
    (h : Wrote off size data s s') (hs : Coherent dev mydata disk s) :
    Coherent dev mydata disk s' := by
  intro n hnum
  rw [h.fatbuf]
  exact hs n (h.fatbufnum ▸ hnum)

theorem memcpy_inside (dst : Mem) (d : ℕ) (src : Mem) {n i : ℕ} (hi : i < n) :
    memcpy dst d src 0 n (d + i) = src i := by
  unfold memcpy
  rw [if_pos (by omega), Nat.zero_add, Nat.add_sub_cancel_left]

theorem memcpy_outside (dst : Mem) (d : ℕ) (src : Mem) (s : ℕ) {n i : ℕ} (hi : i < d ∨ d + n ≤ i) :
    memcpy dst d src s n i = dst i := by
  unfold memcpy
  rw [if_neg (by omega)]

/-- The state behind the first read of `get_cluster`. -/
theorem getCluster_whole {c off size : ℕ} {s s1 : St H} {ret : ℤ} {mem : Mem}
    (hrun : diskRead dev (startSect mydata c) (size / 512) (fun i => s.buffer (off + i)) s =
      some (.ok (ret, mem), s1)) (hret : 0 ≤ ret) (hmod : size % 512 = 0) :
    getCluster dev mydata c off size s = some (.ok true, { s1 with
      buffer := memcpy s1.buffer off mem 0 (transferred (size / 512)) }) := by
  unfold getCluster
  refine Prog.get_bind.trans ((Prog.bind_ok hrun).trans ?_)
  refine Prog.modify_bind.trans ((congrFun (if_neg (not_lt.mpr hret)) _).trans ?_)
  rw [if_neg (not_not.mpr hmod), Prog.pure_apply]

/-- The state behind the second one. -/
theorem getCluster_tail {c off size : ℕ} {s s1 s2 : St H} {ret ret' : ℤ} {mem tmpbuf : Mem}
    (hrun : diskRead dev (startSect mydata c) (size / 512) (fun i => s.buffer (off + i)) s =
      some (.ok (ret, mem), s1)) (hret : 0 ≤ ret) (hmod : size % 512 ≠ 0)
    (hrun' : diskRead dev ((startSect mydata c + size / 512) % 2 ^ 32) 1 (fun _ => 0)
      { s1 with buffer := memcpy s1.buffer off mem 0 (transferred (size / 512)) } =
      some (.ok (ret', tmpbuf), s2)) (hret' : 0 ≤ ret') :
    getCluster dev mydata c off size s = some (.ok true, { s2 with
      buffer := memcpy s2.buffer (off + 512 * (size / 512)) tmpbuf 0 (size % 512) }) := by
  unfold getCluster
  refine Prog.get_bind.trans ((Prog.bind_ok hrun).trans ?_)
  refine Prog.modify_bind.trans ((congrFun (if_neg (not_lt.mpr hret)) _).trans ?_)
  rw [if_pos hmod]
  refine (Prog.bind_ok hrun').trans ((congrFun (if_neg (not_lt.mpr hret')) _).trans ?_)
  rfl

variable (mydata) in
/-- `get_cluster` of nothing writes a sector. -/
theorem getCluster_zero (hdev : dev.Works disk) (c off : ℕ) (s : St H) :
    ∃ s', getCluster dev mydata c off 0 s = some (.ok true, s') ∧
      Wrote off 512 (fun i => disk (512 * ((startSect mydata c + dev.partOffset) % 2 ^ 32) + i))
        s s' := by
  have hret := hdev.succeeds s.clock ((startSect mydata c + dev.partOffset) % 2 ^ 32) 0
    fun i => s.buffer (off + i)
  have hbytes := hdev.faithful s.clock ((startSect mydata c + dev.partOffset) % 2 ^ 32) 0
    (fun i => s.buffer (off + i)) hret
  refine ⟨_, getCluster_whole rfl hret rfl, rfl, rfl, fun i hi => ?_, fun i hi => ?_⟩
  · exact (memcpy_inside _ _ _ hi).trans ((if_pos hi).trans (hbytes i hi))
  · exact memcpy_outside s.buffer _ _ _ hi

/-- The first sector of a cluster on the volume. -/
theorem startSect_eq {c : ℕ} (hc : 0 < c) (hpos : 0 ≤ mydata.dataBegin + c * mydata.clustSize)
    (hlt : clusterSect dev mydata c < 2 ^ 32) :
    startSect mydata c + dev.partOffset = (clusterSect dev mydata c).toNat ∧
      startSect mydata c + dev.partOffset < 2 ^ 32 := by
  unfold clusterSect at hlt ⊢
  have hstart : startSect mydata c = (mydata.dataBegin + c * mydata.clustSize).toNat := by
    rw [startSect, if_pos hc, toU32, Int.emod_eq_of_lt hpos (by omega)]
  rw [hstart]
  omega

/-- `get_cluster` writes the bytes from the start of a cluster on, as far as the sectors go, and
    those of the first sector in any case. -/
theorem getCluster_works (hdev : dev.Works disk) {c size : ℕ} (off : ℕ) (hc : 0 < c)
    (hpos : 0 ≤ mydata.dataBegin + c * mydata.clustSize) (hlt : clusterSect dev mydata c < 2 ^ 32)
    (hlast : clusterSect dev mydata c + (size + 511) / 512 ≤ 2 ^ 32) (s : St H) :
    ∃ s', getCluster dev mydata c off size s = some (.ok true, s') ∧
      Wrote off (max size 512) (clusterByte dev mydata disk c) s s' := by
  obtain ⟨hsect, hstart⟩ := startSect_eq hc hpos hlt
  obtain ⟨ret, mem, hrun, hret, hmem, -⟩ :=
    diskRead_works hdev hstart (size / 512) (fun i => s.buffer (off + i)) s
  rw [hsect] at hmem
  have hfirst : transferred (size / 512) = max (512 * (size / 512)) 512 := by
    unfold transferred
    omega
  have hnonneg : 0 ≤ clusterSect dev mydata c := by
    unfold clusterSect
    omega
  by_cases hmod : size % 512 = 0
  · refine ⟨_, getCluster_whole hrun hret hmod, rfl, rfl, fun i hi => ?_, fun i hi => ?_⟩
    · exact (memcpy_inside _ _ _ (by omega)).trans (hmem i (by omega))
    · exact memcpy_outside _ _ _ _ (by omega)
  · have hidx : (startSect mydata c + size / 512) % 2 ^ 32 = startSect mydata c + size / 512 :=
      Nat.mod_eq_of_lt (by omega)
    obtain ⟨ret', tmpbuf, hrun', hret', htmp, -⟩ := diskRead_works hdev
      (show startSect mydata c + size / 512 + dev.partOffset < 2 ^ 32 by omega) 1 (fun _ => 0)
      { s with clock := s.clock + 1, buffer := memcpy s.buffer off mem 0 (transferred (size / 512)) }
    rw [← hidx] at hrun'
    refine ⟨_, getCluster_tail hrun hret hmod hrun' hret', rfl, rfl, fun i hi => ?_, fun i hi => ?_⟩
    · by_cases htail : 512 * (size / 512) ≤ i ∧ i < size
      · obtain ⟨j, rfl⟩ := Nat.exists_eq_add_of_le htail.1
        have hj : j < size % 512 := by omega
        rw [← Nat.add_assoc off]
        refine (memcpy_inside _ _ _ hj).trans ((htmp j ?_).trans ?_)
        · rw [transferred_of_pos Nat.one_pos]
          omega
        · rw [clusterByte, ← hsect]
          congr 1
          omega
      · -- a whole sector, or what is left of the only one
        have hi : i < transferred (size / 512) := by omega
        refine (memcpy_outside _ _ _ _ (by omega)).trans ?_
        exact (memcpy_inside _ _ _ hi).trans (hmem i hi)
    · refine (memcpy_outside _ _ _ _ (by omega)).trans ?_
      exact memcpy_outside _ _ _ _ (by omega)

/-- Clusters that follow one another are read as one. -/
theorem clusterByte_add {c : ℕ} (h : 0 ≤ mydata.dataBegin + c * mydata.clustSize) (q r : ℕ) :
    clusterByte dev mydata disk c (q * mydata.clustBytes + r) =
      clusterByte dev mydata disk (c + q) r := by
  unfold clusterByte clusterSect Fsdata.clustBytes
  congr 1
  push_cast
  have hmul : ((c : ℤ) + q) * mydata.clustSize = c * mydata.clustSize + q * mydata.clustSize := by
    ring
  have hsize : q * (512 * mydata.clustSize) = 512 * (q * mydata.clustSize) := by ring
  rw [hmul, hsize]
  have hcast : (q : ℤ) * mydata.clustSize = ((q * mydata.clustSize : ℕ) : ℤ) := by push_cast; ring
  rw [hcast]
  omega

end Clusters

/-! ## Files -/

section Files

variable {H : Type} (dev : BlockDev) (mydata : Fsdata) (disk : Disk)

/-- A file whose clusters are `cs`: the first one is in its directory entry, each entry of
    the FAT leads to the next one, and together they are long enough. -/
structure FileOn (dent : DirEntry) (cs : List ℕ) : Prop where
  first : dent.size ≠ 0 → cs.head? = some (dent.first mydata.fatsize)
  chain : cs.IsChain fun a b => fatValue dev mydata disk a = b
  number : ∀ c ∈ cs, 2 ≤ c ∧ c < 2 ^ 28
  volume : ∀ c ∈ cs, InVolume dev mydata c
  long : dent.size ≤ cs.length * mydata.clustBytes
  size : dent.size < 2 ^ 31

/-- Byte `i` of the clusters `cs`. -/
def chainByte (cs : List ℕ) (i : ℕ) : Byte :=
  clusterByte dev mydata disk (cs.getD (i / mydata.clustBytes) 0) (i % mydata.clustBytes)

variable {dev mydata disk}

theorem Volume.clustBytes_pos (h : Volume dev mydata) : 0 < mydata.clustBytes := by
  have := h.clustSize.1
  unfold Fsdata.clustBytes
  omega

theorem Volume.clustBytes_ge (h : Volume dev mydata) : 512 ≤ mydata.clustBytes := by
  have := h.clustSize.1
  unfold Fsdata.clustBytes
  omega

theorem Volume.clustBytes_lt (h : Volume dev mydata) : mydata.clustBytes < 2 ^ 25 := by
  have := h.clustSize.2
  unfold Fsdata.clustBytes
  omega

/-- The entry of a cluster that is not the last one. -/
theorem FileOn.next {dent : DirEntry} {cs : List ℕ} (h : FileOn dev mydata disk dent cs) {k c : ℕ}
    (hc : cs[k]? = some c) (hk : k + 1 < cs.length) :
    cs[k + 1]? = some (fatValue dev mydata disk c) := by
  obtain ⟨hlt, rfl⟩ := List.getElem?_eq_some_iff.mp hc
  rw [List.getElem?_eq_getElem hk]
  exact congrArg some (List.isChain_iff_getElem.mp h.chain k hk).symm

variable {dent : DirEntry} {cs : List ℕ}

/-- Clusters that follow a cluster of the chain one by one, counted from that cluster on. -/
theorem getElem?_run_succ {k c m : ℕ} (hk : cs[k]? = some c)
    (hrun : ∀ i ≤ m, cs[k + 1 + i]? = some (c + 1 + i)) :
    ∀ i ≤ m + 1, cs[k + i]? = some (c + i) := by
  intro i hi
  cases i with
  | zero => exact hk
  | succ i =>
    rw [show k + (i + 1) = k + 1 + i by omega, hrun i (by omega)]
    congr 1
    omega

/-- One round of the search for consecutive clusters: it goes on with the next cluster of the
    file, or that one lies elsewhere. -/
theorem consecutive_step (hdev : dev.Works disk) (hvol : Volume dev mydata)
    (h : FileOn dev mydata disk dent cs) {filesize k endclust actsize : ℕ} {s : St H}
    (hfile : filesize < 2 ^ 31) (hk : cs[k]? = some endclust) (hnext : k + 1 < cs.length)
    (hmore : actsize < filesize) (hs : Coherent dev mydata disk s) (fuel : ℕ) :
    ∃ s1, Coherent dev mydata disk s1 ∧ s1.buffer = s.buffer ∧
      (consecutive dev mydata filesize (fuel + 1) endclust actsize s =
          some (.ok (.getit endclust actsize), s1) ∨
        cs[k + 1]? = some (endclust + 1) ∧
          consecutive dev mydata filesize (fuel + 1) endclust actsize s =
            consecutive dev mydata filesize fuel (endclust + 1)
              (actsize + mydata.clustBytes) s1) := by
  have hsmall := hvol.clustBytes_lt
  have hclust := h.next hk hnext
  obtain ⟨hlow, hhigh⟩ := h.number _ (List.mem_of_getElem? hclust)
  obtain ⟨s1, hrun, hs1, hbuffer⟩ := getFatent_works hdev hvol.geometry
    (h.volume endclust (List.mem_of_getElem? hk)).fat hs
  generalize fatValue dev mydata disk endclust = newclust at *
  refine ⟨s1, hs1, hbuffer, ?_⟩
  have hpred : toU32 ((newclust : ℤ) - 1) = newclust - 1 := by
    unfold toU32
    omega
  rw [consecutive, if_pos hmore, Prog.bind_ok hrun, hpred]
  by_cases hgap : newclust - 1 ≠ endclust
  · -- the next cluster lies elsewhere
    refine .inl ?_
    rw [if_pos hgap]
    rfl
  · have heq : newclust = endclust + 1 := by omega
    have hsum : (actsize + mydata.clustBytes) % 2 ^ 32 = actsize + mydata.clustBytes :=
      Nat.mod_eq_of_lt (by omega)
    refine .inr ⟨heq ▸ hclust, ?_⟩
    rw [if_neg hgap, if_neg (by omega), hsum, heq]

/-- The search for consecutive clusters from `endclust`, cluster `k` of the file, ends `m`
    clusters further: at the end of what is to be read, or before a gap. -/
theorem consecutive_works (hdev : dev.Works disk) (hvol : Volume dev mydata)
    (h : FileOn dev mydata disk dent cs) {filesize : ℕ} (hfile : filesize < 2 ^ 31) (fuel : ℕ) :
    ∀ k endclust actsize (s : St H), cs[k]? = some endclust → cs.length ≤ k + fuel →
      filesize ≤ actsize + (cs.length - (k + 1)) * mydata.clustBytes →
      Coherent dev mydata disk s →
      ∃ m s', (∀ i ≤ m, cs[k + i]? = some (endclust + i)) ∧ Coherent dev mydata disk s' ∧
        s'.buffer = s.buffer ∧
        (filesize ≤ actsize + m * mydata.clustBytes ∧
            (m = 0 ∨ actsize + (m - 1) * mydata.clustBytes < filesize) ∧
            consecutive dev mydata filesize fuel endclust actsize s =
              some (.ok (.whole (endclust + m) (actsize + m * mydata.clustBytes)), s') ∨
          actsize + m * mydata.clustBytes < filesize ∧
            consecutive dev mydata filesize fuel endclust actsize s =
              some (.ok (.getit (endclust + m) (actsize + m * mydata.clustBytes)), s')) := by
  induction fuel with
  | zero =>
    intro k endclust actsize s hk hlen
    have hlt := (List.getElem?_eq_some_iff.mp hk).1
    omega
  | succ fuel ih =>
    intro k endclust actsize s hk hlen hlong hs
    have hself : ∀ i ≤ 0, cs[k + i]? = some (endclust + i) := by
      intro i hi
      rw [Nat.le_zero.mp hi]
      exact hk
    by_cases hmore : actsize < filesize
    · have hnext : k + 1 < cs.length := by
        by_contra hend
        rw [Nat.sub_eq_zero_of_le (by omega), Nat.zero_mul] at hlong
        omega
      obtain ⟨s1, hs1, hbuffer, hgap | ⟨hclust, hstep⟩⟩ :=
        consecutive_step hdev hvol h hfile hk hnext hmore hs fuel
      · refine ⟨0, s1, hself, hs1, hbuffer, .inr ⟨by omega, ?_⟩⟩
        rw [hgap, Nat.zero_mul]
        rfl
      · have hrest : (cs.length - (k + 1)) * mydata.clustBytes =
            mydata.clustBytes + (cs.length - (k + 1 + 1)) * mydata.clustBytes := by
          rw [show cs.length - (k + 1) = cs.length - (k + 1 + 1) + 1 by omega, Nat.succ_mul,
            Nat.add_comm]
        obtain ⟨m, s', hrunof, hs', hbuffer', hends⟩ := ih (k + 1) (endclust + 1)
          (actsize + mydata.clustBytes) s1 hclust (by omega) (by omega) hs1
        have hmul : (m + 1) * mydata.clustBytes = mydata.clustBytes + m * mydata.clustBytes := by
          rw [Nat.succ_mul, Nat.add_comm]
        refine ⟨m + 1, s', getElem?_run_succ hk hrunof, hs', hbuffer'.trans hbuffer, ?_⟩
        rw [hstep, hmul, ← Nat.add_assoc actsize,
          show endclust + (m + 1) = endclust + 1 + m by omega]
        rcases hends with ⟨hfull, hpart, hret⟩ | ⟨hpart, hret⟩
        · refine .inl ⟨hfull, .inr ?_, hret⟩
          rw [Nat.add_sub_cancel]
          rcases hpart with rfl | hpart
          · omega
          · rcases Nat.eq_zero_or_pos m with rfl | hpos
            · omega
            · have hm : m * mydata.clustBytes =
                  mydata.clustBytes + (m - 1) * mydata.clustBytes := by
                rw [← Nat.sub_add_cancel hpos, Nat.succ_mul, Nat.add_comm, Nat.add_sub_cancel]
              omega
        · exact .inr ⟨hpart, hret⟩
    · refine ⟨0, s, hself, hs, rfl, .inl ⟨by omega, .inl rfl, ?_⟩⟩
      unfold consecutive
      rw [if_neg hmore, Nat.zero_mul]
      rfl

/-- The clusters from position `p` on, as far as they are consecutive. -/
theorem clusterByte_run (h : FileOn dev mydata disk dent cs) (hvol : Volume dev mydata)
    {p cur m : ℕ} (hrun : ∀ i ≤ m, cs[p + i]? = some (cur + i)) {i : ℕ}
    (hi : i < (m + 1) * mydata.clustBytes) :
    clusterByte dev mydata disk cur i = chainByte dev mydata disk cs (p * mydata.clustBytes + i) := by
  have hpos := hvol.clustBytes_pos
  have hq : i / mydata.clustBytes < m + 1 := Nat.div_lt_of_lt_mul (by rwa [Nat.mul_comm])
  have hcur := h.volume cur (List.mem_of_getElem? (hrun 0 (Nat.zero_le m)))
  have hsplit : i = i / mydata.clustBytes * mydata.clustBytes + i % mydata.clustBytes :=
    (Nat.div_add_mod' i _).symm
  have hget : cs.getD (p + i / mydata.clustBytes) 0 = cur + i / mydata.clustBytes := by
    rw [List.getD_eq_getElem?_getD, hrun _ (by omega), Option.getD_some]
  unfold chainByte
  rw [Nat.mul_comm p, Nat.mul_add_div hpos, Nat.mul_add_mod, hget]
  conv_lhs => rw [hsplit]
  exact clusterByte_add hcur.sect _ _

/-- The read of `size` bytes of a run of clusters, of one sector at least. -/
theorem getCluster_run (hdev : dev.Works disk) (h : FileOn dev mydata disk dent cs)
    (hvol : Volume dev mydata) {p cur m : ℕ} (hrun : ∀ i ≤ m, cs[p + i]? = some (cur + i))
    {size : ℕ} (hsize : size ≤ (m + 1) * mydata.clustBytes) (off : ℕ) (s : St H) :
    ∃ s', getCluster dev mydata cur off size s = some (.ok true, s') ∧
      Wrote off (max size 512) (fun i => chainByte dev mydata disk cs (p * mydata.clustBytes + i))
        s s' := by
  have hcur := h.volume cur (List.mem_of_getElem? (hrun 0 (Nat.zero_le m)))
  have hlast := (h.volume (cur + m) (List.mem_of_getElem? (hrun m le_rfl))).last
  have hnum := h.number cur (List.mem_of_getElem? (hrun 0 (Nat.zero_le m)))
  have hclust := hvol.clustSize.1
  have hsect : clusterSect dev mydata (cur + m) =
      clusterSect dev mydata cur + ((m * mydata.clustSize : ℕ) : ℤ) := by
    unfold clusterSect
    push_cast
    ring
  have hbytes : (m + 1) * mydata.clustBytes = 512 * (m * mydata.clustSize + mydata.clustSize) := by
    unfold Fsdata.clustBytes
    ring
  rw [hsect] at hlast
  have hsector : 512 ≤ (m + 1) * mydata.clustBytes := by omega
  obtain ⟨s', hret, hwrote⟩ := getCluster_works hdev off (by omega : 0 < cur) hcur.sect (by omega)
    (show clusterSect dev mydata cur + (((size + 511) / 512 : ℕ) : ℤ) ≤ 2 ^ 32 by omega) s
  refine ⟨s', hret, hwrote.fatbuf, hwrote.fatbufnum, fun i hi => ?_, hwrote.outside⟩
  rw [hwrote.inside i hi]
  exact clusterByte_run h hvol hrun (by omega)

/-- A round of the loop that reaches the end. -/
theorem contentsLoop_whole {runFuel fuel cur filesize off got endclust actsize n m : ℕ}
    {s s1 s2 s3 : St H}
    (hret : consecutive dev mydata filesize runFuel cur mydata.clustBytes s =
      some (.ok (.whole endclust actsize), s1))
    (hact : toU32 ((actsize : ℤ) - mydata.clustBytes) = n)
    (hread : getCluster dev mydata cur off n s1 = some (.ok true, s2))
    (hrest : toU32 ((filesize : ℤ) - n) = m)
    (hread' : getCluster dev mydata endclust (off + n) m s2 = some (.ok true, s3)) :
    contentsLoop dev mydata runFuel (fuel + 1) cur filesize off got s =
      some (.ok (int32 ((got + n + m : ℕ) : ℤ)), s3) := by
  subst hact hrest
  rw [contentsLoop, Prog.bind_ok hret]
  simp only
  rw [Prog.bind_ok hread, if_pos rfl, Prog.bind_ok hread', if_pos rfl, Prog.pure_apply]
  push_cast
  rfl

/-- A round that stops before a gap and goes on behind it. -/
theorem contentsLoop_getit {runFuel fuel cur filesize off got endclust actsize v : ℕ}
    {s s1 s2 s3 : St H}
    (hret : consecutive dev mydata filesize runFuel cur mydata.clustBytes s =
      some (.ok (.getit endclust actsize), s1))
    (hread : getCluster dev mydata cur off actsize s1 = some (.ok true, s2))
    (hnext : getFatent dev mydata endclust s2 = some (.ok v, s3))
    (hv : ¬ (v ≤ 1 ∨ 0xfffffff0 ≤ v)) :
    contentsLoop dev mydata runFuel (fuel + 1) cur filesize off got s =
      contentsLoop dev mydata runFuel fuel v (filesize - actsize) (off + actsize) (got + actsize)
        s3 := by
  rw [contentsLoop, Prog.bind_ok hret]
  simp only
  rw [Prog.bind_ok hread, if_pos rfl, Prog.bind_ok hnext, if_neg hv]

/-- The bytes of a file from `low` up to `high` are stored, and no others. -/
structure Stored (dev : BlockDev) (mydata : Fsdata) (disk : Disk) (cs : List ℕ) (low high : ℕ)
    (s s' : St H) : Prop where
  inside : ∀ i, low ≤ i → i < high → s'.buffer i = chainByte dev mydata disk cs i
  outside : ∀ i, i < low ∨ high ≤ i → s'.buffer i = s.buffer i

theorem Wrote.stored {low size : ℕ} {s s' : St H}
    (h : Wrote low size (fun i => chainByte dev mydata disk cs (low + i)) s s') :
    Stored dev mydata disk cs low (low + size) s s' where
  inside i hlow hi := by
    obtain ⟨j, rfl⟩ := Nat.exists_eq_add_of_le hlow
    exact h.inside j (by omega)
  outside := h.outside

/-- Steps before that leave the buffer of the caller alone. -/
theorem Stored.of_eq {low high : ℕ} {s s1 s' : St H} (hbuffer : s1.buffer = s.buffer)
    (h : Stored dev mydata disk cs low high s1 s') : Stored dev mydata disk cs low high s s' where
  inside := h.inside
  outside i hi := by rw [h.outside i hi, hbuffer]

/-- Two pieces that touch or overlap. -/
theorem Stored.trans {low mid mid' high : ℕ} {s s1 s' : St H}
    (h : Stored dev mydata disk cs low mid s s1) (h' : Stored dev mydata disk cs mid' high s1 s')
    (hlow : low ≤ mid') (hmid : mid' ≤ mid) (hhigh : mid ≤ high) :
    Stored dev mydata disk cs low high s s' where
  inside i hi hlt := by
    by_cases hsecond : mid' ≤ i
    · exact h'.inside i hsecond hlt
    · rw [h'.outside i (by omega)]
      exact h.inside i hi (by omega)
  outside i hi := by rw [h'.outside i (by omega), h.outside i (by omega)]

/-- Where the bytes end that are stored when `n` bytes are read: the last read, of what is left
    in the last cluster, is of one sector at least. -/
def storedEnd (mydata : Fsdata) (n : ℕ) : ℕ :=
  max n ((n - 1) / mydata.clustBytes * mydata.clustBytes + 512)

theorem storedEnd_of_last {k n : ℕ} (hlow : k * mydata.clustBytes < n)
    (hhigh : n ≤ (k + 1) * mydata.clustBytes) :
    storedEnd mydata n = k * mydata.clustBytes + max (n - k * mydata.clustBytes) 512 := by
  have hdiv : (n - 1) / mydata.clustBytes = k := Nat.div_eq_of_lt_le (by omega) (by omega)
  rw [storedEnd, hdiv]
  omega

/-- The last round: the whole clusters of its run, then what is left of the last one. -/
theorem contentsLoop_last (hdev : dev.Works disk) (hvol : Volume dev mydata)
    (h : FileOn dev mydata disk dent cs) {n : ℕ} (hn : n ≤ dent.size) {runFuel fuel p cur m : ℕ}
    {s s1 : St H} (hrun : ∀ i ≤ m, cs[p + i]? = some (cur + i))
    (hlow : p * mydata.clustBytes + m * mydata.clustBytes < n)
    (hhigh : n ≤ p * mydata.clustBytes + (mydata.clustBytes + m * mydata.clustBytes))
    (hbuffer : s1.buffer = s.buffer)
    (hret : consecutive dev mydata (n - p * mydata.clustBytes) runFuel cur mydata.clustBytes s =
      some (.ok (.whole (cur + m) (mydata.clustBytes + m * mydata.clustBytes)), s1)) :
    ∃ s', contentsLoop dev mydata runFuel (fuel + 1) cur (n - p * mydata.clustBytes)
        (p * mydata.clustBytes) (p * mydata.clustBytes) s = some (.ok (n : ℤ), s') ∧
      Stored dev mydata disk cs (p * mydata.clustBytes) (storedEnd mydata n) s s' := by
  have hsmall := hvol.clustBytes_lt
  have hsize := h.size
  have hmul : (m + 1) * mydata.clustBytes = mydata.clustBytes + m * mydata.clustBytes := by
    rw [Nat.succ_mul, Nat.add_comm]
  have hadd : (p + m) * mydata.clustBytes = p * mydata.clustBytes + m * mydata.clustBytes :=
    Nat.add_mul _ _ _
  have hadd' : (p + m + 1) * mydata.clustBytes =
      p * mydata.clustBytes + (mydata.clustBytes + m * mydata.clustBytes) := by
    rw [Nat.add_assoc, Nat.add_mul, hmul]
  have hstored : storedEnd mydata n = p * mydata.clustBytes + m * mydata.clustBytes +
      max (n - p * mydata.clustBytes - m * mydata.clustBytes) 512 := by
    rw [storedEnd_of_last (k := p + m) (by omega) (by omega), hadd, Nat.sub_sub]
  have hend : ∀ i ≤ 0, cs[p + m + i]? = some (cur + m + i) := by
    intro i hi
    rw [Nat.le_zero.mp hi]
    exact hrun m le_rfl
  obtain ⟨s2, hread, hw⟩ := getCluster_run hdev h hvol hrun
    (show m * mydata.clustBytes ≤ (m + 1) * mydata.clustBytes by omega)
    (p * mydata.clustBytes) s1
  obtain ⟨s3, hread', hw'⟩ := getCluster_run hdev h hvol hend
    (show n - p * mydata.clustBytes - m * mydata.clustBytes ≤ (0 + 1) * mydata.clustBytes by
      omega) (p * mydata.clustBytes + m * mydata.clustBytes) s2
  rw [hadd] at hw'
  have hact : toU32 (((mydata.clustBytes + m * mydata.clustBytes : ℕ) : ℤ) -
      mydata.clustBytes) = m * mydata.clustBytes := by
    unfold toU32
    omega
  have hrest : toU32 (((n - p * mydata.clustBytes : ℕ) : ℤ) -
      ((m * mydata.clustBytes : ℕ) : ℤ)) =
        n - p * mydata.clustBytes - m * mydata.clustBytes := by
    unfold toU32
    omega
  have hsum : p * mydata.clustBytes + m * mydata.clustBytes +
      (n - p * mydata.clustBytes - m * mydata.clustBytes) = n := by omega
  have hval : int32 (n : ℤ) = n := int32_natCast (by omega)
  refine ⟨s3, ?_, Stored.of_eq hbuffer ?_⟩
  · rw [contentsLoop_whole hret hact hread hrest hread', hsum, hval]
  · -- the first read is of one sector even without a whole cluster
    have hwhole : m = 0 ∨ 512 ≤ m * mydata.clustBytes := by
      rcases Nat.eq_zero_or_pos m with hm | hm
      · exact .inl hm
      · exact .inr (hvol.clustBytes_ge.trans (Nat.le_mul_of_pos_left _ hm))
    have hcover : max (m * mydata.clustBytes) 512 ≤ m * mydata.clustBytes +
        max (n - p * mydata.clustBytes - m * mydata.clustBytes) 512 := by omega
    rw [hstored]
    exact hw.stored.trans hw'.stored (by omega) (by omega) (by omega)

/-- The loop from cluster `p` of the file on, whose bytes before that have been delivered. -/
theorem contentsLoop_works (hdev : dev.Works disk) (hvol : Volume dev mydata)
    (h : FileOn dev mydata disk dent cs) {n : ℕ} (hn : n ≤ dent.size) {runFuel : ℕ}
    (hfuel : cs.length ≤ runFuel) (fuel : ℕ) :
    ∀ p cur (s : St H), cs[p]? = some cur → cs.length ≤ p + fuel → p * mydata.clustBytes < n →
      Coherent dev mydata disk s →
      ∃ s', contentsLoop dev mydata runFuel fuel cur (n - p * mydata.clustBytes)
          (p * mydata.clustBytes) (p * mydata.clustBytes) s = some (.ok (n : ℤ), s') ∧
        Stored dev mydata disk cs (p * mydata.clustBytes) (storedEnd mydata n) s s' := by
  have hlong := h.long
  have hge := hvol.clustBytes_ge
  have hsize := h.size
  induction fuel with
  | zero =>
    intro p cur s hp hlen
    have hlt := (List.getElem?_eq_some_iff.mp hp).1
    omega
  | succ fuel ih =>
    intro p cur s hp hlen hleft hs
    have hlt := (List.getElem?_eq_some_iff.mp hp).1
    have hall : cs.length * mydata.clustBytes =
        p * mydata.clustBytes + (mydata.clustBytes +
          (cs.length - (p + 1)) * mydata.clustBytes) := by
      have hcount : cs.length = p + (1 + (cs.length - (p + 1))) := by omega
      conv_lhs => rw [hcount, Nat.add_mul, Nat.add_mul, Nat.one_mul]
    obtain ⟨m, s1, hrun, hs1, hbuffer, hends⟩ := consecutive_works hdev hvol h
      (show n - p * mydata.clustBytes < 2 ^ 31 by omega) runFuel p cur mydata.clustBytes s hp
      (by omega) (by omega) hs
    have hmul : (m + 1) * mydata.clustBytes = mydata.clustBytes + m * mydata.clustBytes := by
      rw [Nat.succ_mul, Nat.add_comm]
    rcases hends with ⟨hfull, hpart, hret⟩ | ⟨hpart, hret⟩
    · have hlow : m * mydata.clustBytes < n - p * mydata.clustBytes := by
        rcases hpart with rfl | hpart
        · omega
        · rcases Nat.eq_zero_or_pos m with rfl | hpos
          · omega
          · have hm : m * mydata.clustBytes =
                mydata.clustBytes + (m - 1) * mydata.clustBytes := by
              rw [← Nat.sub_add_cancel hpos, Nat.succ_mul, Nat.add_comm, Nat.add_sub_cancel]
            omega
      exact contentsLoop_last hdev hvol h hn hrun (by omega) (by omega) hbuffer hret
    · -- a run before a gap
      have hnext : p + m + 1 < cs.length := by
        by_contra hend
        have hle : cs.length * mydata.clustBytes ≤ (p + (m + 1)) * mydata.clustBytes :=
          Nat.mul_le_mul_right _ (by omega)
        rw [Nat.add_mul, hmul] at hle
        omega
      have hclust := h.next (hrun m le_rfl) hnext
      have hnum := h.number _ (List.mem_of_getElem? hclust)
      obtain ⟨s2, hread, hw⟩ := getCluster_run hdev h hvol hrun
        (show mydata.clustBytes + m * mydata.clustBytes ≤ (m + 1) * mydata.clustBytes by omega)
        (p * mydata.clustBytes) s1
      obtain ⟨s3, hentry, hs3, hbuffer3⟩ := getFatent_works hdev hvol.geometry
        (h.volume _ (List.mem_of_getElem? (hrun m le_rfl))).fat (hw.coherent hs1)
      have hoff : (p + m + 1) * mydata.clustBytes =
          p * mydata.clustBytes + (mydata.clustBytes + m * mydata.clustBytes) := by
        rw [Nat.add_assoc, Nat.add_mul, hmul]
      obtain ⟨s', hrest, hstored⟩ := ih (p + m + 1) _ s3 hclust (by omega) (by omega) hs3
      refine ⟨s', ?_, Stored.of_eq hbuffer ?_⟩
      · rw [contentsLoop_getit hret hread hentry (by omega), Nat.sub_sub, ← hoff]
        exact hrest
      · have hend : n ≤ storedEnd mydata n := le_max_left _ _
        exact hw.stored.trans (Stored.of_eq hbuffer3 hstored) (by omega) (by omega) (by omega)

/-- The number of bytes asked for; a `maxsize` of 0 is no limit. -/
def wanted (dent : DirEntry) (maxsize : ℕ) : ℕ :=
  if maxsize = 0 then dent.size else min dent.size maxsize

theorem wanted_eq (dent : DirEntry) (maxsize : ℕ) :
    (if 0 < maxsize ∧ maxsize < dent.size then maxsize else dent.size) = wanted dent maxsize := by
  unfold wanted
  split_ifs <;> omega

theorem wanted_le (dent : DirEntry) (maxsize : ℕ) : wanted dent maxsize ≤ dent.size := by
  unfold wanted
  split_ifs
  · exact le_rfl
  · exact Nat.min_le_left _ _

/-- The bytes of the clusters, one cluster after the other. -/
theorem getElem_flatMap_clusterBytes (hvol : Volume dev mydata) {i : ℕ}
    (hi : i < cs.length * mydata.clustBytes) :
    (cs.flatMap (clusterBytes dev mydata disk))[i]? = some (chainByte dev mydata disk cs i) := by
  have hpos := hvol.clustBytes_pos
  induction cs generalizing i with
  | nil => exact absurd hi (by simp)
  | cons c cs ih =>
    have hlen : (clusterBytes dev mydata disk c).length = mydata.clustBytes := by
      unfold clusterBytes
      rw [List.length_map, List.length_range]
    rw [List.flatMap_cons]
    by_cases hfirst : i < mydata.clustBytes
    · rw [List.getElem?_append_left (by omega), chainByte, Nat.div_eq_of_lt hfirst,
        Nat.mod_eq_of_lt hfirst, List.getD_cons_zero, clusterBytes, List.getElem?_map,
        List.getElem?_range hfirst, Option.map_some]
    · obtain ⟨j, rfl⟩ := Nat.exists_eq_add_of_le (Nat.le_of_not_lt hfirst)
      have hj : j < cs.length * mydata.clustBytes := by
        rw [List.length_cons, Nat.succ_mul] at hi
        omega
      rw [List.getElem?_append_right (by omega), hlen, Nat.add_sub_cancel_left, ih hj]
      unfold chainByte
      rw [Nat.add_div_left _ hpos, Nat.add_mod_left, List.getD_cons_succ]

theorem take_flatMap_clusterBytes (hvol : Volume dev mydata) {n : ℕ}
    (hn : n ≤ cs.length * mydata.clustBytes) :
    (cs.flatMap (clusterBytes dev mydata disk)).take n =
      (List.range n).map (chainByte dev mydata disk cs) := by
  apply List.ext_getElem?
  intro i
  by_cases hi : i < n
  · rw [List.getElem?_take_of_lt hi, getElem_flatMap_clusterBytes hvol (by omega),
      List.getElem?_map, List.getElem?_range hi, Option.map_some]
  · rw [List.getElem?_eq_none (by rw [List.length_take]; omega),
      List.getElem?_eq_none (by rw [List.length_map, List.length_range]; omega)]

/-- Of an empty file a sector is stored all the same. -/
theorem contentsLoop_zero (hdev : dev.Works disk) {runFuel fuel : ℕ} (hrun : 0 < runFuel)
    (cur : ℕ) (s : St H) :
    ∃ s', contentsLoop dev mydata runFuel (fuel + 1) cur 0 0 0 s = some (.ok 0, s') ∧
      (∀ i < 512, s'.buffer i =
        disk (512 * ((startSect mydata cur + dev.partOffset) % 2 ^ 32) + i)) ∧
      ∀ i, 512 ≤ i → s'.buffer i = s.buffer i := by
  obtain ⟨runFuel, rfl⟩ := Nat.exists_eq_succ_of_ne_zero hrun.ne'
  have hret : consecutive dev mydata 0 (runFuel + 1) cur mydata.clustBytes s =
      some (.ok (.whole cur mydata.clustBytes), s) := by
    rw [consecutive, if_neg (Nat.not_lt_zero _), Prog.pure_apply]
  have hact : toU32 ((mydata.clustBytes : ℤ) - mydata.clustBytes) = 0 := by
    rw [Int.sub_self]
    rfl
  have hrest : toU32 (((0 : ℕ) : ℤ) - ((0 : ℕ) : ℤ)) = 0 := rfl
  have hsum : int32 ((0 + 0 + 0 : ℕ) : ℤ) = 0 := rfl
  obtain ⟨s1, hread, hw⟩ := getCluster_zero mydata hdev cur 0 s
  obtain ⟨s2, hread', hw'⟩ := getCluster_zero mydata hdev cur (0 + 0) s1
  refine ⟨s2, ?_, fun i hi => ?_, fun i hi => ?_⟩
  · rw [contentsLoop_whole hret hact hread hrest hread', hsum]
  · have hbyte := hw'.inside i hi
    rwa [Nat.add_zero, Nat.zero_add] at hbyte
  · rw [hw'.outside i (.inr (by omega)), hw.outside i (.inr (by omega))]

/-- Byte `i` of what is stored when `n` bytes of a file are read: of an empty one it is the
    sector that the number in its directory entry stands for. -/
def storedByte (dev : BlockDev) (mydata : Fsdata) (disk : Disk) (dent : DirEntry) (cs : List ℕ)
    (n i : ℕ) : Byte :=
  if n = 0 then
    disk (512 * ((startSect mydata (dent.first mydata.fatsize) + dev.partOffset) % 2 ^ 32) + i)
  else chainByte dev mydata disk cs i

/-- All that `get_contents` stores. -/
theorem getContents_stores (hdev : dev.Works disk) (hvol : Volume dev mydata)
    (h : FileOn dev mydata disk dent cs) {s : St H} (hs : Coherent dev mydata disk s)
    (maxsize : ℕ) {fuel : ℕ} (hfuel : cs.length < fuel) :
    ∃ s', getContents dev mydata fuel dent maxsize s = some (.ok (wanted dent maxsize : ℤ), s') ∧
      (∀ i < storedEnd mydata (wanted dent maxsize),
        s'.buffer i = storedByte dev mydata disk dent cs (wanted dent maxsize) i) ∧
      ∀ i, storedEnd mydata (wanted dent maxsize) ≤ i → s'.buffer i = s.buffer i := by
  have hle := wanted_le dent maxsize
  unfold getContents
  rw [wanted_eq]
  generalize wanted dent maxsize = n at hle ⊢
  rcases Nat.eq_zero_or_pos n with rfl | hpos
  · obtain ⟨fuel, rfl⟩ := Nat.exists_eq_succ_of_ne_zero (Nat.zero_lt_of_lt hfuel).ne'
    obtain ⟨s', hret, hin, hout⟩ := contentsLoop_zero hdev (Nat.succ_pos fuel)
      (dent.first mydata.fatsize) s
    have hend : storedEnd mydata 0 = 512 := by
      rw [storedEnd, Nat.zero_sub, Nat.zero_div, Nat.zero_mul]
      rfl
    rw [hend]
    exact ⟨s', hret, fun i hi => (hin i hi).trans (if_pos rfl).symm, hout⟩
  · have hfirst : cs[0]? = some (dent.first mydata.fatsize) := by
      rw [← List.head?_eq_getElem?]
      exact h.first (by omega)
    obtain ⟨s', hret, hstored⟩ := contentsLoop_works hdev hvol h hle hfuel.le fuel 0 _ s hfirst
      (by omega) (by omega) hs
    rw [Nat.zero_mul, Nat.sub_zero] at hret
    refine ⟨s', hret, fun i hi => ?_, fun i hi => hstored.outside i (.inr hi)⟩
    rw [storedByte, if_neg hpos.ne']
    exact hstored.inside i (by omega) hi

/-- The bytes asked for are the first ones of the clusters. -/
theorem bytesAt_of_stored (hvol : Volume dev mydata) (h : FileOn dev mydata disk dent cs)
    {maxsize : ℕ} {mem : Mem}
    (hmem : ∀ i < storedEnd mydata (wanted dent maxsize),
      mem i = storedByte dev mydata disk dent cs (wanted dent maxsize) i) :
    bytesAt mem 0 (wanted dent maxsize) =
      (cs.flatMap (clusterBytes dev mydata disk)).take (wanted dent maxsize) := by
  rw [take_flatMap_clusterBytes hvol ((wanted_le dent maxsize).trans h.long)]
  unfold bytesAt
  apply List.map_congr_left
  intro i hi
  have hlt := List.mem_range.mp hi
  rw [Nat.zero_add, hmem i (hlt.trans_le (le_max_left _ _)), storedByte, if_neg (by omega)]

theorem contents_of_file (hdev : dev.Works disk) (hvol : Volume dev mydata)
    (h : FileOn dev mydata disk dent cs) {s : St H} (hs : Coherent dev mydata disk s)
    (maxsize : ℕ) {fuel : ℕ} (hfuel : cs.length < fuel) :
    ∃ s', getContents dev mydata fuel dent maxsize s = some (.ok (wanted dent maxsize : ℤ), s') ∧
      bytesAt s'.buffer 0 (wanted dent maxsize) =
        (cs.flatMap (clusterBytes dev mydata disk)).take (wanted dent maxsize) ∧
      ∀ i, storedEnd mydata (wanted dent maxsize) ≤ i → s'.buffer i = s.buffer i := by
  obtain ⟨s', hret, hin, hout⟩ := getContents_stores hdev hvol h hs maxsize hfuel
  exact ⟨s', hret, bytesAt_of_stored hvol h hin, hout⟩

/-! ## Files that are read exactly -/

/-- The file is read, whole or up to the limit, and whatever the buffer of the caller holds
    nothing behind those bytes is written. -/
def ReadsExactly (dev : BlockDev) (mydata : Fsdata) (disk : Disk) (dent : DirEntry)
    (cs : List ℕ) (maxsize fuel : ℕ) (s : St H) : Prop :=
  ∀ buffer : Mem, ∃ s', getContents dev mydata fuel dent maxsize { s with buffer := buffer } =
      some (.ok (wanted dent maxsize : ℤ), s') ∧
    bytesAt s'.buffer 0 (wanted dent maxsize) =
      (cs.flatMap (clusterBytes dev mydata disk)).take (wanted dent maxsize) ∧
    ∀ i, wanted dent maxsize ≤ i → s'.buffer i = buffer i

/-- Of `n` bytes at least a sector lies in the last cluster. -/
def EndsInSector (mydata : Fsdata) (n : ℕ) : Prop :=
  0 < n ∧ (n % mydata.clustBytes = 0 ∨ 512 ≤ n % mydata.clustBytes)

instance (mydata : Fsdata) (n : ℕ) : Decidable (EndsInSector mydata n) :=
  inferInstanceAs (Decidable (_ ∧ _))

/-- Nothing is stored behind the bytes asked for. -/
theorem storedEnd_le_iff (hvol : Volume dev mydata) (n : ℕ) :
    storedEnd mydata n ≤ n ↔ EndsInSector mydata n := by
  have hge := hvol.clustBytes_ge
  unfold EndsInSector
  rcases Nat.eq_zero_or_pos n with rfl | hpos
  · unfold storedEnd
    omega
  · have hdiv := Nat.div_add_mod' (n - 1) mydata.clustBytes
    have hmod := Nat.mod_lt (n - 1) (Nat.zero_lt_of_lt hge)
    unfold storedEnd
    generalize (n - 1) % mydata.clustBytes = r at hdiv hmod
    have hn : n = r + 1 + (n - 1) / mydata.clustBytes * mydata.clustBytes := by omega
    have hrest : n % mydata.clustBytes = (r + 1) % mydata.clustBytes := by
      conv_lhs => rw [hn, Nat.add_mul_mod_self_right]
    rw [hrest]
    rcases Nat.lt_or_ge (r + 1) mydata.clustBytes with hlt | hfull
    · rw [Nat.mod_eq_of_lt hlt]
      omega
    · have heq : r + 1 = mydata.clustBytes := by omega
      rw [heq, Nat.mod_self]
      omega

/-- A file whose last part is shorter than a sector is not read exactly: the byte behind it is
    the next one of the sector. -/
theorem not_readsExactly (hdev : dev.Works disk) (hvol : Volume dev mydata)
    (h : FileOn dev mydata disk dent cs) {s : St H} (hs : Coherent dev mydata disk s)
    {maxsize fuel : ℕ} (hfuel : cs.length < fuel)
    (hends : ¬ EndsInSector mydata (wanted dent maxsize)) :
    ¬ ReadsExactly dev mydata disk dent cs maxsize fuel s := by
  intro hexact
  have hlt : wanted dent maxsize < storedEnd mydata (wanted dent maxsize) :=
    not_le.mp fun hle => hends ((storedEnd_le_iff hvol _).mp hle)
  let byte := storedByte dev mydata disk dent cs (wanted dent maxsize) (wanted dent maxsize)
  obtain ⟨s', hret, -, hkept⟩ := hexact fun _ => if byte = 0 then 1 else 0
  obtain ⟨s'', hret', hin, -⟩ := getContents_stores hdev hvol h
    (s := { s with buffer := fun _ => if byte = 0 then 1 else 0 }) hs maxsize hfuel
  obtain ⟨-, rfl⟩ := Prod.mk.inj (Option.some.inj (hret.symm.trans hret'))
  have hbyte : byte = if byte = 0 then 1 else 0 := (hin _ hlt).symm.trans (hkept _ le_rfl)
  split_ifs at hbyte with hzero
  · rw [hzero] at hbyte
    exact absurd hbyte (by decide)
  · exact hzero hbyte

end Files

/-! ### An example -/

/-- Cluster 2 leads to cluster 3 and that one to cluster 5. -/
def smallDisk : Disk := fun i =>
  if i = 515 then 0x03 else if i = 516 then 0x50 else if i = 517 then 0 else UInt8.ofNat (i / 512)

/-- The directory entry of a file in these clusters. -/
def smallFile : DirEntry := ⟨[], [], 0, 0, 2, 1300⟩

theorem volume_oneSector : Volume (cardDev smallDisk) (oneSector 12) where
  geometry := geometry_oneSector (.inl rfl) _
  clustSize := show 0 < 1 ∧ 1 < 2 ^ 16 by decide

theorem fileOn_small :
    FileOn (cardDev smallDisk) (oneSector 12) smallDisk smallFile [2, 3, 5] where
  first _ := rfl
  chain := by decide
  number := by decide
  volume := by
    intro c hc
    rw [List.mem_cons, List.mem_cons, List.mem_singleton] at hc
    rcases hc with rfl | rfl | rfl
    all_goals exact ⟨by decide, by decide, by decide⟩
  long := by decide
  size := by decide

/-- A file of 100 bytes. -/
def shortFile : DirEntry := ⟨[], [], 0, 0, 2, 100⟩

theorem fileOn_short : FileOn (cardDev smallDisk) (oneSector 12) smallDisk shortFile [2] where
  first _ := rfl
  chain := .singleton 2
  number := by decide
  volume := by
    intro c hc
    obtain rfl := List.mem_singleton.mp hc
    exact ⟨by decide, by decide, by decide⟩
  long := by decide
  size := by decide

end SmartQ.UBoot.Fat
