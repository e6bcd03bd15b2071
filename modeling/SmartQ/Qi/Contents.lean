import SmartQ.Qi.Volume

/-!
# Reading parts of files

A part of a file is read into an object in memory, on a device that works. What becomes
of the read is decided by the block map of the file and by what is left of the pool.

* `ext2fsReadFile_eq`: the bytes of the file, and how far the stores go.
* `readObject_eq`, `readObject_corrupt`, `readObject_outOfPool`: the three ways a read
  into an object ends.
-/

namespace SmartQ.Qi

open SmartQ.Lib

namespace Volume

variable (v : Volume)

/-- Byte `q` of a file whose blocks have `2 ^ l` sectors. -/
def byte (node : Node) (l q : ℕ) : Byte :=
  Ext2.contents (v.blockMap node (512 * 2 ^ l)) v.disk (512 * 2 ^ l) q

/-- The `n` bytes of the file from byte `p` on. -/
def bytes (node : Node) (l p n : ℕ) : List Byte :=
  (List.range n).map fun j => v.byte node l (p + j)

/-- The first `e` blocks of a file can be looked up, those that are no holes lie in the
    partition, and no two are the same. -/
structure Blocks (node : Node) (l e : ℕ) : Prop where
  mapped : ∀ i < e, v.Mapped node l i
  placed : ∀ i < e, v.blockMap node (512 * 2 ^ l) i ≠ 0 →
    v.Placed l (v.blockMap node (512 * 2 ^ l) i)
  distinct : ∀ i j, i < j → j < e → v.blockMap node (512 * 2 ^ l) i ≠ 0 →
    v.blockMap node (512 * 2 ^ l) i ≠ v.blockMap node (512 * 2 ^ l) j

/-- The holes that a read of `n` bytes at `p` zero fills end within an object of `m`
    bytes. -/
def Fits (node : Node) (l p n m : ℕ) : Prop :=
  Ext2.HolesEnd (512 * 2 ^ l) p (v.blockMap node (512 * 2 ^ l)) m
    ((p + n - 1) / (512 * 2 ^ l) + 1)

instance (node : Node) (l p n m : ℕ) : Decidable (v.Fits node l p n m) := by
  unfold Fits Ext2.HolesEnd
  infer_instance

end Volume

theorem Volume.length_bytes (v : Volume) (node : Node) (l p n : ℕ) :
    (v.bytes node l p n).length = n := by
  simp [Volume.bytes]

theorem Volume.byteAt_bytes {v : Volume} {node : Node} {l p n j : ℕ} (hj : j < n) :
    byteAt (v.bytes node l p n) j = v.byte node l (p + j) := by
  rw [byteAt_of_lt (by rwa [Volume.length_bytes])]
  simp [Volume.bytes]

section Works

variable {env : Env} {extent : ℕ} {k : KernelSource} {node : Node} {l : ℕ} {s : St}

/-- Of the tables that are needed for block `i`, those that take memory. -/
def tables (l i : ℕ) (s : St) : ℕ :=
  (if Needs (512 * 2 ^ l) i .indir1 then tableSpare l .indir1 s else 0) +
    if Needs (512 * 2 ^ l) i .indir2 then tableSpare l .indir2 s else 0

theorem Advances.pool_eq {i c : ℕ} {s' : St}
    (h : Advances env k l (Needs (512 * 2 ^ l) i) c s s') : s'.pool = s.pool + c + tables l i s := by
  have hone : ∀ lv, tableSpare l lv s = tableSpare l lv s' +
      if Needs (512 * 2 ^ l) i lv then tableSpare l lv s else 0 := by
    intro lv
    have hheld := h.held lv
    unfold tableSpare
    by_cases hneed : Needs (512 * 2 ^ l) i lv
    · rw [if_pos hneed, if_pos (hheld.mpr (.inr hneed)), Nat.zero_add]
    · rw [if_neg hneed, Nat.add_zero]
      refine if_congr ?_ rfl rfl
      rw [hheld, or_iff_left hneed]
  have hpool := h.pool
  have hone1 := hone .indir1
  have hone2 := hone .indir2
  unfold tables
  unfold spare at hpool
  omega

/-- The request, when its bytes lie in the file. -/
theorem request_len {p : ℤ} {n : ℕ} (hn : n ≤ node.size) : (request node p n).len = n :=
  min_eq_left hn

/-- None of the numbers of the request wraps. -/
theorem Node.Blocks.fits {p n : ℕ} (h : node.Blocks l) (hn : n ≤ node.size) (hp : p < 2 ^ 31)
    (htotal : p + n + 512 * 2 ^ l ≤ 2 ^ 32) : (request node p n).Fits l (512 * 2 ^ l) p := by
  constructor
  · simp only [request]
    exact h.log2
  · exact h.one_le
  · have hle := h.le
    omega
  · rfl
  · rfl
  · exact hp
  · rwa [request_len hn]

/-- The blocks of a request. -/
theorem Volume.Blocks.mapped_request {v : Volume} {r : Ext2.Req} {e p : ℕ}
    (h : v.Blocks node l e) (he : p + r.len ≤ e * (512 * 2 ^ l)) :
    Ext2.Mapped r l (512 * 2 ^ l) p (v.blockMap node (512 * 2 ^ l)) v.blocks := by
  have hin : ∀ i, i * (512 * 2 ^ l) < p + r.len → i < e := fun i hi =>
    Nat.lt_of_mul_lt_mul_right (hi.trans_le he)
  refine ⟨fun i _ hi => ?_, fun i j _ hij hj hne => h.distinct i j hij (hin j hj) hne,
    fun i _ hi hne => (h.placed i (hin i hi) hne).2⟩
  by_cases hne : v.blockMap node (512 * 2 ^ l) i = 0
  · rw [hne, Nat.zero_mul]
    exact Nat.two_pow_pos 31
  · exact (h.placed i (hin i hi) hne).1

/-- A file whose first `e` blocks can be read in the state `s`. -/
structure FileOn (env : Env) (k : KernelSource) (node : Node) (l e : ℕ) (s : St) : Prop where
  works : env.Works
  sizes : node.Blocks l
  coherent : Coherent env k l s
  limit_lt : s.partitionLengthBlocks < 2 ^ 32
  blocks : (s.volume env k).Blocks node l e

theorem FileOn.advances {e c : ℕ} {need : Level → Prop} {s' : St} (h : FileOn env k node l e s)
    (hadv : Advances env k l need c s s') : FileOn env k node l e s' := by
  refine ⟨h.works, h.sizes, hadv.coherent, ?_, ?_⟩
  · rw [hadv.frame]
    exact h.limit_lt
  · rw [hadv.volume_eq]
    exact h.blocks

/-- The `n` bytes from `p` on lie in the first `e` blocks of a file, and none of the numbers
    of their request wraps. -/
structure Node.Part (node : Node) (l e p n : ℕ) : Prop where
  pos : 0 < n
  size : n ≤ node.size
  start : p < 2 ^ 31
  len : n < 2 ^ 31
  total : p + n + 512 * 2 ^ l ≤ 2 ^ 32
  inside : p + n ≤ e * (512 * 2 ^ l)

/-- What was read from byte `p` on before block `i` has brought in the tables of the blocks
    before it. -/
def ReadUpTo (env : Env) (k : KernelSource) (l p : ℕ) (s : St) (i : ℕ) (s' : St) : Prop :=
  Advances env k l
    (fun lv => ∃ j, p / (512 * 2 ^ l) ≤ j ∧ j < i ∧ Needs (512 * 2 ^ l) j lv) 0 s s'

theorem readUpTo_refl {p : ℕ} (hc : Coherent env k l s) :
    ReadUpTo env k l p s (p / (512 * 2 ^ l)) s := by
  refine (Advances.refl hc).congr fun lv => iff_of_false not_false ?_
  rintro ⟨j, hj, hji, -⟩
  omega

/-- The blocks of the request are looked up one after the other. -/
theorem FileOn.mapsAt {r : Ext2.Req} {p e : ℕ} (h : FileOn env k node l e s)
    (hle : p + r.len ≤ e * (512 * 2 ^ l)) (hroom : s.pool + spare l s ≤ extent)
    (hextent : extent < 2 ^ 32) :
    Ext2.MapsAt (ext2fsReadBlock env extent k node) (ReadUpTo env k l p s) r (512 * 2 ^ l) p
      ((s.volume env k).blockMap node (512 * 2 ^ l)) := by
  intro i hi hlt s1 hs1
  have hie : i < e := Nat.lt_of_mul_lt_mul_right (hlt.trans_le hle)
  have hvol := Advances.volume_eq hs1
  have hpool := Advances.pool hs1
  have hmap := h.blocks.mapped i hie
  rw [← hvol] at hmap
  obtain ⟨s2, hrun, hadv⟩ := readBlock_eq h.works h.sizes (Advances.coherent hs1) (by omega) hextent
    hmap
  rw [hvol] at hrun
  refine ⟨s2, hrun, (Advances.trans hs1 hadv).congr fun lv => ?_⟩
  constructor
  · rintro (⟨j, hj, hji, hneed⟩ | hneed)
    · exact ⟨j, hj, by omega, hneed⟩
    · exact ⟨i, hi, by omega, hneed⟩
  · rintro ⟨j, hj, hji, hneed⟩
    rcases Nat.lt_succ_iff_lt_or_eq.mp hji with hji | rfl
    · exact .inl ⟨j, hj, hji, hneed⟩
    · exact .inr hneed

/-- The device reads in between deliver the sectors of the partition. -/
theorem FileOn.fetches {p e : ℕ} (h : FileOn env k node l e s) (i : ℕ) :
    Ext2.Fetches (ext2fsDevread env k) (ReadUpTo env k l p s i) (s.volume env k).disk
      (s.volume env k).blocks := by
  intro st sk ex hst hpos hex hend s1 hs1
  have hvol := Advances.volume_eq hs1
  have hblk : s1.partitionLengthBlocks = s.partitionLengthBlocks := congrArg Volume.blocks hvol
  have hdisk : partition env k s1.partitionOffsetBlocks = (s.volume env k).disk :=
    congrArg Volume.disk hvol
  obtain ⟨ws, s2, hrun, hreads, hputs⟩ := devread_works h.works k s1 sk ex (shl32_zero hst) hex
    hpos (by rw [hblk]; exact hend) (by rw [hblk]; exact h.limit_lt)
  rw [hdisk] at hputs
  refine ⟨ws, s2, hrun, ?_, hputs⟩
  refine (Advances.trans hs1 (Advances.reads hreads (Advances.coherent hs1))).congr fun lv => ?_
  rw [or_false]

/-- The last block of a request is the one of its last byte. -/
theorem Behind.last_eq {r : Ext2.Req} {bs p e : ℕ} (h : Ext2.Behind r bs p e) (hbs : 0 < bs)
    (hlen : 0 < r.len) : (p + r.len - 1) / bs + 1 = e := by
  have hbehind := h.behind
  have hlow : (p + r.len - 1) / bs < e := by
    rw [Nat.div_lt_iff_lt_mul hbs]
    omega
  have hepos : 0 < e := Nat.zero_lt_of_lt hlow
  have hhigh : e - 1 ≤ (p + r.len - 1) / bs := by
    rw [Nat.le_div_iff_mul_le hbs]
    have hfirst : p / bs ≤ (p + r.len - 1) / bs := Nat.div_le_div_right (by omega)
    by_cases hmore : p / bs ≤ e - 1
    · exact Nat.le_sub_one_of_lt (h.before (e - 1) (by omega) hmore)
    · have hback := h.le
      omega
  omega

/-- `ext2fs_read_file`, for bytes of the file and with memory for the tables. -/
theorem ext2fsReadFile_eq {p n e : ℕ} (h : FileOn env k node l e s) (hpart : node.Part l e p n)
    (hroom : s.pool + spare l s ≤ extent) (hextent : extent < 2 ^ 32) :
    ∃ out s', ext2fsReadFile env extent k node p n s = some (.ok ((n : ℤ), out), s') ∧
      Advances env k l (Needs (512 * 2 ^ l) ((p + n - 1) / (512 * 2 ^ l))) 0 s s' ∧
      (∀ x < n, overlay out x = some ((s.volume env k).byte node l (p + x))) ∧
      ∀ m ≥ n, Within out m ↔ (s.volume env k).Fits node l p n m := by
  obtain ⟨hpos, hn, hp, hn31, htotal, he⟩ := hpart
  have hlen : (request node p n).len = n := request_len hn
  have hle : p + (request node p n).len ≤ e * (512 * 2 ^ l) := by rwa [hlen]
  obtain ⟨out, s', e', hrun, hbehind, hs', hbytes, hwithin⟩ :=
    Ext2.readFile_eq (h.sizes.fits hn hp htotal) (by rw [hlen]; exact hn31)
      (h.blocks.mapped_request hle) (h.mapsAt hle hroom hextent) h.fetches (devread_bounded env k)
      (readUpTo_refl h.coherent)
  have hbpos : 0 < 512 * 2 ^ l := by have := Nat.two_pow_pos l; omega
  have hlast : (p + n - 1) / (512 * 2 ^ l) + 1 = e' := by
    have hlast := Behind.last_eq hbehind hbpos (by omega)
    rwa [hlen] at hlast
  rw [hlen] at hrun hbytes hwithin
  refine ⟨out, s', hrun, Advances.congr hs' fun lv => ?_, hbytes, fun m hm => ?_⟩
  · rw [← hlast]
    constructor
    · rintro ⟨j, -, hj, hneed⟩
      exact hneed.mono (by omega)
    · exact fun hneed => ⟨_, Nat.div_le_div_right (by omega), Nat.lt_succ_self _, hneed⟩
  · unfold Volume.Fits
    rw [hlast]
    exact hwithin m hm

/-! ## Objects -/

/-- The relation that allows every change. -/
theorem ext2Frame_true : Ext2Frame fun _ _ => True := by
  refine ⟨⟨⟨fun _ => trivial, fun _ _ _ _ _ => trivial, fun _ _ _ => trivial, fun _ _ => trivial,
    fun _ _ _ => trivial⟩, fun _ _ => trivial, fun _ _ => trivial⟩, fun _ _ => trivial,
    fun _ _ => trivial⟩

/-- The run of the read in a pool with room for the tables. -/
theorem readObject_roomy {p n m e : ℕ} (h : FileOn env k node l e s) (hpart : node.Part l e p n)
    (hnm : n ≤ m) (hextent : s.pool + spare l s < 2 ^ 32) :
    ∃ out s', ext2fsReadFile env (s.pool + spare l s) k node p n s =
        some (.ok ((n : ℤ), out), s') ∧
      Advances env k l (Needs (512 * 2 ^ l) ((p + n - 1) / (512 * 2 ^ l))) 0 s s' ∧
      (∀ x < n, byteAt (patch (env.junk s m) out) x = (s.volume env k).byte node l (p + x)) ∧
      (Within out m ↔ (s.volume env k).Fits node l p n m) := by
  obtain ⟨out, s', hrun, hadv, hbytes, hwithin⟩ := ext2fsReadFile_eq h hpart (le_refl _) hextent
  refine ⟨out, s', hrun, hadv, fun x hx => ?_, hwithin m hnm⟩
  have hjunk : (env.junk s m).length = m := by simp [Env.junk]
  have hbyte : byteAt (patch (env.junk s m) out) x =
      (overlay out x).getD (byteAt (env.junk s m) x) := by
    rw [byteAt_of_lt (by simpa [patch, hjunk] using hx.trans_le hnm)]
    simp [patch]
  rw [hbyte, hbytes x hx]
  rfl

theorem length_patch (bs : List Byte) (ws : List Write) : (patch bs ws).length = bs.length := by
  simp [patch]

/-- The object holds the bytes of the file. -/
theorem readObject_eq {p n m e : ℕ} (h : FileOn env k node l e s) (hpart : node.Part l e p n)
    (hnm : n ≤ m) (hextent : s.pool + spare l s < 2 ^ 32)
    (hroom : s.pool + tables l ((p + n - 1) / (512 * 2 ^ l)) s ≤ extent)
    (hfits : (s.volume env k).Fits node l p n m) :
    ∃ obj s', readObject env extent k node p n m s = some (.ok ((n : ℤ), obj), s') ∧
      Advances env k l (Needs (512 * 2 ^ l) ((p + n - 1) / (512 * 2 ^ l))) 0 s s' ∧
      obj.length = m ∧ ∀ x < n, byteAt obj x = (s.volume env k).byte node l (p + x) := by
  obtain ⟨out, s', hrun, hadv, hbytes, hwithin⟩ := readObject_roomy h hpart hnm hextent
  have hpool := hadv.pool_eq
  obtain ⟨hle, hlim⟩ := (ext2fsReadFile_tame ext2Frame_true.toReadFrame env k node p n).limited
    _ s _ s' hrun fun b hb => by cases hb
  refine ⟨patch (env.junk s m) out, s', ?_, hadv, by simp [patch, Env.junk], hbytes⟩
  unfold readObject
  rw [Prog.get_bind, Prog.bind_ok ((hlim extent (by omega)).1 (by omega))]
  dsimp only
  rw [Prog.exitIf_of_not (not_not_intro (hwithin.mpr hfits)), Prog.pure_apply]

/-- The zero filling of a hole goes on behind the object. -/
theorem readObject_corrupt {p n m e : ℕ} (h : FileOn env k node l e s) (hpart : node.Part l e p n)
    (hnm : n ≤ m) (hextent : s.pool + spare l s < 2 ^ 32)
    (hroom : s.pool + tables l ((p + n - 1) / (512 * 2 ^ l)) s ≤ extent)
    (hfits : ¬ (s.volume env k).Fits node l p n m) :
    ∃ s', readObject env extent k node p n m s = some (.error .corrupt, s') := by
  obtain ⟨out, s', hrun, hadv, -, hwithin⟩ := readObject_roomy h hpart hnm hextent
  have hpool := hadv.pool_eq
  obtain ⟨hle, hlim⟩ := (ext2fsReadFile_tame ext2Frame_true.toReadFrame env k node p n).limited
    _ s _ s' hrun fun b hb => by cases hb
  refine ⟨s', ?_⟩
  unfold readObject
  rw [Prog.get_bind, Prog.bind_ok ((hlim extent (by omega)).1 (by omega))]
  dsimp only
  rw [Prog.exitIf_of (mt hwithin.mp hfits)]

/-- There is no room for a table. -/
theorem readObject_outOfPool {p n m e : ℕ} (h : FileOn env k node l e s)
    (hpart : node.Part l e p n) (hnm : n ≤ m) (hextent : s.pool + spare l s < 2 ^ 32)
    (hpool : s.pool ≤ extent)
    (hroom : extent < s.pool + tables l ((p + n - 1) / (512 * 2 ^ l)) s) :
    ∃ s', readObject env extent k node p n m s = some (.error .outOfPool, s') := by
  obtain ⟨out, s', hrun, hadv, -, -⟩ := readObject_roomy h hpart hnm hextent
  have hpool' := hadv.pool_eq
  obtain ⟨-, hlim⟩ := (ext2fsReadFile_tame ext2Frame_true.toReadFrame env k node p n).limited
    _ s _ s' hrun fun b hb => by cases hb
  obtain ⟨s'', hfull⟩ := (hlim extent hpool).2 (by omega)
  refine ⟨s'', ?_⟩
  unfold readObject
  rw [Prog.get_bind, Prog.bind_error hfull]

/-! ## One read after another -/

theorem needs_max {bs i j : ℕ} {lv : Level} :
    Needs bs (max j i) lv ↔ Needs bs j lv ∨ Needs bs i lv := by
  constructor
  · intro h
    rcases le_total j i with hle | hle
    · rw [max_eq_right hle] at h
      exact .inr h
    · rw [max_eq_left hle] at h
      exact .inl h
  · rintro (h | h)
    · exact h.mono (le_max_left _ _)
    · exact h.mono (le_max_right _ _)

theorem tables_mono {i j : ℕ} (hij : i ≤ j) (s : St) : tables l i s ≤ tables l j s := by
  have hlevel : ∀ lv, (if Needs (512 * 2 ^ l) i lv then tableSpare l lv s else 0) ≤
      if Needs (512 * 2 ^ l) j lv then tableSpare l lv s else 0 := by
    intro lv
    by_cases hi : Needs (512 * 2 ^ l) i lv
    · rw [if_pos hi, if_pos (hi.mono hij)]
    · rw [if_neg hi]
      exact Nat.zero_le _
  exact Nat.add_le_add (hlevel .indir1) (hlevel .indir2)

/-- What the tables for block `i` take behind those for block `j`. -/
theorem Advances.pool_tables {i j c : ℕ} {s' : St}
    (h : Advances env k l (Needs (512 * 2 ^ l) j) c s s') :
    s'.pool + tables l i s' = s.pool + c + tables l (max j i) s := by
  have hlevel : ∀ lv, (if Needs (512 * 2 ^ l) i lv then tableSpare l lv s' else 0) +
      (if Needs (512 * 2 ^ l) j lv then tableSpare l lv s else 0) =
        if Needs (512 * 2 ^ l) (max j i) lv then tableSpare l lv s else 0 := by
    intro lv
    by_cases hj : Needs (512 * 2 ^ l) j lv
    · have hspare : tableSpare l lv s' = 0 := if_pos ((h.held lv).mpr (.inr hj))
      rw [if_pos hj, if_pos (needs_max.mpr (.inl hj)), hspare, ite_self, Nat.zero_add]
    · have hspare : tableSpare l lv s' = tableSpare l lv s := by
        unfold tableSpare
        refine if_congr ?_ rfl rfl
        rw [h.held, or_iff_left hj]
      have hsame : Needs (512 * 2 ^ l) (max j i) lv ↔ Needs (512 * 2 ^ l) i lv := by
        rw [needs_max, or_iff_right hj]
      rw [if_neg hj, Nat.add_zero, hspare, if_congr hsame rfl rfl]
  have hpool := h.pool_eq
  have hone := hlevel .indir1
  have htwo := hlevel .indir2
  unfold tables at hpool ⊢
  omega

theorem Advances.add_pool {need : Level → Prop} {c n : ℕ} {s' : St}
    (h : Advances env k l need c s s') :
    Advances env k l need (c + n) s { s' with pool := s'.pool + n } := by
  refine ⟨?_, h.held, ?_, h.coherent⟩
  · conv_lhs => rw [h.frame]
  · have hpool := h.pool
    show s'.pool + n + spare l s' = _
    omega

theorem Advances.reads_after {need : Level → Prop} {c : ℕ} {s1 s2 : St}
    (h : Advances env k l need c s s1) (hreads : Reads s1 s2) : Advances env k l need c s s2 :=
  (h.trans (Advances.reads hreads h.coherent)).congr fun _ => by rw [or_false]

theorem spare_le (hl : l ≤ 7) (s : St) : spare l s ≤ 2 * (512 * 2 ^ 7 + 4) := by
  have hpow : 2 ^ l ≤ 2 ^ 7 := Nat.pow_le_pow_right (by norm_num) hl
  have hone : ∀ lv, tableSpare l lv s ≤ 512 * 2 ^ 7 + 4 := by
    intro lv
    unfold tableSpare
    split_ifs <;> omega
  have h1 := hone .indir1
  have h2 := hone .indir2
  unfold spare
  omega

section After

variable {p n m e j c : ℕ} {s1 : St}

/-- A read that is not the first one. -/
theorem readObject_after (h : FileOn env k node l e s)
    (hadv : Advances env k l (Needs (512 * 2 ^ l) j) c s s1) (hpart : node.Part l e p n)
    (hnm : n ≤ m) (hextent : extent ≤ 2 ^ 31)
    (hroom : s.pool + c + tables l (max j ((p + n - 1) / (512 * 2 ^ l))) s ≤ extent)
    (hfits : (s.volume env k).Fits node l p n m) :
    ∃ obj s2, readObject env extent k node p n m s1 = some (.ok ((n : ℤ), obj), s2) ∧
      Advances env k l (Needs (512 * 2 ^ l) (max j ((p + n - 1) / (512 * 2 ^ l)))) c s s2 ∧
      obj.length = m ∧ ∀ x < n, byteAt obj x = (s.volume env k).byte node l (p + x) := by
  have hvol := hadv.volume_eq
  have hspare := spare_le h.sizes.le s1
  have hfits' := hfits
  rw [← hvol] at hfits'
  rw [← hadv.pool_tables] at hroom
  obtain ⟨obj, s2, hrun, hmore, hlen, hbytes⟩ :=
    readObject_eq (h.advances hadv) hpart hnm (by omega) hroom hfits'
  rw [hvol] at hbytes
  exact ⟨obj, s2, hrun, (hadv.trans hmore).congr fun lv => needs_max.symm, hlen, hbytes⟩

/-- Such a read that does not come to its end. -/
theorem readObject_fails (h : FileOn env k node l e s)
    (hadv : Advances env k l (Needs (512 * 2 ^ l) j) c s s1) (hpart : node.Part l e p n)
    (hnm : n ≤ m) (hextent : extent ≤ 2 ^ 31) (hpool : s1.pool ≤ extent)
    (hbad : ¬ (s.pool + c + tables l (max j ((p + n - 1) / (512 * 2 ^ l))) s ≤ extent ∧
      (s.volume env k).Fits node l p n m)) :
    ∃ b s2, readObject env extent k node p n m s1 = some (.error b, s2) := by
  have hvol := hadv.volume_eq
  have hspare := spare_le h.sizes.le s1
  rw [← hadv.pool_tables, ← hvol] at hbad
  by_cases hroom : s1.pool + tables l ((p + n - 1) / (512 * 2 ^ l)) s1 ≤ extent
  · obtain ⟨s2, hrun⟩ := readObject_corrupt (h.advances hadv) hpart hnm (by omega) hroom
      fun hfits => hbad ⟨hroom, hfits⟩
    exact ⟨_, s2, hrun⟩
  · obtain ⟨s2, hrun⟩ := readObject_outOfPool (h.advances hadv) hpart hnm (by omega) hpool
      (by omega)
    exact ⟨_, s2, hrun⟩

end After

end Works

end SmartQ.Qi
