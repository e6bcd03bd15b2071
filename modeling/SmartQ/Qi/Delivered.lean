import SmartQ.Qi.Coalesce
import SmartQ.Qi.Overrun

/-!
# What `ext2fs_read_file` delivers

For every block map and every outcome of the device reads, also a map that is not the
one of the file: what a read of a file from its start leaves in the destination.

* `Req.Complete`: the lookups and the device reads that a run needs, and
  `recordFile_ok_iff`: it returns the length exactly if they all succeed.
* `held`: what the blocks of the map hold, and `recordFile_delivers`: a run that returns the
  length leaves it there.
-/

namespace SmartQ.Qi.Ext2

open SmartQ.Lib

/-! ## Runs that return the length -/

namespace Req

variable (r : Req) (map : ℤ → ℤ)

/-- The extents of the first `j` blocks of the loop. -/
def runs : ℕ → ℕ
  | 0 => 0
  | j + 1 => r.extents map j + if r.sector map (r.first + j) ≠ 0 then 1 else 0

/-- No lookup of a block fails, and no device read of the blocks. -/
structure Complete (reads : ℕ → Bool) : Prop where
  mapped : ∀ t < r.rounds, 0 ≤ map (r.first + t)
  read : ∀ n < r.runs map r.rounds, reads n = true

end Req

section Complete

variable {σ ε : Type} {readBlock : ℤ → Prog σ ε ℤ}
  {devread : ℤ → ℤ → ℤ → ℤ → Prog σ ε (Bool × List Write)} {r : Req} {map : ℤ → ℤ}
  {reads : ℕ → Bool} {n : ℕ} {v : Vars} {s s' : σ × Answers} {ok : Bool}

theorem extents_le_runs (h : n < r.rounds) : r.extents map n ≤ r.runs map r.rounds := by
  obtain ⟨m, hm⟩ := Nat.exists_eq_succ_of_ne_zero (Nat.ne_zero_of_lt h)
  rw [hm]
  exact (r.extents_mono map (by omega)).trans (Nat.le_add_right _ _)

theorem Req.Complete.comes (h : r.Complete map reads) (hn : n < r.rounds) :
    r.Comes map reads n :=
  ⟨fun t ht => h.mapped t (by omega), fun i hi => h.read i (hi.trans_le (extents_le_runs hn))⟩

/-- The last device read. -/
theorem Round.finish {v' : Vars} (hb : BoundedInt devread) (hreach : r.reach n ≤ r.len)
    (h : Round r map reads n v s.2) (hn : n = r.rounds)
    (hrun : spillDelayed (recordRead devread) v s = some (.ok (ok, v'), s'))
    (ha : s'.2.Agrees r.first map reads) : r.Complete map reads ↔ ok = true := by
  have hmapped : ∀ t < r.rounds, 0 ≤ map (r.first + t) := by
    rw [← hn]
    exact h.mapped
  have hruns : r.Complete map reads ↔ ∀ i < r.runs map n, reads i = true := by
    rw [hn]
    exact ⟨fun hc => hc.read, fun hall => ⟨hmapped, hall⟩⟩
  rw [hruns]
  have hread := h.read
  have hdone := h.done
  obtain ⟨-, ⟨hprev, heq⟩ | ⟨hprev, -, rfl⟩⟩ := h.flush hb hreach hrun
  · obtain ⟨t, rfl, hsec⟩ := h.pending.mp hprev
    have hcount : r.runs map (t + 1) = s.2.reads.length + 1 := by
      show r.extents map t + _ = _
      rw [if_pos hsec, hread]
      rfl
    have hlast : reads s.2.reads.length = ok := by
      apply ha.reads_eq
      rw [heq]
      exact List.getElem?_concat_length
    rw [hcount, ← hlast]
    constructor
    · exact fun hall => hall _ (Nat.lt_succ_self _)
    · intro hok i hi
      rcases Nat.lt_succ_iff_lt_or_eq.mp hi with hi | rfl
      · exact hdone i hi
      · exact hok
  · refine ⟨fun _ => rfl, fun _ i hi => hdone i ?_⟩
    rw [hread]
    cases n with
    | zero => exact hi
    | succ t =>
      have hsec : ¬ r.sector map (r.first + t) ≠ 0 := fun hne =>
        h.pending.mpr ⟨t, rfl, hne⟩ hprev
      have hi : i < r.extents map t + _ := hi
      rw [if_neg hsec] at hi
      exact hi

/-- A run returns the length exactly if every lookup and every device read succeeds. -/
theorem recordFile_ok_iff (hge : -2 ^ 31 ≤ r.pos) (hle : r.pos < 2 ^ 31) (hlen : r.len < 2 ^ 31)
    (hi : IntBlocks readBlock) (hb : BoundedInt devread) {s s' : σ} {a : Answers} {ret : ℤ}
    {out : List Write}
    (hrun : recordFile readBlock devread r (s, ⟨[], []⟩) = some (.ok (ret, out), (s', a)))
    (ha : a.Agrees r.first map reads) : r.Complete map reads ↔ 0 ≤ ret := by
  by_cases hround : r.first < r.blockcnt
  · have hnonneg := recordFile_nonneg hi hround hrun
    obtain ⟨f, b, c, k, hr⟩ := Req.exists_rounds hge hle (by omega) hnonneg hround
    obtain ⟨ok, v, s2, hblocks, hgrows, hrest⟩ := recordFile_blocks hrun
    have hinit : Round r map reads 0 .init (s, (⟨[], []⟩ : Answers)).2 := round_init
    obtain ⟨-, hlast, hstop⟩ :=
      hinit.blocks hi hb hr _ (rounds_le hr) hblocks (ha.of_grows hgrows)
    rw [Nat.zero_add] at hlast hstop
    cases ok with
    | false =>
      cases hrest
      obtain ⟨t, ht, hnot⟩ := hstop rfl
      exact iff_of_false (fun hc => hnot (hc.comes ht)) (by norm_num)
    | true =>
      rw [if_pos rfl] at hrest
      obtain ⟨⟨ok1, v1⟩, s3, hflush, hpure⟩ := Prog.bind_eq_ok.mp hrest
      simp only [Prog.pure_apply, Option.some.injEq, Prod.mk.injEq, Except.ok.injEq] at hpure
      obtain ⟨⟨hret, -⟩, hs3⟩ := hpure
      have ha3 : s3.2.Agrees r.first map reads := by
        rw [hs3]
        exact ha
      rw [(hlast rfl).finish hb (hr.reach_le _) rfl hflush ha3, ← hret]
      cases ok1 with
      | false => exact iff_of_false nofun (by norm_num)
      | true =>
        rw [if_pos rfl, int32_natCast hlen]
        exact iff_of_true rfl (Int.natCast_nonneg _)
  · have hzero : r.rounds = 0 := by
      unfold Req.rounds
      omega
    have hcomplete : r.Complete map reads := by
      constructor
      · rw [hzero]
        exact fun t ht => absurd ht (Nat.not_lt_zero t)
      · rw [hzero]
        exact fun t ht => absurd ht (Nat.not_lt_zero t)
    refine iff_of_true hcomplete ?_
    unfold recordFile readFile at hrun
    rw [show (r.blockcnt - r.first).toNat = 0 from hzero] at hrun
    simp only [blocks, Prog.ret_bind, if_true, spillDelayed, Vars.init, ne_eq, not_true_eq_false,
      if_false, Prog.pure_apply, Option.some.injEq, Prod.mk.injEq, Except.ok.injEq] at hrun
    rw [← hrun.1.1, int32_natCast hlen]
    exact Int.natCast_nonneg _

end Complete

/-! ## The bytes -/

section Held

variable (r : Req) (map : ℤ → ℤ) (disk : Disk) (bs : ℕ)

/-- Byte `x` of the blocks of a file, as the lookups name them: 0 in a hole. -/
def held (x : ℕ) : Byte :=
  if r.sector map (x / bs : ℕ) = 0 then 0
  else disk (512 * toU32 (r.sector map (x / bs : ℕ)) + x % bs)

/-- The state before block `i` of a read from the start: what was asked for before the
    extent is stored. -/
structure Holds (i : ℕ) (v : Vars) : Prop where
  skip : v.previousBlockNumber ≠ -1 → v.delayedSkipfirst = 0
  ends : ∀ w ∈ v.out, w.1 + w.2.length ≤ i * bs
  stored : ∀ x < if v.previousBlockNumber = -1 then r.asked bs 0 i else v.delayedBuf,
    overlay v.out x = some (held r map disk bs x)
  extent : v.previousBlockNumber ≠ -1 → ∃ n : ℕ, v.delayedExtent = n ∧
    v.delayedBuf + n = r.asked bs 0 i ∧
    (∀ y < n, held r map disk bs (v.delayedBuf + y) = disk (512 * toU32 v.delayedStart + y)) ∧
    (i * bs ≤ r.len → ∃ m, n = 512 * m ∧
      toU32 v.delayedNext % 2 ^ 32 = (toU32 v.delayedStart + m) % 2 ^ 32)

/-- The state before block `i` once the extent is read. -/
structure HoldsAll (i : ℕ) (v : Vars) : Prop where
  ends : ∀ w ∈ v.out, w.1 + w.2.length ≤ i * bs
  stored : ∀ x < r.asked bs 0 i, overlay v.out x = some (held r map disk bs x)

end Held

section Bytes

variable {r : Req} {l bs i : ℕ} {map : ℤ → ℤ} {disk : Disk} {v v' : Vars}

theorem holds_init : Holds r map disk bs 0 .init := by
  refine ⟨fun h => (h rfl).elim, fun w hw => absurd hw List.not_mem_nil, ?_, fun h => (h rfl).elim⟩
  intro x hx
  have hx : x < min (0 * bs) (0 + r.len) - 0 := hx
  omega

theorem held_eq {j : ℕ} (hj : j < bs) :
    held r map disk bs (i * bs + j) =
      if r.sector map i = 0 then 0 else disk (512 * toU32 (r.sector map i) + j) := by
  have hdiv : (i * bs + j) / bs = i := by
    rw [Nat.mul_comm, Nat.mul_add_div (by omega), Nat.div_eq_of_lt hj, Nat.add_zero]
  have hmod : (i * bs + j) % bs = j := by
    rw [Nat.mul_comm, Nat.mul_add_mod, Nat.mod_eq_of_lt hj]
  rw [held, hdiv, hmod]

/-- What is asked for of block `i`, of a read from the start. -/
theorem Req.Fits.asked_succ (hfit : r.Fits l bs 0) (hlt : i * bs < r.len) :
    r.asked bs 0 i = i * bs ∧ r.asked bs 0 (i + 1) = i * bs + r.part bs 0 i ∧
      r.part bs 0 i = min bs (r.len - i * bs) ∧ r.blockend i = r.part bs 0 i := by
  have hend := hfit.blockend_eq (i := i) (by rw [Nat.zero_div]; exact Nat.zero_le _)
    (by rwa [Nat.zero_add])
  unfold Req.asked Req.part at *
  rw [Nat.succ_mul]
  refine ⟨by omega, by omega, by omega, hend⟩

theorem toU32_next (z : ℤ) {b : ℕ} : toU32 (int32 (z + (b : ℤ) / 512)) % 2 ^ 32 =
    (toU32 z + b / 512) % 2 ^ 32 := by
  rw [toU32_int32]
  unfold toU32
  omega

/-- The bytes of an extent that starts with block `i`. -/
theorem HoldsAll.delay (hfit : r.Fits l bs 0) (h : HoldsAll r map disk bs i v)
    (hlt : i * bs < r.len) (hbuf : v.buf = i * bs) (hne : r.sector map i ≠ 0)
    (hprev : r.sector map i ≠ -1) (n : ℕ) :
    Holds r map disk bs (i + 1)
      ((v.delay (r.sector map i) (r.blockend i) (r.skipfirst i)).advance n) := by
  obtain ⟨hasked, hnext, hpart, hend⟩ := hfit.asked_succ hlt
  have hskip := hfit.skipfirst_eq (i := i) (by rw [Nat.zero_div]; exact Nat.zero_le _)
  have hbs := hfit.bs_eq
  rw [Nat.zero_sub] at hskip
  refine ⟨fun _ => hskip, fun w hw => ?_, ?_, fun _ => ⟨r.part bs 0 i, hend, ?_, ?_, ?_⟩⟩
  · exact (h.ends w hw).trans (Nat.mul_le_mul_right _ (Nat.le_succ i))
  · intro x hx
    have hx : x < if r.sector map i = -1 then r.asked bs 0 (i + 1) else v.buf := hx
    rw [if_neg hprev, hbuf, ← hasked] at hx
    exact h.stored x hx
  · show v.buf + _ = _
    rw [hbuf, hnext]
  · intro y hy
    show held r map disk bs (v.buf + y) = disk (512 * toU32 (r.sector map i) + y)
    rw [hbuf, held_eq (by omega), if_neg hne]
  · intro hfull
    rw [Nat.succ_mul] at hfull
    refine ⟨r.part bs 0 i / 512, by omega, ?_⟩
    show toU32 (int32 (r.sector map i + r.blockend i / 512)) % _ = _
    rw [hend]
    exact toU32_next _

/-- A block that is added to the extent. -/
theorem Holds.merge (hfit : r.Fits l bs 0) (hlen : r.len < 2 ^ 31)
    (hper : ∀ a b z, a % 2 ^ 32 = b % 2 ^ 32 → disk (512 * a + z) = disk (512 * b + z))
    (h : Holds r map disk bs i v) (hlt : i * bs < r.len) (hprev : v.previousBlockNumber ≠ -1)
    (hadj : v.delayedNext = r.sector map i) (hne : r.sector map i ≠ 0) (k : ℕ) :
    Holds r map disk bs (i + 1) ((v.merge (r.blockend i)).advance k) := by
  obtain ⟨hasked, hnext, hpart, hend⟩ := hfit.asked_succ hlt
  have hbs := hfit.bs_eq
  obtain ⟨n, hn, hbuf, hbytes, hwhole⟩ := h.extent hprev
  obtain ⟨m, rfl, hsec⟩ := hwhole hlt.le
  clear hwhole
  rw [hasked] at hbuf
  refine ⟨h.skip, fun w hw => ?_, ?_, fun _ => ⟨512 * m + r.part bs 0 i, ?_, ?_, ?_, ?_⟩⟩
  · exact (h.ends w hw).trans (Nat.mul_le_mul_right _ (Nat.le_succ i))
  · intro x hx
    have hx : x < if v.previousBlockNumber = -1 then r.asked bs 0 (i + 1) else v.delayedBuf := hx
    rw [if_neg hprev] at hx
    apply h.stored
    rwa [if_neg hprev]
  · show int32 (v.delayedExtent + r.blockend i) = _
    have hle := r.asked_le bs 0 (i + 1)
    rw [hn, hend]
    exact int32_natCast (by omega)
  · show v.delayedBuf + _ = _
    omega
  · intro y hy
    show held r map disk bs (v.delayedBuf + y) = disk (512 * toU32 v.delayedStart + y)
    by_cases hold : y < 512 * m
    · exact hbytes y hold
    · have hx : v.delayedBuf + y = i * bs + (y - 512 * m) := by omega
      have haddr : 512 * toU32 v.delayedStart + y =
          512 * (toU32 v.delayedStart + m) + (y - 512 * m) := by omega
      rw [hx, held_eq (by omega), if_neg hne, haddr]
      apply hper
      rw [← hadj]
      exact hsec
  · intro hfull
    rw [Nat.succ_mul] at hfull
    refine ⟨m + r.part bs 0 i / 512, by omega, ?_⟩
    show toU32 (int32 (v.delayedNext + r.blockend i / 512)) % _ = (toU32 v.delayedStart + _) % _
    rw [hend, toU32_next]
    omega

/-- A hole. -/
theorem HoldsAll.zero (hfit : r.Fits l bs 0) (h : HoldsAll r map disk bs i v)
    (hlt : i * bs < r.len) (hbuf : v.buf = i * bs) (hzero : r.sector map i = 0) (k : ℕ) :
    Holds r map disk bs (i + 1) ((v.zero bs).advance k) := by
  obtain ⟨hasked, hnext, hpart, -⟩ := hfit.asked_succ hlt
  have hold := h.stored
  rw [hasked] at hold
  refine ⟨fun hne => (hne rfl).elim, ?_, ?_, fun hne => (hne rfl).elim⟩
  · intro w hw
    have hw : w ∈ v.out ++ [(v.buf, List.replicate bs 0)] := hw
    rw [Nat.succ_mul]
    rcases List.mem_append.mp hw with hw | hw
    · have hle := h.ends w hw
      omega
    · rw [List.mem_singleton] at hw
      rw [hw, hbuf, List.length_replicate]
  · intro x hx
    have hx : x < r.asked bs 0 (i + 1) := hx
    show overlay (v.out ++ [(v.buf, List.replicate bs 0)]) x = _
    rw [overlay_append, overlay, overlay_nil, Option.none_or, List.length_replicate]
    by_cases hnew : v.buf ≤ x
    · have hin : x - i * bs < bs := by omega
      have hx' : x = i * bs + (x - i * bs) := by omega
      have hheld : held r map disk bs x = 0 := by
        rw [hx', held_eq hin, if_pos hzero]
      rw [if_pos ⟨hnew, by omega⟩, Option.some_or, hheld]
      exact congrArg some (List.getD_replicate _ (by omega))
    · rw [if_neg fun hand => hnew hand.1, Option.none_or]
      exact hold x (by omega)

end Bytes

/-! ### The run -/

section Run

variable {σ ε : Type} {readBlock : ℤ → Prog σ ε ℤ}
  {devread : ℤ → ℤ → ℤ → ℤ → Prog σ ε (Bool × List Write)}

/-- A round that does not end the loop: the block continues the extent, or the extent is
    read and the block starts a new one or is a hole. -/
theorem block_true {r : Req} {i : ℤ} {v v' : Vars} {s s' : σ}
    (hrun : block readBlock devread r i v s = some (.ok (true, v'), s')) :
    ∃ b s1, readBlock i s = some (.ok b, s1) ∧ 0 ≤ b ∧
      ((shl32 b r.log2blocksize ≠ 0 ∧ v.previousBlockNumber ≠ -1 ∧
          v.delayedNext = shl32 b r.log2blocksize ∧ s' = s1 ∧
          v' = (v.merge (r.blockend i)).advance (r.step i)) ∨
        ∃ v1, spillDelayed devread v s1 = some (.ok (true, v1), s') ∧
          ((shl32 b r.log2blocksize ≠ 0 ∧
              v' = (v1.delay (shl32 b r.log2blocksize) (r.blockend i) (r.skipfirst i)).advance
                (r.step i)) ∨
            shl32 b r.log2blocksize = 0 ∧ v' = (v1.zero (r.step i)).advance (r.step i))) := by
  unfold block at hrun
  obtain ⟨b, s1, hlook, hrest⟩ := Prog.bind_eq_ok.mp hrun
  refine ⟨b, s1, hlook, ?_⟩
  by_cases hneg : b < 0
  · rw [if_pos hneg] at hrest
    cases hrest
  rw [if_neg hneg] at hrest
  refine ⟨not_lt.mp hneg, ?_⟩
  by_cases hsec : shl32 b r.log2blocksize = 0
  · rw [if_neg (not_not_intro hsec)] at hrest
    obtain ⟨⟨ok, v1⟩, s2, hbody, hdone⟩ := Prog.bind_eq_ok.mp hrest
    obtain ⟨⟨ok2, v2⟩, s3, hflush, hpure⟩ := Prog.bind_eq_ok.mp hbody
    cases hpure
    cases hdone
    exact .inr ⟨v2, hflush, .inr ⟨hsec, rfl⟩⟩
  · rw [if_pos hsec] at hrest
    obtain ⟨⟨ok, v1⟩, s2, hbody, hdone⟩ := Prog.bind_eq_ok.mp hrest
    unfold dataBlock at hbody
    split_ifs at hbody with hadj
    · cases hbody
      cases hdone
      exact .inl ⟨hsec, hadj.1, hadj.2, rfl, rfl⟩
    · obtain ⟨⟨ok2, v2⟩, s3, hflush, hpure⟩ := Prog.bind_eq_ok.mp hbody
      cases hpure
      cases hdone
      exact .inr ⟨v2, hflush, .inl ⟨hsec, rfl⟩⟩

/-- Between `s0` and `s1` a device read that succeeds delivers the bytes of the disk. The
    states are ordered by `R`. -/
def Faithful (devread : ℤ → ℤ → ℤ → ℤ → Prog σ ε (Bool × List Write)) (R : σ → σ → Prop)
    (s0 s1 : σ) (disk : Disk) : Prop :=
  ∀ st ex ws s s', R s0 s → R s' s1 → devread st 0 0 ex s = some (.ok (true, ws), s') →
    0 ≤ ex ∧ Puts ws (load disk (512 * toU32 st) ex.toNat)

variable {R : σ → σ → Prop} {s0 send : σ} {disk : Disk} {r : Req} {l bs i : ℕ} {map : ℤ → ℤ}
  {v v' : Vars} {s s' : σ × Answers}

theorem Holds.flush (hdev : Faithful devread R s0 send disk) (h : Holds r map disk bs i v)
    (hstart : R s0 s.1) (hend : R s'.1 send)
    (hrun : spillDelayed (recordRead devread) v s = some (.ok (true, v'), s')) :
    v'.buf = v.buf ∧ HoldsAll r map disk bs i v' := by
  have hold := h.stored
  unfold spillDelayed at hrun
  split_ifs at hrun with hprev
  · rw [if_neg hprev] at hold
    unfold spill at hrun
    obtain ⟨⟨ok, ws⟩, s1, hread, hpure⟩ := Prog.bind_eq_ok.mp hrun
    cases hpure
    obtain ⟨n, hn, hbuf, hbytes, -⟩ := h.extent hprev
    rw [h.skip hprev, hn] at hread
    obtain ⟨-, hputs⟩ := hdev _ _ _ _ _ hstart hend (Prog.record_ok hread).1
    rw [Int.toNat_natCast] at hputs
    have hlen := hputs.1
    rw [length_load] at hlen
    have hasked : r.asked bs 0 i ≤ i * bs := by
      unfold Req.asked
      omega
    refine ⟨rfl, fun w hw => ?_, fun x hx => ?_⟩
    · rcases List.mem_append.mp hw with hw | hw
      · exact h.ends w hw
      · obtain ⟨w', hw', rfl⟩ := List.mem_map.mp hw
        have hle := hlen w' hw'
        show v.delayedBuf + w'.1 + w'.2.length ≤ _
        omega
    · show overlay (v.out ++ ws.map (Write.shift v.delayedBuf)) x = _
      rw [overlay_append]
      by_cases hnew : v.delayedBuf ≤ x
      · have hx' : x < v.delayedBuf + (load disk (512 * toU32 v.delayedStart) n).length := by
          rw [length_load]
          omega
        have hadd : v.delayedBuf + (x - v.delayedBuf) = x := by omega
        have hbyte := hbytes (x - v.delayedBuf) (by omega)
        rw [hadd] at hbyte
        rw [hputs.overlay_shift hnew hx', Option.some_or, byteAt_load (by omega), hbyte]
      · rw [overlay_shift_before (by omega), Option.none_or]
        exact hold x (by omega)
  · rw [if_pos (not_not.mp hprev)] at hold
    cases hrun
    exact ⟨rfl, h.ends, hold⟩

theorem spillDelayed_blocks {ok : Bool}
    (hrun : spillDelayed (recordRead devread) v s = some (.ok (ok, v'), s')) :
    s'.2.blocks = s.2.blocks := by
  unfold spillDelayed at hrun
  split_ifs at hrun
  · unfold spill at hrun
    obtain ⟨⟨ok', ws⟩, s1, hread, hpure⟩ := Prog.bind_eq_ok.mp hrun
    cases hpure
    rw [(Prog.record_ok hread).2]
    rfl
  · cases hrun
    rfl

section Loop

variable (hfit : r.Fits l bs 0) (hlen : r.len < 2 ^ 31) (hi : IntBlocks readBlock)
  (hper : ∀ a b z, a % 2 ^ 32 = b % 2 ^ 32 → disk (512 * a + z) = disk (512 * b + z))
  (htrans : ∀ a b c, R a b → R b c → R a c) (hblk : ∀ i, Prog.Steps R (readBlock i))
  (hdev : Faithful devread R s0 send disk)

include hfit hlen hi hper htrans hblk hdev

/-- One round. -/
theorem Holds.block {reads : ℕ → Bool} (h : Holds r map disk bs i v) (hbuf : v.buf = i * bs)
    (hlooked : s.2.blocks.length = i) (hlt : i * bs < r.len) (hstart : R s0 s.1)
    (hend : R s'.1 send)
    (hrun : Ext2.block (recordBlock readBlock) (recordRead devread) r i v s =
      some (.ok (true, v'), s'))
    (ha : s'.2.Agrees 0 map reads) :
    Holds r map disk bs (i + 1) v' ∧ v'.buf = (i + 1) * bs ∧ s'.2.blocks.length = i + 1 := by
  obtain ⟨b, s1, hlook, hge, hcases⟩ := block_true hrun
  obtain ⟨hread, hnote⟩ := Prog.record_ok hlook
  obtain ⟨-, hb31⟩ := hi _ _ _ _ hread
  have hforward := htrans _ _ _ hstart (hblk _ _ _ _ hread)
  have hstep : r.step i = bs := by
    rw [hfit.step_eq (by rw [Nat.zero_div]; exact Nat.zero_le _), Nat.zero_sub, Nat.sub_zero]
  have hblocks : s'.2.blocks = (s.2.addBlock b).blocks := by
    rw [← hnote]
    rcases hcases with ⟨-, -, -, rfl, -⟩ | ⟨v1, hflush, -⟩
    · rfl
    · exact spillDelayed_blocks hflush
  have hmap := ha.map_last hlooked hblocks
  rw [zero_add] at hmap
  have hsec : r.sector map i = shl32 b r.log2blocksize := by
    rw [Req.sector, hmap]
  have hlast : s'.2.blocks.length = i + 1 := by
    rw [hblocks]
    show (s.2.blocks ++ [b]).length = _
    rw [List.length_append, hlooked]
    rfl
  rw [← hsec, hstep] at hcases
  rcases hcases with ⟨hne, hprev, hnext, -, rfl⟩ | ⟨v1, hflush, hkind⟩
  · refine ⟨h.merge hfit hlen hper hlt hprev hnext hne bs, ?_, hlast⟩
    show v.buf + bs = _
    rw [hbuf, Nat.succ_mul]
  · obtain ⟨hbuf1, hall⟩ := h.flush hdev hforward hend hflush
    rw [hbuf] at hbuf1
    rcases hkind with ⟨hne, rfl⟩ | ⟨hzero, rfl⟩
    · have hprev : r.sector map i ≠ -1 := by
        rw [hsec]
        exact shl32_ne_neg_one _ hge hb31
      refine ⟨hall.delay hfit hlt hbuf1 hne hprev bs, ?_, hlast⟩
      show v1.buf + bs = _
      rw [hbuf1, Nat.succ_mul]
    · refine ⟨hall.zero hfit hlt hbuf1 hzero bs, ?_, hlast⟩
      show v1.buf + bs = _
      rw [hbuf1, Nat.succ_mul]

/-- The rounds from block `i` on. -/
theorem Holds.blocks {reads : ℕ → Bool}
    (hround : ∀ i v, Prog.Steps R (Ext2.block readBlock devread r i v))
    (hrounds : ∀ n i v, Prog.Steps R (Ext2.blocks readBlock devread r n i v)) (n : ℕ)
    (h : Holds r map disk bs i v) (hbuf : v.buf = i * bs) (hlooked : s.2.blocks.length = i)
    (hlt : ∀ k < i + n, k * bs < r.len) (hstart : R s0 s.1) (hend : R s'.1 send)
    (hrun : Ext2.blocks (recordBlock readBlock) (recordRead devread) r n i v s =
      some (.ok (true, v'), s'))
    (ha : s'.2.Agrees 0 map reads) : Holds r map disk bs (i + n) v' := by
  induction n generalizing i v s with
  | zero =>
    cases hrun
    exact h
  | succ n ih =>
    unfold Ext2.blocks at hrun
    obtain ⟨⟨ok1, v1⟩, s1, hblock, hrest⟩ := Prog.bind_eq_ok.mp hrun
    dsimp only at hrest
    cases ok1 with
    | false => cases hrest
    | true =>
      rw [if_pos rfl] at hrest
      have hgrows := (blocks_recording readBlock devread r n _ v1).grows _ _ _ hrest
      have hmoved := hround _ _ _ _ _ ((block_recording readBlock devread r _ v).run_same hblock)
      have hmoves := hrounds _ _ _ _ _ _ ((blocks_recording readBlock devread r n _ v1).run_same hrest)
      obtain ⟨hnext, hbuf1, hlooked1⟩ := h.block hfit hlen hi hper htrans hblk hdev hbuf hlooked
        (hlt i (by omega)) hstart (htrans _ _ _ hmoves hend) hblock (ha.of_grows hgrows)
      have hall := ih hnext hbuf1 hlooked1 (fun k hk => hlt k (by omega))
        (htrans _ _ _ hstart hmoved) (by exact_mod_cast hrest)
      rwa [show i + 1 + n = i + (n + 1) by omega] at hall

/-- A read from the start of a file that returns the length leaves the bytes of the blocks. -/
theorem recordFile_delivers {reads : ℕ → Bool} {a : Answers} {s s' : σ} {ret : ℤ}
    {out : List Write} (hround : ∀ i v, Prog.Steps R (Ext2.block readBlock devread r i v))
    (hrounds : ∀ n i v, Prog.Steps R (Ext2.blocks readBlock devread r n i v))
    (hflush : ∀ v, Prog.Steps R (spillDelayed devread v)) (hstart : R s0 s) (hend : R s' send)
    (hrun : recordFile readBlock devread r (s, ⟨[], []⟩) = some (.ok (ret, out), (s', a)))
    (ha : a.Agrees 0 map reads) (hret : 0 ≤ ret) :
    (∀ w ∈ out, w.1 + w.2.length ≤ r.len + bs) ∧
      ∀ x < r.len, overlay out x = some (held r map disk bs x) := by
  have hge := hfit.le_bs
  have hfirst : r.first = ((0 : ℕ) : ℤ) := by
    rw [hfit.first_eq, Nat.zero_div]
  have hcount : r.rounds = (r.len + bs - 1) / bs := by
    unfold Req.rounds
    rw [hfirst, hfit.blockcnt_eq, Nat.zero_add, Nat.cast_zero, sub_zero, Int.toNat_natCast]
  have hlt : ∀ k < 0 + r.rounds, k * bs < r.len := by
    intro k hk
    rw [Nat.zero_add, hcount] at hk
    exact hfit.lt_cnt_iff.mp hk
  have hlast : r.rounds * bs ≤ r.len + bs := by
    rw [hcount]
    exact (Nat.div_mul_le_self _ _).trans (Nat.sub_le _ _)
  have hreach : r.len ≤ r.rounds * bs := by
    by_contra hmore
    have hin := hfit.lt_cnt_iff.mpr (Nat.not_le.mp hmore)
    rw [hcount] at hin
    exact lt_irrefl _ hin
  have hasked : r.asked bs 0 r.rounds = r.len := by
    rw [Req.asked, Nat.zero_add, min_eq_right hreach, Nat.sub_zero]
  obtain ⟨ok, v, s1, hblocks, hgrows, hrest⟩ := recordFile_blocks hrun
  rw [hfirst, Nat.cast_zero, zero_add] at hblocks
  cases ok with
  | false =>
    cases hrest
    exact absurd hret (by norm_num)
  | true =>
    rw [if_pos rfl] at hrest
    obtain ⟨⟨ok1, v1⟩, s2, hspill, hpure⟩ := Prog.bind_eq_ok.mp hrest
    simp only [Prog.pure_apply, Option.some.injEq, Prod.mk.injEq, Except.ok.injEq] at hpure
    obtain ⟨⟨hval, rfl⟩, rfl⟩ := hpure
    cases ok1 with
    | false =>
      rw [if_neg Bool.false_ne_true] at hval
      omega
    | true =>
      have hforward := hrounds _ _ _ _ _ _
        ((blocks_recording readBlock devread r _ _ _).run_same hblocks)
      have hback := hflush _ _ _ _ ((spillDelayed_recording devread v).run_same hspill)
      have hinit : Holds r map disk bs 0 .init := holds_init
      have hholds := hinit.blocks hfit hlen hi hper htrans hblk hdev hround hrounds _
        (by simp [Vars.init]) rfl hlt hstart
        (htrans _ _ _ hback hend) hblocks (ha.of_grows hgrows)
      obtain ⟨-, hall⟩ := hholds.flush hdev (htrans _ _ _ hstart hforward) hend hspill
      rw [Nat.zero_add] at hall
      refine ⟨fun w hw => ?_, fun x hx => ?_⟩
      · exact (hall.ends w hw).trans hlast
      · exact hall.stored x (by rwa [hasked])

end Loop

end Run

end SmartQ.Qi.Ext2
