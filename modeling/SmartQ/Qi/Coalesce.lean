import SmartQ.Qi.Inside

/-!
# Merged reads of a file

* `Inv`: what was asked for before a block is stored, or lies in the delayed extent.
* `readFile_eq`: reading adjacent blocks at once changes nothing.
-/

namespace SmartQ.Qi.Ext2

open SmartQ.Lib

/-! ## Merging changes nothing -/

/-- Byte `q` of a file whose block `i` is the block `map i` of the disk, a hole where
    that is 0. -/
def contents (map : ℕ → ℕ) (disk : Disk) (bs q : ℕ) : Byte :=
  if map (q / bs) = 0 then 0 else disk (map (q / bs) * bs + q % bs)

/-- The stores `ws` put `bytes` at the destination and nothing behind them. -/
def Puts (ws : List Write) (bytes : List Byte) : Prop :=
  (∀ w ∈ ws, w.1 + w.2.length ≤ bytes.length) ∧
    ∀ j < bytes.length, overlay ws j = some (byteAt bytes j)

/-- The block map of a request: no sector number wraps, a block is used once, and
    the blocks lie below sector `limit`. -/
structure Mapped (r : Req) (l bs p : ℕ) (map : ℕ → ℕ) (limit : ℕ) : Prop where
  lt : ∀ i, p / bs ≤ i → i * bs < p + r.len → map i * 2 ^ l < 2 ^ 31
  ne : ∀ i j, p / bs ≤ i → i < j → j * bs < p + r.len → map i ≠ 0 → map i ≠ map j
  le : ∀ i, p / bs ≤ i → i * bs < p + r.len → map i ≠ 0 → (map i + 1) * 2 ^ l ≤ limit

section Blockwise

variable {r : Req} {l bs p : ℕ} {map : ℕ → ℕ} {disk : Disk} {limit i : ℕ} {v : Vars}

/-- The extent of `v` before block `i`: it starts `sk` bytes into sector `st`. -/
structure Extent (r : Req) (l bs p : ℕ) (map : ℕ → ℕ) (disk : Disk) (limit i : ℕ) (v : Vars)
    (st sk ex : ℕ) : Prop where
  start_eq : v.delayedStart = st
  skip_eq : v.delayedSkipfirst = sk
  extent_eq : v.delayedExtent = ex
  end_eq : v.delayedBuf + ex = r.asked bs p i
  lt : st < 2 ^ 31
  pos : 0 < sk + ex
  small : sk = 0 ∨ sk + ex ≤ bs
  le : 512 * st + sk + ex ≤ 512 * limit
  bytes : ∀ j < ex, disk (512 * st + sk + j) = contents map disk bs (p + v.delayedBuf + j)
  next : i * bs < p + r.len → v.delayedNext = (map i * 2 ^ l : ℕ) →
    map i * bs = 512 * st + ex ∧ sk = 0

/-- The state before block `i`: what was asked for before the extent is stored. -/
structure Inv (r : Req) (l bs p : ℕ) (map : ℕ → ℕ) (disk : Disk) (limit i : ℕ) (v : Vars) :
    Prop where
  buf_eq : v.buf = i * bs - p
  stored : ∀ x < if v.previousBlockNumber = -1 then r.asked bs p i else v.delayedBuf,
    overlay v.out x = some (contents map disk bs (p + x))
  later : v.previousBlockNumber ≠ -1 → p / bs < i
  extent : v.previousBlockNumber ≠ -1 → ∃ st sk ex, Extent r l bs p map disk limit i v st sk ex

/-- The state before block `i` once the extent is read. -/
structure Flushed (r : Req) (bs p : ℕ) (map : ℕ → ℕ) (disk : Disk) (i : ℕ) (v : Vars) : Prop where
  buf_eq : v.buf = i * bs - p
  stored : ∀ x < r.asked bs p i, overlay v.out x = some (contents map disk bs (p + x))

theorem contents_eq {q j : ℕ} (hj : j < bs) (hq : q = i * bs + j) :
    contents map disk bs q = if map i = 0 then 0 else disk (map i * bs + j) := by
  have hdiv : q / bs = i := by
    rw [hq, Nat.mul_comm, Nat.mul_add_div (by omega), Nat.div_eq_of_lt hj, Nat.add_zero]
  have hmod : q % bs = j := by
    rw [hq, Nat.mul_comm, Nat.mul_add_mod, Nat.mod_eq_of_lt hj]
  rw [contents, hdiv, hmod]

/-- Only the block behind a whole block is taken to be the next one. -/
theorem Mapped.next_eq (hm : Mapped r l bs p map limit) (hfit : r.Fits l bs p) (hi : p / bs ≤ i)
    (hlast : (i + 1) * bs < p + r.len) (hmap : map i ≠ 0)
    (hadj : int32 ((map i * 2 ^ l : ℕ) + (r.part bs p i : ℤ) / 512) = (map (i + 1) * 2 ^ l : ℕ)) :
    map (i + 1) * bs = 512 * (map i * 2 ^ l) + r.part bs p i ∧ p - i * bs = 0 := by
  have hlt : i * bs < p + r.len := (Nat.mul_le_mul_right _ (Nat.le_succ i)).trans_lt hlast
  have hbs := hfit.bs_eq
  have hle := hfit.bs_le
  have hpart := hfit.skip_add_part_of_lt hi hlast
  have hmlt := hm.lt i hi hlt
  have hmlt' := hm.lt (i + 1) (by omega) hlast
  have hsec : 512 * (map (i + 1) * 2 ^ l) = map (i + 1) * bs := by rw [hbs, Nat.mul_left_comm]
  have heq : map i * 2 ^ l + r.part bs p i / 512 = map (i + 1) * 2 ^ l := by
    have hint := eq_of_int32_eq hadj (by omega) (by omega) (by omega)
    omega
  by_cases hskip : p - i * bs = 0
  · refine ⟨?_, hskip⟩
    rw [← hsec, ← heq]
    omega
  · -- A block read from its middle on ends before the next sector of the map.
    have hshort : r.part bs p i / 512 < 2 ^ l := by omega
    have hge : map i ≤ map (i + 1) :=
      Nat.le_of_mul_le_mul_right (heq ▸ Nat.le_add_right _ _) (Nat.two_pow_pos l)
    have hlt' : map (i + 1) < map i + 1 := by
      apply Nat.lt_of_mul_lt_mul_right (a := 2 ^ l)
      rw [Nat.succ_mul]
      omega
    exact (hm.ne i (i + 1) hi (by omega) hlast hmap (by omega)).elim

/-- A block that starts a new extent. -/
theorem Flushed.delay (hfit : r.Fits l bs p) (hm : Mapped r l bs p map limit)
    (h : Flushed r bs p map disk i v) (hi : p / bs ≤ i) (hlt : i * bs < p + r.len)
    (hmap : map i ≠ 0) :
    Inv r l bs p map disk limit (i + 1)
      ((v.delay (map i * 2 ^ l : ℕ) (r.blockend i) (r.skipfirst i)).advance
        (bs - (p - i * bs))) := by
  have hbs := hfit.bs_eq
  have hsec : 512 * (map i * 2 ^ l) = map i * bs := by rw [hbs, Nat.mul_left_comm]
  have hmlt := hm.lt i hi hlt
  have hlim : 512 * ((map i + 1) * 2 ^ l) ≤ 512 * limit :=
    Nat.mul_le_mul_left _ (hm.le i hi hlt hmap)
  rw [Nat.mul_left_comm, ← hbs, Nat.succ_mul] at hlim
  have hpart := hfit.skip_add_part hi
  have hbuf := h.buf_eq
  rw [hfit.blockend_eq hi hlt, hfit.skipfirst_eq hi]
  refine ⟨?_, ?_, fun _ => by omega, fun _ => ⟨map i * 2 ^ l, p - i * bs, r.part bs p i,
    rfl, rfl, rfl, ?_, hmlt, hfit.skip_add_part_pos hi hlt, .inr hpart, ?_, ?_, ?_⟩⟩
  · show v.buf + _ = _
    rw [hbuf, hfit.buf_step hi]
  · intro x hx
    have hprev : ¬ ((map i * 2 ^ l : ℕ) : ℤ) = -1 := by omega
    have hx : x < if ((map i * 2 ^ l : ℕ) : ℤ) = -1 then r.asked bs p (i + 1) else v.buf := hx
    rw [if_neg hprev, hbuf, ← Req.asked_eq hlt] at hx
    exact h.stored x hx
  · show v.buf + r.part bs p i = r.asked bs p (i + 1)
    rw [hbuf, hfit.buf_add_part hi hlt]
  · rw [hsec]
    omega
  · intro j hj
    have hnext := hfit.lt_next hi
    have hin : p - i * bs + j < bs := by omega
    have hq : p + v.buf + j = i * bs + (p - i * bs + j) := by omega
    have haddr : 512 * (map i * 2 ^ l) + (p - i * bs) + j = map i * bs + (p - i * bs + j) := by
      rw [hsec]
      omega
    show disk (512 * (map i * 2 ^ l) + (p - i * bs) + j) = contents map disk bs (p + v.buf + j)
    rw [contents_eq hin hq, if_neg hmap, haddr]
  · intro hlast hadj
    simp only [Vars.advance, Vars.delay] at hadj
    exact hm.next_eq hfit hi hlast hmap hadj

/-- A block that is added to the extent. -/
theorem Inv.merge (hfit : r.Fits l bs p) (hm : Mapped r l bs p map limit)
    (h : Inv r l bs p map disk limit i v) (hlt : i * bs < p + r.len) (hlen : r.len < 2 ^ 31)
    (hmap : map i ≠ 0) (hprev : v.previousBlockNumber ≠ -1)
    (hadj : v.delayedNext = (map i * 2 ^ l : ℕ)) :
    Inv r l bs p map disk limit (i + 1) ((v.merge (r.blockend i)).advance (bs - (p - i * bs))) := by
  have hlater := h.later hprev
  have hi : p / bs ≤ i := hlater.le
  have hstart := hfit.lt_of_later hlater
  have hbs := hfit.bs_eq
  have hlim : 512 * ((map i + 1) * 2 ^ l) ≤ 512 * limit :=
    Nat.mul_le_mul_left _ (hm.le i hi hlt hmap)
  rw [Nat.mul_left_comm, ← hbs, Nat.succ_mul] at hlim
  have hpart := hfit.skip_add_part hi
  have hgrow := hfit.buf_add_part hi hlt
  have hle := r.asked_le bs p (i + 1)
  obtain ⟨st, sk, ex, hext⟩ := h.extent hprev
  obtain ⟨hcont, hsk⟩ := hext.next hlt hadj
  have hend := hext.end_eq
  rw [Req.asked_eq hlt] at hend
  rw [hfit.blockend_eq hi hlt]
  refine ⟨?_, ?_, fun _ => by omega, fun _ => ⟨st, sk, ex + r.part bs p i,
    hext.start_eq, hext.skip_eq, ?_, ?_, hext.lt, ?_, .inl hsk, ?_, ?_, ?_⟩⟩
  · show v.buf + _ = _
    rw [h.buf_eq, hfit.buf_step hi]
  · intro x hx
    have hx : x < if v.previousBlockNumber = -1 then r.asked bs p (i + 1) else v.delayedBuf := hx
    rw [if_neg hprev] at hx
    apply h.stored
    rwa [if_neg hprev]
  · show int32 (v.delayedExtent + r.part bs p i) = (ex + r.part bs p i : ℕ)
    rw [hext.extent_eq]
    exact int32_natCast (by omega)
  · show v.delayedBuf + (ex + r.part bs p i) = r.asked bs p (i + 1)
    omega
  · have hpos := hext.pos
    omega
  · omega
  · intro j hj
    show _ = contents map disk bs (p + v.delayedBuf + j)
    by_cases hold : j < ex
    · exact hext.bytes j hold
    · have hin : j - ex < bs := by omega
      have hq : p + v.delayedBuf + j = i * bs + (j - ex) := by omega
      have haddr : 512 * st + sk + j = map i * bs + (j - ex) := by omega
      rw [contents_eq hin hq, if_neg hmap, haddr]
  · intro hlast hnext
    simp only [Vars.advance, Vars.merge, hadj] at hnext
    obtain ⟨hsame, -⟩ := hm.next_eq hfit hi hlast hmap hnext
    have hsec : 512 * (map i * 2 ^ l) = map i * bs := by rw [hbs, Nat.mul_left_comm]
    omega

/-- A hole. -/
theorem Flushed.zero (hfit : r.Fits l bs p) (h : Flushed r bs p map disk i v) (hi : p / bs ≤ i)
    (hlt : i * bs < p + r.len) (hmap : map i = 0) :
    Inv r l bs p map disk limit (i + 1)
      ((v.zero (bs - (p - i * bs))).advance (bs - (p - i * bs))) := by
  have hbuf := h.buf_eq
  have hstep := hfit.buf_step hi
  have hnext := hfit.lt_next hi
  have hsucc : (i + 1) * bs = i * bs + bs := Nat.succ_mul i bs
  refine ⟨?_, ?_, fun hne => (hne rfl).elim, fun hne => (hne rfl).elim⟩
  · show v.buf + _ = _
    rw [hbuf, hstep]
  · intro x hx
    have hx : x < min ((i + 1) * bs) (p + r.len) - p := hx
    have hold := h.stored x
    rw [Req.asked_eq hlt] at hold
    show overlay (v.out ++ [(v.buf, List.replicate (bs - (p - i * bs)) 0)]) x = _
    rw [overlay_append]
    by_cases hnew : v.buf ≤ x
    · have hin : p + x - i * bs < bs := by omega
      have hq : p + x = i * bs + (p + x - i * bs) := by omega
      have hidx : x - v.buf < bs - (p - i * bs) := by omega
      have hrange : v.buf ≤ x ∧
      x < v.buf + (List.replicate (bs - (p - i * bs)) (0 : Byte)).length := by
        rw [List.length_replicate]
        omega
      rw [overlay, if_pos hrange, overlay_nil, contents_eq hin hq, if_pos hmap, Option.none_or,
        Option.some_or]
      exact congrArg some (List.getD_replicate _ hidx)
    · have hrange : ¬ (v.buf ≤ x ∧
          x < v.buf + (List.replicate (bs - (p - i * bs)) (0 : Byte)).length) := by omega
      rw [overlay, if_neg hrange, overlay_nil]
      exact hold (by omega)

theorem inv_init (hp : p / bs * bs ≤ p) :
    Inv r l bs p map disk limit (p / bs) .init := by
  refine ⟨?_, ?_, fun h => (h rfl).elim, fun h => (h rfl).elim⟩
  · show 0 = _
    omega
  · intro x hx
    have hx : x < min (p / bs * bs) (p + r.len) - p := hx
    omega

/-! The run of the loop, when the block map is `map` and the device reads succeed. -/

variable {σ ε : Type} {readBlock : ℤ → Prog σ ε ℤ}
  {devread : ℤ → ℤ → ℤ → ℤ → Prog σ ε (Bool × List Write)} {I : σ → Prop} {J : ℕ → σ → Prop}
  {s : σ}

/-- `devread` delivers the bytes of the disk below sector `limit`, from every state
    in `I`, and stays in `I`. -/
def Fetches (devread : ℤ → ℤ → ℤ → ℤ → Prog σ ε (Bool × List Write)) (I : σ → Prop) (disk : Disk)
    (limit : ℕ) : Prop :=
  ∀ st sk ex : ℕ, st < 2 ^ 31 → 0 < sk + ex → sk + ex < 2 ^ 31 →
    512 * st + sk + ex ≤ 512 * limit →
    ∀ s, I s → ∃ ws s', devread st 0 sk ex s = some (.ok (true, ws), s') ∧ I s' ∧
      Puts ws (load disk (512 * st + sk) ex)

/-- `readBlock` returns `map i` for every block of the request, from every state in
    `I`, and stays in `I`. -/
def Maps (readBlock : ℤ → Prog σ ε ℤ) (I : σ → Prop) (r : Req) (bs p : ℕ) (map : ℕ → ℕ) : Prop :=
  ∀ i : ℕ, p / bs ≤ i → i * bs < p + r.len →
    ∀ s, I s → ∃ s', readBlock i s = some (.ok (map i : ℤ), s') ∧ I s'

/-- `readBlock` returns `map i` for every block of the request, and leads from `J i` to
    `J (i + 1)`. -/
def MapsAt (readBlock : ℤ → Prog σ ε ℤ) (J : ℕ → σ → Prop) (r : Req) (bs p : ℕ) (map : ℕ → ℕ) :
    Prop :=
  ∀ i : ℕ, p / bs ≤ i → i * bs < p + r.len →
    ∀ s, J i s → ∃ s', readBlock i s = some (.ok (map i : ℤ), s') ∧ J (i + 1) s'

/-- Block `e` is the one behind the blocks of the request. -/
structure Behind (r : Req) (bs p e : ℕ) : Prop where
  le : p / bs ≤ e
  before : ∀ i < e, p / bs ≤ i → i * bs < p + r.len
  behind : p + r.len ≤ e * bs

theorem Puts.overlay_shift {ws : List Write} {bytes : List Byte} (h : Puts ws bytes) {a x : ℕ}
    (hx : a ≤ x) (hx' : x < a + bytes.length) :
    overlay (ws.map (Write.shift a)) x = some (byteAt bytes (x - a)) := by
  have hadd : a + (x - a) = x := by omega
  have hshift := Lib.overlay_shift a ws (x - a)
  rw [hadd] at hshift
  rw [hshift, h.2 _ (by omega)]

theorem overlay_shift_before {ws : List Write} {a x : ℕ} (hx : x < a) :
    overlay (ws.map (Write.shift a)) x = none := by
  apply overlay_of_avoids
  intro w hw
  obtain ⟨w', -, rfl⟩ := List.mem_map.mp hw
  right
  show x + 1 ≤ a + w'.1
  omega

theorem overlay_of_behind {ws : List Write} {n x : ℕ} (h : ∀ w ∈ ws, w.1 + w.2.length ≤ n)
    (hx : n ≤ x) : overlay ws x = none := by
  apply overlay_of_avoids
  intro w hw
  exact .inl ((h w hw).trans hx)

/-- Reading the extent stores what was asked for before the block. -/
theorem Inv.flush (hfit : r.Fits l bs p) (hlen : r.len < 2 ^ 31) (hdev : Fetches devread I disk limit)
    (h : Inv r l bs p map disk limit i v) (hs : I s) :
    ∃ v' s', spillDelayed devread v s = some (.ok (true, v'), s') ∧ I s' ∧
      Flushed r bs p map disk i v' := by
  unfold spillDelayed
  by_cases hprev : v.previousBlockNumber = -1
  · rw [if_neg (not_not_intro hprev)]
    refine ⟨v, s, rfl, hs, h.buf_eq, ?_⟩
    have hold := h.stored
    rwa [if_pos hprev] at hold
  · have hold := h.stored
    rw [if_neg hprev] at hold
    obtain ⟨st, sk, ex, hext⟩ := h.extent hprev
    have hend := hext.end_eq
    have hsmall : sk + ex < 2 ^ 31 := by
      have hle := hfit.bs_le
      have hsk := hext.small
      have hle' := r.asked_le bs p i
      omega
    obtain ⟨ws, s', hrun, hs', hputs⟩ := hdev st sk ex hext.lt hext.pos hsmall hext.le s hs
    rw [if_pos hprev]
    refine ⟨v.spilled ws, s', ?_, hs', h.buf_eq, ?_⟩
    · unfold spill
      rw [hext.start_eq, hext.skip_eq, hext.extent_eq, Prog.bind_ok hrun]
      rfl
    · intro x hx
      show overlay (v.out ++ ws.map (Write.shift v.delayedBuf)) x = _
      rw [overlay_append]
      by_cases hnew : v.delayedBuf ≤ x
      · have hj : x - v.delayedBuf < ex := by omega
        have hx' : x < v.delayedBuf + (load disk (512 * st + sk) ex).length := by
          rw [length_load]
          omega
        have hadd : p + v.delayedBuf + (x - v.delayedBuf) = p + x := by omega
        rw [hputs.overlay_shift hnew hx', Option.some_or, byteAt_load hj, hext.bytes _ hj, hadd]
      · rw [overlay_shift_before (by omega), Option.none_or]
        exact hold x (by omega)

/-- One round of the loop. -/
theorem Inv.block (hfit : r.Fits l bs p) (hlen : r.len < 2 ^ 31) (hm : Mapped r l bs p map limit)
    (hread : MapsAt readBlock J r bs p map) (hdev : ∀ i, Fetches devread (J i) disk limit)
    (h : Inv r l bs p map disk limit i v) (hi : p / bs ≤ i) (hlt : i * bs < p + r.len)
    (hs : J i s) :
    ∃ v' s', block readBlock devread r i v s = some (.ok (true, v'), s') ∧ J (i + 1) s' ∧
      Inv r l bs p map disk limit (i + 1) v' := by
  have hle := hfit.le
  have hsec : shl32 (map i) r.log2blocksize = (map i * 2 ^ l : ℕ) := by
    rw [hfit.log2, shl32_natCast (by omega) (hm.lt i hi hlt)]
  have hstep := hfit.step_eq hi
  obtain ⟨s1, hrun, hs1⟩ := hread i hi hlt s hs
  unfold Ext2.block
  rw [Prog.bind_ok hrun, if_neg (by omega), hsec, hstep]
  by_cases hmap : map i = 0
  · have hzero : ¬ ((map i * 2 ^ l : ℕ) : ℤ) ≠ 0 := by
      rw [hmap, Nat.zero_mul]
      exact not_not_intro rfl
    obtain ⟨v2, s2, hflush, hs2, hv2⟩ := h.flush hfit hlen (hdev (i + 1)) hs1
    have hhole : holeBlock devread r i v s1 =
        some (.ok (true, v2.zero (bs - (p - i * bs))), s2) := by
      unfold holeBlock
      rw [Prog.bind_ok hflush, hstep]
      rfl
    refine ⟨_, s2, ?_, hs2, hv2.zero hfit hi hlt hmap⟩
    rw [if_neg hzero, Prog.bind_ok hhole]
    rfl
  · have hpos := Nat.mul_pos (Nat.pos_of_ne_zero hmap) (Nat.two_pow_pos l)
    have hnz : ((map i * 2 ^ l : ℕ) : ℤ) ≠ 0 := by omega
    rw [if_pos hnz]
    by_cases hadj : v.previousBlockNumber ≠ -1 ∧ v.delayedNext = (map i * 2 ^ l : ℕ)
    · have hdata : dataBlock devread r i (map i * 2 ^ l : ℕ) v s1 =
          some (.ok (true, v.merge (r.blockend i)), s1) := by
        unfold dataBlock
        rw [if_pos hadj]
        rfl
      refine ⟨_, s1, ?_, hs1, h.merge hfit hm hlt hlen hmap hadj.1 hadj.2⟩
      rw [Prog.bind_ok hdata]
      rfl
    · obtain ⟨v2, s2, hflush, hs2, hv2⟩ := h.flush hfit hlen (hdev (i + 1)) hs1
      have hdata : dataBlock devread r i (map i * 2 ^ l : ℕ) v s1 =
          some (.ok (true, v2.delay (map i * 2 ^ l : ℕ) (r.blockend i) (r.skipfirst i)), s2) := by
        unfold dataBlock
        rw [if_neg hadj, Prog.bind_ok hflush]
        rfl
      refine ⟨_, s2, ?_, hs2, hv2.delay hfit hm hi hlt hmap⟩
      rw [Prog.bind_ok hdata]
      rfl

/-- The rounds of the loop. -/
theorem Inv.blocks (hfit : r.Fits l bs p) (hlen : r.len < 2 ^ 31) (hm : Mapped r l bs p map limit)
    (hread : MapsAt readBlock J r bs p map) (hdev : ∀ i, Fetches devread (J i) disk limit)
    (hb : Bounded devread) (n : ℕ) (h : Inv r l bs p map disk limit i v) (hi : p / bs ≤ i)
    (hlt : ∀ k < i + n, i ≤ k → k * bs < p + r.len) (hs : J i s) :
    ∃ v' s', blocks readBlock devread r n i v s = some (.ok (true, v'), s') ∧ J (i + n) s' ∧
      Inv r l bs p map disk limit (i + n) v' ∧
      ∀ m ≥ r.len, Filled r bs p map m i v → Filled r bs p map m (i + n) v' := by
  induction n generalizing i v s with
  | zero => exact ⟨v, s, rfl, hs, h, fun _ _ hv => hv⟩
  | succ n ih =>
    have hlti := hlt i (by omega) (le_refl i)
    obtain ⟨s0, hmap, -⟩ := hread i hi hlti s hs
    have hsec : shl32 (map i) r.log2blocksize = 0 ↔ map i = 0 := by
      have hle := hfit.le
      have hpos := Nat.two_pow_pos l
      rw [hfit.log2, shl32_natCast (by omega) (hm.lt i hi hlti)]
      constructor
      · intro hzero
        exact (Nat.mul_eq_zero.mp (by exact_mod_cast hzero)).resolve_right hpos.ne'
      · intro hzero
        rw [hzero, Nat.zero_mul]
        rfl
    obtain ⟨v1, s1, hrun, hs1, hv1⟩ := h.block hfit hlen hm hread hdev hi hlti hs
    obtain ⟨v2, s2, hrest, hs2, hv2, hfill⟩ :=
      ih hv1 (by omega) (fun k hk hik => hlt k (by omega) (by omega)) hs1
    have hidx : i + 1 + n = i + (n + 1) := by omega
    rw [hidx] at hs2 hv2 hfill
    refine ⟨v2, s2, ?_, hs2, hv2, fun m hm' hv => ?_⟩
    · unfold Ext2.blocks
      rw [Prog.bind_ok hrun]
      exact hrest
    · exact hfill m hm' (hv.block hfit hlen hb hm' hi hlti hsec hmap hrun)

/-- The request is answered with the bytes of the file, and the stores go as far as the
    holes do. -/
theorem readFile_eq (hfit : r.Fits l bs p) (hlen : r.len < 2 ^ 31) (hm : Mapped r l bs p map limit)
    (hread : MapsAt readBlock J r bs p map) (hdev : ∀ i, Fetches devread (J i) disk limit)
    (hb : Bounded devread) (hs : J (p / bs) s) :
    ∃ out s' e, readFile readBlock devread r s = some (.ok ((r.len : ℤ), out), s') ∧
      Behind r bs p e ∧ J e s' ∧
      (∀ x < r.len, overlay out x = some (contents map disk bs (p + x))) ∧
      ∀ m ≥ r.len, (∀ w ∈ out, w.1 + w.2.length ≤ m) ↔ HolesEnd bs p map m e := by
  have hcnt := hfit.blockcnt_eq
  have hfirst := hfit.first_eq
  obtain ⟨n, hn⟩ : ∃ n, (r.blockcnt - r.first).toNat = n := ⟨_, rfl⟩
  have hlt : ∀ k < p / bs + n, p / bs ≤ k → k * bs < p + r.len := by
    intro k hk _
    apply hfit.lt_cnt_iff.mp
    omega
  have hend : p + r.len ≤ (p / bs + n) * bs := by
    apply Nat.le_of_not_lt
    intro hmore
    have hmore := hfit.lt_cnt_iff.mpr hmore
    omega
  have hle := Nat.div_mul_le_self p bs
  have hinit : Inv r l bs p map disk limit (p / bs) .init := inv_init hle
  obtain ⟨v1, s1, hrun, hs1, hv1, hfill⟩ :=
    hinit.blocks hfit hlen hm hread hdev hb n (le_refl _) hlt hs
  obtain ⟨v2, s2, hflush, hs2, hv2⟩ := hv1.flush hfit hlen (hdev _) hs1
  refine ⟨v2.out, s2, p / bs + n, ?_, ⟨Nat.le_add_right _ _, hlt, hend⟩, hs2, ?_, ?_⟩
  · unfold readFile
    rw [hn, hfirst, Prog.bind_ok hrun]
    simp only [if_true]
    rw [Prog.bind_ok hflush]
    simp only [if_true, int32_natCast hlen, Prog.pure_apply]
  · intro x hx
    apply hv2.stored
    show x < min ((p / bs + n) * bs) (p + r.len) - p
    omega
  · intro m hm'
    exact ((hfill m hm' (filled_init hle)).flush hb hm' hflush).2

end Blockwise

end SmartQ.Qi.Ext2
