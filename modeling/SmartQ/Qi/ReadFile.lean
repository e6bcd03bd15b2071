import SmartQ.Lib.CInt
import SmartQ.Lib.Disk
import SmartQ.Lib.Prog

/-!
# `ext2fs_read_file`

The loop over the blocks of a file, which delays the reads of adjacent blocks and
merges them into one. It is written over any block map and any device read, as
program fragments over any state; `buf` is the destination, and the result lists
the stores in it.

* `Req.Fits`: the requests none of whose numbers wraps.
* `Req.Fits.blockend_eq`, `Req.Fits.buf_add_part`: the part of each block that is
  asked for, and where it goes.
* `readFile_one`: a request within a block is one device read.
-/

namespace SmartQ.Qi.Ext2

open SmartQ.Lib

/-! ## The request -/

/-- What `ext2fs_read_file` works out before the loop; `len` is adjusted to the size
    of the file. -/
structure Req where
  log2blocksize : ℤ
  pos : ℤ
  len : ℕ

namespace Req

variable (r : Req)

/-- `blocksize`, the bytes of a block of the file system. -/
def blocksize : ℤ := shl32 1 (r.log2blocksize + 9)

/-- `len + pos`, an `unsigned int`. -/
def total : ℕ := add32 r.len (toU32 r.pos)

/-- `blockcnt`, the number of blocks up to the end of the request, with unsigned arithmetic. -/
def blockcnt : ℤ := int32 (add32 r.total (toU32 (r.blocksize - 1)) / toU32 r.blocksize : ℕ)

/-- `pos / blocksize`: the block of the file in which the request begins. -/
def first : ℤ := cdiv r.pos r.blocksize

/-- `skipfirst`, the bytes of the first block in front of `pos`; nothing is skipped in the others.
    -/
def skipfirst (i : ℤ) : ℤ := if i = r.first then cmod r.pos r.blocksize else 0

/-- `blockend` before the first block is considered. -/
def lastend (i : ℤ) : ℤ :=
  if i = r.blockcnt - 1 then
    let e := int32 (r.total % toU32 r.blocksize : ℕ)
    if e = 0 then r.blocksize else e
  else r.blocksize

/-- `blockend` of block `i`, the number of bytes that are read of it: in the first one what is
    skipped is taken off. -/
def blockend (i : ℤ) : ℤ :=
  if i = r.first then int32 (r.lastend i - r.skipfirst i) else r.lastend i

/-- `blocksize - skipfirst`, the size of a `memset` and how far `buf` moves on. -/
def step (i : ℤ) : ℕ := toU32 (r.blocksize - r.skipfirst i)

end Req

/-! ## The loop -/

/-- The variables of the loop. `buf` and `delayedBuf` count from the destination, and
    `out` has the stores so far. -/
structure Vars where
  buf : ℕ
  previousBlockNumber : ℤ
  delayedStart : ℤ
  delayedExtent : ℤ
  delayedSkipfirst : ℤ
  delayedNext : ℤ
  delayedBuf : ℕ
  out : List Write

namespace Vars

/-- The variables in front of the loop: no extent is delayed and nothing is stored. -/
def init : Vars := ⟨0, -1, 0, 0, 0, 0, 0, []⟩

/-- Start a new extent with the block, to be read when it is known how far it goes on. -/
def delay (v : Vars) (blknr blockend skipfirst : ℤ) : Vars :=
  { v with
    previousBlockNumber := blknr, delayedStart := blknr, delayedExtent := blockend,
    delayedSkipfirst := skipfirst, delayedBuf := v.buf,
    delayedNext := int32 (blknr + blockend / 512) }

/-- Add a block to the extent. -/
def merge (v : Vars) (blockend : ℤ) : Vars :=
  { v with
    delayedExtent := int32 (v.delayedExtent + blockend)
    delayedNext := int32 (v.delayedNext + blockend / 512) }

/-- The stores of a device read of the extent. -/
def spilled (v : Vars) (ws : List Write) : Vars :=
  { v with out := v.out ++ ws.map (Write.shift v.delayedBuf) }

/-- `memset(buf, 0, n)`: what is read of a hole, which also ends the run before it. -/
def zero (v : Vars) (n : ℕ) : Vars :=
  { v with previousBlockNumber := -1, out := v.out ++ [(v.buf, List.replicate n 0)] }

/-- `buf += n`: the place of the next block in the buffer of the caller. -/
def advance (v : Vars) (n : ℕ) : Vars := { v with buf := v.buf + n }

end Vars

section Code

variable {σ ε : Type} (readBlock : ℤ → Prog σ ε ℤ)
  (devread : ℤ → ℤ → ℤ → ℤ → Prog σ ε (Bool × List Write)) (r : Req)

/-- Read the delayed extent; `false` if that fails. -/
def spill (v : Vars) : Prog σ ε (Bool × Vars) := do
  let (ok, ws) ← devread v.delayedStart 0 v.delayedSkipfirst v.delayedExtent
  pure (ok, v.spilled ws)

/-- The extent is read if there is one. -/
def spillDelayed (v : Vars) : Prog σ ε (Bool × Vars) :=
  if v.previousBlockNumber ≠ -1 then spill devread v else pure (true, v)

/-- A block that is on the disk. -/
def dataBlock (i blknr : ℤ) (v : Vars) : Prog σ ε (Bool × Vars) :=
  if v.previousBlockNumber ≠ -1 ∧ v.delayedNext = blknr then
    pure (true, v.merge (r.blockend i))
  else do
    let (ok, v) ← spillDelayed devread v
    pure (ok, if ok then v.delay blknr (r.blockend i) (r.skipfirst i) else v)

/-- A block that is not: it is zero filled, the last one like the others. -/
def holeBlock (i : ℤ) (v : Vars) : Prog σ ε (Bool × Vars) := do
  let (ok, v) ← spillDelayed devread v
  pure (ok, if ok then v.zero (r.step i) else v)

/-- The body of the loop; `false` is `return -1`. -/
def block (i : ℤ) (v : Vars) : Prog σ ε (Bool × Vars) := do
  let blknr ← readBlock i
  if blknr < 0 then pure (false, v)
  else do
    let blknr := shl32 blknr r.log2blocksize
    let (ok, v) ← if blknr ≠ 0 then dataBlock devread r i blknr v else holeBlock devread r i v
    pure (ok, if ok then v.advance (r.step i) else v)

/-- `n` rounds of the loop from `i` on. -/
def blocks : ℕ → ℤ → Vars → Prog σ ε (Bool × Vars)
  | 0, _, v => pure (true, v)
  | n + 1, i, v => do
    let (ok, v) ← block readBlock devread r i v
    if ok then blocks n (i + 1) v else pure (false, v)

/-- `ext2fs_read_file`: the result and the stores in the destination. -/
def readFile : Prog σ ε (ℤ × List Write) := do
  let (ok, v) ← blocks readBlock devread r (r.blockcnt - r.first).toNat r.first .init
  if ok then do
    let (ok, v) ← spillDelayed devread v
    pure (if ok then int32 r.len else -1, v.out)
  else pure (-1, v.out)

end Code

/-! ## Requests that do not wrap -/

/-- A request for `len` bytes at `p` of a file of blocks of `bs` bytes, `2 ^ l`
    sectors, none of whose numbers wraps. -/
structure Req.Fits (r : Req) (l bs p : ℕ) : Prop where
  log2 : r.log2blocksize = l
  one_le : 1 ≤ l
  le : l ≤ 21
  bs_eq : bs = 512 * 2 ^ l
  pos_eq : r.pos = p
  lt : p < 2 ^ 31
  total_le : p + r.len + bs ≤ 2 ^ 32

/-- How much of block `i` is asked for. -/
def Req.part (r : Req) (bs p i : ℕ) : ℕ := min (i * bs + bs) (p + r.len) - max (i * bs) p

/-- How much of the request lies before block `i`. -/
def Req.asked (r : Req) (bs p i : ℕ) : ℕ := min (i * bs) (p + r.len) - p

theorem Req.asked_le (r : Req) (bs p i : ℕ) : r.asked bs p i ≤ r.len := by
  unfold Req.asked
  omega

theorem Req.asked_eq {r : Req} {bs p i : ℕ} (hlt : i * bs < p + r.len) :
    r.asked bs p i = i * bs - p := by
  unfold Req.asked
  omega

namespace Req.Fits

variable {r : Req} {l bs p : ℕ} (h : r.Fits l bs p)

include h

theorem bs_le : bs ≤ 2 ^ 30 := by
  have hpow : 2 ^ l ≤ 2 ^ 21 := Nat.pow_le_pow_right (by norm_num) h.le
  rw [h.bs_eq]
  omega

theorem le_bs : 2 ^ 10 ≤ bs := by
  have hpow : 2 ^ 1 ≤ 2 ^ l := Nat.pow_le_pow_right (by norm_num) h.one_le
  rw [h.bs_eq]
  omega

theorem blocksize_eq : r.blocksize = bs := by
  have hle := h.le
  have hbs := h.bs_le
  have hpow : 1 * 2 ^ (l + 9) = bs := by
    rw [h.bs_eq, pow_add, Nat.one_mul, Nat.mul_comm]
    norm_num
  have hshl : shl32 (1 : ℕ) (l + 9 : ℕ) = (1 * 2 ^ (l + 9) : ℕ) :=
    shl32_natCast (by omega) (by omega)
  rw [hpow] at hshl
  rw [Req.blocksize, h.log2]
  exact hshl

theorem total_eq : r.total = p + r.len := by
  have htotal := h.total_le
  have hpos := h.le_bs
  have hlt := h.lt
  rw [Req.total, h.pos_eq, toU32_natCast (by omega), add32_of_lt (by omega), Nat.add_comm]

theorem blockcnt_eq : r.blockcnt = ((p + r.len + bs - 1) / bs : ℕ) := by
  have htotal := h.total_le
  have hle := h.bs_le
  have hge := h.le_bs
  have hpred : r.blocksize - 1 = (bs - 1 : ℕ) := by
    rw [h.blocksize_eq]
    omega
  have hdiv : (p + r.len + bs - 1) / bs < 2 ^ 31 := by
    calc (p + r.len + bs - 1) / bs ≤ 2 ^ 32 / 2 ^ 10 := Nat.div_le_div (by omega) hge (by norm_num)
      _ < 2 ^ 31 := by norm_num
  rw [Req.blockcnt, h.total_eq, hpred, h.blocksize_eq, toU32_natCast (by omega),
    toU32_natCast (by omega), add32_of_lt (by omega),
    show p + r.len + (bs - 1) = p + r.len + bs - 1 by omega, int32_natCast hdiv]

theorem first_eq : r.first = (p / bs : ℕ) := by
  rw [Req.first, h.pos_eq, h.blocksize_eq, cdiv_natCast h.lt]

/-- The blocks of the loop are those that start before the end of the request. -/
theorem lt_cnt_iff {t i : ℕ} : i < (t + bs - 1) / bs ↔ i * bs < t := by
  have hpos := h.le_bs
  show i + 1 ≤ _ ↔ _
  rw [Nat.le_div_iff_mul_le (by omega), Nat.succ_mul]
  omega

/-- A block of the loop ends behind the start of the request. -/
theorem lt_next {i : ℕ} (hi : p / bs ≤ i) : p < i * bs + bs := by
  have hmod := Nat.mod_lt p (show bs > 0 by have := h.le_bs; omega)
  have hdiv := Nat.div_add_mod p bs
  have hle : p / bs * bs ≤ i * bs := Nat.mul_le_mul_right _ hi
  rw [Nat.mul_comm] at hle
  omega

/-- The blocks after the first one start behind it. -/
theorem lt_of_later {i : ℕ} (hi : p / bs < i) : p < i * bs := by
  have hlt := h.lt_next (le_refl (p / bs))
  have hle : (p / bs + 1) * bs ≤ i * bs := Nat.mul_le_mul_right _ hi
  rw [Nat.succ_mul] at hle
  omega

theorem skipfirst_eq {i : ℕ} (hi : p / bs ≤ i) : r.skipfirst i = (p - i * bs : ℕ) := by
  have hge := h.le_bs
  have hdiv := Nat.div_add_mod p bs
  rw [Req.skipfirst, h.first_eq, h.pos_eq, h.blocksize_eq, cmod_natCast (by omega)]
  by_cases hfirst : i = p / bs
  · rw [if_pos (by rw [hfirst]), hfirst, Nat.mul_comm]
    exact congrArg Nat.cast (by omega)
  · have hlt := h.lt_of_later (by omega : p / bs < i)
    rw [if_neg (by exact_mod_cast hfirst), Nat.sub_eq_zero_of_le hlt.le]
    rfl

theorem lastend_eq {i : ℕ} (hlt : i * bs < p + r.len) :
    r.lastend i = (min bs (p + r.len - i * bs) : ℕ) := by
  have hge := h.le_bs
  have hle := h.bs_le
  have htotal := h.total_le
  have hcnt := h.lt_cnt_iff.mpr hlt
  have hmod : (p + r.len) % bs = (p + r.len - i * bs) % bs := by
    rw [Nat.mul_comm, Nat.sub_mul_mod (by rw [Nat.mul_comm]; omega)]
  rw [Req.lastend, h.blockcnt_eq, h.total_eq, h.blocksize_eq, toU32_natCast (by omega), hmod]
  by_cases hlast : (i + 1) * bs < p + r.len
  · have hmore := h.lt_cnt_iff.mpr hlast
    rw [Nat.succ_mul] at hlast
    rw [if_neg (by omega), Nat.min_eq_left (by omega)]
  · have hnomore := mt h.lt_cnt_iff.mp hlast
    rw [Nat.succ_mul] at hlast
    have hpart : p + r.len - i * bs ≤ bs := by omega
    rw [if_pos (by omega), Nat.min_eq_right hpart]
    rcases Nat.lt_or_eq_of_le hpart with hpart | hfull
    · rw [Nat.mod_eq_of_lt hpart, int32_natCast (by omega)]
      exact if_neg (by omega)
    · rw [hfull, Nat.mod_self]
      rfl

/-- `blockend` is the part of the block that is asked for. -/
theorem blockend_eq {i : ℕ} (hi : p / bs ≤ i) (hlt : i * bs < p + r.len) :
    r.blockend i = r.part bs p i := by
  have hle := h.bs_le
  have hnext := h.lt_next hi
  unfold Req.part
  rw [Req.blockend, h.lastend_eq hlt, h.skipfirst_eq hi, h.first_eq]
  by_cases hfirst : i = p / bs
  · have hstart : i * bs ≤ p := by
      rw [hfirst]
      exact Nat.div_mul_le_self _ _
    have hcast : ((min bs (p + r.len - i * bs) : ℕ) : ℤ) - (p - i * bs : ℕ) =
        (min bs (p + r.len - i * bs) - (p - i * bs) : ℕ) := by
      omega
    rw [if_pos (by rw [hfirst]), hcast, int32_natCast (by omega)]
    exact congrArg Nat.cast (by omega)
  · have hlater := h.lt_of_later (by omega : p / bs < i)
    rw [if_neg (by exact_mod_cast hfirst)]
    exact congrArg Nat.cast (by omega)

theorem step_eq {i : ℕ} (hi : p / bs ≤ i) : r.step i = bs - (p - i * bs) := by
  have hnext := h.lt_next hi
  have hle := h.bs_le
  have hcast : (bs : ℤ) - (p - i * bs : ℕ) = (bs - (p - i * bs) : ℕ) := by omega
  rw [Req.step, h.blocksize_eq, h.skipfirst_eq hi, hcast, toU32_natCast (by omega)]

/-- The destination moves on to the next block. -/
theorem buf_step {i : ℕ} (hi : p / bs ≤ i) :
    i * bs - p + (bs - (p - i * bs)) = (i + 1) * bs - p := by
  have hnext := h.lt_next hi
  rw [Nat.succ_mul]
  omega

theorem skip_add_part {i : ℕ} (hi : p / bs ≤ i) : p - i * bs + r.part bs p i ≤ bs := by
  have hnext := h.lt_next hi
  have hend : min (i * bs + bs) (p + r.len) ≤ i * bs + bs := min_le_left _ _
  unfold Req.part
  rcases le_total (i * bs) p with hle | hle
  · rw [max_eq_right hle]
    omega
  · rw [max_eq_left hle]
    omega

theorem skip_add_part_pos {i : ℕ} (hi : p / bs ≤ i) (hlt : i * bs < p + r.len) :
    0 < p - i * bs + r.part bs p i := by
  have hnext := h.lt_next hi
  have hge := h.le_bs
  unfold Req.part
  rcases le_total (i * bs) p with hle | hle
  · rw [max_eq_right hle]
    omega
  · rw [max_eq_left hle]
    omega

theorem skip_add_part_of_lt {i : ℕ} (hi : p / bs ≤ i) (hlt : (i + 1) * bs < p + r.len) :
    p - i * bs + r.part bs p i = bs := by
  have hnext := h.lt_next hi
  rw [Nat.succ_mul] at hlt
  unfold Req.part
  rw [min_eq_left hlt.le]
  rcases le_total (i * bs) p with hle | hle
  · rw [max_eq_right hle]
    omega
  · rw [max_eq_left hle]
    omega

theorem buf_add_part {i : ℕ} (hi : p / bs ≤ i) (hlt : i * bs < p + r.len) :
    i * bs - p + r.part bs p i = r.asked bs p (i + 1) := by
  have hnext := h.lt_next hi
  unfold Req.part Req.asked
  rw [Nat.succ_mul]
  rcases le_total (i * bs) p with hle | hle
  · rw [max_eq_right hle]
    omega
  · rw [max_eq_left hle]
    omega

end Req.Fits

/-! ## Requests within a block -/

section OneBlock

variable {σ ε : Type} {readBlock : ℤ → Prog σ ε ℤ}
  {devread : ℤ → ℤ → ℤ → ℤ → Prog σ ε (Bool × List Write)} {r : Req} {l bs p i st : ℕ} {b : ℤ}
  {s s1 s2 : σ}

/-- Without an extent nothing is read. -/
theorem spillDelayed_none {v : Vars} (h : v.previousBlockNumber = -1) :
    spillDelayed devread v s = some (.ok (true, v), s) := by
  unfold spillDelayed
  rw [if_neg (not_not_intro h), Prog.pure_apply]

theorem spillDelayed_some {v : Vars} (h : v.previousBlockNumber ≠ -1) {ok : Bool}
    {ws : List Write}
    (hdev : devread v.delayedStart 0 v.delayedSkipfirst v.delayedExtent s = some (.ok (ok, ws), s1)) :
    spillDelayed devread v s = some (.ok (ok, v.spilled ws), s1) := by
  unfold spillDelayed spill
  rw [if_pos h]
  exact Prog.bind_ok hdev

/-- A request within a block has one round. -/
theorem Req.Fits.one_round (hfit : r.Fits l bs p) (hpos : 0 < r.len) (hi : i * bs ≤ p)
    (hend : p + r.len ≤ (i + 1) * bs) :
    p / bs = i ∧ (r.blockcnt - r.first).toNat = 1 := by
  have hbs := hfit.le_bs
  rw [Nat.succ_mul] at hend
  have hfirst : p / bs = i := by
    rw [Nat.div_eq_iff (by omega)]
    omega
  have hcount : (p + r.len + bs - 1) / bs = i + 1 := by
    rw [Nat.div_eq_iff (by omega), Nat.succ_mul]
    omega
  refine ⟨hfirst, ?_⟩
  rw [hfit.blockcnt_eq, hfit.first_eq, hcount, hfirst]
  omega

/-- The round of such a request starts an extent. -/
theorem block_one (hfit : r.Fits l bs p) (hpos : 0 < r.len) (hi : i * bs ≤ p)
    (hend : p + r.len ≤ (i + 1) * bs) (hread : readBlock i s = some (.ok b, s1)) (hb : 0 ≤ b)
    (hst : shl32 b r.log2blocksize = st) (hne : st ≠ 0) :
    block readBlock devread r i .init s =
      some (.ok (true, (Vars.init.delay st r.len (p - i * bs : ℕ)).advance (bs - (p - i * bs))),
        s1) := by
  obtain ⟨hfirst, -⟩ := hfit.one_round hpos hi hend
  have hpart : r.part bs p i = r.len := by
    rw [Nat.succ_mul] at hend
    unfold Req.part
    omega
  have hblockend := hfit.blockend_eq hfirst.le (by omega : i * bs < p + r.len)
  rw [hpart] at hblockend
  have hdata : dataBlock devread r i st .init s1 =
      some (.ok (true, Vars.init.delay st r.len (p - i * bs : ℕ)), s1) := by
    unfold dataBlock
    rw [if_neg (show ¬ (Vars.init.previousBlockNumber ≠ -1 ∧ _) from fun hprev => hprev.1 rfl),
      Prog.bind_ok (spillDelayed_none rfl), hblockend, hfit.skipfirst_eq hfirst.le]
    rfl
  unfold block
  rw [Prog.bind_ok hread, if_neg (not_lt.mpr hb), hst]
  dsimp only
  rw [if_pos (by exact_mod_cast hne), Prog.bind_ok hdata, hfit.step_eq hfirst.le]
  rfl

/-- A request within a block of the disk is one device read. -/
theorem readFile_one (hfit : r.Fits l bs p) (hlen : r.len < 2 ^ 31) (hpos : 0 < r.len)
    (hi : i * bs ≤ p) (hend : p + r.len ≤ (i + 1) * bs)
    (hread : readBlock i s = some (.ok b, s1)) (hb : 0 ≤ b)
    (hst : shl32 b r.log2blocksize = st) (hne : st ≠ 0) {ok : Bool} {ws : List Write}
    (hdev : devread st 0 (p - i * bs : ℕ) r.len s1 = some (.ok (ok, ws), s2)) :
    readFile readBlock devread r s =
      some (.ok (if ok then (r.len : ℤ) else -1, ws.map (Write.shift 0)), s2) := by
  obtain ⟨hfirst, hone⟩ := hfit.one_round hpos hi hend
  have hround : blocks readBlock devread r 1 i .init s =
      some (.ok (true, (Vars.init.delay st r.len (p - i * bs : ℕ)).advance (bs - (p - i * bs))),
        s1) := by
    unfold blocks
    rw [Prog.bind_ok (block_one hfit hpos hi hend hread hb hst hne)]
    rfl
  unfold readFile
  rw [hone, hfit.first_eq, hfirst, Prog.bind_ok hround]
  dsimp only
  rw [if_pos rfl, int32_natCast hlen]
  -- The extent that is left is the request.
  have hprev : ((Vars.init.delay st r.len (p - i * bs : ℕ)).advance
      (bs - (p - i * bs))).previousBlockNumber ≠ -1 := by
    show (st : ℤ) ≠ -1
    omega
  rw [Prog.bind_ok (spillDelayed_some hprev hdev)]
  rfl

end OneBlock

end SmartQ.Qi.Ext2
