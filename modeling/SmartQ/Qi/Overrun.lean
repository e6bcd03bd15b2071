import SmartQ.Lib.Recording
import SmartQ.Qi.ReadFile

/-!
# When `ext2fs_read_file` writes behind its request

For every request, also one whose numbers wrap: what the block lookups and the device
reads of a run answer decides whether its stores stay inside the request.

* `Req.part_le`, `Req.lt_offset_iff`: the numbers of the loop.
* `Answers`: what the lookups and the reads of a run answer.
* `Round.block`: one round; only a hole can end behind the request.
* `readFile_inside_iff`: the stores are inside unless a last block of which only the
  start is asked for is a hole, and the run comes to it.
-/

namespace SmartQ.Qi.Ext2

open SmartQ.Lib

/-! ## The numbers of the loop -/

namespace Req

variable (r : Req)

/-- `blocksize`, as an `unsigned int`. -/
def bsz : ℕ := toU32 r.blocksize

/-- Where the `j`-th block of the loop goes. -/
def offset (r : Req) : ℕ → ℕ
  | 0 => 0
  | j + 1 => r.offset j + r.step (r.first + j)

/-- The number of rounds. -/
def rounds : ℕ := (r.blockcnt - r.first).toNat

/-- How far the request goes before the `j`-th block of the loop. -/
def reach (j : ℕ) : ℕ := if r.first + j < r.blockcnt then r.offset j else r.len

/-- The numbers of a request whose loop has a round: blocks `f` to `c - 1` of `b`
    bytes, from byte `k` of the first one on. `k` is negative for a position before the
    file, and `total` may have wrapped. -/
structure Rounds (f b c : ℕ) (k : ℤ) : Prop where
  first_eq : r.first = f
  bsz_eq : r.bsz = b
  count_eq : r.blockcnt = c
  lt : f < c
  pos_eq : r.pos = (f * b : ℕ) + k
  neg_lt : -b < k
  lt_b : k < b
  zero_of_neg : k < 0 → f = 0
  size : r.blocksize = b ∧ b ≤ 2 ^ 30 ∨ r.blocksize = -2 ^ 31 ∧ b = 2 ^ 31 ∧ f = 0 ∧ c = 1
  skip : cmod r.pos r.blocksize = k
  lt_total : (c - 1) * b < r.total
  total_le : r.total ≤ c * b
  total_lt : r.total + b ≤ 2 ^ 32
  total_eq : (r.total : ℤ) = r.pos + r.len ∨ (r.total : ℤ) = r.pos + r.len - 2 ^ 32 ∧ c = f + 1
  len_lt : r.len < 2 ^ 32

end Req

theorem shl32_one (n : ℤ) :
    ∃ b : ℕ, toU32 (shl32 1 n) = b ∧
      (shl32 1 n = b ∧ b ≤ 2 ^ 30 ∨ shl32 1 n = -2 ^ 31 ∧ b = 2 ^ 31) := by
  unfold shl32
  split_ifs with hlt
  · generalize hm : (n % 256).toNat = m
    have hle : m ≤ 31 := by omega
    rcases Nat.lt_or_eq_of_le hle with hm30 | rfl
    · have hpow : 2 ^ m ≤ 2 ^ 30 := Nat.pow_le_pow_right (by norm_num) (by omega)
      have hint : int32 (1 * 2 ^ m) = (2 ^ m : ℕ) := by
        rw [← int32_natCast (show 2 ^ m < 2 ^ 31 by omega)]
        push_cast
        rw [one_mul]
      rw [hint]
      exact ⟨2 ^ m, toU32_natCast (by omega), .inl ⟨rfl, hpow⟩⟩
    · exact ⟨2 ^ 31, by decide, .inr ⟨by decide, rfl⟩⟩
  · exact ⟨0, rfl, .inl ⟨rfl, by norm_num⟩⟩

namespace Req

variable {r : Req}

theorem blocksize_cases (r : Req) :
    r.blocksize = r.bsz ∧ r.bsz ≤ 2 ^ 30 ∨ r.blocksize = -2 ^ 31 ∧ r.bsz = 2 ^ 31 := by
  obtain ⟨b, hb, hcases⟩ := shl32_one (r.log2blocksize + 9)
  rw [bsz, show toU32 r.blocksize = b from hb]
  exact hcases

theorem toU32_pred (r : Req) (h : 0 < r.bsz) : toU32 (r.blocksize - 1) = r.bsz - 1 := by
  rcases r.blocksize_cases with ⟨hsize, hle⟩ | ⟨hsize, hbsz⟩
  · rw [hsize]
    unfold toU32
    omega
  · rw [hsize, hbsz]
    decide

/-- The number of blocks, of a loop that has a round. -/
theorem blockcnt_eq (hnonneg : 0 ≤ r.first) (hlt : r.first < r.blockcnt) :
    0 < r.bsz ∧ r.total + r.bsz ≤ 2 ^ 32 ∧
      r.blockcnt = ((r.total + r.bsz - 1) / r.bsz : ℕ) := by
  have htotal : r.total < 2 ^ 32 := Nat.mod_lt _ (by norm_num)
  have hbsz : r.bsz ≤ 2 ^ 31 := by
    rcases r.blocksize_cases with ⟨-, hle⟩ | ⟨-, heq⟩ <;> omega
  rcases Nat.eq_zero_or_pos r.bsz with hzero | hpos
  · exfalso
    unfold blockcnt at hlt
    rw [show toU32 r.blocksize = 0 from hzero, Nat.div_zero] at hlt
    rw [show int32 ((0 : ℕ) : ℤ) = 0 from rfl] at hlt
    omega
  · have hcnt : r.blockcnt = int32 (((r.total + (r.bsz - 1)) % 2 ^ 32 / r.bsz : ℕ) : ℤ) := by
      unfold blockcnt add32
      rw [r.toU32_pred hpos]
      rfl
    by_cases hwrap : r.total + r.bsz ≤ 2 ^ 32
    · refine ⟨hpos, hwrap, ?_⟩
      have hsum : r.total + (r.bsz - 1) = r.total + r.bsz - 1 := by omega
      rw [Nat.mod_eq_of_lt (by omega), hsum] at hcnt
      have hle := Nat.div_le_self (r.total + r.bsz - 1) r.bsz
      have hcnt0 : 0 ≤ r.blockcnt := by omega
      generalize (r.total + r.bsz - 1) / r.bsz = q at hcnt hle ⊢
      exact (eq_of_int32_eq hcnt.symm hcnt0 (by omega) (by omega)).symm
    · exfalso
      have hsmall : (r.total + (r.bsz - 1)) % 2 ^ 32 < r.bsz := by omega
      rw [Nat.div_eq_of_lt hsmall, show int32 ((0 : ℕ) : ℤ) = 0 from rfl] at hcnt
      omega

/-- A block of which only the start is asked for is a block of the loop. -/
theorem lt_blockcnt {j : ℕ} (hge : -2 ^ 31 ≤ r.pos) (hle : r.pos < 2 ^ 31) (hlen : r.len < 2 ^ 32)
    (hnonneg : 0 ≤ r.first) (hstart : (r.first + j) * r.bsz < r.pos + r.len)
    (hpart : r.pos + r.len < (r.first + j + 1) * r.bsz) (hnoWrap : r.pos + r.len + r.bsz ≤ 2 ^ 32) :
    r.first + j < r.blockcnt := by
  obtain ⟨f, hf⟩ := Int.eq_ofNat_of_zero_le hnonneg
  obtain ⟨n, hn⟩ : ∃ n : ℕ, (n : ℤ) = r.pos + r.len := by
    have hmul : 0 ≤ (r.first + j) * r.bsz := by positivity
    exact ⟨(r.pos + r.len).toNat, by omega⟩
  have hsum : ((f + j : ℕ) : ℤ) = r.first + j := by
    rw [hf]
    push_cast
    rfl
  rw [← hsum, ← hn] at hstart hpart
  have hstart : (f + j) * r.bsz < n := by exact_mod_cast hstart
  have hpart : n < (f + j + 1) * r.bsz := by exact_mod_cast hpart
  have htwo : 2 ≤ r.bsz := by
    by_contra hlt
    have hcases : r.bsz = 0 ∨ r.bsz = 1 := by omega
    rcases hcases with hb | hb
    · rw [hb] at hpart
      omega
    · rw [hb] at hstart hpart
      omega
  have hwrap : n + r.bsz ≤ 2 ^ 32 := by omega
  have heq : r.total = n := by
    unfold Req.total add32 toU32
    omega
  have hcnt : r.blockcnt = ((n + r.bsz - 1) / r.bsz : ℕ) := by
    have hdiv : (n + r.bsz - 1) / r.bsz ≤ (n + r.bsz - 1) / 2 :=
      Nat.div_le_div_left htwo (by norm_num)
    have hpred : n + (r.bsz - 1) = n + r.bsz - 1 := by omega
    unfold blockcnt add32
    rw [heq, r.toU32_pred (by omega), show toU32 r.blocksize = r.bsz from rfl,
      Nat.mod_eq_of_lt (by omega), hpred, int32_natCast (by omega)]
  have hlt : f + j < (n + r.bsz - 1) / r.bsz := by
    show f + j + 1 ≤ _
    rw [Nat.le_div_iff_mul_le (by omega), Nat.succ_mul]
    omega
  rw [hcnt, ← hsum]
  exact_mod_cast hlt

/-- The first block of a loop that has a round, and where the request starts in it. -/
theorem first_cases (hge : -2 ^ 31 ≤ r.pos) (hle : r.pos < 2 ^ 31) (hnonneg : 0 ≤ r.first)
    (hlt : r.first < r.blockcnt) :
    r.pos = r.first * r.bsz + cmod r.pos r.blocksize ∧ -(r.bsz : ℤ) < cmod r.pos r.blocksize ∧
      cmod r.pos r.blocksize < r.bsz ∧ (cmod r.pos r.blocksize < 0 → r.first = 0) ∧
      (r.blocksize = r.bsz ∧ r.bsz ≤ 2 ^ 30 ∨
        r.blocksize = -2 ^ 31 ∧ r.bsz = 2 ^ 31 ∧ r.first = 0 ∧ r.blockcnt = 1) := by
  obtain ⟨hpos, hwrap, hcnt⟩ := blockcnt_eq hnonneg hlt
  rcases r.blocksize_cases with ⟨hsize, hbsz⟩ | ⟨hsize, hbsz⟩
  · have hdiv := Int.mul_tdiv_add_tmod r.pos r.bsz
    have habs := Int.natAbs_tdiv_le_natAbs r.pos r.bsz
    have hlo := Int.lt_tmod_of_pos r.pos (show (0 : ℤ) < r.bsz by omega)
    have hhi := Int.tmod_lt_of_pos r.pos (show (0 : ℤ) < r.bsz by omega)
    have hone : 1 ≤ r.pos.tdiv r.bsz → 0 < r.pos := by
      intro h
      have hmul : (r.bsz : ℤ) ≤ r.bsz * r.pos.tdiv r.bsz := le_mul_of_one_le_right (by omega) h
      omega
    have hfirst : r.first = r.pos.tdiv r.bsz := by
      unfold first cdiv
      rw [hsize, int32_of_range (by omega) (by omega)]
    have hmod : cmod r.pos r.blocksize = r.pos.tmod r.bsz := by
      rw [hsize, cmod, if_neg (by omega)]
    rw [hmod]
    refine ⟨?_, hlo, hhi, ?_, .inl ⟨hsize, hbsz⟩⟩
    · rw [hfirst, mul_comm]
      exact hdiv.symm
    · intro hneg
      by_contra hne
      have hnn := Int.tmod_nonneg (r.bsz : ℤ) (hone (by omega)).le
      omega
  · -- One block of 2 GiB: its size is negative as an `int`.
    rw [hbsz] at hcnt hwrap
    have hone : r.blockcnt = 1 := by omega
    have hzero : r.first = 0 := by omega
    have hne : r.pos ≠ -2 ^ 31 := by
      intro heq
      unfold first at hzero
      rw [heq, hsize] at hzero
      exact absurd hzero (by decide)
    have hmod : cmod r.pos r.blocksize = r.pos := by
      rw [hsize, cmod, if_neg (by norm_num), Int.tmod_neg]
      rcases Int.le_total 0 r.pos with hnn | hneg
      · exact Int.tmod_eq_of_lt hnn (by omega)
      · rw [← neg_neg r.pos, Int.neg_tmod, Int.tmod_eq_of_lt (by omega) (by omega)]
    rw [hmod, hzero, hbsz]
    refine ⟨by omega, by norm_num; omega, by norm_num; omega, fun _ => rfl,
      .inr ⟨hsize, rfl, rfl, hone⟩⟩

/-- The end of the request, of a loop that has a round. -/
theorem total_cases {f d b : ℕ} {k : ℤ} (hge : -2 ^ 31 ≤ r.pos) (hle : r.pos < 2 ^ 31)
    (hlen : r.len < 2 ^ 32) (hpos : r.pos = (f * b : ℕ) + k) (hneg : -(b : ℤ) < k) (hlt : k < b)
    (hfd : f ≤ d) (hlast : d * b < r.total) (hwrap : r.total + b ≤ 2 ^ 32) :
    (r.total : ℤ) = r.pos + r.len ∨ (r.total : ℤ) = r.pos + r.len - 2 ^ 32 ∧ d = f := by
  have hmul : f * b ≤ d * b := Nat.mul_le_mul_right _ hfd
  have htotal : r.total = (r.len + toU32 r.pos) % 2 ^ 32 := rfl
  rcases Int.lt_or_le r.pos 0 with hlt0 | hge0
  · have hu : (toU32 r.pos : ℤ) = r.pos + 2 ^ 32 := by
      unfold toU32
      omega
    left
    omega
  · have hu : (toU32 r.pos : ℤ) = r.pos := by
      unfold toU32
      omega
    by_cases hsum : r.len + toU32 r.pos < 2 ^ 32
    · left
      omega
    · right
      refine ⟨by omega, ?_⟩
      by_contra hne
      have hnext : (f + 1) * b ≤ d * b := Nat.mul_le_mul_right _ (by omega)
      rw [Nat.succ_mul] at hnext
      omega

/-- A loop that has a round. -/
theorem exists_rounds (hge : -2 ^ 31 ≤ r.pos) (hle : r.pos < 2 ^ 31) (hlen : r.len < 2 ^ 32)
    (hnonneg : 0 ≤ r.first) (hlt : r.first < r.blockcnt) :
    ∃ f b c k, r.Rounds f b c k := by
  obtain ⟨hpos, hwrap, hcnt⟩ := blockcnt_eq hnonneg hlt
  obtain ⟨heq, hneg, hltb, hzero, hsize⟩ := first_cases hge hle hnonneg hlt
  obtain ⟨f, hf⟩ := Int.eq_ofNat_of_zero_le hnonneg
  have hc := Nat.div_add_mod (r.total + r.bsz - 1) r.bsz
  have hmod := Nat.mod_lt (r.total + r.bsz - 1) hpos
  generalize (r.total + r.bsz - 1) / r.bsz = c at hc hcnt
  generalize (r.total + r.bsz - 1) % r.bsz = m at hc hmod
  rw [hf, hcnt] at hlt
  have hfc : f < c := by exact_mod_cast hlt
  obtain ⟨d, rfl⟩ := Nat.exists_eq_succ_of_ne_zero (Nat.ne_zero_of_lt hfc)
  rw [Nat.mul_comm, Nat.succ_mul] at hc
  have hpos_eq : r.pos = (f * r.bsz : ℕ) + cmod r.pos r.blocksize := by
    rw [hf] at heq
    push_cast
    exact heq
  have hlast : d * r.bsz < r.total := by omega
  refine ⟨f, r.bsz, d + 1, cmod r.pos r.blocksize, hf, rfl, hcnt, hfc, hpos_eq, hneg, hltb, ?_, ?_,
    rfl, hlast, ?_, hwrap, ?_, hlen⟩
  · intro h
    have h0 := hzero h
    rw [hf] at h0
    exact_mod_cast h0
  · rw [hf, hcnt] at hsize
    refine hsize.imp_right fun ⟨h1, h2, h3, h4⟩ => ⟨h1, h2, ?_, ?_⟩
    · exact_mod_cast h3
    · exact_mod_cast h4
  · rw [Nat.succ_mul]
    omega
  · refine (total_cases hge hle hlen hpos_eq hneg hltb (Nat.le_of_lt_succ hfc) hlast hwrap).imp_right
      fun ⟨h, hd⟩ => ⟨h, by rw [hd]⟩

namespace Rounds

variable {f b c j : ℕ} {k : ℤ} (h : r.Rounds f b c k)

include h

theorem b_pos : 0 < b := by
  have hneg := h.neg_lt
  have hlt := h.lt_b
  omega

theorem b_le : b ≤ 2 ^ 31 := by
  rcases h.size with ⟨-, hle⟩ | ⟨-, heq, -⟩ <;> omega

theorem blocksize_toU32 : toU32 r.blocksize = b := h.bsz_eq

theorem step_first : (r.step r.first : ℤ) = b - k := by
  have hneg := h.neg_lt
  have hlt := h.lt_b
  have hle := h.b_le
  unfold step skipfirst
  rw [if_pos rfl, h.skip]
  unfold toU32
  rcases h.size with ⟨hsize, -⟩ | ⟨hsize, hb, -⟩ <;> rw [hsize] <;> omega

theorem step_later (hj : j ≠ 0) : r.step (r.first + j) = b := by
  unfold step skipfirst
  rw [if_neg (by omega), sub_zero]
  exact h.bsz_eq

/-- Every block but the first one goes where it lies in the request. -/
theorem offset_succ : (r.offset (j + 1) : ℤ) = ((f + j + 1) * b : ℕ) - r.pos := by
  have hpos := h.pos_eq
  induction j with
  | zero =>
    have hstep := h.step_first
    have hsum : r.offset (0 + 1) = r.step r.first := by
      show 0 + r.step (r.first + (0 : ℕ)) = _
      rw [Nat.zero_add, Nat.cast_zero, add_zero]
    rw [hsum, hstep, Nat.add_zero, Nat.succ_mul]
    push_cast at hpos ⊢
    omega
  | succ j ih =>
    have hsum : r.offset (j + 1 + 1) = r.offset (j + 1) + b := by
      rw [← h.step_later (Nat.succ_ne_zero j)]
      rfl
    have hmul : (f + (j + 1) + 1) * b = (f + j + 1) * b + b := Nat.succ_mul (f + j + 1) b
    rw [hsum, hmul]
    push_cast at ih ⊢
    omega

theorem lt_count_iff : r.first + j < r.blockcnt ↔ f + j < c := by
  rw [h.first_eq, h.count_eq]
  omega

/-- The blocks before the last one are inside the request. -/
theorem mul_le_total (hj : f + j + 1 < c) :
    (f + j + 1) * b < r.total ∧ (r.total : ℤ) = r.pos + r.len := by
  have hmul : (f + j + 1) * b ≤ (c - 1) * b := Nat.mul_le_mul_right _ (by omega)
  have hlast := h.lt_total
  refine ⟨by omega, ?_⟩
  rcases h.total_eq with heq | ⟨-, hc⟩
  · exact heq
  · omega

theorem offset_le (hj : f + j < c) : r.offset j ≤ r.len := by
  cases j with
  | zero => exact Nat.zero_le _
  | succ j =>
    have hoff := h.offset_succ (j := j)
    obtain ⟨hlt, htotal⟩ := h.mul_le_total hj
    omega

/-- How much of a block before the last one is asked for. -/
theorem blockend_inner (hj : f + j + 1 < c) :
    toU32 (r.blockend (r.first + j)) = r.step (r.first + j) := by
  have hlt := h.lt
  have hneg := h.neg_lt
  have hltb := h.lt_b
  obtain ⟨hsize, hb⟩ : r.blocksize = b ∧ b ≤ 2 ^ 30 := by
    rcases h.size with hsize | ⟨-, -, -, hc⟩
    · exact hsize
    · omega
  have hend : r.lastend (r.first + j) = r.blocksize := by
    unfold lastend
    rw [if_neg]
    rw [h.first_eq, h.count_eq]
    omega
  unfold blockend step
  split_ifs with hfirst
  · rw [hend, toU32_int32]
  · rw [hend, skipfirst, if_neg hfirst, sub_zero]

/-- How much of the last block is asked for. -/
theorem lastend_last (hj : f + j + 1 = c) :
    toU32 (r.lastend (r.first + j)) = r.total - (f + j) * b := by
  have hpos := h.b_pos
  have hle := h.b_le
  have hlt := h.lt_total
  have htotal := h.total_le
  rw [← hj, Nat.add_sub_cancel] at hlt
  rw [← hj, Nat.succ_mul] at htotal
  have hmod : r.total % b = (r.total - (f + j) * b) % b := by
    rw [Nat.mul_comm, Nat.sub_mul_mod (by rw [Nat.mul_comm]; omega)]
  unfold lastend
  rw [if_pos (by rw [h.first_eq, h.count_eq, ← hj]; push_cast; ring), h.blocksize_toU32, hmod]
  rcases Nat.lt_or_eq_of_le (show r.total - (f + j) * b ≤ b by omega) with hpart | hfull
  · rw [Nat.mod_eq_of_lt hpart, int32_natCast (by omega), if_neg (by omega),
      toU32_natCast (by omega)]
  · have hzero : int32 ((0 : ℕ) : ℤ) = 0 := rfl
    rw [hfull, Nat.mod_self]
    dsimp only
    rw [hzero, if_pos rfl]
    exact h.bsz_eq

/-- The last block ends with the request. -/
theorem offset_add_last (hj : f + j + 1 = c) :
    r.offset j + toU32 (r.blockend (r.first + j)) = r.len := by
  have hend := h.lastend_last hj
  have hpos := h.pos_eq
  have hneg := h.neg_lt
  have hltb := h.lt_b
  have hle := h.b_le
  have hlt := h.lt_total
  have htotal := h.total_le
  have hcases := h.total_eq
  have hlen := h.len_lt
  rw [← hj, Nat.add_sub_cancel] at hlt
  rw [← hj, Nat.succ_mul] at htotal
  unfold blockend
  cases j with
  | zero =>
    rw [Nat.add_zero] at hlt htotal hend
    rw [Nat.cast_zero, add_zero] at hend ⊢
    rw [if_pos rfl, toU32_int32, skipfirst, if_pos rfl, h.skip]
    generalize r.lastend r.first = e at hend ⊢
    show 0 + _ = _
    unfold toU32 at hend ⊢
    omega
  | succ j =>
    have hoff := h.offset_succ (j := j)
    rw [if_neg (by omega), hend]
    rw [show f + (j + 1) = f + j + 1 from rfl] at hlt htotal ⊢
    generalize (f + j + 1) * b = m at hoff hlt htotal ⊢
    rcases hcases with heq | ⟨-, hc⟩ <;> omega

/-- What is asked for of a block goes before the next block, and inside the request. -/
theorem part_le (hj : f + j < c) :
    r.offset j + toU32 (r.blockend (r.first + j)) ≤ r.reach (j + 1) := by
  unfold reach
  split_ifs with hnext
  · rw [h.lt_count_iff] at hnext
    rw [h.blockend_inner hnext]
    exact le_refl _
  · rw [h.lt_count_iff] at hnext
    exact (h.offset_add_last (by omega)).le

theorem reach_le (j : ℕ) : r.reach j ≤ r.len := by
  unfold reach
  split_ifs with hj
  · exact h.offset_le (h.lt_count_iff.mp hj)
  · exact le_refl _

/-- The blocks that end behind the request. -/
theorem lt_offset_iff : f + j < c ∧ r.len < r.offset (j + 1) ↔
    ((f + j) * b : ℕ) < r.pos + r.len ∧ r.pos + r.len < ((f + j + 1) * b : ℕ) ∧
      r.pos + r.len + b ≤ 2 ^ 32 := by
  have hoff := h.offset_succ (j := j)
  have hlt := h.lt_total
  have hle := h.total_le
  have hwrap := h.total_lt
  have hcases := h.total_eq
  have hlen := h.len_lt
  constructor
  · rintro ⟨hj, hbehind⟩
    have hlast : f + j + 1 = c := by
      by_contra hne
      have hin := h.offset_le (j := j + 1) (by omega)
      omega
    rw [← hlast, Nat.add_sub_cancel] at hlt
    rw [← hlast] at hle
    rw [Nat.succ_mul] at hle hoff ⊢
    generalize (f + j) * b = m at *
    rcases hcases with heq | ⟨heq, -⟩ <;> omega
  · rintro ⟨hstart, hpart, hnowrap⟩
    have heq : (r.total : ℤ) = r.pos + r.len := by
      rcases hcases with heq | ⟨heq, -⟩ <;> omega
    refine ⟨?_, by omega⟩
    by_contra hge
    have hmul : c * b ≤ (f + j) * b := Nat.mul_le_mul_right _ (by omega)
    omega

end Rounds

/-! ## The blocks of the file -/

section Blocks

variable (r : Req) (map : ℤ → ℤ)

/-- The start sector of block `i`; 0 is a hole. -/
def sector (i : ℤ) : ℤ := shl32 (map i) r.log2blocksize

/-- The sector behind what is asked for of block `i`. -/
def follow (i : ℤ) : ℤ := int32 (r.sector map i + r.blockend i / 512)

/-- Block `i` is on the disk, and the next one is a hole or lies somewhere else: the
    blocks up to `i` are read before that one is handled. -/
def Ends (i : ℤ) : Prop :=
  r.sector map i ≠ 0 ∧ (r.sector map (i + 1) = r.follow map i → r.sector map (i + 1) = 0)

instance (i : ℤ) : Decidable (r.Ends map i) := by
  unfold Ends
  infer_instance

/-- The device reads before the `j`-th block of the loop is handled. -/
def extents : ℕ → ℕ
  | 0 => 0
  | j + 1 => extents j + if r.Ends map (r.first + j) then 1 else 0

/-- The loop comes to its `j`-th block: no lookup up to there fails, and no device
    read of the blocks before. -/
structure Comes (reads : ℕ → Bool) (j : ℕ) : Prop where
  mapped : ∀ t ≤ j, 0 ≤ map (r.first + t)
  read : ∀ n < r.extents map j, reads n = true

theorem extents_mono : Monotone (r.extents map) :=
  monotone_nat_of_le_succ fun _ => Nat.le_add_right _ _

variable {r map}

theorem Comes.mono {reads : ℕ → Bool} {i j : ℕ} (h : r.Comes map reads j) (hle : i ≤ j) :
    r.Comes map reads i :=
  ⟨fun t ht => h.mapped t (ht.trans hle),
    fun n hn => h.read n (hn.trans_le (r.extents_mono map hle))⟩

end Blocks

end Req

/-- The `j`-th block of the loop is a hole of which only the start is asked for, and
    the loop comes to it: it is zero filled as a whole. -/
structure Overruns (r : Req) (map : ℤ → ℤ) (reads : ℕ → Bool) (j : ℕ) : Prop where
  nonneg : 0 ≤ r.first
  start : (r.first + j) * r.bsz < r.pos + r.len
  part : r.pos + r.len < (r.first + j + 1) * r.bsz
  noWrap : r.pos + r.len + r.bsz ≤ 2 ^ 32
  comes : r.Comes map reads j
  hole : r.sector map (r.first + j) = 0

/-- The place of such a block, from the number of blocks and the offsets. -/
theorem overruns_iff {r : Req} {map : ℤ → ℤ} {reads : ℕ → Bool} {j : ℕ} (hge : -2 ^ 31 ≤ r.pos)
    (hle : r.pos < 2 ^ 31) (hlen : r.len < 2 ^ 32) (hnonneg : 0 ≤ r.first) :
    Overruns r map reads j ↔
      (r.first + j < r.blockcnt ∧ r.len < r.offset (j + 1)) ∧ r.Comes map reads j ∧
        r.sector map (r.first + j) = 0 := by
  constructor
  · intro h
    have hround := Req.lt_blockcnt hge hle hlen hnonneg h.start h.part h.noWrap
    obtain ⟨f, b, c, k, hr⟩ := Req.exists_rounds hge hle hlen hnonneg (by omega)
    refine ⟨?_, h.comes, h.hole⟩
    rw [hr.lt_count_iff, hr.lt_offset_iff]
    have hstart := h.start
    have hpart := h.part
    have hnoWrap := h.noWrap
    rw [hr.first_eq, hr.bsz_eq] at hstart hpart
    rw [hr.bsz_eq] at hnoWrap
    exact ⟨by exact_mod_cast hstart, by exact_mod_cast hpart, hnoWrap⟩
  · rintro ⟨⟨hlt, hbehind⟩, hcomes, hhole⟩
    obtain ⟨f, b, c, k, hr⟩ := Req.exists_rounds hge hle hlen hnonneg (by omega)
    obtain ⟨hstart, hpart, hnoWrap⟩ := hr.lt_offset_iff.mp ⟨hr.lt_count_iff.mp hlt, hbehind⟩
    refine ⟨hnonneg, ?_, ?_, ?_, hcomes, hhole⟩
    · rw [hr.first_eq, hr.bsz_eq]
      exact_mod_cast hstart
    · rw [hr.first_eq, hr.bsz_eq]
      exact_mod_cast hpart
    · rw [hr.bsz_eq]
      exact hnoWrap

/-! ## The answers of a run -/

/-- What the block lookups and the device reads of a run answer. -/
structure Answers where
  blocks : List ℤ
  reads : List Bool

namespace Answers

/-- One more block number, the answer of `ext2fs_read_block`. -/
def addBlock (b : ℤ) (a : Answers) : Answers := { a with blocks := a.blocks ++ [b] }

/-- One more outcome, that of a device read; its stores are not kept. -/
def addRead (x : Bool × List Write) (a : Answers) : Answers := { a with reads := a.reads ++ [x.1] }

/-- There are more answers. -/
def Grows (a a' : Answers) : Prop := a.blocks <+: a'.blocks ∧ a.reads <+: a'.reads

theorem Grows.refl (a : Answers) : Grows a a := ⟨List.prefix_rfl, List.prefix_rfl⟩

theorem Grows.trans (a a' a'' : Answers) (h : Grows a a') (h' : Grows a' a'') : Grows a a'' :=
  ⟨h.1.trans h'.1, h.2.trans h'.2⟩

theorem grows_addBlock (b : ℤ) (a : Answers) : Grows a (a.addBlock b) :=
  ⟨List.prefix_append _ _, List.prefix_rfl⟩

theorem grows_addRead (x : Bool × List Write) (a : Answers) : Grows a (a.addRead x) :=
  ⟨List.prefix_rfl, List.prefix_append _ _⟩

/-- The blocks that were looked up, from `first` on, are `map`, and the device reads
    ended like `reads`. -/
structure Agrees (a : Answers) (first : ℤ) (map : ℤ → ℤ) (reads : ℕ → Bool) : Prop where
  map_eq : ∀ (t : ℕ) (b : ℤ), a.blocks[t]? = some b → map (first + t) = b
  reads_eq : ∀ (n : ℕ) (ok : Bool), a.reads[n]? = some ok → reads n = ok

theorem getElem?_extends {α : Type} {xs ys : List α} (h : xs <+: ys) {t : ℕ} {x : α}
    (hx : xs[t]? = some x) : ys[t]? = some x := by
  obtain ⟨zs, rfl⟩ := h
  obtain ⟨hlt, -⟩ := List.getElem?_eq_some_iff.mp hx
  rw [List.getElem?_append_left hlt, hx]

theorem Agrees.of_grows {a a' : Answers} {first : ℤ} {map : ℤ → ℤ} {reads : ℕ → Bool}
    (h : a'.Agrees first map reads) (hg : Grows a a') : a.Agrees first map reads := by
  constructor
  · exact fun t b hb => h.map_eq t b (getElem?_extends hg.1 hb)
  · exact fun n ok hok => h.reads_eq n ok (getElem?_extends hg.2 hok)

/-- There are a block map and outcomes like that. -/
theorem exists_agrees (a : Answers) (first : ℤ) : ∃ map reads, a.Agrees first map reads := by
  refine ⟨fun i => a.blocks.getD (i - first).toNat 0, fun n => a.reads.getD n false, ?_, ?_⟩
  · intro t b hb
    rw [add_sub_cancel_left, Int.toNat_natCast, List.getD_eq_getElem?_getD, hb, Option.getD_some]
  · intro n ok hok
    rw [List.getD_eq_getElem?_getD, hok, Option.getD_some]

end Answers

section Recorded

variable {σ ε : Type} (readBlock : ℤ → Prog σ ε ℤ)
  (devread : ℤ → ℤ → ℤ → ℤ → Prog σ ε (Bool × List Write)) (r : Req)

/-- A lookup that notes its answer. -/
def recordBlock (i : ℤ) : Prog (σ × Answers) ε ℤ := (readBlock i).record .addBlock

/-- A device read that notes its outcome. -/
def recordRead (st lg sk ex : ℤ) : Prog (σ × Answers) ε (Bool × List Write) :=
  (devread st lg sk ex).record .addRead

/-- `ext2fs_read_file` with the answers. -/
def recordFile : Prog (σ × Answers) ε (ℤ × List Write) :=
  readFile (recordBlock readBlock) (recordRead devread) r

/-- In the run from `s`, the blocks of the file are `map` and the device reads end like
    `reads`. -/
def Answered (s : σ) (map : ℤ → ℤ) (reads : ℕ → Bool) : Prop :=
  ∃ x s' a, recordFile readBlock devread r (s, ⟨[], []⟩) = some (.ok x, (s', a)) ∧
    a.Agrees r.first map reads

/-! ### The record of a run -/

theorem recordBlock_recording (i : ℤ) :
    Prog.Recording Answers.Grows (recordBlock readBlock i) (readBlock i) :=
  Prog.Recording.record Answers.Grows.refl Answers.grows_addBlock _

theorem recordRead_recording (st lg sk ex : ℤ) :
    Prog.Recording Answers.Grows (recordRead devread st lg sk ex) (devread st lg sk ex) :=
  Prog.Recording.record Answers.Grows.refl Answers.grows_addRead _

theorem spillDelayed_recording (v : Vars) :
    Prog.Recording Answers.Grows (spillDelayed (recordRead devread) v) (spillDelayed devread v) := by
  unfold spillDelayed spill
  apply Prog.Recording.ite
  · apply Prog.Recording.bind Answers.Grows.trans (recordRead_recording devread _ _ _ _)
    exact fun _ => Prog.Recording.ret Answers.Grows.refl _
  · exact Prog.Recording.ret Answers.Grows.refl _

theorem dataBlock_recording (i blknr : ℤ) (v : Vars) :
    Prog.Recording Answers.Grows (dataBlock (recordRead devread) r i blknr v)
      (dataBlock devread r i blknr v) := by
  unfold dataBlock
  apply Prog.Recording.ite (Prog.Recording.ret Answers.Grows.refl _)
  apply Prog.Recording.bind Answers.Grows.trans (spillDelayed_recording devread v)
  exact fun _ => Prog.Recording.ret Answers.Grows.refl _

theorem holeBlock_recording (i : ℤ) (v : Vars) :
    Prog.Recording Answers.Grows (holeBlock (recordRead devread) r i v)
      (holeBlock devread r i v) := by
  unfold holeBlock
  apply Prog.Recording.bind Answers.Grows.trans (spillDelayed_recording devread v)
  exact fun _ => Prog.Recording.ret Answers.Grows.refl _

theorem block_recording (i : ℤ) (v : Vars) :
    Prog.Recording Answers.Grows (block (recordBlock readBlock) (recordRead devread) r i v)
      (block readBlock devread r i v) := by
  unfold block
  apply Prog.Recording.bind Answers.Grows.trans (recordBlock_recording readBlock i)
  intro blknr
  apply Prog.Recording.ite (Prog.Recording.ret Answers.Grows.refl _)
  dsimp only
  apply Prog.Recording.ite
  · apply Prog.Recording.bind Answers.Grows.trans (dataBlock_recording devread r i _ v)
    exact fun _ => Prog.Recording.ret Answers.Grows.refl _
  · apply Prog.Recording.bind Answers.Grows.trans (holeBlock_recording devread r i v)
    exact fun _ => Prog.Recording.ret Answers.Grows.refl _

theorem blocks_recording (n : ℕ) (i : ℤ) (v : Vars) :
    Prog.Recording Answers.Grows (blocks (recordBlock readBlock) (recordRead devread) r n i v)
      (blocks readBlock devread r n i v) := by
  induction n generalizing i v with
  | zero => exact Prog.Recording.ret Answers.Grows.refl _
  | succ n ih =>
    unfold blocks
    apply Prog.Recording.bind Answers.Grows.trans (block_recording readBlock devread r i v)
    intro x
    exact Prog.Recording.ite (ih _ _) (Prog.Recording.ret Answers.Grows.refl _)

theorem recordFile_recording :
    Prog.Recording Answers.Grows (recordFile readBlock devread r) (readFile readBlock devread r) := by
  unfold recordFile readFile
  apply Prog.Recording.bind Answers.Grows.trans (blocks_recording readBlock devread r _ _ _)
  intro x
  apply Prog.Recording.ite
  · apply Prog.Recording.bind Answers.Grows.trans (spillDelayed_recording devread _)
    exact fun _ => Prog.Recording.ret Answers.Grows.refl _
  · exact Prog.Recording.ret Answers.Grows.refl _

end Recorded

/-! ## One round -/

/-- The block lookups answer an `int`, for the blocks of the file. -/
def IntBlocks {σ ε : Type} (readBlock : ℤ → Prog σ ε ℤ) : Prop :=
  ∀ i b s s', readBlock i s = some (.ok b, s') → 0 ≤ i ∧ b < 2 ^ 31

/-- `devread`, whether it succeeds or fails, stores nothing behind the bytes it is asked
    for, as an `unsigned int`. -/
def BoundedInt {σ ε : Type} (devread : ℤ → ℤ → ℤ → ℤ → Prog σ ε (Bool × List Write)) : Prop :=
  ∀ st sk ex ok ws s s', -2 ^ 31 ≤ ex → ex < 2 ^ 31 →
    devread st 0 sk ex s = some (.ok (ok, ws), s') → ∀ w ∈ ws, w.1 + w.2.length ≤ toU32 ex

/-- The stores so far are inside the request. -/
def Vars.Inside (v : Vars) (r : Req) : Prop := ∀ w ∈ v.out, w.1 + w.2.length ≤ r.len

/-- The state before the `j`-th block of the loop. -/
structure Round (r : Req) (map : ℤ → ℤ) (reads : ℕ → Bool) (j : ℕ) (v : Vars) (a : Answers) :
    Prop where
  buf_eq : v.buf = r.offset j
  looked : a.blocks.length = j
  read : a.reads.length = r.extents map (j - 1)
  pending : v.previousBlockNumber ≠ -1 ↔ ∃ t, t + 1 = j ∧ r.sector map (r.first + t) ≠ 0
  next : ∀ t, t + 1 = j → r.sector map (r.first + t) ≠ 0 →
    v.delayedNext = r.follow map (r.first + t)
  ge : -2 ^ 31 ≤ v.delayedExtent
  lt : v.delayedExtent < 2 ^ 31
  reach : v.previousBlockNumber ≠ -1 → v.delayedBuf + toU32 v.delayedExtent ≤ r.reach j
  mapped : ∀ t < j, 0 ≤ map (r.first + t)
  done : ∀ n < a.reads.length, reads n = true

section Run

variable {σ ε : Type} {readBlock : ℤ → Prog σ ε ℤ}
  {devread : ℤ → ℤ → ℤ → ℤ → Prog σ ε (Bool × List Write)} {r : Req} {map : ℤ → ℤ}
  {reads : ℕ → Bool} {j : ℕ} {v v' : Vars} {s s' : σ × Answers} {ok : Bool}

theorem round_init : Round r map reads 0 .init ⟨[], []⟩ where
  buf_eq := rfl
  looked := rfl
  read := rfl
  pending := ⟨fun h => (h rfl).elim, fun ⟨_, h, _⟩ => (Nat.succ_ne_zero _ h).elim⟩
  next := fun _ h => (Nat.succ_ne_zero _ h).elim
  ge := by decide
  lt := by decide
  reach := fun h => (h rfl).elim
  mapped := fun _ h => (Nat.not_lt_zero _ h).elim
  done := fun _ h => (Nat.not_lt_zero _ h).elim

/-- The extent is read, inside the request. -/
theorem Round.flush {a : Answers} (hb : BoundedInt devread) (hreach : r.reach j ≤ r.len)
    (h : Round r map reads j v a)
    (hrun : spillDelayed (recordRead devread) v s = some (.ok (ok, v'), s')) :
    (v'.buf = v.buf ∧ v'.delayedExtent = v.delayedExtent ∧ (v'.Inside r ↔ v.Inside r)) ∧
      (v.previousBlockNumber ≠ -1 ∧ s'.2 = ⟨s.2.blocks, s.2.reads ++ [ok]⟩ ∨
        v.previousBlockNumber = -1 ∧ s'.2 = s.2 ∧ ok = true) := by
  unfold spillDelayed at hrun
  split_ifs at hrun with hprev
  · unfold spill at hrun
    obtain ⟨⟨ok', ws⟩, s1, hdev, hrest⟩ := Prog.bind_eq_ok.mp hrun
    obtain ⟨hread, hnote⟩ := Prog.record_ok hdev
    have hws := hb _ _ _ _ _ _ _ h.ge h.lt hread
    have hext := h.reach hprev
    cases hrest
    refine ⟨⟨rfl, rfl, ?_⟩, .inl ⟨hprev, hnote⟩⟩
    constructor
    · exact fun hin w hw => hin w (List.mem_append_left _ hw)
    · intro hin w hw
      rcases List.mem_append.mp hw with hw | hw
      · exact hin w hw
      · obtain ⟨w', hw', rfl⟩ := List.mem_map.mp hw
        have hle := hws w' hw'
        show v.delayedBuf + w'.1 + w'.2.length ≤ _
        omega
  · cases hrun
    exact ⟨⟨rfl, rfl, Iff.rfl⟩, .inr ⟨not_not.mp hprev, rfl, rfl⟩⟩

/-! ### The reads before a block -/

section Extents

variable {a : Answers} (h : Round r map reads j v a)

include h

/-- The block continues the extent. -/
theorem Round.extents_merge (hprev : v.previousBlockNumber ≠ -1)
    (hnext : v.delayedNext = r.sector map (r.first + j)) (hne : r.sector map (r.first + j) ≠ 0) :
    r.extents map j = a.reads.length := by
  obtain ⟨t, rfl, hsec⟩ := h.pending.mp hprev
  rw [h.next t rfl hsec] at hnext
  have hcast : r.first + ((t + 1 : ℕ) : ℤ) = r.first + t + 1 := by
    push_cast
    ring
  rw [hcast] at hnext hne
  rw [h.read]
  show r.extents map t + (if r.Ends map (r.first + t) then 1 else 0) = _
  rw [if_neg fun hends => hne (hends.2 hnext.symm)]
  rfl

/-- The block ends it. -/
theorem Round.extents_spill (hprev : v.previousBlockNumber ≠ -1)
    (hnext : v.delayedNext = r.sector map (r.first + j) → r.sector map (r.first + j) = 0) :
    r.extents map j = a.reads.length + 1 := by
  obtain ⟨t, rfl, hsec⟩ := h.pending.mp hprev
  rw [h.next t rfl hsec] at hnext
  have hcast : r.first + ((t + 1 : ℕ) : ℤ) = r.first + t + 1 := by
    push_cast
    ring
  rw [hcast] at hnext
  rw [h.read]
  show r.extents map t + (if r.Ends map (r.first + t) then 1 else 0) = _
  rw [if_pos ⟨hsec, fun heq => hnext heq.symm⟩]
  rfl

/-- There is none. -/
theorem Round.extents_none (hprev : v.previousBlockNumber = -1) :
    r.extents map j = a.reads.length := by
  rw [h.read]
  cases j with
  | zero => rfl
  | succ t =>
    have hsec : r.sector map (r.first + t) = 0 := by
      by_contra hne
      exact h.pending.mpr ⟨t, rfl, hne⟩ hprev
    show r.extents map t + (if r.Ends map (r.first + t) then 1 else 0) = _
    rw [if_neg fun hends => hends.1 hsec]
    rfl

end Extents

/-- What is known after the extent before a block was read, or was not there. -/
structure Spilled (r : Req) (map : ℤ → ℤ) (reads : ℕ → Bool) (j : ℕ) (b : ℤ) (ok : Bool)
    (v v' : Vars) (a' : Answers) : Prop where
  buf_eq : v'.buf = v.buf
  extent_eq : v'.delayedExtent = v.delayedExtent
  inside_iff : v'.Inside r ↔ v.Inside r
  map_eq : map (r.first + j) = b
  looked : a'.blocks.length = j + 1
  read : a'.reads.length = r.extents map j
  done_iff : (∀ n < r.extents map j, reads n = true) ↔ ok = true

theorem Answers.Agrees.map_last {a a' : Answers} {first b : ℤ} (h : a'.Agrees first map reads)
    (hlen : a.blocks.length = j) (hblocks : a'.blocks = (a.addBlock b).blocks) :
    map (first + j) = b := by
  apply h.map_eq
  rw [hblocks, ← hlen]
  exact List.getElem?_concat_length

theorem Round.spilled {a : Answers} {b : ℤ} (hb : BoundedInt devread) (hreach : r.reach j ≤ r.len)
    (h : Round r map reads j v a) (hs : s.2 = a.addBlock b)
    (hrun : spillDelayed (recordRead devread) v s = some (.ok (ok, v'), s'))
    (hspill : v.previousBlockNumber ≠ -1 → v.delayedNext = shl32 b r.log2blocksize →
      shl32 b r.log2blocksize = 0)
    (ha : s'.2.Agrees r.first map reads) : Spilled r map reads j b ok v v' s'.2 := by
  obtain ⟨⟨hbuf, hext, hin⟩, hcases⟩ := h.flush hb hreach hrun
  have hblocks : s'.2.blocks = (a.addBlock b).blocks := by
    rcases hcases with ⟨-, heq⟩ | ⟨-, heq, -⟩ <;> rw [heq, hs]
  have hmap := ha.map_last h.looked hblocks
  have hlooked : s'.2.blocks.length = j + 1 := by
    rw [hblocks]
    show (a.blocks ++ [b]).length = _
    rw [List.length_append, h.looked]
    rfl
  have hdone := h.done
  rcases hcases with ⟨hprev, heq⟩ | ⟨hprev, heq, rfl⟩
  · have hextents : r.extents map j = a.reads.length + 1 := by
      refine h.extents_spill hprev ?_
      unfold Req.sector
      rw [hmap]
      exact hspill hprev
    have hreads : s'.2.reads = a.reads ++ [ok] := by
      rw [heq, hs]
      rfl
    have hlast : reads a.reads.length = ok := by
      apply ha.reads_eq
      rw [hreads]
      exact List.getElem?_concat_length
    refine ⟨hbuf, hext, hin, hmap, hlooked, ?_, ?_⟩
    · rw [hreads, hextents, List.length_append]
      rfl
    · rw [hextents, ← hlast]
      constructor
      · exact fun hall => hall _ (Nat.lt_succ_self _)
      · intro hok n hn
        rcases Nat.lt_succ_iff_lt_or_eq.mp hn with hn | rfl
        · exact hdone n hn
        · exact hok
  · have hextents := h.extents_none hprev
    have hreads : s'.2.reads = a.reads := by
      rw [heq, hs]
      rfl
    refine ⟨hbuf, hext, hin, hmap, hlooked, by rw [hreads, hextents], ?_⟩
    rw [hextents]
    exact ⟨fun _ => rfl, fun _ => hdone⟩

/-! ### The block -/

theorem shl32_ne_neg_one {x : ℤ} (n : ℤ) (hge : 0 ≤ x) (hlt : x < 2 ^ 31) : shl32 x n ≠ -1 := by
  unfold shl32
  split_ifs with h
  · generalize (n % 256).toNat = m
    cases m with
    | zero =>
      rw [pow_zero, mul_one, int32_of_range (by omega) hlt]
      omega
    | succ m =>
      rw [pow_succ, ← mul_assoc]
      generalize x * 2 ^ m = y
      unfold int32
      split_ifs <;> omega
  · norm_num

theorem int32_ge (z : ℤ) : -2 ^ 31 ≤ int32 z := by
  unfold int32
  split_ifs <;> omega

theorem int32_lt (z : ℤ) : int32 z < 2 ^ 31 := by
  unfold int32
  split_ifs <;> omega

theorem Req.blockend_range (r : Req) (i : ℤ) : -2 ^ 31 ≤ r.blockend i ∧ r.blockend i < 2 ^ 31 := by
  have hsize : -2 ^ 31 ≤ r.blocksize ∧ r.blocksize < 2 ^ 31 := by
    rcases r.blocksize_cases with ⟨h, hle⟩ | ⟨h, -⟩ <;> rw [h] <;> omega
  have hend : -2 ^ 31 ≤ r.lastend i ∧ r.lastend i < 2 ^ 31 := by
    unfold Req.lastend
    dsimp only
    split_ifs
    · exact hsize
    · exact ⟨int32_ge _, int32_lt _⟩
    · exact hsize
  unfold Req.blockend
  split_ifs
  · exact ⟨int32_ge _, int32_lt _⟩
  · exact hend

theorem toU32_add_le (x y : ℤ) : toU32 (x + y) ≤ toU32 x + toU32 y := by
  unfold toU32
  omega

/-- The state after a block, from what it did to the extent. -/
theorem Round.succ {a a' : Answers} {b : ℤ} {v1 : Vars} (h : Round r map reads j v a)
    (hf : Spilled r map reads j b true v v1 a') (hb : 0 ≤ b)
    (hbuf : v'.buf = v1.buf + r.step (r.first + j))
    (hpending : v'.previousBlockNumber ≠ -1 ↔ r.sector map (r.first + j) ≠ 0)
    (hnext : r.sector map (r.first + j) ≠ 0 → v'.delayedNext = r.follow map (r.first + j))
    (hge : -2 ^ 31 ≤ v'.delayedExtent) (hlt : v'.delayedExtent < 2 ^ 31)
    (hreach : v'.previousBlockNumber ≠ -1 →
      v'.delayedBuf + toU32 v'.delayedExtent ≤ r.reach (j + 1)) :
    Round r map reads (j + 1) v' a' := by
  refine ⟨?_, hf.looked, hf.read, ?_, ?_, hge, hlt, hreach, ?_, ?_⟩
  · rw [hbuf, hf.buf_eq, h.buf_eq]
    rfl
  · rw [hpending]
    constructor
    · exact fun hne => ⟨j, rfl, hne⟩
    · rintro ⟨t, ht, hne⟩
      obtain rfl := Nat.succ.inj ht
      exact hne
  · rintro t ht hne
    obtain rfl := Nat.succ.inj ht
    exact hnext hne
  · intro t ht
    rcases Nat.lt_succ_iff_lt_or_eq.mp ht with ht | rfl
    · exact h.mapped t ht
    · rw [hf.map_eq]
      exact hb
  · rw [hf.read]
    exact hf.done_iff.mpr rfl

section Block

variable {a : Answers} {f b c : ℕ} {k blknr : ℤ} {v1 : Vars}

/-- A block that continues the run before it: no read is needed. -/
theorem Round.merged (h : Round r map reads j v a) (hs : s.2 = a.addBlock blknr)
    (hne : shl32 blknr r.log2blocksize ≠ 0)
    (hadj : v.previousBlockNumber ≠ -1 ∧ v.delayedNext = shl32 blknr r.log2blocksize)
    (ha : s.2.Agrees r.first map reads) : Spilled r map reads j blknr true v v s.2 := by
  have hmap := ha.map_last h.looked (congrArg Answers.blocks hs)
  have hsec : r.sector map (r.first + j) = shl32 blknr r.log2blocksize := by
    rw [Req.sector, hmap]
  have hextents := h.extents_merge hadj.1 (hadj.2.trans hsec.symm) (by rw [hsec]; exact hne)
  have hreads : s.2.reads = a.reads := by
    rw [hs]
    rfl
  refine ⟨rfl, rfl, Iff.rfl, hmap, ?_, ?_, ?_⟩
  · rw [hs]
    show (a.blocks ++ [blknr]).length = _
    rw [List.length_append, h.looked]
    rfl
  · rw [hreads, hextents]
  · rw [hextents]
    exact ⟨fun _ => rfl, fun _ => h.done⟩

/-- The run before it goes on over the block. -/
theorem Round.merge (h : Round r map reads j v a) (hr : r.Rounds f b c k) (hj : f + j < c)
    (hs : s.2 = a.addBlock blknr) (hge : 0 ≤ blknr) (hne : shl32 blknr r.log2blocksize ≠ 0)
    (hadj : v.previousBlockNumber ≠ -1 ∧ v.delayedNext = shl32 blknr r.log2blocksize)
    (ha : s.2.Agrees r.first map reads) :
    Round r map reads (j + 1)
      ((v.merge (r.blockend (r.first + j))).advance (r.step (r.first + j))) s.2 := by
  have hf := h.merged hs hne hadj ha
  have hreach : r.reach j = r.offset j := if_pos (hr.lt_count_iff.mpr hj)
  have hpart := hr.part_le hj
  have hsec : r.sector map (r.first + j) = shl32 blknr r.log2blocksize := by
    rw [Req.sector, hf.map_eq]
  have hnext : v.delayedNext = r.sector map (r.first + j) := hadj.2.trans hsec.symm
  refine h.succ hf hge rfl ?_ ?_ (int32_ge _) (int32_lt _) ?_
  · exact ⟨fun _ => by rw [hsec]; exact hne, fun _ => hadj.1⟩
  · intro _
    show int32 (v.delayedNext + _) = _
    rw [hnext]
    rfl
  · intro _
    have hext := h.reach hadj.1
    have hadd := toU32_add_le v.delayedExtent (r.blockend (r.first + j))
    show v.delayedBuf + toU32 (int32 (v.delayedExtent + _)) ≤ _
    rw [toU32_int32]
    omega

/-- A block on the disk. -/
theorem Round.data (hb : BoundedInt devread) (hr : r.Rounds f b c k) (hj : f + j < c)
    (h : Round r map reads j v a) (hs : s.2 = a.addBlock blknr) (hge : 0 ≤ blknr)
    (hlt : blknr < 2 ^ 31) (hne : shl32 blknr r.log2blocksize ≠ 0)
    (hrun : dataBlock (recordRead devread) r (r.first + j) (shl32 blknr r.log2blocksize) v s =
      some (.ok (ok, v1), s'))
    (ha : s'.2.Agrees r.first map reads) :
    map (r.first + j) = blknr ∧ (v1.Inside r ↔ v.Inside r) ∧
      ((∀ n < r.extents map j, reads n = true) ↔ ok = true) ∧
      (ok = true → Round r map reads (j + 1) (v1.advance (r.step (r.first + j))) s'.2) := by
  have hpart := hr.part_le hj
  obtain ⟨hege, helt⟩ := r.blockend_range (r.first + j)
  unfold dataBlock at hrun
  split_ifs at hrun with hadj
  · cases hrun
    have hf := h.merged hs hne hadj ha
    exact ⟨hf.map_eq, Iff.rfl, hf.done_iff, fun _ => h.merge hr hj hs hge hne hadj ha⟩
  · obtain ⟨⟨ok2, v2⟩, s2, hflush, hpure⟩ := Prog.bind_eq_ok.mp hrun
    cases hpure
    have hf := h.spilled hb (hr.reach_le j) hs hflush (fun hp hn => (hadj ⟨hp, hn⟩).elim) ha
    have hsec : r.sector map (r.first + j) = shl32 blknr r.log2blocksize := by
      rw [Req.sector, hf.map_eq]
    refine ⟨hf.map_eq, ?_, hf.done_iff, ?_⟩
    · cases ok with
      | false => exact hf.inside_iff
      | true => exact hf.inside_iff
    · rintro rfl
      refine h.succ hf hge rfl ?_ ?_ hege helt ?_
      · show shl32 blknr r.log2blocksize ≠ -1 ↔ _
        rw [hsec]
        exact ⟨fun _ => hne, fun _ => shl32_ne_neg_one _ hge hlt⟩
      · intro _
        rw [Req.follow, hsec]
        rfl
      · intro _
        show v2.buf + toU32 (r.blockend (r.first + j)) ≤ _
        rw [hf.buf_eq, h.buf_eq]
        exact hpart

/-- A hole. -/
theorem Round.hole (hb : BoundedInt devread) (hr : r.Rounds f b c k)
    (h : Round r map reads j v a) (hs : s.2 = a.addBlock blknr) (hge : 0 ≤ blknr)
    (hzero : shl32 blknr r.log2blocksize = 0)
    (hrun : holeBlock (recordRead devread) r (r.first + j) v s = some (.ok (ok, v1), s'))
    (ha : s'.2.Agrees r.first map reads) :
    map (r.first + j) = blknr ∧
      (v1.Inside r ↔ v.Inside r ∧ (ok = true → r.offset (j + 1) ≤ r.len)) ∧
      ((∀ n < r.extents map j, reads n = true) ↔ ok = true) ∧
      (ok = true → Round r map reads (j + 1) (v1.advance (r.step (r.first + j))) s'.2) := by
  unfold holeBlock at hrun
  obtain ⟨⟨ok2, v2⟩, s2, hflush, hpure⟩ := Prog.bind_eq_ok.mp hrun
  cases hpure
  have hf := h.spilled hb (hr.reach_le j) hs hflush (fun _ _ => hzero) ha
  have hsec : r.sector map (r.first + j) = 0 := by
    rw [Req.sector, hf.map_eq, hzero]
  have hend : v2.buf + r.step (r.first + j) = r.offset (j + 1) := by
    rw [hf.buf_eq, h.buf_eq]
    rfl
  refine ⟨hf.map_eq, ?_, hf.done_iff, ?_⟩
  · rw [← hf.inside_iff, ← hend]
    cases ok with
    | false => exact ⟨fun hin => ⟨hin, nofun⟩, fun hin => hin.1⟩
    | true =>
      show (∀ w ∈ v2.out ++ [(v2.buf, List.replicate (r.step (r.first + j)) 0)], _) ↔ _
      simp only [List.mem_append, List.mem_singleton, or_imp, forall_and, forall_eq,
        List.length_replicate, forall_const, Vars.Inside]
  · rintro rfl
    refine h.succ hf hge rfl ?_ ?_ ?_ ?_ ?_
    · exact ⟨fun hne => (hne rfl).elim, fun hne => (hne hsec).elim⟩
    · exact fun hne => (hne hsec).elim
    · show _ ≤ v2.delayedExtent
      rw [hf.extent_eq]
      exact h.ge
    · show v2.delayedExtent < _
      rw [hf.extent_eq]
      exact h.lt
    · exact fun hne => (hne rfl).elim

end Block

/-- The `j`-th block of the loop is zero filled behind the request. -/
def ZeroedBehind (r : Req) (map : ℤ → ℤ) (reads : ℕ → Bool) (j : ℕ) : Prop :=
  r.Comes map reads j ∧ r.sector map (r.first + j) = 0 ∧ r.len < r.offset (j + 1)

/-- A block comes if it is mapped and the reads of the runs before it succeed. -/
theorem Round.comes_iff {a : Answers} (h : Round r map reads j v a)
    (hge : 0 ≤ map (r.first + j)) :
    r.Comes map reads j ↔ ∀ n < r.extents map j, reads n = true := by
  refine ⟨fun hc => hc.read, fun hall => ⟨fun t ht => ?_, hall⟩⟩
  rcases Nat.lt_or_eq_of_le ht with ht | rfl
  · exact h.mapped t ht
  · exact hge

theorem Vars.inside_advance (ok : Bool) (n : ℕ) :
    (if ok = true then v.advance n else v).Inside r ↔ v.Inside r := by
  split_ifs
  · exact Iff.rfl
  · exact Iff.rfl

/-- One round. -/
theorem Round.block {f b c : ℕ} {k : ℤ} (hi : IntBlocks readBlock) (hb : BoundedInt devread)
    (hr : r.Rounds f b c k) (hj : f + j < c) (h : Round r map reads j v s.2)
    (hrun : Ext2.block (recordBlock readBlock) (recordRead devread) r (r.first + j) v s =
      some (.ok (ok, v'), s'))
    (ha : s'.2.Agrees r.first map reads) :
    (v'.Inside r ↔ v.Inside r ∧ ¬ ZeroedBehind r map reads j) ∧
      (ok = true → Round r map reads (j + 1) v' s'.2) ∧ (ok = false → ¬ r.Comes map reads j) := by
  unfold Ext2.block at hrun
  obtain ⟨blknr, s1, hlook, hrest⟩ := Prog.bind_eq_ok.mp hrun
  obtain ⟨hread, hnote⟩ := Prog.record_ok hlook
  obtain ⟨-, hlt⟩ := hi _ _ _ _ hread
  by_cases hneg : blknr < 0
  · rw [if_pos hneg] at hrest
    cases hrest
    have hmap := ha.map_last h.looked (congrArg Answers.blocks hnote)
    have hnot : ¬ r.Comes map reads j := by
      intro hcomes
      have hge := hcomes.mapped j (le_refl j)
      omega
    exact ⟨⟨fun hin => ⟨hin, fun hbeh => hnot hbeh.1⟩, fun hin => hin.1⟩, nofun, fun _ => hnot⟩
  rw [if_neg hneg] at hrest
  have hge : 0 ≤ blknr := by omega
  by_cases hsec : shl32 blknr r.log2blocksize = 0
  · rw [if_neg (not_not_intro hsec)] at hrest
    obtain ⟨⟨ok1, v1⟩, s2, hbody, hdone⟩ := Prog.bind_eq_ok.mp hrest
    cases hdone
    obtain ⟨hmap, hin, hreads, hnext⟩ := h.hole hb hr hnote hge hsec hbody ha
    have hmapped := (h.comes_iff (hmap ▸ hge)).trans hreads
    have hzero : r.sector map (r.first + j) = 0 := by rw [Req.sector, hmap, hsec]
    refine ⟨?_, ?_, ?_⟩
    · rw [Vars.inside_advance, hin]
      refine and_congr_right fun _ => ?_
      rw [← hmapped]
      constructor
      · exact fun hle hbeh => absurd (hle hbeh.1) (Nat.not_le.mpr hbeh.2.2)
      · intro hnot hc
        by_contra hlt
        exact hnot ⟨hc, hzero, Nat.not_le.mp hlt⟩
    · rintro rfl
      exact hnext rfl
    · rintro rfl hc
      exact absurd (hmapped.mp hc) (by decide)
  · rw [if_pos hsec] at hrest
    obtain ⟨⟨ok1, v1⟩, s2, hbody, hdone⟩ := Prog.bind_eq_ok.mp hrest
    cases hdone
    obtain ⟨hmap, hin, hreads, hnext⟩ := h.data hb hr hj hnote hge hlt hsec hbody ha
    have hmapped := (h.comes_iff (hmap ▸ hge)).trans hreads
    have hne : r.sector map (r.first + j) ≠ 0 := by
      rw [Req.sector, hmap]
      exact hsec
    refine ⟨?_, ?_, ?_⟩
    · rw [Vars.inside_advance, hin]
      exact ⟨fun h => ⟨h, fun hbeh => hne hbeh.2.1⟩, fun h => h.1⟩
    · rintro rfl
      exact hnext rfl
    · rintro rfl hc
      exact absurd (hmapped.mp hc) (by decide)

/-- The rounds from the `j`-th block on. -/
theorem Round.blocks {f b c : ℕ} {k : ℤ} (hi : IntBlocks readBlock) (hb : BoundedInt devread)
    (hr : r.Rounds f b c k) (n : ℕ) (hj : f + j + n ≤ c) (h : Round r map reads j v s.2)
    (hrun : Ext2.blocks (recordBlock readBlock) (recordRead devread) r n (r.first + j) v s =
      some (.ok (ok, v'), s'))
    (ha : s'.2.Agrees r.first map reads) :
    (v'.Inside r ↔ v.Inside r ∧ ∀ t, j ≤ t → t < j + n → ¬ ZeroedBehind r map reads t) ∧
      (ok = true → Round r map reads (j + n) v' s'.2) ∧
      (ok = false → ∃ t < j + n, ¬ r.Comes map reads t) := by
  induction n generalizing j v s with
  | zero =>
    cases hrun
    exact ⟨⟨fun hin => ⟨hin, fun t hge hlt => by omega⟩, fun hin => hin.1⟩, fun _ => h,
      fun hok => absurd hok (by decide)⟩
  | succ n ih =>
    unfold Ext2.blocks at hrun
    obtain ⟨⟨ok1, v1⟩, s1, hblock, hrest⟩ := Prog.bind_eq_ok.mp hrun
    dsimp only at hrest
    have hgrows : Answers.Grows s1.2 s'.2 := by
      cases ok1 with
      | false =>
        cases hrest
        exact Answers.Grows.refl _
      | true => exact (blocks_recording readBlock devread r n _ v1).grows _ _ _ hrest
    obtain ⟨hin, hnext, hstop⟩ := h.block hi hb hr (by omega) hblock (ha.of_grows hgrows)
    have hsplit : (∀ t, j ≤ t → t < j + (n + 1) → ¬ ZeroedBehind r map reads t) ↔
        ¬ ZeroedBehind r map reads j ∧
          ∀ t, j + 1 ≤ t → t < j + 1 + n → ¬ ZeroedBehind r map reads t := by
      constructor
      · exact fun hall =>
          ⟨hall j (le_refl j) (by omega), fun t hge hlt => hall t (by omega) (by omega)⟩
      · rintro ⟨hfirst, hall⟩ t hge hlt
        rcases Nat.eq_or_lt_of_le hge with rfl | hge
        · exact hfirst
        · exact hall t hge (by omega)
    rw [hsplit, ← and_assoc (a := v.Inside r), ← hin]
    cases ok1 with
    | false =>
      cases hrest
      refine ⟨⟨fun h1 => ⟨h1, fun t hge _ hbeh => ?_⟩, fun h1 => h1.1⟩,
        fun hok => absurd hok (by decide), fun _ => ⟨j, by omega, hstop rfl⟩⟩
      exact hstop rfl (hbeh.1.mono (by omega))
    | true =>
      have hcast : r.first + (j : ℤ) + 1 = r.first + ((j + 1 : ℕ) : ℤ) := by
        push_cast
        ring
      rw [if_pos rfl, hcast] at hrest
      have hrun' := ih (by omega) (hnext rfl) hrest
      rwa [show j + 1 + n = j + (n + 1) by omega] at hrun' ⊢

/-- The end of the run: the last extent is read. -/
theorem inside_finish {f b c n : ℕ} {k : ℤ} (hb : BoundedInt devread) (hr : r.Rounds f b c k)
    {x : ℤ × List Write} (hround : ok = true → Round r map reads n v s.2)
    (hrun : (if ok = true then do
        let (ok, v) ← spillDelayed (recordRead devread) v
        pure (if ok then int32 r.len else -1, v.out)
      else pure (-1, v.out)) s = some (.ok x, s')) :
    (∀ w ∈ x.2, w.1 + w.2.length ≤ r.len) ↔ v.Inside r := by
  cases ok with
  | false =>
    cases hrun
    exact Iff.rfl
  | true =>
    rw [if_pos rfl] at hrun
    obtain ⟨⟨ok1, v1⟩, s1, hflush, hpure⟩ := Prog.bind_eq_ok.mp hrun
    cases hpure
    exact ((hround rfl).flush hb (hr.reach_le n) hflush).1.2.2

/-- A loop without a round stores nothing. -/
theorem recordFile_noRound {x : ℤ × List Write} (hround : r.blockcnt ≤ r.first)
    (hrun : recordFile readBlock devread r s = some (.ok x, s')) : x.2 = [] := by
  unfold recordFile readFile at hrun
  rw [show (r.blockcnt - r.first).toNat = 0 by omega] at hrun
  simp only [blocks, Prog.ret_bind, if_true, spillDelayed, Vars.init, ne_eq, not_true_eq_false,
    if_false, Prog.pure_apply, Option.some.injEq, Prod.mk.injEq, Except.ok.injEq] at hrun
  rw [← hrun.1]

/-- A run that returns has not looked up a block before the file. -/
theorem recordFile_nonneg {x : ℤ × List Write} (hi : IntBlocks readBlock)
    (hround : r.first < r.blockcnt)
    (hrun : recordFile readBlock devread r s = some (.ok x, s')) : 0 ≤ r.first := by
  obtain ⟨n, hn⟩ : ∃ n, (r.blockcnt - r.first).toNat = n + 1 := ⟨_, (Nat.succ_pred (by omega)).symm⟩
  unfold recordFile readFile at hrun
  rw [hn] at hrun
  obtain ⟨_, s1, hblocks, _⟩ := Prog.bind_eq_ok.mp hrun
  obtain ⟨_, s2, hblock, _⟩ := Prog.bind_eq_ok.mp hblocks
  obtain ⟨_, s3, hlook, _⟩ := Prog.bind_eq_ok.mp hblock
  exact (hi _ _ _ _ (Prog.record_ok hlook).1).1

theorem forall_not_overruns_iff (hge : -2 ^ 31 ≤ r.pos) (hle : r.pos < 2 ^ 31)
    (hlen : r.len < 2 ^ 32) (hnonneg : 0 ≤ r.first) :
    (∀ j, ¬ Overruns r map reads j) ↔
      ∀ t, 0 ≤ t → t < 0 + r.rounds → ¬ ZeroedBehind r map reads t := by
  unfold Req.rounds
  constructor
  · intro hall t _ ht hbeh
    obtain ⟨hcomes, hhole, hlt⟩ := hbeh
    exact hall t ((overruns_iff hge hle hlen hnonneg).mpr ⟨⟨by omega, hlt⟩, hcomes, hhole⟩)
  · intro hall j hover
    obtain ⟨⟨hj, hlt⟩, hcomes, hhole⟩ := (overruns_iff hge hle hlen hnonneg).mp hover
    exact hall j (Nat.zero_le j) (by omega) ⟨hcomes, hhole, hlt⟩

/-- The rounds of a run, and what comes behind them. -/
theorem recordFile_blocks {x : ℤ × List Write}
    (hrun : recordFile readBlock devread r s = some (.ok x, s')) :
    ∃ ok v s1, Ext2.blocks (recordBlock readBlock) (recordRead devread) r r.rounds
        (r.first + (0 : ℕ)) .init s = some (.ok (ok, v), s1) ∧ Answers.Grows s1.2 s'.2 ∧
      (if ok = true then do
          let (ok, v) ← spillDelayed (recordRead devread) v
          pure (if ok then int32 r.len else -1, v.out)
        else pure (-1, v.out)) s1 = some (.ok x, s') := by
  unfold recordFile readFile at hrun
  obtain ⟨⟨ok, v⟩, s1, hblocks, hrest⟩ := Prog.bind_eq_ok.mp hrun
  dsimp only at hrest
  refine ⟨ok, v, s1, ?_, ?_, hrest⟩
  · rw [Nat.cast_zero, add_zero]
    exact hblocks
  · cases ok with
    | false =>
      cases hrest
      exact Answers.Grows.refl _
    | true =>
      rw [if_pos rfl] at hrest
      obtain ⟨_, s3, hflush, hpure⟩ := Prog.bind_eq_ok.mp hrest
      cases hpure
      exact (spillDelayed_recording devread v).grows _ _ _ hflush

theorem rounds_le {f b c : ℕ} {k : ℤ} (hr : r.Rounds f b c k) : f + 0 + r.rounds ≤ c := by
  have hlt := hr.lt
  unfold Req.rounds
  rw [hr.first_eq, hr.count_eq]
  omega

/-- A run stays inside the request unless it zero fills a last block of which only the
    start is asked for. -/
theorem readFile_inside_iff (hge : -2 ^ 31 ≤ r.pos) (hle : r.pos < 2 ^ 31) (hlen : r.len < 2 ^ 32)
    (hi : IntBlocks readBlock) (hb : BoundedInt devread) {s s' : σ} {ret : ℤ} {out : List Write}
    (hrun : readFile readBlock devread r s = some (.ok (ret, out), s'))
    (ha : Answered readBlock devread r s map reads) :
    (∀ w ∈ out, w.1 + w.2.length ≤ r.len) ↔ ∀ j, ¬ Overruns r map reads j := by
  obtain ⟨x, s1, a, hrec, hagrees⟩ := ha
  have hsame := (recordFile_recording readBlock devread r).same s ⟨[], []⟩
  rw [hrec, hrun] at hsame
  cases hsame
  by_cases hround : r.first < r.blockcnt
  · have hnonneg := recordFile_nonneg hi hround hrec
    obtain ⟨f, b, c, k, hr⟩ := Req.exists_rounds hge hle hlen hnonneg hround
    rw [forall_not_overruns_iff hge hle hlen hnonneg]
    obtain ⟨ok, v, s2, hblocks, hgrows, hrest⟩ := recordFile_blocks hrec
    have hinit : Round r map reads 0 .init (s, (⟨[], []⟩ : Answers)).2 := round_init
    obtain ⟨hin, hlast, -⟩ :=
      hinit.blocks hi hb hr _ (rounds_le hr) hblocks (hagrees.of_grows hgrows)
    rw [inside_finish hb hr hlast hrest, hin]
    exact and_iff_right (fun w hw => absurd hw List.not_mem_nil)
  · have hout : out = [] := recordFile_noRound (by omega) hrec
    rw [hout]
    refine ⟨fun _ j hover => ?_, fun _ w hw => absurd hw List.not_mem_nil⟩
    have hlt := Req.lt_blockcnt hge hle hlen hover.nonneg hover.start hover.part hover.noWrap
    omega

/-- Every run that returns has a block map and outcomes. -/
theorem exists_answered {s s' : σ} {x : ℤ × List Write}
    (hrun : readFile readBlock devread r s = some (.ok x, s')) :
    ∃ map reads, Answered readBlock devread r s map reads := by
  obtain ⟨a, hrec⟩ := (recordFile_recording readBlock devread r).run hrun ⟨[], []⟩
  obtain ⟨map, reads, hagrees⟩ := a.exists_agrees r.first
  exact ⟨map, reads, x, s', a, hrec, hagrees⟩

end Run

end SmartQ.Qi.Ext2
