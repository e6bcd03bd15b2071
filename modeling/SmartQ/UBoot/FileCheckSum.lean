import SmartQ.Lib.CInt

/-!
# The check sum of a U-Boot image

Model of `file_check_sum` in `u-boot/board/samsung/smdk6410/cmd_hhtech.c`: the last word of an
image is the sum of the words before it. A read outside the image has no value.

* `fileCheckSum_iff`: the lengths and images for which the test is the one for a check sum.
-/

namespace SmartQ.UBoot.FileCheckSum

open SmartQ.Lib

/-! ## Model -/

/-- Word `i` of an image. -/
def word (image : List Byte) (i : ℕ) : ℕ := u32At image (4 * i)

/-- `pp[i]`: a word of the image, or a read behind its end. -/
def readWord (image : List Byte) (i : ℕ) : Option ℕ :=
  if 4 * i + 4 ≤ image.length then some (word image i) else none

/-- The loop of `file_check_sum`, `n` rounds from word `i` on. -/
def sumLoop (image : List Byte) : (n i check : ℕ) → Option ℕ
  | 0, _, check => some check
  | n + 1, i, check => do
    let w ← readWord image i
    sumLoop image n (i + 1) ((check + w) % 2 ^ 32)

/-- `file_check_sum` (lines 120–139) of an image and its length. -/
def fileCheckSum (image : List Byte) : Option ℤ :=
  let len := image.length
  -- `len & 0x3 != 0` is `len & (0x3 != 0)`
  if len % 2 = 1 then some (-1) else do
    let n := toU32 ((len / 4 : ℕ) - 1)
    let check ← sumLoop image n 0 0
    let last ← readWord image n
    pure (if check = last then 0 else -1)

/-! ## Specification -/

/-- The sum of the first `n` words. -/
def wordSum (image : List Byte) (n : ℕ) : ℕ := ((List.range n).map (word image)).sum % 2 ^ 32

/-- The image consists of words, and the last one is the sum of the others. -/
structure Summed (image : List Byte) : Prop where
  words : image.length % 4 = 0
  nonempty : 4 ≤ image.length
  last : word image (image.length / 4 - 1) = wordSum image (image.length / 4 - 1)

/-- `file_check_sum` stays inside the image and returns 0 for the ones with their sum. -/
def Exact (image : List Byte) : Prop := ∃ ret, fileCheckSum image = some ret ∧
  (ret = 0 ↔ Summed image)

/-! ## The loop -/

section Loop

variable {image : List Byte}

theorem readWord_of_le {i : ℕ} (h : 4 * i + 4 ≤ image.length) :
    readWord image i = some (word image i) := if_pos h

/-- Rounds inside the image add its words. -/
theorem sumLoop_inside (n : ℕ) :
    ∀ i check : ℕ, 4 * (i + n) ≤ image.length → check < 2 ^ 32 →
      sumLoop image n i check =
        some ((check + ((List.range' i n).map (word image)).sum) % 2 ^ 32) := by
  induction n with
  | zero =>
    intro i check _ hcheck
    rw [sumLoop, List.range'_zero, List.map_nil, List.sum_nil, Nat.add_zero,
      Nat.mod_eq_of_lt hcheck]
  | succ n ih =>
    intro i check hle _
    rw [sumLoop, readWord_of_le (by omega), Option.bind_eq_bind, Option.bind_some,
      ih (i + 1) _ (by omega) (Nat.mod_lt _ (by decide)), Nat.mod_add_mod, List.range'_succ,
      List.map_cons, List.sum_cons, Nat.add_assoc]

/-- Rounds that leave it have no value. -/
theorem sumLoop_outside (n : ℕ) :
    ∀ i check : ℕ, 0 < n → image.length < 4 * (i + n) → sumLoop image n i check = none := by
  induction n with
  | zero => exact fun _ _ hpos => absurd hpos (Nat.not_lt_zero 0)
  | succ n ih =>
    intro i check _ hlt
    rw [sumLoop]
    by_cases hin : 4 * i + 4 ≤ image.length
    · rw [readWord_of_le hin, Option.bind_eq_bind, Option.bind_some]
      exact ih (i + 1) _ (by omega) (by omega)
    · rw [readWord, if_neg hin]
      rfl

/-- An odd length is turned down. -/
theorem fileCheckSum_odd (h : image.length % 2 = 1) : fileCheckSum image = some (-1) := if_pos h

/-- With less than a word the bound of the loop wraps around. -/
theorem fileCheckSum_short (h : image.length % 2 = 0) (hlen : image.length < 4) :
    fileCheckSum image = none := by
  have hn : toU32 (((image.length / 4 : ℕ) : ℤ) - 1) = 2 ^ 32 - 1 := by
    rw [Nat.div_eq_of_lt hlen]
    rfl
  unfold fileCheckSum
  simp only
  rw [if_neg (by omega), hn, sumLoop_outside _ 0 0 (by decide) (by omega)]
  rfl

/-- Otherwise the words are compared, whether the length is a multiple of four or not. -/
theorem fileCheckSum_even (h : image.length % 2 = 0) (hlen : 4 ≤ image.length)
    (hint : image.length < 2 ^ 31) :
    fileCheckSum image = some
      (if wordSum image (image.length / 4 - 1) = word image (image.length / 4 - 1) then 0
        else -1) := by
  have hn : toU32 (((image.length / 4 : ℕ) : ℤ) - 1) = image.length / 4 - 1 := by
    unfold toU32
    omega
  unfold fileCheckSum
  simp only
  rw [if_neg (by omega), hn, sumLoop_inside _ 0 0 (by omega) (by decide),
    readWord_of_le (by omega), Nat.zero_add, ← List.range_eq_range']
  rfl

end Loop

/-! ## The test -/

theorem fileCheckSum_iff (image : List Byte) (hint : image.length < 2 ^ 31) :
    Exact image ↔ image.length % 2 = 1 ∨ image.length % 4 = 0 ∧ 4 ≤ image.length ∨
      image.length % 4 = 2 ∧ 6 ≤ image.length ∧
        word image (image.length / 4 - 1) ≠ wordSum image (image.length / 4 - 1) := by
  unfold Exact
  by_cases hodd : image.length % 2 = 1
  · refine iff_of_true ⟨-1, fileCheckSum_odd hodd, ?_⟩ (.inl hodd)
    exact iff_of_false (by decide) fun h => absurd h.words (by omega)
  · by_cases hlen : 4 ≤ image.length
    · rw [fileCheckSum_even (by omega) hlen hint]
      by_cases hwords : image.length % 4 = 0
      · refine iff_of_true ⟨_, rfl, ?_⟩ (.inr (.inl ⟨hwords, hlen⟩))
        by_cases hsum : wordSum image (image.length / 4 - 1) =
            word image (image.length / 4 - 1)
        · rw [if_pos hsum]
          exact iff_of_true rfl ⟨hwords, hlen, hsum.symm⟩
        · rw [if_neg hsum]
          exact iff_of_false (by decide) fun h => hsum h.last.symm
      · -- two bytes more than words: the words are compared all the same
        have hnot : ¬ Summed image := fun h => hwords h.words
        constructor
        · rintro ⟨ret, hret, hiff⟩
          refine .inr (.inr ⟨by omega, by omega, fun hsum => ?_⟩)
          rw [if_pos hsum.symm] at hret
          cases hret
          exact hnot (hiff.mp rfl)
        · rintro (h | h | ⟨-, -, hsum⟩)
          · exact absurd h hodd
          · exact absurd h.1 hwords
          · refine ⟨_, rfl, ?_⟩
            rw [if_neg (Ne.symm hsum)]
            exact iff_of_false (by decide) hnot
    · rw [fileCheckSum_short (by omega) (by omega)]
      refine iff_of_false ?_ (by omega)
      rintro ⟨ret, hret, -⟩
      cases hret

/-- An image of two words with its sum. -/
theorem fileCheckSum_twoWords : Exact [1, 2, 3, 4, 1, 2, 3, 4] :=
  (fileCheckSum_iff [1, 2, 3, 4, 1, 2, 3, 4] (by decide)).mpr (.inr (.inl ⟨by decide, by decide⟩))

/-- Six zero bytes pass. -/
theorem not_fileCheckSum_six : ¬ Exact [0, 0, 0, 0, 0, 0] := by
  rintro ⟨ret, hret, hiff⟩
  have hzero : fileCheckSum [0, 0, 0, 0, 0, 0] = some 0 := by decide +kernel
  rw [hzero] at hret
  cases hret
  exact absurd (hiff.mp rfl).words (by decide)

end SmartQ.UBoot.FileCheckSum
