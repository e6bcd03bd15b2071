import Mathlib.Data.Nat.Count
import Mathlib.Tactic
import SmartQ.Qi.NandRead

/-!
# The dynamic partitions of the GTA02 flash

Model of the partition computation in `port_init_gta02` and of the `mtdparts` part of
`append_device_specific_cmdline_gta02` in `qi/src/cpu/s3c2442/gta02.c`. `good_length` is first a
number of bytes to go, counted down over the good pages, and then the partition's length in blocks.

* `goodLoop_eq`: one countdown, in terms of the number of good pages.
* `Tiles`: what a table of partitions has to be.
* `portInit_partitioned`: the table tiles the flash wherever it has enough good pages, and the lengths
  that are printed add up to it.
-/

namespace SmartQ.Qi.Nand

open SmartQ.Lib

/-! ## Model -/

/-- `struct nand_dynparts`: a partition of the flash by its length in good blocks, and where it
    really begins. -/
structure NandDynpart where
  name : List Char
  good_length : ℕ
  true_offset : ℕ

/-- `nand_dynparts`: the partitions in their order; the last one has the rest. -/
def nandDynparts : List NandDynpart :=
  [⟨"qi".toList, 0x40000, 0⟩, ⟨"depr-ub-env".toList, 0x40000, 0⟩, ⟨"kernel".toList, 0x800000, 0⟩,
    ⟨"depr".toList, 0xa0000, 0⟩, ⟨"identity-ext2".toList, 0x40000, 0⟩, ⟨"rootfs".toList, 0, 0⟩]

/-- `nand_extent_block512`: the flash has 256 MB, counted in blocks of 512 bytes. -/
def nandExtentBlock512 : ℕ := 256 * 1024 * 1024 / 512

/-- `GTA02_NAND_READBLOCK_SIZE`: the bytes that one look at the flash covers. -/
def readblockSize : ℕ := 2048

/-- The inner `while` for at most a number of rounds: the block it stops at. The blocks whose mark
    is read are kept as well. -/
def goodLoop (nand : Flash) : ℕ → ℕ → ℕ → List ℕ → Option (ℕ × List ℕ)
  | 0, _, _, _ => none
  | k + 1, good_length, block512, asked =>
    if good_length = 0 then some (block512, asked)
    else goodLoop nand k
      (if S3c2442.isBadBlock nand block512 then good_length else sub32 good_length readblockSize)
      (add32 block512 (readblockSize / 512)) (asked ++ [block512])

/-- The outer `while` (lines 316–344) over the partitions from one on. -/
def dynpartsLoop (nand : Flash) (k : ℕ) :
    List NandDynpart → ℕ → ℕ → List ℕ → Option (List NandDynpart × List ℕ)
  | [], _, _, asked => some ([], asked)
  | p :: ps, block512, start_block512, asked => do
    let (block512, asked) ←
      if p.good_length ≠ 0 then goodLoop nand k p.good_length block512 asked
      else some (nandExtentBlock512, asked)
    let (qs, asked) ← dynpartsLoop nand k ps block512 block512 asked
    some ({ p with
      true_offset := start_block512
      good_length := sub32 block512 start_block512 } :: qs, asked)

/-- The partitions that `port_init_gta02` computes, and the blocks whose mark it reads. -/
def portInit (nand : Flash) (k : ℕ) : Option (List NandDynpart × List ℕ) :=
  dynpartsLoop nand k nandDynparts 0 0 []

/-- `setnybble`: a hexadecimal digit, in lower case. -/
def setnybble (n : ℕ) : Char :=
  if n < 10 then Char.ofNat ('0'.toNat + n) else Char.ofNat ('a'.toNat + n - 10)

/-- `set8`: a byte as two hexadecimal digits. -/
def set8 (n : ℕ) : List Char := [setnybble (n >>> 4 &&& 15), setnybble (n &&& 15)]

/-- `set32`: a word as eight hexadecimal digits, the high byte first. -/
def set32 (u : ℕ) : List Char :=
  set8 (u >>> 24 % 256) ++ set8 (u >>> 16 % 256) ++ set8 (u >>> 8 % 256) ++ set8 (u % 256)

/-- What the loop of `append_device_specific_cmdline_gta02` (lines 561–578) writes. -/
def mtdparts : List NandDynpart → List Char
  | [] => []
  | q :: qs =>
    "0x".toList ++ set32 (q.good_length * 512 % 2 ^ 32) ++ "(".toList ++ q.name ++ ")".toList ++
      (if qs = [] then " ".toList else ",".toList) ++ mtdparts qs

/-- The first part of `append_device_specific_cmdline_gta02` (lines 549–580). -/
def appendMtdparts (parts : List NandDynpart) : List Char :=
  " mtdparts=physmap-flash:-(nor);neo1973-nand:".toList ++ mtdparts parts

/-! ## What the table has to be -/

/-- The mark of page `i` is not set. -/
def Good (nand : Flash) (i : ℕ) : Prop := S3c2442.isBadBlock nand (4 * i) = false

instance (nand : Flash) : DecidablePred (Good nand) := fun _ => inferInstanceAs (Decidable (_ = _))

/-- The pages in the extent. -/
def extentPages : ℕ := nandExtentBlock512 / 4

/-- The partitions `qs` follow each other from block `start` to the end of the extent. Each one
    that the table gives a size has that much in good pages, of which one is its last page. -/
def Tiles (nand : Flash) : ℕ → List NandDynpart → List NandDynpart → Prop
  | start, [], [] => start = nandExtentBlock512
  | start, p :: ps, q :: qs =>
    q.name = p.name ∧ q.true_offset = start ∧
    (p.good_length ≠ 0 → ∃ a b, start = 4 * a ∧ start + q.good_length = 4 * (b + 1) ∧ a ≤ b ∧
      Good nand b ∧ 2048 * (Nat.count (Good nand) (b + 1) - Nat.count (Good nand) a) =
        p.good_length) ∧
    Tiles nand (start + q.good_length) ps qs
  | _, _, _ => False

/-- The number that hexadecimal digits stand for. -/
def readHex (ds : List Char) : ℕ :=
  ds.foldl (fun v c => 16 * v + (if c.isDigit then c.toNat - 48 else c.toNat - 87)) 0

/-- The text gives the partitions of the table these lengths in bytes, each in eight digits. -/
def Says : List NandDynpart → List ℕ → List Char → Prop
  | [p], [v], text => ∃ ds, ds.length = 8 ∧ readHex ds = v ∧
    text = "0x".toList ++ ds ++ "(".toList ++ p.name ++ ") ".toList
  | p :: ps, v :: vs, text => ∃ ds rest, ds.length = 8 ∧ readHex ds = v ∧
    text = "0x".toList ++ ds ++ "(".toList ++ p.name ++ "),".toList ++ rest ∧ Says ps vs rest
  | _, _, _ => False

/-! ## The countdown -/

section Countdown

variable (nand : Flash)

theorem goodLoop_zero (k a : ℕ) (asked : List ℕ) :
    goodLoop nand (k + 1) (2048 * 0) a asked = some (a, asked) := by
  rw [goodLoop, if_pos (Nat.mul_zero 2048)]

/-- One round with `m` pages to go. -/
theorem goodLoop_succ {m a : ℕ} (k : ℕ) (asked : List ℕ) (h0 : 0 < m) (hm : m < 2 ^ 20)
    (ha : a < 2 ^ 20) :
    goodLoop nand (k + 1) (2048 * m) (4 * a) asked =
      goodLoop nand k (2048 * (if Good nand a then m - 1 else m)) (4 * (a + 1))
        (asked ++ [4 * a]) := by
  have hblock : add32 (4 * a) (readblockSize / 512) = 4 * (a + 1) := by
    rw [show readblockSize / 512 = 4 from rfl, add32_of_lt (by omega)]
    omega
  rw [goodLoop, if_neg (by omega), hblock]
  by_cases hgood : Good nand a
  · have hbad : ¬ S3c2442.isBadBlock nand (4 * a) = true := by
      rw [show S3c2442.isBadBlock nand (4 * a) = false from hgood]
      exact Bool.false_ne_true
    have hlen : sub32 (2048 * m) readblockSize = 2048 * (m - 1) := by
      rw [show readblockSize = 2048 from rfl, sub32_of_le (by omega) (by omega)]
      omega
    rw [if_neg hbad, if_pos hgood, hlen]
  · have hbad : S3c2442.isBadBlock nand (4 * a) = true := by
      unfold Good at hgood
      simpa using hgood
    rw [if_pos hbad, if_neg hgood]

/-- Where `m` good pages are left among the first `N`, the countdown ends behind the last of
    them. -/
theorem goodLoop_eq {N : ℕ} (hN : N < 2 ^ 20) (d a m : ℕ) (asked : List ℕ) (hd : a + d = N)
    (h : Nat.count (Good nand) a + m ≤ Nat.count (Good nand) N) :
    ∃ e asked', a ≤ e ∧ e ≤ N ∧ Nat.count (Good nand) e = Nat.count (Good nand) a + m ∧
      (e = a ∨ ∃ b, e = b + 1 ∧ a ≤ b ∧ Good nand b) ∧
      (∀ b ∈ asked', b ∈ asked ∨ b + 4 ≤ 4 * N) ∧
      ∀ k, d < k → goodLoop nand k (2048 * m) (4 * a) asked = some (4 * e, asked') := by
  have hdone : m = 0 → ∀ k, d < k → goodLoop nand k (2048 * m) (4 * a) asked =
      some (4 * a, asked) := by
    rintro rfl k hk
    obtain ⟨k, rfl⟩ : ∃ k', k = k' + 1 := ⟨k - 1, by omega⟩
    exact goodLoop_zero nand k (4 * a) asked
  induction d generalizing a m asked with
  | zero =>
    -- at the end no good page is left
    have hm : m = 0 := by
      rw [← hd, Nat.add_zero] at h
      omega
    exact ⟨a, asked, le_rfl, hd.le, by omega, .inl rfl, fun b hb => .inl hb, hdone hm⟩
  | succ d ih =>
    rcases Nat.eq_zero_or_pos m with hm | hm
    · exact ⟨a, asked, le_rfl, by omega, by omega, .inl rfl, fun b hb => .inl hb, hdone hm⟩
    · have hcount : Nat.count (Good nand) N ≤ N := Nat.count_le _
      have hsucc : Nat.count (Good nand) (a + 1) + (if Good nand a then m - 1 else m) =
          Nat.count (Good nand) a + m := by
        rw [Nat.count_succ]
        split_ifs <;> omega
      obtain ⟨e, asked', hae, hee, hce, hb, hask, hrun⟩ := ih (a + 1)
        (if Good nand a then m - 1 else m) (asked ++ [4 * a]) (by omega) (by omega)
        (fun h0 k hk => by
          rw [h0]
          obtain ⟨k, rfl⟩ : ∃ k', k = k' + 1 := ⟨k - 1, by omega⟩
          exact goodLoop_zero nand k _ _)
      refine ⟨e, asked', by omega, hee, by omega, .inr ?_, fun b hb' => ?_, fun k hk => ?_⟩
      · rcases hb with rfl | ⟨b, hbe, hab, hgb⟩
        · -- a page that is not good would leave the count as it was
          refine ⟨a, rfl, le_rfl, ?_⟩
          by_contra hgood
          rw [Nat.count_succ_eq_count hgood] at hce
          rw [if_neg hgood] at hce
          omega
        · exact ⟨b, hbe, by omega, hgb⟩
      · rcases hask b hb' with hb' | hb'
        · rcases List.mem_append.mp hb' with hb' | hb'
          · exact .inl hb'
          · rw [List.mem_singleton.mp hb']
            exact .inr (by omega)
        · exact .inr hb'
      · obtain ⟨k, rfl⟩ : ∃ k', k = k' + 1 := ⟨k - 1, by omega⟩
        rw [goodLoop_succ nand k asked hm (by omega) (by omega), hrun k (by omega)]

/-! ## The table -/

theorem nandExtentBlock512_eq : nandExtentBlock512 = 4 * extentPages := by
  norm_num [extentPages, nandExtentBlock512]

theorem extentPages_lt : extentPages < 2 ^ 20 := by
  norm_num [extentPages, nandExtentBlock512]

/-- The last partition gets what the other ones left. -/
theorem dynpartsLoop_last {p : NandDynpart} (hp : p.good_length = 0) {a : ℕ} (k : ℕ)
    (asked : List ℕ) (ha : a ≤ extentPages) :
    ∃ qs, dynpartsLoop nand k [p] (4 * a) (4 * a) asked = some (qs, asked) ∧
      Tiles nand (4 * a) [p] qs := by
  have hlen : 4 * a + sub32 nandExtentBlock512 (4 * a) = nandExtentBlock512 := by
    have := extentPages_lt
    have := nandExtentBlock512_eq
    rw [sub32_of_le (by omega) (by omega)]
    omega
  refine ⟨[{ p with
    true_offset := 4 * a
    good_length := sub32 nandExtentBlock512 (4 * a) }], ?_, rfl, rfl, ?_, hlen⟩
  · rw [dynpartsLoop, if_neg (not_not.mpr hp)]
    rfl
  · intro h
    exact absurd hp h

/-- The partitions with a size, and behind them the last one. -/
theorem dynpartsLoop_eq {last : NandDynpart} (hlast : last.good_length = 0)
    (fixed : List NandDynpart)
    (hfixed : ∀ p ∈ fixed, p.good_length ≠ 0 ∧ 2048 ∣ p.good_length) (a : ℕ) (asked : List ℕ)
    (ha : a ≤ extentPages)
    (h : Nat.count (Good nand) a + (fixed.map fun p => p.good_length / 2048).sum ≤
      Nat.count (Good nand) extentPages) :
    ∃ qs asked', Tiles nand (4 * a) (fixed ++ [last]) qs ∧
      (∀ b ∈ asked', b ∈ asked ∨ b + 4 ≤ nandExtentBlock512) ∧
      ∀ k, extentPages < k →
        dynpartsLoop nand k (fixed ++ [last]) (4 * a) (4 * a) asked = some (qs, asked') := by
  induction fixed generalizing a asked with
  | nil =>
    obtain ⟨qs, hrun, htile⟩ := dynpartsLoop_last nand hlast 0 asked ha
    refine ⟨qs, asked, htile, fun b hb => .inl hb, fun k _ => ?_⟩
    rw [← hrun, List.nil_append, dynpartsLoop, dynpartsLoop, if_neg (not_not.mpr hlast),
      if_neg (not_not.mpr hlast)]
    rfl
  | cons p fixed ih =>
    obtain ⟨hp, m, hm⟩ := hfixed p List.mem_cons_self
    rw [List.map_cons, List.sum_cons, hm, Nat.mul_div_cancel_left m (by norm_num)] at h
    obtain ⟨e, asked1, hae, hee, hce, hb, hask1, hrun1⟩ :=
      goodLoop_eq nand extentPages_lt (extentPages - a) a m asked (by omega) (by omega)
    obtain ⟨qs, asked2, htile, hask2, hrun2⟩ :=
      ih (fun q hq => hfixed q (List.mem_cons_of_mem p hq)) e asked1 hee (by omega)
    have hext := nandExtentBlock512_eq
    have hlt := extentPages_lt
    have hlen : sub32 (4 * e) (4 * a) = 4 * e - 4 * a := sub32_of_le (by omega) (by omega)
    refine ⟨{ p with
      true_offset := 4 * a
      good_length := 4 * e - 4 * a } :: qs, asked2, ⟨rfl, rfl, fun _ => ?_, ?_⟩, ?_, ?_⟩
    · obtain ⟨b, rfl, hab, hgood⟩ := hb.resolve_left fun h0 => by
        rw [h0] at hce
        omega
      refine ⟨a, b, rfl, ?_, hab, hgood, ?_⟩
      · show 4 * a + (4 * (b + 1) - 4 * a) = 4 * (b + 1)
        omega
      · rw [hce, hm]
        omega
    · show Tiles nand (4 * a + (4 * e - 4 * a)) (fixed ++ [last]) qs
      rw [show 4 * a + (4 * e - 4 * a) = 4 * e by omega]
      exact htile
    · intro b hb2
      rcases hask2 b hb2 with h1 | h1
      · rcases hask1 b h1 with h2 | h2
        · exact .inl h2
        · exact .inr (by omega)
      · exact .inr h1
    · intro k hk
      have hk1 : extentPages - a < k := by omega
      rw [List.cons_append, dynpartsLoop, if_pos hp, hm, hrun1 k hk1]
      show (dynpartsLoop nand k (fixed ++ [last]) (4 * e) (4 * e) asked1 >>= _) = _
      rw [hrun2 k hk, ← hlen]
      rfl

theorem Tiles.sum_eq {start : ℕ} {ps qs : List NandDynpart} (h : Tiles nand start ps qs) :
    start + (qs.map fun q => q.good_length).sum = nandExtentBlock512 := by
  induction ps generalizing start qs with
  | nil =>
    rcases qs with _ | ⟨q, qs⟩
    · exact h
    · exact h.elim
  | cons p ps ih =>
    rcases qs with _ | ⟨q, qs⟩
    · exact h.elim
    · have := ih h.2.2.2
      rw [List.map_cons, List.sum_cons]
      omega

end Countdown

/-! ## The lengths that are printed -/

theorem length_set32 (u : ℕ) : (set32 u).length = 8 := rfl

/-- A digit stands for the value it was made of. -/
theorem readHex_nybble {v n : ℕ} (ds : List Char) (hn : n < 16) (h : readHex ds = v) :
    readHex (ds ++ [setnybble n]) = 16 * v + n := by
  have hdigit : (if (setnybble n).isDigit then (setnybble n).toNat - 48
      else (setnybble n).toNat - 87) = n := by
    revert n
    decide
  rw [readHex, List.foldl_append, List.foldl_cons, List.foldl_nil, hdigit]
  exact congrArg (16 * · + n) h

theorem readHex_set8 {v n : ℕ} (ds : List Char) (hn : n < 256) (h : readHex ds = v) :
    readHex (ds ++ set8 n) = 256 * v + n := by
  have hhigh : n >>> 4 &&& 15 = n / 16 := by
    rw [show 15 = 2 ^ 4 - 1 from rfl, Nat.and_two_pow_sub_one_eq_mod, Nat.shiftRight_eq_div_pow]
    omega
  have hlow : n &&& 15 = n % 16 := Nat.and_two_pow_sub_one_eq_mod n 4
  have h1 := readHex_nybble ds (show n / 16 < 16 by omega) h
  have h2 := readHex_nybble _ (Nat.mod_lt n (show 0 < 16 by norm_num)) h1
  rw [List.append_assoc] at h2
  rw [set8, hhigh, hlow]
  refine h2.trans ?_
  omega

theorem readHex_set32 {u : ℕ} (hu : u < 2 ^ 32) : readHex (set32 u) = u := by
  have h1 := readHex_set8 (v := 0) [] (Nat.mod_lt (u >>> 24) (show 0 < 256 by norm_num)) rfl
  have h2 := readHex_set8 _ (Nat.mod_lt (u >>> 16) (show 0 < 256 by norm_num)) h1
  have h3 := readHex_set8 _ (Nat.mod_lt (u >>> 8) (show 0 < 256 by norm_num)) h2
  have h4 := readHex_set8 _ (Nat.mod_lt u (show 0 < 256 by norm_num)) h3
  refine h4.trans ?_
  simp only [Nat.shiftRight_eq_div_pow]
  omega

/-- The text gives each partition its length. -/
theorem says_mtdparts {nand : Flash} {start : ℕ} {ps qs : List NandDynpart} (hps : ps ≠ [])
    (h : Tiles nand start ps qs) (hsmall : ∀ q ∈ qs, q.good_length * 512 < 2 ^ 32) :
    Says ps (qs.map fun q => q.good_length * 512) (mtdparts qs) := by
  induction ps generalizing start qs with
  | nil => exact absurd rfl hps
  | cons p ps ih =>
    rcases qs with _ | ⟨q, qs⟩
    · exact h.elim
    · obtain ⟨hname, -, -, hrest⟩ := h
      have hq := hsmall q List.mem_cons_self
      have hread : readHex (set32 (q.good_length * 512 % 2 ^ 32)) = q.good_length * 512 := by
        rw [Nat.mod_eq_of_lt hq, readHex_set32 hq]
      rcases ps with _ | ⟨p', ps⟩
      · rcases qs with _ | ⟨q', qs⟩
        · exact ⟨_, length_set32 _, hread, by simp [mtdparts, hname]⟩
        · exact hrest.elim
      · rcases qs with _ | ⟨q', qs⟩
        · exact hrest.elim
        · refine ⟨_, mtdparts (q' :: qs), length_set32 _, hread, ?_,
            ih (List.cons_ne_nil p' ps) hrest fun q hq => hsmall q (List.mem_cons_of_mem _ hq)⟩
          rw [mtdparts, if_neg (List.cons_ne_nil q' qs), hname]
          simp

/-! ## The GTA02 table -/

/-- The good pages that the partitions with a size need. -/
def neededPages : ℕ := (nandDynparts.map fun p => p.good_length / readblockSize).sum

/-- A result of `port_init_gta02`: the table tiles the extent, no mark outside it is read, and the
    lengths that are printed add up to the 256 MiB of the extent. -/
structure Partitioned (nand : Flash) (qs : List NandDynpart) (asked : List ℕ) : Prop where
  tiles : Tiles nand 0 nandDynparts qs
  asked_le : ∀ b ∈ asked, b + 4 ≤ nandExtentBlock512
  printed : ∃ vs text, appendMtdparts qs =
      " mtdparts=physmap-flash:-(nor);neo1973-nand:".toList ++ text ∧
    Says nandDynparts vs text ∧ vs = (qs.map fun q => q.good_length * 512) ∧
    vs.sum = 256 * 1024 * 1024

/-- If the extent has as many good pages as the partitions with a size need, `port_init_gta02`
    comes to an end with a table that tiles it. -/
theorem portInit_partitioned (nand : Flash)
    (h : neededPages ≤ Nat.count (Good nand) extentPages) :
    ∃ qs asked, (∀ k, extentPages < k → portInit nand k = some (qs, asked)) ∧
      Partitioned nand qs asked := by
  have hneed : (nandDynparts.dropLast.map fun p => p.good_length / 2048).sum = neededPages := by
    decide
  have hlast : (⟨"rootfs".toList, 0, 0⟩ : NandDynpart).good_length = 0 := rfl
  obtain ⟨qs, asked, htile, hask, hrun⟩ :=
    dynpartsLoop_eq nand hlast nandDynparts.dropLast (by decide) 0 []
    (Nat.zero_le _) (by rw [hneed, Nat.count_zero, Nat.zero_add]; exact h)
  have hsum := htile.sum_eq
  have hext : nandExtentBlock512 = 524288 := by norm_num [nandExtentBlock512]
  rw [Nat.mul_zero, Nat.zero_add] at hsum
  have hsmall : ∀ q ∈ qs, q.good_length * 512 < 2 ^ 32 := by
    intro q hq
    have := List.le_sum_of_mem (List.mem_map_of_mem (f := fun q => q.good_length) hq)
    omega
  refine ⟨qs, asked, hrun, htile, fun b hb => ?_, _, mtdparts qs, rfl,
    says_mtdparts (by decide) htile hsmall, rfl, ?_⟩
  · exact (hask b hb).resolve_left List.not_mem_nil
  · rw [List.sum_map_mul_right, hsum, hext]
    norm_num

/-- An erased flash with page 5 marked as a bad one. -/
def wornFlash : Flash := fun page column => if page = 5 ∧ column = 2048 then 0 else 0xff

example : ¬ Good wornFlash 5 := by decide

/-- It has enough good pages. -/
theorem portInit_worn :
    ∃ qs asked, (∀ k, extentPages < k → portInit wornFlash k = some (qs, asked)) ∧
      Partitioned wornFlash qs asked := by
  apply portInit_partitioned wornFlash
  have hgood : ∀ i < extentPages - 6, Good wornFlash (6 + i) := by
    intro i hi
    have hlt : i < 131066 := hi
    have hrow : row ((4 * (6 + i)) >>> 2) ≠ 5 := by
      rw [Nat.shiftRight_eq_div_pow]
      unfold row
      omega
    simp [Good, S3c2442.isBadBlock, wornFlash, hrow]
  calc neededPages ≤ extentPages - 6 := by
        norm_num [neededPages, nandDynparts, extentPages, nandExtentBlock512, readblockSize]
    _ = Nat.count (fun i => Good wornFlash (6 + i)) (extentPages - 6) :=
        (Nat.count_of_forall hgood).symm
    _ ≤ Nat.count (Good wornFlash) (6 + (extentPages - 6)) := by
        rw [Nat.count_add]
        exact Nat.le_add_left _ _
    _ = Nat.count (Good wornFlash) extentPages := by congr 1

end SmartQ.Qi.Nand
