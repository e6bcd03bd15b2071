import Mathlib.Data.List.Count
import Mathlib.Tactic

/-!
# The memory test

Model of `qi/src/memory-test.c` on a memory that may have a fault. Pointers and the counter of
errors are words of 32 bits.

* `run_errors`, `run_line`: the errors that one test counts.
* `memoryTest_ne_zero`: the bounds of a whole series.
* `detects_iff`: the test finds every fault it is built for, and none in a memory without one, if
  and only if the region does not reach the end of the address space.
-/

namespace SmartQ.Qi.MemoryTest

/-! ## Faulty memory -/

/-- What is stored, by address, before the faults of the memory come in. -/
abbrev Cells := ℕ → BitVec 32

/-- The faults: a bit of a cell is stuck, two data lines are shorted (as an AND or an OR), or an
    address line is stuck. -/
inductive Fault
  | none
  | stuck (cell : ℕ) (bit : Fin 32) (level : Bool)
  | short (i j : Fin 32) (wiredAnd : Bool)
  | line (k : ℕ) (level : Bool)

/-- A word with the bit `i` at `level`. -/
def withBit (w : BitVec 32) (i : Fin 32) (level : Bool) : BitVec 32 :=
  if level then w ||| 1#32 <<< (i : ℕ) else w &&& ~~~(1#32 <<< (i : ℕ))

namespace Fault

/-- The cell behind an address. -/
def cell : Fault → ℕ → ℕ
  | line k level, p => if p.testBit k = level then p else p ^^^ 1 <<< k
  | _, p => p

/-- What is read from a cell that holds `w`. -/
def data : Fault → ℕ → BitVec 32 → BitVec 32
  | stuck c i level, p, w => if p = c then withBit w i level else w
  | short i j wiredAnd, _, w =>
    let level :=
      if wiredAnd then w.getLsbD i && w.getLsbD j else w.getLsbD i || w.getLsbD j
    withBit (withBit w i level) j level
  | _, _, w => w

/-- A store reaches the cell that the fault leads to, and no other one. -/
def write (f : Fault) (p : ℕ) (value : BitVec 32) (cells : Cells) : Cells :=
  Function.update cells (f.cell p) value

/-- A load delivers the cell that the fault leads to, with its data as the fault changes it. -/
def read (f : Fault) (p : ℕ) (cells : Cells) : BitVec 32 := f.data (f.cell p) (cells (f.cell p))

end Fault

/-! ## Model -/

section Model

variable (f : Fault) (start length : ℕ)

/-- The addresses that `while (p < pend)` with `*p++` goes through. -/
def words (p pend : ℕ) : List ℕ := (List.range ((pend - p + 3) / 4)).map fun i => p + 4 * i

/-- The end of the region as the code works it out, in 32 bits. -/
def pend : ℕ := (start + length) % 2 ^ 32

/-- `memory_test_const32`: the errors and the memory. -/
def memoryTestConst32 (value : BitVec 32) (cells : Cells) : BitVec 32 × Cells :=
  let cells := (words start (pend start length)).foldl (fun cells p => f.write p value cells) cells
  -- the second loop goes by the number of words
  let errors := ((List.range (length >>> 2)).map fun i => start + 4 * i).foldl
    (fun errors p => if f.read p cells ≠ value then errors + 1 else errors) 0
  (errors, cells)

/-- `memory_test_ads`: every word is written by a bit of its address, and the words that read
    back wrong are counted. -/
def memoryTestAds (mask : ℕ) (cells : Cells) : BitVec 32 × Cells :=
  let cells := (words start (pend start length)).foldl
    (fun cells p => if p &&& mask ≠ 0 then f.write p 0xffffffff cells else f.write p 0 cells)
    cells
  let errors := (words start (pend start length)).foldl
    (fun errors p =>
      if p &&& mask ≠ 0 then if f.read p cells ≠ 0xffffffff then errors + 1 else errors
      else if f.read p cells ≠ 0 then errors + 1 else errors) 0
  (errors, cells)

/-- `errors +=` a test. -/
def add (test : Cells → BitVec 32 × Cells) (s : BitVec 32 × Cells) : BitVec 32 × Cells :=
  let r := test s.2
  (s.1 + r.1, r.2)

/-- `memory_test_walking1`: `value` goes through all bits and is then 0. -/
def memoryTestWalking1 (cells : Cells) : BitVec 32 × Cells :=
  (List.range 32).foldl (fun s i => add (memoryTestConst32 f start length (1#32 <<< i)) s)
    (0, cells)

/-- The loop over the masks; none if it has not ended behind the highest bit. -/
def adsLoop : ℕ → ℕ → BitVec 32 × Cells → Option (BitVec 32 × Cells)
  | 0, _, _ => none
  | n + 1, mask, s =>
    if length &&& mask ≠ 0 then some s
    else adsLoop n (mask <<< 1) (add (memoryTestAds f start length mask) s)

/-- One round of the loop of `__memory_test` (lines 91–124). -/
def series (s : BitVec 32 × Cells) : Option (BitVec 32 × Cells) :=
  let s := add (memoryTestConst32 f start length 0x55555555) s
  let s := add (memoryTestConst32 f start length 0xaaaaaaaa) s
  let s := add (memoryTestConst32 f start length 0x55aa55aa) s
  let s := add (memoryTestConst32 f start length 0xaa55aa55) s
  let s := add (memoryTestConst32 f start length 0x00ff00ff) s
  let s := add (memoryTestConst32 f start length 0xff00ff00) s
  let s := add (memoryTestWalking1 f start length) s
  adsLoop f start length 32 1 s

/-- `__memory_test`, for `n` series of all its tests over the region. -/
def memoryTest : ℕ → Cells → Option (BitVec 32 × Cells)
  | 0, cells => some (0, cells)
  | n + 1, cells => (memoryTest n cells).bind (series f start length)

end Model

/-! ## Regions and faults -/

/-- A region: its length is a power of two, and its start a multiple of that. -/
structure Region where
  start : ℕ
  log : ℕ
  three_le : 3 ≤ log
  log_lt : log < 32
  dvd : 2 ^ log ∣ start
  le : start + 2 ^ log ≤ 2 ^ 32

/-- The length of a region in bytes, a power of two. -/
def Region.length (r : Region) : ℕ := 2 ^ r.log

/-- A fault of the region that the test is built for. -/
def Fault.Occurs (r : Region) : Fault → Prop
  | none => False
  | stuck c _ _ => r.start ≤ c ∧ c < r.start + r.length ∧ 4 ∣ c
  | short i j _ => i ≠ j
  | line k _ => 2 ≤ k ∧ k < r.log

/-- The first series counts errors on every faulty memory, and no series does on a memory without
    a fault. -/
def Detects (r : Region) : Prop :=
  (∀ f : Fault, f.Occurs r → ∀ cells,
    ∃ s, memoryTest f r.start r.length 1 cells = some s ∧ s.1 ≠ 0) ∧
  ∀ cells n, ∃ s, memoryTest .none r.start r.length n cells = some s ∧ s.1 = 0

/-! ## One pass -/

section Pass

variable (f : Fault) (ws : List ℕ) (g : ℕ → BitVec 32) (cells : Cells)

/-- All of `ws` is written. -/
def fill : Cells := ws.foldl (fun cells p => f.write p (g p) cells) cells

/-- Write and compare: all the words of a region are written first, then the ones that differ
    are counted. -/
def sweep : BitVec 32 × Cells :=
  (BitVec.ofNat 32 (ws.countP fun p => f.read p (fill f ws g cells) ≠ g p), fill f ws g cells)

theorem foldl_errors (b : ℕ → Bool) (e : BitVec 32) :
    ws.foldl (fun errors p => if b p then errors + 1 else errors) e =
      e + BitVec.ofNat 32 (ws.countP b) := by
  induction ws generalizing e with
  | nil => exact (BitVec.add_zero e).symm
  | cons p ws ih =>
    rw [List.foldl_cons, ih, List.countP_cons]
    by_cases hp : b p
    · rw [if_pos hp, if_pos hp, BitVec.ofNat_add, BitVec.add_assoc, BitVec.add_comm 1]
      rfl
    · rw [if_neg hp, if_neg hp, Nat.add_zero]

theorem fill_append (p : ℕ) :
    fill f (ws ++ [p]) g cells =
      Function.update (fill f ws g cells) (f.cell p) (g p) := by
  rw [fill, List.foldl_append]
  rfl

/-- A cell holds what its addresses are given, if they all are given the same. -/
theorem fill_cell {p : ℕ} (hp : p ∈ ws)
    (hsame : ∀ p' ∈ ws, f.cell p' = f.cell p → g p' = g p) :
    fill f ws g cells (f.cell p) = g p := by
  induction ws using List.reverseRecOn with
  | nil => exact absurd hp List.not_mem_nil
  | append_singleton ws q ih =>
    rw [fill_append]
    by_cases hq : f.cell q = f.cell p
    · rw [hq, Function.update_self]
      exact hsame q List.mem_concat_self hq
    · rw [Function.update_of_ne (Ne.symm hq)]
      refine ih ?_ fun p' hp' => hsame p' (List.mem_append_left [q] hp')
      rcases List.mem_append.mp hp with hp | hp
      · exact hp
      · exact absurd (congrArg f.cell (List.mem_singleton.mp hp).symm) hq

end Pass

/-! ## The words of a region -/

section Words

variable (r : Region)

/-- The addresses of the words of a region in their order. -/
def Region.words : List ℕ := (List.range (2 ^ (r.log - 2))).map fun i => r.start + 4 * i

theorem Region.length_eq : r.length = 4 * 2 ^ (r.log - 2) := by
  have hlog := r.three_le
  rw [Region.length, show (4 : ℕ) = 2 ^ 2 from rfl, ← pow_add]
  congr 1
  omega

theorem Region.four_dvd : 4 ∣ r.start := by
  have hlog := r.three_le
  exact (show (4 : ℕ) ∣ 2 ^ r.log from pow_dvd_pow 2 (by omega : 2 ≤ r.log)).trans r.dvd

theorem Region.mem_words {p : ℕ} :
    p ∈ r.words ↔ r.start ≤ p ∧ p < r.start + r.length ∧ 4 ∣ p := by
  have hstart := r.four_dvd
  rw [r.length_eq, Region.words, List.mem_map]
  constructor
  · rintro ⟨i, hi, rfl⟩
    rw [List.mem_range] at hi
    refine ⟨by omega, by omega, by omega⟩
  · rintro ⟨hle, hlt, hdvd⟩
    refine ⟨(p - r.start) / 4, List.mem_range.mpr (by omega), by omega⟩

theorem Region.words_nodup : r.words.Nodup := by
  refine List.Nodup.map ?_ List.nodup_range
  intro i j h
  simp only at h
  omega

theorem Region.words_length : r.words.length = 2 ^ (r.log - 2) := by
  rw [Region.words, List.length_map, List.length_range]

variable (f : Fault) (cells : Cells)

/-- Where the region ends in front of the end of the address space, a test is one pass. -/
theorem words_eq (hend : r.start + r.length < 2 ^ 32) :
    words r.start (pend r.start r.length) = r.words := by
  have hlength := r.length_eq
  have hcount : (r.start + r.length - r.start + 3) / 4 = 2 ^ (r.log - 2) := by
    omega
  rw [words, pend, Nat.mod_eq_of_lt hend, hcount]
  rfl

/-- Where it ends there, no word is written. -/
theorem words_of_top (hend : r.start + r.length = 2 ^ 32) :
    words r.start (pend r.start r.length) = [] := by
  rw [words, pend, hend, Nat.mod_self]
  have hcount : (0 - r.start + 3) / 4 = 0 := by
    omega
  rw [hcount]
  rfl

theorem length_shiftRight : r.length >>> 2 = 2 ^ (r.log - 2) := by
  rw [Nat.shiftRight_eq_div_pow, r.length_eq]
  omega

theorem memoryTestConst32_eq (hend : r.start + r.length < 2 ^ 32) (value : BitVec 32) :
    memoryTestConst32 f r.start r.length value cells = sweep f r.words (fun _ => value) cells := by
  unfold memoryTestConst32 sweep
  simp only
  rw [words_eq r hend, length_shiftRight]
  refine Prod.ext ?_ rfl
  have hcount := foldl_errors r.words
    (fun p => decide (f.read p (fill f r.words (fun _ => value) cells) ≠ value)) 0
  simp only [decide_eq_true_eq, BitVec.ofNat_eq_ofNat, BitVec.zero_add] at hcount
  exact hcount

/-- The pattern of a pass over the addresses. -/
def pattern (mask p : ℕ) : BitVec 32 := if p &&& mask ≠ 0 then 0xffffffff else 0

theorem memoryTestAds_eq (hend : r.start + r.length < 2 ^ 32) (mask : ℕ) :
    memoryTestAds f r.start r.length mask cells = sweep f r.words (pattern mask) cells := by
  have hwrite : (fun (cells : Cells) p =>
      if p &&& mask ≠ 0 then f.write p 0xffffffff cells else f.write p 0 cells) =
      fun cells p => f.write p (pattern mask p) cells := by
    funext cells p
    unfold pattern
    split_ifs
    · rfl
    · rfl
  have hread : (fun (errors : BitVec 32) p =>
      if p &&& mask ≠ 0 then
        if f.read p (fill f r.words (pattern mask) cells) ≠ 0xffffffff then errors + 1
        else errors
      else if f.read p (fill f r.words (pattern mask) cells) ≠ 0 then errors + 1 else errors) =
      fun errors p => if decide (f.read p (fill f r.words (pattern mask) cells) ≠ pattern mask p)
        then errors + 1 else errors := by
    funext errors p
    unfold pattern
    simp only [decide_eq_true_eq]
    split_ifs
    · rfl
    · rfl
    · rfl
    · rfl
  unfold memoryTestAds sweep
  simp only
  rw [words_eq r hend, hwrite]
  refine Prod.ext ?_ rfl
  exact (congrArg (fun step => r.words.foldl step 0) hread).trans
    ((foldl_errors r.words _ 0).trans (BitVec.zero_add _))

end Words

/-! ## The passes of a series -/

/-- A test of a series. -/
inductive Pass
  | const (value : BitVec 32)
  | ads (j : ℕ)

/-- The values that flood the memory. -/
def floods : List (BitVec 32) :=
  [0x55555555, 0xaaaaaaaa, 0x55aa55aa, 0xaa55aa55, 0x00ff00ff, 0xff00ff00]

/-- The values of `memory_test_const32`. -/
def consts : List (BitVec 32) := floods ++ (List.range 32).map fun i => 1#32 <<< i

section Passes

variable (f : Fault) (r : Region)

/-- A test by its name, over the region and with the fault: its errors and the memory. -/
def Pass.run : Pass → Cells → BitVec 32 × Cells
  | const value => memoryTestConst32 f r.start r.length value
  | ads j => memoryTestAds f r.start r.length (1 <<< j)

/-- All the tests of `memory_test`: the constants, then the address lines of the region. -/
def passes : List Pass := consts.map Pass.const ++ (List.range r.log).map Pass.ads

/-- The tests one after the other. -/
def runPasses (ps : List Pass) (s : BitVec 32 × Cells) : BitVec 32 × Cells :=
  ps.foldl (fun s p => add (p.run f r) s) s

theorem runPasses_append (ps ps' : List Pass) (s : BitVec 32 × Cells) :
    runPasses f r (ps ++ ps') s = runPasses f r ps' (runPasses f r ps s) :=
  List.foldl_append

/-- What is added up from 0 and then to `e`. -/
theorem add_runPasses (ps : List Pass) (e : BitVec 32) (s : BitVec 32 × Cells) :
    runPasses f r ps (e + s.1, s.2) =
      (e + (runPasses f r ps s).1, (runPasses f r ps s).2) := by
  induction ps generalizing s with
  | nil => rfl
  | cons p ps ih =>
    have hadd : add (p.run f r) (e + s.1, s.2) =
        (e + (add (p.run f r) s).1, (add (p.run f r) s).2) := by
      exact Prod.ext (BitVec.add_assoc _ _ _) rfl
    show runPasses f r ps (add (p.run f r) (e + s.1, s.2)) = _
    rw [hadd, ih]
    rfl

theorem memoryTestWalking1_eq (s : BitVec 32 × Cells) :
    add (memoryTestWalking1 f r.start r.length) s =
      runPasses f r ((List.range 32).map fun i => Pass.const (1#32 <<< i)) s := by
  have hwalk : memoryTestWalking1 f r.start r.length s.2 =
      runPasses f r ((List.range 32).map fun i => Pass.const (1#32 <<< i)) (0, s.2) := by
    rw [runPasses, List.foldl_map]
    rfl
  have hadd := add_runPasses f r ((List.range 32).map fun i => Pass.const (1#32 <<< i)) s.1
    (0, s.2)
  simp only [BitVec.ofNat_eq_ofNat, BitVec.add_zero] at hadd
  unfold add
  rw [hwalk]
  exact hadd.symm

theorem and_mask (p j : ℕ) : p &&& 1 <<< j = if p.testBit j then 1 <<< j else 0 := by
  apply Nat.eq_of_testBit_eq
  intro i
  rw [Nat.one_shiftLeft, Nat.testBit_and, Nat.testBit_two_pow]
  by_cases hi : j = i
  · subst hi
    by_cases hp : p.testBit j
    · rw [if_pos hp, hp, Nat.testBit_two_pow_self]
      simp
    · rw [if_neg hp, Nat.zero_testBit, eq_false_of_ne_true hp]
      rfl
  · rw [decide_eq_false hi, Bool.and_false]
    split_ifs
    · exact (Nat.testBit_two_pow_of_ne hi).symm
    · exact (Nat.zero_testBit i).symm

theorem and_mask_ne_zero (p j : ℕ) : p &&& 1 <<< j ≠ 0 ↔ p.testBit j := by
  rw [and_mask, Nat.one_shiftLeft]
  by_cases hp : p.testBit j
  · rw [if_pos hp]
    exact iff_of_true (Nat.two_pow_pos j).ne' hp
  · rw [if_neg hp]
    exact iff_of_false (not_not.mpr rfl) hp

/-- The masks up to the highest bit of the length. -/
theorem adsLoop_eq (n : ℕ) :
    ∀ (j : ℕ) (s : BitVec 32 × Cells), j + n = r.log → ∀ fuel, n < fuel →
      adsLoop f r.start r.length fuel (1 <<< j) s =
        some (runPasses f r ((List.range' j n).map Pass.ads) s) := by
  induction n with
  | zero =>
    intro j s hj fuel hfuel
    obtain ⟨fuel, rfl⟩ := Nat.exists_eq_succ_of_ne_zero (show fuel ≠ 0 by omega)
    have hmask : r.length &&& 1 <<< j ≠ 0 := by
      rw [Nat.add_zero] at hj
      rw [and_mask_ne_zero, Region.length, hj, Nat.testBit_two_pow_self]
    rw [adsLoop, if_pos hmask]
    rfl
  | succ n ih =>
    intro j s hj fuel hfuel
    obtain ⟨fuel, rfl⟩ := Nat.exists_eq_succ_of_ne_zero (show fuel ≠ 0 by omega)
    have hmask : ¬ r.length &&& 1 <<< j ≠ 0 := by
      rw [and_mask_ne_zero, Region.length, Nat.testBit_two_pow_of_ne (by omega)]
      exact Bool.false_ne_true
    rw [adsLoop, if_neg hmask, ← Nat.shiftLeft_add, ih (j + 1) _ (by omega) fuel (by omega)]
    rfl

theorem series_eq (s : BitVec 32 × Cells) :
    series f r.start r.length s = some (runPasses f r (passes r) s) := by
  have hlog := r.log_lt
  have hconsts : consts.map Pass.const = floods.map Pass.const ++
      (List.range 32).map fun i => Pass.const (1#32 <<< i) := by
    rw [consts, List.map_append, List.map_map]
    rfl
  have hloop := fun t => adsLoop_eq f r r.log 0 t (Nat.zero_add _) 32 hlog
  unfold series
  simp only
  rw [memoryTestWalking1_eq]
  refine (hloop _).trans (congrArg some ?_)
  rw [passes, runPasses_append, ← List.range_eq_range', hconsts, runPasses_append]
  rfl

/-- Bounds of what each test counts, on memories with a property that it keeps, bound what all
    count. -/
theorem runPasses_between (I : Cells → Prop) (lo hi : Pass → ℕ) {ps : List Pass}
    (h : ∀ p ∈ ps, ∀ cells, I cells → I (p.run f r cells).2 ∧
      ∃ e, lo p ≤ e ∧ e ≤ hi p ∧ (p.run f r cells).1 = BitVec.ofNat 32 e) :
    ∀ s : BitVec 32 × Cells, I s.2 → I (runPasses f r ps s).2 ∧
      ∃ e, (ps.map lo).sum ≤ e ∧ e ≤ (ps.map hi).sum ∧
        (runPasses f r ps s).1 = s.1 + BitVec.ofNat 32 e := by
  induction ps with
  | nil => exact fun s hs => ⟨hs, 0, le_rfl, le_rfl, (BitVec.add_zero s.1).symm⟩
  | cons p ps ih =>
    intro s hs
    obtain ⟨hkeep, e, hlo, hhi, he⟩ := h p List.mem_cons_self s.2 hs
    obtain ⟨hkeep', e', hlo', hhi', he'⟩ :=
      ih (fun p' hp' => h p' (List.mem_cons_of_mem p hp')) (add (p.run f r) s) hkeep
    refine ⟨hkeep', e + e', ?_, ?_, ?_⟩
    · rw [List.map_cons, List.sum_cons]
      omega
    · rw [List.map_cons, List.sum_cons]
      omega
    · show (runPasses f r ps (add (p.run f r) s)).1 = _
      rw [he', BitVec.ofNat_add, ← BitVec.add_assoc, ← he]
      rfl

/-- Between 1 and `2 ^ 32 - 1` errors are seen in the counter. -/
theorem memoryTest_ne_zero (lo hi : Pass → ℕ) (cells : Cells)
    (h : ∀ p ∈ passes r, ∀ cells,
      ∃ e, lo p ≤ e ∧ e ≤ hi p ∧ (p.run f r cells).1 = BitVec.ofNat 32 e)
    (hlo : 1 ≤ ((passes r).map lo).sum) (hhi : ((passes r).map hi).sum < 2 ^ 32) :
    ∃ s, memoryTest f r.start r.length 1 cells = some s ∧ s.1 ≠ 0 := by
  obtain ⟨-, e, hle, hle', he⟩ := runPasses_between f r (fun _ => True) lo hi
    (fun p hp cells _ => ⟨trivial, h p hp cells⟩) (0, cells) trivial
  refine ⟨_, series_eq f r (0, cells), ?_⟩
  intro hzero
  have hnat := congrArg BitVec.toNat (he.symm.trans hzero)
  simp only [BitVec.ofNat_eq_ofNat, BitVec.zero_add, BitVec.toNat_ofNat, Nat.zero_mod] at hnat
  rw [Nat.mod_eq_of_lt (by omega)] at hnat
  omega

end Passes

/-! ## What the tests count -/

section Counts

variable {f : Fault} {r : Region} (hend : r.start + r.length < 2 ^ 32)

/-- The pattern of a test. -/
def Pass.pattern : Pass → ℕ → BitVec 32
  | const value, _ => value
  | ads j, p => MemoryTest.pattern (1 <<< j) p

include hend in
theorem run_eq (p : Pass) (cells : Cells) :
    p.run f r cells = sweep f r.words p.pattern cells := by
  cases p with
  | const value => exact memoryTestConst32_eq r f cells hend value
  | ads j => exact memoryTestAds_eq r f cells hend (1 <<< j)

theorem read_fill (hcell : ∀ p, f.cell p = p) {ws : List ℕ} {p : ℕ} (hp : p ∈ ws)
    (g : ℕ → BitVec 32) (cells : Cells) : f.read p (fill f ws g cells) = f.data p (g p) := by
  have hfill := fill_cell f ws g cells hp fun p' _ h => by
    rw [hcell, hcell] at h
    rw [h]
  rw [Fault.read, hfill, hcell]

include hend in
/-- Without a fault of the addresses a test counts the words whose pattern is not read back. -/
theorem run_errors (hcell : ∀ p, f.cell p = p) (p : Pass) (cells : Cells) :
    (p.run f r cells).1 =
      BitVec.ofNat 32 (r.words.countP fun a => f.data a (p.pattern a) ≠ p.pattern a) := by
  rw [run_eq hend]
  refine congrArg (BitVec.ofNat 32) (List.countP_congr fun a ha => ?_)
  rw [read_fill hcell ha]

theorem getLsbD_withBit (w : BitVec 32) (i : Fin 32) (level : Bool) (k : ℕ) (hk : k < 32) :
    (withBit w i level).getLsbD k = if k = i then level else w.getLsbD k := by
  unfold withBit
  rw [← BitVec.twoPow_eq]
  cases level with
  | true =>
    rw [if_pos rfl, BitVec.getLsbD_or, BitVec.getLsbD_twoPow]
    split_ifs with hki
    · simp [hki]
    · simp [Ne.symm hki]
  | false =>
    rw [if_neg Bool.false_ne_true, BitVec.getLsbD_and, BitVec.getLsbD_not, BitVec.getLsbD_twoPow]
    split_ifs with hki
    · simp [hki]
    · simp [Ne.symm hki, hk]

theorem withBit_eq_iff (w : BitVec 32) (i : Fin 32) (level : Bool) :
    withBit w i level = w ↔ w.getLsbD i = level := by
  constructor
  · intro h
    have hbit := getLsbD_withBit w i level i i.isLt
    rw [h, if_pos rfl] at hbit
    exact hbit
  · intro h
    apply BitVec.eq_of_getLsbD_eq
    intro k hk
    rw [getLsbD_withBit w i level k hk]
    split_ifs with hki
    · rw [hki, h]
    · rfl

/-- Shorted lines are seen where they are given different levels. -/
theorem data_short (i j : Fin 32) (wiredAnd : Bool) (p : ℕ) (w : BitVec 32) :
    (Fault.short i j wiredAnd).data p w = w ↔ w.getLsbD i = w.getLsbD j := by
  have hlevel : ∃ level, (Fault.short i j wiredAnd).data p w =
      withBit (withBit w i level) j level ∧
      (w.getLsbD i = w.getLsbD j → level = w.getLsbD i) := by
    refine ⟨_, rfl, ?_⟩
    intro heq
    rw [← heq, Bool.and_self, Bool.or_self, ite_self]
  obtain ⟨level, hdata, hlevel⟩ := hlevel
  rw [hdata]
  constructor
  · intro h
    have hi := getLsbD_withBit (withBit w i level) j level i i.isLt
    have hj := getLsbD_withBit (withBit w i level) j level j j.isLt
    rw [getLsbD_withBit w i level i i.isLt, if_pos rfl, ite_self, h] at hi
    rw [if_pos rfl, h] at hj
    rw [hi, hj]
  · intro heq
    rw [(withBit_eq_iff w i level).mpr (hlevel heq).symm, withBit_eq_iff, ← heq, hlevel heq]

theorem getLsbD_walking (k : ℕ) (i : Fin 32) :
    (1#32 <<< k).getLsbD i = decide (k = (i : ℕ)) := by
  rw [← BitVec.twoPow_eq, BitVec.getLsbD_twoPow]
  have hi := i.isLt
  by_cases hk : k = (i : ℕ)
  · simp [hk]
  · simp [hk]

/-- Two lines are given different levels by at least one of the values, and by six at most. -/
theorem consts_differ {i j : Fin 32} (hne : i ≠ j) :
    1 ≤ consts.countP (fun v => v.getLsbD i ≠ v.getLsbD j) ∧
      consts.countP (fun v => v.getLsbD i ≠ v.getLsbD j) ≤ 6 := by
  have hflood : ∀ i j : Fin 32, floods.countP (fun v => v.getLsbD i ≠ v.getLsbD j) ≤ 4 := by
    decide +kernel
  have hwalk : ((List.range 32).map fun k => 1#32 <<< k).countP
      (fun v => v.getLsbD i ≠ v.getLsbD j) = 2 := by
    have htable : ∀ i j : Fin 32, i ≠ j → (List.range 32).countP
        (fun k => decide (decide (k = (i : ℕ)) ≠ decide (k = (j : ℕ)))) = 2 := by decide +kernel
    rw [List.countP_map, ← htable i j hne]
    refine List.countP_congr fun k _ => ?_
    show decide ((1#32 <<< k).getLsbD i ≠ (1#32 <<< k).getLsbD j) = true ↔ _
    rw [getLsbD_walking, getLsbD_walking]
  have hsix := hflood i j
  rw [consts, List.countP_append, hwalk]
  omega

theorem exists_const (i : Fin 32) (level : Bool) : ∃ v ∈ consts, v.getLsbD i ≠ level := by
  have hflood : ∀ i : Fin 32,
      (0x55555555 : BitVec 32).getLsbD i ≠ (0xaaaaaaaa : BitVec 32).getLsbD i := by decide
  have hi := hflood i
  by_cases h : (0x55555555 : BitVec 32).getLsbD i ≠ level
  · exact ⟨0x55555555, List.mem_append_left _ List.mem_cons_self, h⟩
  · refine ⟨0xaaaaaaaa, List.mem_append_left _ (List.mem_cons_of_mem _ List.mem_cons_self), ?_⟩
    rw [← not_not.mp h]
    exact hi.symm

theorem sum_ite {α : Type} (l : List α) (b : α → Bool) (n : ℕ) :
    (l.map fun v => if b v then n else 0).sum = l.countP b * n := by
  induction l with
  | nil => exact (Nat.zero_mul n).symm
  | cons v l ih =>
    rw [List.map_cons, List.sum_cons, ih, List.countP_cons]
    split_ifs
    · rw [Nat.add_mul, Nat.one_mul, Nat.add_comm]
    · rw [Nat.zero_add, Nat.add_zero]

/-- `n` errors for each value of `memory_test_const32` with a property. -/
def Pass.perConst (b : BitVec 32 → Bool) (n : ℕ) : Pass → ℕ
  | const v => if b v then n else 0
  | ads _ => 0

/-- `n` errors for one mask. -/
def Pass.perMask (k n : ℕ) : Pass → ℕ
  | const _ => 0
  | ads j => if j = k then n else 0

theorem sum_passes (h : Pass → ℕ) :
    ((passes r).map h).sum = (consts.map fun v => h (.const v)).sum +
      ((List.range r.log).map fun j => h (.ads j)).sum := by
  rw [passes, List.map_append, List.sum_append, List.map_map, List.map_map]
  rfl

theorem sum_perConst (b : BitVec 32 → Bool) (n : ℕ) :
    ((passes r).map (Pass.perConst b n)).sum = consts.countP b * n := by
  rw [sum_passes]
  show (consts.map fun v => if b v then n else 0).sum + ((List.range r.log).map fun _ => 0).sum = _
  rw [sum_ite, List.map_const', List.sum_replicate, smul_zero, Nat.add_zero]

theorem sum_perMask {k : ℕ} (hk : k < r.log) (n : ℕ) :
    ((passes r).map (Pass.perMask k n)).sum = n := by
  have hite := sum_ite (List.range r.log) (fun j => j == k) n
  have hone : (List.range r.log).count k = 1 :=
    List.count_eq_one_of_mem List.nodup_range (List.mem_range.mpr hk)
  simp only [beq_iff_eq] at hite
  rw [sum_passes]
  show (consts.map fun _ => 0).sum +
    ((List.range r.log).map fun j => if j = k then n else 0).sum = n
  rw [hite, List.map_const', List.sum_replicate, smul_zero, Nat.zero_add]
  show (List.range r.log).count k * n = n
  rw [hone, Nat.one_mul]

theorem passes_length : (passes r).length = 38 + r.log := by
  rw [passes, List.length_append, List.length_map, List.length_map, List.length_range]
  rfl

theorem words_length_lt : 6 * r.words.length < 2 ^ 32 := by
  have hlog := r.log_lt
  have hpow : 2 ^ (r.log - 2) ≤ 2 ^ 29 := Nat.pow_le_pow_right (by decide) (by omega)
  rw [r.words_length]
  omega

include hend in
/-- A bit that is stuck. -/
theorem detects_stuck {c : ℕ} {i : Fin 32} {level : Bool} (h : (Fault.stuck c i level).Occurs r)
    (cells : Cells) :
    ∃ s, memoryTest (.stuck c i level) r.start r.length 1 cells = some s ∧ s.1 ≠ 0 := by
  have hmem : c ∈ r.words := r.mem_words.mpr h
  have hseen : ∀ (a : ℕ) (w : BitVec 32),
      (Fault.stuck c i level).data a w ≠ w ↔ a = c ∧ w.getLsbD i ≠ level := by
    intro a w
    by_cases ha : a = c
    · have hdata : (Fault.stuck c i level).data a w = withBit w i level := if_pos ha
      rw [hdata, ne_eq, withBit_eq_iff]
      exact (and_iff_right ha).symm
    · have hdata : (Fault.stuck c i level).data a w = w := if_neg ha
      exact iff_of_false (not_not.mpr hdata) fun hand => ha hand.1
  have hcount : ∀ g : ℕ → BitVec 32,
      r.words.countP (fun a => (Fault.stuck c i level).data a (g a) ≠ g a) ≤ 1 ∧
        ((g c).getLsbD i ≠ level →
          1 ≤ r.words.countP fun a => (Fault.stuck c i level).data a (g a) ≠ g a) := by
    intro g
    constructor
    · refine le_trans ?_ (List.nodup_iff_count_le_one.mp r.words_nodup c)
      refine List.countP_mono_left fun a _ ha => ?_
      rw [decide_eq_true_iff, hseen] at ha
      exact beq_iff_eq.mpr ha.1
    · intro hdiffer
      refine List.countP_pos_iff.mpr ⟨c, hmem, ?_⟩
      rw [decide_eq_true_iff, hseen]
      exact ⟨rfl, hdiffer⟩
  refine memoryTest_ne_zero (.stuck c i level) r 
    (Pass.perConst (fun v => v.getLsbD i ≠ level) 1) (fun _ => 1) cells
    (fun p _ cells => ⟨_, ?_, (hcount p.pattern).1, run_errors hend (fun _ => rfl) p cells⟩) ?_ ?_
  · cases p with
    | const v =>
      show (if decide (v.getLsbD i ≠ level) then 1 else 0) ≤ _
      split_ifs with hv
      · exact (hcount fun _ => v).2 (of_decide_eq_true hv)
      · exact Nat.zero_le _
    | ads j => exact Nat.zero_le _
  · obtain ⟨v, hv, hdiffer⟩ := exists_const i level
    rw [sum_perConst, Nat.mul_one]
    exact List.countP_pos_iff.mpr ⟨v, hv, decide_eq_true hdiffer⟩
  · have hlog := r.log_lt
    rw [List.map_const', List.sum_replicate, passes_length, smul_eq_mul]
    omega

include hend in
/-- Two data lines that are shorted. -/
theorem detects_short {i j : Fin 32} {wiredAnd : Bool} (h : i ≠ j) (cells : Cells) :
    ∃ s, memoryTest (.short i j wiredAnd) r.start r.length 1 cells = some s ∧ s.1 ≠ 0 := by
  have hcount : ∀ p : Pass,
      (r.words.countP fun a => (Fault.short i j wiredAnd).data a (p.pattern a) ≠ p.pattern a) =
        Pass.perConst (fun v => v.getLsbD i ≠ v.getLsbD j) r.words.length p := by
    intro p
    cases p with
    | const v =>
      show _ = if decide (v.getLsbD i ≠ v.getLsbD j) then r.words.length else 0
      split_ifs with hv
      · refine List.countP_eq_length.mpr fun a _ => decide_eq_true ?_
        rw [ne_eq, data_short]
        exact of_decide_eq_true hv
      · refine List.countP_eq_zero.mpr fun a _ hseen => ?_
        rw [decide_eq_true_iff, ne_eq, data_short] at hseen
        exact hv (decide_eq_true hseen)
    | ads k =>
      refine List.countP_eq_zero.mpr fun a _ hseen => ?_
      rw [decide_eq_true_iff, ne_eq, data_short] at hseen
      apply hseen
      show (pattern (1 <<< k) a).getLsbD i = (pattern (1 <<< k) a).getLsbD j
      unfold pattern
      split_ifs
      · show (BitVec.allOnes 32).getLsbD i = (BitVec.allOnes 32).getLsbD j
        rw [BitVec.getLsbD_allOnes, BitVec.getLsbD_allOnes, decide_eq_true i.isLt,
          decide_eq_true j.isLt]
      · exact BitVec.getLsbD_zero.trans BitVec.getLsbD_zero.symm
  obtain ⟨hone, hsix⟩ := consts_differ h
  have hlt := words_length_lt (r := r)
  have hpos : 0 < r.words.length := by
    rw [r.words_length]
    exact Nat.two_pow_pos _
  refine memoryTest_ne_zero (.short i j wiredAnd) r
    (Pass.perConst (fun v => v.getLsbD i ≠ v.getLsbD j) r.words.length)
    (Pass.perConst (fun v => v.getLsbD i ≠ v.getLsbD j) r.words.length) cells
    (fun p _ cells => ⟨_, (hcount p).ge, (hcount p).le, run_errors hend (fun _ => rfl) p cells⟩)
    ?_ ?_
  · rw [sum_perConst]
    exact Nat.mul_pos hone hpos
  · rw [sum_perConst]
    exact (Nat.mul_le_mul_right _ hsix).trans_lt hlt

/-- Without a fault nothing is counted. -/
theorem detects_none (hend : r.start + r.length < 2 ^ 32) (cells : Cells) (n : ℕ) :
    ∃ s, memoryTest .none r.start r.length n cells = some s ∧ s.1 = 0 := by
  induction n with
  | zero => exact ⟨(0, cells), rfl, rfl⟩
  | succ n ih =>
    obtain ⟨s, hrun, hs⟩ := ih
    have hcount : ∀ p : Pass,
        (r.words.countP fun a => Fault.none.data a (p.pattern a) ≠ p.pattern a) = 0 :=
      fun p => List.countP_eq_zero.mpr fun a _ hseen => of_decide_eq_true hseen rfl
    obtain ⟨-, e, -, hle, he⟩ := runPasses_between .none r (fun _ => True)
      (fun _ => 0) (fun _ => 0)
      (fun (p : Pass) (_ : p ∈ passes r) cells _ => ⟨trivial, _, Nat.zero_le _, (hcount p).le,
        run_errors hend (fun _ => rfl) p cells⟩) s trivial
    rw [List.map_const', List.sum_replicate, smul_zero, Nat.le_zero] at hle
    refine ⟨runPasses .none r (passes r) s, ?_, ?_⟩
    · rw [memoryTest, hrun]
      exact series_eq .none r s
    · rw [he, hs, hle]
      rfl

end Counts

/-! ## Address lines -/

section Lines

variable {r : Region} {k : ℕ} {level : Bool}

variable (level) in
theorem testBit_cell {j : ℕ} (hj : j ≠ k) (p : ℕ) :
    ((Fault.line k level).cell p).testBit j = p.testBit j := by
  show (if p.testBit k = level then p else p ^^^ 1 <<< k).testBit j = _
  split_ifs
  · rfl
  · rw [Nat.testBit_xor, Nat.one_shiftLeft, Nat.testBit_two_pow_of_ne (Ne.symm hj),
      Bool.xor_false]

/-- Two addresses have one cell only if they are the same but for the line. -/
theorem eq_or_of_cell_eq {p q : ℕ}
    (h : (Fault.line k level).cell p = (Fault.line k level).cell q) :
    p = q ∨ p = q ^^^ 1 <<< k := by
  have hp : (Fault.line k level).cell p = if p.testBit k = level then p else p ^^^ 1 <<< k := rfl
  have hq : (Fault.line k level).cell q = if q.testBit k = level then q else q ^^^ 1 <<< k := rfl
  rw [hp, hq] at h
  split_ifs at h
  · exact Or.inl h
  · exact Or.inr h
  · right
    rw [← h, Nat.xor_assoc, Nat.xor_self, Nat.xor_zero]
  · left
    have hback := congrArg (· ^^^ 1 <<< k) h
    simp only [Nat.xor_assoc, Nat.xor_self, Nat.xor_zero] at hback
    exact hback

/-- All other tests see nothing. -/
theorem run_line_zero (hend : r.start + r.length < 2 ^ 32) {p : Pass} (hp : p ≠ .ads k)
    (cells : Cells) : (p.run (.line k level) r cells).1 = BitVec.ofNat 32 0 := by
  rw [run_eq hend]
  refine congrArg (BitVec.ofNat 32) (List.countP_eq_zero.mpr fun a ha hseen => ?_)
  rw [decide_eq_true_iff] at hseen
  refine hseen (fill_cell _ _ _ _ ha fun a' _ hcell => ?_)
  cases p with
  | const value => rfl
  | ads j =>
    have hj : j ≠ k := fun h => hp (congrArg Pass.ads h)
    have hbit : a'.testBit j = a.testBit j := by
      rw [← testBit_cell level hj a', hcell, testBit_cell level hj]
    show pattern (1 <<< j) a' = pattern (1 <<< j) a
    unfold pattern
    simp only [and_mask_ne_zero, hbit]

/-- The first address, and the one that differs from it in the line. -/
theorem start_xor (hk : k < r.log) : r.start ^^^ 1 <<< k = r.start + 2 ^ k := by
  obtain ⟨a, ha⟩ := r.dvd
  have hpow : 2 ^ k < 2 ^ r.log := Nat.pow_lt_pow_right (by decide) hk
  apply Nat.eq_of_testBit_eq
  intro j
  rw [Nat.one_shiftLeft, Nat.testBit_xor, ha, Nat.testBit_two_pow_mul_add a hpow,
    Nat.testBit_two_pow_mul]
  split_ifs with hj
  · rw [decide_eq_false (by omega), Bool.false_and, Bool.false_xor]
  · rw [decide_eq_true (by omega), Bool.true_and, Nat.testBit_two_pow_of_ne (by omega),
      Bool.xor_false]

theorem start_testBit (hk : k < r.log) : r.start.testBit k = false := by
  obtain ⟨a, ha⟩ := r.dvd
  rw [ha, Nat.testBit_two_pow_mul, decide_eq_false (by omega), Bool.false_and]

/-- Behind the last address of a cell nothing is written there. -/
theorem fill_last {f : Fault} {g : ℕ → BitVec 32} {cells : Cells} {p : ℕ} (ws : List ℕ)
    {ws' : List ℕ} (h : ∀ q ∈ ws', f.cell q ≠ f.cell p) :
    fill f (ws ++ p :: ws') g cells (f.cell p) = g p := by
  induction ws' using List.reverseRecOn with
  | nil => rw [fill_append, Function.update_self]
  | append_singleton ws' q ih =>
    rw [← List.cons_append, ← List.append_assoc, fill_append,
      Function.update_of_ne (h q List.mem_concat_self).symm]
    exact ih fun q' hq' => h q' (List.mem_append_left [q] hq')

theorem Region.words_pairwise : r.words.Pairwise (· < ·) := by
  rw [Region.words, List.pairwise_map]
  exact List.pairwise_lt_range.imp fun h => by omega

variable (level) in
/-- The test of the line sees the first word. -/
theorem run_line (hend : r.start + r.length < 2 ^ 32) (hk : k < r.log) (h2 : 2 ≤ k)
    (cells : Cells) :
    ∃ e, 1 ≤ e ∧ e ≤ r.words.length ∧
      ((Pass.ads k).run (.line k level) r cells).1 = BitVec.ofNat 32 e := by
  have hdvd : (4 : ℕ) ∣ 2 ^ k := pow_dvd_pow 2 h2
  have hpow : 2 ^ k < r.length := Nat.pow_lt_pow_right (by decide) hk
  have hpos := Nat.two_pow_pos k
  have hfour := r.four_dvd
  have hxor := start_xor hk
  have hset : (r.start + 2 ^ k).testBit k = true := by
    rw [← hxor, Nat.testBit_xor, start_testBit hk, Nat.one_shiftLeft, Nat.testBit_two_pow_self]
    rfl
  have hstart : r.start ∈ r.words := r.mem_words.mpr ⟨le_rfl, by omega, hfour⟩
  have hother : r.start + 2 ^ k ∈ r.words :=
    r.mem_words.mpr ⟨by omega, by omega, Nat.dvd_add hfour hdvd⟩
  have hcell : (Fault.line k level).cell r.start = (Fault.line k level).cell (r.start + 2 ^ k) := by
    show (if r.start.testBit k = level then r.start else r.start ^^^ 1 <<< k) =
      if (r.start + 2 ^ k).testBit k = level then r.start + 2 ^ k else (r.start + 2 ^ k) ^^^ 1 <<< k
    rw [start_testBit hk, hset, hxor, ← hxor, Nat.xor_assoc, Nat.xor_self, Nat.xor_zero]
    cases level with
    | false => rfl
    | true => rfl
  obtain ⟨ws, ws', hsplit⟩ := List.append_of_mem hother
  have hlast : ∀ q ∈ ws', (Fault.line k level).cell q ≠
      (Fault.line k level).cell (r.start + 2 ^ k) := by
    intro q hq hsame
    have hlt : r.start + 2 ^ k < q := by
      have hpair := r.words_pairwise
      rw [hsplit, List.pairwise_append, List.pairwise_cons] at hpair
      exact hpair.2.1.1 q hq
    rcases eq_or_of_cell_eq hsame with heq | heq
    · omega
    · rw [← hxor, Nat.xor_assoc, Nat.xor_self, Nat.xor_zero] at heq
      omega
  refine ⟨_, List.countP_pos_iff.mpr ⟨r.start, hstart, ?_⟩, List.countP_le_length,
    congrArg Prod.fst (run_eq hend (.ads k) cells)⟩
  rw [decide_eq_true_iff]
  show fill _ r.words _ cells ((Fault.line k level).cell r.start) ≠ _
  rw [hcell, hsplit, fill_last ws hlast]
  show pattern (1 <<< k) (r.start + 2 ^ k) ≠ pattern (1 <<< k) r.start
  unfold pattern
  rw [if_pos ((and_mask_ne_zero _ k).mpr hset), if_neg]
  · decide
  · rw [and_mask_ne_zero, start_testBit hk]
    exact Bool.false_ne_true

/-- An address line that is stuck. -/
theorem detects_line (hend : r.start + r.length < 2 ^ 32) (hk : k < r.log) (h2 : 2 ≤ k)
    (cells : Cells) :
    ∃ s, memoryTest (.line k level) r.start r.length 1 cells = some s ∧ s.1 ≠ 0 := by
  refine memoryTest_ne_zero (.line k level) r (Pass.perMask k 1)
    (Pass.perMask k r.words.length) cells ?_ (sum_perMask hk 1).ge ?_
  · intro p _ cells
    by_cases hp : p = .ads k
    · subst hp
      obtain ⟨e, hlo, hhi, he⟩ := run_line level hend hk h2 cells
      refine ⟨e, ?_, ?_, he⟩
      · show (if k = k then 1 else 0) ≤ e
        rwa [if_pos rfl]
      · show e ≤ if k = k then r.words.length else 0
        rwa [if_pos rfl]
    · refine ⟨0, ?_, Nat.zero_le _, run_line_zero hend hp cells⟩
      cases p with
      | const v => exact le_rfl
      | ads j => exact (if_neg fun h => hp (congrArg Pass.ads h)).le
  · rw [sum_perMask hk]
    have hlt := words_length_lt (r := r)
    omega

end Lines

/-! ## Regions -/

section Regions

variable (r : Region)

/-- At the end of the address space nothing is written, and every value but 0 is missed where the
    memory is zero. -/
theorem run_top (hend : r.start + r.length = 2 ^ 32) {p : Pass} (hp : p ≠ .const 0) :
    p.run .none r (fun _ => 0) =
      (BitVec.ofNat 32 (Pass.perConst (fun _ => true) r.words.length p), fun _ => 0) := by
  cases p with
  | const v =>
    have hv : (0 : BitVec 32) ≠ v := fun h => hp (congrArg Pass.const h.symm)
    show memoryTestConst32 .none r.start r.length v (fun _ => 0) = _
    unfold memoryTestConst32
    simp only
    rw [words_of_top r hend, length_shiftRight]
    refine Prod.ext ?_ rfl
    have hcount := foldl_errors r.words
      (fun a => decide (Fault.none.read a (fun _ => 0) ≠ v)) 0
    simp only [decide_eq_true_eq, BitVec.ofNat_eq_ofNat, BitVec.zero_add] at hcount
    refine hcount.trans (congrArg (BitVec.ofNat 32) ?_)
    exact List.countP_eq_length.mpr fun a _ => decide_eq_true hv
  | ads j =>
    show memoryTestAds .none r.start r.length (1 <<< j) (fun _ => 0) = _
    unfold memoryTestAds
    simp only
    rw [words_of_top r hend]
    rfl

theorem const_zero_notMem : Pass.const 0 ∉ passes r := by
  intro h
  rcases List.mem_append.mp h with h | h
  · obtain ⟨v, hv, hzero⟩ := List.mem_map.mp h
    cases hzero
    revert hv
    decide
  · obtain ⟨j, -, hj⟩ := List.mem_map.mp h
    cases hj

theorem not_detects_of_top (hend : r.start + r.length = 2 ^ 32) : ¬ Detects r := by
  intro h
  obtain ⟨s, hrun, hs⟩ := h.2 (fun _ => 0) 1
  obtain ⟨-, e, hlo, hhi, he⟩ := runPasses_between .none r (fun cells => cells = fun _ => 0)
    (Pass.perConst (fun _ => true) r.words.length) (Pass.perConst (fun _ => true) r.words.length)
    (fun (p : Pass) (hp : p ∈ passes r) cells hcells => by
      rw [hcells, run_top r hend fun h => const_zero_notMem r (h ▸ hp)]
      exact ⟨rfl, _, le_rfl, le_rfl, rfl⟩) (0, fun _ => 0) rfl
  rw [sum_perConst, List.countP_true] at hlo hhi
  have heq : s = runPasses .none r (passes r) (0, fun _ => 0) :=
    (Option.some.inj ((series_eq .none r (0, fun _ => 0)).symm.trans hrun)).symm
  rw [heq, he] at hs
  have hnat := congrArg BitVec.toNat hs
  simp only [BitVec.ofNat_eq_ofNat, BitVec.zero_add, BitVec.toNat_ofNat, Nat.zero_mod] at hnat
  have hcount : e = 19 * 2 ^ (r.log - 2 + 1) := by
    rw [le_antisymm hhi hlo, r.words_length, pow_succ]
    show 38 * 2 ^ (r.log - 2) = _
    ring
  have hdvd : 2 ^ 32 ∣ 2 ^ (r.log - 2 + 1) := by
    rw [hcount] at hnat
    exact (show Nat.Coprime (2 ^ 32) 19 by decide).dvd_of_dvd_mul_left
      (Nat.dvd_of_mod_eq_zero hnat)
  have hle := (Nat.pow_dvd_pow_iff_le_right (show 1 < 2 by decide)).mp hdvd
  have hlog := r.log_lt
  omega

/-- The test finds what it is built for, and nothing else, on exactly the regions in front of the
    end of the address space. -/
theorem detects_iff : Detects r ↔ r.start + r.length < 2 ^ 32 := by
  constructor
  · intro h
    by_contra hend
    exact not_detects_of_top r (le_antisymm r.le (not_lt.mp hend)) h
  · intro hend
    refine ⟨fun f hf cells => ?_, fun cells n => detects_none hend cells n⟩
    cases f with
    | none => exact hf.elim
    | stuck c i level => exact detects_stuck hend hf cells
    | short i j wiredAnd => exact detects_short hend hf cells
    | line k level => exact detects_line hend hf.2 hf.1 cells

/-- The last eight bytes of the address space. -/
theorem not_detects_last : ¬ ∀ r : Region, Detects r := by
  intro h
  exact not_detects_of_top
    ⟨0xfffffff8, 3, le_rfl, by decide, by decide, by decide⟩ rfl (h _)

end Regions

end SmartQ.Qi.MemoryTest
