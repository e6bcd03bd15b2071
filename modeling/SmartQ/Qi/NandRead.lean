import Mathlib.Tactic
import SmartQ.Lib.CInt
import SmartQ.Lib.Disk

/-!
# Reading the NAND flash

Model of `nand_read_ll` in `qi/src/cpu/s3c2442/nand_read.c` (pages of 2048 bytes) and in
`qi/src/cpu/s3c2410/nand_read.c` (pages of 512 bytes). A chip is the byte at each column of each
page, spare area included; it takes three address bytes for the page. A page whose mark, or the
mark of the page behind it, is set is skipped, and `blocks512` is increased where it should stay:
the pages are skipped and read on beyond the buffer.

* `Chip.exists_last`: the loop ends after every start.
* `Chip.delivers_last_iff`: the round in which it ends decides what has been stored.
* `nandReadLl_iff`: exactly when the requested blocks, and nothing else, are stored.
-/

namespace SmartQ.Qi.Nand

open SmartQ.Lib

/-- A flash chip: the byte at a column of a page. -/
abbrev Flash := ℕ → Disk

/-! ## Model -/

/-- A way to read a chip: `NAND_PAGE_SIZE / 512`, `is_bad_block` and `nand_read_page_ll`, which
    gives the number of blocks and their bytes. -/
structure Chip where
  perPage : ℕ
  isBad : ℕ → Bool
  readPage : ℕ → ℤ → ℤ × List Byte

/-- The state of the loop of `nand_read_ll`: `start_block512`, `blocks512`, `bad_count`, `buf`,
    the stores so far, and how often the keys have been asked for. -/
structure Loop where
  start : ℕ
  blocks : ℤ
  bad : ℕ
  buf : ℕ
  stores : List Write
  polls : ℕ

/-- The loop of `nand_read_ll`, for at most a number of rounds: the result and the stores. `key`
    says whether `UI_ACTION_SKIPKERNEL` is pressed. -/
def Chip.nandLoop (c : Chip) (key : ℕ → Bool) : ℕ → Loop → Option (ℤ × List Write)
  | 0, _ => none
  | k + 1, s =>
    if s.blocks > 0 then
      if c.isBad s.start || c.isBad (add32 s.start c.perPage) then
        if s.bad = 4 then some (-1, s.stores)
        else c.nandLoop key k
          { s with
            start := add32 s.start c.perPage
            blocks := int32 (s.blocks + c.perPage)
            bad := s.bad + 1 }
      else
        let (j, bytes) := c.readPage s.start s.blocks
        let stores := s.stores ++ [(s.buf, bytes)]
        if key s.polls then some (-3, stores)
        else c.nandLoop key k
          { start := add32 s.start j.toNat
            blocks := int32 (s.blocks - j)
            bad := s.bad
            buf := s.buf + (j * 2 ^ 9).toNat
            stores := stores
            polls := s.polls + 1 }
    else some (0, s.stores)

/-- `nand_read_ll`, in at most `k` rounds of its loop. -/
def Chip.nandReadLl (c : Chip) (key : ℕ → Bool) (buf start : ℕ) (blocks512 : ℤ) (k : ℕ) :
    Option (ℤ × List Write) :=
  c.nandLoop key k ⟨start, blocks512, 0, buf, [], 0⟩

/-- The page of the three address bytes that `NFADDR` gets. -/
def row (page : ℕ) : ℕ := page % 2 ^ 24

namespace S3c2442

/-- `s3c2442_nand_is_bad_block`: the mark is the first spare byte. -/
def isBadBlock (nand : Flash) (block_index : ℕ) : Bool := nand (row (block_index >>> 2)) 2048 ≠ 0xff

/-- `nand_read_page_ll`: the chip's half-words, up to the end of the page. -/
def nandReadPageLl (nand : Flash) (block512 : ℕ) (blocks512 : ℤ) : ℤ × List Byte :=
  let blocks_possible : ℤ := (3 - (block512 &&& 3) : ℕ) + 1
  let blocks512 := if blocks512 > blocks_possible then blocks_possible else blocks512
  let block_amount := (2048 / 4 / 2) * toU32 blocks512 % 2 ^ 32
  (blocks512, load (nand (row (block512 >>> 2))) ((block512 &&& 3) <<< 1 <<< 8) (2 * block_amount))

/-- The S3C2442: pages of four blocks, and reads of up to the end of a page. -/
def chip (nand : Flash) : Chip := ⟨4, isBadBlock nand, nandReadPageLl nand⟩

/-- `this_board->get_ui_keys() & UI_ACTION_SKIPKERNEL`, where the board has it. -/
def skipKey (get_ui_keys : Option (ℕ → ℕ)) (k : ℕ) : Bool :=
  match get_ui_keys with
  | none => false
  | some keys => keys k &&& 2 ≠ 0

/-- `nand_read_ll` (lines 117–157): good pages are read one after the other, and the skip key
    ends it. -/
def nandReadLl (nand : Flash) (get_ui_keys : Option (ℕ → ℕ)) : ℕ → ℕ → ℤ → ℕ →
    Option (ℤ × List Write) :=
  (chip nand).nandReadLl (skipKey get_ui_keys)

end S3c2442

namespace S3c2410

/-- `is_bad_block`: the mark is byte 5 of the spare area. -/
def isBadBlock (nand : Flash) (block_index : ℕ) : Bool := nand (row block_index) (512 + 5) ≠ 0xff

/-- `nand_read_page_ll`: one page of 512 bytes, which cannot fail. -/
def nandReadPageLl (nand : Flash) (block512 : ℕ) : ℤ × List Byte :=
  (1, load (nand (row block512)) 0 512)

/-- The S3C2410: pages of one block, read one at a time. -/
def chip (nand : Flash) : Chip := ⟨1, isBadBlock nand, fun b _ => nandReadPageLl nand b⟩

/-- `nand_read_ll` (lines 102–135): the keys are not looked at. -/
def nandReadLl (nand : Flash) : ℕ → ℕ → ℤ → ℕ → Option (ℤ × List Write) :=
  (chip nand).nandReadLl fun _ => false

end S3c2410

/-! ## The walk over the pages -/

/-- Block `b` of a chip with `p` blocks in a page. -/
def block (p : ℕ) (nand : Flash) (b : ℕ) : List Byte :=
  load (nand (row (b / p))) (b % p * 512) 512

/-- Where a walk over the pages stands: the block, the blocks read, the pages skipped, and the
    pages read. -/
structure Stop where
  pos : ℕ
  read : List ℕ
  skipped : ℕ
  pages : ℕ

namespace Chip

section Walk

variable (c : Chip) (start : ℕ)

/-- The page at `b`, or the one behind it, has its mark set. -/
def Marked (b : ℕ) : Prop := c.isBad b = true ∨ c.isBad (b + c.perPage) = true

instance (b : ℕ) : Decidable (c.Marked b) := inferInstanceAs (Decidable (_ ∨ _))

/-- The blocks from `b` to the end of its page. -/
def rest (b : ℕ) : ℕ := c.perPage - b % c.perPage

/-- The walk that skips the marked pages and reads the other ones to their end. -/
def stop : ℕ → Stop
  | 0 => ⟨start, [], 0, 0⟩
  | i + 1 =>
    let s := stop i
    if c.Marked s.pos then { s with pos := s.pos + c.perPage, skipped := s.skipped + 1 }
    else
      { s with
        pos := s.pos + c.rest s.pos
        read := s.read ++ List.range' s.pos (c.rest s.pos)
        pages := s.pages + 1 }

/-- The number of blocks that the walk has read before its stop `i`. -/
def got (i : ℕ) : ℕ := (c.stop start i).read.length

/-- The walk is broken off at stop `i`: at the fifth page to skip, or by the key. -/
def Halts (key : ℕ → Bool) (i : ℕ) : Prop :=
  if c.Marked (c.stop start i).pos then (c.stop start i).skipped = 4
  else key (c.stop start i).pages = true

instance (key : ℕ → Bool) (i : ℕ) : Decidable (c.Halts start key i) :=
  inferInstanceAs (Decidable (ite _ _ _))

/-- No page is skipped before `n` blocks are read or the walk is broken off. -/
def Clean (key : ℕ → Bool) (n : ℕ) : Prop :=
  ∀ i, (∀ j < i, ¬ c.Halts start key j) → c.got start i < n → ¬ c.Marked (c.stop start i).pos

/-- The walk is broken off when at most `n` blocks have been read, and the count that is
    increased at each skip has stayed below `2 ^ 31`. -/
def Broken (key : ℕ → Bool) (n : ℕ) : Prop :=
  ∃ i, (∀ j < i, ¬ c.Halts start key j) ∧ c.Halts start key i ∧ c.got start (i + 1) ≤ n ∧
    ∀ j ≤ i, n + c.perPage * (c.stop start j).skipped < 2 ^ 31 + c.got start j

end Walk

/-- What is asked of a read of `n` blocks from block `start` on to `buf`: nothing is stored
    outside the buffer, and if the result is not negative the buffer holds the first `n` blocks
    of the pages that are not skipped, and all else is as before. -/
structure Delivers (c : Chip) (content : ℕ → List Byte) (buf start n : ℕ) (r : ℤ × List Write) :
    Prop where
  inside : ∀ w ∈ r.2, buf ≤ w.1 ∧ w.1 + w.2.length ≤ buf + 512 * n
  whole : r.1 < 0 ∨ ∃ i, n ≤ c.got start i ∧
    ∀ d, applyWrites r.2 d = store d buf (((c.stop start i).read.take n).flatMap content)

/-! ## The loop follows the walk -/

/-- What the two chips' functions have in common: a page is read up to its end or up to the
    blocks asked for, and block numbers count modulo `2 ^ 32`. -/
structure Regular (c : Chip) (content : ℕ → List Byte) : Prop where
  perPage_pos : 0 < c.perPage
  perPage_le : c.perPage ≤ 4
  isBad_mod : ∀ b, c.isBad (b % 2 ^ 32) = c.isBad b
  length_content : ∀ b, (content b).length = 512
  readPage_eq : ∀ (b : ℕ) (r : ℤ), 0 < r → r < 2 ^ 31 → c.readPage (b % 2 ^ 32) r =
    (min r (c.rest b), (List.range' b (min r.toNat (c.rest b))).flatMap content)

section Run

variable (c : Chip) (content : ℕ → List Byte) (key : ℕ → Bool) (buf start n : ℕ)

/-- The stores of the pages that the walk has read before its stop `i`. -/
def pageStores : ℕ → List Write
  | 0 => []
  | i + 1 =>
    let s := c.stop start i
    if c.Marked s.pos then pageStores i
    else pageStores i ++ [(buf + 512 * s.read.length,
      (List.range' s.pos (c.rest s.pos)).flatMap content)]

/-- The loop's state when it has come to stop `i` of the walk. -/
def loopAt (i : ℕ) : Loop where
  start := (c.stop start i).pos % 2 ^ 32
  blocks := n + c.perPage * (c.stop start i).skipped - c.got start i
  bad := (c.stop start i).skipped
  buf := buf + 512 * c.got start i
  stores := c.pageStores content buf start i
  polls := (c.stop start i).pages

/-- The count of the loop at stop `i` is positive and did not overflow. -/
def Counts (i : ℕ) : Prop :=
  c.got start i < n + c.perPage * (c.stop start i).skipped ∧
    n + c.perPage * (c.stop start i).skipped < 2 ^ 31 + c.got start i

/-- The loop comes to stop `i` of the walk. -/
def Goes (i : ℕ) : Prop := ∀ j < i, ¬ c.Halts start key j ∧ c.Counts start n (j + 1)

end Run

section Follow

variable {c : Chip} {content : ℕ → List Byte} {key : ℕ → Bool} {buf start n : ℕ} {i : ℕ}

theorem rest_pos (hc : Regular c content) (b : ℕ) : 0 < c.rest b := by
  have := Nat.mod_lt b hc.perPage_pos
  unfold rest
  omega

theorem stop_of_marked (h : c.Marked (c.stop start i).pos) :
    c.stop start (i + 1) = { c.stop start i with
      pos := (c.stop start i).pos + c.perPage
      skipped := (c.stop start i).skipped + 1 } := if_pos h

theorem stop_of_not_marked (h : ¬ c.Marked (c.stop start i).pos) :
    c.stop start (i + 1) = { c.stop start i with
      pos := (c.stop start i).pos + c.rest (c.stop start i).pos
      read := (c.stop start i).read ++
        List.range' (c.stop start i).pos (c.rest (c.stop start i).pos)
      pages := (c.stop start i).pages + 1 } := if_neg h

theorem got_of_marked (h : c.Marked (c.stop start i).pos) :
    c.got start (i + 1) = c.got start i := by
  unfold got
  rw [stop_of_marked h]

theorem got_of_not_marked (h : ¬ c.Marked (c.stop start i).pos) :
    c.got start (i + 1) = c.got start i + c.rest (c.stop start i).pos := by
  unfold got
  rw [stop_of_not_marked h]
  simp

theorem got_mono {j : ℕ} (h : i ≤ j) : c.got start i ≤ c.got start j := by
  apply monotone_nat_of_le_succ _ h
  intro k
  by_cases hk : c.Marked (c.stop start k).pos
  · rw [got_of_marked hk]
  · rw [got_of_not_marked hk]
    omega

theorem skipped_mono {j : ℕ} (h : i ≤ j) :
    (c.stop start i).skipped ≤ (c.stop start j).skipped := by
  apply monotone_nat_of_le_succ (f := fun k => (c.stop start k).skipped) _ h
  intro k
  by_cases hk : c.Marked (c.stop start k).pos
  · simp [stop_of_marked hk]
  · simp [stop_of_not_marked hk]

theorem halts_of_marked (h : c.Marked (c.stop start i).pos) :
    c.Halts start key i ↔ (c.stop start i).skipped = 4 := by
  rw [Halts, if_pos h]

theorem halts_of_not_marked (h : ¬ c.Marked (c.stop start i).pos) :
    c.Halts start key i ↔ key (c.stop start i).pages = true := by
  rw [Halts, if_neg h]

/-- Every stop is a page skipped or at least a block read. -/
theorem le_got_add_skipped (hc : Regular c content) :
    i ≤ c.got start i + (c.stop start i).skipped := by
  induction i with
  | zero => exact Nat.zero_le _
  | succ i ih =>
    by_cases h : c.Marked (c.stop start i).pos
    · rw [got_of_marked h, stop_of_marked h]
      dsimp only
      omega
    · have := rest_pos hc (c.stop start i).pos
      rw [got_of_not_marked h, stop_of_not_marked h]
      dsimp only
      omega

/-- Before the walk is broken off at most four pages are skipped. -/
theorem skipped_le (h : ∀ j < i, ¬ c.Halts start key j) : (c.stop start i).skipped ≤ 4 := by
  induction i with
  | zero => exact Nat.zero_le _
  | succ i ih =>
    have ih := ih fun j hj => h j (by omega)
    by_cases hm : c.Marked (c.stop start i).pos
    · have := mt (halts_of_marked hm).mpr (h i (by omega))
      rw [stop_of_marked hm]
      dsimp only
      omega
    · rw [stop_of_not_marked hm]
      exact ih

/-- Up to the first marked page nothing is skipped. -/
theorem exists_marked (h : 0 < (c.stop start i).skipped) :
    ∃ j < i, c.Marked (c.stop start j).pos ∧ (c.stop start j).skipped = 0 := by
  induction i with
  | zero => exact absurd h (lt_irrefl 0)
  | succ i ih =>
    by_cases h0 : (c.stop start i).skipped = 0
    · refine ⟨i, by omega, ?_, h0⟩
      by_contra hm
      rw [stop_of_not_marked hm] at h
      exact absurd h0 h.ne'
    · obtain ⟨j, hj, hm, hs⟩ := ih (by omega)
      exact ⟨j, by omega, hm, hs⟩

theorem length_flatMap (hc : Regular c content) (bs : List ℕ) :
    (bs.flatMap content).length = 512 * bs.length := by
  induction bs with
  | nil => rfl
  | cons b bs ih =>
    rw [List.flatMap_cons, List.length_append, hc.length_content, ih, List.length_cons]
    omega

/-- The pages are laid one behind the other. -/
theorem applyWrites_pageStores (hc : Regular c content) (d : Disk) :
    applyWrites (c.pageStores content buf start i) d =
      store d buf ((c.stop start i).read.flatMap content) := by
  induction i with
  | zero => exact (store_nil d buf).symm
  | succ i ih =>
    by_cases h : c.Marked (c.stop start i).pos
    · rw [stop_of_marked h, pageStores, if_pos h]
      exact ih
    · rw [stop_of_not_marked h, pageStores, if_neg h, applyWrites_append, ih,
        List.flatMap_append, ← store_append, length_flatMap hc]
      rfl

theorem pageStores_inside (hc : Regular c content) :
    ∀ w ∈ c.pageStores content buf start i,
      buf ≤ w.1 ∧ w.1 + w.2.length ≤ buf + 512 * c.got start i := by
  induction i with
  | zero => intro w hw; exact absurd hw (List.not_mem_nil)
  | succ i ih =>
    intro w hw
    by_cases h : c.Marked (c.stop start i).pos
    · rw [pageStores, if_pos h] at hw
      rw [got_of_marked h]
      exact ih w hw
    · rw [pageStores, if_neg h] at hw
      rw [got_of_not_marked h]
      rcases List.mem_append.mp hw with hw | hw
      · have := ih w hw
        omega
      · obtain rfl := List.mem_singleton.mp hw
        rw [length_flatMap hc, List.length_range']
        unfold got
        dsimp only
        omega

theorem isBad_or (hc : Regular c content) (b : ℕ) :
    (c.isBad (b % 2 ^ 32) || c.isBad (add32 (b % 2 ^ 32) c.perPage)) = true ↔ c.Marked b := by
  have h : add32 (b % 2 ^ 32) c.perPage = (b + c.perPage) % 2 ^ 32 := by
    unfold add32
    omega
  rw [Bool.or_eq_true, h, hc.isBad_mod, hc.isBad_mod]
  rfl

theorem blocks_pos (h : c.Counts start n i) :
    (c.loopAt content buf start n i).blocks > 0 := by
  have := h.1
  simp only [loopAt]
  omega

/-- A round at a marked page. -/
theorem loop_of_marked (hc : Regular c content) (hcount : c.Counts start n i)
    (h : c.Marked (c.stop start i).pos) (k : ℕ) :
    c.nandLoop key (k + 1) (c.loopAt content buf start n i) =
      if (c.stop start i).skipped = 4 then some (-1, c.pageStores content buf start i)
      else c.nandLoop key k { c.loopAt content buf start n (i + 1) with
        blocks := int32 (c.loopAt content buf start n (i + 1)).blocks } := by
  rw [nandLoop, if_pos (blocks_pos hcount)]
  refine (if_pos ((isBad_or hc _).mpr h)).trans (if_congr Iff.rfl rfl ?_)
  have hpos : add32 ((c.stop start i).pos % 2 ^ 32) c.perPage =
      ((c.stop start i).pos + c.perPage) % 2 ^ 32 := by
    unfold add32
    omega
  have hblocks : ((n : ℤ) + c.perPage * (c.stop start i).skipped - c.got start i) + c.perPage =
      n + c.perPage * ((c.stop start i).skipped + 1 : ℕ) - c.got start i := by
    push_cast
    ring
  simp only [loopAt, got_of_marked h, stop_of_marked h, hpos, hblocks]
  rw [pageStores, if_pos h]

/-- The blocks that the loop reads at stop `i`. -/
def amount (c : Chip) (start n i : ℕ) : ℕ :=
  min (n + c.perPage * (c.stop start i).skipped - c.got start i) (c.rest (c.stop start i).pos)

/-- The stores when the loop has read at stop `i`. -/
def readStores (c : Chip) (content : ℕ → List Byte) (buf start n i : ℕ) : List Write :=
  c.pageStores content buf start i ++ [(buf + 512 * c.got start i,
    (List.range' (c.stop start i).pos (c.amount start n i)).flatMap content)]

/-- A round at a page that is not marked. -/
theorem loop_of_not_marked (hc : Regular c content) (hcount : c.Counts start n i)
    (h : ¬ c.Marked (c.stop start i).pos) (k : ℕ) :
    c.nandLoop key (k + 1) (c.loopAt content buf start n i) =
      if key (c.stop start i).pages then some (-3, c.readStores content buf start n i)
      else c.nandLoop key k
        { start := ((c.stop start i).pos + c.amount start n i) % 2 ^ 32
          blocks := (c.loopAt content buf start n i).blocks - c.amount start n i
          bad := (c.stop start i).skipped
          buf := buf + 512 * (c.got start i + c.amount start n i)
          stores := c.readStores content buf start n i
          polls := (c.stop start i).pages + 1 } := by
  obtain ⟨h0, h1⟩ := hcount
  have hr : (c.loopAt content buf start n i).blocks =
      ((n + c.perPage * (c.stop start i).skipped - c.got start i : ℕ) : ℤ) := by
    simp only [loopAt]
    omega
  have hread : c.readPage ((c.stop start i).pos % 2 ^ 32)
      (c.loopAt content buf start n i).blocks = ((c.amount start n i : ℤ),
        (List.range' (c.stop start i).pos (c.amount start n i)).flatMap content) := by
    rw [hc.readPage_eq _ _ (by omega) (by omega), hr, Int.toNat_natCast, amount]
    simp
  have hj : (c.amount start n i : ℤ) ≤ (c.loopAt content buf start n i).blocks := by
    rw [hr, amount]
    omega
  rw [nandLoop, if_pos (by omega)]
  refine (if_neg (mt (isBad_or hc _).mp h)).trans ?_
  rw [show (c.loopAt content buf start n i).start = (c.stop start i).pos % 2 ^ 32 from rfl, hread]
  refine if_congr Iff.rfl rfl ?_
  have hpos : add32 ((c.stop start i).pos % 2 ^ 32) (c.amount start n i) =
      ((c.stop start i).pos + c.amount start n i) % 2 ^ 32 := by
    unfold add32
    omega
  have hbuf : buf + 512 * c.got start i + ((c.amount start n i : ℤ) * 2 ^ 9).toNat =
      buf + 512 * (c.got start i + c.amount start n i) := by
    omega
  have hint : int32 ((c.loopAt content buf start n i).blocks - c.amount start n i) =
      (c.loopAt content buf start n i).blocks - c.amount start n i :=
    int32_of_range (by omega) (by omega)
  simp only [Int.toNat_natCast, hint, hpos]
  congr 2

/-- The loop follows the walk as long as its count is right. -/
theorem loop_of_goes (hc : Regular c content) (h0 : 0 < n) (hn : n < 2 ^ 31)
    (h : c.Goes key start n i) (k : ℕ) :
    c.nandLoop key (k + i) (c.loopAt content buf start n 0) =
      c.nandLoop key k (c.loopAt content buf start n i) := by
  induction i generalizing k with
  | zero => rfl
  | succ i ih =>
    obtain ⟨hhalt, hcount⟩ := h i (by omega)
    have hcount' : c.Counts start n i := by
      rcases i with _ | i
      · show 0 < n + c.perPage * 0 ∧ n + c.perPage * 0 < 2 ^ 31 + 0
        omega
      · exact (h i (by omega)).2
    rw [show k + (i + 1) = k + 1 + i by omega, ih fun j hj => h j (by omega)]
    by_cases hm : c.Marked (c.stop start i).pos
    · rw [loop_of_marked hc hcount' hm, if_neg (mt (halts_of_marked hm).mpr hhalt)]
      rw [int32_of_range]
      · have : (c.loopAt content buf start n (i + 1)).blocks > 0 := blocks_pos hcount
        omega
      · have := hcount.2
        simp only [loopAt]
        omega
    · rw [loop_of_not_marked hc hcount' hm, if_neg (mt (halts_of_not_marked hm).mpr hhalt)]
      -- a page that does not end the loop is read to its end
      have hj : c.amount start n i = c.rest (c.stop start i).pos := by
        have := hcount.1
        rw [got_of_not_marked hm, stop_of_not_marked hm] at this
        unfold amount
        dsimp only at this
        omega
      simp only [loopAt, readStores, got_of_not_marked hm, stop_of_not_marked hm, hj]
      rw [pageStores, if_neg hm]
      congr 2
      push_cast
      ring

/-- The loop comes to a stop where it ends. -/
theorem exists_last (hc : Regular c content) (key : ℕ → Bool) (start n : ℕ) :
    ∃ i, c.Goes key start n i ∧ (c.Halts start key i ∨ ¬ c.Counts start n (i + 1)) := by
  by_contra hnone
  have hgoes : ∀ i, c.Goes key start n i := by
    intro i
    induction i with
    | zero => intro j hj; exact absurd hj (Nat.not_lt_zero j)
    | succ i ih =>
      intro j hj
      rcases Nat.lt_succ_iff_lt_or_eq.mp hj with hj | rfl
      · exact ih j hj
      · by_contra h
        exact hnone ⟨j, ih, by tauto⟩
  have h := hgoes (n + 4 * c.perPage + 5)
  have hskip := skipped_le fun j hj => (h j hj).1
  have hgot : c.Counts start n (n + 4 * c.perPage + 5) :=
    (h (n + 4 * c.perPage + 4) (by omega)).2
  have hlt := hgot.1
  have hle : n + 4 * c.perPage + 5 ≤ _ + (c.stop start (n + 4 * c.perPage + 5)).skipped :=
    le_got_add_skipped hc
  have hmul := Nat.mul_le_mul_left c.perPage hskip
  omega

/-- What the loop returns when it ends at stop `i` of the walk. -/
def lastResult (c : Chip) (content : ℕ → List Byte) (key : ℕ → Bool) (buf start n i : ℕ) :
    ℤ × List Write :=
  if c.Marked (c.stop start i).pos then
    (if (c.stop start i).skipped = 4 then -1 else 0, c.pageStores content buf start i)
  else (if key (c.stop start i).pages then -3 else 0, c.readStores content buf start n i)

theorem counts_of_goes (h0 : 0 < n) (hn : n < 2 ^ 31) (h : c.Goes key start n i) :
    c.Counts start n i := by
  rcases i with _ | i
  · show 0 < n + c.perPage * 0 ∧ n + c.perPage * 0 < 2 ^ 31 + 0
    omega
  · exact (h i (by omega)).2

theorem skipped_le_of_goes (h : c.Goes key start n i) : (c.stop start i).skipped ≤ 4 :=
  skipped_le fun j hj => (h j hj).1

/-- Where a read does not bring the count to 0, it is of the whole rest of the page. -/
theorem not_counts_of_not_marked (h0 : 0 < n) (hn : n < 2 ^ 31) (hgoes : c.Goes key start n i)
    (hm : ¬ c.Marked (c.stop start i).pos) (hend : ¬ c.Counts start n (i + 1)) :
    c.got start i + c.amount start n i = n + c.perPage * (c.stop start i).skipped := by
  obtain ⟨hlt, hint⟩ := counts_of_goes h0 hn hgoes
  unfold Counts at hend
  rw [got_of_not_marked hm, stop_of_not_marked hm] at hend
  unfold amount
  dsimp only at hend
  omega

/-- At a page to skip only the overflow of the count ends the loop early. -/
theorem not_counts_of_marked (h0 : 0 < n) (hn : n < 2 ^ 31) (hgoes : c.Goes key start n i)
    (hm : c.Marked (c.stop start i).pos) (hend : ¬ c.Counts start n (i + 1)) :
    2 ^ 31 + c.got start i ≤ n + c.perPage * ((c.stop start i).skipped + 1) := by
  obtain ⟨hlt, -⟩ := counts_of_goes h0 hn hgoes
  unfold Counts at hend
  rw [got_of_marked hm, stop_of_marked hm] at hend
  have := Nat.mul_succ c.perPage (c.stop start i).skipped
  simp only [Nat.succ_eq_add_one] at this
  dsimp only at hend
  omega

theorem loop_last (hc : Regular c content) (h0 : 0 < n) (hn : n < 2 ^ 31)
    (hgoes : c.Goes key start n i)
    (hend : c.Halts start key i ∨ ¬ c.Counts start n (i + 1)) :
    c.nandLoop key (2 + i) (c.loopAt content buf start n 0) =
      some (c.lastResult content key buf start n i) := by
  have hcount := counts_of_goes h0 hn hgoes
  rw [loop_of_goes hc h0 hn hgoes]
  by_cases hm : c.Marked (c.stop start i).pos
  · rw [loop_of_marked hc hcount hm, lastResult, if_pos hm]
    by_cases h4 : (c.stop start i).skipped = 4
    · rw [if_pos h4, if_pos h4]
    · have hov := not_counts_of_marked h0 hn hgoes hm
        (hend.resolve_left (mt (halts_of_marked hm).mp h4))
      have hskip := skipped_le_of_goes hgoes
      have hmul : c.perPage * ((c.stop start i).skipped + 1) ≤ 4 * 5 :=
        Nat.mul_le_mul hc.perPage_le (Nat.succ_le_succ hskip)
      rw [if_neg h4, if_neg h4, nandLoop, if_neg]
      · simp only [loopAt, pageStores, if_pos hm]
      · -- the count is negative after the overflow
        simp only [loopAt, got_of_marked hm, stop_of_marked hm, ← Nat.cast_mul]
        unfold int32
        split_ifs <;> omega
  · rw [loop_of_not_marked hc hcount hm, lastResult, if_neg hm]
    by_cases hkey : key (c.stop start i).pages = true
    · rw [if_pos hkey, if_pos hkey]
    · have hall := not_counts_of_not_marked h0 hn hgoes hm
        (hend.resolve_left (mt (halts_of_not_marked hm).mp hkey))
      rw [if_neg hkey, if_neg hkey, nandLoop, if_neg]
      simp only [loopAt]
      omega

/-! ## When the blocks are delivered -/

theorem applyWrites_readStores (hc : Regular c content) (d : Disk) :
    applyWrites (c.readStores content buf start n i) d =
      store d buf (((c.stop start i).read ++
        List.range' (c.stop start i).pos (c.amount start n i)).flatMap content) := by
  rw [readStores, applyWrites_append, applyWrites_pageStores hc, List.flatMap_append,
    ← store_append, length_flatMap hc]
  rfl

theorem readStores_inside (hc : Regular c content) :
    ∀ w ∈ c.readStores content buf start n i, buf ≤ w.1 ∧
      w.1 + w.2.length ≤ buf + 512 * (c.got start i + c.amount start n i) := by
  intro w hw
  rcases List.mem_append.mp hw with hw | hw
  · have := pageStores_inside hc w hw
    omega
  · obtain rfl := List.mem_singleton.mp hw
    rw [length_flatMap hc, List.length_range']
    dsimp only
    omega

/-- Stores that put `m` blocks into the buffer stay inside it iff it has room for them. -/
theorem inside_iff (hc : Regular c content) {ws : List Write} {bs : List ℕ}
    (hws : ∀ d, applyWrites ws d = store d buf (bs.flatMap content))
    (hin : ∀ w ∈ ws, buf ≤ w.1 ∧ w.1 + w.2.length ≤ buf + 512 * bs.length) :
    (∀ w ∈ ws, buf ≤ w.1 ∧ w.1 + w.2.length ≤ buf + 512 * n) ↔ bs.length ≤ n := by
  constructor
  · intro h
    have := add_length_le_of_applyWrites hws (Nat.le_add_right buf (512 * n)) fun w hw => (h w hw).2
    rw [length_flatMap hc] at this
    omega
  · intro h w hw
    have := hin w hw
    omega

/-- A negative result asks for no more than room. -/
theorem delivers_of_neg (hc : Regular c content) {r : ℤ × List Write} {bs : List ℕ}
    (hneg : r.1 < 0) (hws : ∀ d, applyWrites r.2 d = store d buf (bs.flatMap content))
    (hin : ∀ w ∈ r.2, buf ≤ w.1 ∧ w.1 + w.2.length ≤ buf + 512 * bs.length) :
    c.Delivers content buf start n r ↔ bs.length ≤ n :=
  ⟨fun h => (inside_iff hc hws hin).mp h.inside,
    fun h => ⟨(inside_iff hc hws hin).mpr h, .inl hneg⟩⟩

/-- After another result exactly `n` blocks have been stored. -/
theorem length_of_delivers (hc : Regular c content) {r : ℤ × List Write} {bs : List ℕ}
    (h : c.Delivers content buf start n r) (hr : ¬ r.1 < 0)
    (hws : ∀ d, applyWrites r.2 d = store d buf (bs.flatMap content)) : bs.length = n := by
  obtain ⟨k, hk, hall⟩ := h.whole.resolve_left hr
  have := congrArg List.length (store_injective fun d => (hws d).symm.trans (hall d))
  rw [length_flatMap hc, length_flatMap hc, List.length_take] at this
  unfold got at hk
  omega

theorem not_clean_of_marked (hgoes : c.Goes key start n i) (h0 : 0 < n) (hn : n < 2 ^ 31)
    (hm : c.Marked (c.stop start i).pos) (hs : (c.stop start i).skipped = 0) :
    ¬ c.Clean start key n := by
  intro h
  have := (counts_of_goes h0 hn hgoes).1
  rw [hs] at this
  exact h i (fun j hj => (hgoes j hj).1) (by omega) hm

theorem not_clean_of_skipped (hgoes : c.Goes key start n i) (h0 : 0 < n) (hn : n < 2 ^ 31)
    (hs : (c.stop start i).skipped ≠ 0) : ¬ c.Clean start key n := by
  obtain ⟨j, hj, hm, hs⟩ := exists_marked (Nat.pos_of_ne_zero hs)
  exact not_clean_of_marked (fun k hk => hgoes k (by omega)) h0 hn hm hs

/-- Nothing was skipped up to the stop that ends the loop. -/
theorem clean_of_last (hm : ¬ c.Marked (c.stop start i).pos) (hs : (c.stop start i).skipped = 0)
    (hend : c.Halts start key i ∨ n ≤ c.got start (i + 1)) : c.Clean start key n := by
  intro j hnot hgot hmark
  rcases Nat.lt_trichotomy j i with hj | rfl | hj
  · have : (c.stop start (j + 1)).skipped ≤ (c.stop start i).skipped := skipped_mono (by omega)
    rw [stop_of_marked hmark] at this
    dsimp only at this
    omega
  · exact hm hmark
  · rcases hend with hend | hend
    · exact hnot i hj hend
    · have : c.got start (i + 1) ≤ c.got start j := got_mono (by omega)
      omega

/-- Where the walk is broken off at stop `i`, the loop's count has been right all along. -/
theorem broken_of_halts (hgoes : c.Goes key start n i) (h0 : 0 < n) (hn : n < 2 ^ 31)
    (h : c.Halts start key i) : c.Broken start key n ↔ c.got start (i + 1) ≤ n := by
  constructor
  · rintro ⟨j, hnot, hhalt, hgot, -⟩
    rcases Nat.lt_trichotomy j i with hj | rfl | hj
    · exact absurd hhalt (hgoes j hj).1
    · exact hgot
    · exact absurd h (hnot i hj)
  · intro hgot
    exact ⟨i, fun j hj => (hgoes j hj).1, h, hgot, fun j hj =>
      (counts_of_goes h0 hn fun k hk => hgoes k (by omega)).2⟩

/-- Where it is not, it is not broken off in time either. -/
theorem not_broken_of_not_halts (hgoes : c.Goes key start n i) (h : ¬ c.Halts start key i)
    (hend : n < c.got start (i + 1) ∨
      2 ^ 31 + c.got start (i + 1) ≤ n + c.perPage * (c.stop start (i + 1)).skipped) :
    ¬ c.Broken start key n := by
  rintro ⟨j, hnot, hhalt, hgot, hint⟩
  have hj : i < j := by
    by_contra hle
    rcases Nat.lt_or_eq_of_le (Nat.le_of_not_lt hle) with hj | rfl
    · exact (hgoes j hj).1 hhalt
    · exact h hhalt
  rcases hend with hend | hend
  · have : c.got start (i + 1) ≤ c.got start (j + 1) := got_mono (by omega)
    omega
  · have := hint (i + 1) (by omega)
    omega

/-- The blocks of the last round that reads, behind those read before. -/
theorem length_lastRead : ((c.stop start i).read ++
    List.range' (c.stop start i).pos (c.amount start n i)).length =
      c.got start i + c.amount start n i := by
  simp [got]

/-- The run ends at a marked page: at the fifth one to skip, or because the count has
    overflowed. -/
theorem delivers_marked_iff (hc : Regular c content) (h0 : 0 < n) (hn : n < 2 ^ 31)
    (hgoes : c.Goes key start n i)
    (hend : c.Halts start key i ∨ ¬ c.Counts start n (i + 1))
    (hm : c.Marked (c.stop start i).pos) :
    c.Delivers content buf start n (c.lastResult content key buf start n i) ↔
      c.Clean start key n ∨ c.Broken start key n := by
  have hskip := skipped_le_of_goes hgoes
  have hpages : c.lastResult content key buf start n i =
      (if (c.stop start i).skipped = 4 then -1 else 0, c.pageStores content buf start i) :=
    if_pos hm
  have hclean : ¬ c.Clean start key n := by
    by_cases hs : (c.stop start i).skipped = 0
    · exact not_clean_of_marked hgoes h0 hn hm hs
    · exact not_clean_of_skipped hgoes h0 hn hs
  rw [or_iff_right hclean, hpages]
  by_cases h4 : (c.stop start i).skipped = 4
  · -- the fifth page to skip
    rw [broken_of_halts hgoes h0 hn ((halts_of_marked hm).mpr h4), got_of_marked hm, if_pos h4]
    exact delivers_of_neg hc (by norm_num) (applyWrites_pageStores hc) (pageStores_inside hc)
  · -- the count has overflowed
    have hnot : ¬ c.Halts start key i := mt (halts_of_marked hm).mp h4
    have hov := not_counts_of_marked h0 hn hgoes hm (hend.resolve_left hnot)
    have hmul : c.perPage * ((c.stop start i).skipped + 1) ≤ 4 * 5 :=
      Nat.mul_le_mul hc.perPage_le (Nat.succ_le_succ hskip)
    rw [if_neg h4]
    refine iff_of_false (fun h => ?_) (not_broken_of_not_halts hgoes hnot (.inr ?_))
    · have hlen := length_of_delivers hc h (by norm_num) (applyWrites_pageStores hc)
      unfold got at hov
      omega
    · rw [got_of_marked hm, stop_of_marked hm]
      exact hov

/-- The run ends with the key. -/
theorem delivers_keyed_iff (hc : Regular c content) (h0 : 0 < n) (hn : n < 2 ^ 31)
    (hgoes : c.Goes key start n i) (hm : ¬ c.Marked (c.stop start i).pos)
    (hkey : key (c.stop start i).pages = true) :
    c.Delivers content buf start n (c.lastResult content key buf start n i) ↔
      c.Clean start key n ∨ c.Broken start key n := by
  obtain ⟨hlt, hint⟩ := counts_of_goes h0 hn hgoes
  have hread : c.lastResult content key buf start n i =
      (if key (c.stop start i).pages then -3 else 0, c.readStores content buf start n i) :=
    if_neg hm
  have hinside : ∀ w ∈ c.readStores content buf start n i, buf ≤ w.1 ∧ w.1 + w.2.length ≤ _ :=
    readStores_inside hc
  have hhalt := (halts_of_not_marked hm).mpr hkey
  rw [← length_lastRead] at hinside
  rw [hread, if_pos hkey, delivers_of_neg hc (by norm_num) (applyWrites_readStores hc) hinside,
    length_lastRead, broken_of_halts hgoes h0 hn hhalt, got_of_not_marked hm]
  by_cases hs : (c.stop start i).skipped = 0
  · refine iff_of_true ?_ (.inl (clean_of_last hm hs (.inl hhalt)))
    rw [hs] at hlt
    rw [amount, hs]
    omega
  · rw [or_iff_right (not_clean_of_skipped hgoes h0 hn hs)]
    -- the count is more than `n` by the pages skipped, so only the page's end bounds the read
    have := Nat.mul_pos hc.perPage_pos (Nat.pos_of_ne_zero hs)
    unfold amount
    omega

/-- The blocks of the last page that are read are the ones still asked for. -/
theorem take_stop_of_counted (hm : ¬ c.Marked (c.stop start i).pos)
    (hall : c.got start i + c.amount start n i = n) :
    ((c.stop start (i + 1)).read).take n = (c.stop start i).read ++
      List.range' (c.stop start i).pos (c.amount start n i) := by
  have hle : (c.stop start i).read.length ≤ n := by
    unfold got at hall
    omega
  have hrest : n - (c.stop start i).read.length = c.amount start n i := by
    unfold got at hall
    omega
  rw [stop_of_not_marked hm, List.take_append, List.take_of_length_le hle, hrest,
    List.take_range'_of_length_ge (show c.rest _ ≥ c.amount start n i from min_le_right _ _)]

/-- The run ends with the count at 0. -/
theorem delivers_counted_iff (hc : Regular c content) (h0 : 0 < n) (hn : n < 2 ^ 31)
    (hgoes : c.Goes key start n i) (hend : ¬ c.Counts start n (i + 1))
    (hm : ¬ c.Marked (c.stop start i).pos) (hkey : ¬ key (c.stop start i).pages = true) :
    c.Delivers content buf start n (c.lastResult content key buf start n i) ↔
      c.Clean start key n ∨ c.Broken start key n := by
  have hread : c.lastResult content key buf start n i =
      (if key (c.stop start i).pages then -3 else 0, c.readStores content buf start n i) :=
    if_neg hm
  have hinside : ∀ w ∈ c.readStores content buf start n i, buf ≤ w.1 ∧ w.1 + w.2.length ≤ _ :=
    readStores_inside hc
  have hnot := mt (halts_of_not_marked hm).mp hkey
  have hall := not_counts_of_not_marked h0 hn hgoes hm hend
  have hgot : n + c.perPage * (c.stop start i).skipped ≤ c.got start (i + 1) := by
    rw [got_of_not_marked hm, ← hall]
    exact Nat.add_le_add_left (min_le_right _ _) _
  rw [hread, if_neg hkey]
  by_cases hs : (c.stop start i).skipped = 0
  · rw [hs] at hall hgot
    refine iff_of_true ⟨?_, .inr ⟨i + 1, hgot, fun d => ?_⟩⟩
      (.inl (clean_of_last hm hs (.inr hgot)))
    · rw [hall] at hinside
      exact hinside
    · rw [take_stop_of_counted hm hall]
      exact applyWrites_readStores hc d
  · have hpos := Nat.mul_pos hc.perPage_pos (Nat.pos_of_ne_zero hs)
    refine iff_of_false (fun h => ?_) (not_or.mpr
      ⟨not_clean_of_skipped hgoes h0 hn hs, not_broken_of_not_halts hgoes hnot (.inl ?_)⟩)
    · have hlen := length_of_delivers hc h (by norm_num) (applyWrites_readStores hc)
      rw [length_lastRead] at hlen
      omega
    · omega

/-- Where the loop ends decides whether the blocks have been delivered. -/
theorem delivers_last_iff (hc : Regular c content) (h0 : 0 < n) (hn : n < 2 ^ 31)
    (hgoes : c.Goes key start n i)
    (hend : c.Halts start key i ∨ ¬ c.Counts start n (i + 1)) :
    c.Delivers content buf start n (c.lastResult content key buf start n i) ↔
      c.Clean start key n ∨ c.Broken start key n := by
  by_cases hm : c.Marked (c.stop start i).pos
  · exact delivers_marked_iff hc h0 hn hgoes hend hm
  · by_cases hkey : key (c.stop start i).pages = true
    · exact delivers_keyed_iff hc h0 hn hgoes hm hkey
    · have hnot : ¬ c.Halts start key i := mt (halts_of_not_marked hm).mp hkey
      exact delivers_counted_iff hc h0 hn hgoes (hend.resolve_left hnot) hm hkey

/-- More rounds do not change the result. -/
theorem nandLoop_of_le {k m : ℕ} {s : Loop} {r : ℤ × List Write} (h : c.nandLoop key k s = some r)
    (hkm : k ≤ m) : c.nandLoop key m s = some r := by
  induction k generalizing m s with
  | zero => cases h
  | succ k ih =>
    obtain ⟨m, rfl⟩ : ∃ m', m = m' + 1 := ⟨m - 1, by omega⟩
    rw [nandLoop] at h ⊢
    split_ifs at h ⊢
    · exact h
    · exact ih h (by omega)
    · exact h
    · exact ih h (by omega)
    · exact h

/-- A read ends, and its result and stores are as asked. -/
def Works (c : Chip) (content : ℕ → List Byte) (buf start n : ℕ)
    (read : ℕ → Option (ℤ × List Write)) : Prop :=
  ∃ k r, read k = some r ∧ c.Delivers content buf start n r

theorem works_iff (hc : Regular c content) (h0 : 0 < n) (hn : n < 2 ^ 31)
    (hstart : start < 2 ^ 32) :
    c.Works content buf start n (c.nandReadLl key buf start n) ↔
      c.Clean start key n ∨ c.Broken start key n := by
  obtain ⟨i, hgoes, hend⟩ := exists_last hc key start n
  have hinit : c.loopAt content buf start n 0 = ⟨start, n, 0, buf, [], 0⟩ := by
    show Loop.mk (start % 2 ^ 32) _ _ _ _ _ = _
    rw [Nat.mod_eq_of_lt hstart]
    simp [stop, got, pageStores]
  have hlast : c.nandLoop key (2 + i) (c.loopAt content buf start n 0) = _ :=
    loop_last hc h0 hn hgoes hend
  rw [hinit] at hlast
  have hiff : c.Delivers content buf start n (c.lastResult content key buf start n i) ↔ _ :=
    delivers_last_iff hc h0 hn hgoes hend
  rw [← hiff]
  constructor
  · rintro ⟨k, r, hr, h⟩
    have h1 := nandLoop_of_le hr (le_max_left k (2 + i))
    have h2 := nandLoop_of_le hlast (le_max_right k (2 + i))
    rw [← Option.some.inj (h1.symm.trans h2)]
    exact h
  · intro h
    exact ⟨2 + i, _, hlast, h⟩

end Follow

end Chip

/-! ## The two chips -/

/-- Blocks of one page that follow each other are one run of its bytes. -/
theorem flatMap_block {p : ℕ} (nand : Flash) {b m : ℕ} (hp : 0 < p) (h : b % p + m ≤ p) :
    (List.range' b m).flatMap (block p nand) = load (nand (row (b / p))) (b % p * 512) (m * 512) := by
  induction m with
  | zero => simp
  | succ m ih =>
    have hdiv : (b + m) / p = b / p := by
      rw [Nat.div_eq_iff hp]
      have := Nat.div_add_mod b p
      rw [Nat.mul_comm] at this
      omega
    have hmod : (b + m) % p = b % p + m := by
      rw [Nat.add_mod, Nat.mod_eq_of_lt (show m < p by omega), Nat.mod_eq_of_lt (by omega)]
    have hlast : (List.range' (b + 1 * m) 1).flatMap (block p nand) =
        load (nand (row (b / p))) (b % p * 512 + m * 512) 512 := by
      rw [List.range'_one, List.flatMap_singleton, block, one_mul, hdiv, hmod, Nat.add_mul]
    calc (List.range' b (m + 1)).flatMap (block p nand)
        = (List.range' b m).flatMap (block p nand) ++
            (List.range' (b + 1 * m) 1).flatMap (block p nand) := by
          rw [List.range'_concat, List.flatMap_append, List.range'_one]
      _ = load (nand (row (b / p))) (b % p * 512) (m * 512 + 512) := by
          rw [ih (by omega), hlast, load_append]
      _ = load (nand (row (b / p))) (b % p * 512) ((m + 1) * 512) := by rw [Nat.succ_mul]

namespace S3c2442

theorem regular (nand : Flash) : (chip nand).Regular (block 4 nand) where
  perPage_pos := Nat.succ_pos 3
  perPage_le := le_rfl
  isBad_mod b := by
    have : row ((b % 2 ^ 32) >>> 2) = row (b >>> 2) := by
      simp only [row, Nat.shiftRight_eq_div_pow]
      omega
    simp only [chip, isBadBlock, this]
  length_content b := length_load _ _ _
  readPage_eq b r h0 h1 := by
    obtain ⟨m, rfl⟩ := Int.eq_ofNat_of_zero_le h0.le
    have hmask : (b % 2 ^ 32) &&& 3 = b % 4 := by
      rw [show 3 = 2 ^ 2 - 1 from rfl, Nat.and_two_pow_sub_one_eq_mod]
      omega
    have hrow : row ((b % 2 ^ 32) >>> 2) = row (b / 4) := by
      simp only [row, Nat.shiftRight_eq_div_pow]
      omega
    have hrest : (chip nand).rest b = 4 - b % 4 := rfl
    have hmin : (if (m : ℤ) > (3 - b % 4 : ℕ) + 1 then ((3 - b % 4 : ℕ) : ℤ) + 1 else m) =
        (min m (4 - b % 4) : ℕ) := by
      split_ifs <;> omega
    have hsize : 2 * ((2048 / 4 / 2) * toU32 (min m (4 - b % 4) : ℕ) % 2 ^ 32) =
        min m (4 - b % 4) * 512 := by
      rw [toU32_natCast (by omega)]
      omega
    have hcol : (b % 4) <<< 1 <<< 8 = b % 4 * 512 := by
      simp only [Nat.shiftLeft_eq]
      omega
    show nandReadPageLl nand (b % 2 ^ 32) m = _
    simp only [nandReadPageLl, hmask, hrow, hmin, hsize, hcol, hrest, Int.toNat_natCast]
    rw [flatMap_block nand (by decide) (by omega)]
    simp

end S3c2442

namespace S3c2410

theorem regular (nand : Flash) : (chip nand).Regular (block 1 nand) where
  perPage_pos := Nat.one_pos
  perPage_le := Nat.le_add_left 1 3
  isBad_mod b := by
    have : row (b % 2 ^ 32) = row b := by
      simp only [row]
      omega
    simp only [chip, isBadBlock, this]
  length_content b := length_load _ _ _
  readPage_eq b r h0 h1 := by
    have hrow : row (b % 2 ^ 32) = row b := by
      simp only [row]
      omega
    have hrest : (chip nand).rest b = 1 := by
      show 1 - b % 1 = 1
      omega
    have hmin : min r ((1 : ℕ) : ℤ) = 1 := by omega
    have hmin' : min r.toNat 1 = 1 := by omega
    show nandReadPageLl nand (b % 2 ^ 32) = _
    simp only [nandReadPageLl, hrow, hrest, hmin, hmin']
    simp [block, Nat.mod_one]

end S3c2410

/-- `nand_read_ll` of the s3c2442 and of the s3c2410 delivers the blocks asked for iff no page is
    skipped before they have all been read or the key ends the read, or the fifth skipped page or
    the key ends it when no more blocks have been read than were asked for. -/
theorem nandReadLl_iff (nand : Flash) (get_ui_keys : Option (ℕ → ℕ)) (buf start n : ℕ)
    (hstart : start < 2 ^ 32) (h0 : 0 < n) (hn : n < 2 ^ 31) :
    ((S3c2442.chip nand).Works (block 4 nand) buf start n
        (S3c2442.nandReadLl nand get_ui_keys buf start n) ↔
      (S3c2442.chip nand).Clean start (S3c2442.skipKey get_ui_keys) n ∨
        (S3c2442.chip nand).Broken start (S3c2442.skipKey get_ui_keys) n) ∧
    ((S3c2410.chip nand).Works (block 1 nand) buf start n
        (S3c2410.nandReadLl nand buf start n) ↔
      (S3c2410.chip nand).Clean start (fun _ => false) n ∨
        (S3c2410.chip nand).Broken start (fun _ => false) n) :=
  ⟨Chip.works_iff (S3c2442.regular nand) h0 hn hstart,
    Chip.works_iff (S3c2410.regular nand) h0 hn hstart⟩

/-- A flash with nothing written and nothing marked: the boot loader's own 64 blocks. -/
theorem nandReadLl_erased :
    (S3c2442.chip fun _ _ => 0xff).Works (block 4 fun _ _ => 0xff) 0x33000000 0 64
      (S3c2442.nandReadLl (fun _ _ => 0xff) none 0x33000000 0 64) :=
  (nandReadLl_iff (fun _ _ => 0xff) none 0x33000000 0 64 (by norm_num) (by norm_num)
    (by norm_num)).1.mpr (.inl fun _ _ _ h => by
      rcases h with h | h <;> simp [S3c2442.chip, S3c2442.isBadBlock] at h)

/-- A flash of which the first page is marked. -/
def firstMarked : Flash := fun page _ => if page = 0 then 0 else 0xff

/-- The stores of a read of one block of `firstMarked`: five blocks. -/
theorem stores_firstMarked :
    (S3c2442.nandReadLl firstMarked none 0 0 1 4).map
      (fun r => (r.1, r.2.map fun w => (w.1, w.2.length))) = some (0, [(0, 2048), (2048, 512)]) := by
  decide +kernel

/-- A read of one block behind a marked page writes behind the buffer. -/
theorem not_works_firstMarked :
    ¬ (S3c2442.chip firstMarked).Works (block 4 firstMarked) 0 0 1
      (S3c2442.nandReadLl firstMarked none 0 0 1) := by
  rintro ⟨k, r, hr, h⟩
  obtain ⟨r', hr', hmap⟩ := Option.map_eq_some_iff.mp stores_firstMarked
  have h1 := Chip.nandLoop_of_le hr (le_max_left k 4)
  have h2 := Chip.nandLoop_of_le hr' (le_max_right k 4)
  obtain rfl := Option.some.inj (h1.symm.trans h2)
  have hmem : ((2048, 512) : ℕ × ℕ) ∈ r.2.map fun w => (w.1, w.2.length) := by
    rw [(Prod.mk.inj hmap).2]
    simp
  obtain ⟨w, hw, hlen⟩ := List.mem_map.mp hmem
  have := (h.inside w hw).2
  rw [(Prod.mk.inj hlen).1, (Prod.mk.inj hlen).2] at this
  omega

end SmartQ.Qi.Nand
