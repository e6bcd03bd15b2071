import SmartQ.Lib.Budget
import SmartQ.Qi.PathCost

/-!
# Looking up a path

The code against what the contents of the volume say about a path, on devices whose reads do
not fail: it finds what the contents say, or nothing if a read is skipped, and takes no more
from the pool.

* `iterate_spends`: the scan of a directory.
* `findNames_spends`, `ext2fsFindFile1_spends`: the names of a path, with its links.
* `ext2fsOpen_spends`: a file that is opened.
-/

namespace SmartQ.Qi

open SmartQ.Lib

/-! ## Reads in a block of the inode -/

section Direct

variable {env : Env} {extent : ℕ} {k : KernelSource} {node : Node} {l i p n m : ℕ} {s : St}

theorem sector_last {st o : ℕ} (hst : st < 2 ^ 31) (hpos : 0 < o + n) (h : o + n ≤ 2 ^ 16) :
    toU32 (int32 ((st : ℤ) + int32 ((o : ℤ) + n - 1) / 512)) = st + (o + n - 1) / 512 := by
  have hcast : (o : ℤ) + n - 1 = (o + n - 1 : ℕ) := by omega
  rw [hcast, int32_natCast (by omega), toU32_int32]
  unfold toU32
  omega

theorem sector_first {st o : ℕ} (hst : st < 2 ^ 31) (h : o < 2 ^ 16) :
    512 * toU32 ((st : ℤ) + (o : ℤ) / 512) + ((o : ℤ) % 512).toNat = 512 * st + o := by
  unfold toU32
  omega

/-- The `n` bytes at `p` lie in block `i` of a file, one of the blocks in the inode. -/
structure Node.Direct (node : Node) (l i p n : ℕ) : Prop where
  sizes : node.Blocks l
  lt : i < 12
  ne : node.dirBlock i ≠ 0
  small : node.dirBlock i * 2 ^ l < 2 ^ 31
  pos : 0 < n
  start : i * (512 * 2 ^ l) ≤ p
  stop : p + n ≤ (i + 1) * (512 * 2 ^ l)
  size : n ≤ node.size

namespace Node.Direct

theorem fits (h : node.Direct l i p n) : (request node p n).Fits l (512 * 2 ^ l) p := by
  have hle := blockBytes_le h.sizes.le
  have hi := h.lt
  have hstop := h.stop
  have hend : (i + 1) * (512 * 2 ^ l) ≤ 12 * 2 ^ 16 := Nat.mul_le_mul (by omega) hle
  exact h.sizes.fits h.size (by omega) (by omega)

/-- The bytes on the disk. -/
theorem bytes_eq (h : node.Direct l i p n) (v : Volume) :
    v.bytes node l p n =
      load v.disk (512 * (node.dirBlock i * 2 ^ l) + (p - i * (512 * 2 ^ l))) n := by
  have hpos : 0 < 512 * 2 ^ l := by have := Nat.two_pow_pos l; omega
  apply List.map_congr_left
  intro j hj
  have hj := List.mem_range.mp hj
  have hstop := h.stop
  have hstart := h.start
  rw [Nat.succ_mul] at hstop
  have hdiv : (p + j) / (512 * 2 ^ l) = i := by
    rw [Nat.div_eq_iff hpos]
    omega
  have hmod : (p + j) % (512 * 2 ^ l) = p + j - i * (512 * 2 ^ l) := by
    have hsplit := Nat.div_add_mod (p + j) (512 * 2 ^ l)
    rw [hdiv, Nat.mul_comm] at hsplit
    omega
  have hmap : v.blockMap node (512 * 2 ^ l) i = node.dirBlock i := if_pos h.lt
  have hbytes : node.dirBlock i * (512 * 2 ^ l) = 512 * (node.dirBlock i * 2 ^ l) := by ring
  unfold Volume.byte Ext2.contents
  rw [hdiv, hmap, if_neg h.ne, hmod, hbytes]
  exact congrArg v.disk (by omega)

/-- The structure that the device read looks at. -/
theorem struct_eq (h : node.Direct l i p n) (v : Volume) :
    v.struct (node.dirBlock i * 2 ^ l : ℕ) 0 (p - i * (512 * 2 ^ l) : ℕ) n =
      if node.dirBlock i * 2 ^ l + (p - i * (512 * 2 ^ l) + n - 1) / 512 < v.blocks then
        some (v.bytes node l p n) else none := by
  have hle := blockBytes_le h.sizes.le
  have hstop := h.stop
  have hstart := h.start
  have hpos := h.pos
  rw [Nat.succ_mul] at hstop
  rw [h.bytes_eq]
  unfold Volume.struct
  dsimp only
  rw [shl32_zero h.small, sector_last h.small (by omega) (by omega), sector_first h.small (by omega)]
  refine if_congr ?_ rfl rfl
  exact and_iff_right (Int.natCast_nonneg _)

/-- The device read for the bytes. -/
theorem devread (hdone : ∀ n, env.outcome n = .done) (k : KernelSource) (h : node.Direct l i p n)
    (s : St) :
    ∃ ok ws s', ext2fsDevread env k (node.dirBlock i * 2 ^ l : ℕ) 0
        (p - i * (512 * 2 ^ l) : ℕ) n s = some (.ok (ok, ws), s') ∧ Reads s s' ∧
      (ok = true ∧ Ext2.Puts ws ((s.volume env k).bytes node l p n) ∨
        ok = false ∧ ws = [] ∧ ¬ (env.Works ∧ (s.volume env k).Placed l (node.dirBlock i))) := by
  have hdev := devread_done hdone k s (node.dirBlock i * 2 ^ l : ℕ) 0 (p - i * (512 * 2 ^ l) : ℕ) n
  rw [h.struct_eq] at hdev
  obtain ⟨skip, ok, ws, s', hrun, hreads, hskip, hspec⟩ := hdev
  refine ⟨ok, ws, s', hrun, hreads, ?_⟩
  by_cases hin : node.dirBlock i * 2 ^ l + (p - i * (512 * 2 ^ l) + n - 1) / 512 <
      (s.volume env k).blocks
  · rw [if_pos hin] at hspec
    cases skip with
    | true => exact .inr ⟨hspec.1, hspec.2, fun hgood => by cases hskip hgood.1⟩
    | false => exact .inl hspec
  · rw [if_neg hin] at hspec
    refine .inr ⟨hspec.1, hspec.2, fun hgood => hin ?_⟩
    have hstop := h.stop
    have hstart := h.start
    have hpos := h.pos
    have hroom := hgood.2.2
    rw [Nat.succ_mul] at hstop hroom
    omega

end Node.Direct

/-- A read in a block of the inode, into an object of `m` bytes: it is one device read. -/
theorem readObject_direct (hdone : ∀ n, env.outcome n = .done) (extent : ℕ) (k : KernelSource)
    (h : node.Direct l i p n) (hnm : n ≤ m) (s : St) :
    ∃ status obj s', readObject env extent k node p n m s = some (.ok (status, obj), s') ∧
      Reads s s' ∧ obj.length = m ∧ (status = n ∧ obj.take n = (s.volume env k).bytes node l p n ∨
        status = -1 ∧ ¬ (env.Works ∧ (s.volume env k).Placed l (node.dirBlock i))) := by
  obtain ⟨ok, ws, s', hdev, hreads, hspec⟩ := h.devread hdone k s
  have hfit := h.fits
  have hlen : (request node p n).len = n := request_len h.size
  have hbs := hfit.bs_le
  have hstop := h.stop
  have hstart := h.start
  have hsmall := h.small
  rw [Nat.succ_mul] at hstop
  have hlow : node.dirBlock i * 1 ≤ node.dirBlock i * 2 ^ l :=
    Nat.mul_le_mul_left _ (Nat.two_pow_pos l)
  have hread : ext2fsReadBlock env extent k node i s = some (.ok (node.dirBlock i : ℤ), s) := by
    rw [ext2fsReadBlock_direct h.lt, int32_natCast (by omega)]
  have hl := h.sizes.le
  have hshl : shl32 (node.dirBlock i : ℤ) (request node p n).log2blocksize =
      (node.dirBlock i * 2 ^ l : ℕ) := by
    rw [hfit.log2]
    exact shl32_natCast (by omega) hsmall
  have hne : node.dirBlock i * 2 ^ l ≠ 0 := (Nat.mul_pos (Nat.pos_of_ne_zero h.ne)
    (Nat.two_pow_pos l)).ne'
  have hrun : ext2fsReadFile env extent k node p n s =
      some (.ok (if ok then (n : ℤ) else -1, ws.map (Write.shift 0)), s') := by
    rw [← hlen] at hdev
    have hone := Ext2.readFile_one hfit (by rw [hlen]; omega) (by rw [hlen]; exact h.pos) hstart
      (by rw [hlen]; exact h.stop) hread (Int.natCast_nonneg _) hshl hne hdev
    rw [hlen] at hone
    exact hone
  have hshift : ws.map (Write.shift 0) = ws := by
    have hsame : ∀ w ∈ ws, Write.shift 0 w = w := fun w _ => Prod.ext (Nat.zero_add _) rfl
    rw [List.map_congr_left hsame, List.map_id']
  rw [hshift] at hrun
  have hlength : ((s.volume env k).bytes node l p n).length = n := Volume.length_bytes _ _ _ _ _
  have hwithin : Within ws m := by
    rcases hspec with ⟨-, hputs, -⟩ | ⟨-, rfl, -⟩
    · intro w hw
      have := hputs w hw
      omega
    · exact fun w hw => absurd hw List.not_mem_nil
  have hjunk : (env.junk s m).length = m := by simp [Env.junk]
  refine ⟨if ok then (n : ℤ) else -1, patch (env.junk s m) ws, s', ?_, hreads, ?_, ?_⟩
  · unfold readObject
    rw [Prog.get_bind, Prog.bind_ok hrun]
    dsimp only
    rw [Prog.exitIf_of_not (not_not_intro hwithin), Prog.pure_apply]
  · rw [length_patch, hjunk]
  · rcases hspec with ⟨rfl, -, hover⟩ | ⟨rfl, -, hbad⟩
    · refine .inl ⟨if_pos rfl, ?_⟩
      apply List.ext_getElem
      · rw [List.length_take, length_patch, hjunk, hlength]
        omega
      · intro x hx hx'
        have hxn : x < n := by rwa [hlength] at hx'
        rw [List.getElem_take]
        simp only [patch, List.getElem_map, List.getElem_range]
        rw [hover x hx', Option.getD_some, byteAt_of_lt hx']
    · exact .inr ⟨if_neg Bool.false_ne_true, hbad⟩

end Direct

/-! ## What is taken -/

/-- A measure of what is used: the bytes of the pool, and what depends on the tables only. -/
structure Measures (μ : St → ℕ) : Prop where
  congr : ∀ s s', s'.pool = s.pool → s'.indir1 = s.indir1 → s'.indir2 = s.indir2 → μ s' = μ s
  pool : ∀ s n, μ { s with pool := n } + s.pool = μ s + n
  le : ∀ s, s.pool ≤ μ s

/-- What of the pool is in use, and what the tables that are not there yet may take. -/
def used (l : ℕ) (s : St) : ℕ := s.pool + spare l s

/-- Every exit but the end of the pool. -/
def NotFull (e : Exit) : Prop := e ≠ .outOfPool

theorem notFull_corrupt : NotFull .corrupt := fun h => by cases h

/-- The fragment takes `c` bytes of the pool at most, beside the tables. -/
abbrev Takes (extent l : ℕ) {α : Type} (P : St → Prop) (c : ℕ) (x : Phase2 α)
    (Q : α → St → Prop) : Prop :=
  Prog.Spends (used l) extent NotFull P c x Q

theorem Measures.reads {μ : St → ℕ} (hμ : Measures μ) (s s' : St) (h : Reads s s') :
    μ s' = μ s := by
  rw [h.eq]
  exact hμ.congr _ _ rfl rfl rfl

theorem measures_pool : Measures St.pool :=
  ⟨fun _ _ hpool _ _ => hpool, fun _ _ => Nat.add_comm _ _, fun _ => le_refl _⟩

theorem measures_used (l : ℕ) : Measures (used l) := by
  refine ⟨fun s s' hpool h1 h2 => ?_, fun s n => ?_, fun s => Nat.le_add_right _ _⟩
  · have htable : ∀ lv, s'.table lv = s.table lv := fun lv => by
      cases lv
      · exact h1
      · exact h2
    have hheld : ∀ lv, Held (512 * 2 ^ l) lv s' ↔ Held (512 * 2 ^ l) lv s := fun lv => by
      unfold Held
      rw [htable]
    unfold used spare tableSpare
    rw [hpool, if_congr (hheld .indir1) rfl rfl, if_congr (hheld .indir2) rfl rfl]
  · show n + spare l s + s.pool = s.pool + spare l s + n
    omega

section Takes

variable {P : St → Prop} {extent : ℕ} {μ : St → ℕ} (hμ : Measures μ)

include hμ

/-- A fragment that only reads the device, and returns. -/
theorem takes_of_reads {α : Type} {x : Phase2 α} {Q : α → Prop}
    (hP : ∀ s s', P s → Reads s s' → P s')
    (h : ∀ s, P s → ∃ a s', x s = some (.ok a, s') ∧ Reads s s' ∧ Q a) :
    Prog.Spends μ extent NotFull P 0 x fun a s => P s ∧ Q a := by
  apply Prog.Spends.of_ok
  intro s hs _
  obtain ⟨a, s', hrun, hreads, hq⟩ := h s hs
  exact ⟨a, s', hrun, ⟨hP s s' hs hreads, hq⟩, (hμ.reads s s' hreads).le⟩

/-- A change of the globals that leaves the pool and the tables alone. -/
theorem modify_takes {f : St → St} {Q : Unit → St → Prop} (h : ∀ s, P s → Q () (f s))
    (hf : ∀ s, (f s).pool = s.pool ∧ (f s).indir1 = s.indir1 ∧ (f s).indir2 = s.indir2) :
    Prog.Spends μ extent NotFull P 0 (Prog.modify f) Q :=
  Prog.Spends.modify fun s hs => by
    obtain ⟨hpool, h1, h2⟩ := hf s
    exact ⟨h s hs, (hμ.congr s (f s) hpool h1 h2).le⟩

theorem malloc_takes (hP : ∀ s n, P s → P { s with pool := n }) (hextent : extent < 2 ^ 32)
    (size : ℕ) : Prog.Spends μ extent NotFull P (size / 4 * 4 + 4) (malloc extent size)
      fun _ => P := by
  apply Prog.Spends.of_ok
  intro s hs hroom
  have hafter : poolAfter s.pool size = s.pool + (size / 4 * 4 + 4) := rfl
  have hle := hμ.le s
  have hmore := hμ.pool s (poolAfter s.pool size)
  refine ⟨(), { s with pool := poolAfter s.pool size }, ?_, hP s _ hs, ?_⟩
  · rw [malloc_apply, if_neg (by omega), if_neg (by omega)]
  · omega

end Takes

/-- The volume `v` is selected and mounted, and `nest` links have been followed. -/
structure On (env : Env) (k : KernelSource) (v : Volume) (root : Node) (nest : ℕ) (s : St) :
    Prop where
  volume : s.volume env k = v
  root : s.root = some root
  nest : s.symlinknest = nest

section On

variable {env : Env} {k : KernelSource} {v : Volume} {root : Node} {nest : ℕ} {s s' : St}

theorem On.reads (h : On env k v root nest s) (hreads : Reads s s') : On env k v root nest s' := by
  refine ⟨hreads.volume_eq.trans h.volume, ?_, ?_⟩
  · rw [hreads.eq]
    exact h.root
  · rw [hreads.eq]
    exact h.nest

theorem On.pool (h : On env k v root nest s) (n : ℕ) :
    On env k v root nest { s with pool := n } := ⟨h.volume, h.root, h.nest⟩

end On

/-! ## The scan of a directory -/

section Listed

variable {v : Volume} {dir : Node} {l n : ℕ}

/-- A record and the block that it lies in. -/
theorem Volume.Listed.record (h : v.Listed dir l) (hrec : v.IsRecord dir l n) :
    v.record dir l n / (512 * 2 ^ l) < 12 ∧
      v.record dir l n / (512 * 2 ^ l) * (512 * 2 ^ l) ≤ v.record dir l n ∧
      v.record dir l n + v.direntLen dir l (v.record dir l n) ≤
        (v.record dir l n / (512 * 2 ^ l) + 1) * (512 * 2 ^ l) ∧
      (v.record dir l n / (512 * 2 ^ l) + 1) * (512 * 2 ^ l) ≤ dir.size := by
  have hlt := hrec n (le_refl n)
  have hpos : 0 < 512 * 2 ^ l := by have := Nat.two_pow_pos l; omega
  have hsplit := Nat.div_add_mod (v.record dir l n) (512 * 2 ^ l)
  rw [Nat.mul_comm] at hsplit
  have hinside := h.inside n hrec
  obtain ⟨nb, hnb⟩ := h.whole
  have hdirect := h.direct
  rw [Nat.mul_comm] at hnb
  have hblock : v.record dir l n / (512 * 2 ^ l) < nb := by
    rw [Nat.div_lt_iff_lt_mul hpos, ← hnb]
    exact hlt
  have hnb12 : nb ≤ 12 := Nat.le_of_mul_le_mul_right (hnb ▸ hdirect) hpos
  refine ⟨by omega, by omega, ?_, ?_⟩
  · rw [Nat.succ_mul]
    omega
  · rw [hnb]
    exact Nat.mul_le_mul_right _ hblock

theorem Volume.Listed.direct_of (h : v.Listed dir l) (hsizes : dir.Blocks l)
    (hrec : v.IsRecord dir l n) {p m : ℕ} (hpos : 0 < m) (hp : v.record dir l n ≤ p)
    (hend : p + m ≤ v.record dir l n + v.direntLen dir l (v.record dir l n)) :
    dir.Direct l (v.record dir l n / (512 * 2 ^ l)) p m := by
  obtain ⟨hlt, hstart, hstop, hsize⟩ := h.record hrec
  obtain ⟨hne, hsmall⟩ := h.blocks _ (hstart.trans_lt (hrec n (le_refl n)))
  exact ⟨hsizes, hlt, hne, hsmall, hpos, by omega, by omega, by omega⟩

/-- The next record lies behind this one, and not behind the end. -/
theorem Volume.Listed.next (h : v.Listed dir l) (hl : l ≤ 7) (hrec : v.IsRecord dir l n) :
    v.record dir l (n + 1) =
        v.record dir l n + v.direntLen dir l (v.record dir l n) ∧
      v.record dir l n + 8 ≤ v.record dir l (n + 1) ∧ v.record dir l (n + 1) ≤ dir.size := by
  obtain ⟨-, -, hstop, hsize⟩ := h.record hrec
  have hle := blockBytes_le hl
  have hdirect := h.direct
  have hroom := h.room n hrec
  have h8 : direntSize = 8 := rfl
  have hnext : v.record dir l (n + 1) =
      v.record dir l n + v.direntLen dir l (v.record dir l n) :=
    add32_of_lt (by omega)
  refine ⟨hnext, ?_, ?_⟩
  · omega
  · omega

/-- The positions of a record and of its name, as they are passed on. -/
theorem Volume.Listed.positions (h : v.Listed dir l) (hl : l ≤ 7) (hrec : v.IsRecord dir l n) :
    int32 (v.record dir l n : ℕ) = (v.record dir l n : ℕ) ∧
      int32 (add32 (v.record dir l n) direntSize : ℕ) = (v.record dir l n + direntSize : ℕ) := by
  obtain ⟨-, hup, hle⟩ := h.next hl hrec
  have hblock := blockBytes_le hl
  have hfar : v.record dir l n + direntSize < 2 ^ 31 := by
    have h8 : direntSize = 8 := rfl
    have hdirect := h.direct
    omega
  generalize v.record dir l n = p at *
  constructor
  · exact int32_natCast (by omega)
  · rw [add32_of_lt (by omega), int32_natCast hfar]

end Listed

section Scan

variable {env : Env} (hdone : ∀ n, env.outcome n = .done) {extent : ℕ} {k : KernelSource}
  {v : Volume} {root dir : Node} {l nest : ℕ} {name : List Byte}

include hdone

theorem readObject_takes {node : Node} {i p n m : ℕ} (h : node.Direct l i p n) (hnm : n ≤ m) :
    Takes extent l (On env k v root nest) 0 (readObject env extent k node p n m) fun got s =>
      On env k v root nest s ∧ got.2.length = m ∧ (got.1 = n ∧ got.2.take n = v.bytes node l p n ∨
        got.1 = -1 ∧ ¬ (env.Works ∧ v.Placed l (node.dirBlock i))) := by
  apply takes_of_reads (measures_used l) (fun s s' hs hreads => hs.reads hreads)
  intro s hs
  obtain ⟨status, obj, s', hrun, hreads, hgot⟩ := readObject_direct hdone extent k h hnm s
  rw [hs.volume] at hgot
  exact ⟨(status, obj), s', hrun, hreads, hgot⟩

theorem readNode_takes (node : Node) :
    Takes extent l (On env k v root nest) 0 (readNode env k node) fun got s =>
      On env k v root nest s ∧ Got env got (v.loaded node) := by
  apply takes_of_reads (measures_used l) (fun s s' hs hreads => hs.reads hreads)
  intro s hs
  obtain ⟨got, s', hrun, hreads, hgot⟩ := readNode_done hdone k node s
  rw [hs.volume] at hgot
  exact ⟨got, s', hrun, hreads, hgot⟩

theorem entryNode_takes (dir : Node) (p : ℕ) :
    Takes extent l (On env k v root nest) 0 (entryNode env k dir (v.dirent dir l p)) fun found s =>
      On env k v root nest s ∧
        Got env (found.map fun f => (f.1.bare, f.2)) (v.entryAt dir l p) := by
  apply takes_of_reads (measures_used l) (fun s s' hs hreads => hs.reads hreads)
  intro s hs
  have hvol := hs.volume
  obtain ⟨found, s', hrun, hreads, hgot⟩ := entryNode_done hdone dir l p s (s := s) rfl
  rw [hvol] at hrun hgot
  exact ⟨found, s', hrun, hreads, hgot⟩

/-- What is found is the node and the type that `want` says, or nothing. -/
def Finds (want found : Option (Node × Ftype)) : Prop :=
  ∀ f, found = some f → want = some (f.1.bare, f.2)

omit hdone in
theorem finds_none (want : Option (Node × Ftype)) : Finds want none := fun f hf => by cases hf

/-- The round at a record with a name: a node is taken from the pool, and the scan stops there
    or goes on. -/
theorem nameRound_takes (hextent : extent < 2 ^ 32) {i p next fuel e : ℕ}
    {want : Option (Node × Ftype)} (hname : dir.Direct l i (p + direntSize) (v.nameLen dir l p))
    (hpos : int32 (add32 p direntSize : ℕ) = (p + direntSize : ℕ))
    (hstop : v.StopsAt dir l p name → want = v.entryAt dir l p)
    (hgo : ¬ v.StopsAt dir l p name → Takes extent l (On env k v root nest) e
      (iterate env extent k dir name fuel next) fun found s =>
        On env k v root nest s ∧ Finds want found) :
    Takes extent l (On env k v root nest) (nodeSize + 4 + e)
      (nameRound env extent k dir name (v.dirent dir l p) p (v.nameLen dir l p) next fuel)
      fun found s => On env k v root nest s ∧ Finds want found := by
  have hnone : ∀ c, Takes extent l (On env k v root nest) c (pure none) fun found s =>
      On env k v root nest s ∧ Finds want found := fun c =>
    (Prog.Spends.ret none fun s hs => ⟨hs, finds_none want⟩).within (Nat.zero_le c)
  have hnamed := hname.pos
  have hlen : v.nameLen dir l p ≤ 256 := (byteAt _ 6).toNat_lt.le
  have hmalloc : Takes extent l (On env k v root nest) (nodeSize + 4) (malloc extent nodeSize)
      fun _ => On env k v root nest :=
    malloc_takes (measures_used l) (fun s n hs => hs.pool n) hextent nodeSize
  unfold nameRound
  rw [hpos]
  refine (readObject_takes hdone hname hlen).bind_free fun got => ?_
  obtain ⟨status, filename⟩ := got
  refine Prog.Spends.given ?_
  rintro ⟨-, ⟨hstatus, hbytes⟩ | ⟨hstatus, -⟩⟩
  · dsimp only at hstatus hbytes ⊢
    have hbytes : filename.take (v.nameLen dir l p) = v.nameBytes dir l p := hbytes
    rw [if_neg (by omega), hbytes]
    refine hmalloc.bind fun _ => ?_
    refine (entryNode_takes hdone dir p).bind_free fun found => ?_
    refine Prog.Spends.given fun hfound => ?_
    cases found with
    | none => exact hnone e
    | some f =>
      have hentry := hfound.of_some
      have hlive : v.direntEntry dir l p ≠ none := by
        rw [Ne, ← Volume.entryAt_none, hentry]
        exact Option.some_ne_none _
      unfold after
      dsimp only
      by_cases hsame : cstr (v.nameBytes dir l p) = name
      · have hwant := hstop ⟨hnamed.ne', .inr hsame⟩
        rw [if_pos hsame]
        refine (Prog.Spends.ret _ fun s hs => ⟨hs, fun g hg => ?_⟩).within (Nat.zero_le e)
        cases hg
        rw [hwant, hentry]
      · rw [if_neg hsame]
        exact hgo fun hstops => hstops.2.elim hlive hsame
  · dsimp only at hstatus ⊢
    rw [if_pos (by omega)]
    exact hnone _

/-- A round of the scan whose record has been read: it goes on, or stops there. -/
theorem dirent_takes (hextent : extent < 2 ^ 32) (hsizes : dir.Blocks l)
    (hlisted : v.Listed dir l) {fuel n p : ℕ} {rest : ℕ × Option (Node × Ftype)}
    (hrecord : v.IsRecord dir l n) (hp : v.record dir l n = p)
    (hrest : Takes extent l (On env k v root nest) (rest.1 * (nodeSize + 4))
      (iterate env extent k dir name fuel (v.record dir l (n + 1))) fun found s =>
        On env k v root nest s ∧ Finds rest.2 found) :
    Takes extent l (On env k v root nest)
      ((if v.nameLen dir l p = 0 then rest
        else if v.StopsAt dir l p name then (1, v.entryAt dir l p)
        else Prod.map Nat.succ id rest).1 * (nodeSize + 4))
      (if (byteAt (v.dirent dir l p) 6).toNat ≠ 0 then
        nameRound env extent k dir name (v.dirent dir l p) p
          (byteAt (v.dirent dir l p) 6).toNat (v.record dir l (n + 1)) fuel
      else iterate env extent k dir name fuel (v.record dir l (n + 1)))
      fun found s => On env k v root nest s ∧ Finds
        (if v.nameLen dir l p = 0 then rest
        else if v.StopsAt dir l p name then (1, v.entryAt dir l p)
        else Prod.map Nat.succ id rest).2 found := by
  subst hp
  obtain ⟨-, hpos8⟩ := hlisted.positions hsizes.le hrecord
  have hroom := hlisted.room n hrecord
  by_cases hnamed : v.nameLen dir l (v.record dir l n) = 0
  · have hzero : ¬ (byteAt (v.dirent dir l (v.record dir l n)) 6).toNat ≠ 0 :=
      not_not_intro hnamed
    rw [if_pos hnamed, if_neg hzero]
    exact hrest
  · have hsome : (byteAt (v.dirent dir l (v.record dir l n)) 6).toNat ≠ 0 := hnamed
    rw [if_neg hnamed, if_pos hsome]
    have hname := hlisted.direct_of hsizes hrecord (m := v.nameLen dir l (v.record dir l n))
      (Nat.pos_of_ne_zero hnamed) (Nat.le_add_right _ direntSize) (by omega)
    by_cases hstop : v.StopsAt dir l (v.record dir l n) name
    · rw [if_pos hstop]
      have htakes : nodeSize + 4 + 0 ≤ 1 * (nodeSize + 4) := by rw [Nat.one_mul]
      exact (nameRound_takes hdone hextent (e := 0) hname hpos8 (fun _ => rfl)
        fun hgo => absurd hstop hgo).within htakes
    · rw [if_neg hstop]
      have htakes : nodeSize + 4 + rest.1 * (nodeSize + 4) ≤ (rest.1 + 1) * (nodeSize + 4) := by
        rw [Nat.succ_mul, Nat.add_comm]
      exact (nameRound_takes hdone hextent hname hpos8 (fun hgo => absurd hgo hstop)
        fun _ => hrest).within htakes

/-- The scan from record `n` on finds what the contents say, or nothing. -/
theorem iterate_takes (hextent : extent < 2 ^ 32) (hsizes : dir.Blocks l)
    (hlisted : v.Listed dir l) {fuel g n : ℕ} (hrec : ∀ m < n, v.record dir l m < dir.size)
    (hle : v.record dir l n ≤ dir.size) (hg : dir.size ≤ v.record dir l n + 8 * g)
    (hfuel : dir.size < v.record dir l n + 8 * fuel) :
    Takes extent l (On env k v root nest)
      ((v.scanFrom dir l name g (v.record dir l n)).1 * (nodeSize + 4))
      (iterate env extent k dir name fuel (v.record dir l n)) fun found s =>
        On env k v root nest s ∧ Finds (v.scanFrom dir l name g (v.record dir l n)).2 found := by
  induction fuel generalizing g n with
  | zero => omega
  | succ fuel ih =>
    by_cases hp : v.record dir l n < dir.size
    · have hrecord : v.IsRecord dir l n := fun m hm => by
        rcases Nat.lt_or_eq_of_le hm with hm | rfl
        · exact hrec m hm
        · exact hp
      obtain ⟨-, hup, hnextle⟩ := hlisted.next hsizes.le hrecord
      obtain ⟨hpos, -⟩ := hlisted.positions hsizes.le hrecord
      have hroom := hlisted.room n hrecord
      obtain ⟨g, rfl⟩ : ∃ g', g = g' + 1 := ⟨g - 1, by omega⟩
      have hrest := ih (g := g) (n := n + 1)
        (fun m hm => hrecord m (by omega)) hnextle (by omega) (by omega)
      have hscan : v.scanFrom dir l name (g + 1) (v.record dir l n) =
          if v.nameLen dir l (v.record dir l n) = 0 then
            v.scanFrom dir l name g (v.record dir l (n + 1))
          else if v.StopsAt dir l (v.record dir l n) name then
            (1, v.entryAt dir l (v.record dir l n))
          else Prod.map Nat.succ id (v.scanFrom dir l name g (v.record dir l (n + 1))) :=
        if_neg (Nat.not_le_of_lt hp)
      rw [hscan]
      intro s hs hfit
      obtain ⟨status, dirent, s1, hrun, hreads, hlen, hgot⟩ := readObject_direct hdone extent k
        (hlisted.direct_of hsizes hrecord (m := direntSize) (by decide) (le_refl _) (by omega))
        (le_refl direntSize) s
      have hs1 := hs.reads hreads
      rw [← (measures_used l).reads s s1 hreads] at hfit ⊢
      rw [← hpos] at hrun
      rcases hgot with ⟨rfl, hbytes⟩ | ⟨rfl, -⟩
      · rw [List.take_of_length_le hlen.le, hs.volume] at hbytes
        obtain rfl : dirent = v.dirent dir l (v.record dir l n) := hbytes
        rw [iterate_of_dirent hp hrun]
        exact dirent_takes hdone hextent hsizes hlisted hrecord rfl hrest s1 hs1 hfit
      · have hstatus : (-1 : ℤ) < 1 := by norm_num
        unfold iterate
        rw [if_pos hp, Prog.bind_ok hrun]
        dsimp only
        rw [if_pos hstatus]
        exact ((Prog.Spends.ret none fun s hs => ⟨hs, finds_none _⟩).within (Nat.zero_le _))
          s1 hs1 hfit
    · unfold iterate
      rw [if_neg hp]
      exact (Prog.Spends.ret none fun s hs => ⟨hs, finds_none _⟩).within (Nat.zero_le _)

end Scan

/-! ## The names of a path -/

theorem Node.Blocks.congr {node dir : Node} {l : ℕ} (h : node.Blocks l)
    (hsame : dir.sblock = node.sblock) : dir.Blocks l := by
  obtain ⟨hlog2, hblksz, hone, hle⟩ := h
  unfold Node.log2 at hlog2
  unfold Node.blksz at hblksz
  rw [← hsame] at hlog2 hblksz
  exact ⟨hlog2, hblksz, hone, hle⟩

/-- The lookup `t` from `nest` links on has come to the node and the type `f`. -/
structure Arrives (root : Node) (nest : ℕ) (t : Trace) (f : Node × Ftype) : Prop where
  found : t.found = some (f.1.bare, f.2)
  sblock : f.1.sblock = root.sblock
  le : nest ≤ t.nest
  lt : t.nest < 8

/-- The code has come to where the lookup `t` comes, or has found nothing. -/
structure Reaches (env : Env) (k : KernelSource) (v : Volume) (root : Node) (nest : ℕ) (t : Trace)
    (found : Option (Node × Ftype)) (s : St) : Prop where
  on : ∃ n, On env k v root n s
  arrives : ∀ f, found = some f → On env k v root t.nest s ∧ Arrives root nest t f

/-- The code goes on from what has been found. -/
def goOn (f : Node → Ftype → Phase2 (Option (Node × Ftype))) :
    Option (Node × Ftype) → Phase2 (Option (Node × Ftype))
  | none => pure none
  | some (node, type) => f node type

/-- The part of `findNames` that follows the link `next`. -/
def linkRound (env : Env) (extent : ℕ) (k : KernelSource)
    (follow : List Byte → Node → Phase2 (Option (Node × Ftype))) (node next : Node) :
    Phase2 (Option (Node × Ftype)) := do
  Prog.modify fun s => { s with symlinknest := s.symlinknest + 1 }
  let s ← Prog.get
  if s.symlinknest = 8 then pure none else do
    let symlink ← ext2fsReadSymlink env extent k next
    match symlink with
    | none => pure none
    | some symlink => follow symlink (if symlink.head? = some 0x2f then s.root.getD node else node)

/-- The part of `findNames` for one name. -/
def pathRound (env : Env) (extent : ℕ) (k : KernelSource) (fuel : ℕ)
    (follow : List Byte → Node → Phase2 (Option (Node × Ftype))) (node : Node) (name : List Byte) :
    Phase2 (Option (Node × Ftype)) := do
  let found ← ext2fsIterateDir env extent k fuel node name
  match found with
  | none => pure none
  | some (next, .symlink) => linkRound env extent k follow node next
  | some (next, type) => pure (some (next, type))

theorem findNames_cons (env : Env) (extent : ℕ) (k : KernelSource) (fuel : ℕ)
    (follow : List Byte → Node → Phase2 (Option (Node × Ftype))) (name : List Byte)
    (names : List (List Byte)) (node : Node) :
    findNames env extent k fuel follow (name :: names) node .directory =
      pathRound env extent k fuel follow node name >>=
        goOn (findNames env extent k fuel follow names) := by
  conv_lhs => unfold findNames
  unfold pathRound
  rw [if_neg (not_not_intro rfl), Prog.bind_assoc]
  refine congrArg _ (funext fun found => ?_)
  rcases found with _ | ⟨next, type⟩
  · rfl
  cases type with
  | symlink =>
    dsimp only
    unfold linkRound
    rw [Prog.bind_assoc]
    refine congrArg _ (funext fun _ => ?_)
    rw [Prog.bind_assoc]
    refine congrArg _ (funext fun s => ?_)
    by_cases hdeep : s.symlinknest = 8
    · rw [if_pos hdeep, if_pos hdeep]
      rfl
    · rw [if_neg hdeep, if_neg hdeep, Prog.bind_assoc]
      refine congrArg _ (funext fun symlink => ?_)
      cases symlink with
      | none => rfl
      | some symlink =>
        dsimp only
        refine congrArg _ (funext fun found => ?_)
        cases found <;> rfl
  | unknown => rfl
  | reg => rfl
  | directory => rfl

section Paths

variable {env : Env} (hdone : ∀ n, env.outcome n = .done) {extent : ℕ}
  (hextent : extent < 2 ^ 32) {k : KernelSource} {v : Volume} {root node : Node} {l nest : ℕ}
  (hroot : root.Blocks l) {fuel : ℕ} (hfuel : 2 ^ 17 ≤ fuel)

theorem takes_none {t : Trace} {n : ℕ} (c : ℕ) :
    Takes extent l (On env k v root n) c (pure none) (Reaches env k v root nest t) :=
  (Prog.Spends.ret none fun s hs => ⟨⟨n, hs⟩, fun f hf => by cases hf⟩).within (Nat.zero_le c)

theorem Reaches.mono {n : ℕ} {t : Trace} {found : Option (Node × Ftype)} {s : St}
    (h : Reaches env k v root nest t found s) (hn : n ≤ nest) : Reaches env k v root n t found s := by
  refine ⟨h.on, fun f hf => ?_⟩
  obtain ⟨hon, harrives⟩ := h.arrives f hf
  exact ⟨hon, harrives.found, harrives.sblock, hn.trans harrives.le, harrives.lt⟩

theorem Reaches.behind {t : Trace} {found : Option (Node × Ftype)} {s : St}
    (h : Reaches env k v root nest t found s) (m : Met) :
    Reaches env k v root nest (t.behind m) found s := by
  refine ⟨h.on, fun f hf => ?_⟩
  obtain ⟨hon, harrives⟩ := h.arrives f hf
  exact ⟨hon, harrives.found, harrives.sblock, harrives.le, harrives.lt⟩

/-- What comes before and what comes behind. -/
theorem goOn_takes {x : Phase2 (Option (Node × Ftype))}
    {f : Node → Ftype → Phase2 (Option (Node × Ftype))} {t : Trace}
    {g : Node → Ftype → ℕ → Trace}
    (hx : Takes extent l (On env k v root nest) t.takes x (Reaches env k v root nest t))
    (hf : ∀ node type, Arrives root nest t (node, type) →
      Takes extent l (On env k v root t.nest) (g node.bare type t.nest).takes (f node type)
        (Reaches env k v root t.nest (g node.bare type t.nest))) :
    Takes extent l (On env k v root nest) (t.bind g).takes (x >>= goOn f)
      (Reaches env k v root nest (t.bind g)) := by
  rcases hfound : t.found with _ | ⟨node', type'⟩
  · -- the lookup ends here, and so does the code
    rw [Trace.bind_none hfound]
    refine (hx.bind (d := 0) fun found => ?_).within (Nat.add_zero _).le
    intro s hs
    cases found with
    | none => exact Prog.Spends.ret none (fun s hs => hs) s hs
    | some f =>
      have hsome := (hs.arrives f rfl).2.found
      rw [hfound] at hsome
      cases hsome
  · rw [Trace.takes_bind hfound]
    refine hx.bind fun found => ?_
    intro s hs
    cases found with
    | none =>
      refine ((Prog.Spends.ret none fun s hs => ⟨hs.on, fun f hf => ?_⟩).within
        (Nat.zero_le _)) s hs
      cases hf
    | some f =>
      obtain ⟨node, type⟩ := f
      obtain ⟨hon, harrives⟩ := hs.arrives (node, type) rfl
      have hsome := harrives.found
      rw [hfound] at hsome
      cases hsome
      refine (hf node type harrives).post (fun found s hs => ⟨hs.on, fun f hf => ?_⟩) s hon
      obtain ⟨hon, hthere⟩ := hs.arrives f hf
      rw [Trace.bind_some hfound]
      exact ⟨hon, hthere.found, hthere.sblock, harrives.le.trans hthere.le, hthere.lt⟩

include hdone

/-- The scan of the directory `node`. -/
theorem iterateDir_takes (hextent : extent < 2 ^ 32) (hfuel : 2 ^ 17 ≤ fuel) {dir : Node}
    (hdir : v.loaded node = some dir) (hsizes : dir.Blocks l) (hlisted : v.Listed dir l)
    (name : List Byte) :
    Takes extent l (On env k v root nest) ((v.lookup dir l name).1 * (nodeSize + 4))
      (ext2fsIterateDir env extent k fuel node name) fun found s =>
        On env k v root nest s ∧ Finds (v.lookup dir l name).2 found := by
  have hblock := blockBytes_le hsizes.le
  have hdirect := hlisted.direct
  have hscan : Takes extent l (On env k v root nest)
      ((v.lookup dir l name).1 * (nodeSize + 4)) (iterate env extent k dir name fuel 0)
      fun found s => On env k v root nest s ∧ Finds (v.lookup dir l name).2 found := by
    have hstart : dir.size ≤ 0 + 8 * (dir.size / 8 + 1) := by omega
    have hend : dir.size < 0 + 8 * fuel := by omega
    exact iterate_takes hdone hextent hsizes hlisted (n := 0)
      (fun m hm => absurd hm (Nat.not_lt_zero m)) (Nat.zero_le _) hstart hend
  unfold ext2fsIterateDir
  refine (readNode_takes hdone node).bind_free fun got => ?_
  refine Prog.Spends.given fun hgot => ?_
  cases got with
  | none => exact (Prog.Spends.ret none fun s hs => ⟨hs, finds_none _⟩).within (Nat.zero_le _)
  | some dir' =>
    have hsame := hgot.of_some
    rw [hdir] at hsame
    cases hsame
    exact hscan

/-- Nothing is found in a directory whose inode cannot be read. -/
theorem iterateDir_unread (hdir : v.loaded node = none) (name : List Byte) :
    Takes extent l (On env k v root nest) 0 (ext2fsIterateDir env extent k fuel node name)
      fun found s => On env k v root nest s ∧ found = none := by
  unfold ext2fsIterateDir
  refine (readNode_takes hdone node).bind_free fun got => ?_
  refine Prog.Spends.given fun hgot => ?_
  cases got with
  | none => exact Prog.Spends.ret none fun s hs => ⟨hs, rfl⟩
  | some dir =>
    have hsome := hgot.of_some
    rw [hdir] at hsome
    cases hsome

/-- The target of the link `node`. -/
theorem readSymlink_takes (hextent : extent < 2 ^ 32) {link : Node}
    (hlink : v.loaded node = some link) (hsizes : link.Blocks l)
    (hlinked : v.Linked env link l) :
    Takes extent l (On env k v root nest) (Met.followed link).takes
      (ext2fsReadSymlink env extent k node) fun got s =>
        On env k v root nest s ∧ ∀ target, got = some target → target = v.target link l := by
  have hmalloc : Takes extent l (On env k v root nest) (Met.followed link).takes
      (malloc extent ((link.size + 1) % 2 ^ 32)) fun _ => On env k v root nest :=
    malloc_takes (measures_used l) (fun s n hs => hs.pool n) hextent _
  unfold ext2fsReadSymlink
  refine (readNode_takes hdone node).bind_free fun got => ?_
  refine Prog.Spends.given fun hgot => ?_
  cases got with
  | none =>
    exact (Prog.Spends.ret none fun s hs => ⟨hs, fun t ht => by cases ht⟩).within (Nat.zero_le _)
  | some link' =>
    have hsame := hgot.of_some
    rw [hlink] at hsame
    cases hsame
    refine (hmalloc.bind (d := 0) fun _ => ?_).within (Nat.add_zero _).le
    unfold Volume.target
    by_cases hshort : link.size < 60
    · rw [if_pos hshort, if_pos hshort]
      exact Prog.Spends.ret _ fun s hs => ⟨hs, fun t ht => (Option.some.inj ht).symm⟩
    · rw [if_neg hshort, if_neg hshort]
      obtain ⟨hw, hsize, hne, hplaced⟩ := hlinked.resolve_left hshort
      have hdirect : link.Direct l 0 0 link.size :=
        ⟨hsizes, by norm_num, hne, hplaced.1, by omega, (Nat.zero_mul _).le, by omega, le_refl _⟩
      have hread : Takes extent l (On env k v root nest) 0
          (readObject env extent k link (0 : ℕ) link.size (link.size + 1)) fun got s =>
          On env k v root nest s ∧ got.2.length = link.size + 1 ∧
            (got.1 = link.size ∧ got.2.take link.size = v.bytes link l 0 link.size ∨
              got.1 = -1 ∧ ¬ (env.Works ∧ v.Placed l (link.dirBlock 0))) :=
        readObject_takes hdone hdirect (Nat.le_succ link.size)
      rw [Nat.cast_zero] at hread
      refine (Prog.Spends.exitIf notFull_corrupt).bind_free fun _ => ?_
      refine Prog.Spends.given fun _ => ?_
      refine hread.bind_free fun got => ?_
      obtain ⟨status, symlink⟩ := got
      refine Prog.Spends.given ?_
      rintro ⟨-, ⟨hstatus, hbytes⟩ | ⟨-, hbad⟩⟩
      · dsimp only at hstatus hbytes ⊢
        rw [if_neg (by omega), hbytes]
        exact Prog.Spends.ret _ fun s hs => ⟨hs, fun t ht => (Option.some.inj ht).symm⟩
      · exact absurd ⟨hw, hplaced⟩ hbad

/-- The target of a link whose inode cannot be read. -/
theorem readSymlink_unread (hlink : v.loaded node = none) :
    Takes extent l (On env k v root nest) 0 (ext2fsReadSymlink env extent k node)
      fun got s => On env k v root nest s ∧ got = none := by
  unfold ext2fsReadSymlink
  refine (readNode_takes hdone node).bind_free fun got => ?_
  refine Prog.Spends.given fun hgot => ?_
  cases got with
  | none => exact Prog.Spends.ret none fun s hs => ⟨hs, rfl⟩
  | some link =>
    have hsome := hgot.of_some
    rw [hlink] at hsome
    cases hsome

section Follow

variable {follow : List Byte → Node → Phase2 (Option (Node × Ftype))}
  {trail : List Byte → Node → ℕ → Trace} {low : ℕ}

/-- `follow` looks up the target of link `nest`, from number `low` on, as `trail` says. -/
def Follows (env : Env) (extent : ℕ) (k : KernelSource) (v : Volume) (root : Node) (l low : ℕ)
    (follow : List Byte → Node → Phase2 (Option (Node × Ftype)))
    (trail : List Byte → Node → ℕ → Trace) : Prop :=
  ∀ target node nest, node.sblock = root.sblock → low ≤ nest → nest < 8 →
    (trail target node.bare nest).Sound env v l →
      Takes extent l (On env k v root nest) (trail target node.bare nest).takes
        (follow target node) (Reaches env k v root nest (trail target node.bare nest))

include hextent hroot

theorem linkRound_takes (hfollow : Follows env extent k v root l low follow trail)
    (hread : root.inodeRead = true) {next : Node} (hnode : node.sblock = root.sblock)
    (hnext : next.sblock = root.sblock) (hlow : low ≤ nest + 1) (hnest : nest < 8)
    (hsound : (v.followLink l root trail node.bare next.bare (nest + 1)).Sound env v l) :
    Takes extent l (On env k v root nest)
      (v.followLink l root trail node.bare next.bare (nest + 1)).takes
      (linkRound env extent k follow node next)
      (Reaches env k v root nest (v.followLink l root trail node.bare next.bare (nest + 1))) := by
  have hcount : Takes extent l (On env k v root nest) 0
      (Prog.modify fun s => { s with symlinknest := s.symlinknest + 1 })
      fun _ => On env k v root (nest + 1) :=
    Prog.Spends.modify fun s hs =>
      ⟨⟨hs.volume, hs.root, congrArg (· + 1) hs.nest⟩, le_refl _⟩
  unfold linkRound
  refine hcount.bind_free fun _ => ?_
  refine Prog.Spends.get_bind fun s hs => ?_
  rw [hs.nest, hs.root, Option.getD_some]
  unfold Volume.followLink at hsound ⊢
  by_cases hdeep : nest + 1 = 8
  · rw [if_pos hdeep, if_pos hdeep]
    exact takes_none _
  · rw [if_neg hdeep] at hsound ⊢
    rw [if_neg hdeep]
    rw [v.loaded_bare] at hsound ⊢
    rcases hlink : v.loaded next with _ | link
    · refine (readSymlink_unread hdone hlink).bind_free fun got => ?_
      refine Prog.Spends.given fun hgot => ?_
      rw [hgot]
      exact takes_none 0
    · rw [hlink] at hsound
      dsimp only at hsound ⊢
      obtain ⟨hlinked, hsound⟩ := Trace.sound_behind.mp hsound
      rw [Trace.takes_behind]
      have hsizes := hroot.congr ((Volume.loaded_sblock hlink).trans hnext)
      refine (readSymlink_takes hdone hextent hlink hsizes hlinked).bind fun got => ?_
      refine Prog.Spends.given fun hgot => ?_
      cases got with
      | none => exact takes_none _
      | some symlink =>
        rw [hgot symlink rfl]
        -- the node behind the link starts from, in the code and in the lookup
        have hstart : (if (v.target link l).head? = some 0x2f then root else node).bare =
            if (v.target link l).head? = some 0x2f then root else node.bare := by
          split_ifs
          · exact Node.bare_of_read hread
          · rfl
        have hsame : (if (v.target link l).head? = some 0x2f then root else node).sblock =
            root.sblock := by
          split_ifs
          · rfl
          · exact hnode
        rw [← hstart] at hsound ⊢
        exact (hfollow _ _ _ hsame hlow (by omega) hsound).post fun found s hs =>
          (hs.mono (Nat.le_succ nest)).behind _

include hfuel

/-- One name of a path. -/
theorem pathRound_takes (hfollow : Follows env extent k v root l low follow trail)
    (hread : root.inodeRead = true) (name : List Byte) (hnode : node.sblock = root.sblock)
    (hlow : low ≤ nest + 1) (hnest : nest < 8)
    (hsound : (v.findName l root trail node.bare name nest).Sound env v l) :
    Takes extent l (On env k v root nest) (v.findName l root trail node.bare name nest).takes
      (pathRound env extent k fuel follow node name)
      (Reaches env k v root nest (v.findName l root trail node.bare name nest)) := by
  unfold pathRound
  unfold Volume.findName at hsound ⊢
  rw [v.loaded_bare] at hsound ⊢
  rcases hdir : v.loaded node with _ | dir
  · refine (iterateDir_unread hdone hdir name).bind_free fun found => ?_
    refine Prog.Spends.given fun hfound => ?_
    rw [hfound]
    exact takes_none 0
  · rw [hdir] at hsound
    dsimp only at hsound ⊢
    obtain ⟨hlisted, hsound⟩ := Trace.sound_behind.mp hsound
    rw [Trace.takes_behind]
    have hsblock := (Volume.loaded_sblock hdir).trans hnode
    refine (iterateDir_takes hdone hextent hfuel hdir (hroot.congr hsblock) hlisted name).bind
      fun found => ?_
    refine Prog.Spends.given fun hfound => ?_
    cases found with
    | none => exact takes_none _
    | some f =>
      obtain ⟨next, type⟩ := f
      have hlookup := hfound (next, type) rfl
      have hnext : next.sblock = root.sblock := by
        rw [← next.bare_sblock, ← hsblock]
        exact v.lookup_sblock hlookup
      rw [hlookup] at hsound ⊢
      have harrived : Takes extent l (On env k v root nest) 0 (pure (some (next, type)))
          (Reaches env k v root nest (.ends nest (some (next.bare, type)))) :=
        Prog.Spends.ret _ fun s hs => ⟨⟨nest, hs⟩, fun f hf => by
          cases hf
          exact ⟨hs, rfl, hnext, le_refl _, hnest⟩⟩
      cases type with
      | symlink =>
        exact (linkRound_takes hdone hextent hroot hfollow hread hnode hnext hlow hnest hsound).post
          fun found s hs => hs.behind _
      | unknown => exact harrived.post fun found s hs => hs.behind _
      | reg => exact harrived.post fun found s hs => hs.behind _
      | directory => exact harrived.post fun found s hs => hs.behind _

/-- The names of a path, one after the other. -/
theorem findNames_takes (hfollow : Follows env extent k v root l low follow trail)
    (hread : root.inodeRead = true) (names : List (List Byte)) (type : Ftype)
    (hnode : node.sblock = root.sblock) (hlow : low ≤ nest + 1) (hnest : nest < 8)
    (hsound : (v.findNames l root trail names node.bare type nest).Sound env v l) :
    Takes extent l (On env k v root nest) (v.findNames l root trail names node.bare type nest).takes
      (findNames env extent k fuel follow names node type)
      (Reaches env k v root nest (v.findNames l root trail names node.bare type nest)) := by
  induction names generalizing node type nest with
  | nil =>
    exact Prog.Spends.ret _ fun s hs => ⟨⟨nest, hs⟩, fun f hf => by
      cases hf
      exact ⟨hs, rfl, hnode, le_refl _, hnest⟩⟩
  | cons name names ih =>
    unfold Volume.findNames at hsound ⊢
    by_cases htype : type = .directory
    · rw [if_neg (not_not_intro htype)] at hsound ⊢
      rw [htype, findNames_cons]
      refine goOn_takes (pathRound_takes hdone hextent hroot hfuel hfollow hread name hnode hlow
        hnest hsound.of_bind) fun node type harrives => ?_
      have hrest := ((Trace.sound_bind harrives.found).mp hsound).2
      exact ih type harrives.sblock (hlow.trans (Nat.succ_le_succ harrives.le)) harrives.lt hrest
    · unfold findNames
      rw [if_pos htype, if_pos htype]
      exact takes_none _

end Follow

include hextent hroot hfuel

/-- A path, with its links. -/
theorem ext2fsFindFile1_takes (hread : root.inodeRead = true) {depth : ℕ} (path : List Byte)
    (type : Ftype) (hnode : node.sblock = root.sblock) (hlow : 8 ≤ depth + nest) (hnest : nest < 8)
    (hsound : (v.findFile1 l root depth path node.bare type nest).Sound env v l) :
    Takes extent l (On env k v root nest) (v.findFile1 l root depth path node.bare type nest).takes
      (ext2fsFindFile1 env extent k fuel depth path node type)
      (Reaches env k v root nest (v.findFile1 l root depth path node.bare type nest)) := by
  induction depth generalizing path node type nest with
  | zero => omega
  | succ depth ih =>
    unfold Volume.findFile1 at hsound ⊢
    unfold ext2fsFindFile1
    by_cases hempty : components path = []
    · rw [if_pos hempty, if_pos hempty]
      exact Prog.Spends.ret _ fun s hs => ⟨⟨nest, hs⟩, fun f hf => by
        cases hf
        exact ⟨hs, rfl, hnode, le_refl _, hnest⟩⟩
    · rw [if_neg hempty] at hsound ⊢
      rw [if_neg hempty]
      have hfollow : Follows env extent k v root l (8 - depth)
          (fun symlink node => ext2fsFindFile1 env extent k fuel depth symlink node .symlink)
          (fun target node => v.findFile1 l root depth target node .symlink) :=
        fun target node n hsame hn hn8 hs => ih target .symlink hsame (by omega) hn8 hs
      exact findNames_takes hdone hextent hroot hfuel hfollow hread _ _ hnode (by omega) hnest hsound

/-- The volume `v` is selected and mounted. -/
def Mounted (env : Env) (k : KernelSource) (v : Volume) (root : Node) (s : St) : Prop :=
  ∃ n, On env k v root n s

/-- A regular file, from the root directory on. -/
theorem ext2fsFindFile_takes (hread : root.inodeRead = true) (path : Option (List Byte))
    (hsound : (v.findFile l root path).Sound env v l) :
    Takes extent l (Mounted env k v root) (v.findFile l root path).takes
      (ext2fsFindFile env extent k fuel path root) fun found s =>
        Mounted env k v root s ∧ ∀ node, found = some node → node.sblock = root.sblock := by
  have hstart : Takes extent l (Mounted env k v root) 0
      (Prog.modify fun s => { s with symlinknest := 0 }) fun _ => On env k v root 0 :=
    Prog.Spends.modify fun s hs => ⟨⟨hs.choose_spec.volume, hs.choose_spec.root, rfl⟩, le_refl _⟩
  unfold ext2fsFindFile
  refine hstart.bind_free fun _ => ?_
  cases path with
  | none => exact Prog.Spends.ret none fun s hs => ⟨⟨0, hs⟩, fun node hnode => by cases hnode⟩
  | some path =>
    have hfind : Takes extent l (On env k v root 0)
        (v.findFile1 l root 8 path root .directory 0).takes
        (ext2fsFindFile1 env extent k fuel 8 path root .directory)
        (Reaches env k v root 0 (v.findFile1 l root 8 path root .directory 0)) := by
      have hbare := Node.bare_of_read hread
      have hsound' : (v.findFile1 l root 8 path root.bare .directory 0).Sound env v l := by
        rw [hbare]
        exact hsound
      have hfind := ext2fsFindFile1_takes hdone hextent hroot hfuel hread (k := k) path .directory
        rfl (Nat.le_refl 8) (by norm_num) hsound'
      rwa [hbare] at hfind
    refine (hfind.bind (d := 0) fun found => ?_).within (Nat.add_zero _).le
    intro s hs
    have hnone : Takes extent l (Reaches env k v root 0 (v.findFile1 l root 8 path root .directory 0)
        found) 0 (pure none) fun found s =>
          Mounted env k v root s ∧ ∀ node : Node, found = some node → node.sblock = root.sblock :=
      Prog.Spends.ret none fun s hs => ⟨hs.on, fun node hnode => by cases hnode⟩
    rcases found with _ | ⟨node, type⟩
    · exact hnone s hs
    cases type with
    | reg =>
      refine Prog.Spends.ret (some node) (fun s hs => ⟨hs.on, fun file hfile => ?_⟩) s hs
      cases hfile
      exact (hs.arrives _ rfl).2.sblock
    | unknown => exact hnone s hs
    | directory => exact hnone s hs
    | symlink => exact hnone s hs

/-- The file that is open lies on the volume. -/
def Opens (env : Env) (k : KernelSource) (v : Volume) (root : Node) (s : St) : Prop :=
  Mounted env k v root s ∧ ∃ file, s.file = some file ∧ file.sblock = root.sblock

/-- A file that is opened. -/
theorem ext2fsOpen_takes (hread : root.inodeRead = true) (path : Option (List Byte))
    (hsound : (v.findFile l root path).Sound env v l) :
    Takes extent l (Mounted env k v root) (v.findFile l root path).takes
      (ext2fsOpen env extent k fuel path) fun len s =>
        Mounted env k v root s ∧ (0 ≤ len → Opens env k v root s) := by
  have hclose : ∀ file, Takes extent l (Mounted env k v root) 0
      (Prog.modify fun s => { s with file := file }) fun _ s =>
        Mounted env k v root s ∧ s.file = file := fun file =>
    Prog.Spends.modify fun s hs => by
      obtain ⟨n, hn⟩ := hs
      exact ⟨⟨⟨n, hn.volume, hn.root, hn.nest⟩, rfl⟩, le_refl _⟩
  have hfail : ∀ len : ℤ, len < 0 → Takes extent l (Mounted env k v root) 0 (pure len)
      fun len s => Mounted env k v root s ∧ (0 ≤ len → Opens env k v root s) := fun len hlen =>
    Prog.Spends.ret len fun s hs => ⟨hs, fun hge => absurd hge (not_le.mpr hlen)⟩
  unfold ext2fsOpen
  refine Prog.Spends.get_bind fun s hs => ?_
  obtain ⟨n, hn⟩ := hs
  rw [hn.root]
  dsimp only
  refine (hclose none).bind_free fun _ => ?_
  refine (((ext2fsFindFile_takes hdone hextent hroot hfuel hread path hsound).conseq
    (fun s hs => hs.1) (fun _ _ h => h) (le_refl _)).bind (d := 0) fun found => ?_).within
      (Nat.add_zero _).le
  refine Prog.Spends.given fun hfound => ?_
  cases found with
  | none => exact hfail (-2) (by norm_num)
  | some node =>
    have hnode := hfound node rfl
    dsimp only
    have hload : Takes extent l (Mounted env k v root) 0 (readNode env k node) fun got s =>
        Mounted env k v root s ∧ ∀ file, got = some file → file.sblock = root.sblock := by
      intro s hs
      obtain ⟨n, hn⟩ := hs
      refine (readNode_takes hdone node).post (fun got s hs => ⟨⟨n, hs.1⟩, fun file hfile => ?_⟩)
        s hn
      obtain ⟨-, hgot⟩ := hs
      rw [hfile] at hgot
      exact (Volume.loaded_sblock hgot.of_some).trans hnode
    refine hload.bind_free fun got => ?_
    refine Prog.Spends.given fun hgot => ?_
    cases got with
    | none => exact hfail (-3) (by norm_num)
    | some file =>
      refine (hclose (some file)).bind_free fun _ => ?_
      exact Prog.Spends.ret _ fun s hs => ⟨hs.1, fun _ => ⟨hs.1, file, hs.2, hgot file rfl⟩⟩

end Paths

end SmartQ.Qi
