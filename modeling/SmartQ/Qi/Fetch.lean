import SmartQ.Qi.Contents
import SmartQ.Qi.Delivered

/-!
# What `read_file` reads

`read_file` of `qi/src/phase2.c`, apart from where it stores what it reads, over every
outcome of the device reads.

* `readFile_eq`: the value and the stores of `read_file`.
* `fetchFile_frame`: what it leaves alone.
* `ext2fsReadFile_complete_iff`, `ext2fsReadFile_delivers`: when a file is read, and what is
  then delivered.
-/

namespace SmartQ.Qi

open SmartQ.Lib

section Fetch

variable (env : Env) (extent fuel : ℕ) (k : KernelSource)

/-- The value of `read_file` and its stores in the destination. -/
def fetchFile (filepath : Option (List Byte)) (size : ℤ) : Phase2 (ℤ × List Write) :=
  if k.filesystem = .ext2 then do
    let mounted ← ext2fsMount env extent k
    if mounted then do
      let len ← ext2fsOpen env extent k fuel filepath
      if len < 0 then pure (-1, []) else do
        let (ret, ws) ← ext2fsRead env extent k (toU32 size)
        pure (if ret < 0 then -1 else len, ws)
    else pure (-2, [])
  else if filepath ≠ none then pure (-1, [])
  else do
    Prog.exitIf (size < 0) .corrupt
    let s ← Prog.get
    let (ret, bytes) ← blockRead env k s.partitionOffsetBlocks (size / 512).toNat
    pure (if ret < 0 then -1 else size, [(0, bytes)])

theorem patch_nil (bs : List Byte) : patch bs [] = bs := by
  apply List.ext_getElem
  · simp [patch]
  · intro j hj hj'
    simp [patch, overlay, byteAt_of_lt hj']

theorem deliver_nil (dest : Dest) : deliver dest [] = pure () := by
  funext s
  cases dest with
  | ram addr => rfl
  | append =>
    refine (Prog.exitIf_of_not (not_not_intro fun w hw => absurd hw List.not_mem_nil)).trans ?_
    rw [Prog.modify_apply, patch_nil]
    rfl

/-- `read_file` stores what it reads. -/
theorem readFile_eq (filepath : Option (List Byte)) (dest : Dest) (size : ℤ) :
    readFile env extent fuel k filepath dest size =
      fetchFile env extent fuel k filepath size >>= fun got =>
        deliver dest got.2 >>= fun _ => pure got.1 := by
  have hnone : ∀ got : ℤ, (pure (got, []) >>= fun got : ℤ × List Write =>
      deliver dest got.2 >>= fun _ => (pure got.1 : Phase2 ℤ)) = pure got := by
    intro got
    funext s
    show (deliver dest [] >>= fun _ => (pure got : Phase2 ℤ)) s = _
    rw [deliver_nil]
    rfl
  unfold readFile fetchFile
  by_cases hfs : k.filesystem = .ext2
  · rw [if_pos hfs, if_pos hfs, Prog.bind_assoc]
    refine bind_congr fun mounted => ?_
    cases mounted with
    | false => exact (hnone (-2)).symm
    | true =>
      simp only [if_true]
      rw [Prog.bind_assoc]
      refine bind_congr fun len => ?_
      by_cases hlen : len < 0
      · rw [if_pos hlen, if_pos hlen, hnone]
      · rw [if_neg hlen, if_neg hlen, Prog.bind_assoc]
        rfl
  · rw [if_neg hfs, if_neg hfs]
    by_cases hpath : filepath ≠ none
    · rw [if_pos hpath, if_pos hpath, hnone]
    · rw [if_neg hpath, if_neg hpath, Prog.bind_assoc]
      refine bind_congr fun _ => ?_
      rw [Prog.bind_assoc]
      refine bind_congr fun s => ?_
      rw [Prog.bind_assoc]
      rfl

end Fetch

/-! ## What it leaves alone -/

/-- The memory, the append buffer and the partition are as they were, and device reads are only
    added. -/
structure Fetches (s s' : St) : Prop where
  ram : s'.ram = s.ram
  append : s'.commandlineRootfsAppend = s.commandlineRootfsAppend
  offset : s'.partitionOffsetBlocks = s.partitionOffsetBlocks
  limit : s'.partitionLengthBlocks = s.partitionLengthBlocks
  le : s.reads ≤ s'.reads

theorem Fetches.refl (s : St) : Fetches s s := ⟨rfl, rfl, rfl, rfl, le_refl _⟩

theorem Fetches.trans (s s' s'' : St) (h : Fetches s s') (h' : Fetches s' s'') : Fetches s s'' :=
  ⟨h'.ram.trans h.ram, h'.append.trans h.append, h'.offset.trans h.offset,
    h'.limit.trans h.limit, h.le.trans h'.le⟩

theorem Reads.fetches {s s' : St} (h : Reads s s') : Fetches s s' := by
  refine ⟨?_, ?_, ?_, ?_, h.le⟩
  all_goals rw [h.eq]

theorem fetches_frame : Ext2Frame Fetches where
  refl := Fetches.refl
  trans := Fetches.trans
  reads _ _ h := h.fetches
  pool _ _ := ⟨rfl, rfl, rfl, rfl, le_refl _⟩
  table _ _ lv := by cases lv <;> exact ⟨rfl, rfl, rfl, rfl, le_refl _⟩
  nest _ _ := ⟨rfl, rfl, rfl, rfl, le_refl _⟩
  file _ _ := ⟨rfl, rfl, rfl, rfl, le_refl _⟩
  root _ _ := ⟨rfl, rfl, rfl, rfl, le_refl _⟩
  inodeSize _ _ := ⟨rfl, rfl, rfl, rfl, le_refl _⟩

/-- What reading an open file leaves alone besides. -/
def ReadsOpen (s s' : St) : Prop :=
  Fetches s s' ∧ s'.file = s.file ∧ s'.inodeSize = s.inodeSize

theorem readsOpen_frame : ReadFrame ReadsOpen where
  refl s := ⟨Fetches.refl s, rfl, rfl⟩
  trans s s' s'' h h' :=
    ⟨Fetches.trans s s' s'' h.1 h'.1, h'.2.1.trans h.2.1, h'.2.2.trans h.2.2⟩
  reads s s' h := by
    refine ⟨h.fetches, ?_, ?_⟩
    all_goals rw [h.eq]
  pool s n := ⟨fetches_frame.pool s n, rfl, rfl⟩
  table s t lv := ⟨fetches_frame.table s t lv, by cases lv <;> rfl, by cases lv <;> rfl⟩

section Frame

variable {env : Env} {extent fuel : ℕ} {k : KernelSource} {s s1 : St}

theorem ReadsOpen.volume (h : ReadsOpen s s1) : s1.volume env k = s.volume env k := by
  unfold St.volume
  rw [h.1.offset, h.1.limit, h.2.2]

theorem Undisturbed.within {s' s1' : St} (h : Undisturbed env s s1) (hs : Fetches s s')
    (hs1 : Fetches s1' s1) : Undisturbed env s' s1' :=
  fun n hn hlt => h n (hs.le.trans hn) (hlt.trans_le hs1.le)

/-- The frame of what is read. -/
theorem fetchFile_frame {filepath : Option (List Byte)} {size : ℤ} {r : Except Exit (ℤ × List Write)}
    (h : fetchFile env extent fuel k filepath size s = some (r, s1)) : Fetches s s1 := by
  have hR := fetches_frame
  have hF := fetches_frame.toReadFrame
  have hsteps : Tame Fetches fun e => fetchFile env e fuel k filepath size := by
    unfold fetchFile
    apply Tame.ite
    · apply Tame.bind hF (ext2fsMount_tame hR env k)
      intro mounted
      apply Tame.ite
      · apply Tame.bind hF (ext2fsOpen_tame hR.toOpenFrame env k _ _)
        intro len
        apply Tame.ite
        · exact Tame.ret hF _
        · apply Tame.bind hF (ext2fsRead_tame hF env k _)
          exact fun _ => Tame.ret hF _
      · exact Tame.ret hF _
    apply Tame.ite
    · exact Tame.ret hF _
    · apply Tame.bind hF (Tame.exitIf hF _ _)
      intro _
      apply Tame.bind hF (Tame.get hF)
      intro s
      apply Tame.bind hF (Tame.reads hF (blockRead_reads env k _ _))
      exact fun _ => Tame.ret hF _
  exact hsteps.steps extent s r s1 h

end Frame

/-! ## Reading an open file -/

/-- The block lookups and the device reads of a read of a file answer `map` and `reads`. -/
def Reading (env : Env) (extent : ℕ) (k : KernelSource) (node : Node) (len : ℕ) (s : St)
    (map : ℤ → ℤ) (reads : ℕ → Bool) : Prop :=
  Ext2.Answered (ext2fsReadBlock env extent k node) (ext2fsDevread env k) (request node 0 len) s map
    reads

section Open

variable {env : Env} {extent : ℕ} {k : KernelSource} {node : Node} {l len : ℕ} {s s1 : St} {ret : ℤ}
  {ws : List Write} {map : ℤ → ℤ} {reads : ℕ → Bool}

theorem request_fits (hblocks : node.Blocks l) (hlen : (request node 0 len).len < 2 ^ 31) :
    (request node 0 len).Fits l (512 * 2 ^ l) 0 := by
  have hle := hblocks.le
  have hpow : 2 ^ l ≤ 2 ^ 7 := Nat.pow_le_pow_right (by norm_num) hle
  constructor
  · simp only [request]
    exact hblocks.log2
  · exact hblocks.one_le
  · omega
  · rfl
  · rfl
  · norm_num
  · omega

/-- The sectors behind a sector are those behind its number as an `unsigned int`. -/
theorem partition_congr (offset : ℕ) {a b : ℕ} (z : ℕ) (h : a % 2 ^ 32 = b % 2 ^ 32) :
    partition env k offset (512 * a + z) = partition env k offset (512 * b + z) := by
  have hsector : (offset + (512 * a + z) / 512) % 2 ^ 32 =
      (offset + (512 * b + z) / 512) % 2 ^ 32 := by
    omega
  have hbyte : (512 * a + z) % 512 = (512 * b + z) % 512 := by omega
  unfold partition
  rw [hsector, hbyte]

theorem Reading.run (h : Reading env extent k node len s map reads) :
    ∃ ret ws s1, ext2fsReadFile env extent k node 0 len s = some (.ok (ret, ws), s1) := by
  obtain ⟨⟨ret, ws⟩, s1, a, hrec, -⟩ := h
  have hrun := (Ext2.recordFile_recording (ext2fsReadBlock env extent k node) (ext2fsDevread env k)
    (request node 0 len)).run_same hrec
  exact ⟨ret, ws, s1, hrun⟩

/-- The file is read exactly if all its blocks are found and read. -/
theorem ext2fsReadFile_complete_iff (hlen : (request node 0 len).len < 2 ^ 31)
    (hrun : ext2fsReadFile env extent k node 0 len s = some (.ok (ret, ws), s1))
    (ha : Reading env extent k node len s map reads) :
    (request node 0 len).Complete map reads ↔ 0 ≤ ret := by
  obtain ⟨x, s2, a, hrec, hagrees⟩ := ha
  have hsame := (Ext2.recordFile_recording (ext2fsReadBlock env extent k node) (ext2fsDevread env k)
    (request node 0 len)).run_same hrec
  unfold ext2fsReadFile at hrun
  rw [hrun] at hsame
  simp only [Option.some.injEq, Prod.mk.injEq, Except.ok.injEq] at hsame
  obtain ⟨rfl, rfl⟩ := hsame
  exact Ext2.recordFile_ok_iff (by norm_num [request]) (by norm_num [request]) hlen
    ext2fsReadBlock_int (devread_boundedInt env k) hrec hagrees

/-- If no device read fails on the way, what is delivered is what the blocks hold. -/
theorem ext2fsReadFile_delivers (hblocks : node.Blocks l)
    (hlen : (request node 0 len).len < 2 ^ 31)
    (hrun : ext2fsReadFile env extent k node 0 len s = some (.ok (ret, ws), s1)) (hret : 0 ≤ ret)
    (hdone : Undisturbed env s s1) (ha : Reading env extent k node len s map reads) :
    (∀ w ∈ ws, w.1 + w.2.length ≤ (request node 0 len).len + 512 * 2 ^ l) ∧
      ∀ x < (request node 0 len).len, overlay ws x =
        some (Ext2.held (request node 0 len) map (s1.volume env k).disk (512 * 2 ^ l) x) := by
  obtain ⟨x, s2, a, hrec, hagrees⟩ := ha
  have hsame := (Ext2.recordFile_recording (ext2fsReadBlock env extent k node) (ext2fsDevread env k)
    (request node 0 len)).run_same hrec
  have hfit := request_fits hblocks hlen
  unfold ext2fsReadFile at hrun
  rw [hrun] at hsame
  simp only [Option.some.injEq, Prod.mk.injEq, Except.ok.injEq] at hsame
  obtain ⟨rfl, rfl⟩ := hsame
  have hR := fetches_frame.toReadFrame
  have hread := ext2fsReadBlock_tame hR env k node
  have hdev := devread_tame hR env k
  have hfaithful : Ext2.Faithful (ext2fsDevread env k) Fetches s s1 (s1.volume env k).disk := by
    intro st ex bs s' s1' hs hs1 hread
    have hputs := devread_true (hdone.within hs hs1) hread
    have hoffset : s'.partitionOffsetBlocks = s1.partitionOffsetBlocks := by
      have hreads := (devread_reads env k _ _ _ _ _ _ _ hread).fetches
      exact hreads.offset.symm.trans hs1.offset.symm
    rw [hoffset] at hputs
    exact hputs
  have hfirst : (request node 0 len).first = 0 := by
    rw [hfit.first_eq, Nat.zero_div]
    rfl
  rw [hfirst] at hagrees
  exact Ext2.recordFile_delivers hfit hlen ext2fsReadBlock_int (fun a b z h => partition_congr _ z h)
    Fetches.trans (fun i => (hread i).steps extent) hfaithful
    (fun i v => (block_tame hR hread hdev _ i v).steps extent)
    (fun n i v => (blocks_tame hR hread hdev _ n i v).steps extent)
    (fun v => (spillDelayed_tame hR hdev v).steps extent) (Fetches.refl s) (Fetches.refl s1) hrec
    hagrees hret

end Open

end SmartQ.Qi
