import SmartQ.Qi.FileReads

/-!
# `ext2fs_devread` of Qi and of the USB loader

`ext2fs_devread` of `qi-usb-lcd/src/fs/dev.c` beside the one of `qi/src/fs/dev.c`, on a
device whose reads may fail.

* `devread_meets_iff`: exactly when both deliver the bytes that are asked for or fail,
  and agree.
-/

namespace SmartQ.Qi

open SmartQ.Lib

namespace UsbLcd

variable (env : Env) (k : KernelSource)

/-- The part that is aligned with a sector. -/
def readAligned (sector : ℤ) (len : ℕ) : Phase2 (Bool × List Byte) :=
  if len = 0 then pure (true, [])
  else if len / 512 = 0 then readLast env k sector len
  else do
    let s ← Prog.get
    let (ret, bytes) ← blockRead env k (absolute s sector) (len / 512)
    if ret < 0 then pure (false, bytes) else do
      let (ok, rest) ← readLast env k (int32 (sector + (len / 512 : ℕ))) (len % 512)
      pure (ok, bytes ++ rest)

/-- The reads of `ext2fs_devread`, for `len` bytes from byte `offset` of a sector on. -/
def transfer (sector : ℤ) (offset len : ℕ) : Phase2 (Bool × List Write) :=
  if offset = 0 then do
    let (ok, bytes) ← readAligned env k sector len
    pure (ok, [(0, bytes)])
  else do
    let first ← readFirst env k sector offset len
    match first with
    | none => pure (false, [])
    | some head => do
      let minimum := min (512 - offset) len
      let (ok, bytes) ← readAligned env k (int32 (sector + 1)) (len - minimum)
      pure (ok, [(0, head), (minimum, bytes)])

/-- The reads of `ext2fs_devread`, from byte `byteOffset` of `sector` on. -/
def transferFrom (sector byteOffset byteLen : ℤ) : Phase2 (Bool × List Write) :=
  let start := int32 (sector + byteOffset / 512)
  if byteLen < 0 then transferNegative env k start (byteOffset % 512).toNat byteLen
  else transfer env k start (byteOffset % 512).toNat byteLen.toNat

/-- `ext2fs_devread` (dev.c of the USB loader, lines 35–123): there is no skip key. -/
def ext2fsDevread (sector log2 byteOffset byteLen : ℤ) : Phase2 (Bool × List Write) := do
  let s ← Prog.get
  let sector := shl32 sector log2
  if inPartition s sector byteOffset byteLen then transferFrom env k sector byteOffset byteLen
  else pure (false, [])

end UsbLcd

/-! ## The two transfers -/

section Transfers

variable {env : Env} {k : KernelSource} {s : St} {sec : ℤ} {offset len : ℕ}

theorem blockRead_failed {n : ℕ} (h : env.outcome s.reads = .failed n) (start blocks : ℕ) :
    blockRead env k start blocks s =
      some (.ok (-1, (sectors env k start (512 * blocks)).take n),
        { s with reads := s.reads + 1 }) := by
  unfold blockRead
  rw [Prog.step_apply, h]

theorem readFirst_failed {n : ℕ} (h : env.outcome s.reads = .failed n) :
    readFirst env k sec offset len s = some (.ok none, { s with reads := s.reads + 1 }) := by
  unfold readFirst
  rw [Prog.get_bind, Prog.bind_ok (blockRead_failed h _ 1)]
  simp

theorem readFirst_done (k : KernelSource) (sec : ℤ) (offset len : ℕ)
    (h : env.outcome s.reads = .done) :
    ∃ head, readFirst env k sec offset len s =
      some (.ok (some head), { s with reads := s.reads + 1 }) := by
  unfold readFirst
  rw [Prog.get_bind, Prog.bind_ok (blockRead_done h _ 1)]
  simp

theorem readLast_failed {n : ℕ} (h : env.outcome s.reads = .failed n) (hlen : len ≠ 0) :
    readLast env k sec len s = some (.ok (false, []), { s with reads := s.reads + 1 }) := by
  unfold readLast
  rw [if_neg hlen, Prog.get_bind, Prog.bind_ok (blockRead_failed h _ 1)]
  simp

/-- Only the short read of Qi ignores a failure. -/
theorem readAligned_eq (h : len ≠ 0 → len / 512 = 0 → env.outcome s.reads = .done) :
    readAligned env k sec len s = UsbLcd.readAligned env k sec len s := by
  unfold readAligned UsbLcd.readAligned
  by_cases hzero : len = 0
  · rw [if_pos hzero, if_pos hzero]
  · rw [if_neg hzero, if_neg hzero]
    by_cases hshort : len / 512 = 0
    · have hdone := h hzero hshort
      have hlen : (sectors env k (absolute s sec) (512 * 1)).length = 512 := by simp [sectors]
      rw [if_pos hshort, if_pos hshort]
      unfold readShort readLast
      rw [if_neg hzero, Prog.get_bind, Prog.get_bind, Prog.bind_ok (blockRead_done hdone _ 1),
        Prog.bind_ok (blockRead_done hdone _ 1)]
      simp only [Prog.pure_apply]
      rw [if_neg (not_not_intro Nat.cast_one), List.take_append_of_le_length (by omega)]
    · rw [if_neg hshort, if_neg hshort]

theorem UsbLcd.readAligned_fails (k : KernelSource) (sec : ℤ)
    (h : ¬ DoneReads env s (alignedReads len)) :
    ∃ bytes s', UsbLcd.readAligned env k sec len s = some (.ok (false, bytes), s') := by
  unfold UsbLcd.readAligned
  unfold alignedReads at h
  by_cases hzero : len = 0
  · subst hzero
    exact (h fun i hi => absurd hi (Nat.not_lt_zero i)).elim
  · rw [if_neg hzero]
    rcases hout : env.outcome s.reads with _ | n
    · by_cases hshort : len / 512 = 0
      · apply absurd _ h
        rw [if_pos hshort, if_neg (by omega)]
        intro i hi
        rw [show i = 0 by omega]
        exact hout
      · rw [if_neg hshort, Prog.get_bind, Prog.bind_ok (blockRead_done hout _ _)]
        dsimp only
        rw [if_neg (by omega)]
        rcases hnext : env.outcome (s.reads + 1) with _ | n
        · apply absurd _ h
          rw [if_neg hshort]
          intro i hi
          rcases Nat.lt_or_ge 0 i with hpos | hpos
          · rw [show i = 1 by split_ifs at hi <;> omega]
            exact hnext
          · rw [show i = 0 by omega]
            exact hout
        · have hrest : len % 512 ≠ 0 := by
            intro hmod
            apply h
            rw [if_neg hshort, if_pos hmod]
            intro i hi
            rw [show i = 0 by omega]
            exact hout
          rw [Prog.bind_ok (readLast_failed (s := { s with reads := s.reads + 1 }) hnext hrest)]
          exact ⟨_, _, rfl⟩
    · by_cases hshort : len / 512 = 0
      · rw [if_pos hshort, readLast_failed hout hzero]
        exact ⟨_, _, rfl⟩
      · rw [if_neg hshort, Prog.get_bind, Prog.bind_ok (blockRead_failed hout _ _)]
        exact ⟨_, _, rfl⟩

/-- The part behind the head is shorter than a sector. -/
def ShortTail (offset len : ℕ) : Prop :=
  len ≠ headLen offset len ∧ (len - headLen offset len) / 512 = 0

theorem transferReads_of_shortTail (h : ShortTail offset len) :
    transferReads offset len = (if offset = 0 then 0 else 1) + 1 := by
  obtain ⟨hne, hshort⟩ := h
  have hle : headLen offset len ≤ len := by
    unfold headLen
    split_ifs
    · exact Nat.zero_le _
    · exact min_le_right _ _
  have hmod : (len - headLen offset len) % 512 ≠ 0 := by omega
  unfold transferReads alignedReads
  rw [if_pos hshort, if_neg hmod, Nat.zero_add]

/-- The transfers are the same, unless the read of a short tail is the one that fails. -/
theorem transfer_eq (h : ShortTail offset len → DoneReads env s (transferReads offset len - 1) →
      DoneReads env s (transferReads offset len)) :
    transfer env k sec offset len s = UsbLcd.transfer env k sec offset len s := by
  have hlast : ∀ i, i = (if offset = 0 then 0 else 1) → (offset ≠ 0 → env.outcome s.reads = .done) →
      len - headLen offset len ≠ 0 → (len - headLen offset len) / 512 = 0 →
      env.outcome (s.reads + i) = .done := by
    rintro i rfl hhead hne hshort
    have htail : ShortTail offset len := ⟨by omega, hshort⟩
    rw [transferReads_of_shortTail htail] at h
    refine h htail (fun j hj => ?_) _ (Nat.lt_succ_self _)
    have hoff : offset ≠ 0 := by
      rintro rfl
      exact absurd hj (by simp)
    rw [if_neg hoff] at hj
    rw [show j = 0 by omega]
    exact hhead hoff
  unfold transfer UsbLcd.transfer
  unfold headLen at hlast
  by_cases hzero : offset = 0
  · rw [if_pos hzero, if_pos hzero]
    rw [if_pos hzero, if_pos hzero] at hlast
    exact Prog.bind_congr (readAligned_eq (hlast 0 rfl fun hne => absurd hzero hne))
  · rw [if_neg hzero, if_neg hzero]
    rw [if_neg hzero, if_neg hzero] at hlast
    rcases hout : env.outcome s.reads with _ | n
    · obtain ⟨head, hfirst⟩ := readFirst_done k sec offset len hout
      rw [Prog.bind_ok hfirst, Prog.bind_ok hfirst]
      exact Prog.bind_congr (readAligned_eq (hlast 1 rfl fun _ => hout))
    · rw [Prog.bind_ok (readFirst_failed hout), Prog.bind_ok (readFirst_failed hout)]

theorem UsbLcd.transfer_fails (k : KernelSource) (sec : ℤ)
    (h : ¬ DoneReads env s (transferReads offset len)) :
    ∃ ws s', UsbLcd.transfer env k sec offset len s = some (.ok (false, ws), s') := by
  unfold UsbLcd.transfer
  unfold transferReads headLen at h
  by_cases hzero : offset = 0
  · rw [if_pos hzero, if_pos hzero, Nat.zero_add, Nat.sub_zero] at h
    obtain ⟨bytes, s', hrun⟩ := UsbLcd.readAligned_fails k sec h
    rw [if_pos hzero, Prog.bind_ok hrun]
    exact ⟨_, _, rfl⟩
  · rw [if_neg hzero, if_neg hzero] at h
    rw [if_neg hzero]
    rcases hout : env.outcome s.reads with _ | n
    · have hrest : ¬ DoneReads env { s with reads := s.reads + 1 }
          (alignedReads (len - min (512 - offset) len)) := by
        intro hdone
        apply h
        intro i hi
        rcases i with _ | i
        · exact hout
        · have hnext : env.outcome (s.reads + 1 + i) = .done := hdone i (by omega)
          rwa [Nat.add_assoc, Nat.add_comm 1 i] at hnext
      obtain ⟨head, hfirst⟩ := readFirst_done k sec offset len hout
      obtain ⟨bytes, s', hrun⟩ := UsbLcd.readAligned_fails k (int32 (sec + 1)) hrest
      rw [Prog.bind_ok hfirst]
      dsimp only
      rw [Prog.bind_ok hrun]
      exact ⟨_, _, rfl⟩
    · rw [Prog.bind_ok (readFirst_failed hout)]
      exact ⟨_, _, rfl⟩

/-- Qi returns 1 where its short read fails. -/
theorem transfer_ignores (k : KernelSource) (sec : ℤ) (htail : ShortTail offset len)
    (h : DoneReads env s (transferReads offset len - 1)) :
    ∃ ws s', transfer env k sec offset len s = some (.ok (true, ws), s') := by
  obtain ⟨hne, hshort⟩ := htail
  rw [transferReads_of_shortTail ⟨hne, hshort⟩, Nat.add_sub_cancel] at h
  have hread : ∀ sec m s, m ≠ 0 → m / 512 = 0 →
      ∃ bytes s', readAligned env k sec m s = some (.ok (true, bytes), s') := by
    intro sec m s hm hm'
    unfold readAligned readShort
    rw [if_neg hm, if_pos hm', Prog.get_bind]
    exact ⟨_, _, rfl⟩
  unfold transfer
  unfold headLen at hne hshort
  by_cases hzero : offset = 0
  · rw [if_pos hzero] at hne hshort
    obtain ⟨bytes, s', hrun⟩ := hread sec len s hne hshort
    rw [if_pos hzero, Prog.bind_ok hrun]
    exact ⟨_, _, rfl⟩
  · rw [if_neg hzero] at hne hshort h
    have hout : env.outcome s.reads = .done := h 0 Nat.one_pos
    have hle : min (512 - offset) len ≤ len := min_le_right _ _
    obtain ⟨head, hfirst⟩ := readFirst_done k sec offset len hout
    obtain ⟨bytes, s', hrun⟩ := hread (int32 (sec + 1)) (len - min (512 - offset) len)
      { s with reads := s.reads + 1 } (by omega) hshort
    rw [if_neg hzero, Prog.bind_ok hfirst]
    dsimp only
    rw [Prog.bind_ok hrun]
    exact ⟨_, _, rfl⟩

end Transfers

/-! ## The keys -/

/-- The fragment has nothing to do with the keys. -/
def KeyBlind {α : Type} (x : Phase2 α) : Prop :=
  ∀ s n, x { s with keys := n } = (x s).map fun p => (p.1, { p.2 with keys := n })

namespace KeyBlind

variable {α β : Type}

theorem ret (a : α) : KeyBlind (pure a : Phase2 α) := fun _ _ => rfl

theorem exitIf (c : Prop) [Decidable c] (e : Exit) : KeyBlind (Prog.exitIf c e) := by
  intro s n
  unfold Prog.exitIf
  split_ifs <;> rfl

theorem bind {x : Phase2 α} {f : α → Phase2 β} (hx : KeyBlind x) (hf : ∀ a, KeyBlind (f a)) :
    KeyBlind (x >>= f) := by
  intro s n
  have hrun := hx s n
  rcases hs : x s with _ | ⟨⟨e⟩ | ⟨a⟩, s'⟩
  · rw [hs] at hrun
    rw [Prog.bind_none hs, Prog.bind_none hrun]
    rfl
  · rw [hs] at hrun
    rw [Prog.bind_error hs, Prog.bind_error hrun]
    rfl
  · rw [hs] at hrun
    rw [Prog.bind_ok hs, Prog.bind_ok hrun, hf a s' n]

variable (env : Env) (k : KernelSource)

theorem blockRead (sector : ℤ) (blocks : ℕ) {f : ℤ × List Byte → Phase2 β}
    (hf : ∀ r, KeyBlind (f r)) :
    KeyBlind (Prog.get >>= fun s => blockRead env k (absolute s sector) blocks >>= f) := by
  have hread : KeyBlind (Prog.get >>= fun s => Qi.blockRead env k (absolute s sector) blocks) :=
    fun _ _ => rfl
  have hassoc := hread.bind hf
  rwa [Prog.bind_assoc] at hassoc

theorem readLast (sector : ℤ) (len : ℕ) : KeyBlind (readLast env k sector len) := by
  unfold Qi.readLast
  split_ifs
  · exact ret _
  · exact blockRead env k _ _ fun _ => ret _

theorem readAligned (sector : ℤ) (len : ℕ) : KeyBlind (UsbLcd.readAligned env k sector len) := by
  unfold UsbLcd.readAligned
  split_ifs
  · exact ret _
  · exact readLast env k _ _
  · apply blockRead
    intro r
    show KeyBlind (if r.1 < 0 then _ else _)
    split_ifs
    · exact ret _
    · exact (readLast env k _ _).bind fun _ => ret _

theorem transferFrom (sector byteOffset byteLen : ℤ) :
    KeyBlind (UsbLcd.transferFrom env k sector byteOffset byteLen) := by
  show KeyBlind (if byteLen < 0 then _ else UsbLcd.transfer env k _ _ _)
  unfold UsbLcd.transfer
  split_ifs
  · exact blockRead env k _ _ fun _ => (exitIf _ _).bind fun _ => ret _
  · exact (readAligned env k _ _).bind fun _ => ret _
  · apply bind (blockRead env k _ _ fun _ => ret _)
    intro first
    cases first with
    | none => exact ret _
    | some head => exact (readAligned env k _ _).bind fun _ => ret _

end KeyBlind

/-! ## All or an error -/

section Meets

variable (env : Env) (k : KernelSource) (s : St) (sector log2 byteOffset byteLen : ℤ)

/-- `(sector << log2) * 512 + byteOffset`. -/
def address : ℤ := sector * 2 ^ log2.toNat * 512 + byteOffset

/-- The bytes asked for lie in the partition, on blocks of the device that have a
    number. -/
structure InBounds : Prop where
  log2_nonneg : 0 ≤ log2
  len_nonneg : 0 ≤ byteLen
  address_nonneg : 0 ≤ address sector log2 byteOffset
  in_partition : address sector log2 byteOffset + byteLen ≤ 512 * s.partitionLengthBlocks
  in_device : 512 * s.partitionOffsetBlocks + address sector log2 byteOffset + byteLen ≤
    512 * 2 ^ 32

/-- A run that returns 0, or 1 with the bytes asked for in the buffer. -/
def AllOrError (run : Option (Except Exit (Bool × List Write) × St)) : Prop :=
  ∃ ok ws s', run = some (.ok (ok, ws), s') ∧
    (ok = true → InBounds s sector log2 byteOffset byteLen ∧
      Ext2.Puts ws (load (env.disk k.blockRead)
        (512 * s.partitionOffsetBlocks + (address sector log2 byteOffset).toNat) byteLen.toNat))

/-- The skip key is not pressed. -/
def NoSkip : Prop := ∀ keys, env.getUiKeys = some keys → ¬ (keys s.keys).testBit 1

/-- Both are all-or-error, and without the skip key they return the same and store the
    same. -/
def DevreadMeets : Prop :=
  AllOrError env k s sector log2 byteOffset byteLen
      (ext2fsDevread env k sector log2 byteOffset byteLen s) ∧
    AllOrError env k s sector log2 byteOffset byteLen
      (UsbLcd.ext2fsDevread env k sector log2 byteOffset byteLen s) ∧
    (NoSkip env s → ∃ r s1 s2,
      ext2fsDevread env k sector log2 byteOffset byteLen s = some (.ok r, s1) ∧
        UsbLcd.ext2fsDevread env k sector log2 byteOffset byteLen s = some (.ok r, s2))

/-- The device reads of a call; a call with a negative length fails or ends with the
    first. -/
def callReads : ℕ :=
  if byteLen < 0 then 1 else transferReads (byteOffset % 512).toNat byteLen.toNat

/-- The check of the boundaries refuses the call. Or the bytes lie in the partition if no
    read fails, and the read of a tail shorter than a sector is not the one that fails. -/
def DevreadHolds : Prop :=
  inPartition s (shl32 sector log2) byteOffset byteLen →
    (DoneReads env s (callReads byteOffset byteLen) → InBounds s sector log2 byteOffset byteLen) ∧
    (NoSkip env s → 0 ≤ byteLen → ShortTail (byteOffset % 512).toNat byteLen.toNat →
      DoneReads env s (callReads byteOffset byteLen - 1) →
        DoneReads env s (callReads byteOffset byteLen))

end Meets

section Calls

variable {env : Env} {k : KernelSource} {s : St} {sector log2 byteOffset byteLen : ℤ}

/-- The shift loses nothing of a sector in the partition. -/
theorem shl32_emod (h : InBounds s sector log2 byteOffset byteLen) (hoff : -(2 ^ 31) ≤ byteOffset)
    (hoff' : byteOffset < 2 ^ 31) :
    shl32 sector log2 % 2 ^ 32 = sector * 2 ^ log2.toNat % 2 ^ 32 := by
  have hint : ∀ z, int32 z % 2 ^ 32 = z % 2 ^ 32 := by
    intro z
    unfold int32
    split_ifs <;> omega
  obtain ⟨n, rfl⟩ := Int.eq_ofNat_of_zero_le h.log2_nonneg
  have hlow := h.address_nonneg
  have hhigh := h.in_device
  have hlen := h.len_nonneg
  unfold address at hlow hhigh
  rw [Int.toNat_natCast] at hlow hhigh ⊢
  unfold shl32
  rcases Nat.lt_or_ge n 32 with hn | hn
  · have hmod : (n : ℤ) % 256 = n := by omega
    rw [hmod, if_pos (by omega), hint, Int.toNat_natCast]
  · obtain ⟨c, rfl⟩ := Nat.exists_eq_add_of_le hn
    have hwide : sector * 2 ^ (32 + c) % 2 ^ 32 = 0 := by
      rw [pow_add, mul_left_comm]
      exact Int.mul_emod_right _ _
    rcases Nat.lt_or_ge (32 + c) 256 with hc | hc
    · rw [if_neg (by omega), hwide]
      rfl
    · -- so far to the left, only zero stays in the partition
      obtain ⟨d, hd⟩ := Nat.exists_eq_add_of_le hc
      have hzero : sector = 0 := by
        have hpow : (1 : ℤ) ≤ 2 ^ d := by exact_mod_cast Nat.one_le_two_pow
        rw [hd, pow_add] at hlow hhigh
        by_contra hne
        rcases lt_or_gt_of_ne hne with hneg | hpos
        · have hle : sector * (2 ^ 256 * 2 ^ d) ≤ -1 * (2 ^ 256 * 1) := by nlinarith
          omega
        · have hge : 1 * (2 ^ 256 * 1) ≤ sector * (2 ^ 256 * 2 ^ d) := by nlinarith
          omega
      rw [hwide, hzero, zero_mul]
      split_ifs <;> rfl

/-- In the partition the block numbers do not wrap. -/
theorem load_partition {offset a n : ℕ} (h : n = 0 ∨ 512 * offset + a + n ≤ 512 * 2 ^ 32) :
    load (partition env k offset) a n = load (env.disk k.blockRead) (512 * offset + a) n := by
  apply List.map_congr_left
  intro j hj
  rw [List.mem_range] at hj
  have hblock : (offset + (a + j) / 512) % 2 ^ 32 * 512 + (a + j) % 512 = 512 * offset + a + j := by
    omega
  unfold partition
  rw [hblock]

theorem transferFrom_meets (h : DoneReads env s (callReads byteOffset byteLen) →
      InBounds s sector log2 byteOffset byteLen)
    (hoff : -(2 ^ 31) ≤ byteOffset) (hoff' : byteOffset < 2 ^ 31) :
    AllOrError env k s sector log2 byteOffset byteLen
      (UsbLcd.transferFrom env k (shl32 sector log2) byteOffset byteLen s) := by
  unfold UsbLcd.transferFrom
  unfold callReads at h
  by_cases hneg : byteLen < 0
  · rw [if_pos hneg] at h
    rw [if_pos hneg]
    rcases hout : env.outcome s.reads with _ | n
    · have hin := h fun i hi => by rw [show i = 0 by omega]; exact hout
      exact absurd hin.len_nonneg (by omega)
    · unfold transferNegative
      rw [Prog.get_bind, Prog.bind_ok (blockRead_failed hout _ _)]
      exact ⟨false, _, _, Prog.exitIf_of_not (by norm_num), nofun⟩
  · rw [if_neg hneg] at h
    rw [if_neg hneg]
    by_cases hdone : DoneReads env s (transferReads (byteOffset % 512).toNat byteLen.toNat)
    · have hin := h hdone
      have hmod := shl32_emod hin hoff hoff'
      have hlow := hin.address_nonneg
      have hstart : toU32 (int32 (shl32 sector log2 + byteOffset / 512)) =
          ((address sector log2 byteOffset).toNat / 512) % 2 ^ 32 := by
        rw [toU32_int32]
        unfold toU32
        unfold address at hlow ⊢
        omega
      obtain ⟨ws, s', hrun, hputs⟩ := transfer_works k s byteLen.toNat hdone hstart (by omega)
      have haddr : 512 * ((address sector log2 byteOffset).toNat / 512) +
          (byteOffset % 512).toNat = (address sector log2 byteOffset).toNat := by
        unfold address at hlow ⊢
        omega
      have hdev := hin.in_device
      rw [haddr, load_partition (.inr (by omega))] at hputs
      rw [← transfer_eq fun _ _ => hdone, hrun]
      exact ⟨true, ws, s', rfl, fun _ => ⟨hin, hputs⟩⟩
    · obtain ⟨ws, s', hrun⟩ := UsbLcd.transfer_fails k
        (int32 (shl32 sector log2 + byteOffset / 512)) hdone
      rw [hrun]
      exact ⟨false, ws, s', rfl, nofun⟩

theorem transferFrom_eq (h : 0 ≤ byteLen → ShortTail (byteOffset % 512).toNat byteLen.toNat →
      DoneReads env s (callReads byteOffset byteLen - 1) →
        DoneReads env s (callReads byteOffset byteLen)) (sec : ℤ) :
    transferFrom env k sec byteOffset byteLen s =
      UsbLcd.transferFrom env k sec byteOffset byteLen s := by
  unfold transferFrom UsbLcd.transferFrom
  unfold callReads at h
  by_cases hneg : byteLen < 0
  · rw [if_pos hneg, if_pos hneg]
  · rw [if_neg hneg] at h
    rw [if_neg hneg, if_neg hneg]
    exact transfer_eq (h (by omega))

theorem skipKey_of_noSkip (h : NoSkip env s) :
    ∃ n, skipKey env s = some (.ok false, { s with keys := n }) := by
  unfold skipKey
  rcases hkeys : env.getUiKeys with _ | keys
  · exact ⟨s.keys, rfl⟩
  · refine ⟨s.keys + 1, ?_⟩
    simp only [Prog.step_apply, if_neg (h keys hkeys)]

theorem skipKey_of_skip (h : ¬ NoSkip env s) : ∃ s', skipKey env s = some (.ok true, s') := by
  unfold NoSkip at h
  push Not at h
  obtain ⟨keys, hkeys, hbit⟩ := h
  unfold skipKey
  rw [hkeys]
  simp only [Prog.step_apply, if_pos hbit]
  exact ⟨_, rfl⟩

/-- A call that the check lets through, without the skip key. -/
theorem devread_of_noSkip (hin : inPartition s (shl32 sector log2) byteOffset byteLen)
    (h : NoSkip env s) : ∃ n, ext2fsDevread env k sector log2 byteOffset byteLen s =
      transferFrom env k (shl32 sector log2) byteOffset byteLen { s with keys := n } := by
  obtain ⟨n, hskip⟩ := skipKey_of_noSkip h
  refine ⟨n, ?_⟩
  unfold ext2fsDevread
  rw [Prog.get_bind, if_pos hin, Prog.bind_ok hskip]
  rfl

theorem UsbLcd.devread_eq (hin : inPartition s (shl32 sector log2) byteOffset byteLen) :
    UsbLcd.ext2fsDevread env k sector log2 byteOffset byteLen s =
      UsbLcd.transferFrom env k (shl32 sector log2) byteOffset byteLen s := by
  unfold UsbLcd.ext2fsDevread
  rw [Prog.get_bind, if_pos hin]

theorem DevreadHolds.meets (h : DevreadHolds env s sector log2 byteOffset byteLen)
    (hoff : -(2 ^ 31) ≤ byteOffset) (hoff' : byteOffset < 2 ^ 31) :
    DevreadMeets env k s sector log2 byteOffset byteLen := by
  by_cases hin : inPartition s (shl32 sector log2) byteOffset byteLen
  · obtain ⟨hbounds, htail⟩ := h hin
    have hlcd := transferFrom_meets (k := k) hbounds hoff hoff'
    rw [← UsbLcd.devread_eq hin] at hlcd
    by_cases hskip : NoSkip env s
    · obtain ⟨n, hqi⟩ := devread_of_noSkip (k := k) hin hskip
      have hsame : ext2fsDevread env k sector log2 byteOffset byteLen s =
          (UsbLcd.ext2fsDevread env k sector log2 byteOffset byteLen s).map
            fun p => (p.1, { p.2 with keys := n }) := by
        rw [hqi, transferFrom_eq (s := { s with keys := n }) (htail hskip), UsbLcd.devread_eq hin]
        exact KeyBlind.transferFrom env k _ _ _ s n
      obtain ⟨ok, ws, s', hrun, hok⟩ := hlcd
      have hqi : ext2fsDevread env k sector log2 byteOffset byteLen s =
          some (.ok (ok, ws), { s' with keys := n }) := by rw [hsame, hrun]; rfl
      exact ⟨⟨ok, ws, _, hqi, hok⟩, ⟨ok, ws, s', hrun, hok⟩, fun _ => ⟨_, _, _, hqi, hrun⟩⟩
    · obtain ⟨s', hskips⟩ := skipKey_of_skip hskip
      refine ⟨⟨false, [], s', ?_, nofun⟩, hlcd, fun hno => absurd hno hskip⟩
      unfold ext2fsDevread
      rw [Prog.get_bind, if_pos hin, Prog.bind_ok hskips]
      rfl
  · have hqi : ext2fsDevread env k sector log2 byteOffset byteLen s = some (.ok (false, []), s) := by
      unfold ext2fsDevread
      rw [Prog.get_bind, if_neg hin]
      rfl
    have hlcd : UsbLcd.ext2fsDevread env k sector log2 byteOffset byteLen s =
        some (.ok (false, []), s) := by
      unfold UsbLcd.ext2fsDevread
      rw [Prog.get_bind, if_neg hin]
      rfl
    exact ⟨⟨false, [], s, hqi, nofun⟩, ⟨false, [], s, hlcd, nofun⟩, fun _ => ⟨_, _, _, hqi, hlcd⟩⟩

/-- A call whose reads do not fail returns 1, or overwrites the memory. -/
theorem UsbLcd.transferFrom_done (hdone : DoneReads env s (callReads byteOffset byteLen)) (sec : ℤ)
    {ok : Bool} {ws : List Write} {s' : St}
    (h : UsbLcd.transferFrom env k sec byteOffset byteLen s = some (.ok (ok, ws), s')) :
    ok = true := by
  unfold UsbLcd.transferFrom at h
  unfold callReads at hdone
  by_cases hneg : byteLen < 0
  · rw [if_pos hneg] at hdone
    rw [if_pos hneg] at h
    unfold transferNegative at h
    rw [Prog.get_bind, Prog.bind_ok (blockRead_done (hdone 0 Nat.one_pos) _ _)] at h
    dsimp only at h
    rw [Prog.exitIf_of (by omega)] at h
    cases h
  · rw [if_neg hneg] at hdone
    have hstart : toU32 (int32 (sec + byteOffset / 512)) =
        toU32 (int32 (sec + byteOffset / 512)) % 2 ^ 32 := by
      unfold toU32
      omega
    obtain ⟨ws', s1, hrun, -⟩ := transfer_works k s byteLen.toNat hdone hstart (by omega)
    rw [if_neg hneg, ← transfer_eq fun _ _ => hdone, hrun] at h
    cases h
    rfl

theorem DevreadMeets.holds (h : DevreadMeets env k s sector log2 byteOffset byteLen) :
    DevreadHolds env s sector log2 byteOffset byteLen := by
  intro hin
  obtain ⟨-, ⟨ok, ws, s', hrun, hok⟩, hagree⟩ := h
  rw [UsbLcd.devread_eq hin] at hrun
  refine ⟨fun hdone => (hok (UsbLcd.transferFrom_done hdone _ hrun)).1, ?_⟩
  intro hskip hlen htail hdone
  by_contra hfails
  obtain ⟨n, hqi⟩ := devread_of_noSkip (k := k) hin hskip
  obtain ⟨r, s1, s2, hqi', hlcd⟩ := hagree hskip
  unfold callReads at hdone hfails
  rw [if_neg (by omega)] at hdone hfails
  rw [UsbLcd.devread_eq hin] at hlcd
  unfold UsbLcd.transferFrom at hlcd
  rw [hqi] at hqi'
  unfold transferFrom at hqi'
  rw [if_neg (by omega)] at hlcd hqi'
  obtain ⟨ws1, s1', htrue⟩ := transfer_ignores k
    (int32 (shl32 sector log2 + byteOffset / 512)) (s := { s with keys := n }) htail hdone
  obtain ⟨ws2, s2', hfalse⟩ := UsbLcd.transfer_fails k
    (int32 (shl32 sector log2 + byteOffset / 512)) hfails
  rw [htrue] at hqi'
  rw [hfalse] at hlcd
  cases hqi'
  cases hlcd

end Calls

/-- For every call and every schedule of failing reads: the two versions of
    `ext2fs_devread` deliver the bytes or fail, and agree, exactly when the check of the
    boundaries refuses the call, or the bytes lie in the partition (or a read fails) and
    the read of a short tail is not the one that fails. -/
theorem devread_meets_iff (env : Env) (k : KernelSource) (s : St)
    (sector log2 byteOffset byteLen : Int32) :
    DevreadMeets env k s sector.toInt log2.toInt byteOffset.toInt byteLen.toInt ↔
      DevreadHolds env s sector.toInt log2.toInt byteOffset.toInt byteLen.toInt :=
  ⟨DevreadMeets.holds, fun h => h.meets (Int32.le_toInt byteOffset) (Int32.toInt_lt byteOffset)⟩

/-- An inode of 128 bytes at the start of a block, on a device that does not answer: Qi
    returns 1, the USB loader 0. -/
theorem devread_inode_unread :
    ¬ DevreadMeets { workingEnv (fun _ => 0) [] with outcome := fun _ => .failed 0 } ext2Source
      { St.start (fun _ => 0) with partitionLengthBlocks := 4096 } 5 1 0 128 := by
  intro h
  obtain ⟨-, htail⟩ := h.holds (by decide)
  have hone : callReads 0 128 = 1 := by decide
  have hdone := htail (fun _ hkeys => nomatch hkeys) (by norm_num) (by unfold ShortTail; decide)
    (by rw [hone]; exact fun i hi => absurd hi (Nat.not_lt_zero i))
  rw [hone] at hdone
  cases hdone 0 Nat.one_pos

end SmartQ.Qi
