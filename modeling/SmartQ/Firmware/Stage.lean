import SmartQ.Firmware.Upgrade

/-!
# One section written and verified

What `stage` does in a run in which every `read` and `write` moves all it is
asked to (`St.short` stays `false`): the section is copied from the file to the
flash in chunks of 4 MB, and the stage goes on exactly when the bytes now on the
flash have the expected sum.

* `loading_spec`: the copy.
* `getCheckSum_spec`: the sum of what is on the flash.
* `stage_spec`: both, for a stage whose flash position exists.
-/

namespace SmartQ.Firmware.Upgrade

open SmartQ.Lib

variable {env : Env}

/-! ## What every run keeps -/

/-- What a run keeps: once a transfer came up short the run stays marked, and
    the list of what was done to the device only gets longer. -/
def Grows (s s' : St) : Prop := (s'.short = false → s.short = false) ∧ s.log <+: s'.log

namespace Grows

variable {α β : Type}

theorem refl (s : St) : Grows s s := ⟨id, List.prefix_refl _⟩

theorem trans (s s' s'' : St) (h : Grows s s') (h' : Grows s' s'') : Grows s s'' :=
  ⟨fun hs => h.1 (h'.1 hs), h.2.trans h'.2⟩

theorem ret (a : α) : Prog.Steps Grows (pure a : Prog St Failure α) := Prog.Steps.ret refl a

theorem exit (e : Failure) : Prog.Steps Grows (Prog.exit e : Prog St Failure α) :=
  Prog.Steps.exit refl e

theorem bind {x : Prog St Failure α} {f : α → Prog St Failure β} (hx : Prog.Steps Grows x)
    (hf : ∀ a, Prog.Steps Grows (f a)) : Prog.Steps Grows (x >>= f) := Prog.Steps.bind trans hx hf

theorem readSd (n : ℕ) : Prog.Steps Grows (readSd env n) := by
  refine Prog.Steps.step fun s => ⟨fun hs => ?_, List.prefix_refl _⟩
  simp only [Bool.or_eq_false_iff] at hs
  exact hs.1

theorem readInand (n : ℕ) : Prog.Steps Grows (readInand env n) := by
  refine Prog.Steps.step fun s => ⟨fun hs => ?_, List.prefix_refl _⟩
  simp only [Bool.or_eq_false_iff] at hs
  exact hs.1

theorem writeInand (n : ℕ) : Prog.Steps Grows (writeInand env n) := by
  refine Prog.Steps.step fun s => ⟨fun hs => ?_, List.prefix_append _ _⟩
  simp only [Bool.or_eq_false_iff] at hs
  exact hs.1

theorem seekSd (off : ℕ) : Prog.Steps Grows (seekSd off) := by
  refine Prog.Steps.modify fun s => ?_
  split_ifs
  · exact ⟨id, List.prefix_refl _⟩
  · exact refl s

theorem seekInand (off : ℤ) : Prog.Steps Grows (seekInand env off) := by
  refine Prog.Steps.modify fun s => ?_
  split_ifs
  · exact ⟨id, List.prefix_refl _⟩
  · exact refl s

theorem addSizeSum (n : ℕ) : Prog.Steps Grows (addSizeSum n) :=
  Prog.Steps.modify fun _ => ⟨id, List.prefix_refl _⟩

theorem writePipe (n : ℕ) : Prog.Steps Grows (writePipe n) :=
  Prog.Steps.modify fun _ => ⟨id, List.prefix_refl _⟩

theorem runCommand (c : Command) : Prog.Steps Grows (runCommand env c) :=
  Prog.Steps.modify fun _ => ⟨id, List.prefix_append _ _⟩

theorem loadingLoop (total fuel size n : ℕ) :
    Prog.Steps Grows (loadingLoop env total fuel size n) := by
  induction fuel generalizing size n with
  | zero => exact Prog.Steps.stuck
  | succ fuel ih =>
    rw [Upgrade.loadingLoop]
    split_ifs
    · refine bind (readSd _) fun got => bind (addSizeSum _) fun _ => bind (writeInand _) fun w => ?_
      split_ifs
      · exact ret _
      · exact ih _ _
    · exact bind (readSd _) fun got => bind (addSizeSum _) fun _ => bind (writeInand _) fun w => ret _

theorem loading (total : ℕ) : Prog.Steps Grows (loading env total) := loadingLoop _ _ _ _

theorem checkSumLoop (fileSize : ℤ) (fuel : ℕ) (size n : ℤ) (ret : ℕ) :
    Prog.Steps Grows (checkSumLoop env fileSize fuel size n ret) := by
  induction fuel generalizing size n ret with
  | zero => exact Prog.Steps.stuck
  | succ fuel ih =>
    rw [Upgrade.checkSumLoop]
    split_ifs
    · exact bind (readInand _) fun got => bind (Prog.Steps.get refl) fun s => ih _ _ _
    · exact bind (readInand _) fun got => bind (Prog.Steps.get refl) fun s => Grows.ret _

theorem getCheckSum (fileSize : ℤ) : Prog.Steps Grows (getCheckSum env fileSize) :=
  checkSumLoop _ _ _ _ _

theorem seekSource (t : Stage) : Prog.Steps Grows (seekSource t) := by
  unfold Upgrade.seekSource
  split
  · exact seekSd _
  · exact ret _

theorem stage (t : Stage) : Prog.Steps Grows (stage env t) :=
  bind (seekSource t) fun _ => bind (seekInand _) fun _ => bind (loading _) fun _ =>
    bind (seekInand _) fun _ => bind (getCheckSum _) fun _ => Prog.Steps.exitIf refl _ _

theorem runStages (ts : List Stage) : Prog.Steps Grows (runStages env ts) := by
  induction ts with
  | nil => exact ret _
  | cons t ts ih => exact bind (stage t) fun _ => ih

theorem loadingCopies (h : FWFileHdr) : Prog.Steps Grows (loadingCopies env h) :=
  bind (Prog.Steps.modify fun _ => ⟨id, List.prefix_refl _⟩) fun _ => runStages _

theorem loadingFsLoop (total fuel size n : ℕ) :
    Prog.Steps Grows (loadingFsLoop env total fuel size n) := by
  induction fuel generalizing size n with
  | zero => exact Prog.Steps.stuck
  | succ fuel ih =>
    rw [Upgrade.loadingFsLoop]
    split_ifs
    · exact bind (readSd _) fun _ => bind (addSizeSum _) fun _ => bind (writePipe _) fun _ => ih _ _
    · exact bind (readSd _) fun _ => bind (addSizeSum _) fun _ => writePipe _

theorem sniff : Prog.Steps Grows (sniff env) := by
  refine Prog.Steps.step fun s => ⟨fun hs => ?_, List.prefix_refl _⟩
  simp only [Bool.or_eq_false_iff] at hs
  exact hs.1

theorem loadingFs (sec : Section) (part total : ℕ) :
    Prog.Steps Grows (loadingFs env sec part total) := by
  refine bind sniff fun _ => bind ?_ fun _ => bind (Prog.Steps.exitIf refl _ _) fun _ =>
    bind (Prog.Steps.exitIf refl _ _) fun _ => bind (loadingFsLoop _ _ _ _) fun _ =>
    bind (Prog.Steps.get refl) fun _ => bind (runCommand _) fun _ => Prog.Steps.exitIf refl _ _
  exact Prog.Steps.doIf refl _ (Prog.Steps.modify fun _ => ⟨id, List.prefix_refl _⟩)

theorem loadingHome (h : FWFileHdr) : Prog.Steps Grows (loadingHome env h) := by
  refine bind (Prog.Steps.get refl) fun old => bind (runCommand _) fun _ => bind (seekSd _) fun _ =>
    bind (loadingFs _ _ _) fun _ => Prog.Steps.modify fun s => ?_
  split_ifs
  · exact ⟨id, List.prefix_refl _⟩
  · exact refl s

theorem loadingFilesystems (h : FWFileHdr) (keep : Bool) (total : ℕ) :
    Prog.Steps Grows (loadingFilesystems env h keep total) :=
  bind (Prog.Steps.doIf refl _ (loadingHome h)) fun _ => bind (runCommand _) fun _ =>
    bind (seekSd _) fun _ => bind (Prog.Steps.get refl) fun _ =>
    bind (Prog.Steps.exitIf refl _ _) fun _ => loadingFs _ _ _

theorem loadingFirmware (h : FWFileHdr) (homefs keep : Bool) (total : ℕ) :
    Prog.Steps Grows (loadingFirmware env h homefs keep total) :=
  bind (loadingCopies h) fun _ => Prog.Steps.doIf refl _ (loadingFilesystems h keep total)

theorem prepare (keep : Bool) : Prog.Steps Grows (prepare env keep) :=
  bind (runCommand _) fun _ => bind (runCommand _) fun _ => bind (runCommand _) fun _ =>
    bind (Prog.Steps.doIf refl _ (runCommand _)) fun _ => runCommand _

theorem zeroLastBlocks : Prog.Steps Grows (zeroLastBlocks env) :=
  bind (seekInand _) fun _ => bind (Prog.Steps.modify fun _ => ⟨id, List.prefix_refl _⟩) fun _ =>
    bind (writeInand _) fun _ => bind (writeInand _) fun _ => ret _

/-- What `main` does once the file is accepted. -/
theorem flashing (h : FWFileHdr) (homefs keep : Bool) :
    Prog.Steps Grows (flashing env h homefs keep) :=
  bind (Prog.Steps.doIf refl _ (prepare _)) fun _ => bind (stage _) fun _ =>
    bind zeroLastBlocks fun _ => loadingFirmware _ _ _ _

end Grows

/-! ## System calls that move everything -/

theorem readSd_spec {n : ℕ} {s s' : St} {r : Except Failure ℤ}
    (h : readSd env n s = some (r, s')) (hs : s'.short = false) :
    r = .ok (n : ℤ) ∧ s.short = false ∧ n < 2 ^ 31 ∧ n ≤ env.file.length - s.sdPos ∧
      s' = { s with
        sdPos := s.sdPos + n
        buffer := store s.buffer 0 ((env.file.drop s.sdPos).take n)
        got := s.got ++ (env.file.drop s.sdPos).take n
        calls := s.calls + 1 } := by
  cases h
  obtain ⟨hshort, hgot⟩ : s.short = false ∧
      transferred (env.io s.calls) n (env.file.length - s.sdPos) = n := by
    simpa using hs
  obtain ⟨hn, havail⟩ := transferred_eq hgot
  refine ⟨by simp [hgot], hshort, hn, havail, ?_⟩
  simp [hgot, hshort]

theorem readInand_spec {n : ℕ} {s s' : St} {r : Except Failure ℤ}
    (h : readInand env n s = some (r, s')) (hs : s'.short = false) :
    r = .ok (n : ℤ) ∧ s.short = false ∧ n < 2 ^ 31 ∧ n ≤ env.deviceSize - s.inandPos ∧
      s' = { s with
        inandPos := s.inandPos + n
        buffer := store s.buffer 0 (load s.inand s.inandPos n)
        calls := s.calls + 1 } := by
  cases h
  obtain ⟨hshort, hgot⟩ : s.short = false ∧
      transferred (env.io s.calls) n (env.deviceSize - s.inandPos) = n := by
    simpa using hs
  obtain ⟨hn, havail⟩ := transferred_eq hgot
  refine ⟨by simp [hgot], hshort, hn, havail, ?_⟩
  simp [hgot, hshort]

theorem writeInand_spec {n : ℕ} {s s' : St} {r : Except Failure ℤ}
    (h : writeInand env n s = some (r, s')) (hs : s'.short = false) :
    r = .ok (n : ℤ) ∧ s.short = false ∧ n < 2 ^ 31 ∧ n ≤ env.deviceSize - s.inandPos ∧
      s' = { s with
        inandPos := s.inandPos + n
        inand := store s.inand s.inandPos (load s.buffer 0 n)
        handed := s.handed ++ load s.buffer 0 n
        calls := s.calls + 1
        log := s.log ++ [.write (s.inandPos, load s.buffer 0 n)] } := by
  cases h
  obtain ⟨hshort, hgot⟩ : s.short = false ∧
      transferred (env.io s.calls) n (env.deviceSize - s.inandPos) = n := by
    simpa using hs
  obtain ⟨hn, havail⟩ := transferred_eq hgot
  refine ⟨by simp [hgot], hshort, hn, havail, ?_⟩
  simp [hgot, hshort]

/-! ## The copy -/

/-- The `n` bytes of the file at offset `src`. -/
def slice (file : List Byte) (src n : ℕ) : List Byte := (file.drop src).take n

theorem length_slice {file : List Byte} {src n : ℕ} (h : n ≤ file.length - src) :
    (slice file src n).length = n := by
  simp only [slice, List.length_take, List.length_drop]
  omega

theorem slice_take (file : List Byte) (src : ℕ) {n : ℕ} (c : ℕ) (h : c ≤ n) :
    (slice file src n).take c = slice file src c := by
  simp only [slice, List.take_take, Nat.min_eq_left h]

theorem slice_drop (file : List Byte) (src n c : ℕ) :
    (slice file src n).drop c = slice file (src + c) (n - c) := by
  simp only [slice, List.drop_take, List.drop_drop]

/-- `s'` is `s` after the `n` bytes at `src` of the file were copied to `a` in
    chunks. -/
structure Copied (env : Env) (s s' : St) (n : ℕ) : Prop where
  short : s.short = false
  inFile : n ≤ env.file.length - s.sdPos
  inDevice : n ≤ env.deviceSize - s.inandPos
  sdPos : s'.sdPos = s.sdPos + n
  inand : s'.inand = store s.inand s.inandPos (slice env.file s.sdPos n)
  inandPos : s'.inandPos = s.inandPos + n
  sizeSum : s'.sizeSum = (s.sizeSum + n) % 2 ^ 32
  untarXz : s'.untarXz = s.untarXz
  log : s'.log = s.log ++
    (chunks inandSizePerWrite s.inandPos (slice env.file s.sdPos n)).map .write

/-- One round: the bytes read are the bytes written. -/
theorem readWrite_spec {n : ℕ} {s s1 s2 s3 : St} {r1 : Except Failure ℤ} {r3 : Except Failure ℤ}
    (h1 : readSd env n s = some (r1, s1)) (h2 : s2 = { s1 with sizeSum := add32 s1.sizeSum n })
    (h3 : writeInand env n s2 = some (r3, s3)) (hs : s3.short = false) :
    r1 = .ok (n : ℤ) ∧ r3 = .ok (n : ℤ) ∧ s.short = false ∧
      n ≤ env.file.length - s.sdPos ∧ n ≤ env.deviceSize - s.inandPos ∧
      s3 = { s with
        sdPos := s.sdPos + n
        inandPos := s.inandPos + n
        inand := store s.inand s.inandPos (slice env.file s.sdPos n)
        buffer := store s.buffer 0 (slice env.file s.sdPos n)
        got := s.got ++ slice env.file s.sdPos n
        handed := s.handed ++ slice env.file s.sdPos n
        sizeSum := add32 s.sizeSum n
        calls := s.calls + 2
        log := s.log ++ [.write (s.inandPos, slice env.file s.sdPos n)] } := by
  subst h2
  obtain ⟨rfl, hs2, -, hdev, rfl⟩ := writeInand_spec h3 hs
  obtain ⟨rfl, hs1, -, hfile, rfl⟩ := readSd_spec h1 hs2
  have hload : load (store s.buffer 0 (slice env.file s.sdPos n)) 0 n
      = slice env.file s.sdPos n := by
    have := load_store s.buffer 0 (slice env.file s.sdPos n)
    rwa [length_slice hfile] at this
  refine ⟨rfl, rfl, hs1, hfile, hdev, ?_⟩
  simp only [slice] at *
  simp [hload]

/-- A copy of `c` bytes written by one `write`, followed by a copy of the rest. -/
theorem Copied.cons {s s3 s' : St} {n : ℕ} (hshort : s.short = false)
    (hfile : inandSizePerWrite ≤ env.file.length - s.sdPos)
    (hdev : inandSizePerWrite ≤ env.deviceSize - s.inandPos) (hle : inandSizePerWrite ≤ n)
    (hs3 : s3 = { s with
      sdPos := s.sdPos + inandSizePerWrite
      inandPos := s.inandPos + inandSizePerWrite
      inand := store s.inand s.inandPos (slice env.file s.sdPos inandSizePerWrite)
      buffer := s3.buffer
      got := s3.got
      handed := s3.handed
      sizeSum := add32 s.sizeSum inandSizePerWrite
      calls := s3.calls
      log := s.log ++ [.write (s.inandPos, slice env.file s.sdPos inandSizePerWrite)] })
    (hrest : Copied env s3 s' (n - inandSizePerWrite)) : Copied env s s' n := by
  obtain ⟨-, hF, hD, hsd, hin, hpos, hsz, hxz, hlog⟩ := hrest
  rw [hs3] at hF hD hsd hin hpos hsz hxz hlog
  simp only at hF hD hsd hin hpos hsz hxz hlog
  have hpos0 : 0 < inandSizePerWrite := by norm_num [inandSizePerWrite]
  have hlen : (slice env.file s.sdPos n).length = n := length_slice (by omega)
  have htake := slice_take env.file s.sdPos inandSizePerWrite hle
  have hdrop := slice_drop env.file s.sdPos n inandSizePerWrite
  refine ⟨hshort, by omega, by omega, by omega, ?_, by omega, ?_, hxz, ?_⟩
  · have happ := store_append s.inand s.inandPos
      ((slice env.file s.sdPos n).take inandSizePerWrite)
      ((slice env.file s.sdPos n).drop inandSizePerWrite)
    rw [List.take_append_drop, htake, hdrop, length_slice hfile] at happ
    rw [hin, happ]
  · rw [hsz, add32]
    omega
  · have hfull : inandSizePerWrite ≤ (slice env.file s.sdPos n).length := by omega
    rw [hlog, chunks_of_le hpos0 hfull, htake, hdrop]
    simp

theorem loadingLoop_spec {total fuel size n : ℕ} {s s' : St} {r : Except Failure ℤ}
    (h : loadingLoop env total fuel size n s = some (r, s')) (hs : s'.short = false)
    (hsum : size + n = total) (htotal : total < 2 ^ 32) :
    r = .ok 0 ∧ Copied env s s' n := by
  induction fuel generalizing size n s with
  | zero => cases h
  | succ fuel ih =>
    rw [loadingLoop] at h
    split_ifs at h with hbig
    · have hle : inandSizePerWrite ≤ n := by
        simp only [inandSizePerWrite] at *
        omega
      obtain ⟨got, s1, h1, h⟩ := Prog.step_bind h
      rw [addSizeSum, Prog.modify_bind] at h
      obtain ⟨written, s3, h3, h⟩ := Prog.step_bind h
      have hs3 : s3.short = false := by
        split_ifs at h
        · cases h
          exact hs
        · exact (Grows.loadingLoop _ _ _ _ _ _ _ h).1 hs
      obtain ⟨hgot, hs1⟩ : got = (inandSizePerWrite : ℤ) ∧ s1.short = false := by
        obtain ⟨-, hs2, -⟩ := writeInand_spec h3 hs3
        obtain ⟨hr, -⟩ := readSd_spec h1 hs2
        exact ⟨by simpa using hr, hs2⟩
      have hu : toU32 got = inandSizePerWrite := by
        subst hgot
        rfl
      rw [hu] at h h3
      obtain ⟨-, hw, hshort, hfile, hdev, hround⟩ := readWrite_spec h1 rfl h3 hs3
      rw [if_neg (by simpa using hw), add32_of_lt (by omega), sub32_of_le (by omega) htotal] at h
      obtain ⟨hr, hrest⟩ := ih (n := n - inandSizePerWrite)
        (by rwa [show total - (size + inandSizePerWrite) = n - inandSizePerWrite by omega] at h)
        (by omega)
      exact ⟨hr, hrest.cons hshort hfile hdev hle (by rw [hround])⟩
    · have hlt : n < inandSizePerWrite := by
        simp only [inandSizePerWrite] at *
        omega
      obtain ⟨got, s1, h1, h⟩ := Prog.step_bind h
      rw [addSizeSum, Prog.modify_bind] at h
      obtain ⟨written, s3, h3, h⟩ := Prog.step_bind h
      cases h
      have hu : toU32 got = n := by
        obtain ⟨-, hs2, -⟩ := writeInand_spec h3 hs
        obtain ⟨hr, -⟩ := readSd_spec h1 hs2
        cases hr
        unfold toU32
        omega
      rw [hu] at h3
      obtain ⟨-, -, hshort, hfile, hdev, hround⟩ := readWrite_spec h1 rfl h3 hs
      have hchunk : chunks inandSizePerWrite s.inandPos (slice env.file s.sdPos n)
          = [(s.inandPos, slice env.file s.sdPos n)] :=
        chunks_of_lt (by rw [length_slice hfile]; exact hlt)
      refine ⟨rfl, hshort, hfile, hdev, ?_, ?_, ?_, ?_, ?_, ?_⟩
      all_goals rw [hround]
      · rfl
      · rw [hchunk]
        rfl

/-- `loading` copies the whole section. -/
theorem loading_spec {n : ℕ} {s s' : St} {r : Except Failure ℤ}
    (h : loading env n s = some (r, s')) (hs : s'.short = false) (hn : n < 2 ^ 32) :
    r = .ok 0 ∧ Copied env s s' n := loadingLoop_spec h hs (Nat.zero_add n) hn

/-! ## The sum -/

theorem checkSumLoop_spec {total fuel size n ret : ℕ} {s s' : St} {r : Except Failure ℕ}
    (h : checkSumLoop env total fuel size n ret s = some (r, s')) (hs : s'.short = false)
    (hsum : size + n = total) (htotal : total < 2 ^ 31) :
    r = .ok ((ret + byteSum (load s.inand s.inandPos n)) % 2 ^ 32) ∧ s.short = false ∧
      n ≤ env.deviceSize - s.inandPos ∧
      s' = { s with inandPos := s.inandPos + n, buffer := s'.buffer, calls := s'.calls } := by
  induction fuel generalizing size n ret s with
  | zero => cases h
  | succ fuel ih =>
    rw [checkSumLoop] at h
    split_ifs at h with hbig
    · have hle : inandSizePerWrite ≤ n := by
        simp only [inandSizePerWrite] at *
        omega
      obtain ⟨got, s1, h1, h⟩ := Prog.step_bind h
      rw [Prog.get_bind] at h
      have hs1 := (Grows.checkSumLoop _ _ _ _ _ _ _ _ h).1 hs
      obtain ⟨hr, hshort, -, hdev, rfl⟩ := readInand_spec h1 hs1
      cases hr
      have hbuf := load_store s.buffer 0 (load s.inand s.inandPos inandSizePerWrite)
      rw [length_load] at hbuf
      have hsize : int32 ((size : ℤ) + (inandSizePerWrite : ℕ)) = (size + inandSizePerWrite : ℕ) := by
        rw [int32_of_range (by omega) (by omega)]
        omega
      have hrem : int32 ((total : ℤ) - (size + inandSizePerWrite : ℕ)) =
          (n - inandSizePerWrite : ℕ) := by
        rw [int32_of_range (by omega) (by omega)]
        omega
      rw [hsize, hrem] at h
      obtain ⟨hr, -, hdev', hs'⟩ := ih h (by omega)
      have hsplit := load_append s.inand s.inandPos inandSizePerWrite (n - inandSizePerWrite)
      rw [Nat.add_sub_cancel' hle] at hsplit
      refine ⟨?_, hshort, by simp only at hdev'; omega, ?_⟩
      · rw [hr, hsplit, byteSum_append, add32, hbuf, Nat.mod_add_mod, Nat.add_assoc]
      · have hpos : s.inandPos + inandSizePerWrite + (n - inandSizePerWrite) = s.inandPos + n := by
          omega
        rw [hpos] at hs'
        exact hs'
    · obtain ⟨got, s1, h1, h⟩ := Prog.step_bind h
      rw [Prog.get_bind] at h
      cases h
      have hu : toU32 n = n := by
        unfold toU32
        omega
      rw [hu] at h1
      obtain ⟨-, hshort, -, hdev, rfl⟩ := readInand_spec h1 hs
      have hbuf := load_store s.buffer 0 (load s.inand s.inandPos n)
      rw [length_load] at hbuf
      refine ⟨?_, hshort, hdev, rfl⟩
      rw [Int.toNat_natCast, hbuf, add32]

/-- A negative size makes the read come up short. -/
theorem checkSumLoop_neg {total size n : ℤ} {fuel ret : ℕ} {s s' : St} {r : Except Failure ℕ}
    (h : checkSumLoop env total fuel size n ret s = some (r, s')) (hn : n < 0)
    (hlow : -2 ^ 31 ≤ n) : s'.short = true := by
  cases fuel with
  | zero => cases h
  | succ fuel =>
    rw [checkSumLoop, if_neg (by simp only [inandSizePerWrite]; omega)] at h
    obtain ⟨got, s1, h1, h⟩ := Prog.step_bind h
    rw [Prog.get_bind] at h
    cases h
    by_contra hs
    obtain ⟨-, -, hlt, -⟩ := readInand_spec h1 (by simpa using hs)
    unfold toU32 at hlt
    omega

/-- `get_check_sum` sums the bytes on the flash. -/
theorem getCheckSum_spec {size : ℤ} {s s' : St} {r : Except Failure ℕ}
    (h : getCheckSum env size s = some (r, s')) (hs : s'.short = false)
    (hlow : -2 ^ 31 ≤ size) (hhigh : size < 2 ^ 31) :
    0 ≤ size ∧ r = .ok (byteSum (load s.inand s.inandPos size.toNat) % 2 ^ 32) ∧
      s.short = false ∧ size.toNat ≤ env.deviceSize - s.inandPos ∧
      s' = { s with
        inandPos := s.inandPos + size.toNat, buffer := s'.buffer, calls := s'.calls } := by
  have hpos : 0 ≤ size := by
    by_contra hneg
    rw [checkSumLoop_neg h (by omega) hlow] at hs
    cases hs
  obtain ⟨n, rfl⟩ := Int.eq_ofNat_of_zero_le hpos
  have hloop : checkSumLoop env n env.fuel ((0 : ℕ) : ℤ) n 0 s = some (r, s') := h
  obtain ⟨hr, hshort, hdev, hs'⟩ := checkSumLoop_spec hloop hs (by omega) (by omega)
  rw [Nat.zero_add] at hr
  exact ⟨hpos, hr, hshort, hdev, hs'⟩

/-! ## A stage -/

/-- The offset of the file a stage reads from when `fd_sd` is at `pos`. -/
def Stage.source (t : Stage) (pos : ℕ) : ℕ :=
  match t.seek with
  | some off => if 0 ≤ int32 off then off else pos
  | none => pos

/-- The device offset `SEEK_END` plus `off` stands for. -/
def fromEnd (env : Env) (off : ℤ) : ℕ := (env.deviceSize + off).toNat

/-- Both positions of a stage lie on the device. -/
structure Stage.OnDevice (env : Env) (t : Stage) : Prop where
  flash : 0 ≤ env.deviceSize + t.flash
  flash_le : t.flash ≤ 0
  verify : 0 ≤ env.deviceSize + t.verify
  verify_le : t.verify ≤ 0

/-- The sizes of a stage have their C types. -/
structure Stage.Typed (t : Stage) : Prop where
  size : t.size < 2 ^ 32
  verify_ge : -2 ^ 31 ≤ t.verifySize
  verify_lt : t.verifySize < 2 ^ 31

/-- What a stage puts on the flash when it reads from `src`. -/
def Stage.write (env : Env) (t : Stage) (src : ℕ) : Write :=
  (fromEnd env t.flash, slice env.file src t.size)

/-- `s'` is `s` after `t` copied its section from `src` of the file. -/
structure Staged (env : Env) (t : Stage) (src : ℕ) (s s' : St) : Prop where
  short : s.short = false
  inFile : t.size ≤ env.file.length - src
  inDevice : t.size ≤ env.deviceSize - fromEnd env t.flash
  sdPos : s'.sdPos = src + t.size
  inand : s'.inand = applyWrites [t.write env src] s.inand
  sizeSum : s'.sizeSum = (s.sizeSum + t.size) % 2 ^ 32
  untarXz : s'.untarXz = s.untarXz
  log : s'.log = s.log ++
    (chunks inandSizePerWrite (t.write env src).1 (t.write env src).2).map .write

theorem seekSource_apply (t : Stage) (s : St) :
    seekSource t s = some (.ok (), { s with sdPos := t.source s.sdPos }) := by
  unfold seekSource Stage.source
  cases t.seek with
  | none => rfl
  | some off =>
    by_cases hoff : 0 ≤ int32 off <;> simp [seekSd, hoff]

theorem seekInand_apply {off : ℤ} (h0 : 0 ≤ env.deviceSize + off) (h1 : off ≤ 0) (s : St) :
    seekInand env off s = some (.ok (), { s with inandPos := fromEnd env off }) := by
  simp [seekInand, h0, h1, fromEnd]

/-- A stage in which nothing comes up short copies its section and goes on
    exactly if the bytes then on the flash have the expected sum. -/
theorem stage_spec {t : Stage} {s s' : St} {r : Except Failure Unit}
    (h : stage env t s = some (r, s')) (hs : s'.short = false) (hdev : t.OnDevice env)
    (htyped : t.Typed) :
    Staged env t (t.source s.sdPos) s s' ∧ 0 ≤ t.verifySize ∧
      r = if byteSum (load s'.inand (fromEnd env t.verify) t.verifySize.toNat) % 2 ^ 32 = t.checkSum
        then .ok () else .error (.checkSum t.check) := by
  rw [stage, Prog.bind_ok (seekSource_apply t s),
    Prog.bind_ok (seekInand_apply hdev.flash hdev.flash_le _)] at h
  rcases Prog.bind_eq_some.mp h with ⟨e, hl, -⟩ | ⟨got, s1, hl, h⟩
  · cases (loading_spec hl hs htyped.size).1
  rw [Prog.bind_ok (seekInand_apply hdev.verify hdev.verify_le _)] at h
  rcases Prog.bind_eq_some.mp h with ⟨e, hc, -⟩ | ⟨sum, s2, hc, h⟩
  · cases (getCheckSum_spec hc hs htyped.verify_ge htyped.verify_lt).2.1
  have hs2 : s2 = s' := by
    unfold Prog.exitIf at h
    split_ifs at h <;> cases h <;> rfl
  subst hs2
  obtain ⟨hpos, hsum, hs1, -, hs2⟩ := getCheckSum_spec hc hs htyped.verify_ge htyped.verify_lt
  obtain ⟨-, hcopy⟩ := loading_spec hl hs1 htyped.size
  cases hsum
  refine ⟨⟨hcopy.short, hcopy.inFile, hcopy.inDevice, ?_, ?_, ?_, ?_, ?_⟩, hpos, ?_⟩
  · rw [hs2]
    exact hcopy.sdPos
  · rw [hs2]
    exact hcopy.inand
  · rw [hs2]
    exact hcopy.sizeSum
  · rw [hs2]
    exact hcopy.untarXz
  · rw [hs2]
    exact hcopy.log
  · unfold Prog.exitIf at h
    rw [hs2]
    simp only at h ⊢
    by_cases heq : byteSum (load s1.inand (fromEnd env t.verify) t.verifySize.toNat) % 2 ^ 32
        = t.checkSum
    · rw [if_neg (not_not.mpr (by simpa using heq))] at h
      rw [if_pos heq]
      cases h
      rfl
    · rw [if_pos (by simpa using heq)] at h
      rw [if_neg heq]
      cases h
      rfl

/-! ## Stages in a row -/

/-- What the stages `ts` put on the flash when `fd_sd` starts at `pos`. -/
def stageWrites (env : Env) : List Stage → ℕ → List Write
  | [], _ => []
  | t :: ts, pos => t.write env (t.source pos) :: stageWrites env ts (t.source pos + t.size)

/-- `t` accepts what it has written itself, whatever was on the flash. -/
def Stage.Passes (env : Env) (t : Stage) (src : ℕ) : Prop :=
  ∀ d, byteSum (load (applyWrites [t.write env src] d) (fromEnd env t.verify) t.verifySize.toNat)
    % 2 ^ 32 = t.checkSum

/-- Every stage of `ts` accepts what it writes. -/
def AllPass (env : Env) : List Stage → ℕ → Prop
  | [], _ => True
  | t :: ts, pos => t.Passes env (t.source pos) ∧ AllPass env ts (t.source pos + t.size)

/-- `s'` is `s` after all the stages `ts`. -/
structure Ran (env : Env) (ts : List Stage) (s s' : St) : Prop where
  short : s.short = false
  inand : s'.inand = applyWrites (stageWrites env ts s.sdPos) s.inand
  inDevice : ∀ w ∈ stageWrites env ts s.sdPos, w.1 + w.2.length ≤ env.deviceSize
  log : s'.log = s.log ++ ((stageWrites env ts s.sdPos).flatMap fun w =>
    chunks inandSizePerWrite w.1 w.2).map .write

theorem Ran.nil {s : St} (hs : s.short = false) : Ran env [] s s :=
  ⟨hs, rfl, by simp [stageWrites], by simp [stageWrites]⟩

theorem Ran.cons {t : Stage} {ts : List Stage} {s s1 s' : St}
    (hstage : Staged env t (t.source s.sdPos) s s1) (hle : t.flash ≤ 0)
    (hrest : Ran env ts s1 s') : Ran env (t :: ts) s s' := by
  obtain ⟨-, hin, hdev, hlog⟩ := hrest
  rw [hstage.sdPos] at hin hdev hlog
  refine ⟨hstage.short, ?_, ?_, ?_⟩
  · rw [hin, hstage.inand, stageWrites, applyWrites_cons]
    rfl
  · intro w hw
    rcases List.mem_cons.mp hw with rfl | hw
    · have hlen := length_slice hstage.inFile
      have hd := hstage.inDevice
      show fromEnd env t.flash + (slice env.file (t.source s.sdPos) t.size).length ≤ _
      rw [hlen]
      unfold fromEnd at *
      omega
    · exact hdev w hw
  · rw [hlog, hstage.log, stageWrites, List.flatMap_cons, List.map_append, List.append_assoc]

/-- Stages that all passed wrote all their sections. -/
theorem runStages_ok {ts : List Stage} {s s' : St}
    (h : runStages env ts s = some (.ok (), s')) (hs : s'.short = false)
    (hdev : ∀ t ∈ ts, t.OnDevice env) (htyped : ∀ t ∈ ts, t.Typed) : Ran env ts s s' := by
  induction ts generalizing s with
  | nil =>
    cases h
    exact Ran.nil hs
  | cons t ts ih =>
    obtain ⟨_, s1, hst, hrest⟩ := Prog.bind_eq_ok.mp h
    have hs1 := (Grows.runStages ts _ _ _ hrest).1 hs
    obtain ⟨hstage, -⟩ := stage_spec hst hs1 (hdev t List.mem_cons_self)
      (htyped t List.mem_cons_self)
    exact Ran.cons hstage (hdev t List.mem_cons_self).flash_le
      (ih hrest (fun u hu => hdev u (List.mem_cons_of_mem _ hu))
        fun u hu => htyped u (List.mem_cons_of_mem _ hu))

/-- Stages that accept what they write all pass. -/
theorem runStages_passes {ts : List Stage} {s s' : St} {r : Except Failure Unit}
    (h : runStages env ts s = some (r, s')) (hs : s'.short = false)
    (hdev : ∀ t ∈ ts, t.OnDevice env) (htyped : ∀ t ∈ ts, t.Typed)
    (hpass : AllPass env ts s.sdPos) : r = .ok () := by
  induction ts generalizing s with
  | nil =>
    cases h
    rfl
  | cons t ts ih =>
    have hstage : ∀ {r1 s1}, stage env t s = some (r1, s1) → s1.short = false →
        r1 = .ok () ∧ s1.sdPos = t.source s.sdPos + t.size := by
      intro r1 s1 hst hs1
      obtain ⟨hstage, -, hr⟩ := stage_spec hst hs1 (hdev t List.mem_cons_self)
        (htyped t List.mem_cons_self)
      rw [hstage.inand, if_pos (hpass.1 s.inand)] at hr
      exact ⟨hr, hstage.sdPos⟩
    rcases Prog.bind_eq_some.mp h with ⟨e, hst, -⟩ | ⟨_, s1, hst, hrest⟩
    · cases (hstage hst hs).1
    · have hs1 := (Grows.runStages ts _ _ _ hrest).1 hs
      refine ih hrest (fun u hu => hdev u (List.mem_cons_of_mem _ hu))
        (fun u hu => htyped u (List.mem_cons_of_mem _ hu)) ?_
      rw [(hstage hst hs1).2]
      exact hpass.2

/-! ## Runs exist -/

section Total

/-! With full transfers, enough fuel and everything in range, a stage returns. -/

variable (hio : ∀ k, env.io k = .full)

include hio

theorem readSd_full {n : ℕ} {s : St} (hn : n < 2 ^ 31) (h : n ≤ env.file.length - s.sdPos) :
    readSd env n s = some (.ok (n : ℤ), { s with
      sdPos := s.sdPos + n
      buffer := store s.buffer 0 ((env.file.drop s.sdPos).take n)
      got := s.got ++ (env.file.drop s.sdPos).take n
      calls := s.calls + 1 }) := by
  simp [readSd, hio, transferred_full hn h]

theorem readInand_full {n : ℕ} {s : St} (hn : n < 2 ^ 31) (h : n ≤ env.deviceSize - s.inandPos) :
    readInand env n s = some (.ok (n : ℤ), { s with
      inandPos := s.inandPos + n
      buffer := store s.buffer 0 (load s.inand s.inandPos n)
      calls := s.calls + 1 }) := by
  simp [readInand, hio, transferred_full hn h]

theorem writeInand_full {n : ℕ} {s : St} (hn : n < 2 ^ 31) (h : n ≤ env.deviceSize - s.inandPos) :
    writeInand env n s = some (.ok (n : ℤ), { s with
      inandPos := s.inandPos + n
      inand := store s.inand s.inandPos (load s.buffer 0 n)
      handed := s.handed ++ load s.buffer 0 n
      calls := s.calls + 1
      log := s.log ++ [.write (s.inandPos, load s.buffer 0 n)] }) := by
  simp [writeInand, hio, transferred_full hn h]

theorem loadingLoop_total {total fuel size n : ℕ} {s : St} (hfuel : n / inandSizePerWrite < fuel)
    (hsum : size + n = total) (htotal : total < 2 ^ 32)
    (hfile : n ≤ env.file.length - s.sdPos) (hdev : n ≤ env.deviceSize - s.inandPos)
    (hs : s.short = false) :
    ∃ r s', loadingLoop env total fuel size n s = some (r, s') ∧ s'.short = false := by
  induction fuel generalizing size n s with
  | zero => exact absurd hfuel (Nat.not_lt_zero _)
  | succ fuel ih =>
    rw [loadingLoop]
    have hconst : inandSizePerWrite < 2 ^ 31 := by norm_num [inandSizePerWrite]
    split_ifs with hbig
    · have hle : inandSizePerWrite ≤ n := by
        simp only [inandSizePerWrite] at *
        omega
      have hu : toU32 (inandSizePerWrite : ℤ) = inandSizePerWrite := rfl
      rw [Prog.bind_ok (readSd_full hio hconst (by omega)), addSizeSum, Prog.modify_bind,
        Prog.bind_ok (writeInand_full hio hconst (by simp only; omega)),
        if_neg (by simp), hu, add32_of_lt (by omega), sub32_of_le (by omega) htotal]
      refine ih ?_ (by omega) ?_ ?_ hs
      · simp only [inandSizePerWrite] at *
        omega
      · simp only
        omega
      · simp only
        omega
    · have hlt : n < 2 ^ 31 := by
        simp only [inandSizePerWrite] at *
        omega
      rw [Prog.bind_ok (readSd_full hio hlt (by omega)), addSizeSum, Prog.modify_bind,
        Prog.bind_ok (writeInand_full hio hlt (by simp only; omega))]
      exact ⟨_, _, rfl, hs⟩

theorem checkSumLoop_total {total fuel size n : ℕ} (ret : ℕ) {s : St}
    (hfuel : n / inandSizePerWrite < fuel) (hsum : size + n = total) (htotal : total < 2 ^ 31)
    (hdev : n ≤ env.deviceSize - s.inandPos) (hs : s.short = false) :
    ∃ r s', checkSumLoop env total fuel size n ret s = some (r, s') ∧ s'.short = false := by
  induction fuel generalizing size n ret s with
  | zero => exact absurd hfuel (Nat.not_lt_zero _)
  | succ fuel ih =>
    rw [checkSumLoop]
    have hconst : inandSizePerWrite < 2 ^ 31 := by norm_num [inandSizePerWrite]
    split_ifs with hbig
    · have hle : inandSizePerWrite ≤ n := by
        simp only [inandSizePerWrite] at *
        omega
      have hsize : int32 ((size : ℤ) + (inandSizePerWrite : ℕ)) = (size + inandSizePerWrite : ℕ) := by
        rw [int32_of_range (by omega) (by omega)]
        omega
      have hrem : int32 ((total : ℤ) - (size + inandSizePerWrite : ℕ)) =
          (n - inandSizePerWrite : ℕ) := by
        rw [int32_of_range (by omega) (by omega)]
        omega
      rw [Prog.bind_ok (readInand_full hio hconst (by omega)), Prog.get_bind, hsize, hrem]
      refine ih _ ?_ (by omega) ?_ hs
      · simp only [inandSizePerWrite] at *
        omega
      · simp only
        omega
    · have hu : toU32 n = n := by
        unfold toU32
        omega
      rw [hu, Prog.bind_ok (readInand_full hio (by omega) (by omega)), Prog.get_bind]
      exact ⟨_, _, rfl, hs⟩

/-- What a stage needs to run from `src`: the file, the device and the loop
    bound are large enough. -/
structure Stage.Fits (env : Env) (t : Stage) (src : ℕ) : Prop where
  size : t.size < 2 ^ 31
  verify : 0 ≤ t.verifySize
  file : t.size ≤ env.file.length - src
  flash : t.size ≤ env.deviceSize - fromEnd env t.flash
  check : t.verifySize.toNat ≤ env.deviceSize - fromEnd env t.verify
  fuel : t.size / inandSizePerWrite < env.fuel
  fuel_check : t.verifySize.toNat / inandSizePerWrite < env.fuel

theorem stage_total {t : Stage} {s : St} (hdev : t.OnDevice env) (htyped : t.Typed)
    (hfit : t.Fits env (t.source s.sdPos)) (hs : s.short = false) :
    ∃ r s', stage env t s = some (r, s') ∧ s'.short = false := by
  obtain ⟨hsize, hpos, hfile, hflash, hverify, hfuel, hfuel'⟩ := hfit
  have hver := htyped.verify_lt
  rw [stage, Prog.bind_ok (seekSource_apply t s),
    Prog.bind_ok (seekInand_apply hdev.flash hdev.flash_le _)]
  obtain ⟨r1, s1, hl, hs1⟩ := loadingLoop_total (s := { s with
    sdPos := t.source s.sdPos, inandPos := fromEnd env t.flash }) hio hfuel (Nat.zero_add t.size)
    (by omega) hfile hflash hs
  obtain ⟨hr1, -⟩ := loading_spec hl hs1 (by omega)
  subst hr1
  rw [Prog.bind_ok (show loading env t.size _ = some (.ok 0, s1) from hl),
    Prog.bind_ok (seekInand_apply hdev.verify hdev.verify_le _)]
  obtain ⟨n, hn⟩ := Int.eq_ofNat_of_zero_le hpos
  rw [hn] at hver hfuel' hverify ⊢
  obtain ⟨r2, s2, hc, hs2⟩ := checkSumLoop_total hio 0 (s := { s1 with
    inandPos := fromEnd env t.verify }) hfuel' (Nat.zero_add _) (by omega) hverify hs1
  have hsum : getCheckSum env n { s1 with inandPos := fromEnd env t.verify } = some (r2, s2) := hc
  obtain ⟨-, hr2, -⟩ := getCheckSum_spec hsum hs2 (by omega) (by omega)
  subst hr2
  rw [Prog.bind_ok hsum]
  unfold Prog.exitIf
  split_ifs
  · exact ⟨_, _, rfl, hs2⟩
  · exact ⟨_, _, rfl, hs2⟩

/-- The stages `ts` fit the file, the device and the loop bound. -/
def AllFit (env : Env) : List Stage → ℕ → Prop
  | [], _ => True
  | t :: ts, pos => t.Fits env (t.source pos) ∧ AllFit env ts (t.source pos + t.size)

/-- Stages that fit and accept what they write run to the end. -/
theorem runStages_total {ts : List Stage} {s : St} (hdev : ∀ t ∈ ts, t.OnDevice env)
    (htyped : ∀ t ∈ ts, t.Typed) (hpass : AllPass env ts s.sdPos) (hfit : AllFit env ts s.sdPos)
    (hs : s.short = false) :
    ∃ s', runStages env ts s = some (.ok (), s') ∧ s'.short = false := by
  induction ts generalizing s with
  | nil => exact ⟨s, rfl, hs⟩
  | cons t ts ih =>
    have ht := htyped t List.mem_cons_self
    have hd := hdev t List.mem_cons_self
    obtain ⟨r, s1, hst, hs1⟩ := stage_total hio hd ht hfit.1 hs
    obtain ⟨hstage, -, hr⟩ := stage_spec hst hs1 hd ht
    rw [hstage.inand, if_pos (hpass.1 s.inand)] at hr
    subst hr
    rw [runStages, Prog.bind_ok hst]
    refine ih (fun u hu => hdev u (List.mem_cons_of_mem _ hu))
      (fun u hu => htyped u (List.mem_cons_of_mem _ hu)) ?_ ?_ hs1
    · rw [hstage.sdPos]
      exact hpass.2
    · rw [hstage.sdPos]
      exact hfit.2

end Total

end SmartQ.Firmware.Upgrade
