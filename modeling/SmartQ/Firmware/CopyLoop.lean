import SmartQ.Firmware.Stage
import SmartQ.Lib.CInt

/-!
# The copy loops of `upgrade`

`loading` and the parent's side of `loading_fs` run the same loop: in every round a
chunk is read, what `read` returned is added to an unsigned count, and the whole
chunk is handed on. They differ in the size of the chunk and in what takes it, the
flash device or a pipe; `copyLoop` is the loop with these left open.

* `copyLoop_meets`, `copyLoop_exact_meets`: the loop ends and copies exactly if and
  only if every read obtains what it asks for.
* `copyLoops_exact_iff`: so do the two loops of the source.
* `loadingFsLoop_eof`: at the end of the file the loop of `loading_fs` does not end.
* `copyLoop_sizeSum`: what a loop all of whose reads return their count adds to
  `size_sum`.
-/

namespace SmartQ.Firmware.Upgrade

open SmartQ.Lib

/-! ## One loop for both -/

/-- What round `k` of a copy of `n` bytes asks for. -/
def request (chunk n k : ℕ) : ℕ := if k < n / chunk then chunk else n % chunk

/-- The loop, with the chunk and what takes it left open; `put` tells whether it was
    taken. -/
def copyLoop (env : Env) (chunk : ℕ) (put : ℕ → Prog St Failure Bool) (totalSize : ℕ) :
    ℕ → ℕ → ℕ → Prog St Failure ℤ
  | 0, _, _ => Prog.stuck
  | fuel + 1, size, remnantSize =>
    if remnantSize / chunk > 0 then do
      let readSize ← readSd env chunk
      addSizeSum (toU32 readSize)
      let taken ← put chunk
      if taken then
        copyLoop env chunk put totalSize fuel (add32 size (toU32 readSize))
          (sub32 totalSize (add32 size (toU32 readSize)))
      else pure (-1)
    else do
      let readSize ← readSd env remnantSize
      addSizeSum (toU32 readSize)
      let _ ← put remnantSize
      pure 0

/-- `write` to the device, and whether it took all. -/
def putInand (env : Env) (n : ℕ) : Prog St Failure Bool := do
  let written ← writeInand env n
  pure (decide (written = n))

/-- `write` to the pipe, whose value is not looked at. -/
def putPipe (n : ℕ) : Prog St Failure Bool := do
  writePipe n
  pure true

theorem loadingLoop_eq (env : Env) (total fuel size n : ℕ) :
    loadingLoop env total fuel size n =
      copyLoop env inandSizePerWrite (putInand env) total fuel size n := by
  induction fuel generalizing size n with
  | zero => rfl
  | succ fuel ih =>
    rw [loadingLoop, copyLoop]
    by_cases hbig : n / inandSizePerWrite > 0
    · rw [if_pos hbig, if_pos hbig]
      congr 1
      funext readSize
      congr 1
      funext _
      rw [putInand, Prog.bind_assoc]
      congr 1
      funext written
      funext s
      by_cases hw : written = inandSizePerWrite
      · rw [if_neg (not_not.mpr hw), Prog.ret_bind, decide_eq_true hw, if_pos rfl, ih]
      · rw [if_pos hw, Prog.ret_bind, decide_eq_false hw, if_neg Bool.false_ne_true]
    · rw [if_neg hbig, if_neg hbig]
      rfl

theorem loadingFsLoop_eq (env : Env) (total fuel size n : ℕ) :
    (loadingFsLoop env total fuel size n >>= fun _ => pure 0) =
      copyLoop env rootfsSizePerWrite putPipe total fuel size n := by
  induction fuel generalizing size n with
  | zero => rfl
  | succ fuel ih =>
    rw [loadingFsLoop, copyLoop]
    by_cases hbig : n / rootfsSizePerWrite > 0
    · rw [if_pos hbig, if_pos hbig, Prog.bind_assoc]
      congr 1
      funext readSize
      rw [Prog.bind_assoc]
      congr 1
      funext _
      rw [putPipe, Prog.bind_assoc, Prog.bind_assoc]
      congr 1
      funext _
      rw [ih]
      rfl
    · rw [if_neg hbig, if_neg hbig]
      rfl

/-! ## One round -/

section Round

variable (env : Env) (n : ℕ) (s : St)

/-- What `read(fd_sd, buffer, n)` returns in state `s`. -/
def sdRead : ℤ := transferred (env.io s.calls) n (env.file.length - s.sdPos)

/-- The state behind the `read` of a chunk, whatever it has returned. -/
def afterRead : St :=
  { s with
    sdPos := s.sdPos + (sdRead env n s).toNat
    buffer := store s.buffer 0 (slice env.file s.sdPos (sdRead env n s).toNat)
    got := s.got ++ slice env.file s.sdPos (sdRead env n s).toNat
    sizeSum := add32 s.sizeSum (toU32 (sdRead env n s))
    calls := s.calls + 1
    short := s.short || sdRead env n s != n }

theorem readSd_bind {β : Type} (f : ℤ → Prog St Failure β) :
    (do let readSize ← readSd env n
        addSizeSum (toU32 readSize)
        f readSize : Prog St Failure β) s = f (sdRead env n s) (afterRead env n s) := rfl

theorem sdRead_le : (sdRead env n s).toNat ≤ n ∧
    (sdRead env n s).toNat ≤ env.file.length - s.sdPos := by
  obtain ⟨h1, h2⟩ := transferred_le (env.io s.calls) n (env.file.length - s.sdPos)
  unfold sdRead
  omega

/-- A read that obtains something returned how much. -/
theorem sdRead_eq {k : ℕ} (hk : 0 < k) (h : (sdRead env n s).toNat = k) : sdRead env n s = k := by
  omega

/-- A full read fills the buffer. -/
theorem load_afterRead (h : (sdRead env n s).toNat = n) :
    load (afterRead env n s).buffer 0 n = slice env.file s.sdPos n := by
  have hlen : (slice env.file s.sdPos n).length = n := by
    have := (sdRead_le env n s).2
    exact length_slice (by omega)
  have hload := load_store s.buffer 0 (slice env.file s.sdPos n)
  rw [hlen] at hload
  show load (store s.buffer 0 (slice env.file s.sdPos (sdRead env n s).toNat)) 0 n = _
  rw [h, hload]

end Round

/-- What takes the bytes: it appends them to what was handed on, in `extra` system calls;
    `takes s j` tells whether it takes the chunk of the `j`-th full round from `s` on. -/
structure Puts (env : Env) (chunk extra : ℕ) (put : ℕ → Prog St Failure Bool)
    (takes : St → ℕ → Prop) : Prop where
  run : ∀ n s, ∃ b s', put n s = some (.ok b, s') ∧ s'.handed = s.handed ++ load s.buffer 0 n ∧
    s'.got = s.got ∧ s'.sdPos = s.sdPos ∧ s'.calls = s.calls + extra ∧ s'.sizeSum = s.sizeSum
  first : ∀ {s s' b}, put chunk (afterRead env chunk s) = some (.ok b, s') → (b = true ↔ takes s 0)
  next : ∀ {s s'}, put chunk (afterRead env chunk s) = some (.ok true, s') →
    ∀ j, takes s' j ↔ takes s (j + 1)

/-- The write of the `j`-th full round of `loading` moves the chunk. -/
def inandTakes (env : Env) (s : St) (j : ℕ) : Prop :=
  transferred (env.io (s.calls + 2 * j + 1)) inandSizePerWrite
    (env.deviceSize - (s.inandPos + inandSizePerWrite * j)) = inandSizePerWrite

theorem puts_inand (env : Env) : Puts env inandSizePerWrite 1 (putInand env) (inandTakes env) := by
  constructor
  case run =>
    intro n s
    exact ⟨_, _, rfl, rfl, rfl, rfl, rfl, rfl⟩
  case first =>
    intro s s' b h
    cases h
    rw [decide_eq_true_iff]
    rfl
  case next =>
    intro s s' h j
    rw [putInand] at h
    obtain ⟨written, s1, hw, h⟩ := Prog.bind_eq_ok.mp h
    cases hw
    have hfull := Option.some.inj h
    simp only [Prod.mk.injEq, Except.ok.injEq, decide_eq_true_eq] at hfull
    obtain ⟨hfull, rfl⟩ := hfull
    unfold inandTakes
    have hcalls : (afterRead env inandSizePerWrite s).calls + 1 + 2 * j + 1 =
        s.calls + 2 * (j + 1) + 1 := by
      show s.calls + 1 + 1 + 2 * j + 1 = _
      omega
    have hpos : (afterRead env inandSizePerWrite s).inandPos + inandSizePerWrite +
        inandSizePerWrite * j = s.inandPos + inandSizePerWrite * (j + 1) := by
      show s.inandPos + inandSizePerWrite + inandSizePerWrite * j = _
      rw [Nat.mul_succ]
      omega
    simp only [hfull, Int.toNat_natCast, hcalls, hpos]

theorem puts_pipe (env : Env) : Puts env rootfsSizePerWrite 0 putPipe fun _ _ => True := by
  constructor
  case run =>
    intro n s
    exact ⟨_, _, rfl, rfl, rfl, rfl, rfl, rfl⟩
  case first =>
    intro s s' b h
    cases h
    exact iff_of_true rfl trivial
  case next =>
    intro s s' _ j
    exact Iff.rfl

/-! ## The condition -/

section Condition

variable (env : Env) (chunk extra : ℕ) (takes : St → ℕ → Prop) (n : ℕ) (s : St)

/-- What the `read` of round `k` returns if all rounds before were full. -/
def roundRead (k : ℕ) : ℤ :=
  transferred (env.io (s.calls + (extra + 1) * k)) (request chunk n k)
    (env.file.length - (s.sdPos + chunk * k))

/-- Up to the first chunk that is not taken, every read obtains what it asks for. -/
def CopyMeets : Prop :=
  ∀ k ≤ n / chunk, (∀ j < k, takes s j) →
    (roundRead env chunk extra n s k).toNat = request chunk n k

end Condition

section Rounds

variable {env : Env} {chunk extra : ℕ} {takes : St → ℕ → Prop} {n : ℕ} {s s3 : St}

theorem request_of_lt (hlt : n < chunk) : request chunk n 0 = n := by
  rw [request, Nat.div_eq_of_lt hlt, if_neg (Nat.lt_irrefl 0), Nat.mod_eq_of_lt hlt]

theorem request_zero (hpos : 0 < chunk) (hle : chunk ≤ n) : request chunk n 0 = chunk :=
  if_pos (Nat.div_pos hle hpos)

theorem request_succ (hpos : 0 < chunk) (hle : chunk ≤ n) (k : ℕ) :
    request chunk n (k + 1) = request chunk (n - chunk) k := by
  have hdiv : n / chunk = (n - chunk) / chunk + 1 := Nat.div_eq_sub_div hpos hle
  have hmod : n % chunk = (n - chunk) % chunk := Nat.mod_eq_sub_mod hle
  unfold request
  rw [hdiv, hmod]
  by_cases hk : k < (n - chunk) / chunk
  · rw [if_pos hk, if_pos (Nat.succ_lt_succ hk)]
  · rw [if_neg hk, if_neg (by omega)]

theorem roundRead_zero : roundRead env chunk extra n s 0 = sdRead env (request chunk n 0) s := rfl

/-- The rounds behind a full one. -/
theorem roundRead_succ (hpos : 0 < chunk) (hle : chunk ≤ n) (hcalls : s3.calls = s.calls + 1 + extra)
    (hsd : s3.sdPos = s.sdPos + chunk) (k : ℕ) :
    roundRead env chunk extra (n - chunk) s3 k = roundRead env chunk extra n s (k + 1) := by
  have h1 : s3.calls + (extra + 1) * k = s.calls + (extra + 1) * (k + 1) := by
    rw [hcalls, Nat.mul_succ]
    omega
  have h2 : s3.sdPos + chunk * k = s.sdPos + chunk * (k + 1) := by
    rw [hsd, Nat.mul_succ]
    omega
  rw [roundRead, roundRead, h1, h2, request_succ hpos hle]

theorem copyMeets_of_lt (hlt : n < chunk) :
    CopyMeets env chunk extra takes n s ↔ (sdRead env n s).toNat = n := by
  have h0 : n / chunk = 0 := Nat.div_eq_of_lt hlt
  constructor
  · intro h
    have := h 0 (Nat.zero_le _) (fun j hj => absurd hj (Nat.not_lt_zero j))
    rwa [roundRead_zero, request_of_lt hlt] at this
  · intro h k hk _
    have hk0 : k = 0 := by omega
    subst hk0
    rw [roundRead_zero, request_of_lt hlt]
    exact h

/-- The condition one round at a time. -/
theorem copyMeets_cons (hpos : 0 < chunk) (hle : chunk ≤ n)
    (hcalls : s3.calls = s.calls + 1 + extra)
    (hsd : (sdRead env chunk s).toNat = chunk → s3.sdPos = s.sdPos + chunk)
    (hnext : takes s 0 → ∀ j, takes s3 j ↔ takes s (j + 1)) :
    CopyMeets env chunk extra takes n s ↔ (sdRead env chunk s).toNat = chunk ∧
      (takes s 0 → CopyMeets env chunk extra takes (n - chunk) s3) := by
  have hdiv : n / chunk = (n - chunk) / chunk + 1 := Nat.div_eq_sub_div hpos hle
  constructor
  · intro h
    have hread : (sdRead env chunk s).toNat = chunk := by
      have := h 0 (Nat.zero_le _) (fun j hj => absurd hj (Nat.not_lt_zero j))
      rwa [roundRead_zero, request_zero hpos hle] at this
    refine ⟨hread, ?_⟩
    intro h0 k hk htaken
    rw [roundRead_succ hpos hle hcalls (hsd hread), ← request_succ hpos hle]
    refine h (k + 1) (by omega) ?_
    intro j hj
    cases j with
    | zero => exact h0
    | succ j => exact (hnext h0 j).mp (htaken j (by omega))
  · rintro ⟨hread, hrest⟩ k hk htaken
    cases k with
    | zero =>
      rw [roundRead_zero, request_zero hpos hle]
      exact hread
    | succ k =>
      have h0 : takes s 0 := htaken 0 (Nat.succ_pos k)
      rw [← roundRead_succ hpos hle hcalls (hsd hread), request_succ hpos hle]
      refine hrest h0 k (by omega) ?_
      intro j hj
      exact (hnext h0 j).mpr (htaken (j + 1) (by omega))

end Rounds

/-! ## Exact copies -/

/-- From `s` to `s'` the bytes handed on are the bytes obtained, in order, at most
    `total` of them; and where there are fewer, `error` holds. -/
def Exact (s s' : St) (total : ℕ) (error : Prop) : Prop :=
  ∃ bs, s'.got = s.got ++ bs ∧ s'.handed = s.handed ++ bs ∧ bs.length ≤ total ∧
    (bs.length < total → error)

section Loop

variable {env : Env} {chunk extra : ℕ} {put : ℕ → Prog St Failure Bool} {takes : St → ℕ → Prop}

/-- A round that meets the condition: the count goes on where it should. -/
theorem copy_count {total size n : ℕ} {s : St} (hpos : 0 < chunk) (hlt : chunk < 2 ^ 31)
    (hsum : size + n = total) (htotal : total < 2 ^ 32)
    (hle : chunk ≤ n) (hread : (sdRead env chunk s).toNat = chunk) :
    add32 size (toU32 (sdRead env chunk s)) = size + chunk ∧
      sub32 total (size + chunk) = n - chunk := by
  rw [sdRead_eq env chunk s hpos hread, toU32_natCast (by omega), add32_of_lt (by omega),
    sub32_of_le (by omega) htotal]
  exact ⟨rfl, by omega⟩

variable (hput : Puts env chunk extra put takes)

include hput

/-- One round, with what the step behind it starts from. -/
theorem copy_round (n : ℕ) (s : St) :
    ∃ b s3, put n (afterRead env n s) = some (.ok b, s3) ∧
      s3.handed = s.handed ++ load (afterRead env n s).buffer 0 n ∧
      s3.got = s.got ++ slice env.file s.sdPos (sdRead env n s).toNat ∧
      s3.sdPos = s.sdPos + (sdRead env n s).toNat ∧ s3.calls = s.calls + 1 + extra ∧
      s3.sizeSum = add32 s.sizeSum (toU32 (sdRead env n s)) :=
  hput.run n (afterRead env n s)

/-- The loop hands on at least as much as it obtains. -/
theorem copyLoop_lag {total fuel size n : ℕ} {s s' : St} {r : Except Failure ℤ}
    (h : copyLoop env chunk put total fuel size n s = some (r, s')) :
    s'.got.length + s.handed.length ≤ s.got.length + s'.handed.length := by
  induction fuel generalizing size n s with
  | zero => cases h
  | succ fuel ih =>
    have hround : ∀ (m : ℕ) (s3 : St), s3.handed = s.handed ++ load (afterRead env m s).buffer 0 m →
        s3.got = s.got ++ slice env.file s.sdPos (sdRead env m s).toNat →
        s3.got.length + s.handed.length ≤ s.got.length + s3.handed.length := by
      intro m s3 hhanded hgot
      have hread := sdRead_le env m s
      rw [hhanded, hgot, List.length_append, List.length_append, length_load,
        length_slice hread.2]
      omega
    rw [copyLoop] at h
    split_ifs at h with hbig
    · obtain ⟨b, s3, hrun, hhanded, hgot, -⟩ := copy_round hput chunk s
      rw [readSd_bind, Prog.bind_ok hrun] at h
      have hlag := hround chunk s3 hhanded hgot
      cases b with
      | false =>
        cases h
        exact hlag
      | true =>
        have hrest := ih h
        omega
    · obtain ⟨b, s3, hrun, hhanded, hgot, -⟩ := copy_round hput n s
      rw [readSd_bind, Prog.bind_ok hrun] at h
      cases h
      exact hround n _ hhanded hgot

variable (hpos : 0 < chunk) (hlt : chunk < 2 ^ 31)

include hpos hlt

/-- If every read obtains what it asks for, the loop ends and copies exactly. -/
theorem copyLoop_meets {total fuel size n : ℕ} {s : St} (hfuel : n / chunk < fuel)
    (hsum : size + n = total) (htotal : total < 2 ^ 32)
    (hmeets : CopyMeets env chunk extra takes n s) :
    ∃ r s', copyLoop env chunk put total fuel size n s = some (r, s') ∧
      Exact s s' n (r ≠ .ok 0) := by
  induction fuel generalizing size n s with
  | zero => exact absurd hfuel (Nat.not_lt_zero _)
  | succ fuel ih =>
    rw [copyLoop]
    by_cases hle : chunk ≤ n
    · have hdiv : n / chunk = (n - chunk) / chunk + 1 := Nat.div_eq_sub_div hpos hle
      obtain ⟨b, s3, hrun, hhanded, hgot, hsd, hcalls, -⟩ := copy_round hput chunk s
      have hnext : takes s 0 → ∀ j, takes s3 j ↔ takes s (j + 1) := by
        intro h0
        have hb := (hput.first hrun).mpr h0
        subst hb
        exact hput.next hrun
      obtain ⟨hread, hrest⟩ := (copyMeets_cons hpos hle hcalls
        (fun hread => by rw [hsd, hread]) hnext).mp hmeets
      obtain ⟨hsize, hremnant⟩ := copy_count hpos hlt hsum htotal hle hread
      rw [load_afterRead env chunk s hread] at hhanded
      rw [hread] at hgot
      rw [if_pos (Nat.div_pos hle hpos), readSd_bind, Prog.bind_ok hrun, hsize, hremnant]
      have hlen : (slice env.file s.sdPos chunk).length = chunk := by
        have := sdRead_le env chunk s
        exact length_slice (by omega)
      cases b with
      | false =>
        refine ⟨_, _, rfl, _, hgot, hhanded, by omega, ?_⟩
        intro _ h0
        cases h0
      | true =>
        obtain ⟨r, s', hloop, bs, hgot', hhanded', hbs, herror⟩ := ih (by omega)
          (show size + chunk + (n - chunk) = total by omega) (hrest ((hput.first hrun).mp rfl))
        refine ⟨r, s', hloop, slice env.file s.sdPos chunk ++ bs, ?_, ?_, ?_, ?_⟩
        · rw [hgot', hgot, List.append_assoc]
        · rw [hhanded', hhanded, List.append_assoc]
        · rw [List.length_append, hlen]
          omega
        · intro hshort
          rw [List.length_append, hlen] at hshort
          exact herror (by omega)
    · have hn : n < chunk := by omega
      have hread := (copyMeets_of_lt hn).mp hmeets
      obtain ⟨b, s3, hrun, hhanded, hgot, -⟩ := copy_round hput n s
      rw [load_afterRead env n s hread] at hhanded
      rw [hread] at hgot
      have hlen : (slice env.file s.sdPos n).length = n := by
        have := sdRead_le env n s
        exact length_slice (by omega)
      rw [if_neg (by rw [Nat.div_eq_of_lt hn]; exact Nat.lt_irrefl 0), readSd_bind,
        Prog.bind_ok hrun]
      exact ⟨_, _, rfl, _, hgot, hhanded, by omega, fun hshort => by omega⟩

/-- A loop that hands on no more than it obtains has obtained all it asked for. -/
theorem copyLoop_exact_meets {total fuel size n : ℕ} {s s' : St} {r : Except Failure ℤ}
    (hsum : size + n = total) (htotal : total < 2 ^ 32)
    (h : copyLoop env chunk put total fuel size n s = some (r, s'))
    (hlag : s.got.length + s'.handed.length ≤ s'.got.length + s.handed.length) :
    CopyMeets env chunk extra takes n s := by
  induction fuel generalizing size n s with
  | zero => cases h
  | succ fuel ih =>
    rw [copyLoop] at h
    by_cases hle : chunk ≤ n
    · obtain ⟨b, s3, hrun, hhanded, hgot, hsd, hcalls, -⟩ := copy_round hput chunk s
      have hnext : takes s 0 → ∀ j, takes s3 j ↔ takes s (j + 1) := by
        intro h0
        have hb := (hput.first hrun).mpr h0
        subst hb
        exact hput.next hrun
      have hle' := sdRead_le env chunk s
      have hgotlen := congrArg List.length hgot
      have hhandedlen := congrArg List.length hhanded
      rw [List.length_append, length_slice hle'.2] at hgotlen
      rw [List.length_append, length_load] at hhandedlen
      rw [if_pos (Nat.div_pos hle hpos), readSd_bind, Prog.bind_ok hrun] at h
      refine (copyMeets_cons hpos hle hcalls (fun hread => by rw [hsd, hread]) hnext).mpr ?_
      cases b with
      | false =>
        cases h
        refine ⟨by omega, ?_⟩
        intro h0
        exact absurd ((hput.first hrun).mpr h0) Bool.false_ne_true
      | true =>
        have hrest := copyLoop_lag hput h
        have hread : (sdRead env chunk s).toNat = chunk := by omega
        obtain ⟨hsize, hremnant⟩ := copy_count hpos hlt hsum htotal hle hread
        rw [if_pos rfl, hsize, hremnant] at h
        refine ⟨hread, ?_⟩
        intro _
        exact ih (show size + chunk + (n - chunk) = total by omega) h (by omega)
    · have hn : n < chunk := by omega
      obtain ⟨b, s3, hrun, hhanded, hgot, -⟩ := copy_round hput n s
      have hle' := sdRead_le env n s
      rw [if_neg (by rw [Nat.div_eq_of_lt hn]; exact Nat.lt_irrefl 0), readSd_bind,
        Prog.bind_ok hrun] at h
      cases h
      rw [hhanded, hgot, List.length_append, List.length_append, length_load,
        length_slice hle'.2] at hlag
      exact (copyMeets_of_lt hn).mpr (by omega)

/-- The loop ends and copies exactly if and only if, up to the first chunk that is not
    taken, every read obtains what it asks for. -/
theorem copyLoop_exact_iff {total : ℕ} (htotal : total < 2 ^ 32) (s : St) :
    (∃ fuel r s', copyLoop env chunk put total fuel 0 total s = some (r, s') ∧
      Exact s s' total (r ≠ .ok 0)) ↔ CopyMeets env chunk extra takes total s := by
  constructor
  · rintro ⟨fuel, r, s', h, bs, hgot, hhanded, -⟩
    refine copyLoop_exact_meets hput hpos hlt (Nat.zero_add total) htotal h ?_
    rw [hgot, hhanded, List.length_append, List.length_append]
    omega
  · intro hmeets
    obtain ⟨r, s', h⟩ := copyLoop_meets hput hpos hlt (Nat.lt_succ_self _) (Nat.zero_add total)
      htotal hmeets
    exact ⟨_, r, s', h⟩

end Loop

/-! ## Full copies -/

/-- Every read returns what it asks for, and every chunk is taken. -/
structure CopyFull (env : Env) (chunk extra : ℕ) (takes : St → ℕ → Prop) (n : ℕ) (s : St) :
    Prop where
  read : ∀ k ≤ n / chunk, roundRead env chunk extra n s k = request chunk n k
  taken : ∀ j < n / chunk, takes s j

section Full

variable {env : Env} {chunk extra : ℕ} {put : ℕ → Prog St Failure Bool} {takes : St → ℕ → Prop}

theorem copyFull_of_lt {n : ℕ} {s : St} (hlt : n < chunk) :
    CopyFull env chunk extra takes n s ↔ sdRead env n s = n := by
  have h0 : n / chunk = 0 := Nat.div_eq_of_lt hlt
  constructor
  · intro h
    have hread := h.read 0 (Nat.zero_le _)
    rwa [roundRead_zero, request_of_lt hlt] at hread
  · intro h
    refine ⟨?_, fun j hj => by omega⟩
    intro k hk
    have hk0 : k = 0 := by omega
    subst hk0
    rw [roundRead_zero, request_of_lt hlt]
    exact h

theorem copyFull_cons {n : ℕ} {s s3 : St} (hpos : 0 < chunk) (hle : chunk ≤ n)
    (hcalls : s3.calls = s.calls + 1 + extra)
    (hsd : sdRead env chunk s = chunk → s3.sdPos = s.sdPos + chunk)
    (hnext : takes s 0 → ∀ j, takes s3 j ↔ takes s (j + 1)) :
    CopyFull env chunk extra takes n s ↔ sdRead env chunk s = chunk ∧ takes s 0 ∧
      CopyFull env chunk extra takes (n - chunk) s3 := by
  have hdiv : n / chunk = (n - chunk) / chunk + 1 := Nat.div_eq_sub_div hpos hle
  constructor
  · intro h
    have hread : sdRead env chunk s = chunk := by
      have := h.read 0 (Nat.zero_le _)
      rwa [roundRead_zero, request_zero hpos hle] at this
    have h0 : takes s 0 := h.taken 0 (Nat.div_pos hle hpos)
    refine ⟨hread, h0, ?_, ?_⟩
    · intro k hk
      rw [roundRead_succ hpos hle hcalls (hsd hread), ← request_succ hpos hle]
      exact h.read (k + 1) (by omega)
    · intro j hj
      exact (hnext h0 j).mpr (h.taken (j + 1) (by omega))
  · rintro ⟨hread, h0, hrest⟩
    constructor
    · intro k hk
      cases k with
      | zero =>
        rw [roundRead_zero, request_zero hpos hle]
        exact hread
      | succ k =>
        rw [← roundRead_succ hpos hle hcalls (hsd hread), request_succ hpos hle]
        exact hrest.read k (by omega)
    · intro j hj
      cases j with
      | zero => exact h0
      | succ j => exact (hnext h0 j).mp (hrest.taken j (by omega))

variable (hput : Puts env chunk extra put takes) (hpos : 0 < chunk) (hlt : chunk < 2 ^ 31)

include hput hpos hlt

/-- A full copy returns 0 and adds what it copied to `size_sum`. -/
theorem copyLoop_sizeSum {total fuel size n : ℕ} {s s' : St} {r : Except Failure ℤ}
    (hsum : size + n = total) (htotal : total < 2 ^ 32) (hs : s.sizeSum < 2 ^ 32)
    (hfull : CopyFull env chunk extra takes n s)
    (h : copyLoop env chunk put total fuel size n s = some (r, s')) :
    r = .ok 0 ∧ s'.sizeSum = add32 s.sizeSum n := by
  induction fuel generalizing size n s with
  | zero => cases h
  | succ fuel ih =>
    rw [copyLoop] at h
    by_cases hle : chunk ≤ n
    · obtain ⟨b, s3, hrun, -, -, hsd, hcalls, hsize3⟩ := copy_round hput chunk s
      have hnext : takes s 0 → ∀ j, takes s3 j ↔ takes s (j + 1) := by
        intro h0
        have hb := (hput.first hrun).mpr h0
        subst hb
        exact hput.next hrun
      obtain ⟨hread, h0, hrest⟩ := (copyFull_cons hpos hle hcalls
        (fun hread => by rw [hsd, hread, Int.toNat_natCast]) hnext).mp hfull
      obtain ⟨hsize, hremnant⟩ := copy_count hpos hlt hsum htotal hle
        (show (sdRead env chunk s).toNat = chunk by rw [hread, Int.toNat_natCast])
      have hb := (hput.first hrun).mpr h0
      rw [if_pos (Nat.div_pos hle hpos), readSd_bind, Prog.bind_ok hrun, hb, if_pos rfl, hsize,
        hremnant] at h
      rw [hread, toU32_natCast (by omega)] at hsize3
      obtain ⟨hr, hsum'⟩ := ih (show size + chunk + (n - chunk) = total by omega)
        (by rw [hsize3]; exact add32_lt _ _) hrest h
      refine ⟨hr, ?_⟩
      rw [hsum', hsize3, add32, add32, add32, Nat.mod_add_mod]
      congr 1
      omega
    · have hn : n < chunk := by omega
      obtain ⟨b, s3, hrun, -, -, -, -, hsize3⟩ := copy_round hput n s
      rw [if_neg (by rw [Nat.div_eq_of_lt hn]; exact Nat.lt_irrefl 0), readSd_bind,
        Prog.bind_ok hrun] at h
      cases h
      rw [(copyFull_of_lt hn).mp hfull, toU32_natCast (by omega)] at hsize3
      exact ⟨rfl, hsize3⟩

omit hpos hlt in
/-- A shortness is not forgotten. -/
theorem copyLoop_short {total fuel size n : ℕ} {s s' : St} {r : Except Failure ℤ}
    (hshort : ∀ {m s b s'}, put m s = some (.ok b, s') → s'.short = false →
      s.short = false ∧ b = true)
    (h : copyLoop env chunk put total fuel size n s = some (r, s')) (hs : s'.short = false) :
    s.short = false := by
  have hread : ∀ m s, (afterRead env m s).short = false → s.short = false := by
    intro m s hs
    have hor : (s.short || sdRead env m s != m) = false := hs
    exact (Bool.or_eq_false_iff.mp hor).1
  induction fuel generalizing size n s with
  | zero => cases h
  | succ fuel ih =>
    rw [copyLoop] at h
    split_ifs at h
    · obtain ⟨b, s3, hrun, -⟩ := copy_round hput chunk s
      rw [readSd_bind, Prog.bind_ok hrun] at h
      cases b with
      | false =>
        cases h
        exact hread chunk s (hshort hrun hs).1
      | true => exact hread chunk s (hshort hrun (ih h)).1
    · obtain ⟨b, s3, hrun, -⟩ := copy_round hput n s
      rw [readSd_bind, Prog.bind_ok hrun] at h
      cases h
      exact hread n s (hshort hrun hs).1

/-- A copy in which nothing comes up short is full. -/
theorem copyLoop_full {total fuel size n : ℕ} {s s' : St} {r : Except Failure ℤ}
    (hshort : ∀ {m s b s'}, put m s = some (.ok b, s') → s'.short = false →
      s.short = false ∧ b = true)
    (hsum : size + n = total) (htotal : total < 2 ^ 32)
    (h : copyLoop env chunk put total fuel size n s = some (r, s')) (hs : s'.short = false) :
    CopyFull env chunk extra takes n s ∧ s.short = false := by
  have hread : ∀ m s, (afterRead env m s).short = false → sdRead env m s = m ∧ s.short = false := by
    intro m s hs
    have hor : (s.short || sdRead env m s != m) = false := hs
    rw [Bool.or_eq_false_iff] at hor
    exact ⟨by simpa using hor.2, hor.1⟩
  induction fuel generalizing size n s with
  | zero => cases h
  | succ fuel ih =>
    rw [copyLoop] at h
    by_cases hle : chunk ≤ n
    · obtain ⟨b, s3, hrun, -, -, hsd, hcalls, -⟩ := copy_round hput chunk s
      have hnext : takes s 0 → ∀ j, takes s3 j ↔ takes s (j + 1) := by
        intro h0
        have hb := (hput.first hrun).mpr h0
        subst hb
        exact hput.next hrun
      rw [if_pos (Nat.div_pos hle hpos), readSd_bind, Prog.bind_ok hrun] at h
      cases b with
      | false =>
        cases h
        exact absurd (hshort hrun hs).2 Bool.false_ne_true
      | true =>
        rw [if_pos rfl] at h
        have hs3 : s3.short = false → sdRead env chunk s = chunk ∧ s.short = false :=
          fun h3 => hread chunk s (hshort hrun h3).1
        have hfull : s3.short = false ∧ (sdRead env chunk s = chunk →
            CopyFull env chunk extra takes (n - chunk) s3) := by
          by_cases hg : sdRead env chunk s = chunk
          · obtain ⟨hsize, hremnant⟩ := copy_count hpos hlt hsum htotal hle
              (show (sdRead env chunk s).toNat = chunk by rw [hg, Int.toNat_natCast])
            rw [hsize, hremnant] at h
            obtain ⟨hrest, h3⟩ := ih (show size + chunk + (n - chunk) = total by omega) h
            exact ⟨h3, fun _ => hrest⟩
          · exact absurd (hs3 (copyLoop_short hput @hshort h hs)).1 hg
        obtain ⟨h3, hrest⟩ := hfull
        obtain ⟨hg, hs0⟩ := hs3 h3
        exact ⟨(copyFull_cons hpos hle hcalls (fun hread => by rw [hsd, hread, Int.toNat_natCast])
          hnext).mpr ⟨hg, (hput.first hrun).mp rfl, hrest hg⟩, hs0⟩
    · have hn : n < chunk := by omega
      obtain ⟨b, s3, hrun, -⟩ := copy_round hput n s
      rw [if_neg (by rw [Nat.div_eq_of_lt hn]; exact Nat.lt_irrefl 0), readSd_bind,
        Prog.bind_ok hrun] at h
      cases h
      obtain ⟨hg, hs0⟩ := hread n s (hshort hrun hs).1
      exact ⟨(copyFull_of_lt hn).mpr hg, hs0⟩

end Full

/-! ## The two loops -/

/-- `loading_fs` in the parent, behind the `fork` (lines 370–414). -/
def parentSide (env : Env) (fuel : ℕ) (sec : Section) (part totalSize : ℕ) :
    Prog St Failure Unit := do
  loadingFsLoop env totalSize fuel 0 totalSize
  let s ← Prog.get
  runCommand env (.untar part s.untarXz)
  Prog.exitIf (!env.waitpid sec) (.waitpid sec)

theorem loadingFs_eq (env : Env) (sec : Section) (part totalSize : ℕ) :
    loadingFs env sec part totalSize = (do
      let sniffer ← sniff env
      Prog.doIf (sniffer = lzmaSniff) (Prog.modify fun s => { s with untarXz := true })
      Prog.exitIf (sniffer ≠ lzmaSniff ∧ sniffer ≠ gzipSniff) (.archive sec)
      Prog.exitIf (!env.fork sec) (.fork sec)
      parentSide env env.fuel sec part totalSize) := rfl

/-- `loading` ends, copies exactly and reports a source that ends early. -/
def LoadingExact (env : Env) (total : ℕ) (s : St) : Prop :=
  ∃ fuel r s', loadingLoop env total fuel 0 total s = some (r, s') ∧ Exact s s' total (r ≠ .ok 0)

/-- So does the parent's side of `loading_fs`. -/
def ParentExact (env : Env) (sec : Section) (part total : ℕ) (s : St) : Prop :=
  ∃ fuel r s', parentSide env fuel sec part total s = some (r, s') ∧
    Exact s s' total (r ≠ .ok ())

section Source

variable {env : Env} {total : ℕ} {s : St}

theorem inandSizePerWrite_pos : 0 < inandSizePerWrite := by norm_num [inandSizePerWrite]

theorem inandSizePerWrite_lt : inandSizePerWrite < 2 ^ 31 := by norm_num [inandSizePerWrite]

theorem rootfsSizePerWrite_pos : 0 < rootfsSizePerWrite := by norm_num [rootfsSizePerWrite]

theorem rootfsSizePerWrite_lt : rootfsSizePerWrite < 2 ^ 31 := by norm_num [rootfsSizePerWrite]

theorem loadingExact_iff (htotal : total < 2 ^ 32) :
    LoadingExact env total s ↔ CopyMeets env inandSizePerWrite 1 (inandTakes env) total s := by
  have hiff := copyLoop_exact_iff (puts_inand env) inandSizePerWrite_pos inandSizePerWrite_lt htotal s
  unfold LoadingExact
  simp only [loadingLoop_eq]
  exact hiff

/-- Behind the loop nothing is obtained or handed on. -/
theorem parentSide_rest {fuel : ℕ} {sec : Section} {part : ℕ} {s' : St} {r : Except Failure Unit}
    (h : parentSide env fuel sec part total s = some (r, s')) :
    ∃ r1 s1, (loadingFsLoop env total fuel 0 total >>= fun _ => pure (0 : ℤ)) s = some (r1, s1) ∧
      s'.got = s1.got ∧ s'.handed = s1.handed := by
  unfold parentSide at h
  rcases Prog.bind_eq_some.mp h with ⟨e, hloop, -⟩ | ⟨_, s1, hloop, h⟩
  · exact ⟨.error e, s', Prog.bind_error hloop, rfl, rfl⟩
  · refine ⟨.ok 0, s1, Prog.bind_ok hloop, ?_⟩
    rw [Prog.get_bind, runCommand, Prog.modify_bind] at h
    unfold Prog.exitIf at h
    split_ifs at h
    · cases h
      exact ⟨rfl, rfl⟩
    · cases h
      exact ⟨rfl, rfl⟩

/-- The parent goes on from where its loop ended. -/
theorem parentSide_of_loop {fuel : ℕ} (sec : Section) (part : ℕ) {s1 : St}
    (h : loadingFsLoop env total fuel 0 total s = some (.ok (), s1)) :
    ∃ r s', parentSide env fuel sec part total s = some (r, s') ∧ s'.got = s1.got ∧
      s'.handed = s1.handed := by
  rw [parentSide, Prog.bind_ok h, Prog.get_bind, runCommand, Prog.modify_bind]
  unfold Prog.exitIf
  split_ifs
  · exact ⟨_, _, rfl, rfl, rfl⟩
  · exact ⟨_, _, rfl, rfl, rfl⟩

theorem parentExact_iff (htotal : total < 2 ^ 32) (sec : Section) (part : ℕ) :
    ParentExact env sec part total s ↔
      CopyMeets env rootfsSizePerWrite 0 (fun _ _ => True) total s := by
  constructor
  · rintro ⟨fuel, r, s', h, bs, hgot, hhanded, -⟩
    obtain ⟨r1, s1, hloop, hgot1, hhanded1⟩ := parentSide_rest h
    rw [loadingFsLoop_eq] at hloop
    refine copyLoop_exact_meets (puts_pipe env) rootfsSizePerWrite_pos rootfsSizePerWrite_lt
      (Nat.zero_add total) htotal hloop ?_
    rw [← hgot1, ← hhanded1, hgot, hhanded, List.length_append, List.length_append]
    omega
  · intro hmeets
    obtain ⟨fuel, r1, s1, hloop, bs, hgot, hhanded, hle, herror⟩ := (copyLoop_exact_iff
      (puts_pipe env) rootfsSizePerWrite_pos rootfsSizePerWrite_lt htotal s).mpr hmeets
    rw [← loadingFsLoop_eq] at hloop
    rcases Prog.bind_eq_some.mp hloop with ⟨e, hloop, -⟩ | ⟨_, s2, hloop, hret⟩
    · refine ⟨fuel, .error e, s1, Prog.bind_error hloop, bs, hgot, hhanded, hle, ?_⟩
      intro _ h0
      cases h0
    · cases hret
      obtain ⟨r, s', hparent, hgot', hhanded'⟩ := parentSide_of_loop sec part hloop
      refine ⟨fuel, r, s', hparent, bs, by rw [hgot', hgot], by rw [hhanded', hhanded], hle, ?_⟩
      intro hshort
      exact absurd rfl (herror hshort)

end Source

/-- At the end of the file, with a chunk or more still to come, the loop of `loading_fs`
    hands on its buffer for ever. -/
theorem loadingFsLoop_eof {env : Env} {total : ℕ} {s : St} (htotal : total < 2 ^ 32)
    (hle : rootfsSizePerWrite ≤ total) (heof : env.file.length ≤ s.sdPos)
    (hio : ∀ k, env.io k ≠ .error) (fuel : ℕ) :
    loadingFsLoop env total fuel 0 total s = none := by
  induction fuel generalizing s with
  | zero => rfl
  | succ fuel ih =>
    have hread : sdRead env rootfsSizePerWrite s = 0 := by
      have hlt := rootfsSizePerWrite_lt
      unfold sdRead transferred
      rw [Nat.sub_eq_zero_of_le heof, if_neg (by omega)]
      cases hk : env.io s.calls with
      | full => exact min_eq_right (by omega)
      | short k => show min (k : ℤ) (min rootfsSizePerWrite (0 : ℕ)) = 0; omega
      | error => exact absurd hk (hio _)
    have hcount : add32 0 (toU32 0) = 0 := rfl
    rw [loadingFsLoop, if_pos (Nat.div_pos hle rootfsSizePerWrite_pos), readSd_bind, hread, hcount,
      sub32_of_le (Nat.zero_le _) htotal, Nat.sub_zero, writePipe, Prog.modify_bind]
    apply ih
    show env.file.length ≤ s.sdPos + _
    omega

/-- Each of the two loops ends, copies exactly and reports a source that ends early if and
    only if every read, up to the first chunk that is not taken, obtains what it asks for. -/
theorem copyLoops_exact_iff (env : Env) {total : ℕ} (htotal : total < 2 ^ 32) (s : St) :
    (LoadingExact env total s ↔
      CopyMeets env inandSizePerWrite 1 (inandTakes env) total s) ∧
    ∀ sec part, ParentExact env sec part total s ↔
      CopyMeets env rootfsSizePerWrite 0 (fun _ _ => True) total s :=
  ⟨loadingExact_iff htotal, parentExact_iff htotal⟩

/-- `copyLoops_exact_iff` of two bytes of a file of two. -/
theorem copyLoops_exact_iff_two :
    (LoadingExact (Env.quiet [1, 2]) 2 (St.init (fun _ => 0) fun _ => 0) ↔
      CopyMeets (Env.quiet [1, 2]) inandSizePerWrite 1 (inandTakes (Env.quiet [1, 2])) 2
        (St.init (fun _ => 0) fun _ => 0)) ∧
    ∀ sec part, ParentExact (Env.quiet [1, 2]) sec part 2 (St.init (fun _ => 0) fun _ => 0) ↔
      CopyMeets (Env.quiet [1, 2]) rootfsSizePerWrite 0 (fun _ _ => True) 2
        (St.init (fun _ => 0) fun _ => 0) :=
  copyLoops_exact_iff _ (by norm_num) _

/-- Of an empty file `loading` copies a byte that it has not read. -/
theorem loading_empty_not_exact :
    ¬ ∀ (env : Env) (total : ℕ) (s : St), total < 2 ^ 32 → LoadingExact env total s ∧
      ∀ sec part, ParentExact env sec part total s := by
  intro hall
  have hexact := (hall (Env.quiet []) 1 (St.init (fun _ => 0) fun _ => 0) (by norm_num)).1
  have hmeets := (loadingExact_iff (by norm_num)).mp hexact
  rw [copyMeets_of_lt (by decide)] at hmeets
  have hread : sdRead (Env.quiet []) 1 (St.init (fun _ => 0) fun _ => 0) = 0 := by
    show transferred .full 1 0 = 0
    unfold transferred
    rw [if_neg (by norm_num)]
    rfl
  rw [hread] at hmeets
  cases hmeets

end SmartQ.Firmware.Upgrade
