import SmartQ.UBoot.FatFrame

/-!
# The cluster buffers of the FAT reader

A listing leaves the three buffers allocated at the cluster size of its volume and a
load frees them. The next call only allocates the ones that are missing, so after a
listing it may read larger clusters into them.

* `Body`: what a call does behind its allocation reads whole clusters of its volume
  and keeps the sizes of the buffers.
* `workBuffers_fit`: in a run whose calls each find buffers of the size of their
  clusters, or none and a heap that grants them, every cluster read fits its buffer; a
  scan that finds a smaller one overflows it.
-/

namespace SmartQ.UBoot.Fat

open SmartQ.Lib

variable {H : Type}

/-! ## What the body of a call does -/

/-- The size of the block a buffer points to. -/
def held (s : St H) (w : Work) : Option ℕ := (s.block w).map Block.size

/-- The buffers keep their sizes, and every new use is of `n` bytes. -/
structure Body (n : ℕ) (s s' : St H) : Prop where
  held : ∀ w, held s' w = held s w
  uses : ∃ new, s'.uses = s.uses ++ new ∧ ∀ u ∈ new, u.held = Fat.held s u.work ∧ u.need = n

namespace Body

variable {α β : Type} {n : ℕ}

theorem of_eq {s s' : St H} (hheld : ∀ w, Fat.held s' w = Fat.held s w) (huses : s'.uses = s.uses) :
    Body n s s' := by
  refine ⟨hheld, [], ?_, ?_⟩
  · rw [huses, List.append_nil]
  · intro u hu
    exact absurd hu List.not_mem_nil

theorem refl (s : St H) : Body n s s := of_eq (fun _ => rfl) rfl

theorem trans (s s' s'' : St H) (h : Body n s s') (h' : Body n s' s'') : Body n s s'' := by
  obtain ⟨hheld, new, huses, hnew⟩ := h
  obtain ⟨hheld', new', huses', hnew'⟩ := h'
  refine ⟨fun w => (hheld' w).trans (hheld w), new ++ new', ?_, ?_⟩
  · rw [huses', huses, List.append_assoc]
  · intro u hu
    rcases List.mem_append.mp hu with hu | hu
    · exact hnew u hu
    · rw [← hheld u.work]
      exact hnew' u hu

theorem bind {x : FatM H α} {f : α → FatM H β} (hx : Prog.Steps (Body n) x)
    (hf : ∀ a, Prog.Steps (Body n) (f a)) : Prog.Steps (Body n) (x >>= f) :=
  Prog.Steps.bind trans hx hf

theorem ret (a : α) : Prog.Steps (Body n) (pure a : FatM H α) := Prog.Steps.ret refl a

theorem exit (e : Fault) : Prog.Steps (Body n) (Prog.exit e : FatM H α) := Prog.Steps.exit refl e

theorem get : Prog.Steps (Body n) (Prog.get : FatM H (St H)) := Prog.Steps.get refl

theorem exitIf (c : Prop) [Decidable c] (e : Fault) :
    Prog.Steps (Body n) (Prog.exitIf c e : FatM H Unit) := Prog.Steps.exitIf refl c e

/-- A step that leaves the blocks and the log of uses alone. -/
theorem modify {f : St H → St H} (hblock : ∀ s, (f s).block = s.block)
    (huses : ∀ s, (f s).uses = s.uses) : Prog.Steps (Body n) (Prog.modify f : FatM H Unit) := by
  refine Prog.Steps.modify fun s => of_eq ?_ (huses s)
  intro w
  rw [Fat.held, Fat.held, hblock]

/-- New contents of a block keep the sizes. -/
theorem held_update {s : St H} {w : Work} {b : Block} (hb : s.block w = some b) (byte : Mem)
    (w' : Work) :
    Fat.held { s with block := Function.update s.block w (some { b with byte := byte }) } w' =
      Fat.held s w' := by
  by_cases h : w' = w
  · rw [h]
    simp [Fat.held, hb]
  · simp [Fat.held, Function.update_of_ne h]

end Body

/-! ## Each function of the reader -/

section Reader

variable (dev : BlockDev) (mydata : Fsdata) {n : ℕ}

theorem diskRead_body (start count : ℕ) (old : Mem) :
    Prog.Steps (Body n) (diskRead dev start count old : FatM H _) :=
  Prog.Steps.step fun _ => Body.of_eq (fun _ => rfl) rfl

/-- A cluster read is one use of its buffer, of `512 * count` bytes. -/
theorem workRead_body (w : Work) (start count : ℕ) :
    Prog.Steps (Body (512 * count)) (workRead dev w start count : FatM H ℤ) := by
  intro s r s' h
  rw [workRead, Prog.get_bind, Prog.modify_bind] at h
  have hlog : Body (512 * count) s
      { s with uses := s.uses ++ [⟨w, (s.block w).map Block.size, 512 * count⟩] } := by
    refine ⟨fun _ => rfl, _, rfl, ?_⟩
    intro u hu
    rw [List.mem_singleton] at hu
    rw [hu]
    exact ⟨rfl, rfl⟩
  refine Body.trans _ _ _ hlog ?_
  cases hb : s.block w with
  | none =>
    rw [hb] at h
    cases h
    exact Body.refl _
  | some b =>
    rw [hb] at h
    rcases Prog.exitIf_bind h with ⟨-, -, rfl⟩ | ⟨-, h⟩
    · exact Body.refl _
    · obtain ⟨⟨ret, mem⟩, s1, h1, h2⟩ := Prog.step_bind h
      cases h1
      cases h2
      exact Body.of_eq (Body.held_update (s := { s with clock := s.clock + 1 }) hb _) rfl

theorem loadFat_body (bufnum : ℕ) :
    Prog.Steps (Body n) (loadFat dev mydata bufnum : FatM H Bool) := by
  refine Body.bind Body.get ?_
  intro s
  split
  · exact Body.ret _
  · refine Body.bind (diskRead_body dev _ _ _) ?_
    rintro ⟨ret, mem⟩
    refine Body.bind (Body.modify (fun _ => rfl) (fun _ => rfl)) ?_
    intro _
    split
    · exact Body.ret _
    · refine Body.bind (Body.modify (fun _ => rfl) (fun _ => rfl)) ?_
      intro _
      exact Body.ret _

theorem getFatent_body (entry : ℕ) :
    Prog.Steps (Body n) (getFatent dev mydata entry : FatM H ℕ) := by
  unfold getFatent
  split
  · exact Body.ret _
  · refine Body.bind (loadFat_body dev mydata _) ?_
    intro ok
    exact Body.bind Body.get fun s => Body.ret _

theorem getCluster_body (clustnum off size : ℕ) :
    Prog.Steps (Body n) (getCluster dev mydata clustnum off size : FatM H Bool) := by
  refine Body.bind Body.get ?_
  intro s
  refine Body.bind (diskRead_body dev _ _ _) ?_
  rintro ⟨ret, mem⟩
  refine Body.bind (Body.modify (fun _ => rfl) (fun _ => rfl)) ?_
  intro _
  simp only
  split_ifs
  · exact Body.ret _
  · refine Body.bind (diskRead_body dev _ _ _) ?_
    rintro ⟨ret, tmpbuf⟩
    simp only
    split_ifs
    · exact Body.ret _
    · refine Body.bind (Body.modify (fun _ => rfl) (fun _ => rfl)) ?_
      intro _
      exact Body.ret _
  · exact Body.ret _

/-- A lookup keeps to it. -/
theorem body_frame : Frame dev mydata (Body (H := H) mydata.clustBytes) where
  refl := Body.refl
  trans := Body.trans
  block _ _ _ hb _ := Body.of_eq (Body.held_update hb _) rfl
  out _ _ := Body.of_eq (fun _ => rfl) rfl
  fatent entry := getFatent_body dev mydata entry
  work w start := workRead_body dev w start mydata.clustSize

theorem consecutive_body (filesize fuel : ℕ) :
    ∀ endclust actsize : ℕ, Prog.Steps (Body n)
      (consecutive dev mydata filesize fuel endclust actsize : FatM H Run) := by
  induction fuel with
  | zero =>
    intro endclust actsize
    exact Body.exit _
  | succ fuel ih =>
    intro endclust actsize
    unfold consecutive
    split
    · refine Body.bind (getFatent_body dev mydata _) ?_
      intro newclust
      split
      · exact Body.ret _
      · split
        · exact Body.ret _
        · exact ih _ _
    · exact Body.ret _

theorem contentsLoop_body (runFuel fuel : ℕ) :
    ∀ curclust filesize off gotsize : ℕ, Prog.Steps (Body n)
      (contentsLoop dev mydata runFuel fuel curclust filesize off gotsize : FatM H ℤ) := by
  induction fuel with
  | zero =>
    intro curclust filesize off gotsize
    exact Body.exit _
  | succ fuel ih =>
    intro curclust filesize off gotsize
    refine Body.bind (consecutive_body dev mydata _ _ _ _) ?_
    intro r
    cases r with
    | bad => exact Body.ret _
    | whole endclust actsize =>
      refine Body.bind (getCluster_body dev mydata _ _ _) ?_
      intro ok
      split
      · refine Body.bind (getCluster_body dev mydata _ _ _) ?_
        intro ok
        exact Body.ret _
      · exact Body.ret _
    | getit endclust actsize =>
      refine Body.bind (getCluster_body dev mydata _ _ _) ?_
      intro ok
      split
      · refine Body.bind (getFatent_body dev mydata _) ?_
        intro next
        split
        · exact Body.ret _
        · exact ih _ _ _ _
      · exact Body.ret _

/-- Behind its allocation a call uses the buffers for whole clusters of its volume. -/
theorem fatBody_body (fuel : ℕ) (filename : List Byte) (maxsize : ℕ) (dols : Bool) :
    Prog.Steps (Body mydata.clustBytes)
      (fatBody dev mydata fuel filename maxsize dols : FatM H ℤ) := by
  refine Body.bind (lookup_steps (body_frame dev mydata) _ _ _) ?_
  intro r
  cases r with
  | error ret => exact Body.ret _
  | ok dent => exact contentsLoop_body dev mydata _ _ _ _ _ _

end Reader

/-! ## Allocation -/

section Alloc

variable (al : Allocator H)

/-- The heap grants `k` blocks of `n` bytes, one after the other. -/
def Grants (n : ℕ) : (k : ℕ) → H → Prop
  | 0, _ => True
  | k + 1, h => (al.malloc h n).1.isSome ∧ Grants n k (al.malloc h n).2

/-- The buffers of `ws` that point nowhere. -/
def missing (s : St H) (ws : List Work) : ℕ := (ws.filter fun w => (s.block w).isNone).length

/-- Every buffer there is has `n` bytes, and the heap grants those of `ws` that are
    missing. -/
structure Ready (n : ℕ) (ws : List Work) (s : St H) : Prop where
  enough : ∀ w b, s.block w = some b → n ≤ b.size
  granted : Grants al n (missing s ws) s.heap

/-- One allocation gives its buffer `n` bytes and keeps the others. -/
theorem ensure_ready {n : ℕ} {w : Work} {ws : List Work} {s : St H} (hw : w ∉ ws)
    (h : Ready al n (w :: ws) s) :
    ∃ s', ensure al n w s = some (.ok (), s') ∧ Ready al n ws s' ∧ s'.uses = s.uses ∧
      (s'.block w).isSome ∧ ∀ w', (s.block w').isSome → (s'.block w').isSome := by
  cases hb : s.block w with
  | some b =>
    refine ⟨s, ?_, ⟨h.enough, ?_⟩, rfl, ?_, fun _ h => h⟩
    · rw [ensure, Prog.modify_apply, hb]
    · have hgrant := h.granted
      rwa [missing, List.filter_cons, hb] at hgrant
    · rw [hb]
      rfl
  | none =>
    have hgrant := h.granted
    rw [missing, List.filter_cons, hb, Option.isNone_none, if_pos rfl, List.length_cons] at hgrant
    obtain ⟨hsome, hrest⟩ := hgrant
    obtain ⟨⟨addr, byte⟩, hp⟩ := Option.isSome_iff_exists.mp hsome
    refine ⟨{ s with
      heap := (al.malloc s.heap n).2
      block := Function.update s.block w (some ⟨addr, n, byte⟩) }, ?_, ⟨?_, ?_⟩, rfl, ?_, ?_⟩
    · rw [ensure, Prog.modify_apply, hb]
      simp only [hp, Option.map_some]
    · intro w' b hb'
      by_cases hww : w' = w
      · rw [hww] at hb'
        simp only [Function.update_self, Option.some.injEq] at hb'
        rw [← hb']
      · simp only [Function.update_of_ne hww] at hb'
        exact h.enough w' b hb'
    · have hsame : missing { s with
          heap := (al.malloc s.heap n).2
          block := Function.update s.block w (some ⟨addr, n, byte⟩) } ws = missing s ws := by
        unfold missing
        congr 1
        refine List.filter_congr ?_
        intro w' hw'
        have hne : w' ≠ w := fun heq => hw (heq ▸ hw')
        simp only [Function.update_of_ne hne]
      rw [hsame]
      exact hrest
    · simp only [Function.update_self, Option.isSome_some]
    · intro w' hw'
      by_cases hww : w' = w
      · rw [hww]
        simp only [Function.update_self, Option.isSome_some]
      · simp only [Function.update_of_ne hww]
        exact hw'

/-- The three static cluster buffers, by the function that has each of them. -/
def works : List Work := [.doFatRead, .getVfatname, .getDentfromdir]

/-- Behind the allocation every buffer has `n` bytes. -/
theorem ensureBlocks_ready {n : ℕ} {s : St H} (h : Ready al n works s) :
    ∃ s', ensureBlocks al n s = some (.ok (), s') ∧ s'.uses = s.uses ∧
      ∀ w, ∃ k, held s' w = some k ∧ n ≤ k := by
  obtain ⟨s1, h1, hr1, hu1, hb1, -⟩ := ensure_ready al (by decide) h
  obtain ⟨s2, h2, hr2, hu2, hb2, hk2⟩ := ensure_ready al (by decide) hr1
  obtain ⟨s3, h3, hr3, hu3, hb3, hk3⟩ := ensure_ready al (by decide) hr2
  refine ⟨s3, ?_, ?_, ?_⟩
  · rw [ensureBlocks, Prog.bind_ok h1, Prog.bind_ok h2]
    exact h3
  · rw [hu3, hu2, hu1]
  · intro w
    have hsome : (s3.block w).isSome := by
      cases w with
      | doFatRead => exact hk3 _ (hk2 _ hb1)
      | getVfatname => exact hk3 _ hb2
      | getDentfromdir => exact hb3
    obtain ⟨b, hb⟩ := Option.isSome_iff_exists.mp hsome
    exact ⟨b.size, by rw [held, hb, Option.map_some], hr3.enough w b hb⟩

/-! ## Calls and runs -/

/-- A call of `file_fat_ls` or `file_fat_read` with the card it finds. `fuel` bounds its
    loops. -/
structure Call where
  dev : BlockDev
  fuel : ℕ
  path : List Byte
  maxsize : ℕ
  ls : Bool

/-- Run one call of the commands, a listing or a read with its own device. -/
def Call.run (c : Call) : FatM H ℤ :=
  if c.ls then fileFatLs al c.dev c.fuel c.path else fileFatRead al c.dev c.fuel c.path c.maxsize

/-- Run the calls in order. -/
def runCalls : List Call → FatM H Unit
  | [] => pure ()
  | c :: cs => do
    let _ ← c.run al
    runCalls cs

/-- The boot sector a call reads in state `s`; `none` if it rejects it. -/
def Call.boot (c : Call) (s : St H) : Option (BootSector × ℕ) :=
  let r := c.dev.read s.clock (c.dev.partOffset % 2 ^ 32) 1 fun _ => 0
  if r.1 < 0 then none else bootSectAndVi (laid 512 r.2 fun _ => 0)

/-- The volume a call finds in state `s`. -/
def Call.volume (c : Call) (s : St H) : Option Fsdata := (c.boot s).map fun v => fsdata v.1 v.2

/-- The call gets to the scan of the root directory: its path fits `fnamecopy`, and it
    names something or the call is a listing. -/
def Call.Scans (c : Call) : Prop :=
  (dropDelims c.path).length ≤ 2047 ∧ (dropDelims c.path = [] → c.ls = true)

/-- A call that scans finds buffers of the size of its clusters, or none and a heap that
    grants them. -/
def Call.Meets (c : Call) (s : St H) : Prop :=
  ∀ mydata, c.volume s = some mydata → c.Scans → Ready al mydata.clustBytes works s

/-- Every call of a run meets the condition in the state it starts from. -/
def RunMeets : St H → List Call → Prop
  | _, [] => True
  | s, c :: cs => c.Meets al s ∧ ∀ ret s', c.run al s = some (.ok ret, s') → RunMeets s' cs

/-- The buffer was allocated with room for what is read into it. -/
def Use.Fits (u : Use) : Prop := ∃ n, u.held = some n ∧ u.need ≤ n

/-- The state before the first call: no buffer is allocated. -/
def St.initial (h : H) : St H :=
  ⟨h, fun _ => none, 0, fun _ => 0, -1, fun _ => 0, [], []⟩

variable {al}

theorem readBootsectandvi_eq (c : Call) (s : St H) :
    readBootsectandvi c.dev s = some (.ok (c.boot s), { s with clock := s.clock + 1 }) := by
  rw [readBootsectandvi, diskRead, Prog.bind_ok (Prog.step_apply _ _)]
  simp only [Call.boot, Nat.zero_add]
  split
  · rfl
  · rfl

theorem ensureBlocks_uses (al : Allocator H) (n : ℕ) (s : St H) :
    ∃ s', ensureBlocks al n s = some (.ok (), s') ∧ s'.uses = s.uses ∧
      ∀ w b, s.block w = some b → s'.block w = some b := by
  have hone : ∀ (w : Work) (s : St H), ∃ s', ensure al n w s = some (.ok (), s') ∧
      s'.uses = s.uses ∧ ∀ w b, s.block w = some b → s'.block w = some b := by
    intro w s
    refine ⟨_, rfl, ?_, ?_⟩
    · dsimp only
      split
      · rfl
      · rfl
    · intro w' b hb
      dsimp only
      split
      · exact hb
      · rename_i hnone
        have hne : w' ≠ w := by
          rintro rfl
          rw [hnone] at hb
          cases hb
        simp only [Function.update_of_ne hne, hb]
  obtain ⟨s1, h1, hu1, hb1⟩ := hone .doFatRead s
  obtain ⟨s2, h2, hu2, hb2⟩ := hone .getVfatname s1
  obtain ⟨s3, h3, hu3, hb3⟩ := hone .getDentfromdir s2
  refine ⟨s3, ?_, ?_, ?_⟩
  · rw [ensureBlocks, Prog.bind_ok h1, Prog.bind_ok h2]
    exact h3
  · rw [hu3, hu2, hu1]
  · intro w b hb
    exact hb3 w b (hb2 w b (hb1 w b hb))

/-- A call that does not get to the scan uses no buffer. -/
theorem fatBody_uses_of_not_scans {c : Call} {mydata : Fsdata} {maxsize : ℕ} {s s' : St H}
    {r : Except Fault ℤ} (hscan : ¬ c.Scans)
    (h : fatBody c.dev mydata c.fuel c.path maxsize c.ls s = some (r, s')) : s'.uses = s.uses := by
  rw [fatBody, lookup] at h
  by_cases hlen : 2047 < (dropDelims c.path).length
  · rw [Prog.bind_error (Prog.exitIf_of hlen)] at h
    cases h
    rfl
  · have hblank : dropDelims c.path = [] ∧ c.ls = false := by
      by_contra hcon
      refine hscan ⟨by omega, ?_⟩
      intro hnil
      by_contra hls
      exact hcon ⟨hnil, Bool.eq_false_iff.mpr hls⟩
    rw [hblank.1, hblank.2] at h
    cases h
    rfl

/-- A call from a state that meets the condition only adds uses that fit. -/
theorem doFatRead_fits {c : Call} {maxsize : ℕ} {s s' : St H} {r : Except Fault ℤ}
    (hmeets : c.Meets al s) (hs : ∀ u ∈ s.uses, u.Fits)
    (h : doFatRead al c.dev c.fuel c.path maxsize c.ls s = some (r, s')) :
    ∀ u ∈ s'.uses, u.Fits := by
  rw [doFatRead, Prog.bind_ok (readBootsectandvi_eq c s)] at h
  cases hfound : c.boot s with
  | none =>
    rw [hfound] at h
    cases h
    exact hs
  | some v =>
    rw [hfound] at h
    have hvolume : c.volume s = some (fsdata v.1 v.2) := by
      rw [Call.volume, hfound, Option.map_some]
    by_cases hscan : c.Scans
    · have hready := hmeets _ hvolume hscan
      obtain ⟨s2, h2, huses, hheld⟩ := ensureBlocks_ready al (n := (fsdata v.1 v.2).clustBytes)
        (s := { s with clock := s.clock + 1, fatbufnum := -1 }) ⟨hready.enough, hready.granted⟩
      simp only [Prog.modify_bind, Prog.bind_ok h2] at h
      obtain ⟨-, new, hnew, hfit⟩ := fatBody_body _ _ _ _ _ _ _ _ _ h
      intro u hu
      rw [hnew, huses] at hu
      rcases List.mem_append.mp hu with hu | hu
      · exact hs u hu
      · obtain ⟨k, hk, hle⟩ := hheld u.work
        obtain ⟨hu1, hu2⟩ := hfit u hu
        exact ⟨k, by rw [hu1, hk], by rw [hu2]; exact hle⟩
    · obtain ⟨s2, h2, huses, -⟩ := ensureBlocks_uses al (fsdata v.1 v.2).clustBytes
        { s with clock := s.clock + 1, fatbufnum := -1 }
      simp only [Prog.modify_bind, Prog.bind_ok h2] at h
      rw [fatBody_uses_of_not_scans hscan h, huses]
      exact hs

/-- Freeing is no use. -/
theorem freeComplainMemory_uses {s s' : St H} {r : Except Fault Unit}
    (h : freeComplainMemory al s = some (r, s')) : s'.uses = s.uses := by
  have hrel : ∀ w, Prog.Steps (fun s s' : St H => s'.uses = s.uses) (release al w) := by
    intro w
    refine Prog.Steps.modify fun s => ?_
    split
    · rfl
    · rfl
  have htrans : ∀ s s' s'' : St H, s'.uses = s.uses → s''.uses = s'.uses → s''.uses = s.uses :=
    fun _ _ _ h h' => h'.trans h
  exact Prog.Steps.bind htrans (hrel _) (fun _ => Prog.Steps.bind htrans (hrel _) fun _ => hrel _)
    _ _ _ h

theorem run_fits {c : Call} {s s' : St H} {r : Except Fault ℤ} (hmeets : c.Meets al s)
    (hs : ∀ u ∈ s.uses, u.Fits) (h : c.run al s = some (r, s')) : ∀ u ∈ s'.uses, u.Fits := by
  unfold Call.run at h
  split at h
  · rename_i hls
    rw [fileFatLs, ← hls] at h
    exact doFatRead_fits hmeets hs h
  · rename_i hls
    rw [fileFatRead, ← Bool.eq_false_iff.mpr hls] at h
    rcases Prog.bind_eq_some.mp h with ⟨e, h1, -⟩ | ⟨rtn, s1, h1, h2⟩
    · exact doFatRead_fits hmeets hs h1
    · have h1fits := doFatRead_fits hmeets hs h1
      rcases Prog.bind_eq_some.mp h2 with ⟨e, h3, -⟩ | ⟨_, s2, h3, h4⟩
      · rw [freeComplainMemory_uses h3]
        exact h1fits
      · cases h4
        rw [freeComplainMemory_uses h3]
        exact h1fits

/-- Run lemma of `run_fits`. -/
theorem runCalls_fits {cs : List Call} : ∀ {s s' : St H} {r : Except Fault Unit},
    RunMeets al s cs → (∀ u ∈ s.uses, u.Fits) → runCalls al cs s = some (r, s') →
    ∀ u ∈ s'.uses, u.Fits := by
  induction cs with
  | nil =>
    intro s s' r _ hs h
    cases h
    exact hs
  | cons c cs ih =>
    intro s s' r hmeets hs h
    rcases Prog.bind_eq_some.mp h with ⟨e, h1, -⟩ | ⟨ret, s1, h1, h2⟩
    · exact run_fits hmeets.1 hs h1
    · exact ih (hmeets.2 ret s1 h1) (run_fits hmeets.1 hs h1) h2

/-! ## A buffer that is too small -/

theorem workRead_overflow (dev : BlockDev) {w : Work} {b : Block} {start count : ℕ} {s : St H}
    (hb : s.block w = some b) (hsmall : b.size < 512 * count) :
    workRead dev w start count s = some (.error .overflow,
      { s with uses := s.uses ++ [⟨w, some b.size, 512 * count⟩] }) := by
  rw [workRead, Prog.get_bind, Prog.modify_bind, hb]
  exact Prog.exitIf_of (hsmall.trans_le (le_transferred count))

/-- The first cluster read of a call goes to `do_fat_read_block`. -/
theorem fatBody_overflow {c : Call} {mydata : Fsdata} {maxsize : ℕ} {b : Block} {s : St H}
    (hscan : c.Scans) (hfuel : 0 < c.fuel) (hb : s.block .doFatRead = some b)
    (hsmall : b.size < mydata.clustBytes) :
    fatBody c.dev mydata c.fuel c.path maxsize c.ls s = some (.error .overflow,
      { s with uses := s.uses ++ [⟨.doFatRead, some b.size, mydata.clustBytes⟩] }) := by
  have hroot : ∀ (fnamecopy : List Byte) (isdir lsRoot : Bool),
      rootScan c.dev mydata fnamecopy isdir lsRoot c.fuel mydata.rootdirSect .zero s =
        some (.error .overflow,
          { s with uses := s.uses ++ [⟨.doFatRead, some b.size, mydata.clustBytes⟩] }) := by
    intro fnamecopy isdir lsRoot
    obtain ⟨fuel, hfuel⟩ := Nat.exists_eq_add_of_lt hfuel
    rw [hfuel, Nat.zero_add, rootScan]
    exact Prog.bind_error (workRead_overflow c.dev hb hsmall)
  refine Prog.bind_error ?_
  rw [lookup, Prog.exitIf_of_not (by have := hscan.1; omega)]
  by_cases hnil : dropDelims c.path = []
  · rw [hnil, hscan.2 hnil]
    exact hroot _ _ _
  · have hdown : downcase (dropDelims c.path) ≠ [] := by
      intro h
      exact hnil (List.map_eq_nil_iff.mp h)
    simp only [if_neg hdown]
    exact Prog.bind_error (hroot _ _ _)

/-- A call that scans overflows a `do_fat_read_block` smaller than its clusters. -/
theorem run_overflow (al : Allocator H) {c : Call} {mydata : Fsdata} {b : Block} {s : St H}
    (hvolume : c.volume s = some mydata) (hscan : c.Scans) (hfuel : 0 < c.fuel)
    (hb : s.block .doFatRead = some b) (hsmall : b.size < mydata.clustBytes) :
    ∃ s', c.run al s = some (.error .overflow, s') ∧
      ⟨.doFatRead, some b.size, mydata.clustBytes⟩ ∈ s'.uses := by
  rw [Call.volume] at hvolume
  obtain ⟨v, hfound, hv⟩ := Option.map_eq_some_iff.mp hvolume
  obtain ⟨s2, h2, huses, hkeep⟩ := ensureBlocks_uses al mydata.clustBytes
    { s with clock := s.clock + 1, fatbufnum := -1 }
  have hread : ∀ maxsize, doFatRead al c.dev c.fuel c.path maxsize c.ls s =
      some (.error .overflow,
        { s2 with uses := s2.uses ++ [⟨.doFatRead, some b.size, mydata.clustBytes⟩] }) := by
    intro maxsize
    rw [doFatRead, Prog.bind_ok (readBootsectandvi_eq c s), hfound]
    simp only [hv, Prog.modify_bind, Prog.bind_ok h2]
    exact fatBody_overflow hscan hfuel (hkeep _ _ hb) hsmall
  refine ⟨{ s2 with uses := s2.uses ++ [⟨.doFatRead, some b.size, mydata.clustBytes⟩] }, ?_,
    List.mem_append_right _ (List.mem_singleton_self _)⟩
  unfold Call.run
  split
  · rename_i hls
    rw [fileFatLs, ← hls]
    exact hread 0
  · rename_i hls
    rw [fileFatRead, ← Bool.eq_false_iff.mpr hls]
    exact Prog.bind_error (hread _)

/-- In a run whose scanning calls all find buffers of their cluster size, or none and a
    heap that grants them, every cluster read goes to a buffer with room for it. A
    scanning call that finds a smaller `do_fat_read_block` reads past its end. -/
theorem workBuffers_fit (al : Allocator H) (h : H) :
    (∀ cs r s', RunMeets al (St.initial h) cs → runCalls al cs (St.initial h) = some (r, s') →
      ∀ u ∈ s'.uses, u.Fits) ∧
    ∀ (c : Call) (s : St H) (mydata : Fsdata) (b : Block), c.volume s = some mydata → c.Scans →
      0 < c.fuel → s.block .doFatRead = some b → b.size < mydata.clustBytes →
      ∃ s', c.run al s = some (.error .overflow, s') ∧ ∃ u ∈ s'.uses, ¬ u.Fits := by
  refine ⟨?_, ?_⟩
  · intro cs r s' hmeets hrun
    refine runCalls_fits hmeets ?_ hrun
    intro u hu
    exact absurd hu List.not_mem_nil
  · intro c s mydata b hvolume hscan hfuel hb hsmall
    obtain ⟨s', hrun, hmem⟩ := run_overflow al hvolume hscan hfuel hb hsmall
    refine ⟨s', hrun, _, hmem, ?_⟩
    rintro ⟨n, hn, hle⟩
    cases hn
    exact absurd hle (Nat.not_le_of_lt hsmall)

end Alloc

/-! ## A card change -/

/-- A heap that is never exhausted, by its first free address. -/
def freshHeap : Allocator ℕ where
  malloc h n := (some (h, fun _ => 0), h + n)
  free h _ := h

/-- The boot sector of a FAT16 volume with `clust` sectors a cluster, up to its type. -/
def fat16Boot (clust : Byte) : List Byte :=
  List.replicate 13 0 ++ [clust, 1, 0, 2, 0, 2, 0, 0, 0, 1, 0] ++ List.replicate 30 0 ++ sign 49 54

/-- A card with such a volume and an empty root directory. -/
def emptyVolume (clust : Byte) : BlockDev where
  partOffset := 0
  read _ start _ _ := (1, if start = 0 then byteAt (fat16Boot clust) else fun _ => 0)

/-- Load `a` from a card. -/
def loadFrom (clust : Byte) : Call := ⟨emptyVolume clust, 1, [97], 0, false⟩

/-- List the root directory of a card. -/
def lsOf (clust : Byte) : Call := ⟨emptyVolume clust, 1, [47], 0, true⟩

/-- The uses of two calls. -/
theorem cardChange_uses :
    (runCalls freshHeap [lsOf 1, loadFrom 8] (St.initial 0)).map (fun p => p.2.uses) =
        some [⟨.doFatRead, some 512, 512⟩, ⟨.doFatRead, some 512, 4096⟩] ∧
      (loadFrom 1).volume (St.initial (0 : ℕ)) = some ⟨16, 1, 1, 3, 1, 33⟩ ∧
      (loadFrom 8).volume (St.initial (0 : ℕ)) = some ⟨16, 1, 1, 3, 8, 19⟩ := by
  decide +kernel

/-- A listing of a card with clusters of one sector, then a load from one with clusters
    of eight: 4096 bytes are read into 512. -/
theorem cardChange_overflow :
    ∃ r s', runCalls freshHeap [lsOf 1, loadFrom 8] (St.initial 0) = some (r, s') ∧
      ∃ u ∈ s'.uses, ¬ u.Fits := by
  obtain ⟨⟨r, s'⟩, hrun, huses⟩ := Option.map_eq_some_iff.mp cardChange_uses.1
  refine ⟨r, s', hrun, ⟨.doFatRead, some 512, 4096⟩, ?_, ?_⟩
  · rw [huses]
    exact List.mem_cons_of_mem _ (List.mem_singleton_self _)
  · rintro ⟨n, hn, hle⟩
    cases hn
    exact absurd hle (by decide)

/-- `workBuffers_fit` of one load into fresh buffers, and of one that finds 512 bytes
    for clusters of eight sectors. -/
theorem workBuffers_fit_load :
    (∀ r s', runCalls freshHeap [loadFrom 1] (St.initial 0) = some (r, s') →
      ∀ u ∈ s'.uses, u.Fits) ∧
    ∃ s', (loadFrom 8).run freshHeap { St.initial (0 : ℕ) with
        block := fun _ => some ⟨0, 512, fun _ => 0⟩ } = some (.error .overflow, s') ∧
      ∃ u ∈ s'.uses, ¬ u.Fits := by
  refine ⟨?_, ?_⟩
  · intro r s'
    refine (workBuffers_fit freshHeap 0).1 [loadFrom 1] r s' ⟨?_, fun _ _ _ => trivial⟩
    intro mydata _ _
    refine ⟨?_, rfl, rfl, rfl, trivial⟩
    intro w b hb
    cases hb
  · exact (workBuffers_fit freshHeap 0).2 (loadFrom 8) _ ⟨16, 1, 1, 3, 8, 19⟩ ⟨0, 512, fun _ => 0⟩
      cardChange_uses.2.2 ⟨by decide, fun h => absurd h (by decide)⟩ (by decide) rfl (by decide)

end SmartQ.UBoot.Fat
