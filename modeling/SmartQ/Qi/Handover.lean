import SmartQ.Qi.Fetch
import SmartQ.Qi.TagList

/-!
# What the kernel is handed

The end of `try_this_kernel` in `qi/src/phase2.c`, behind the kernel image: the initramfs is read
to 8 MiB above the start of the memory, its length goes to a tag, and the kernel is entered.
`initramfs_len` is unsigned, so a failure is a length too.

* `finish_eq`: the kernel is entered, whatever came of the read.
* `Opened`: the file that `read_file` finds.
* `initramfs_intact_iff`: when the kernel is only entered with the bytes of the file, and with a
  tag that describes them.
-/

namespace SmartQ.Qi

open SmartQ.Lib

/-! ## The end of `try_this_kernel` -/

/-- What the tables of the boards and of their kernel sources keep to: the tags lie 256 bytes
    above the start of the memory, and the parts of the command line, which is not blank, are C
    strings that end below the kernel image. -/
structure Tables (env : Env) (k : KernelSource) : Prop where
  placement : env.board.linuxTagPlacement = env.board.linuxMemStart + 0x100
  room : env.board.linuxMemStart + 128 * 2 ^ 20 ≤ 2 ^ 32
  length_le : env.board.commandlineBoard.length +
    (env.board.appendDeviceSpecificCmdline.getD []).length +
    (k.commandlineAppend.getD []).length + (debugPart env).length + 1024 ≤ 0x7f00
  visible : ∃ c ∈ env.board.commandlineBoard.dropWhile (· = 0x20), c ≠ 0x0a
  parts : LineParts env k []

/-- The string that the append buffer holds. -/
def St.appended (s : St) : List Byte := cstr s.commandlineRootfsAppend

/-- The string in the buffer has its end in the buffer. -/
def St.Ended (s : St) : Prop := (0 : Byte) ∈ s.commandlineRootfsAppend

section Finish

variable (env : Env) (extent fuel : ℕ) (k : KernelSource)

/-- Where the initramfs is read to. -/
def initrdStart : ℕ := env.board.linuxMemStart + 8 * 1024 * 1024

/-- `try_this_kernel` (lines 426–457), behind the kernel image with the entry point `entry`. -/
def finish (entry : ℕ) : Phase2 Unit := do
  let initramfsLen ← loadInitramfs env extent fuel k
  startKernel env k entry initramfsLen

/-- What is read of the initramfs. -/
def fetchInitramfs : Phase2 (ℤ × List Write) :=
  fetchFile env extent fuel k k.initramfsFilepath (16 * 1024 * 1024)

/-- The memory after the stores `ws` of a read to `addr`. -/
def delivered (addr : ℕ) (ws : List Write) (m : Ram) : Ram :=
  ws.foldl (fun m w => m.set (addr + w.1) w.2) m

/-- The tag for the initramfs in the list at `a`: its start and its size. -/
def initrd2 (m : Ram) (a : ℕ) : Option (ℕ × ℕ) :=
  ((visits m 8 a).find? fun t => t.2 = atagInitrd2).map fun t =>
    (u32At (m.bytes t.1 16) 8, u32At (m.bytes t.1 16) 12)

end Finish

section Delivered

variable {addr x : ℕ} {ws : List Write} {m : Ram}

/-- A store that does not wrap, at the addresses from its base on. -/
theorem get_set_shifted {w : Write} (hw : addr + w.1 + w.2.length ≤ 2 ^ 32)
    (hx : addr + x < 2 ^ 32) :
    (m.set (addr + w.1) w.2).get (addr + x) =
      if w.1 ≤ x ∧ x < w.1 + w.2.length then byteAt w.2 (x - w.1) else m.get (addr + x) := by
  by_cases hin : w.1 ≤ x ∧ x < w.1 + w.2.length
  · have hsum : addr + x = addr + w.1 + (x - w.1) := by omega
    rw [if_pos hin, hsum]
    exact Ram.get_set_at (by omega) (by omega)
  · rw [if_neg hin]
    apply Ram.get_set_off
    unfold sub32
    omega

/-- What a read to `addr` leaves there. -/
theorem delivered_get (hin : ∀ w ∈ ws, addr + w.1 + w.2.length ≤ 2 ^ 32) (hx : addr + x < 2 ^ 32) :
    (delivered addr ws m).get (addr + x) = (overlay ws x).getD (m.get (addr + x)) := by
  induction ws generalizing m with
  | nil => rfl
  | cons w ws ih =>
    have hrest := ih (m := m.set (addr + w.1) w.2) fun v hv => hin v (List.mem_cons_of_mem _ hv)
    refine hrest.trans ?_
    rw [overlay, get_set_shifted (hin w List.mem_cons_self) hx]
    rcases overlay ws x with _ | b
    · by_cases hw : w.1 ≤ x ∧ x < w.1 + w.2.length
      · rw [if_pos hw, if_pos hw]
        rfl
      · rw [if_neg hw, if_neg hw]
        rfl
    · rfl

end Delivered

section Run

variable {env : Env} {extent fuel : ℕ} {k : KernelSource} {s s1 : St} {got : ℤ} {ws : List Write}

theorem length_takeWhile_eq {bs : List Byte} :
    (cstr bs).length = bs.length ↔ (0 : Byte) ∉ bs := by
  unfold cstr
  constructor
  · intro hlen hmem
    have heq := (List.takeWhile_prefix (fun c : Byte => decide (c ≠ 0))).eq_of_length hlen
    have hall := List.takeWhile_eq_self_iff.mp heq 0 hmem
    simp at hall
  · intro hnot
    rw [List.takeWhile_eq_self_iff.mpr]
    intro c hc
    simp only [ne_eq, decide_eq_true_eq]
    rintro rfl
    exact hnot hc

theorem cstr_clean {bs : List Byte} : ∀ c ∈ cstr bs, c ≠ 0 := by
  intro c hc
  have hpred := List.mem_takeWhile_imp hc
  simpa using hpred

/-- The initramfs is loaded as far as it is read, and its length taken for unsigned. -/
theorem loadInitramfs_eq (hpath : k.initramfsFilepath ≠ none)
    (h : fetchInitramfs env extent fuel k s = some (.ok (got, ws), s1)) :
    loadInitramfs env extent fuel k s =
      some (.ok (toU32 got), { s1 with ram := delivered (initrdStart env) ws s.ram }) := by
  unfold fetchInitramfs at h
  unfold loadInitramfs
  rw [if_neg hpath, readFile_eq, Prog.bind_assoc, Prog.bind_ok h, ← (fetchFile_frame h).ram]
  rfl

theorem startKernel_eq (entry n : ℕ) (s : St) :
    startKernel env k entry n s =
      if s.appended.length = s.commandlineRootfsAppend.length then some (.error .corrupt, s)
      else some (.error (.started entry), { s with ram := doParams env k n s.appended s.ram }) := by
  unfold startKernel
  rw [Prog.get_bind]
  by_cases hend : s.appended.length = s.commandlineRootfsAppend.length
  · rw [if_pos hend]
    exact Prog.exitIf_of hend
  · rw [if_neg hend]
    exact Prog.exitIf_of_not hend

/-- The kernel is entered, whatever came of the initramfs. -/
theorem finish_eq (entry : ℕ) (hpath : k.initramfsFilepath ≠ none)
    (h : fetchInitramfs env extent fuel k s = some (.ok (got, ws), s1)) :
    finish env extent fuel k entry s =
      if s.appended.length = s.commandlineRootfsAppend.length then
        some (.error .corrupt, { s1 with ram := delivered (initrdStart env) ws s.ram })
      else some (.error (.started entry),
        { s1 with
          ram := doParams env k (toU32 got) s.appended (delivered (initrdStart env) ws s.ram) }) := by
  have happend := (fetchFile_frame h).append
  unfold finish
  rw [Prog.bind_ok (loadInitramfs_eq hpath h), startKernel_eq]
  unfold St.appended
  dsimp only
  rw [happend]

/-- A read that ends the run ends it here. -/
theorem finish_error (entry : ℕ) (hpath : k.initramfsFilepath ≠ none) {e : Exit}
    (h : fetchInitramfs env extent fuel k s = some (.error e, s1)) :
    finish env extent fuel k entry s = some (.error e, s1) := by
  unfold fetchInitramfs at h
  have hload : loadInitramfs env extent fuel k s = some (.error e, s1) := by
    unfold loadInitramfs
    rw [if_neg hpath, readFile_eq, Prog.bind_assoc, Prog.bind_error h]
  exact Prog.bind_error hload

/-- The function never returns from here. -/
theorem finish_ne_ok (entry : ℕ) (hpath : k.initramfsFilepath ≠ none)
    {r : Except Exit (ℤ × List Write)} (h : fetchInitramfs env extent fuel k s = some (r, s1))
    (s' : St) : finish env extent fuel k entry s ≠ some (.ok (), s') := by
  intro hok
  rcases r with e | ⟨got, ws⟩
  · rw [finish_error entry hpath h] at hok
    cases hok
  · rw [finish_eq entry hpath h] at hok
    split_ifs at hok <;> cases hok

end Run

/-! ## The tag list of a board -/

section Tables

variable {env : Env} {k : KernelSource} {rootfsAppend : List Byte}

/-- The tag list ends below the kernel image. -/
theorem Tables.line_le (h : Tables env k) (hlen : rootfsAppend.length ≤ 512) :
    (commandline env k rootfsAppend).length + (debugPart env).length + 96 ≤ 0x7f00 := by
  have hlength := h.length_le
  have hdrop := (List.dropWhile_suffix (fun c : Byte => decide (c = 0x20))
    (l := env.board.commandlineBoard)).length_le
  unfold commandline
  simp only [List.length_append]
  omega

theorem Tables.lineParts (h : Tables env k) (hclean : ∀ c ∈ rootfsAppend, c ≠ 0) :
    LineParts env k rootfsAppend :=
  { h.parts with rootfs := hclean }

theorem Tables.not_blank (h : Tables env k) : ∃ c ∈ commandline env k rootfsAppend, c ≠ 0x0a := by
  obtain ⟨c, hc, hne⟩ := h.visible
  refine ⟨c, ?_, hne⟩
  unfold commandline
  simp only [List.append_assoc]
  exact List.mem_append_left _ hc

theorem Tables.tagsFit (h : Tables env k) (hlen : rootfsAppend.length ≤ 512) :
    TagsFit env k rootfsAppend := by
  have hline := h.line_le hlen
  have hroom := h.room
  unfold TagsFit
  rw [h.placement]
  omega

/-- Above the tag list nothing changes. -/
theorem Tables.doParams_above (h : Tables env k) (hlen : rootfsAppend.length ≤ 512)
    (hclean : ∀ c ∈ rootfsAppend, c ≠ 0) (n : ℕ) (m : Ram) {a c : ℕ}
    (ha : env.board.linuxMemStart + 0x8000 ≤ a) (hac : a + c ≤ 2 ^ 32) :
    (doParams env k n rootfsAppend m).bytes a c = m.bytes a c := by
  have hline := h.line_le hlen
  have hplace := h.placement
  unfold Ram.bytes
  apply List.map_congr_left
  intro i hi
  have hic : i < c := List.mem_range.mp hi
  apply doParams_get n m (h.lineParts hclean) h.not_blank (h.tagsFit hlen)
  rw [Nat.mod_eq_of_lt (by omega), hplace]
  unfold sub32
  omega

/-- The tag for the initramfs. -/
theorem Tables.initrd2_eq (h : Tables env k) (hlen : rootfsAppend.length ≤ 512)
    (hclean : ∀ c ∈ rootfsAppend, c ≠ 0) (hpath : k.initramfsFilepath ≠ none) {n : ℕ}
    (hn : n < 2 ^ 32) (m : Ram) :
    initrd2 (doParams env k n rootfsAppend m) env.board.linuxTagPlacement =
      some (initrdStart env, n) := by
  have hroom := h.room
  have hfixed : fixedTags env k n =
      [(atagCore, [0, 0, 0]), (atagRevision, [env.board.machineRevision]),
        (atagMem, [env.board.linuxMemSize, env.board.linuxMemStart]),
        (atagInitrd2, [initrdStart env, n])] := by
    unfold fixedTags initrdStart
    rw [if_neg hpath]
    rfl
  have hlength : ((fixedTags env k n).flatMap tagBytes).length = 64 := by
    rw [hfixed]
    rfl
  obtain ⟨size, hcover, hfit, htags, hhead, -, hlast⟩ :=
    doParams_stored n m (h.lineParts hclean) h.not_blank (h.tagsFit hlen) hlength
  have hwalk := doParams_visits hlength (by omega) hfit htags hhead hlast 2
  generalize doParams env k n rootfsAppend m = final at *
  rw [hfixed] at hwalk htags
  have hwalk8 : visits final 8 env.board.linuxTagPlacement = _ := hwalk
  -- The tag is the last of the fixed ones.
  have hsplit : final.bytes env.board.linuxTagPlacement (48 + 16) =
      (tagBytes (atagCore, [0, 0, 0]) ++ tagBytes (atagRevision, [env.board.machineRevision]) ++
        tagBytes (atagMem, [env.board.linuxMemSize, env.board.linuxMemStart])) ++
      tagBytes (atagInitrd2, [initrdStart env, n]) := by
    rw [htags]
    simp
  rw [Ram.bytes_add] at hsplit
  obtain ⟨-, htag⟩ := List.append_inj hsplit (by rw [Ram.length_bytes]; rfl)
  have hstart : u32At (tagBytes (atagInitrd2, [initrdStart env, n])) 8 = initrdStart env := by
    have hword := u32At_le32 (le32 4 ++ le32 atagInitrd2) (le32 n) (initrdStart env)
    rw [List.length_append, length_le32, length_le32,
      Nat.mod_eq_of_lt (by unfold initrdStart; omega)] at hword
    simpa [tagBytes] using hword
  have hsize : u32At (tagBytes (atagInitrd2, [initrdStart env, n])) 12 = n := by
    have hword := u32At_le32 (le32 4 ++ le32 atagInitrd2 ++ le32 (initrdStart env)) [] n
    rw [List.length_append, List.length_append, length_le32, length_le32, length_le32,
      Nat.mod_eq_of_lt hn] at hword
    simpa [tagBytes] using hword
  have hfind : ∀ rest, (places env.board.linuxTagPlacement
      [(atagCore, [0, 0, 0]), (atagRevision, [env.board.machineRevision]),
        (atagMem, [env.board.linuxMemSize, env.board.linuxMemStart]),
        (atagInitrd2, [initrdStart env, n])] ++ rest).find? (fun t => t.2 = atagInitrd2) =
      some (env.board.linuxTagPlacement + 48, atagInitrd2) := by
    intro rest
    simp [places, length_tagBytes, atagCore, atagRevision, atagMem, atagInitrd2]
  unfold initrd2
  rw [hwalk8, hfind, Option.map_some, htag, hstart, hsize]

end Tables

/-! ## The initramfs -/

section Initramfs

variable (env : Env) (extent fuel : ℕ) (k : KernelSource)

/-- `read_file` finds the file `node`, whose size is an `int`, and reads it from `s2` on. -/
structure Opened (s : St) (node : Node) (s2 : St) : Prop where
  ext2 : k.filesystem = .ext2
  found : ∃ s1, ext2fsMount env extent k s = some (.ok true, s1) ∧
    ext2fsOpen env extent k fuel k.initramfsFilepath s1 = some (.ok (node.size : ℤ), s2)
  file : s2.file = some node

/-- What `read_file` asks for of the file `node`: its first 16 MiB, or all of it. -/
def initramfsRequest (node : Node) : Ext2.Req := request node 0 (16 * 1024 * 1024)

/-- Between `s` and `s1` the initramfs is found, it has at most 16 MiB, all its blocks are found
    and read, no device read fails, and what the blocks hold are the bytes of the file. The string
    in the append buffer has an end. -/
structure InitramfsRead (s s1 : St) : Prop where
  ended : s.Ended
  undisturbed : Undisturbed env s s1
  file : ∃ node s2 map reads, Opened env extent fuel k s node s2 ∧
    node.size ≤ 16 * 1024 * 1024 ∧ Reading env extent k node (16 * 1024 * 1024) s2 map reads ∧
    (initramfsRequest node).Complete map reads ∧
    ∀ x < node.size, Ext2.held (initramfsRequest node) map (s1.volume env k).disk
      (512 * 2 ^ node.log2.toNat) x = (s1.volume env k).byte node node.log2.toNat x

/-- The bytes of the file that is open. -/
def content (s : St) : List Byte :=
  match s.file with
  | none => []
  | some node => (s.volume env k).bytes node node.log2.toNat 0 node.size

/-- The file is read: a length is returned, and no device read failed on the way. -/
def ReadSucceeds (s s1 : St) : Except Exit (ℤ × List Write) → Prop
  | .ok (got, _) => 0 ≤ got ∧ Undisturbed env s s1
  | .error _ => False

/-- If the read of the initramfs fails, the function returns. Else it returns or enters the
    kernel, with a tag for the bytes of the file. -/
def InitramfsIntact (entry : ℕ) (s s1 : St) (r : Except Exit (ℤ × List Write)) : Prop :=
  (¬ ReadSucceeds env s s1 r → ∃ s', finish env extent fuel k entry s = some (.ok (), s')) ∧
    ∀ e s', finish env extent fuel k entry s = some (.error e, s') →
      e = .started entry ∧ ReadSucceeds env s s1 r ∧ ∃ size ≤ 16 * 1024 * 1024,
        initrd2 s'.ram env.board.linuxTagPlacement = some (initrdStart env, size) ∧
        s'.ram.bytes (initrdStart env) size = content env k s1

variable {env extent fuel k} {s s1 s2 : St} {got ret : ℤ} {ws : List Write} {node : Node}
  {r : Except Exit (ℤ × List Write)}

/-- A file that is opened. -/
theorem ext2fsOpen_ok {filename : Option (List Byte)} {len : ℤ}
    (h : ext2fsOpen env extent k fuel filename s = some (.ok len, s1)) (hlen : 0 ≤ len) :
    s1.root ≠ none ∧ ∃ node, s1.file = some node ∧ len = node.size := by
  have hframe : OpenFrame fun s s' => s'.root = s.root := {
    refl := fun _ => rfl
    trans := fun _ _ _ h h' => h'.trans h
    reads := fun _ _ h => by rw [h.eq]
    pool := fun _ _ => rfl
    table := fun _ _ lv => by cases lv <;> rfl
    nest := fun _ _ => rfl
    file := fun _ _ => rfl }
  have hkept := (ext2fsOpen_tame hframe env k fuel filename).steps extent s _ s1 h
  unfold ext2fsOpen at h
  rw [Prog.get_bind] at h
  rcases hroot : s.root with _ | root
  · rw [hroot] at h
    have hlow : some (Except.ok (-1), s) = some ((.ok len, s1) : Except Exit ℤ × St) := h
    cases hlow
    exact absurd hlen (by norm_num)
  · rw [hroot] at h hkept
    obtain ⟨-, s2, -, h⟩ := Prog.bind_eq_ok.mp h
    obtain ⟨found, s3, -, h⟩ := Prog.bind_eq_ok.mp h
    rcases found with _ | node
    · cases h
      exact absurd hlen (by norm_num)
    · obtain ⟨node, s4, -, h⟩ := Prog.bind_eq_ok.mp h
      rcases node with _ | node
      · cases h
        exact absurd hlen (by norm_num)
      · obtain ⟨_, s5, hfile, h⟩ := Prog.bind_eq_ok.mp h
        simp only [Prog.pure_apply, Option.some.injEq, Prod.mk.injEq, Except.ok.injEq] at h
        obtain ⟨hsize, rfl⟩ := h
        rw [Prog.modify_apply] at hfile
        cases hfile
        refine ⟨by rw [hkept]; exact Option.some_ne_none root, node, rfl, ?_⟩
        exact (eq_of_int32_eq hsize hlen (Int.natCast_nonneg _)
          (by exact_mod_cast u32At_lt node.inode 4)).symm

theorem ext2fsRead_eq {len : ℕ} (hroot : s.root ≠ none) (hfile : s.file = some node) :
    ext2fsRead env extent k len s = ext2fsReadFile env extent k node 0 len s := by
  obtain ⟨root, hroot⟩ := Option.ne_none_iff_exists'.mp hroot
  unfold ext2fsRead
  rw [Prog.get_bind, hroot, hfile]

theorem toU32_request : toU32 (16 * 1024 * 1024) = 16 * 1024 * 1024 := by
  decide

/-- A length that `read_file` returns is that of the file it found. -/
theorem fetchInitramfs_opened (hpath : k.initramfsFilepath ≠ none)
    (h : fetchInitramfs env extent fuel k s = some (.ok (got, ws), s1)) (hgot : 0 ≤ got) :
    ∃ node s2 ret, Opened env extent fuel k s node s2 ∧ got = node.size ∧ 0 ≤ ret ∧
      ext2fsReadFile env extent k node 0 (16 * 1024 * 1024) s2 = some (.ok (ret, ws), s1) := by
  have hfail : ∀ {ws' : List Write} {s' s'' : St} {n : ℤ}, n < 0 →
      (pure (n, ws') : Phase2 (ℤ × List Write)) s' = some (.ok (got, ws), s'') → False := by
    intro ws' s' s'' n hn hpure
    cases hpure
    omega
  unfold fetchInitramfs fetchFile at h
  split_ifs at h with hfs
  · obtain ⟨mounted, s3, hmount, h⟩ := Prog.bind_eq_ok.mp h
    split_ifs at h with hmounted
    · rw [hmounted] at hmount
      obtain ⟨len, s2, hopen, h⟩ := Prog.bind_eq_ok.mp h
      split_ifs at h with hlen
      · exact (hfail (by norm_num) h).elim
      · obtain ⟨hroot, node, hfile, hsize⟩ := ext2fsOpen_ok hopen (not_lt.mp hlen)
        obtain ⟨⟨ret, ws'⟩, s4, hread, h⟩ := Prog.bind_eq_ok.mp h
        rw [ext2fsRead_eq hroot hfile, toU32_request] at hread
        dsimp only at h
        by_cases hret : ret < 0
        · rw [if_pos hret] at h
          exact (hfail (by norm_num) h).elim
        · rw [if_neg hret] at h
          simp only [Prog.pure_apply, Option.some.injEq, Prod.mk.injEq, Except.ok.injEq] at h
          obtain ⟨⟨rfl, rfl⟩, rfl⟩ := h
          rw [hsize] at hopen
          have hopened : Opened env extent fuel k s node s2 := ⟨hfs, ⟨s3, hmount, hopen⟩, hfile⟩
          exact ⟨node, s2, ret, hopened, hsize, not_lt.mp hret, hread⟩
    · exact (hfail (by norm_num) h).elim
  · exact (hfail (by norm_num) h).elim

theorem Opened.fetches (h : Opened env extent fuel k s node s2) : Fetches s s2 := by
  have hR := fetches_frame
  obtain ⟨s3, hmount, hopen⟩ := h.found
  exact Fetches.trans s s3 s2 ((ext2fsMount_tame hR env k).steps extent _ _ _ hmount)
    ((ext2fsOpen_tame hR.toOpenFrame env k fuel _).steps extent _ _ _ hopen)

/-- A file that is found and read. -/
theorem Opened.fetch (h : Opened env extent fuel k s node s2)
    (hread : ext2fsReadFile env extent k node 0 (16 * 1024 * 1024) s2 = some (.ok (ret, ws), s1))
    (hret : 0 ≤ ret) :
    fetchInitramfs env extent fuel k s = some (.ok ((node.size : ℤ), ws), s1) := by
  obtain ⟨s3, hmount, hopen⟩ := h.found
  have hroot := (ext2fsOpen_ok hopen (Int.natCast_nonneg _)).1
  have hrun : ext2fsRead env extent k (toU32 (16 * 1024 * 1024)) s2 = some (.ok (ret, ws), s1) := by
    rw [ext2fsRead_eq hroot h.file, toU32_request]
    exact hread
  unfold fetchInitramfs fetchFile
  rw [if_pos h.ext2, Prog.bind_ok hmount, if_pos rfl, Prog.bind_ok hopen,
    if_neg (not_lt.mpr (Int.natCast_nonneg _)), Prog.bind_ok hrun]
  dsimp only
  rw [if_neg (not_lt.mpr hret), Prog.pure_apply]

/-- What is read of an initramfs that is found, and has at most 16 MiB. -/
theorem Opened.content_eq (h : Opened env extent fuel k s node s2)
    (hread : ext2fsReadFile env extent k node 0 (16 * 1024 * 1024) s2 = some (.ok (ret, ws), s1)) :
    s1.file = some node ∧
      content env k s1 = (s1.volume env k).bytes node node.log2.toNat 0 node.size := by
  have hopen := (ext2fsReadFile_tame readsOpen_frame env k node 0 _).steps extent _ _ _ hread
  have hfile : s1.file = some node := hopen.2.1.trans h.file
  refine ⟨hfile, ?_⟩
  unfold content
  rw [hfile]

/-- The memory in which the kernel is entered. -/
def entered (env : Env) (k : KernelSource) (s : St) (got : ℤ) (ws : List Write) : Ram :=
  doParams env k (toU32 got) s.appended (delivered (initrdStart env) ws s.ram)

theorem ended_iff : s.Ended ↔ s.appended.length ≠ s.commandlineRootfsAppend.length := by
  unfold St.Ended St.appended
  rw [Ne, length_takeWhile_eq, not_not]

theorem appended_le (hbuf : s.commandlineRootfsAppend.length = 512) : s.appended.length ≤ 512 := by
  rw [← hbuf]
  exact (List.takeWhile_prefix _).length_le

/-- The tag has the length that was read. -/
theorem entered_tag (hpath : k.initramfsFilepath ≠ none) (htables : Tables env k)
    (hbuf : s.commandlineRootfsAppend.length = 512) :
    initrd2 (entered env k s got ws) env.board.linuxTagPlacement =
      some (initrdStart env, toU32 got) := by
  have hlt : toU32 got < 2 ^ 32 := by
    unfold toU32
    omega
  exact htables.initrd2_eq (appended_le hbuf) cstr_clean hpath hlt _

/-- Behind the tag, the memory holds what was delivered. -/
theorem entered_bytes (htables : Tables env k) (hbuf : s.commandlineRootfsAppend.length = 512)
    {n : ℕ} {byte : ℕ → Byte} (hn : n ≤ 16 * 1024 * 1024)
    (hends : ∀ w ∈ ws, w.1 + w.2.length ≤ 32 * 1024 * 1024)
    (hover : ∀ x < n, overlay ws x = some (byte x)) :
    (entered env k s got ws).bytes (initrdStart env) n = (List.range n).map byte := by
  have hroom := htables.room
  have habove : (entered env k s got ws).bytes (initrdStart env) n =
      (delivered (initrdStart env) ws s.ram).bytes (initrdStart env) n := by
    unfold entered initrdStart
    exact htables.doParams_above (appended_le hbuf) cstr_clean _ _ (by omega) (by omega)
  rw [habove]
  apply List.map_congr_left
  intro x hx
  have hxn : x < n := List.mem_range.mp hx
  have hin : ∀ w ∈ ws, initrdStart env + w.1 + w.2.length ≤ 2 ^ 32 := by
    intro w hw
    have hend := hends w hw
    unfold initrdStart
    omega
  rw [delivered_get hin (by unfold initrdStart; omega), hover x hxn]
  rfl

/-- What the kernel finds of an initramfs of at most 16 MiB that is read. -/
theorem Opened.entered_bytes {map : ℤ → ℤ} {reads : ℕ → Bool} {l : ℕ} (htables : Tables env k)
    (hbuf : s.commandlineRootfsAppend.length = 512) (hblocks : node.Blocks l)
    (hsize : node.size ≤ 16 * 1024 * 1024)
    (hread : ext2fsReadFile env extent k node 0 (16 * 1024 * 1024) s2 = some (.ok (ret, ws), s1))
    (hret : 0 ≤ ret) (hdone : Undisturbed env s2 s1)
    (ha : Reading env extent k node (16 * 1024 * 1024) s2 map reads) :
    (entered env k s node.size ws).bytes (initrdStart env) node.size =
      (List.range node.size).map (Ext2.held (initramfsRequest node) map (s1.volume env k).disk
        (512 * 2 ^ node.log2.toNat)) := by
  have hlen : (request node 0 (16 * 1024 * 1024)).len = node.size := min_eq_right hsize
  have hlog : node.log2.toNat = l := by
    rw [hblocks.log2, Int.toNat_natCast]
  obtain ⟨hends, hover⟩ := ext2fsReadFile_delivers hblocks (by omega) hread hret hdone ha
  rw [hlen] at hends hover
  rw [hlog]
  have hblock : 512 * 2 ^ l ≤ 512 * 2 ^ 7 :=
    Nat.mul_le_mul_left _ (Nat.pow_le_pow_right (by norm_num) hblocks.le)
  apply Qi.entered_bytes htables hbuf hsize _ hover
  intro w hw
  have hend := hends w hw
  omega

theorem map_range_eq_iff {α : Type} {n : ℕ} {f g : ℕ → α} :
    (List.range n).map f = (List.range n).map g ↔ ∀ x < n, f x = g x := by
  rw [List.map_inj_left]
  exact forall_congr' fun x => imp_congr_left List.mem_range

/-- An initramfs that is intact was read. -/
theorem initramfsRead_of_intact (hpath : k.initramfsFilepath ≠ none) (htables : Tables env k)
    (hbuf : s.commandlineRootfsAppend.length = 512)
    (hblocks : ∀ node, s1.file = some node → ∃ l, node.Blocks l)
    (hrun : fetchInitramfs env extent fuel k s = some (r, s1)) (entry : ℕ)
    (h : InitramfsIntact env extent fuel k entry s s1 r) : InitramfsRead env extent fuel k s s1 := by
  obtain ⟨hfail, hstart⟩ := h
  have hreads : ReadSucceeds env s s1 r := by
    by_contra hnot
    obtain ⟨s', hok⟩ := hfail hnot
    exact finish_ne_ok entry hpath hrun s' hok
  rcases r with e | ⟨got, ws⟩
  · exact hreads.elim
  obtain ⟨hgot, hdone⟩ := hreads
  have hfinish := finish_eq entry hpath hrun
  have hend : s.Ended := by
    rw [ended_iff]
    intro hlen
    rw [if_pos hlen] at hfinish
    have hentry := (hstart _ _ hfinish).1
    cases hentry
  rw [if_neg (ended_iff.mp hend)] at hfinish
  obtain ⟨-, -, size, hsize, htag, hbytes⟩ := hstart _ _ hfinish
  obtain ⟨node, s2, ret, hopen, rfl, hret, hread⟩ := fetchInitramfs_opened hpath hrun hgot
  obtain ⟨hfile, hcontent⟩ := hopen.content_eq hread
  obtain ⟨l, hl⟩ := hblocks node hfile
  have hnode : node.size < 2 ^ 32 := u32At_lt _ _
  have htag : some (initrdStart env, toU32 (node.size : ℤ)) = some (initrdStart env, size) :=
    (entered_tag hpath htables hbuf).symm.trans htag
  rw [toU32_natCast hnode] at htag
  cases htag
  have hdone2 := hdone.within hopen.fetches (Fetches.refl s1)
  have hrun2 := hread
  unfold ext2fsReadFile at hrun2
  obtain ⟨map, reads, ha⟩ := Ext2.exists_answered hrun2
  have hlen : (request node 0 (16 * 1024 * 1024)).len = node.size := min_eq_right hsize
  refine ⟨hend, hdone, node, s2, map, reads, hopen, hsize, ha, ?_, ?_⟩
  · exact (ext2fsReadFile_complete_iff (by omega) hread ha).mpr hret
  · rw [← map_range_eq_iff, ← Opened.entered_bytes htables hbuf hl hsize hread hret hdone2 ha]
    have hbytes : (entered env k s node.size ws).bytes (initrdStart env) node.size = _ := hbytes
    rw [hbytes, hcontent]
    unfold Volume.bytes
    simp only [Nat.zero_add]

/-- An initramfs that was read is intact. -/
theorem intact_of_initramfsRead (hpath : k.initramfsFilepath ≠ none) (htables : Tables env k)
    (hbuf : s.commandlineRootfsAppend.length = 512)
    (hblocks : ∀ node, s1.file = some node → ∃ l, node.Blocks l)
    (hrun : fetchInitramfs env extent fuel k s = some (r, s1)) (entry : ℕ)
    (h : InitramfsRead env extent fuel k s s1) : InitramfsIntact env extent fuel k entry s s1 r := by
  obtain ⟨node, s2, map, reads, hopen, hsize, ha, hcomplete, hheld⟩ := h.file
  have hlen : (request node 0 (16 * 1024 * 1024)).len = node.size := min_eq_right hsize
  obtain ⟨ret, ws, s3, hread⟩ := ha.run
  have hret := (ext2fsReadFile_complete_iff (by omega) hread ha).mp hcomplete
  have hfetch := hopen.fetch hread hret
  rw [hrun] at hfetch
  simp only [Option.some.injEq, Prod.mk.injEq] at hfetch
  obtain ⟨rfl, rfl⟩ := hfetch
  have hsucceeds : ReadSucceeds env s s1 (.ok ((node.size : ℤ), ws)) :=
    ⟨Int.natCast_nonneg _, h.undisturbed⟩
  refine ⟨fun hnot => absurd hsucceeds hnot, fun e s' hfinish => ?_⟩
  rw [finish_eq entry hpath hrun, if_neg (ended_iff.mp h.ended)] at hfinish
  simp only [Option.some.injEq, Prod.mk.injEq, Except.error.injEq] at hfinish
  obtain ⟨rfl, rfl⟩ := hfinish
  obtain ⟨hfile, hcontent⟩ := hopen.content_eq hread
  obtain ⟨l, hl⟩ := hblocks node hfile
  have hdone2 := h.undisturbed.within hopen.fetches (Fetches.refl s1)
  refine ⟨rfl, hsucceeds, node.size, hsize, ?_, ?_⟩
  · have hnode : node.size < 2 ^ 32 := u32At_lt _ _
    have htag := @entered_tag env k s node.size ws hpath htables hbuf
    rw [toU32_natCast hnode] at htag
    exact htag
  · have hbytes := Opened.entered_bytes htables hbuf hl hsize hread hret hdone2 ha
    refine hbytes.trans ?_
    rw [hcontent]
    unfold Volume.bytes
    simp only [Nat.zero_add]
    exact map_range_eq_iff.mpr hheld

/-- On a device that works, a file of at most 16 MiB is read. -/
theorem initramfsRead_of_fileOn {l e : ℕ} (hopen : Opened env extent fuel k s node s2)
    (hend : s.Ended) (hon : FileOn env k node l e s2) (hpart : node.Part l e 0 node.size)
    (hsize : node.size ≤ 16 * 1024 * 1024) (hroom : s2.pool + spare l s2 ≤ extent)
    (hextent : extent < 2 ^ 32) (hrun : fetchInitramfs env extent fuel k s = some (r, s1)) :
    InitramfsRead env extent fuel k s s1 := by
  have hreq : request node 0 (16 * 1024 * 1024) = request node (0 : ℕ) node.size := by
    unfold request
    rw [min_eq_right hsize, min_self]
    rfl
  have hlen : (request node 0 (16 * 1024 * 1024)).len = node.size := min_eq_right hsize
  obtain ⟨out, s3, hfile, hadv, hover, -⟩ := ext2fsReadFile_eq hon hpart hroom hextent
  have hread : ext2fsReadFile env extent k node 0 (16 * 1024 * 1024) s2 =
      some (.ok ((node.size : ℤ), out), s3) := by
    unfold ext2fsReadFile at hfile ⊢
    rw [hreq]
    exact hfile
  have hret : (0 : ℤ) ≤ node.size := Int.natCast_nonneg _
  have hfetch := hopen.fetch hread hret
  rw [hrun] at hfetch
  simp only [Option.some.injEq, Prod.mk.injEq] at hfetch
  obtain ⟨-, rfl⟩ := hfetch
  have hdone : ∀ s s', Undisturbed env s s' := fun _ _ n _ _ => hon.works.outcome n
  have hrun2 := hread
  unfold ext2fsReadFile at hrun2
  obtain ⟨map, reads, ha⟩ := Ext2.exists_answered hrun2
  obtain ⟨-, hheld⟩ := ext2fsReadFile_delivers hon.sizes (by omega) hread hret (hdone s2 s1) ha
  refine ⟨hend, hdone s s1, node, s2, map, reads, hopen, hsize, ha, ?_, fun x hx => ?_⟩
  · exact (ext2fsReadFile_complete_iff (by omega) hread ha).mpr hret
  · have hbyte := (hheld x (by omega)).symm.trans (hover x hx)
    rw [Nat.zero_add] at hbyte
    rw [hon.sizes.log2, Int.toNat_natCast, hadv.volume_eq]
    rw [hadv.volume_eq] at hbyte
    exact Option.some.inj hbyte

end Initramfs

/-- A kernel in a raw partition, with an initramfs. -/
def rawSource : KernelSource :=
  { ext2Source with
    name := "raw", filepath := none, initramfsFilepath := some [0x69], partitionIndex := 0,
    filesystem := .raw }

/-- A board with this source; the image is a header without data. -/
def rawEnv : Env :=
  let env := workingEnv (fun q => [0x27, 0x05, 0x19, 0x56].getD q 0) [rawSource]
  { env with board := { env.board with commandlineBoard := [0x61] } }

/-- What a boot ends with: the entry point, and the tag for the initramfs. -/
def handedOver (env : Env) (fuel : ℕ) : Option (ℕ × Option (ℕ × ℕ)) :=
  match bootloaderSecondPhase env mallocPoolExtent fuel (St.start fun _ => 0) with
  | some (.error (.started entry), s) =>
    some (entry, initrd2 s.ram env.board.linuxTagPlacement)
  | _ => none

theorem rawEnv_tables : Tables rawEnv rawSource where
  placement := rfl
  room := by decide
  length_le := by decide
  visible := ⟨0x61, by decide, by decide⟩
  parts := {
    board := by
      show ∀ c ∈ ([0x61] : List Byte), c ≠ 0
      simp
    device := List.forall_mem_nil _
    source := List.forall_mem_nil _
    rootfs := List.forall_mem_nil _
    debug := List.forall_mem_nil _ }

theorem rawEnv_fetch :
    fetchInitramfs rawEnv mallocPoolExtent 0 rawSource (St.start fun _ => 0) =
      some (.ok (-1, []), St.start fun _ => 0) := rfl

end SmartQ.Qi
