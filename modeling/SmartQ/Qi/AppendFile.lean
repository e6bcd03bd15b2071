import SmartQ.Qi.Handover

/-!
# The append file of a source

`try_this_kernel` in `qi/src/phase2.c` reads the append file of its source into a static buffer
of 512 bytes, of which it only clears the first.

* `tryThisKernel_eq`: the turn of a source in its parts.
* `readAppend_eq`: the append file is read once it is open.
* `devread_granted`: less than a sector is stored whether the device read failed or not.
* `ext2fsReadFile_first`: a file whose first block is on the disk is read with one device read.
-/

namespace SmartQ.Qi

open SmartQ.Lib

/-! ## The command line in its tag -/

/-- The command line that the kernel finds in the list at `a`. -/
def cmdlineTag (m : Ram) (a : ℕ) : Option (List Byte) :=
  ((visits m 8 a).find? fun t => t.2 = atagCmdline).map fun t => cstrAt m (2 ^ 32) (t.1 + 8)

theorem TagList.cmdlineTag_eq {m : Ram} {a : ℕ} {k : KernelSource} {line : List Byte}
    {tags : List (ℕ × ℕ)} (h : TagList m a (tagKinds k) line tags) (hclean : ∀ c ∈ line, c ≠ 0)
    (hlen : line.length < 2 ^ 32) : cmdlineTag m a = some line := by
  have hmem : atagCmdline ∈ tags.map Prod.snd := by
    rw [h.kinds_eq]
    unfold tagKinds
    simp
  obtain ⟨t, ht, hkind⟩ := List.mem_map.mp hmem
  have hfound : (tags.find? fun t => t.2 = atagCmdline).isSome :=
    List.find?_isSome.mpr ⟨t, ht, decide_eq_true hkind⟩
  obtain ⟨t', ht'⟩ := Option.isSome_iff_exists.mp hfound
  have hmem' := List.mem_of_find?_eq_some ht'
  have hkind' : t'.2 = atagCmdline := by simpa using List.find?_some ht'
  unfold cmdlineTag
  rw [h.walk 8 (by norm_num), ht', Option.map_some,
    cstrAt_eq (h.line_eq t' hmem' hkind') hclean hlen]

theorem Tables.cmdlineTag_eq {env : Env} {k : KernelSource} {rootfsAppend : List Byte}
    (h : Tables env k) (hlen : rootfsAppend.length ≤ 512) (hclean : ∀ c ∈ rootfsAppend, c ≠ 0)
    (n : ℕ) (m : Ram) :
    cmdlineTag (doParams env k n rootfsAppend m) env.board.linuxTagPlacement =
      some (bootLine env k rootfsAppend) := by
  have hparts := h.lineParts hclean
  have hline := h.line_le hlen
  obtain ⟨tags, htags⟩ := doParams_tags n m hparts h.not_blank (h.tagsFit hlen)
  apply htags.cmdlineTag_eq hparts.bootLine
  have hprefix := (List.rdropWhile_prefix (fun c : Byte => decide (c = 0x0a))
    (l := commandline env k rootfsAppend)).length_le
  unfold bootLine
  rw [List.length_append]
  omega

/-! ## The turn of a source -/

section Turn

variable (env : Env) (extent fuel : ℕ) (k : KernelSource)

/-- `try_this_kernel` (lines 379–408) up to the append file: whether it goes on. -/
def lookUp : Phase2 Bool := do
  Prog.modify fun s =>
    { s with
      partitionOffsetBlocks := 0, partitionLengthBlocks := 0,
      log := s.log ++ [.tryingKernel k.name] }
  let initialised ← doBlockInit env k
  if initialised then do
    let found ← doPartitions env k
    if found then do
      let ret ← readFile env extent fuel k env.board.noboot (.ram (kernelDram env)) 512
      if ret ≠ -1 then pure false else do
        Prog.modify fun s =>
          { s with commandlineRootfsAppend := patch s.commandlineRootfsAppend [(0, [0])] }
        pure true
    else pure false
  else pure false

/-- The append file is read (line 409). -/
def readAppend : Phase2 ℤ := readFile env extent fuel k env.board.append .append 512

/-- The kernel image and the initramfs (lines 413–434): the entry point and the length. -/
def loadImages : Phase2 (Option (ℕ × ℕ)) := do
  let entry ← loadKernel env extent fuel k
  match entry with
  | none => pure none
  | some entry => do
    let initramfsLen ← loadInitramfs env extent fuel k
    pure (some (entry, initramfsLen))

theorem tryThisKernel_eq :
    tryThisKernel env extent fuel k = lookUp env extent fuel k >>= fun found =>
      if found then readAppend env extent fuel k >>= fun _ =>
        loadImages env extent fuel k >>= fun images =>
          match images with
          | none => pure ()
          | some (entry, initramfsLen) => startKernel env k entry initramfsLen
      else pure () := by
  unfold tryThisKernel lookUp
  simp only [Prog.bind_assoc]
  refine bind_congr fun _ => bind_congr fun initialised => ?_
  cases initialised with
  | false => rfl
  | true =>
    simp only [if_true, Prog.bind_assoc]
    refine bind_congr fun found => ?_
    cases found with
    | false => rfl
    | true =>
      simp only [if_true, Prog.bind_assoc]
      unfold tryPartition
      refine bind_congr fun ret => ?_
      by_cases hret : ret = -1
      · rw [if_neg (not_not_intro hret), if_neg (not_not_intro hret), Prog.bind_assoc]
        refine bind_congr fun _ => ?_
        unfold readAppend loadImages
        funext s
        simp only [Prog.ret_bind, if_true]
        apply congrFun
        refine bind_congr fun _ => ?_
        rw [Prog.bind_assoc]
        refine bind_congr fun entry => ?_
        cases entry with
        | none => rfl
        | some entry =>
          simp only [Prog.bind_assoc]
          rfl
      · rw [if_pos hret, if_pos hret]
        rfl

/-- The source `k` gets to its tag list, with the sources `before` tried in vain: its append file
    is looked for in the state `sa`, and `sc` is the state when the images are loaded. -/
structure Boots (ram : Ram) (before : List KernelSource) (sa sc : St) (entry initramfsLen : ℕ) :
    Prop where
  found : ∃ s, trySources env extent fuel before (St.start ram) = some (.ok (), s) ∧
    lookUp env extent fuel k s = some (.ok true, sa)
  loads : ∃ ret sb, readAppend env extent fuel k sa = some (.ok ret, sb) ∧
    loadImages env extent fuel k sb = some (.ok (some (entry, initramfsLen)), sc)

end Turn

section Runs

variable {env : Env} {extent fuel : ℕ} {k : KernelSource} {ram : Ram} {s s' : St}

theorem trySources_append {before ks : List KernelSource}
    (h : trySources env extent fuel before s = some (.ok (), s')) :
    trySources env extent fuel (before ++ ks) s = trySources env extent fuel ks s' := by
  induction before generalizing s with
  | nil =>
    cases h
    rfl
  | cons k before ih =>
    unfold trySources at h
    obtain ⟨_, s1, hone, hrest⟩ := Prog.bind_eq_ok.mp h
    rw [List.cons_append, trySources, Prog.bind_ok hone]
    exact ih hrest

/-- The boot loop ends as the tag list of the source does. -/
theorem Boots.run {before : List KernelSource} {sa sc : St} {entry n : ℕ} {e : Exit}
    (h : Boots env extent fuel k ram before sa sc entry n)
    (hstart : startKernel env k entry n sc = some (.error e, s')) (after : List KernelSource) :
    trySources env extent fuel (before ++ k :: after) (St.start ram) = some (.error e, s') := by
  obtain ⟨⟨s1, hbefore, hfound⟩, ret, sb, hread, hload⟩ := h
  rw [trySources_append hbefore, trySources]
  apply Prog.bind_error
  rw [tryThisKernel_eq, Prog.bind_ok hfound, if_pos rfl, Prog.bind_ok hread, Prog.bind_ok hload]
  exact hstart

end Runs

/-! ## The buffer -/

/-- The buffer for the append file is left as it is. -/
def BufferKept (s s' : St) : Prop := s'.commandlineRootfsAppend = s.commandlineRootfsAppend

/-- The buffer keeps its size. -/
def BufferSized (s s' : St) : Prop :=
  s'.commandlineRootfsAppend.length = s.commandlineRootfsAppend.length

theorem BufferKept.refl (s : St) : BufferKept s s := Eq.refl _

theorem BufferKept.trans (s s' s'' : St) (h : BufferKept s s') (h' : BufferKept s' s'') :
    BufferKept s s'' :=
  Eq.trans h' h

theorem BufferSized.refl (s : St) : BufferSized s s := Eq.refl _

theorem BufferSized.trans (s s' s'' : St) (h : BufferSized s s') (h' : BufferSized s' s'') :
    BufferSized s s'' :=
  Eq.trans h' h

theorem sized_of_kept {α : Type} {x : Phase2 α} (h : Prog.Steps BufferKept x) :
    Prog.Steps BufferSized x :=
  fun s r s' hrun => congrArg List.length (h s r s' hrun)

/-- The ext2 reader leaves the buffer as it is. -/
theorem bufferKept : Ext2Frame BufferKept where
  refl := BufferKept.refl
  trans := BufferKept.trans
  reads _ _ h := by rw [h.eq]; rfl
  pool _ _ := rfl
  table _ _ lv := by cases lv <;> rfl
  nest _ _ := rfl
  file _ _ := rfl
  root _ _ := rfl
  inodeSize _ _ := rfl

section Kept

variable (env : Env) (extent fuel : ℕ) (k : KernelSource)

theorem readFile_kept (filepath : Option (List Byte)) (addr : ℕ) (size : ℤ) :
    Prog.Steps BufferKept (readFile env extent fuel k filepath (.ram addr) size) := by
  rw [readFile_eq]
  apply Prog.Steps.bind BufferKept.trans
  · exact fun s r s' h => (fetchFile_frame h).append
  intro got
  apply Prog.Steps.bind BufferKept.trans
  · exact Prog.Steps.modify fun s => rfl
  exact fun _ => Prog.Steps.ret BufferKept.refl _

theorem doBlockInit_kept : Prog.Steps BufferKept (doBlockInit env k) := by
  unfold doBlockInit
  rcases k.blockInit with _ | init
  · exact Prog.Steps.ret BufferKept.refl _
  · apply Prog.Steps.bind BufferKept.trans (Prog.Steps.get BufferKept.refl)
    intro s
    apply Prog.Steps.bind BufferKept.trans
    · apply Prog.Steps.doIf BufferKept.refl
      exact Prog.Steps.modify fun s => rfl
    intro _
    apply Prog.Steps.bind BufferKept.trans (Prog.Steps.get BufferKept.refl)
    exact fun _ => Prog.Steps.ret BufferKept.refl _

theorem doPartitions_kept : Prog.Steps BufferKept (doPartitions env k) := by
  unfold doPartitions
  split_ifs
  · apply Prog.Steps.bind BufferKept.trans
    · exact Prog.Steps.modify fun s => rfl
    exact fun _ => Prog.Steps.ret BufferKept.refl _
  · apply Prog.Steps.bind BufferKept.trans
    · exact fun s r s' h => bufferKept.reads s s' (blockRead_reads env k 0 4 s r s' h)
    rintro ⟨ret, bytes⟩
    apply Prog.Steps.bind BufferKept.trans
    · exact Prog.Steps.modify fun s => rfl
    intro _
    apply Prog.Steps.bind BufferKept.trans (Prog.Steps.get BufferKept.refl)
    intro s
    dsimp only
    split_ifs
    · exact Prog.Steps.ret BufferKept.refl _
    · exact Prog.Steps.ret BufferKept.refl _
    · apply Prog.Steps.bind BufferKept.trans
      · exact Prog.Steps.modify fun s => rfl
      exact fun _ => Prog.Steps.ret BufferKept.refl _

theorem loadUimage_kept : Prog.Steps BufferKept (loadUimage env extent fuel k) := by
  unfold loadUimage
  apply Prog.Steps.bind BufferKept.trans (Prog.Steps.get BufferKept.refl)
  intro s
  dsimp only
  split_ifs
  · exact Prog.Steps.ret BufferKept.refl _
  · apply Prog.Steps.bind BufferKept.trans (readFile_kept env extent fuel k _ _ _)
    intro got
    split_ifs
    · exact Prog.Steps.ret BufferKept.refl _
    · apply Prog.Steps.bind BufferKept.trans (Prog.Steps.get BufferKept.refl)
      exact fun _ => Prog.Steps.ret BufferKept.refl _

theorem loadZimage_kept : Prog.Steps BufferKept (loadZimage env extent fuel k) := by
  unfold loadZimage
  apply Prog.Steps.bind BufferKept.trans (Prog.Steps.get BufferKept.refl)
  intro s
  dsimp only
  split_ifs
  · exact Prog.Steps.ret BufferKept.refl _
  · apply Prog.Steps.bind BufferKept.trans (readFile_kept env extent fuel k _ _ _)
    exact fun _ => Prog.Steps.ret BufferKept.refl _

theorem loadKernel_kept : Prog.Steps BufferKept (loadKernel env extent fuel k) := by
  unfold loadKernel
  apply Prog.Steps.bind BufferKept.trans (readFile_kept env extent fuel k _ _ _)
  intro got
  split_ifs
  · exact Prog.Steps.ret BufferKept.refl _
  · apply Prog.Steps.bind BufferKept.trans (loadUimage_kept env extent fuel k)
    rintro (_ | entry)
    · exact loadZimage_kept env extent fuel k
    · exact Prog.Steps.ret BufferKept.refl _

theorem loadInitramfs_kept : Prog.Steps BufferKept (loadInitramfs env extent fuel k) := by
  unfold loadInitramfs
  split_ifs
  · exact Prog.Steps.ret BufferKept.refl _
  · apply Prog.Steps.bind BufferKept.trans (readFile_kept env extent fuel k _ _ _)
    exact fun _ => Prog.Steps.ret BufferKept.refl _

theorem loadImages_kept : Prog.Steps BufferKept (loadImages env extent fuel k) := by
  unfold loadImages
  apply Prog.Steps.bind BufferKept.trans (loadKernel_kept env extent fuel k)
  rintro (_ | entry)
  · exact Prog.Steps.ret BufferKept.refl _
  · apply Prog.Steps.bind BufferKept.trans (loadInitramfs_kept env extent fuel k)
    exact fun _ => Prog.Steps.ret BufferKept.refl _

theorem startKernel_kept (entry n : ℕ) : Prog.Steps BufferKept (startKernel env k entry n) := by
  intro s r s' h
  rw [startKernel_eq] at h
  split_ifs at h <;> cases h <;> rfl

theorem lookUp_sized : Prog.Steps BufferSized (lookUp env extent fuel k) := by
  unfold lookUp
  apply Prog.Steps.bind BufferSized.trans
  · exact Prog.Steps.modify fun s => rfl
  intro _
  apply Prog.Steps.bind BufferSized.trans (sized_of_kept (doBlockInit_kept env k))
  intro initialised
  split_ifs
  · apply Prog.Steps.bind BufferSized.trans (sized_of_kept (doPartitions_kept env k))
    intro found
    split_ifs
    · apply Prog.Steps.bind BufferSized.trans
      · exact sized_of_kept (readFile_kept env extent fuel k _ _ _)
      intro ret
      split_ifs
      · exact Prog.Steps.ret BufferSized.refl _
      · apply Prog.Steps.bind BufferSized.trans
        · exact Prog.Steps.modify fun s => length_patch _ _
        exact fun _ => Prog.Steps.ret BufferSized.refl _
    · exact Prog.Steps.ret BufferSized.refl _
  · exact Prog.Steps.ret BufferSized.refl _

theorem readAppend_sized : Prog.Steps BufferSized (readAppend env extent fuel k) := by
  unfold readAppend
  rw [readFile_eq]
  apply Prog.Steps.bind BufferSized.trans
  · exact fun s r s' h => congrArg List.length (fetchFile_frame h).append
  intro got
  apply Prog.Steps.bind BufferSized.trans
  · apply Prog.Steps.bind BufferSized.trans (Prog.Steps.exitIf BufferSized.refl _ _)
    exact fun _ => Prog.Steps.modify fun s => length_patch _ _
  exact fun _ => Prog.Steps.ret BufferSized.refl _

/-- One source after another. -/
theorem trySources_sized (ks : List KernelSource) :
    Prog.Steps BufferSized (trySources env extent fuel ks) := by
  induction ks with
  | nil => exact Prog.Steps.ret BufferSized.refl _
  | cons k ks ih =>
    unfold trySources
    apply Prog.Steps.bind BufferSized.trans _ fun _ => ih
    rw [tryThisKernel_eq]
    apply Prog.Steps.bind BufferSized.trans (lookUp_sized env extent fuel k)
    intro found
    split_ifs
    · apply Prog.Steps.bind BufferSized.trans (readAppend_sized env extent fuel k)
      intro ret
      apply Prog.Steps.bind BufferSized.trans (sized_of_kept (loadImages_kept env extent fuel k))
      rintro (_ | ⟨entry, n⟩)
      · exact Prog.Steps.ret BufferSized.refl _
      · exact sized_of_kept (startKernel_kept env k entry n)
    · exact Prog.Steps.ret BufferSized.refl _

end Kept

/-- Bytes that are stored at the start. -/
theorem patch_front {bs front : List Byte} (h : front.length ≤ bs.length) :
    patch bs [(0, front)] = front ++ bs.drop front.length := by
  have hlen : (patch bs [(0, front)]).length = (front ++ bs.drop front.length).length := by
    rw [length_patch, List.length_append, List.length_drop]
    omega
  apply List.ext_getElem hlen
  intro j hj hj'
  have hjn : j < bs.length := by rwa [length_patch] at hj
  have hget : (patch bs [(0, front)])[j] = (overlay [(0, front)] j).getD (byteAt bs j) := by
    simp [patch]
  rw [hget, overlay, overlay_nil, Option.none_or]
  by_cases hin : j < front.length
  · rw [if_pos ⟨Nat.zero_le j, by rwa [Nat.zero_add]⟩, List.getElem_append_left hin, Nat.sub_zero,
      byteAt_of_lt hin]
    rfl
  · rw [if_neg (show ¬ (0 ≤ j ∧ j < 0 + front.length) by omega),
      List.getElem_append_right (by omega), List.getElem_drop]
    have hsum : front.length + (j - front.length) = j := by omega
    simp only [hsum]
    exact byteAt_of_lt hjn

section Boots

variable {env : Env} {extent fuel : ℕ} {k : KernelSource} {ram : Ram} {before : List KernelSource}
  {sa sc : St} {entry n : ℕ}

/-- The buffer in which the append file is read has 512 bytes. -/
theorem Boots.length_buffer (h : Boots env extent fuel k ram before sa sc entry n) :
    sa.commandlineRootfsAppend.length = 512 := by
  obtain ⟨s, hbefore, hfound⟩ := h.found
  have hstart := trySources_sized env extent fuel before _ _ _ hbefore
  have hturn := lookUp_sized env extent fuel k _ _ _ hfound
  have hsized : BufferSized (St.start ram) sa := BufferSized.trans _ _ _ hstart hturn
  exact Eq.trans hsized List.length_replicate

/-- The buffer starts with a 0 before the append file is read. -/
theorem lookUp_clears {s : St} (h : lookUp env extent fuel k s = some (.ok true, sa)) :
    ∃ bs, sa.commandlineRootfsAppend = patch bs [(0, [0])] := by
  unfold lookUp at h
  rw [Prog.modify_bind] at h
  obtain ⟨initialised, s1, -, h⟩ := Prog.bind_eq_ok.mp h
  split_ifs at h
  · obtain ⟨found, s2, -, h⟩ := Prog.bind_eq_ok.mp h
    split_ifs at h
    · obtain ⟨ret, s3, -, h⟩ := Prog.bind_eq_ok.mp h
      split_ifs at h
      · cases h
      · cases h
        exact ⟨_, rfl⟩
    · cases h
  · cases h

theorem Boots.buffer_eq (h : Boots env extent fuel k ram before sa sc entry n) :
    ∃ bs, sa.commandlineRootfsAppend = 0 :: bs := by
  obtain ⟨s, -, hfound⟩ := h.found
  obtain ⟨bs, hbs⟩ := lookUp_clears hfound
  have hlen := h.length_buffer
  rw [hbs, length_patch] at hlen
  exact ⟨_, hbs.trans (patch_front (show 1 ≤ bs.length by omega))⟩

end Boots

/-! ## The append file -/

/-- The file that is open on the partition that is mounted. -/
def St.openFile (s : St) : Option Node :=
  match s.root, s.file with
  | some _, some node => some node
  | _, _ => none

/-- The read has put all its bytes in memory; a failed one may have stored a part of them. -/
def Outcome.isDone : Outcome → Bool
  | .done => true
  | .failed _ => false

section AppendFile

variable (env : Env) (extent fuel : ℕ) (k : KernelSource)

/-- The append file is opened; `false` if that fails. -/
def openAppend : Phase2 Bool :=
  if k.filesystem = .ext2 then do
    let mounted ← ext2fsMount env extent k
    if mounted then do
      let len ← ext2fsOpen env extent k fuel env.board.append
      pure (decide (0 ≤ len))
    else pure false
  else pure false

/-- The append file that is found from `s` on, and the state in which it is read. -/
def appendFile (s : St) : Option (Node × St) :=
  match openAppend env extent fuel k s with
  | some (.ok true, so) => so.openFile.map fun node => (node, so)
  | _ => none

/-- A read from `so` on that does not fail, nor any read of the device for it. -/
def doneFrom (so : St) : Option (Except Exit (ℤ × List Write) × St) → Bool
  | some (.ok (ret, _), s1) => decide (0 ≤ ret) &&
    (List.range s1.reads).all fun q => decide (q < so.reads) || (env.outcome q).isDone
  | _ => false

/-- The read of the append file is one. -/
def readDone (node : Node) (so : St) : Bool :=
  doneFrom env so (ext2fsReadFile env extent k node 0 512 so)

/-- The bytes of a file. -/
def fileContent (node : Node) (so : St) : List Byte :=
  (so.volume env k).bytes node node.log2.toNat 0 node.size

/-- What the append file adds to the command line: nothing if it is absent or its read failed. -/
def ownAppend (s : St) : List Byte :=
  match appendFile env extent fuel k s with
  | some (node, so) => if readDone env extent k node so then fileContent env k node so else []
  | none => []

/-- The command line of a source with `content` in its append file. -/
def ownLine (content : List Byte) : List Byte :=
  (commandline env k content).rdropWhile (· = 0x0a)

/-- The command line that the kernel is entered with. -/
def bootedLine (entry initramfsLen : ℕ) (s : St) : Option (List Byte) :=
  match startKernel env k entry initramfsLen s with
  | some (.error (.started _), s') => cmdlineTag s'.ram env.board.linuxTagPlacement
  | _ => none

end AppendFile

section Read

variable {env : Env} {extent fuel : ℕ} {k : KernelSource} {sa sb : St} {ret : ℤ}

theorem ext2fsRead_of_openFile {so : St} {len : ℕ} : ext2fsRead env extent k len so =
    match so.openFile with
    | some node => ext2fsReadFile env extent k node 0 len so
    | none => some (.ok (0, []), so) := by
  unfold ext2fsRead St.openFile
  rw [Prog.get_bind]
  rcases so.root with _ | root <;> rcases so.file with _ | node <;> rfl

theorem openAppend_kept : Prog.Steps BufferKept (openAppend env extent fuel k) := by
  unfold openAppend
  split_ifs
  · apply Prog.Steps.bind BufferKept.trans ((ext2fsMount_tame bufferKept env k).steps extent)
    intro mounted
    split_ifs
    · apply Prog.Steps.bind BufferKept.trans
        ((ext2fsOpen_tame bufferKept.toOpenFrame env k _ _).steps extent)
      exact fun _ => Prog.Steps.ret BufferKept.refl _
    · exact Prog.Steps.ret BufferKept.refl _
  · exact Prog.Steps.ret BufferKept.refl _

/-- The append file is read once it is open. -/
theorem readAppend_eq (happend : env.board.append ≠ none)
    (h : readAppend env extent fuel k sa = some (.ok ret, sb)) :
    ∃ opened so, openAppend env extent fuel k sa = some (.ok opened, so) ∧
      (opened = false → sb.commandlineRootfsAppend = so.commandlineRootfsAppend) ∧
      (opened = true → ∃ got ws s1, ext2fsRead env extent k 512 so = some (.ok (got, ws), s1) ∧
        Within ws 512 ∧ sb.commandlineRootfsAppend = patch s1.commandlineRootfsAppend ws) := by
  unfold readAppend readFile at h
  unfold openAppend
  by_cases hfs : k.filesystem = .ext2
  · rw [if_pos hfs] at h ⊢
    obtain ⟨mounted, s1, hmount, h⟩ := Prog.bind_eq_ok.mp h
    rw [Prog.bind_ok hmount]
    cases mounted with
    | false =>
      cases h
      exact ⟨false, _, rfl, fun _ => rfl, fun hopened => by cases hopened⟩
    | true =>
      rw [if_pos rfl] at h ⊢
      obtain ⟨len, so, hopen, h⟩ := Prog.bind_eq_ok.mp h
      rw [Prog.bind_ok hopen]
      refine ⟨_, _, rfl, fun hlen => ?_, fun hlen => ?_⟩
      · rw [if_pos (by simpa using hlen)] at h
        cases h
        rfl
      · rw [if_neg (by simpa using hlen)] at h
        obtain ⟨⟨got, ws⟩, s1, hread, h⟩ := Prog.bind_eq_ok.mp h
        obtain ⟨_, s2, hdeliver, h⟩ := Prog.bind_eq_ok.mp h
        cases h
        have hsize : toU32 512 = 512 := by decide
        rw [hsize] at hread
        refine ⟨got, ws, s1, hread, ?_⟩
        rcases Prog.exitIf_bind hdeliver with ⟨-, hexit, -⟩ | ⟨hwithin, hstore⟩
        · cases hexit
        · cases hstore
          exact ⟨not_not.mp hwithin, rfl⟩
  · rw [if_neg hfs, if_pos happend] at h
    rw [if_neg hfs]
    cases h
    exact ⟨false, _, rfl, fun _ => rfl, fun hopened => by cases hopened⟩

end Read

/-! ## The read of a block -/

section Sector

variable (env : Env) (k : KernelSource)

/-- A read in sector `st` is let through. -/
def Granted (s : St) (st : ℕ) : Prop :=
  st < s.partitionLengthBlocks ∧ ∀ keys, env.getUiKeys = some keys → ¬ (keys s.keys).testBit 1

/-- What `block_read` puts in front when sector `st` is read: what there is of the sector if it
    fails. -/
def sectorBytes (s : St) (st : ℕ) : List Byte :=
  match env.outcome s.reads with
  | .done => load (partition env k s.partitionOffsetBlocks) (512 * st) 512
  | .failed m => (load (partition env k s.partitionOffsetBlocks) (512 * st) 512).take m

/-- The bytes that a read of the first `n` bytes of sector `st` stores: less than a sector comes
    out of a buffer on the stack, whether `block_read` failed or not. -/
def landed (s : St) (st n : ℕ) : List Byte :=
  if n < 512 then
    (sectorBytes env k s st ++ (List.range (512 - (sectorBytes env k s st).length)).map fun j =>
      env.stack (512 * s.reads + j)).take n
  else sectorBytes env k s st

variable {env k} {s : St} {st n : ℕ}

theorem blockRead_sector : blockRead env k (absolute s st) 1 s =
    some (.ok (if (env.outcome s.reads).isDone then 1 else -1, sectorBytes env k s st),
      { s with reads := s.reads + 1 }) := by
  have hbytes : sectors env k (absolute s st) (512 * 1) =
      load (partition env k s.partitionOffsetBlocks) (512 * st) 512 :=
    sectors_eq_load (absolute_mod (by unfold toU32; omega)) _
  unfold blockRead sectorBytes
  rw [Prog.step_apply, hbytes]
  rcases env.outcome s.reads with _ | m <;> rfl

theorem inPartition_iff (hst : st < 2 ^ 31) (hpos : 0 < n) (hn : n ≤ 512) :
    inPartition s (shl32 st 0) 0 n ↔ st < s.partitionLengthBlocks := by
  have hlast : (0 : ℤ) + n - 1 = (n - 1 : ℕ) := by omega
  have hblock : ((n - 1 : ℕ) : ℤ) / 512 = 0 := by omega
  unfold inPartition
  rw [shl32_zero hst, hlast, int32_natCast (by omega), hblock, add_zero, int32_natCast hst,
    toU32_natCast (by omega)]
  exact and_iff_right (Int.natCast_nonneg st)

theorem skipKey_pressed {keys : ℕ → ℕ} (hkeys : env.getUiKeys = some keys)
    (hbit : (keys s.keys).testBit 1) : ∃ s', skipKey env s = some (.ok true, s') := by
  unfold skipKey
  rw [hkeys]
  refine ⟨{ s with keys := s.keys + 1, log := s.log ++ [.skipping] }, ?_⟩
  simp only [Prog.step_apply, if_pos hbit]

theorem skipKey_free (h : ∀ keys, env.getUiKeys = some keys → ¬ (keys s.keys).testBit 1) :
    ∃ n, skipKey env s = some (.ok false, { s with keys := n }) := by
  unfold skipKey
  rcases hkeys : env.getUiKeys with _ | keys
  · exact ⟨s.keys, rfl⟩
  · refine ⟨s.keys + 1, ?_⟩
    simp only [Prog.step_apply, if_neg (h keys hkeys)]

/-- A read that is not let through. -/
theorem devread_refused (k : KernelSource) (hst : st < 2 ^ 31) (hpos : 0 < n) (hn : n ≤ 512)
    (h : ¬ Granted env s st) :
    ∃ s', ext2fsDevread env k st 0 0 n s = some (.ok (false, []), s') := by
  unfold ext2fsDevread
  rw [Prog.get_bind]
  by_cases hin : st < s.partitionLengthBlocks
  · have hpressed : ∃ keys, env.getUiKeys = some keys ∧ (keys s.keys).testBit 1 := by
      by_contra hfree
      push Not at hfree
      exact h ⟨hin, fun keys hkeys hbit => hfree keys hkeys hbit⟩
    obtain ⟨keys, hkeys, hbit⟩ := hpressed
    obtain ⟨s', hskip⟩ := skipKey_pressed hkeys hbit
    refine ⟨s', ?_⟩
    rw [if_pos ((inPartition_iff hst hpos hn).mpr hin), Prog.bind_ok hskip]
    rfl
  · rw [if_neg (mt (inPartition_iff hst hpos hn).mp hin)]
    exact ⟨s, rfl⟩

theorem readAligned_sector (env : Env) (k : KernelSource) (s : St) (st : ℕ) (hpos : 0 < n)
    (hn : n ≤ 512) :
    ∃ s', readAligned env k st n s =
        some (.ok (decide (n < 512) || (env.outcome s.reads).isDone, landed env k s st n), s') ∧
      s'.reads = s.reads + 1 := by
  unfold readAligned
  rw [if_neg hpos.ne']
  by_cases hshort : n < 512
  · refine ⟨{ s with reads := s.reads + 1 }, ?_, rfl⟩
    unfold readShort landed
    rw [if_pos (Nat.div_eq_of_lt hshort), Prog.get_bind, Prog.bind_ok blockRead_sector,
      if_pos hshort, decide_eq_true hshort]
    rfl
  · have hfull : n = 512 := by omega
    subst hfull
    refine ⟨{ s with reads := s.reads + 1 }, ?_, rfl⟩
    unfold landed
    have hblocks : 512 / 512 = 1 := by norm_num
    rw [if_neg (by norm_num), hblocks, Prog.get_bind, Prog.bind_ok blockRead_sector,
      if_neg (show ¬ 512 < 512 by norm_num)]
    rcases env.outcome s.reads with _ | m
    · simp [Outcome.isDone, readLast]
    · simp [Outcome.isDone]

/-- A read that is. -/
theorem devread_granted (k : KernelSource) (hst : st < 2 ^ 31) (hpos : 0 < n) (hn : n ≤ 512)
    (h : Granted env s st) :
    ∃ s', ext2fsDevread env k st 0 0 n s =
        some (.ok (decide (n < 512) || (env.outcome s.reads).isDone,
          [(0, landed env k s st n)]), s') ∧
      s'.reads = s.reads + 1 := by
  obtain ⟨keys, hskip⟩ := skipKey_free h.2
  obtain ⟨s', hread, hreads⟩ := readAligned_sector env k { s with keys := keys } st hpos hn
  refine ⟨s', ?_, hreads⟩
  have hstart : int32 (shl32 (st : ℤ) 0 + 0 / 512) = st := by
    rw [shl32_zero hst]
    exact (int32_natCast hst)
  unfold ext2fsDevread
  rw [Prog.get_bind, if_pos ((inPartition_iff hst hpos hn).mpr h.1), Prog.bind_ok hskip]
  simp only [Bool.false_eq_true, if_false]
  unfold transferFrom
  rw [if_neg (by omega), hstart, Int.toNat_natCast]
  unfold transfer
  rw [if_pos (show ((0 : ℤ) % 512).toNat = 0 by decide), Prog.bind_ok hread]
  rfl

end Sector

section FirstBlock

variable {env : Env} {extent : ℕ} {k : KernelSource} {node : Node} {s : St}

/-- The blocks of the file have a sane size, and the sectors of its first block sane numbers. -/
structure Node.FirstBlock (node : Node) : Prop where
  blocks : node.Blocks node.log2.toNat
  lt : node.dirBlock 0 * 2 ^ node.log2.toNat < 2 ^ 31

/-- The first sector of the file. -/
def Node.firstSector (node : Node) : ℕ := node.dirBlock 0 * 2 ^ node.log2.toNat

/-- How much of the file is asked for. -/
def Node.asked (node : Node) : ℕ := min 512 node.size

theorem Node.FirstBlock.fits (h : node.FirstBlock) :
    (request node 0 512).Fits node.log2.toNat (512 * 2 ^ node.log2.toNat) 0 := by
  have hle := h.blocks.le
  have hpow : 2 ^ node.log2.toNat ≤ 2 ^ 7 := Nat.pow_le_pow_right (by norm_num) hle
  have hlen : (request node 0 512).len ≤ 512 := by
    show min 512 node.size ≤ 512
    omega
  constructor
  · simp only [request]
    exact h.blocks.log2
  · exact h.blocks.one_le
  · omega
  · rfl
  · rfl
  · norm_num
  · omega

theorem Node.FirstBlock.blockcnt (h : node.FirstBlock) (hpos : 0 < node.size) :
    ((request node 0 512).blockcnt - (request node 0 512).first).toNat = 1 := by
  have hbs := h.fits.le_bs
  have hlen : (request node 0 512).len = min 512 node.size := rfl
  exact (h.fits.one_round (i := 0) (by omega) (Nat.zero_mul _).le (by omega)).2

theorem Node.FirstBlock.readBlock (h : node.FirstBlock) :
    ext2fsReadBlock env extent k node 0 s = some (.ok (node.dirBlock 0 : ℤ), s) := by
  have hlt := h.lt
  have hpos := Nat.two_pow_pos node.log2.toNat
  have hle : node.dirBlock 0 * 1 ≤ node.dirBlock 0 * 2 ^ node.log2.toNat :=
    Nat.mul_le_mul_left _ hpos
  have hrun : ext2fsReadBlock env extent k node (0 : ℕ) s =
      some (.ok (int32 (node.dirBlock 0)), s) := ext2fsReadBlock_direct (by norm_num)
  rw [int32_natCast (by omega)] at hrun
  exact hrun

theorem Node.FirstBlock.shl (h : node.FirstBlock) :
    shl32 (node.dirBlock 0 : ℤ) (request node 0 512).log2blocksize = node.firstSector := by
  have hle := h.blocks.le
  rw [h.fits.log2, shl32_natCast (by omega) h.lt]
  rfl

/-- A file of which the first block is on the disk is read with one device read. -/
theorem ext2fsReadFile_first (extent : ℕ) (h : node.FirstBlock) (hpos : 0 < node.size)
    (hne : node.firstSector ≠ 0) {ok : Bool} {ws : List Write} {s' : St}
    (hread : ext2fsDevread env k node.firstSector 0 0 node.asked s = some (.ok (ok, ws), s')) :
    ext2fsReadFile env extent k node 0 512 s =
      some (.ok (if ok then (node.asked : ℤ) else -1, ws.map (Write.shift 0)), s') := by
  have hfit := h.fits
  have hbs := hfit.le_bs
  have hasked : 0 < node.asked ∧ node.asked ≤ 512 := by
    unfold Node.asked
    omega
  have hlen : (request node 0 512).len = node.asked := rfl
  have hzero : 0 * (512 * 2 ^ node.log2.toNat) ≤ 0 := (Nat.zero_mul _).le
  have hlt : (request node 0 512).len < 2 ^ 31 := by
    rw [hlen]
    omega
  have hpos : 0 < (request node 0 512).len := by
    rw [hlen]
    exact hasked.1
  have hend : 0 + (request node 0 512).len ≤ (0 + 1) * (512 * 2 ^ node.log2.toNat) := by
    rw [hlen]
    omega
  have hblock : ext2fsReadBlock env extent k node ((0 : ℕ) : ℤ) s =
      some (.ok (node.dirBlock 0 : ℤ), s) := h.readBlock
  have hskip : ((0 - 0 * (512 * 2 ^ node.log2.toNat) : ℕ) : ℤ) = 0 := by
    rw [Nat.zero_mul]
    rfl
  have hdev : ext2fsDevread env k node.firstSector 0 ((0 - 0 * (512 * 2 ^ node.log2.toNat) : ℕ) : ℤ)
      (request node 0 512).len s = some (.ok (ok, ws), s') := by
    rw [hskip, hlen]
    exact hread
  have hone := Ext2.readFile_one hfit hlt hpos hzero hend hblock (Int.natCast_nonneg _) h.shl hne hdev
  rw [hlen] at hone
  exact hone

end FirstBlock

end SmartQ.Qi
