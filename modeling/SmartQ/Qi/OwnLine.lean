import SmartQ.Qi.AppendFile

/-!
# The command line of a source

What the command line gets of the append file in `qi/src/phase2.c` is the string that the buffer
holds when it has been read, so that it can end in what an earlier source left there.

* `bootedLine_iff`: the command line for the bytes that the buffer starts with.
* `line_read`: a file that is read as it is.
* `ownLine_iff`: when the command line of a source is its own.
-/

namespace SmartQ.Qi

open SmartQ.Lib

/-! ## Strings without their newlines -/

section Trimmed

variable {α : Type} {p : α → Bool} {l x y : List α} {c : α}

theorem rdropWhile_append_of_all (h : ∀ c ∈ x, p c) : (l ++ x).rdropWhile p = l.rdropWhile p := by
  induction x using List.reverseRecOn with
  | nil => rw [List.append_nil]
  | append_singleton x c ih =>
    have hc : p c := h c (List.mem_append_right _ (List.mem_singleton_self c))
    rw [← List.append_assoc, List.rdropWhile_concat_pos _ _ _ hc]
    exact ih fun c' hc' => h c' (List.mem_append_left _ hc')

theorem length_lt_rdropWhile (h : ¬ ∀ c ∈ x, p c) : l.length < ((l ++ x).rdropWhile p).length := by
  induction x using List.reverseRecOn with
  | nil => exact absurd (fun c hc => absurd hc List.not_mem_nil) h
  | append_singleton x c ih =>
    by_cases hc : p c
    · rw [← List.append_assoc, List.rdropWhile_concat_pos _ _ _ hc]
      apply ih
      intro hx
      apply h
      intro c' hc'
      rcases List.mem_append.mp hc' with hc' | hc'
      · exact hx c' hc'
      · rwa [List.mem_singleton.mp hc']
    · rw [← List.append_assoc, List.rdropWhile_concat_neg _ _ _ hc]
      simp only [List.length_append, List.length_singleton]
      omega

/-- A longer list is the same without its end if what it is longer by belongs to the end. -/
theorem rdropWhile_append_eq_iff :
    (l ++ x).rdropWhile p ++ y = l.rdropWhile p ↔ y = [] ∧ ∀ c ∈ x, p c := by
  constructor
  · intro h
    have hle := (List.rdropWhile_prefix p (l := l)).length_le
    have hx : ∀ c ∈ x, p c := by
      by_contra hx
      have hlt := length_lt_rdropWhile (l := l) hx
      have hlen := congrArg List.length h
      rw [List.length_append] at hlen
      omega
    rw [rdropWhile_append_of_all hx] at h
    exact ⟨List.append_right_eq_self.mp h, hx⟩
  · rintro ⟨rfl, hx⟩
    rw [List.append_nil, rdropWhile_append_of_all hx]

theorem mem_rdropWhile (hc : c ∈ l) (hp : ¬ p c) : c ∈ l.rdropWhile p := by
  rw [← List.rdropWhile_append_rtakeWhile (p := p) (l := l)] at hc
  rcases List.mem_append.mp hc with hc | hc
  · exact hc
  · exact absurd (List.mem_rtakeWhile_imp hc) hp

end Trimmed

/-- A string goes on until a 0. -/
theorem cstr_append {l x : List Byte} (h : (0 : Byte) ∉ l) : cstr (l ++ x) = l ++ cstr x := by
  unfold cstr
  apply List.takeWhile_append_of_pos
  intro c hc
  simp only [ne_eq, decide_eq_true_eq]
  rintro rfl
  exact h hc

/-- Only newlines, up to a 0. -/
def Blank (bs : List Byte) : Prop := 0 ∈ bs ∧ ∀ c ∈ cstr bs, c = 0x0a

/-! ## The line of a source -/

/-- Read with `buffer` in the buffer, the append file leaves its own bytes there, and behind them
    nothing up to a 0 but newlines. A read that fails leaves nothing at all. -/
def OwnRead (env : Env) (k : KernelSource) (buffer : List Byte) (node : Node) (so : St) : Prop :=
  0 < node.size → Granted env so node.firstSector →
    if (env.outcome so.reads).isDone then
      node.size < 512 ∧ 0 ∉ fileContent env k node so ∧ Blank (buffer.drop node.size)
    else
      Blank (landed env k so node.firstSector node.asked ++
        buffer.drop (landed env k so node.firstSector node.asked).length)

/-- The debug part is not asked for, and the append file that is found from `s` on leaves its own
    bytes. -/
def OwnAppend (env : Env) (extent fuel : ℕ) (k : KernelSource) (s : St) : Prop :=
  debugPart env = [] ∧ ∀ node so, appendFile env extent fuel k s = some (node, so) →
    OwnRead env k s.commandlineRootfsAppend node so

section Line

variable {env : Env} {extent fuel : ℕ} {k : KernelSource} {sa sb sc so : St} {entry n : ℕ}
  {ret : ℤ} {node : Node} {c x : List Byte}

theorem readAppend_none (happend : env.board.append ≠ none)
    (hread : readAppend env extent fuel k sa = some (.ok ret, sb))
    (h : appendFile env extent fuel k sa = none) :
    sb.commandlineRootfsAppend = sa.commandlineRootfsAppend := by
  obtain ⟨opened, so, hopen, hclosed, hopened⟩ := readAppend_eq happend hread
  have hkept : BufferKept sa so := openAppend_kept _ _ _ hopen
  cases opened with
  | false => exact (hclosed rfl).trans hkept
  | true =>
    obtain ⟨got, ws, s1, hrun, -, hbuf⟩ := hopened rfl
    unfold appendFile at h
    rw [hopen] at h
    have hnone : so.openFile = none := Option.map_eq_none_iff.mp h
    rw [ext2fsRead_of_openFile, hnone] at hrun
    cases hrun
    rw [hbuf, patch_nil]
    exact hkept

theorem readAppend_some (happend : env.board.append ≠ none)
    (hread : readAppend env extent fuel k sa = some (.ok ret, sb))
    (h : appendFile env extent fuel k sa = some (node, so)) :
    ∃ got ws s1, ext2fsReadFile env extent k node 0 512 so = some (.ok (got, ws), s1) ∧
      Within ws 512 ∧ sb.commandlineRootfsAppend = patch sa.commandlineRootfsAppend ws := by
  obtain ⟨opened, so', hopen, hclosed, hopened⟩ := readAppend_eq happend hread
  have hkept : BufferKept sa so' := openAppend_kept _ _ _ hopen
  unfold appendFile at h
  rw [hopen] at h
  cases opened with
  | false => cases h
  | true =>
    obtain ⟨node', hfile, hpair⟩ := Option.map_eq_some_iff.mp h
    cases hpair
    obtain ⟨got, ws, s1, hrun, hwithin, hbuf⟩ := hopened rfl
    have hkept' : BufferKept so s1 :=
      (ext2fsRead_tame bufferKept.toReadFrame env k 512).steps _ _ _ _ hrun
    rw [ext2fsRead_of_openFile, hfile] at hrun
    refine ⟨got, ws, s1, hrun, hwithin, hbuf.trans ?_⟩
    rw [show s1.commandlineRootfsAppend = _ from BufferKept.trans _ _ _ hkept hkept']

theorem commandline_append (y : List Byte) :
    commandline env k (c ++ y) = commandline env k c ++ y := by
  unfold commandline
  rw [← List.append_assoc]

theorem bootedLine_eq (htables : Tables env k) (hlen : sc.commandlineRootfsAppend.length = 512) :
    bootedLine env k entry n sc =
      if (0 : Byte) ∈ sc.commandlineRootfsAppend then some (bootLine env k sc.appended)
      else none := by
  unfold bootedLine
  rw [startKernel_eq]
  by_cases hend : sc.appended.length = sc.commandlineRootfsAppend.length
  · rw [if_pos hend, if_neg (length_takeWhile_eq.mp hend)]
  · have hmem : (0 : Byte) ∈ sc.commandlineRootfsAppend := ended_iff.mpr hend
    have hle : sc.appended.length ≤ 512 := by
      rw [← hlen]
      exact (List.takeWhile_prefix _).length_le
    rw [if_neg hend, if_pos hmem]
    exact htables.cmdlineTag_eq hle cstr_clean _ _

/-- With `c` at the start of the buffer, and `x` behind it. -/
theorem bootedLine_iff (htables : Tables env k) (hbuf : sc.commandlineRootfsAppend = c ++ x)
    (hlen : sc.commandlineRootfsAppend.length = 512) (hclean : (0 : Byte) ∉ c) :
    bootedLine env k entry n sc = some (ownLine env k c) ↔ debugPart env = [] ∧ Blank x := by
  have hmem : (0 : Byte) ∈ sc.commandlineRootfsAppend ↔ (0 : Byte) ∈ x := by
    rw [hbuf, List.mem_append]
    exact or_iff_right hclean
  rw [bootedLine_eq htables hlen]
  by_cases hend : (0 : Byte) ∈ x
  · have hline : bootLine env k sc.appended = ownLine env k c ↔
        debugPart env = [] ∧ ∀ c' ∈ cstr x, c' = 0x0a := by
      unfold bootLine ownLine St.appended
      rw [hbuf, cstr_append hclean, commandline_append, rdropWhile_append_eq_iff]
      simp only [decide_eq_true_eq]
    rw [if_pos (hmem.mpr hend), Option.some_inj, hline]
    exact and_congr_right fun _ => (and_iff_right hend).symm
  · rw [if_neg (mt hmem.mp hend)]
    constructor
    · intro h
      cases h
    · intro h
      exact absurd h.2.1 hend

/-- A line with a 0 in it is never the one in the tag. -/
theorem bootedLine_ne (htables : Tables env k) (hlen : sc.commandlineRootfsAppend.length = 512)
    (hc : (0 : Byte) ∈ c) : bootedLine env k entry n sc ≠ some (ownLine env k c) := by
  rw [bootedLine_eq htables hlen]
  by_cases hend : (0 : Byte) ∈ sc.commandlineRootfsAppend
  · rw [if_pos hend]
    intro h
    have hline : (0 : Byte) ∈ commandline env k c := by
      unfold commandline
      exact List.mem_append_right _ hc
    have hmem : (0 : Byte) ∈ bootLine env k sc.appended := by
      rw [Option.some_inj.mp h]
      exact mem_rdropWhile hline (by decide)
    exact (htables.lineParts cstr_clean).bootLine 0 hmem rfl
  · rw [if_neg hend]
    intro h
    cases h

end Line

/-! ## The ways its read ends -/

section Ends

variable {env : Env} {extent fuel : ℕ} {k : KernelSource} {sa so : St} {node : Node}

/-- An empty file is not read. -/
theorem ext2fsReadFile_empty (h : node.FirstBlock) (hsize : node.size = 0) :
    ext2fsReadFile env extent k node 0 512 so = some (.ok (0, []), so) := by
  have hfit := h.fits
  have hbs := hfit.le_bs
  have hlen : (request node 0 512).len = 0 := by
    show min 512 node.size = 0
    omega
  have hcount : ((request node 0 512).blockcnt - (request node 0 512).first).toNat = 0 := by
    rw [hfit.blockcnt_eq, hfit.first_eq, hlen, Nat.zero_div]
    generalize 512 * 2 ^ node.log2.toNat = bs at *
    rw [Nat.div_eq_of_lt (by omega)]
    rfl
  unfold ext2fsReadFile Ext2.readFile
  have hnone : Ext2.blocks (ext2fsReadBlock env extent k node) (ext2fsDevread env k)
      (request node 0 512) 0 (request node 0 512).first .init so =
        some (.ok (true, .init), so) := rfl
  rw [hcount, Prog.bind_ok hnone]
  dsimp only
  rw [if_pos rfl, Prog.bind_ok (Ext2.spillDelayed_none rfl), hlen]
  rfl

/-- A hole is zero filled, beyond the buffer. -/
theorem ext2fsReadFile_hole (h : node.FirstBlock) (hpos : 0 < node.size)
    (hzero : node.firstSector = 0) {got : ℤ} {ws : List Write} {s1 : St}
    (hrun : ext2fsReadFile env extent k node 0 512 so = some (.ok (got, ws), s1)) :
    ¬ Within ws 512 := by
  have hfit := h.fits
  generalize 512 * 2 ^ node.log2.toNat = bs at hfit
  have hbs := hfit.le_bs
  have hstep := hfit.step_eq (i := 0) (Nat.zero_div _).le
  rw [Nat.zero_mul, Nat.sub_zero, show ((0 : ℕ) : ℤ) = 0 from rfl] at hstep
  have hfirst := hfit.first_eq
  rw [Nat.zero_div, show ((0 : ℕ) : ℤ) = 0 from rfl] at hfirst
  have hblock : Ext2.block (ext2fsReadBlock env extent k node) (ext2fsDevread env k)
      (request node 0 512) 0 .init so =
      some (.ok (true, (Ext2.Vars.init.zero bs).advance bs), so) := by
    have hhole : Ext2.holeBlock (ext2fsDevread env k) (request node 0 512) 0 .init so =
        some (.ok (true, Ext2.Vars.init.zero bs), so) := by
      unfold Ext2.holeBlock
      rw [Prog.bind_ok (Ext2.spillDelayed_none rfl), hstep]
      rfl
    unfold Ext2.block
    rw [Prog.bind_ok h.readBlock, if_neg (by omega), h.shl, hzero, if_neg (by norm_num),
      Prog.bind_ok hhole, hstep]
    rfl
  have hround : Ext2.blocks (ext2fsReadBlock env extent k node) (ext2fsDevread env k)
      (request node 0 512) 1 0 .init so =
      some (.ok (true, (Ext2.Vars.init.zero bs).advance bs), so) := by
    unfold Ext2.blocks
    rw [Prog.bind_ok hblock]
    rfl
  unfold ext2fsReadFile Ext2.readFile at hrun
  rw [h.blockcnt hpos, hfirst, Prog.bind_ok hround] at hrun
  dsimp only at hrun
  rw [if_pos rfl, Prog.bind_ok (Ext2.spillDelayed_none rfl)] at hrun
  simp only [Prog.pure_apply, Option.some.injEq, Prod.mk.injEq, Except.ok.injEq] at hrun
  obtain ⟨⟨-, hws⟩, -⟩ := hrun
  intro hwithin
  have hstore := hwithin (0, List.replicate bs 0) (by
    rw [← hws]
    exact List.mem_singleton_self _)
  rw [List.length_replicate] at hstore
  omega

theorem ownAppend_some (h : appendFile env extent fuel k sa = some (node, so)) :
    ownAppend env extent fuel k sa =
      if readDone env extent k node so then fileContent env k node so else [] := by
  unfold ownAppend
  rw [h]

theorem fileContent_nil (hsize : node.size = 0) : fileContent env k node so = [] := by
  unfold fileContent
  rw [hsize]
  rfl

/-- The first sector has the start of the file. -/
theorem take_fileContent (env : Env) (k : KernelSource) (so : St) (h : node.FirstBlock)
    (hne : node.firstSector ≠ 0) :
    (fileContent env k node so).take node.asked =
      load (partition env k so.partitionOffsetBlocks) (512 * node.firstSector) node.asked := by
  have hbs := h.fits.le_bs
  have hmap : node.dirBlock 0 ≠ 0 := by
    intro hzero
    apply hne
    unfold Node.firstSector
    rw [hzero, Nat.zero_mul]
  have hsec : 512 * node.firstSector = node.dirBlock 0 * (512 * 2 ^ node.log2.toNat) := by
    unfold Node.firstSector
    exact Nat.mul_left_comm _ _ _
  have hle : node.asked ≤ node.size := min_le_right _ _
  have hle' : node.asked ≤ 512 := min_le_left _ _
  have hlen : (fileContent env k node so).length = node.size := Volume.length_bytes _ _ _ _ _
  apply List.ext_getElem
  · rw [List.length_take, hlen, length_load]
    omega
  intro j hj hj'
  rw [length_load] at hj'
  have hjn : j < (fileContent env k node so).length := by omega
  have hbyte : (fileContent env k node so)[j] =
      (so.volume env k).byte node node.log2.toNat (0 + j) := by
    simp [fileContent, Volume.bytes]
  have hblock : (0 + j) / (512 * 2 ^ node.log2.toNat) = 0 := Nat.div_eq_of_lt (by omega)
  have hoff : (0 + j) % (512 * 2 ^ node.log2.toNat) = j := by
    rw [Nat.zero_add]
    exact Nat.mod_eq_of_lt (by omega)
  have hfirst : (so.volume env k).blockMap node (512 * 2 ^ node.log2.toNat) 0 = node.dirBlock 0 :=
    if_pos (by norm_num)
  rw [List.getElem_take, hbyte]
  unfold Volume.byte Ext2.contents
  rw [hblock, hfirst, if_neg hmap, hoff, ← hsec]
  simp [load, St.volume]

end Ends

/-! ## The command line of a source -/

section Own

variable {env : Env} {extent fuel : ℕ} {k : KernelSource} {sa sb sc so : St} {entry n : ℕ}
  {ret : ℤ} {node : Node}

/-- The state of the buffer when the append file has been read. -/
structure After (env : Env) (extent fuel : ℕ) (k : KernelSource) (sa sb : St) : Prop where
  read : ∃ ret, readAppend env extent fuel k sa = some (.ok ret, sb)
  cleared : ∃ bs, sa.commandlineRootfsAppend = 0 :: bs
  length : sa.commandlineRootfsAppend.length = 512

/-- The buffer of which the read leaves `front` at the start. -/
theorem buffer_front (happend : env.board.append ≠ none) (h : After env extent fuel k sa sb)
    (hfile : appendFile env extent fuel k sa = some (node, so)) {got : ℤ} {front : List Byte}
    {s1 : St}
    (hrun : ext2fsReadFile env extent k node 0 512 so = some (.ok (got, [(0, front)]), s1)) :
    sb.commandlineRootfsAppend = front ++ sa.commandlineRootfsAppend.drop front.length := by
  obtain ⟨ret, hread⟩ := h.read
  obtain ⟨got', ws, s1', hrun', hwithin, hbuf⟩ := readAppend_some happend hread hfile
  rw [hrun] at hrun'
  cases hrun'
  have hstore : 0 + front.length ≤ 512 := hwithin (0, front) (List.mem_singleton_self _)
  rw [hbuf, patch_front (by rw [h.length]; omega)]

theorem buffer_nothing (happend : env.board.append ≠ none) (h : After env extent fuel k sa sb)
    (hfile : appendFile env extent fuel k sa = some (node, so)) {got : ℤ} {s1 : St}
    (hrun : ext2fsReadFile env extent k node 0 512 so = some (.ok (got, []), s1)) :
    sb.commandlineRootfsAppend = sa.commandlineRootfsAppend := by
  obtain ⟨ret, hread⟩ := h.read
  obtain ⟨got', ws, s1', hrun', -, hbuf⟩ := readAppend_some happend hread hfile
  rw [hrun] at hrun'
  cases hrun'
  rw [hbuf, patch_nil]

/-- The file is not a hole, or the run would have ended. -/
theorem After.firstSector_ne (happend : env.board.append ≠ none) (h : After env extent fuel k sa sb)
    (hfile : appendFile env extent fuel k sa = some (node, so)) (hfirst : node.FirstBlock)
    (hpos : 0 < node.size) : node.firstSector ≠ 0 := by
  intro hzero
  obtain ⟨ret, hread⟩ := h.read
  obtain ⟨got, ws, s1, hrun, hwithin, -⟩ := readAppend_some happend hread hfile
  exact ext2fsReadFile_hole hfirst hpos hzero hrun hwithin

/-- A read that is not let through fails. -/
theorem read_refused (extent : ℕ) (k : KernelSource) (hfirst : node.FirstBlock)
    (hpos : 0 < node.size) (hne : node.firstSector ≠ 0) (h : ¬ Granted env so node.firstSector) :
    ∃ s1, ext2fsReadFile env extent k node 0 512 so = some (.ok (-1, []), s1) := by
  have hasked : 0 < node.asked ∧ node.asked ≤ 512 := by
    unfold Node.asked
    omega
  obtain ⟨s1, hread⟩ := devread_refused k hfirst.lt hasked.1 hasked.2 h
  exact ⟨s1, ext2fsReadFile_first extent hfirst hpos hne hread⟩

theorem readDone_refused (hfirst : node.FirstBlock) (hpos : 0 < node.size)
    (hne : node.firstSector ≠ 0) (h : ¬ Granted env so node.firstSector) :
    readDone env extent k node so = false := by
  obtain ⟨s1, hrun⟩ := read_refused extent k hfirst hpos hne h
  unfold readDone
  rw [hrun]
  rfl

/-- One read of the device. -/
theorem all_done {s1 : St} (hreads : s1.reads = so.reads + 1) :
    ((List.range s1.reads).all fun q => decide (q < so.reads) || (env.outcome q).isDone) =
      (env.outcome so.reads).isDone := by
  have hbefore : ((List.range so.reads).all fun q =>
      decide (q < so.reads) || (env.outcome q).isDone) = true := by
    rw [List.all_eq_true]
    intro q hq
    rw [decide_eq_true (List.mem_range.mp hq), Bool.true_or]
  rw [hreads, List.range_succ, List.all_append, hbefore]
  simp

/-- A read that is let through puts bytes in front, whether it fails or not. -/
theorem read_granted (extent : ℕ) (hfirst : node.FirstBlock) (hpos : 0 < node.size)
    (hne : node.firstSector ≠ 0) (h : Granted env so node.firstSector) :
    (∃ got s1, ext2fsReadFile env extent k node 0 512 so =
      some (.ok (got, [(0, landed env k so node.firstSector node.asked)]), s1)) ∧
    readDone env extent k node so = (env.outcome so.reads).isDone := by
  have hasked : 0 < node.asked ∧ node.asked ≤ 512 := by
    unfold Node.asked
    omega
  obtain ⟨s1, hread, hreads⟩ := devread_granted k hfirst.lt hasked.1 hasked.2 h
  have hrun := ext2fsReadFile_first extent hfirst hpos hne hread
  refine ⟨⟨_, s1, hrun⟩, ?_⟩
  unfold readDone
  rw [hrun]
  unfold doneFrom
  dsimp only
  rw [all_done hreads]
  rcases hdone : (env.outcome so.reads).isDone
  · rw [Bool.and_false]
  · rw [Bool.or_true, if_pos rfl, Bool.and_true]
    exact decide_eq_true (Int.natCast_nonneg _)

theorem blank_cleared {buffer : List Byte} (h : ∃ bs, buffer = 0 :: bs) : Blank buffer := by
  obtain ⟨bs, rfl⟩ := h
  exact ⟨List.mem_cons_self, fun c hc => absurd hc List.not_mem_nil⟩

/-- Nothing of an append file: the buffer is as it was cleared. -/
theorem line_cleared (htables : Tables env k) (h : After env extent fuel k sa sb)
    (hbuf : sc.commandlineRootfsAppend = sa.commandlineRootfsAppend) :
    bootedLine env k entry n sc = some (ownLine env k []) ↔ debugPart env = [] := by
  have hlen : sc.commandlineRootfsAppend.length = 512 := by rw [hbuf, h.length]
  rw [bootedLine_iff htables (c := []) (x := sc.commandlineRootfsAppend) rfl hlen List.not_mem_nil]
  apply and_iff_left
  rw [hbuf]
  exact blank_cleared h.cleared

theorem landed_done {st m : ℕ} (hdone : env.outcome so.reads = .done) (hm : m ≤ 512) :
    landed env k so st m = load (partition env k so.partitionOffsetBlocks) (512 * st) m := by
  have hsector : sectorBytes env k so st =
      load (partition env k so.partitionOffsetBlocks) (512 * st) 512 := by
    unfold sectorBytes
    rw [hdone]
  unfold landed
  rw [hsector]
  by_cases hshort : m < 512
  · rw [if_pos hshort, List.take_append_of_le_length (by rw [length_load]; omega),
      take_load (by omega)]
  · have hfull : m = 512 := by omega
    rw [if_neg hshort, hfull]

/-- The bytes of a file that is read as it is. -/
theorem line_read (htables : Tables env k) (happend : env.board.append ≠ none)
    (h : After env extent fuel k sa sb)
    (hbuf : sc.commandlineRootfsAppend = sb.commandlineRootfsAppend)
    (hfile : appendFile env extent fuel k sa = some (node, so)) (hfirst : node.FirstBlock)
    (hpos : 0 < node.size) (hgranted : Granted env so node.firstSector)
    (hdone : env.outcome so.reads = .done) :
    bootedLine env k entry n sc = some (ownLine env k (fileContent env k node so)) ↔
      debugPart env = [] ∧ node.size < 512 ∧ 0 ∉ fileContent env k node so ∧
        Blank (sa.commandlineRootfsAppend.drop node.size) := by
  have hne := h.firstSector_ne happend hfile hfirst hpos
  obtain ⟨⟨got, s1, hrun⟩, -⟩ := read_granted extent hfirst hpos hne hgranted
  have hfront := buffer_front happend h hfile hrun
  have hcontent := take_fileContent env k so hfirst hne
  have hclen : (fileContent env k node so).length = node.size := Volume.length_bytes _ _ _ _ _
  have hlen : sc.commandlineRootfsAppend.length = 512 := by
    obtain ⟨ret, hread⟩ := h.read
    have hsized := readAppend_sized env extent fuel k _ _ _ hread
    rw [hbuf]
    exact Eq.trans hsized h.length
  by_cases hzero : (0 : Byte) ∈ fileContent env k node so
  · constructor
    · intro hline
      exact absurd hline (bootedLine_ne htables hlen hzero)
    · intro hcond
      exact absurd hzero hcond.2.2.1
  · have hlanded : landed env k so node.firstSector node.asked =
        (fileContent env k node so).take node.asked := by
      rw [hcontent]
      exact landed_done hdone (min_le_left _ _)
    by_cases hsize : node.size < 512
    · have hasked : node.asked = node.size := by
        unfold Node.asked
        omega
      rw [hlanded, hasked, ← hclen, List.take_length, ← hbuf] at hfront
      rw [bootedLine_iff htables hfront hlen hzero, hclen]
      constructor
      · rintro ⟨hdebug, hblank⟩
        exact ⟨hdebug, hsize, hzero, hblank⟩
      · rintro ⟨hdebug, -, -, hblank⟩
        exact ⟨hdebug, hblank⟩
    · -- The buffer is full, and has no end.
      have hasked : node.asked = 512 := by
        unfold Node.asked
        omega
      have htake : ((fileContent env k node so).take 512).length = 512 := by
        rw [List.length_take, hclen]
        omega
      have hnone : (0 : Byte) ∉ sc.commandlineRootfsAppend := by
        rw [hbuf, hfront, hlanded, hasked, htake, List.drop_of_length_le h.length.le,
          List.append_nil]
        exact fun hmem => hzero (List.mem_of_mem_take hmem)
      rw [bootedLine_eq htables hlen, if_neg hnone]
      constructor
      · intro hline
        cases hline
      · intro hcond
        exact absurd hcond.2.1 hsize

/-- Whatever becomes of the read. -/
theorem line_file (htables : Tables env k) (happend : env.board.append ≠ none)
    (h : After env extent fuel k sa sb)
    (hbuf : sc.commandlineRootfsAppend = sb.commandlineRootfsAppend)
    (hfile : appendFile env extent fuel k sa = some (node, so)) (hfirst : node.FirstBlock) :
    bootedLine env k entry n sc = some (ownLine env k
        (if readDone env extent k node so then fileContent env k node so else [])) ↔
      debugPart env = [] ∧ OwnRead env k sa.commandlineRootfsAppend node so := by
  unfold OwnRead
  by_cases hpos : 0 < node.size
  · have hne := h.firstSector_ne happend hfile hfirst hpos
    by_cases hgranted : Granted env so node.firstSector
    · obtain ⟨⟨got, s1, hrun⟩, hdone⟩ := read_granted extent hfirst hpos hne hgranted
      rw [hdone]
      rcases hout : env.outcome so.reads with _ | m
      · rw [show Outcome.done.isDone = true from rfl, if_pos rfl, if_pos rfl,
          line_read htables happend h hbuf hfile hfirst hpos hgranted hout]
        exact and_congr_right fun _ => ⟨fun hread _ _ => hread, fun hread => hread hpos hgranted⟩
      · have hfront := buffer_front happend h hfile hrun
        rw [← hbuf, ← List.nil_append (landed _ _ _ _ _ ++ _)] at hfront
        have hlen : sc.commandlineRootfsAppend.length = 512 := by
          obtain ⟨ret, hread⟩ := h.read
          have hsized := readAppend_sized env extent fuel k _ _ _ hread
          rw [hbuf]
          exact Eq.trans hsized h.length
        rw [show (Outcome.failed m).isDone = false from rfl, if_neg Bool.false_ne_true,
          if_neg Bool.false_ne_true, bootedLine_iff htables hfront hlen List.not_mem_nil]
        apply and_congr_right
        exact fun _ => ⟨fun hblank _ _ => hblank, fun hblank => hblank hpos hgranted⟩
    · obtain ⟨s1, hrun⟩ := read_refused extent k hfirst hpos hne hgranted
      have hnothing := buffer_nothing happend h hfile hrun
      rw [readDone_refused hfirst hpos hne hgranted, if_neg Bool.false_ne_true,
        line_cleared htables h (hbuf.trans hnothing)]
      exact (and_iff_left fun _ hlet => absurd hlet hgranted).symm
  · have hempty : node.size = 0 := by omega
    have hnothing := buffer_nothing happend h hfile (ext2fsReadFile_empty hfirst hempty)
    rw [fileContent_nil hempty, ite_self, line_cleared htables h (hbuf.trans hnothing)]
    exact (and_iff_left fun hlt => absurd hlt hpos).symm

theorem ownAppend_none (h : appendFile env extent fuel k sa = none) :
    ownAppend env extent fuel k sa = [] := by
  unfold ownAppend
  rw [h]

/-- The append file that is found from `s` on has blocks of a sane size. -/
def SaneAppend (env : Env) (extent fuel : ℕ) (k : KernelSource) (s : St) : Prop :=
  ∀ node so, appendFile env extent fuel k s = some (node, so) → node.FirstBlock

theorem bootedLine_own_iff {ram : Ram} {before : List KernelSource}
    (h : Boots env extent fuel k ram before sa sc entry n) (htables : Tables env k)
    (happend : env.board.append ≠ none)
    (hsane : SaneAppend env extent fuel k sa) :
    bootedLine env k entry n sc = some (ownLine env k (ownAppend env extent fuel k sa)) ↔
      OwnAppend env extent fuel k sa := by
  obtain ⟨ret, sb, hread, hload⟩ := h.loads
  have hafter : After env extent fuel k sa sb := ⟨⟨ret, hread⟩, h.buffer_eq, h.length_buffer⟩
  have hkept : sc.commandlineRootfsAppend = sb.commandlineRootfsAppend :=
    loadImages_kept env extent fuel k _ _ _ hload
  unfold OwnAppend
  rcases hfile : appendFile env extent fuel k sa with _ | ⟨node, so⟩
  · rw [ownAppend_none hfile, line_cleared htables hafter
      (hkept.trans (readAppend_none happend hread hfile))]
    exact (and_iff_left fun _ _ hsome => absurd hsome (Option.some_ne_none _).symm).symm
  · rw [ownAppend_some hfile, line_file htables happend hafter hkept hfile (hsane node so hfile)]
    apply and_congr_right
    intro _
    constructor
    · intro hown node' so' heq
      cases heq
      exact hown
    · exact fun hall => hall node so rfl

/-- The command line of a source is its own exactly if the debug part is not asked for, and what
    the read of the append file leaves in the buffer is its content, with a 0 behind it. If it is so
    in two runs, whatever sources were tried in them, the command line is the same. -/
theorem ownLine_iff {ram : Ram} {before : List KernelSource}
    (h : Boots env extent fuel k ram before sa sc entry n) (htables : Tables env k)
    (happend : env.board.append ≠ none) (hsane : SaneAppend env extent fuel k sa) :
    (bootedLine env k entry n sc = some (ownLine env k (ownAppend env extent fuel k sa)) ↔
      OwnAppend env extent fuel k sa) ∧
    ∀ env' extent' fuel' ram' before' sa' sc' entry' n',
      Boots env' extent' fuel' k ram' before' sa' sc' entry' n' → env'.board = env.board →
      Tables env' k → SaneAppend env' extent' fuel' k sa' →
      OwnAppend env extent fuel k sa → OwnAppend env' extent' fuel' k sa' →
      ownAppend env' extent' fuel' k sa' = ownAppend env extent fuel k sa →
      bootedLine env' k entry' n' sc' = bootedLine env k entry n sc := by
  have hiff := bootedLine_own_iff h htables happend hsane
  refine ⟨hiff, ?_⟩
  intro env' extent' fuel' ram' before' sa' sc' entry' n' h' hboard htables' hsane' hown hown' hsame
  have happend' : env'.board.append ≠ none := by rwa [hboard]
  have hline : ∀ c, ownLine env' k c = ownLine env k c := by
    intro c
    unfold ownLine commandline
    rw [hboard]
  rw [(bootedLine_own_iff h' htables' happend' hsane').mpr hown', hiff.mpr hown, hsame, hline]

end Own

/-! ## Two cards -/

/-- A run up to the tag list: the states before the append file and behind the images. -/
def bootStates (env : Env) (extent fuel : ℕ) (k : KernelSource) (s : St) :
    Option (St × St × ℕ × ℕ) :=
  match lookUp env extent fuel k s with
  | some (.ok true, sa) =>
    match readAppend env extent fuel k sa with
    | some (.ok _, sb) =>
      match loadImages env extent fuel k sb with
      | some (.ok (some (entry, n)), sc) => some (sa, sc, entry, n)
      | _ => none
    | _ => none
  | _ => none

theorem boots_of_bootStates {env : Env} {extent fuel : ℕ} {k : KernelSource} {ram : Ram}
    {before : List KernelSource} {s sa sc : St} {entry n : ℕ}
    (hbefore : trySources env extent fuel before (St.start ram) = some (.ok (), s))
    (h : bootStates env extent fuel k s = some (sa, sc, entry, n)) :
    Boots env extent fuel k ram before sa sc entry n := by
  unfold bootStates at h
  split at h
  · rename_i sa' hfound
    split at h
    · rename_i ret sb hread
      split at h
      · rename_i entry' n' sc' hload
        cases h
        exact ⟨⟨s, hbefore, hfound⟩, ret, sb, hread, hload⟩
      · cases h
    · cases h
  · cases h

/-- An ext2 partition with an append file, and a kernel that is a header without data. -/
def appendDisk (content : List Byte) : Disk :=
  applyWrites
    [(454, le32 4 ++ le32 64), (510, [0x55, 0xaa]),
      (3072 + 20, le32 1), (3072 + 40, le32 16), (3072 + 56, [0x53, 0xef]),
      (4096 + 8, le32 5),
      (7296 + 4, le32 1024), (7296 + 40, le32 10),
      (7424 + 4, le32 content.length), (7424 + 40, le32 11),
      (7552 + 4, le32 64), (7552 + 40, le32 12),
      (12288, le32 3 ++ [0x0c, 0x00, 1, 1, 0x61]), (12300, le32 4 ++ [0xf4, 0x03, 1, 1, 0x6b]),
      (13312, content), (14336, [0x27, 0x05, 0x19, 0x56])] fun _ => 0

/-- A source without a kernel, and one with it, on two cards. -/
def bareSource : KernelSource := { ext2Source with filepath := some [0x78] }

/-- The source with the kernel: the same files are looked for on the second card. -/
def otherSource : KernelSource := { ext2Source with blockRead := 1 }

/-- A board with the command line "a", and append files on the cards. -/
def appendEnv (first second : List Byte) : Env :=
  let env := workingEnv (fun _ => 0) [bareSource, otherSource]
  { env with
    board := { env.board with commandlineBoard := [0x61] }
    disk := fun d => if d = 0 then appendDisk first else appendDisk second }

/-- What is seen of a boot of the second card: the command line in the tag, its own command line,
    and the numbers of its append file. -/
def observed (env : Env) (before : List KernelSource) (k : KernelSource) :
    Option (Option (List Byte) × List Byte × Option (ℤ × ℤ × ℕ)) :=
  match trySources env mallocPoolExtent 8 before (St.start fun _ => 0) with
  | some (.ok (), s) => (bootStates env mallocPoolExtent 8 k s).map fun b =>
    (bootedLine env k b.2.2.1 b.2.2.2 b.2.1, ownLine env k (ownAppend env mallocPoolExtent 8 k b.1),
      (appendFile env mallocPoolExtent 8 k b.1).map fun f =>
        (f.1.log2, f.1.blksz, f.1.dirBlock 0))
  | _ => none

theorem boots_of_observed {env : Env} {before : List KernelSource} {k : KernelSource}
    {line : Option (List Byte)} {own : List Byte} {numbers : Option (ℤ × ℤ × ℕ)}
    (h : observed env before k = some (line, own, numbers)) :
    ∃ sa sc entry n, Boots env mallocPoolExtent 8 k (fun _ => 0) before sa sc entry n ∧
      bootedLine env k entry n sc = line ∧
      ownLine env k (ownAppend env mallocPoolExtent 8 k sa) = own ∧
      (appendFile env mallocPoolExtent 8 k sa).map
        (fun f => (f.1.log2, f.1.blksz, f.1.dirBlock 0)) = numbers := by
  unfold observed at h
  split at h
  · rename_i s hbefore
    obtain ⟨⟨sa, sc, entry, n⟩, hboot, hseen⟩ := Option.map_eq_some_iff.mp h
    obtain ⟨hline, hrest⟩ := Prod.mk.inj hseen
    obtain ⟨hown, hnumbers⟩ := Prod.mk.inj hrest
    exact ⟨sa, sc, entry, n, boots_of_bootStates hbefore hboot, hline, hown, hnumbers⟩
  · cases h

theorem appendEnv_tables (first second : List Byte) :
    Tables (appendEnv first second) otherSource where
  placement := rfl
  room := by
    show 0x50000000 + 128 * 2 ^ 20 ≤ 2 ^ 32
    norm_num
  length_le := by
    show 1 + 0 + 0 + 0 + 1024 ≤ 0x7f00
    norm_num
  visible := by
    refine ⟨0x61, ?_, by decide⟩
    show (0x61 : Byte) ∈ List.dropWhile (fun c => decide (c = 0x20)) [0x61]
    decide
  parts := {
    board := by
      show ∀ c ∈ ([0x61] : List Byte), c ≠ 0
      simp
    device := List.forall_mem_nil _
    source := List.forall_mem_nil _
    rootfs := List.forall_mem_nil _
    debug := List.forall_mem_nil _ }

/-- Blocks of 1 KiB. -/
theorem saneAppend_of_numbers {env : Env} {k : KernelSource} {sa : St}
    (h : (appendFile env mallocPoolExtent 8 k sa).map
      (fun f => (f.1.log2, f.1.blksz, f.1.dirBlock 0)) = some (1, 1024, 11)) :
    SaneAppend env mallocPoolExtent 8 k sa := by
  intro node so hfile
  rw [hfile, Option.map_some, Option.some_inj] at h
  obtain ⟨hlog, hrest⟩ := Prod.mk.inj h
  obtain ⟨hblksz, hblock⟩ := Prod.mk.inj hrest
  dsimp only at hlog hblksz hblock
  have hone : node.log2.toNat = 1 := by
    rw [hlog]
    rfl
  refine ⟨⟨?_, ?_, ?_, ?_⟩, ?_⟩
  · rw [hone, hlog]
    rfl
  · rw [hone, hblksz]
    rfl
  · rw [hone]
  · rw [hone]
    norm_num
  · rw [hone, hblock]
    norm_num

/-- A longer append file on the second card is read as it is. -/
theorem ownLine_longer : ∃ sa sc entry n,
    Boots (appendEnv [0x62] [0x65, 0x66]) mallocPoolExtent 8 otherSource (fun _ => 0) [bareSource]
      sa sc entry n ∧
    bootedLine (appendEnv [0x62] [0x65, 0x66]) otherSource entry n sc = some [0x61, 0x65, 0x66] ∧
    OwnAppend (appendEnv [0x62] [0x65, 0x66]) mallocPoolExtent 8 otherSource sa := by
  have hseen : observed (appendEnv [0x62] [0x65, 0x66]) [bareSource] otherSource =
      some (some [0x61, 0x65, 0x66], [0x61, 0x65, 0x66], some (1, 1024, 11)) := by
    decide +kernel
  obtain ⟨sa, sc, entry, n, hboots, hline, hown, hnumbers⟩ := boots_of_observed hseen
  have hiff := ownLine_iff hboots (appendEnv_tables _ _) (Option.some_ne_none _)
    (saneAppend_of_numbers hnumbers)
  refine ⟨sa, sc, entry, n, hboots, hline, hiff.1.mp ?_⟩
  rw [hline, hown]

/-- Behind a shorter one, the end of the first card's is on the command line. -/
theorem ownLine_stale : ∃ sa sc entry n,
    Boots (appendEnv [0x62, 0x63, 0x64] [0x65]) mallocPoolExtent 8 otherSource (fun _ => 0)
      [bareSource] sa sc entry n ∧
    bootedLine (appendEnv [0x62, 0x63, 0x64] [0x65]) otherSource entry n sc =
      some [0x61, 0x65, 0x63, 0x64] ∧
    bootedLine (appendEnv [0x62, 0x63, 0x64] [0x65]) otherSource entry n sc ≠
      some (ownLine (appendEnv [0x62, 0x63, 0x64] [0x65]) otherSource
        (ownAppend (appendEnv [0x62, 0x63, 0x64] [0x65]) mallocPoolExtent 8 otherSource sa)) := by
  have hseen : observed (appendEnv [0x62, 0x63, 0x64] [0x65]) [bareSource] otherSource =
      some (some [0x61, 0x65, 0x63, 0x64], [0x61, 0x65], some (1, 1024, 11)) := by
    decide +kernel
  obtain ⟨sa, sc, entry, n, hboots, hline, hown, -⟩ := boots_of_observed hseen
  refine ⟨sa, sc, entry, n, hboots, hline, ?_⟩
  rw [hline, hown]
  decide

end SmartQ.Qi
