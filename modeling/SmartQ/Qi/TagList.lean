import Mathlib.Data.List.DropRight
import SmartQ.Qi.FileReads
import SmartQ.Qi.Phase2

/-!
# The tag list of the kernel

What `do_params` leaves at `linux_tag_placement`, seen by the kernel, which walks from
tag to tag with `tag_next`.

* `visits_tags`: the walk over tags that lie behind each other.
* `trimNewlines_eq`: where the command line ends without its newlines.
* `doParams_tags`: the tags of the list, and the command line in its tag.
-/

namespace SmartQ.Qi

open SmartQ.Lib

/-! ## The walk of the kernel -/

/-- `tag_next`: the tag behind the one at `t`, by the number of words it says it has. -/
def tagNext (m : Ram) (t : ℕ) : ℕ := (t + 4 * u32At (m.bytes t 8) 0) % 2 ^ 32

/-- The places and the kinds of the tags from `t` on, up to the one of size 0 and at most
    `fuel` of them. -/
def visits (m : Ram) : ℕ → ℕ → List (ℕ × ℕ)
  | 0, _ => []
  | fuel + 1, t => (t, u32At (m.bytes t 8) 4) ::
    if u32At (m.bytes t 8) 0 = 0 then [] else visits m fuel (tagNext m t)

/-- `ATAG_NONE`, `ATAG_CORE`, `ATAG_MEM`, `ATAG_REVISION`, `ATAG_INITRD2` and
    `ATAG_CMDLINE`. -/
def atagNone : ℕ := 0

/-- `ATAG_CORE`, the tag that a list has to begin with. -/
def atagCore : ℕ := 0x54410001

/-- `ATAG_MEM`, with the size and the start of the memory. -/
def atagMem : ℕ := 0x54410002

/-- `ATAG_REVISION`, with the revision of the machine. -/
def atagRevision : ℕ := 0x54410007

/-- `ATAG_INITRD2`, with the start and the size of the initramfs. -/
def atagInitrd2 : ℕ := 0x54420005

/-- `ATAG_CMDLINE`, with the characters of the command line and a NUL. -/
def atagCmdline : ℕ := 0x54410009

/-- The kinds of the tags that a list has. -/
def tagKinds (k : KernelSource) : List ℕ :=
  [atagCore, atagRevision, atagMem] ++ (if k.initramfsFilepath = none then [] else [atagInitrd2]) ++
    [atagCmdline, atagNone]

/-- The bytes that a tag needs: `sizeof(struct tag_header)` and its structure, or the string
    `line` with its end. -/
def tagNeeds (line : List Byte) (kind : ℕ) : ℕ :=
  if kind = atagCore then 8 + 12
  else if kind = atagRevision then 8 + 4
  else if kind = atagMem ∨ kind = atagInitrd2 then 8 + 8
  else if kind = atagCmdline then 8 + (line.length + 1)
  else 0

/-- A list of tags at `a` with the kinds `kinds` and the command line `line`. -/
structure TagList (m : Ram) (a : ℕ) (kinds : List ℕ) (line : List Byte) (tags : List (ℕ × ℕ)) :
    Prop where
  walk : ∀ fuel ≥ 6, visits m fuel a = tags
  kinds_eq : tags.map Prod.snd = kinds
  covers : ∀ t ∈ tags, tagNeeds line t.2 ≤ 4 * u32At (m.bytes t.1 8) 0
  line_eq : ∀ t ∈ tags, t.2 = atagCmdline → m.bytes (t.1 + 8) (line.length + 1) = line ++ [0]

/-! ## Tags behind each other -/

/-- The bytes of a tag. -/
def tagBytes (t : ℕ × List ℕ) : List Byte :=
  le32 (2 + t.2.length) ++ le32 t.1 ++ t.2.flatMap le32

theorem length_flatMap_le32 (words : List ℕ) : (words.flatMap le32).length = 4 * words.length := by
  induction words with
  | nil => rfl
  | cons w ws ih =>
    rw [List.flatMap_cons, List.length_append, length_le32, ih, List.length_cons]
    omega

theorem length_tagBytes (t : ℕ × List ℕ) : (tagBytes t).length = 8 + 4 * t.2.length := by
  unfold tagBytes
  rw [List.length_append, List.length_append, length_le32, length_le32, length_flatMap_le32]

/-- The places and the kinds of tags that lie behind each other from `a` on. -/
def places : ℕ → List (ℕ × List ℕ) → List (ℕ × ℕ)
  | _, [] => []
  | a, t :: ts => (a, t.1) :: places (a + (tagBytes t).length) ts

/-- A header in memory. -/
theorem header_eq {m : Ram} {t size kind : ℕ} (h : m.bytes t 8 = le32 size ++ le32 kind)
    (hsize : size < 2 ^ 32) (hkind : kind < 2 ^ 32) :
    u32At (m.bytes t 8) 0 = size ∧ u32At (m.bytes t 8) 4 = kind := by
  have hfirst := u32At_le32 [] (le32 kind) size
  have hsecond := u32At_le32 (le32 size) [] kind
  rw [List.nil_append, List.length_nil, Nat.mod_eq_of_lt hsize] at hfirst
  rw [List.append_nil, length_le32, Nat.mod_eq_of_lt hkind] at hsecond
  rw [h]
  exact ⟨hfirst, hsecond⟩

theorem bytes_prefix {m : Ram} {a : ℕ} {xs ys : List Byte}
    (h : m.bytes a (xs ++ ys).length = xs ++ ys) :
    m.bytes a xs.length = xs ∧ m.bytes (a + xs.length) ys.length = ys := by
  rw [List.length_append, Ram.bytes_add] at h
  exact List.append_inj h (Ram.length_bytes _ _ _)

/-- The walk over tags that lie behind each other. -/
theorem visits_tags {m : Ram} {a : ℕ} (fuel : ℕ) (tags : List (ℕ × List ℕ))
    (hkind : ∀ t ∈ tags, t.1 < 2 ^ 32) (hfit : a + (tags.flatMap tagBytes).length < 2 ^ 32)
    (h : m.bytes a (tags.flatMap tagBytes).length = tags.flatMap tagBytes) :
    visits m (tags.length + fuel) a =
        places a tags ++ visits m fuel (a + (tags.flatMap tagBytes).length) ∧
      ∀ t ∈ places a tags, ∃ t' ∈ tags, t.2 = t'.1 ∧
        u32At (m.bytes t.1 8) 0 = 2 + t'.2.length := by
  induction tags generalizing a with
  | nil =>
    refine ⟨?_, fun t ht => absurd ht List.not_mem_nil⟩
    simp [places]
  | cons t ts ih =>
    rw [List.flatMap_cons] at h hfit
    obtain ⟨hhead, hrest⟩ := bytes_prefix h
    rw [List.length_append] at hfit
    have hlen := length_tagBytes t
    have hheader : m.bytes a 8 = le32 (2 + t.2.length) ++ le32 t.1 := by
      rw [hlen, Ram.bytes_add] at hhead
      exact (List.append_inj hhead (Ram.length_bytes _ _ _)).1
    obtain ⟨hsize, hk⟩ := header_eq hheader (by omega) (hkind t List.mem_cons_self)
    have hnext : tagNext m a = a + (tagBytes t).length := by
      unfold tagNext
      rw [hsize, hlen, Nat.mod_eq_of_lt (by omega)]
      omega
    obtain ⟨hwalk, hall⟩ := ih (a := a + (tagBytes t).length)
      (fun t' ht' => hkind t' (List.mem_cons_of_mem _ ht')) (by omega) hrest
    refine ⟨?_, fun t' ht' => ?_⟩
    · have hcount : (t :: ts).length + fuel = ts.length + fuel + 1 := by
        rw [List.length_cons]
        omega
      rw [hcount, visits, if_neg (by omega), hnext, hwalk, hk, places, List.flatMap_cons,
        List.length_append, List.cons_append, Nat.add_assoc]
    · rcases List.mem_cons.mp ht' with rfl | ht'
      · exact ⟨t, List.mem_cons_self, rfl, hsize⟩
      · obtain ⟨t'', hmem, hspec⟩ := hall t' ht'
        exact ⟨t'', List.mem_cons_of_mem _ hmem, hspec⟩

/-- Tags that are stored behind each other from `a` on: where they end, and the stores. -/
def chain : ℕ → List (ℕ × List ℕ) → ℕ × List Write
  | a, [] => (a, [])
  | a, t :: ts =>
    let rest := chain (a + (tagBytes t).length) ts
    (rest.1, (a, tagBytes t) :: rest.2)

theorem chain_fst (a : ℕ) (tags : List (ℕ × List ℕ)) :
    (chain a tags).1 = a + (tags.flatMap tagBytes).length := by
  induction tags generalizing a with
  | nil => rfl
  | cons t ts ih =>
    rw [List.flatMap_cons, List.length_append, ← Nat.add_assoc]
    exact ih _

/-- The tags are stored behind what is in the memory before them. -/
theorem bytes_chain (m : Ram) (a n : ℕ) (tags : List (ℕ × List ℕ))
    (hfit : n + (tags.flatMap tagBytes).length ≤ 2 ^ 32) :
    (Ram.stores m (chain (a + n) tags).2).bytes a (n + (tags.flatMap tagBytes).length) =
      m.bytes a n ++ tags.flatMap tagBytes := by
  induction tags generalizing m n with
  | nil => simp [chain, Ram.stores]
  | cons t ts ih =>
    rw [List.flatMap_cons, List.length_append] at hfit ⊢
    have hstore : (m.set (a + n) (tagBytes t)).bytes a (n + (tagBytes t).length) =
        m.bytes a n ++ tagBytes t := by
      rw [Ram.bytes_set_append (le_refl _) (by omega), List.take_length]
    have hrest := ih (m.set (a + n) (tagBytes t)) (n + (tagBytes t).length) (by omega)
    rw [hstore, List.append_assoc] at hrest
    rw [← Nat.add_assoc, ← hrest, ← Nat.add_assoc]
    rfl

/-- The tags in front of the command line. -/
def fixedTags (env : Env) (k : KernelSource) (initramfsLen : ℕ) : List (ℕ × List ℕ) :=
  [(atagCore, [0, 0, 0]), (atagRevision, [env.board.machineRevision]),
    (atagMem, [env.board.linuxMemSize, env.board.linuxMemStart])] ++
    if k.initramfsFilepath = none then []
    else [(atagInitrd2, [env.board.linuxMemStart + 8 * 1024 * 1024, initramfsLen])]

theorem paramTags_eq (env : Env) (k : KernelSource) (initramfsLen : ℕ) :
    paramTags env k initramfsLen =
      chain env.board.linuxTagPlacement (fixedTags env k initramfsLen) := by
  unfold paramTags fixedTags
  split_ifs <;> rfl

/-! ## The command line -/

/-- The walk back over newlines stops behind the last byte that is none. -/
theorem trimNewlines_eq {m : Ram} {p : ℕ} {line : List Byte} (hline : m.bytes p line.length = line)
    (hnot : line.rdropWhile (· = 0x0a) ≠ []) (hlen : line.length < 2 ^ 32) {fuel j : ℕ}
    (hfuel : line.length < fuel) :
    ∃ j', trimNewlines m fuel (p + line.length + j * 2 ^ 32) =
      p + (line.rdropWhile (· = 0x0a)).length + j' * 2 ^ 32 := by
  induction line using List.reverseRecOn generalizing fuel j with
  | nil => exact absurd rfl hnot
  | append_singleton line c ih =>
    rw [List.length_append, List.length_singleton] at hlen hfuel ⊢
    obtain ⟨hinit, hlast⟩ := bytes_prefix hline
    obtain ⟨fuel, rfl⟩ : ∃ f, fuel = f + 1 := ⟨fuel - 1, by omega⟩
    have hback : p + (line.length + 1) + j * 2 ^ 32 + (2 ^ 32 - 1) =
        p + line.length + (j + 1) * 2 ^ 32 := by omega
    have hbyte : m.get (p + line.length + (j + 1) * 2 ^ 32) = c := by
      have hget : m.get (p + line.length) = c := by
        have hone : m.bytes (p + line.length) 1 = [c] := hlast
        simpa [Ram.bytes] using hone
      rw [← hget, ← Ram.get_mod m (p + line.length), ← Ram.get_mod, Nat.add_mul_mod_self_right]
    unfold trimNewlines
    rw [hback, hbyte]
    by_cases hc : c = 0x0a
    · have hdrop : (line ++ [c]).rdropWhile (· = 0x0a) = line.rdropWhile (· = 0x0a) :=
        List.rdropWhile_concat_pos _ _ _ (decide_eq_true hc)
      rw [if_pos hc]
      rw [hdrop] at hnot ⊢
      exact ih hinit hnot (by omega) (by omega)
    · rw [if_neg hc, List.rdropWhile_concat_neg _ _ _ (by simpa using hc), List.length_append,
        List.length_singleton]
      exact ⟨j, rfl⟩

/-- A string with its end in memory is read back. -/
theorem cstrAt_eq {m : Ram} {p fuel : ℕ} {line : List Byte}
    (hline : m.bytes p (line.length + 1) = line ++ [0]) (hclean : ∀ c ∈ line, c ≠ 0)
    (hfuel : line.length < fuel) : cstrAt m fuel p = line := by
  induction line generalizing p fuel with
  | nil =>
    obtain ⟨fuel, rfl⟩ : ∃ f, fuel = f + 1 := ⟨fuel - 1, by omega⟩
    have hend : m.get p = 0 := by
      have hone : m.bytes p 1 = [0] := hline
      simpa [Ram.bytes] using hone
    rw [cstrAt, if_pos hend]
  | cons c line ih =>
    obtain ⟨fuel, rfl⟩ : ∃ f, fuel = f + 1 := ⟨fuel - 1, by omega⟩
    rw [List.length_cons] at hline hfuel
    have hsplit : m.bytes p 1 ++ m.bytes (p + 1) (line.length + 1) = [c] ++ (line ++ [0]) := by
      rw [← Ram.bytes_add, Nat.add_comm 1]
      exact hline
    obtain ⟨hfirst, hrest⟩ := List.append_inj hsplit (Ram.length_bytes _ _ _)
    have hget : m.get p = c := by simpa [Ram.bytes] using hfirst
    rw [cstrAt, hget, if_neg (hclean c List.mem_cons_self),
      ih hrest (fun c' hc' => hclean c' (List.mem_cons_of_mem _ hc')) (by omega)]

/-- The debug part of the command line, if it is asked for. -/
def debugPart (env : Env) : List Byte :=
  match env.board.commandlineBoardDebug, env.getUiDebug with
  | some debug, some true => debug
  | _, _ => []

/-- The command line that the kernel gets. -/
def bootLine (env : Env) (k : KernelSource) (rootfsAppend : List Byte) : List Byte :=
  (commandline env k rootfsAppend).rdropWhile (· = 0x0a) ++ debugPart env

theorem rdropWhile_ne_nil {env : Env} {k : KernelSource} {rootfsAppend : List Byte}
    (hline : ∃ c ∈ commandline env k rootfsAppend, c ≠ 0x0a) :
    (commandline env k rootfsAppend).rdropWhile (· = 0x0a) ≠ [] := by
  obtain ⟨c, hc, hne⟩ := hline
  rw [Ne, List.rdropWhile_eq_nil_iff]
  exact fun hall => hne (of_decide_eq_true (hall c hc))

/-- The end of the command line, with the debug part. -/
def endStored (env : Env) (stop : ℕ) (m : Ram) : Ram :=
  match env.board.commandlineBoardDebug, env.getUiDebug with
  | some debug, some true => (m.set stop [0]).set stop (debug ++ [0])
  | _, _ => m.set stop [0]

/-- The memory before the header of the command line is written. -/
def lineStored (env : Env) (k : KernelSource) (initramfsLen : ℕ) (rootfsAppend : List Byte)
    (m : Ram) : Ram :=
  let (params, tags) := paramTags env k initramfsLen
  let m := Ram.stores m tags
  let cmdline := params + 8
  let line := commandline env k rootfsAppend
  let m := m.set cmdline (line ++ [0])
  endStored env (trimNewlines m (2 ^ 32) (cmdline + line.length)) m

theorem doParams_eq (env : Env) (k : KernelSource) (initramfsLen : ℕ) (rootfsAppend : List Byte)
    (m : Ram) : doParams env k initramfsLen rootfsAppend m =
      let params := (paramTags env k initramfsLen).1
      let m := lineStored env k initramfsLen rootfsAppend m
      let size := (8 + (cstrAt m (2 ^ 32) (params + 8)).length + 1 + 4) % 2 ^ 32 / 4
      (m.set params (le32 size ++ le32 atagCmdline)).set (params + 4 * size)
        (le32 0 ++ le32 atagNone) := by
  unfold doParams lineStored endStored
  rcases env.board.commandlineBoardDebug with _ | debug
  · rfl
  · rcases env.getUiDebug with _ | _ | _ <;> rfl

/-- The list lies in the address space. -/
def TagsFit (env : Env) (k : KernelSource) (rootfsAppend : List Byte) : Prop :=
  env.board.linuxTagPlacement + (commandline env k rootfsAppend).length + (debugPart env).length + 96 ≤
    2 ^ 32

theorem endStored_eq (env : Env) (stop : ℕ) (m : Ram) :
    ∃ m' : Ram, endStored env stop m = m'.set stop (debugPart env ++ [0]) ∧
      (m' = m ∨ m' = m.set stop [0]) := by
  unfold endStored debugPart
  rcases env.board.commandlineBoardDebug with _ | debug
  · exact ⟨m, rfl, .inl rfl⟩
  · rcases env.getUiDebug with _ | _ | _
    · exact ⟨m, rfl, .inl rfl⟩
    · exact ⟨m, rfl, .inl rfl⟩
    · exact ⟨m.set stop [0], rfl, .inr rfl⟩

/-- The end is stored behind what was there. -/
theorem endStored_bytes (env : Env) {stop a n : ℕ} (m : Ram)
    (hstop : ∀ (m' : Ram) bs, m'.set stop bs = m'.set (a + n) bs)
    (hfit : n + (debugPart env).length + 1 ≤ 2 ^ 32) :
    (endStored env stop m).bytes a n = m.bytes a n ∧
      (endStored env stop m).bytes (a + n) ((debugPart env).length + 1) = debugPart env ++ [0] := by
  have hlen : (debugPart env ++ [0]).length = (debugPart env).length + 1 := by
    rw [List.length_append, List.length_singleton]
  obtain ⟨m', heq, hm'⟩ := endStored_eq env stop m
  rw [heq, hstop]
  constructor
  · rw [Ram.bytes_set_before (by omega)]
    rcases hm' with rfl | rfl
    · rfl
    · rw [hstop]
      exact Ram.bytes_set_before (by rw [List.length_singleton]; omega)
  · rw [← hlen, Ram.bytes_set_self (le_refl _) (by omega), List.take_length]

/-- What is in the memory in front of the header of the command line, and behind it. -/
theorem lineStored_bytes {env : Env} {k : KernelSource} {initramfsLen n : ℕ} {rootfsAppend : List Byte}
    (m : Ram) (hn : ((fixedTags env k initramfsLen).flatMap tagBytes).length = n) (hn64 : n ≤ 64)
    (hnot : ∃ c ∈ commandline env k rootfsAppend, c ≠ 0x0a)
    (hfit : TagsFit env k rootfsAppend) :
    (lineStored env k initramfsLen rootfsAppend m).bytes env.board.linuxTagPlacement n =
        (fixedTags env k initramfsLen).flatMap tagBytes ∧
      (lineStored env k initramfsLen rootfsAppend m).bytes (env.board.linuxTagPlacement + (n + 8))
        ((bootLine env k rootfsAppend).length + 1) = bootLine env k rootfsAppend ++ [0] := by
  have htrim := rdropWhile_ne_nil hnot
  have hprefix := List.rdropWhile_prefix (fun c : Byte => decide (c = 0x0a))
    (l := commandline env k rootfsAppend)
  have hchain := bytes_chain m env.board.linuxTagPlacement 0 (fixedTags env k initramfsLen)
    (by rw [hn]; omega)
  rw [Nat.add_zero, Nat.zero_add, hn] at hchain
  unfold TagsFit at hfit
  unfold lineStored bootLine
  rw [paramTags_eq]
  dsimp only
  rw [chain_fst, hn]
  generalize Ram.stores m (chain env.board.linuxTagPlacement (fixedTags env k initramfsLen)).2 = base
    at hchain ⊢
  generalize env.board.linuxTagPlacement = a at hchain hfit ⊢
  generalize commandline env k rootfsAppend = line at htrim hprefix hfit ⊢
  have htake := List.prefix_iff_eq_take.mp hprefix
  have hle := hprefix.length_le
  have hlen : (line ++ [(0 : Byte)]).length = line.length + 1 := by
    rw [List.length_append, List.length_singleton]
  rw [Nat.add_assoc a n 8]
  -- The line is stored, and cut off in front of its newlines.
  have hline : (base.set (a + (n + 8)) (line ++ [0])).bytes (a + (n + 8)) line.length = line := by
    rw [Ram.bytes_set_self (by omega) (by omega), List.take_left]
  have htrimmed : (base.set (a + (n + 8)) (line ++ [0])).bytes (a + (n + 8))
      (line.rdropWhile (· = 0x0a)).length = line.rdropWhile (· = 0x0a) := by
    rw [Ram.bytes_set_self (by omega) (by omega), List.take_append_of_le_length hle]
    exact htake.symm
  have hstored : (base.set (a + (n + 8)) (line ++ [0])).bytes a (n + 8) = base.bytes a (n + 8) :=
    Ram.bytes_set_before (by omega)
  obtain ⟨j, hstop⟩ := trimNewlines_eq hline htrim (by omega) (j := 0)
    (show line.length < 2 ^ 32 by omega)
  have hend : a + (n + 8) + line.length + 0 * 2 ^ 32 = a + (n + 8) + line.length := by omega
  rw [hend] at hstop
  rw [hstop]
  generalize base.set (a + (n + 8)) (line ++ [0]) = stored at hstored htrimmed ⊢
  generalize line.rdropWhile (· = 0x0a) = trimmed at hle htrimmed ⊢
  have hcut : ∀ (m' : Ram) bs, m'.set (a + (n + 8) + trimmed.length + j * 2 ^ 32) bs =
      m'.set (a + (n + 8 + trimmed.length)) bs := by
    intro m' bs
    rw [← Ram.set_mod, Nat.add_mul_mod_self_right, Ram.set_mod, Nat.add_assoc]
  obtain ⟨hbefore, hbehind⟩ := endStored_bytes env stored hcut (by omega)
  generalize endStored env (a + (n + 8) + trimmed.length + j * 2 ^ 32) stored = final
    at hbefore hbehind ⊢
  obtain ⟨hhead, htail⟩ := Ram.bytes_split hbefore
  have htags := (Ram.bytes_split (hhead.trans hstored)).1
  refine ⟨htags.trans hchain, ?_⟩
  rw [List.length_append, Nat.add_assoc, Ram.bytes_add, htail, htrimmed, Nat.add_assoc, hbehind,
    List.append_assoc]

/-! ## The list -/

/-- The parts of the command line are C strings. -/
structure LineParts (env : Env) (k : KernelSource) (rootfsAppend : List Byte) : Prop where
  board : ∀ c ∈ env.board.commandlineBoard, c ≠ 0
  device : ∀ c ∈ env.board.appendDeviceSpecificCmdline.getD [], c ≠ 0
  source : ∀ c ∈ k.commandlineAppend.getD [], c ≠ 0
  rootfs : ∀ c ∈ rootfsAppend, c ≠ 0
  debug : ∀ c ∈ env.board.commandlineBoardDebug.getD [], c ≠ 0

theorem LineParts.bootLine {env : Env} {k : KernelSource} {rootfsAppend : List Byte}
    (h : LineParts env k rootfsAppend) : ∀ c ∈ bootLine env k rootfsAppend, c ≠ 0 := by
  intro c hc
  rcases List.mem_append.mp hc with hc | hc
  · have hline := (List.rdropWhile_prefix _ _).subset hc
    unfold commandline at hline
    simp only [List.mem_append] at hline
    rcases hline with ((hc | hc) | hc) | hc
    · exact h.board c ((List.dropWhile_suffix _).subset hc)
    · exact h.device c hc
    · exact h.source c hc
    · exact h.rootfs c hc
  · unfold debugPart at hc
    apply h.debug c
    rcases hdebug : env.board.commandlineBoardDebug with _ | debug
    · rw [hdebug] at hc
      exact absurd hc List.not_mem_nil
    · rcases hask : env.getUiDebug with _ | _ | _
      · rw [hdebug, hask] at hc
        exact absurd hc List.not_mem_nil
      · rw [hdebug, hask] at hc
        exact absurd hc List.not_mem_nil
      · rw [hdebug, hask] at hc
        exact hc

theorem fixedTags_facts (env : Env) (k : KernelSource) (initramfsLen : ℕ) :
    ((fixedTags env k initramfsLen).flatMap tagBytes).length ≤ 64 ∧
      (fixedTags env k initramfsLen).length ≤ 4 ∧
      (fixedTags env k initramfsLen).map Prod.fst ++ [atagCmdline, atagNone] = tagKinds k ∧
      ∀ t ∈ fixedTags env k initramfsLen, t.1 < 2 ^ 32 ∧ t.1 ≠ atagCmdline ∧
        ∀ line, tagNeeds line t.1 ≤ 4 * (2 + t.2.length) := by
  unfold fixedTags tagKinds
  by_cases hinit : k.initramfsFilepath = none
  · simp [hinit, length_tagBytes, tagNeeds, atagCore, atagMem, atagRevision, atagCmdline, atagNone,
      atagInitrd2]
  · simp [hinit, length_tagBytes, tagNeeds, atagCore, atagMem, atagRevision, atagCmdline, atagNone,
      atagInitrd2]

theorem places_map_snd (a : ℕ) (tags : List (ℕ × List ℕ)) :
    (places a tags).map Prod.snd = tags.map Prod.fst := by
  induction tags generalizing a with
  | nil => rfl
  | cons t ts ih => rw [places, List.map_cons, List.map_cons, ih]

/-- The last two tags of the walk. -/
theorem visits_last {m : Ram} {c size : ℕ} (hhead : m.bytes c 8 = le32 size ++ le32 atagCmdline)
    (hnone : m.bytes (c + 4 * size) 8 = le32 0 ++ le32 atagNone) (hpos : 0 < size)
    (hfit : c + 4 * size < 2 ^ 32) (fuel : ℕ) :
    visits m (fuel + 2) c = [(c, atagCmdline), (c + 4 * size, atagNone)] := by
  obtain ⟨hsize, hkind⟩ := header_eq hhead (by omega) (by decide)
  obtain ⟨hsize', hkind'⟩ := header_eq hnone (by norm_num) (by decide)
  have hnext : tagNext m c = c + 4 * size := by
    unfold tagNext
    rw [hsize, Nat.mod_eq_of_lt hfit]
  rw [visits, hsize, hkind, if_neg (by omega), hnext, visits, hsize', hkind', if_pos rfl]

/-- What `do_params` leaves in memory: the fixed tags, the command line in its tag, and the
    last tag. -/
theorem doParams_stored {env : Env} {k : KernelSource} {rootfsAppend : List Byte} {n : ℕ}
    (initramfsLen : ℕ) (m : Ram) (hparts : LineParts env k rootfsAppend)
    (hnot : ∃ c ∈ commandline env k rootfsAppend, c ≠ 0x0a)
    (hfit : TagsFit env k rootfsAppend)
    (hn : ((fixedTags env k initramfsLen).flatMap tagBytes).length = n) :
    ∃ size, (8 + ((bootLine env k rootfsAppend).length + 1) ≤ 4 * size ∧
        4 * size ≤ (bootLine env k rootfsAppend).length + 13) ∧
      env.board.linuxTagPlacement + n + 4 * size + 8 ≤ 2 ^ 32 ∧
      (doParams env k initramfsLen rootfsAppend m).bytes env.board.linuxTagPlacement n =
        (fixedTags env k initramfsLen).flatMap tagBytes ∧
      (doParams env k initramfsLen rootfsAppend m).bytes (env.board.linuxTagPlacement + n) 8 =
        le32 size ++ le32 atagCmdline ∧
      (doParams env k initramfsLen rootfsAppend m).bytes (env.board.linuxTagPlacement + n + 8)
        ((bootLine env k rootfsAppend).length + 1) = bootLine env k rootfsAppend ++ [0] ∧
      (doParams env k initramfsLen rootfsAppend m).bytes
        (env.board.linuxTagPlacement + n + 4 * size) 8 = le32 0 ++ le32 atagNone := by
  obtain ⟨hn64, -, -, -⟩ := fixedTags_facts env k initramfsLen
  rw [hn] at hn64
  obtain ⟨htags, hline⟩ := lineStored_bytes m hn hn64 hnot hfit
  have hlong : (bootLine env k rootfsAppend).length ≤
      (commandline env k rootfsAppend).length + (debugPart env).length := by
    unfold bootLine
    rw [List.length_append]
    exact Nat.add_le_add_right (List.rdropWhile_prefix _ _).length_le _
  unfold TagsFit at hfit
  rw [← Nat.add_assoc] at hline
  have hcstr := cstrAt_eq hline hparts.bootLine
    (show (bootLine env k rootfsAppend).length < 2 ^ 32 by omega)
  rw [doParams_eq, paramTags_eq]
  dsimp only
  rw [chain_fst, hn, hcstr]
  clear hcstr
  generalize lineStored env k initramfsLen rootfsAppend m = stored at htags hline ⊢
  generalize bootLine env k rootfsAppend = line at hline hlong ⊢
  generalize env.board.linuxTagPlacement = a at htags hline hfit ⊢
  obtain ⟨size, hsize⟩ : ∃ size, (8 + line.length + 1 + 4) % 2 ^ 32 / 4 = size := ⟨_, rfl⟩
  have hcover : 8 + (line.length + 1) ≤ 4 * size ∧ 4 * size ≤ line.length + 13 := by omega
  rw [hsize]
  have hlen8 : ∀ x y : ℕ, (le32 x ++ le32 y).length = 8 := fun x y => rfl
  -- The header goes in front of the line, and the last tag behind it.
  have hheader : (stored.set (a + n) (le32 size ++ le32 atagCmdline)).bytes a (n + 8) =
      stored.bytes a n ++ (le32 size ++ le32 atagCmdline) := by
    rw [Ram.bytes_set_append (hlen8 _ _).ge (by rw [hlen8]; omega)]
    rfl
  have hkept : (stored.set (a + n) (le32 size ++ le32 atagCmdline)).bytes (a + n + 8)
      (line.length + 1) = stored.bytes (a + n + 8) (line.length + 1) :=
    Ram.bytes_set_behind (by rw [hlen8]; omega)
  generalize stored.set (a + n) (le32 size ++ le32 atagCmdline) = headed at hheader hkept ⊢
  have hbefore : (headed.set (a + n + 4 * size) (le32 0 ++ le32 atagNone)).bytes a
      (n + (8 + ((line.length + 1) + (4 * size - (8 + (line.length + 1)))))) =
      headed.bytes a (n + (8 + ((line.length + 1) + (4 * size - (8 + (line.length + 1)))))) := by
    have hsum : a + n + 4 * size =
        a + (n + (8 + ((line.length + 1) + (4 * size - (8 + (line.length + 1)))))) := by omega
    rw [hsum]
    exact Ram.bytes_set_before (by rw [hlen8]; omega)
  have hnone : (headed.set (a + n + 4 * size) (le32 0 ++ le32 atagNone)).bytes
      (a + n + 4 * size) 8 = le32 0 ++ le32 atagNone :=
    Ram.bytes_set_self (hlen8 _ _).ge (by rw [hlen8]; omega)
  generalize headed.set (a + n + 4 * size) (le32 0 ++ le32 atagNone) = final at hbefore hnone ⊢
  obtain ⟨hfirst, hrest⟩ := Ram.bytes_split hbefore
  obtain ⟨hsecond, hrest⟩ := Ram.bytes_split hrest
  obtain ⟨hthird, -⟩ := Ram.bytes_split hrest
  rw [Ram.bytes_add] at hheader
  obtain ⟨hheadT, hheadC⟩ := List.append_inj hheader (by rw [Ram.length_bytes, Ram.length_bytes])
  exact ⟨size, hcover, by omega, hfirst.trans (hheadT.trans htags), hsecond.trans hheadC,
    hthird.trans (hkept.trans hline), hnone⟩

/-- The walk over the list. -/
theorem doParams_visits {env : Env} {k : KernelSource} {n size initramfsLen : ℕ} {final : Ram}
    (hn : ((fixedTags env k initramfsLen).flatMap tagBytes).length = n) (hpos : 0 < size)
    (hroom : env.board.linuxTagPlacement + n + 4 * size + 8 ≤ 2 ^ 32)
    (hfixed : final.bytes env.board.linuxTagPlacement n =
      (fixedTags env k initramfsLen).flatMap tagBytes)
    (hhead : final.bytes (env.board.linuxTagPlacement + n) 8 = le32 size ++ le32 atagCmdline)
    (hlast : final.bytes (env.board.linuxTagPlacement + n + 4 * size) 8 =
      le32 0 ++ le32 atagNone) (fuel : ℕ) :
    visits final ((fixedTags env k initramfsLen).length + (fuel + 2)) env.board.linuxTagPlacement =
      places env.board.linuxTagPlacement (fixedTags env k initramfsLen) ++
        [(env.board.linuxTagPlacement + n, atagCmdline),
          (env.board.linuxTagPlacement + n + 4 * size, atagNone)] := by
  obtain ⟨-, -, -, hkinds⟩ := fixedTags_facts env k initramfsLen
  rw [← hn] at hfixed
  rw [(visits_tags (fuel + 2) (fixedTags env k initramfsLen) (fun t ht => (hkinds t ht).1)
    (by rw [hn]; omega) hfixed).1, hn, visits_last hhead hlast hpos (by omega)]

/-- The tag list that `do_params` leaves is well formed, whatever the command line, as long
    as it has a byte that is no newline. -/
theorem doParams_tags {env : Env} {k : KernelSource} {rootfsAppend : List Byte} (initramfsLen : ℕ)
    (m : Ram) (hparts : LineParts env k rootfsAppend)
    (hnot : ∃ c ∈ commandline env k rootfsAppend, c ≠ 0x0a)
    (hfit : TagsFit env k rootfsAppend) :
    ∃ tags, TagList (doParams env k initramfsLen rootfsAppend m) env.board.linuxTagPlacement
      (tagKinds k) (bootLine env k rootfsAppend) tags := by
  obtain ⟨-, hcount, hkinds, hfixed⟩ := fixedTags_facts env k initramfsLen
  obtain ⟨n, hn⟩ : ∃ n, ((fixedTags env k initramfsLen).flatMap tagBytes).length = n := ⟨_, rfl⟩
  obtain ⟨size, hcover, hroom, hfinalT, hfinalC, hfinalL, hnone⟩ :=
    doParams_stored initramfsLen m hparts hnot hfit hn
  have hwalk := doParams_visits hn (by omega) hroom hfinalT hfinalC hnone
  generalize doParams env k initramfsLen rootfsAppend m = final at *
  generalize bootLine env k rootfsAppend = line at *
  have htags : final.bytes env.board.linuxTagPlacement
      ((fixedTags env k initramfsLen).flatMap tagBytes).length =
      (fixedTags env k initramfsLen).flatMap tagBytes := by rw [hn]; exact hfinalT
  refine ⟨places env.board.linuxTagPlacement (fixedTags env k initramfsLen) ++
    [(env.board.linuxTagPlacement + n, atagCmdline),
      (env.board.linuxTagPlacement + n + 4 * size, atagNone)], fun fuel hfuel => ?_, ?_, ?_, ?_⟩
  · rw [← hwalk (fuel - (fixedTags env k initramfsLen).length - 2)]
    congr 1
    omega
  · rw [List.map_append, places_map_snd, ← hkinds]
    rfl
  · intro t ht
    rcases List.mem_append.mp ht with ht | ht
    · obtain ⟨t', ht', hkind, hwords⟩ := (visits_tags 0 (fixedTags env k initramfsLen)
        (fun t ht => (hfixed t ht).1) (by rw [hn]; omega) htags).2 t ht
      rw [hkind, hwords]
      exact (hfixed t' ht').2.2 line
    · rcases List.mem_cons.mp ht with rfl | ht
      · rw [(header_eq hfinalC (by omega) (by decide)).1]
        exact hcover.1
      · rw [List.mem_singleton] at ht
        subst ht
        exact Nat.zero_le _
  · intro t ht hkind
    rcases List.mem_append.mp ht with ht | ht
    · obtain ⟨t', ht', hsame, -⟩ := (visits_tags 0 (fixedTags env k initramfsLen)
        (fun t ht => (hfixed t ht).1) (by rw [hn]; omega) htags).2 t ht
      exact absurd (hsame.symm.trans hkind) (hfixed t' ht').2.1
    · rcases List.mem_cons.mp ht with rfl | ht
      · exact hfinalL
      · rw [List.mem_singleton] at ht
        subst ht
        exact absurd (show atagNone = atagCmdline from hkind) (by decide)

/-! ## Outside of the list -/

theorem stores_chain_get {m : Ram} {a d n x : ℕ} (tags : List (ℕ × List ℕ))
    (hx : n ≤ sub32 (x % 2 ^ 32) a) (hd : d + (tags.flatMap tagBytes).length ≤ n) :
    (Ram.stores m (chain (a + d) tags).2).get x = m.get x := by
  induction tags generalizing m d with
  | nil => rfl
  | cons t ts ih =>
    rw [List.flatMap_cons, List.length_append] at hd
    have hrest := ih (m := m.set (a + d) (tagBytes t)) (d := d + (tagBytes t).length) (by omega)
    rw [← Nat.add_assoc] at hrest
    exact hrest.trans (Ram.get_set_outside hx (by omega))

theorem endStored_get (env : Env) {stop a d n x : ℕ} (m : Ram)
    (hstop : ∀ (m' : Ram) bs, m'.set stop bs = m'.set (a + d) bs)
    (hx : n ≤ sub32 (x % 2 ^ 32) a) (hd : d + (debugPart env).length + 1 ≤ n) :
    (endStored env stop m).get x = m.get x := by
  have hlen : (debugPart env ++ [0]).length = (debugPart env).length + 1 := by
    rw [List.length_append, List.length_singleton]
  obtain ⟨m', heq, hm'⟩ := endStored_eq env stop m
  rw [heq, hstop, Ram.get_set_outside hx (by omega)]
  rcases hm' with rfl | rfl
  · rfl
  · rw [hstop]
    exact Ram.get_set_outside hx (by rw [List.length_singleton]; omega)

/-- Where the end of the command line is stored. -/
theorem stop_eq {m : Ram} {p : ℕ} {line : List Byte} (hline : m.bytes p line.length = line)
    (hnot : line.rdropWhile (· = 0x0a) ≠ []) (hlen : line.length < 2 ^ 32) (m' : Ram)
    (bs : List Byte) :
    m'.set (trimNewlines m (2 ^ 32) (p + line.length)) bs =
      m'.set (p + (line.rdropWhile (· = 0x0a)).length) bs := by
  obtain ⟨j, hstop⟩ := trimNewlines_eq hline hnot hlen (j := 0) hlen
  rw [Nat.zero_mul, Nat.add_zero] at hstop
  rw [hstop, ← Ram.set_mod, Nat.add_mul_mod_self_right, Ram.set_mod]

/-- `do_params` leaves the memory outside of its list alone. -/
theorem doParams_get {env : Env} {k : KernelSource} {rootfsAppend : List Byte} {x : ℕ}
    (initramfsLen : ℕ) (m : Ram) (hparts : LineParts env k rootfsAppend)
    (hnot : ∃ c ∈ commandline env k rootfsAppend, c ≠ 0x0a)
    (hfit : TagsFit env k rootfsAppend)
    (hx : (commandline env k rootfsAppend).length + (debugPart env).length + 96 ≤
      sub32 (x % 2 ^ 32) env.board.linuxTagPlacement) :
    (doParams env k initramfsLen rootfsAppend m).get x = m.get x := by
  obtain ⟨hn64, -, -, -⟩ := fixedTags_facts env k initramfsLen
  obtain ⟨n, hn⟩ : ∃ n, ((fixedTags env k initramfsLen).flatMap tagBytes).length = n := ⟨_, rfl⟩
  rw [hn] at hn64
  obtain ⟨-, hline⟩ := lineStored_bytes m hn hn64 hnot hfit
  have hprefix := (List.rdropWhile_prefix (fun c : Byte => decide (c = 0x0a))
    (l := commandline env k rootfsAppend)).length_le
  have hlong : (bootLine env k rootfsAppend).length ≤
      (commandline env k rootfsAppend).length + (debugPart env).length := by
    unfold bootLine
    rw [List.length_append]
    exact Nat.add_le_add_right hprefix _
  unfold TagsFit at hfit
  rw [← Nat.add_assoc] at hline
  have hcstr := cstrAt_eq hline hparts.bootLine
    (show (bootLine env k rootfsAppend).length < 2 ^ 32 by omega)
  have hlen8 : ∀ y z : ℕ, (le32 y ++ le32 z).length = 8 := fun y z => rfl
  rw [doParams_eq, paramTags_eq]
  dsimp only
  rw [chain_fst, hn, hcstr, Nat.add_assoc env.board.linuxTagPlacement n (4 * _),
    Ram.get_set_outside hx (by rw [hlen8]; omega), Ram.get_set_outside hx (by rw [hlen8]; omega)]
  clear hcstr hline
  unfold lineStored
  rw [paramTags_eq]
  dsimp only
  rw [chain_fst, hn]
  have hchain := stores_chain_get (m := m) (d := 0) (fixedTags env k initramfsLen) hx
    (by rw [hn]; omega)
  rw [Nat.add_zero] at hchain
  rw [← hchain]
  generalize Ram.stores m (chain env.board.linuxTagPlacement (fixedTags env k initramfsLen)).2 = base
  have htrim := rdropWhile_ne_nil hnot
  generalize commandline env k rootfsAppend = line at *
  have hend : (line ++ [(0 : Byte)]).length = line.length + 1 := by
    rw [List.length_append, List.length_singleton]
  have hstored : (base.set (env.board.linuxTagPlacement + n + 8) (line ++ [0])).bytes
      (env.board.linuxTagPlacement + n + 8) line.length = line := by
    rw [Ram.bytes_set_self (by omega) (by omega), List.take_left]
  have hsum : env.board.linuxTagPlacement + n + 8 = env.board.linuxTagPlacement + (n + 8) :=
    Nat.add_assoc _ _ _
  rw [endStored_get env _ (fun m' bs => ?_) hx
    (show n + 8 + (line.rdropWhile (· = 0x0a)).length + (debugPart env).length + 1 ≤ _ by omega)]
  · rw [hsum, Ram.get_set_outside hx (by omega)]
  · rw [stop_eq hstored htrim (by omega)]
    congr 1
    omega

/-- A board with the command line "\x20a", with a debug part and a file that ends in a
    newline. -/
def lineEnv : Env :=
  { workingEnv (fun _ => 0) [] with
    board := { (workingEnv (fun _ => 0) []).board with
      commandlineBoard := [0x20, 0x61], commandlineBoardDebug := some [0x64] }
    getUiDebug := some true }

/-- Its parts have no terminator. -/
theorem lineEnv_parts : LineParts lineEnv ext2Source [0x62, 0x0a] where
  board := by
    show ∀ c ∈ ([0x20, 0x61] : List Byte), c ≠ 0
    simp
  device := List.forall_mem_nil _
  source := List.forall_mem_nil _
  rootfs := by simp
  debug := by
    show ∀ c ∈ ([0x64] : List Byte), c ≠ 0
    simp

/-- Its tag list. -/
theorem lineEnv_tags :
    ∃ tags, TagList (doParams lineEnv ext2Source 0 [0x62, 0x0a] fun _ => 0)
      lineEnv.board.linuxTagPlacement (tagKinds ext2Source)
      (bootLine lineEnv ext2Source [0x62, 0x0a]) tags :=
  doParams_tags 0 (fun _ => 0) lineEnv_parts ⟨0x61, by decide, by decide⟩
    (by unfold TagsFit; decide)

end SmartQ.Qi
