import SmartQ.UBoot.FatTable

/-!
# The ends of cluster chains

`get_vfatname`, `get_dentfromdir` and `get_contents` in `u-boot/fs/fat/fat.c` follow a chain of
clusters through the FAT. Each has its own limit for the entries that end a chain, and none
looks at the size of an entry.

* `vfatnameNext_eq_iff`, `dentfromdirNext_eq_iff`, `contentsNext_eq_iff`: the entries on which
  the limit of a walk is the one of the FAT.
* `walks_eq`: a walk that meets only such entries goes on and stops as the FAT says.
-/

namespace SmartQ.UBoot.Fat

open SmartQ.Lib

/-! ## Entries that name a cluster -/

/-- The mark of a bad cluster; what is above it ends a chain. -/
def badMark (fatsize : ℕ) : ℕ :=
  if fatsize = 32 then 0x0ffffff7 else if fatsize = 16 then 0xfff7 else 0xff7

/-- An entry without its reserved bits. -/
def cut (fatsize v : ℕ) : ℕ := if fatsize = 32 then v % 2 ^ 28 else v

/-- The entry is the number of a data cluster. -/
def Valid (fatsize v : ℕ) : Prop := 2 ≤ cut fatsize v ∧ cut fatsize v < badMark fatsize

instance (fatsize v : ℕ) : Decidable (Valid fatsize v) := inferInstanceAs (Decidable (_ ∧ _))

/-- The cluster a chain goes on with. -/
def chainNext (fatsize v : ℕ) : Option ℕ := if Valid fatsize v then some (cut fatsize v) else none

/-- The cluster `get_vfatname` goes on with (line 470). -/
def vfatnameNext (v : ℕ) : Option ℕ := if int32 v ≤ 1 ∨ 0xfffffff0 ≤ v then none else some v

/-- The cluster `get_dentfromdir` goes on with (line 667). -/
def dentfromdirNext (v : ℕ) : Option ℕ := if v ≤ 1 ∨ 0xfff0 ≤ v then none else some v

/-- The cluster `get_contents` goes on with (lines 358 and 393). -/
def contentsNext (v : ℕ) : Option ℕ := if v ≤ 1 ∨ 0xfffffff0 ≤ v then none else some v

/-- The entry is below the mark, or `get_vfatname` takes it for a negative number. -/
def VfatnameRight (fatsize v : ℕ) : Prop :=
  v < badMark fatsize ∨ 2 ^ 31 ≤ v ∧ ¬ Valid fatsize v

/-- The entry is below the limit of `get_dentfromdir`, and of 12 bits it is below the mark as
    well, or it names no cluster. -/
def DentfromdirRight (fatsize v : ℕ) : Prop :=
  if v < 0xfff0 then fatsize = 12 → v < badMark 12 else ¬ Valid fatsize v

/-- The entry is below the mark, or it ends a chain with all its reserved bits set. -/
def ContentsRight (fatsize v : ℕ) : Prop := v < badMark fatsize ∨ 0xfffffff7 ≤ v

section Entries

variable {fatsize v : ℕ}

theorem chainNext_twelve : chainNext 12 v = if 2 ≤ v ∧ v < 0xff7 then some v else none := rfl

theorem chainNext_sixteen : chainNext 16 v = if 2 ≤ v ∧ v < 0xfff7 then some v else none := rfl

theorem chainNext_thirtyTwo :
    chainNext 32 v =
      if 2 ≤ v % 2 ^ 28 ∧ v % 2 ^ 28 < 0x0ffffff7 then some (v % 2 ^ 28) else none := rfl

theorem ite_none_eq_iff {p q : Prop} [Decidable p] [Decidable q] {a b : ℕ} :
    (if p then none else some a) = (if q then some b else none) ↔
      (p ↔ ¬ q) ∧ (q → a = b) := by
  split_ifs with hp hq hq
  · simp [hp, hq]
  · simp [hp, hq]
  · simp [hp, hq]
  · simp [hp, hq]

theorem contentsNext_eq_iff (hsize : fatsize = 12 ∨ fatsize = 16 ∨ fatsize = 32)
    (hv : v < 2 ^ fatsize) :
    contentsNext v = chainNext fatsize v ↔ ContentsRight fatsize v := by
  unfold contentsNext ContentsRight badMark
  rcases hsize with rfl | rfl | rfl
  · rw [chainNext_twelve, ite_none_eq_iff, if_neg (by decide), if_neg (by decide)]
    omega
  · rw [chainNext_sixteen, ite_none_eq_iff, if_neg (by decide), if_pos rfl]
    omega
  · rw [chainNext_thirtyTwo, ite_none_eq_iff, if_pos rfl]
    omega

theorem dentfromdirNext_eq_iff (hsize : fatsize = 12 ∨ fatsize = 16 ∨ fatsize = 32)
    (hv : v < 2 ^ fatsize) :
    dentfromdirNext v = chainNext fatsize v ↔ DentfromdirRight fatsize v := by
  unfold dentfromdirNext DentfromdirRight Valid cut badMark
  rcases hsize with rfl | rfl | rfl
  · rw [chainNext_twelve, ite_none_eq_iff]
    split_ifs <;> omega
  · rw [chainNext_sixteen, ite_none_eq_iff]
    split_ifs <;> omega
  · rw [chainNext_thirtyTwo, ite_none_eq_iff]
    split_ifs <;> omega

theorem vfatnameNext_eq_iff (hsize : fatsize = 12 ∨ fatsize = 16 ∨ fatsize = 32)
    (hv : v < 2 ^ fatsize) :
    vfatnameNext v = chainNext fatsize v ↔ VfatnameRight fatsize v := by
  unfold vfatnameNext VfatnameRight Valid cut badMark int32
  rcases hsize with rfl | rfl | rfl
  · rw [chainNext_twelve, ite_none_eq_iff]
    split_ifs <;> omega
  · rw [chainNext_sixteen, ite_none_eq_iff]
    split_ifs <;> omega
  · rw [chainNext_thirtyTwo, ite_none_eq_iff]
    split_ifs <;> omega

end Entries

/-! ## Walks

The walks of the reader, with `next` for the test of an entry. -/

section Walks

variable {H : Type} (dev : BlockDev) (mydata : Fsdata) (next : ℕ → Option ℕ)

/-- `get_vfatname`, with the way from a cluster to the next one as a parameter. -/
def vfatnameBy (curclust : ℕ) (w : Work) (retdent : ℕ) : FatM H (List Byte) := do
  let b ← contents w
  let nextclust := mydata.clustBytes
  match slotRun b.byte nextclust (slotId b.byte retdent) retdent with
  | none => pure []
  | some slotptr =>
    if slotptr < nextclust then vfatnameEnd w retdent (slotptr / 32) b.byte slotptr []
    else do
      match next (← getFatent dev mydata curclust) with
      | none => pure []
      | some curclust => do
        let ok ← getWorkCluster dev mydata curclust .getVfatname
        if ok then do
          let b2 ← contents .getVfatname
          match slotEnd b2.byte (b2.size / 32) 0 with
          | none => Prog.exit .wild
          | some slotptr2 => do
            Prog.exitIf (b2.size < slotptr2 + 64) .wild
            vfatnameEnd w retdent (slotptr / 32 - 1) b2.byte (slotptr2 + 32)
              (slotsDown b2.byte (slotptr2 / 32 + 1) [])
        else pure []

/-- `get_dentfromdir`, with the way from a cluster to the next one as a parameter. -/
def dentfromdirBy (filename : List Byte) (dols : Bool) :
    (fuel curclust : ℕ) → Tally → FatM H (Option DirEntry)
  | 0, _, _ => Prog.exit .unfinished
  | fuel + 1, curclust, t => do
    let ok ← getWorkCluster dev mydata curclust .getDentfromdir
    if ok then
      match ← dirEntries dev mydata curclust filename dols (mydata.clustBytes / 32) 0 t with
      | .found dent => pure (some dent)
      | .next t => do
        match next (← getFatent dev mydata curclust) with
        | none => pure none
        | some curclust => dentfromdirBy filename dols fuel curclust t
      | _ => pure none
    else pure none

/-- The inner loop of `get_contents`. -/
def consecutiveBy (filesize : ℕ) : (fuel endclust actsize : ℕ) → FatM H Run
  | 0, _, _ => Prog.exit .unfinished
  | fuel + 1, endclust, actsize =>
    if actsize < filesize then do
      let newclust ← getFatent dev mydata endclust
      if toU32 ((newclust : ℤ) - 1) ≠ endclust then pure (.getit endclust actsize)
      else match next newclust with
        | none => pure .bad
        | some newclust =>
          consecutiveBy filesize fuel newclust ((actsize + mydata.clustBytes) % 2 ^ 32)
    else pure (.whole endclust actsize)

/-- The outer loop of `get_contents`, with the way from a cluster to the next one as a
    parameter. -/
def contentsLoopBy (runFuel : ℕ) : (fuel curclust filesize off gotsize : ℕ) → FatM H ℤ
  | 0, _, _, _, _ => Prog.exit .unfinished
  | fuel + 1, curclust, filesize, off, gotsize => do
    match ← consecutiveBy dev mydata next filesize runFuel curclust mydata.clustBytes with
    | .bad => pure (int32 gotsize)
    | .whole endclust actsize => do
      let actsize := toU32 ((actsize : ℤ) - mydata.clustBytes)
      let ok ← getCluster dev mydata curclust off actsize
      if ok then do
        let rest := toU32 ((filesize : ℤ) - actsize)
        let ok ← getCluster dev mydata endclust (off + actsize) rest
        pure (if ok then int32 (gotsize + actsize + rest) else -1)
      else pure (-1)
    | .getit endclust actsize => do
      let ok ← getCluster dev mydata curclust off actsize
      if ok then do
        let gotsize := gotsize + actsize
        match next (← getFatent dev mydata endclust) with
        | none => pure (int32 gotsize)
        | some curclust =>
          contentsLoopBy runFuel fuel curclust (filesize - actsize) (off + actsize) gotsize
      else pure (-1)

/-- `get_contents`, with the way from a cluster to the next one as a parameter. -/
def contentsBy (fuel : ℕ) (dent : DirEntry) (maxsize : ℕ) : FatM H ℤ :=
  contentsLoopBy dev mydata next fuel fuel (dent.first mydata.fatsize)
    (if 0 < maxsize ∧ maxsize < dent.size then maxsize else dent.size) 0 0

/-! ### The entries a walk meets -/

variable (P : ℕ → Prop)

/-- The entry `get_vfatname` looks up where a name goes on in the next cluster has `P`. -/
def VfatnameMeets (curclust : ℕ) (w : Work) (retdent : ℕ) (s : St H) : Prop :=
  ∀ b slotptr v s', s.block w = some b →
    slotRun b.byte mydata.clustBytes (slotId b.byte retdent) retdent = some slotptr →
    mydata.clustBytes ≤ slotptr → getFatent dev mydata curclust s = some (.ok v, s') → P v

/-- The entries `get_dentfromdir` looks up behind the clusters of a directory have `P`. -/
def DentfromdirMeets (filename : List Byte) (dols : Bool) :
    (fuel curclust : ℕ) → Tally → St H → Prop
  | 0, _, _, _ => True
  | fuel + 1, curclust, t, s => ∀ s1 t' s2 v s3,
    getWorkCluster dev mydata curclust .getDentfromdir s = some (.ok true, s1) →
    dirEntries dev mydata curclust filename dols (mydata.clustBytes / 32) 0 t s1 =
      some (.ok (.next t'), s2) →
    getFatent dev mydata curclust s2 = some (.ok v, s3) →
      P v ∧ ∀ c, next v = some c → DentfromdirMeets filename dols fuel c t' s3

/-- The entries on which the inner loop of `get_contents` goes on or stops have `P`. -/
def ConsecutiveMeets (filesize : ℕ) : (fuel endclust actsize : ℕ) → St H → Prop
  | 0, _, _, _ => True
  | fuel + 1, endclust, actsize, s => ∀ v s', actsize < filesize →
    getFatent dev mydata endclust s = some (.ok v, s') → toU32 ((v : ℤ) - 1) = endclust →
      P v ∧ ∀ c, next v = some c →
        ConsecutiveMeets filesize fuel c ((actsize + mydata.clustBytes) % 2 ^ 32) s'

/-- The entries on which `get_contents` goes on or stops have `P`. -/
def ContentsLoopMeets (runFuel : ℕ) : (fuel curclust filesize off : ℕ) → St H → Prop
  | 0, _, _, _, _ => True
  | fuel + 1, curclust, filesize, off, s =>
    ConsecutiveMeets dev mydata next P filesize runFuel curclust mydata.clustBytes s ∧
    ∀ endclust actsize s1 s2 v s3,
      consecutiveBy dev mydata next filesize runFuel curclust mydata.clustBytes s =
        some (.ok (.getit endclust actsize), s1) →
      getCluster dev mydata curclust off actsize s1 = some (.ok true, s2) →
      getFatent dev mydata endclust s2 = some (.ok v, s3) →
        P v ∧ ∀ c, next v = some c →
          ContentsLoopMeets runFuel fuel c (filesize - actsize) (off + actsize) s3

/-- The condition on the entries met holds along the run of `get_contents` that reads the file. -/
def ContentsMeets (fuel : ℕ) (dent : DirEntry) (maxsize : ℕ) (s : St H) : Prop :=
  ContentsLoopMeets dev mydata next P fuel fuel (dent.first mydata.fatsize)
    (if 0 < maxsize ∧ maxsize < dent.size then maxsize else dent.size) 0 s

end Walks

/-! ## The walks of the code -/

section Code

variable {H : Type} {dev : BlockDev} {mydata : Fsdata}

theorem getVfatname_eq (curclust : ℕ) (w : Work) (retdent : ℕ) :
    (getVfatname dev mydata curclust w retdent : FatM H _) =
      vfatnameBy dev mydata vfatnameNext curclust w retdent := by
  unfold getVfatname vfatnameBy
  refine bind_congr fun b => ?_
  cases hrun : slotRun b.byte mydata.clustBytes (slotId b.byte retdent) retdent with
  | none => simp only [hrun]
  | some slotptr =>
    simp only [hrun]
    by_cases hlt : slotptr < mydata.clustBytes
    · rw [if_pos hlt, if_pos hlt]
    · rw [if_neg hlt, if_neg hlt]
      refine bind_congr fun v => ?_
      by_cases hstop : int32 (v : ℤ) ≤ 1 ∨ 0xfffffff0 ≤ v
      · rw [vfatnameNext, if_pos hstop, if_pos hstop]
      · have hnext : vfatnameNext v = some v := if_neg hstop
        rw [if_neg hstop]
        exact hnext ▸ rfl

theorem getDentfromdir_eq (filename : List Byte) (dols : Bool) (fuel : ℕ) :
    ∀ (curclust : ℕ) (t : Tally),
      (getDentfromdir dev mydata filename dols fuel curclust t : FatM H _) =
        dentfromdirBy dev mydata dentfromdirNext filename dols fuel curclust t := by
  induction fuel with
  | zero => exact fun _ _ => rfl
  | succ fuel ih =>
    intro curclust t
    unfold getDentfromdir dentfromdirBy dentfromdirNext
    congr
    funext ok
    split_ifs
    · congr
      funext r
      cases r with
      | next t =>
        simp only
        congr
        funext v
        split_ifs
        · rfl
        · exact ih v t
      | empty => rfl
      | wrongType => rfl
      | found dent => rfl
    · rfl

theorem consecutive_eq (filesize fuel : ℕ) :
    ∀ endclust actsize : ℕ,
      (consecutive dev mydata filesize fuel endclust actsize : FatM H _) =
        consecutiveBy dev mydata contentsNext filesize fuel endclust actsize := by
  induction fuel with
  | zero => exact fun _ _ => rfl
  | succ fuel ih =>
    intro endclust actsize
    unfold consecutive consecutiveBy contentsNext
    split_ifs
    · congr
      funext v
      split_ifs
      · rfl
      · rfl
      · exact ih v _
    · rfl

theorem contentsLoop_eq (runFuel fuel : ℕ) :
    ∀ curclust filesize off gotsize : ℕ,
      (contentsLoop dev mydata runFuel fuel curclust filesize off gotsize : FatM H _) =
        contentsLoopBy dev mydata contentsNext runFuel fuel curclust filesize off gotsize := by
  induction fuel with
  | zero => exact fun _ _ _ _ => rfl
  | succ fuel ih =>
    intro curclust filesize off gotsize
    unfold contentsLoop contentsLoopBy
    rw [consecutive_eq]
    congr
    funext r
    cases r with
    | bad => rfl
    | whole endclust actsize => rfl
    | getit endclust actsize =>
      simp only
      congr
      funext ok
      split_ifs
      · congr
        funext v
        unfold contentsNext
        split_ifs
        · rfl
        · exact ih v _ _ _
      · rfl

end Code

/-! ## Walks that meet the same ends -/

section Agree

variable {H : Type} {dev : BlockDev} {mydata : Fsdata} {next next' : ℕ → Option ℕ}
  {P : ℕ → Prop}
  (hagree : ∀ c v (s s' : St H), getFatent dev mydata c s = some (.ok v, s') → P v →
    next v = next' v)

include hagree

theorem vfatnameBy_congr {curclust : ℕ} {w : Work} {retdent : ℕ} {s : St H}
    (h : VfatnameMeets dev mydata P curclust w retdent s) :
    vfatnameBy dev mydata next curclust w retdent s =
      vfatnameBy dev mydata next' curclust w retdent s := by
  unfold vfatnameBy
  apply Prog.bind_congr_right
  intro b s1 hb
  obtain ⟨hblock, rfl⟩ : s.block w = some b ∧ s1 = s := by
    rw [contents, Prog.get_bind] at hb
    cases hw : s.block w with
    | none =>
      rw [hw] at hb
      cases hb
    | some b' =>
      rw [hw] at hb
      cases hb
      exact ⟨rfl, rfl⟩
  cases hrun : slotRun b.byte mydata.clustBytes (slotId b.byte retdent) retdent with
  | none => rfl
  | some slotptr =>
    simp only
    by_cases hlt : slotptr < mydata.clustBytes
    · rw [if_pos hlt, if_pos hlt]
    · rw [if_neg hlt, if_neg hlt]
      apply Prog.bind_congr_right
      intro v s2 hv
      rw [hagree _ _ _ _ hv (h b slotptr v s2 hblock hrun (Nat.le_of_not_lt hlt) hv)]

theorem dentfromdirBy_congr (filename : List Byte) (dols : Bool) (fuel : ℕ) :
    ∀ (curclust : ℕ) (t : Tally) (s : St H),
      DentfromdirMeets dev mydata next P filename dols fuel curclust t s →
      dentfromdirBy dev mydata next filename dols fuel curclust t s =
        dentfromdirBy dev mydata next' filename dols fuel curclust t s := by
  induction fuel with
  | zero => exact fun _ _ _ _ => rfl
  | succ fuel ih =>
    intro curclust t s h
    unfold dentfromdirBy
    apply Prog.bind_congr_right
    intro ok s1 hread
    cases ok with
    | false => rfl
    | true =>
      rw [if_pos rfl, if_pos rfl]
      apply Prog.bind_congr_right
      intro r s2 hscan
      cases r with
      | next t' =>
        apply Prog.bind_congr_right
        intro v s3 hv
        obtain ⟨hp, hrest⟩ := h s1 t' s2 v s3 hread hscan hv
        rw [← hagree _ _ _ _ hv hp]
        cases hnext : next v with
        | none => rfl
        | some c => exact ih c t' s3 (hrest c hnext)
      | empty => rfl
      | wrongType => rfl
      | found dent => rfl

theorem consecutiveBy_congr (filesize fuel : ℕ) :
    ∀ (endclust actsize : ℕ) (s : St H),
      ConsecutiveMeets dev mydata next P filesize fuel endclust actsize s →
      consecutiveBy dev mydata next filesize fuel endclust actsize s =
        consecutiveBy dev mydata next' filesize fuel endclust actsize s := by
  induction fuel with
  | zero => exact fun _ _ _ _ => rfl
  | succ fuel ih =>
    intro endclust actsize s h
    unfold consecutiveBy
    by_cases hmore : actsize < filesize
    · rw [if_pos hmore, if_pos hmore]
      apply Prog.bind_congr_right
      intro v s1 hv
      by_cases hgap : toU32 ((v : ℤ) - 1) ≠ endclust
      · rw [if_pos hgap, if_pos hgap]
      · rw [if_neg hgap, if_neg hgap]
        obtain ⟨hp, hrest⟩ := h v s1 hmore hv (not_not.mp hgap)
        rw [← hagree _ _ _ _ hv hp]
        cases hnext : next v with
        | none => rfl
        | some c => exact ih c _ s1 (hrest c hnext)
    · rw [if_neg hmore, if_neg hmore]

theorem contentsLoopBy_congr (runFuel fuel : ℕ) :
    ∀ (curclust filesize off gotsize : ℕ) (s : St H),
      ContentsLoopMeets dev mydata next P runFuel fuel curclust filesize off s →
      contentsLoopBy dev mydata next runFuel fuel curclust filesize off gotsize s =
        contentsLoopBy dev mydata next' runFuel fuel curclust filesize off gotsize s := by
  induction fuel with
  | zero => exact fun _ _ _ _ _ _ => rfl
  | succ fuel ih =>
    intro curclust filesize off gotsize s h
    obtain ⟨hinner, hgaps⟩ := h
    unfold contentsLoopBy
    rw [Prog.bind_congr (consecutiveBy_congr hagree filesize runFuel _ _ s hinner).symm]
    apply Prog.bind_congr_right
    intro r s1 hrun
    cases r with
    | bad => rfl
    | whole endclust actsize => rfl
    | getit endclust actsize =>
      apply Prog.bind_congr_right
      intro ok s2 hread
      cases ok with
      | false => rfl
      | true =>
        rw [if_pos rfl, if_pos rfl]
        apply Prog.bind_congr_right
        intro v s3 hv
        obtain ⟨hp, hrest⟩ := hgaps endclust actsize s1 s2 v s3 hrun hread hv
        rw [← hagree _ _ _ _ hv hp]
        cases hnext : next v with
        | none => rfl
        | some c => exact ih c _ _ _ s3 (hrest c hnext)

end Agree

/-! ## The ends the code finds -/

section Ends

variable {H : Type} {dev : BlockDev} {mydata : Fsdata}

theorem fatEntry_lt (hsize : mydata.fatsize = 12 ∨ mydata.fatsize = 16 ∨ mydata.fatsize = 32)
    (m : Mem) (o : ℕ) : fatEntry mydata.fatsize m o < 2 ^ mydata.fatsize := by
  rcases hsize with htype | htype | htype
  · have hword := mem16_lt m (3 * o / 2)
    rw [htype, fatEntry_twelve]
    split_ifs <;> omega
  · rw [htype]
    exact mem16_lt m (2 * o)
  · rw [htype]
    exact mem32_lt m (4 * o)

/-- What `get_fatent` returns has no more bits than an entry. -/
theorem getFatent_lt (hsize : mydata.fatsize = 12 ∨ mydata.fatsize = 16 ∨ mydata.fatsize = 32)
    {c v : ℕ} {s s' : St H} (h : getFatent dev mydata c s = some (.ok v, s')) :
    v < 2 ^ mydata.fatsize := by
  have htype : ¬ (mydata.fatsize ≠ 32 ∧ mydata.fatsize ≠ 16 ∧ mydata.fatsize ≠ 12) := by
    omega
  unfold getFatent at h
  rw [if_neg htype] at h
  obtain ⟨ok, s1, -, hrest⟩ := Prog.bind_eq_ok.mp h
  rw [Prog.get_bind] at hrest
  cases hrest
  split_ifs
  · exact fatEntry_lt hsize _ _
  · exact Nat.two_pow_pos _

/-- A walk that meets only entries on which its limit is right goes on and stops as the FAT
    says. -/
theorem walks_eq (dev : BlockDev) (mydata : Fsdata)
    (hsize : mydata.fatsize = 12 ∨ mydata.fatsize = 16 ∨ mydata.fatsize = 32) (s : St H) :
    (∀ curclust w retdent,
      VfatnameMeets dev mydata (VfatnameRight mydata.fatsize) curclust w retdent s →
      getVfatname dev mydata curclust w retdent s =
        vfatnameBy dev mydata (chainNext mydata.fatsize) curclust w retdent s) ∧
    (∀ filename dols fuel curclust t,
      DentfromdirMeets dev mydata dentfromdirNext (DentfromdirRight mydata.fatsize) filename
        dols fuel curclust t s →
      getDentfromdir dev mydata filename dols fuel curclust t s =
        dentfromdirBy dev mydata (chainNext mydata.fatsize) filename dols fuel curclust t s) ∧
    ∀ fuel dent maxsize,
      ContentsMeets dev mydata contentsNext (ContentsRight mydata.fatsize) fuel dent maxsize s →
      getContents dev mydata fuel dent maxsize s =
        contentsBy dev mydata (chainNext mydata.fatsize) fuel dent maxsize s := by
  refine ⟨fun curclust w retdent h => ?_, fun filename dols fuel curclust t h => ?_,
    fun fuel dent maxsize h => ?_⟩
  · rw [getVfatname_eq]
    exact vfatnameBy_congr (fun c v s s' hv hp =>
      (vfatnameNext_eq_iff hsize (getFatent_lt hsize hv)).mpr hp) h
  · rw [getDentfromdir_eq]
    exact dentfromdirBy_congr (fun c v s s' hv hp =>
      (dentfromdirNext_eq_iff hsize (getFatent_lt hsize hv)).mpr hp) _ _ _ _ _ _ h
  · unfold getContents
    rw [contentsLoop_eq]
    exact contentsLoopBy_congr (fun c v s s' hv hp =>
      (contentsNext_eq_iff hsize (getFatent_lt hsize hv)).mpr hp) _ _ _ _ _ _ _ h

/-! ### Examples -/

/-- A card whose FAT has 12 bits an entry; the entry of cluster 2 is `v`. -/
def entryDisk (v : ℕ) : Disk := fun i =>
  if i = 515 then UInt8.ofNat v else if i = 516 then UInt8.ofNat (v / 2 ^ 8) else 0

/-- A file of two clusters, the first one cluster 2. -/
def twoClusters : DirEntry := ⟨[], [], 0, 0, 2, 1024⟩

theorem contentsMeets_entryDisk :
    ContentsMeets (cardDev (entryDisk 3)) (oneSector 12) contentsNext (ContentsRight 12) 3
      twoClusters 0 St.fresh := by
  refine ⟨fun v s' _ hv _ => ?_, fun endclust actsize s1 s2 v s3 hrun => ?_⟩
  · have hentry : getFatent (cardDev (entryDisk 3)) (oneSector 12) 2 St.fresh =
        some (.ok 3, _) := rfl
    obtain rfl : v = 3 := by
      have heq := hentry.symm.trans hv
      cases heq
      rfl
    refine ⟨.inl (by decide), fun c hc v' s'' hmore => ?_⟩
    exact absurd hmore (by decide)
  · have hwhole : consecutiveBy (cardDev (entryDisk 3)) (oneSector 12) contentsNext 1024 3 2 512
        St.fresh = some (.ok (.whole 3 1024), _) := rfl
    have heq := hwhole.symm.trans hrun
    cases heq

/-- The file whose cluster 2 leads to cluster 3. -/
theorem walks_twoClusters :
    getContents (cardDev (entryDisk 3)) (oneSector 12) 3 twoClusters 0 St.fresh =
      contentsBy (cardDev (entryDisk 3)) (oneSector 12) (chainNext 12) 3 twoClusters 0 St.fresh :=
  (walks_eq (cardDev (entryDisk 3)) (oneSector 12) (.inl rfl) St.fresh).2.2 3 twoClusters 0
    contentsMeets_entryDisk

/-- The file whose cluster 2 is the last one of its chain: `get_contents` goes on with the end
    mark as a cluster. -/
theorem not_walks_endMark :
    ¬ ∀ (dev : BlockDev) (mydata : Fsdata) (s : St Unit) (fuel : ℕ) (dent : DirEntry)
      (maxsize : ℕ), mydata.fatsize = 12 →
      getContents dev mydata fuel dent maxsize s =
        contentsBy dev mydata (chainNext mydata.fatsize) fuel dent maxsize s := by
  intro h
  have hcode : (getContents (cardDev (entryDisk 0xff8)) (oneSector 12) 3 twoClusters 0
      St.fresh).map (fun p => p.1.toOption) = some (some 1024) := by decide +kernel
  have hchain : (contentsBy (cardDev (entryDisk 0xff8)) (oneSector 12) (chainNext 12) 3
      twoClusters 0 St.fresh).map (fun p => p.1.toOption) = some (some 512) := by decide +kernel
  rw [h (cardDev (entryDisk 0xff8)) (oneSector 12) St.fresh 3 twoClusters 0 rfl] at hcode
  exact absurd (hcode.symm.trans hchain) (by decide)

end Ends

end SmartQ.UBoot.Fat
