import SmartQ.UBoot.Fat

/-!
# What a lookup does to the state

Apart from reading entries of the FAT and clusters into the cluster buffers, a lookup in the
FAT reader changes the bytes of these buffers and prints. A preorder on states that holds along
these steps holds along a whole lookup.

* `lookup_steps`: the rule for a whole lookup, and before it one for each function.
-/

namespace SmartQ.UBoot.Fat

open SmartQ.Lib

variable {H α β : Type}

/-- A preorder on states that the steps of a lookup keep to. -/
structure Frame (dev : BlockDev) (mydata : Fsdata) (R : St H → St H → Prop) : Prop where
  refl : ∀ s, R s s
  trans : ∀ s s' s'', R s s' → R s' s'' → R s s''
  block : ∀ s w b, s.block w = some b → ∀ byte,
    R s { s with block := Function.update s.block w (some { b with byte := byte }) }
  out : ∀ s out, R s { s with out := out }
  fatent : ∀ entry, Prog.Steps R (getFatent dev mydata entry)
  work : ∀ w start, Prog.Steps R (workRead dev w start mydata.clustSize)

section Reader

variable {dev : BlockDev} {mydata : Fsdata} {R : St H → St H → Prop} (hR : Frame dev mydata R)

include hR

theorem Frame.bind {x : FatM H α} {f : α → FatM H β} (hx : Prog.Steps R x)
    (hf : ∀ a, Prog.Steps R (f a)) : Prog.Steps R (x >>= f) :=
  Prog.Steps.bind hR.trans hx hf

theorem Frame.ret (a : α) : Prog.Steps R (pure a : FatM H α) := Prog.Steps.ret hR.refl a

theorem Frame.exit (e : Fault) : Prog.Steps R (Prog.exit e : FatM H α) :=
  Prog.Steps.exit hR.refl e

theorem Frame.get : Prog.Steps R (Prog.get : FatM H (St H)) := Prog.Steps.get hR.refl

theorem Frame.exitIf (c : Prop) [Decidable c] (e : Fault) :
    Prog.Steps R (Prog.exitIf c e : FatM H Unit) := Prog.Steps.exitIf hR.refl c e

theorem contents_steps (w : Work) : Prog.Steps R (contents w : FatM H Block) := by
  refine hR.bind hR.get ?_
  intro s
  cases s.block w with
  | none => exact hR.exit _
  | some b => exact hR.ret b

theorem getWorkCluster_steps (clustnum : ℕ) (w : Work) :
    Prog.Steps R (getWorkCluster dev mydata clustnum w : FatM H Bool) := by
  refine hR.bind (hR.work w _) ?_
  intro ret
  exact hR.ret _

theorem vfatnameEnd_steps (w : Work) (retdent k : ℕ) (real : Mem) (realdent : ℕ)
    (lName : List Byte) :
    Prog.Steps R (vfatnameEnd w retdent k real realdent lName : FatM H (List Byte)) := by
  intro s r s' h
  rw [vfatnameEnd, contents, Prog.bind_assoc, Prog.get_bind] at h
  cases hb : s.block w with
  | none =>
    rw [hb] at h
    cases h
    exact hR.refl _
  | some b =>
    rw [hb, Prog.ret_bind] at h
    cases hback : slotsBack b.byte k lName with
    | none =>
      rw [hback] at h
      cases h
      exact hR.refl _
    | some l =>
      rw [hback] at h
      rcases Prog.exitIf_bind h with ⟨-, -, rfl⟩ | ⟨-, h⟩
      · exact hR.refl _
      · cases h
        exact hR.block _ w b hb _

theorem getVfatname_steps (curclust : ℕ) (w : Work) (retdent : ℕ) :
    Prog.Steps R
      (getVfatname dev mydata curclust w retdent : FatM H (List Byte)) := by
  refine hR.bind (contents_steps hR w) ?_
  intro b
  simp only
  split
  · exact hR.ret _
  · split_ifs
    · exact vfatnameEnd_steps hR w _ _ _ _ _
    · refine hR.bind (hR.fatent _) ?_
      intro next
      split_ifs
      · exact hR.ret _
      · refine hR.bind (getWorkCluster_steps hR _ _) ?_
        intro ok
        split
        · refine hR.bind (contents_steps hR _) ?_
          intro b2
          split
          · exact hR.exit _
          · refine hR.bind (hR.exitIf _ _) ?_
            intro _
            exact vfatnameEnd_steps hR w _ _ _ _ _
        · exact hR.ret _

theorem say_steps (l : Line) : Prog.Steps R (say l : FatM H Unit) :=
  Prog.Steps.modify fun s => hR.out s _

theorem doIf_say_steps (c : Prop) [Decidable c] (l : Line) :
    Prog.Steps R (Prog.doIf c (say l) : FatM H Unit) :=
  Prog.Steps.doIf hR.refl c (say_steps hR l)

theorem lsEntry_steps (dent : DirEntry) (name : List Byte) (dirNamed : Bool) (t : Tally) :
    Prog.Steps R (lsEntry dent name dirNamed t : FatM H Tally) := by
  unfold lsEntry
  split_ifs
  · exact hR.ret _
  · exact hR.bind (say_steps hR _) fun _ => hR.ret _
  · exact hR.bind (say_steps hR _) fun _ => hR.ret _
  · exact hR.ret _

theorem dirEntryEnd_steps (filename : List Byte) (dols : Bool) (dent : DirEntry)
    (lName : List Byte) (t : Tally) :
    Prog.Steps R (dirEntryEnd filename dols dent lName t : FatM H Scan) := by
  unfold dirEntryEnd
  split_ifs
  · exact hR.bind (doIf_say_steps hR _ _) fun _ => hR.ret _
  · exact hR.ret _
  · exact hR.bind (lsEntry_steps hR _ _ _ _) fun _ => hR.ret _
  · exact hR.ret _
  · exact hR.ret _

theorem dirEntryStep_steps (curclust : ℕ) (filename : List Byte) (dols : Bool) (i : ℕ)
    (t : Tally) :
    Prog.Steps R
      (dirEntryStep dev mydata curclust filename dols i t : FatM H Scan) := by
  refine hR.bind (contents_steps hR _) ?_
  intro b
  refine hR.bind (hR.exitIf _ _) ?_
  intro _
  simp only
  split
  · exact hR.ret _
  · split
    · split
      · refine hR.bind (getVfatname_steps hR _ _ _) ?_
        intro lName
        refine hR.bind (contents_steps hR _) ?_
        intro b
        split
        · exact hR.bind (lsEntry_steps hR _ _ _ _) fun _ => hR.ret _
        · exact dirEntryEnd_steps hR _ _ _ _ _
      · exact hR.ret _
    · exact dirEntryEnd_steps hR _ _ _ _ _

theorem dirEntries_steps (curclust : ℕ) (filename : List Byte) (dols : Bool) (k : ℕ) :
    ∀ (i : ℕ) (t : Tally), Prog.Steps R
      (dirEntries dev mydata curclust filename dols k i t : FatM H Scan) := by
  induction k with
  | zero =>
    intro i t
    exact hR.ret _
  | succ k ih =>
    intro i t
    refine hR.bind (dirEntryStep_steps hR _ _ _ _ _) ?_
    intro r
    cases r with
    | next t => exact ih (i + 1) t
    | empty => exact hR.ret _
    | wrongType => exact hR.ret _
    | found dent => exact hR.ret _

theorem getDentfromdir_steps (filename : List Byte) (dols : Bool) (fuel : ℕ) :
    ∀ (curclust : ℕ) (t : Tally), Prog.Steps R
      (getDentfromdir dev mydata filename dols fuel curclust t : FatM H _) := by
  induction fuel with
  | zero =>
    intro curclust t
    exact hR.exit _
  | succ fuel ih =>
    intro curclust t
    refine hR.bind (getWorkCluster_steps hR _ _) ?_
    intro ok
    split
    · refine hR.bind (dirEntries_steps hR _ _ _ _ _ _) ?_
      intro r
      cases r with
      | found dent => exact hR.ret _
      | empty => exact hR.ret _
      | wrongType => exact hR.ret _
      | next t =>
        refine hR.bind (hR.fatent _) ?_
        intro next
        split
        · exact hR.ret _
        · exact ih next t
    · exact hR.ret _

theorem rootEntryStep_steps (fnamecopy : List Byte) (isdir lsRoot : Bool) (i : ℕ) (t : Tally) :
    Prog.Steps R
      (rootEntryStep dev mydata fnamecopy isdir lsRoot i t : FatM H Scan) := by
  refine hR.bind (contents_steps hR _) ?_
  intro b
  refine hR.bind (hR.exitIf _ _) ?_
  intro _
  simp only
  split
  · split
    · refine hR.bind (getVfatname_steps hR _ _ _) ?_
      intro lName
      refine hR.bind (contents_steps hR _) ?_
      intro b
      split
      · exact hR.bind (lsEntry_steps hR _ _ _ _) fun _ => hR.ret _
      · exact hR.ret _
    · exact hR.ret _
  · split
    · exact hR.bind (doIf_say_steps hR _ _) fun _ => hR.ret _
    · split
      · split
        · exact hR.ret _
        · exact hR.bind (lsEntry_steps hR _ _ _ _) fun _ => hR.ret _
      · exact hR.ret _

theorem rootEntries_steps (fnamecopy : List Byte) (isdir lsRoot : Bool) (k : ℕ) :
    ∀ (i : ℕ) (t : Tally), Prog.Steps R
      (rootEntries dev mydata fnamecopy isdir lsRoot k i t : FatM H Scan) := by
  induction k with
  | zero =>
    intro i t
    exact hR.ret _
  | succ k ih =>
    intro i t
    refine hR.bind (rootEntryStep_steps hR _ _ _ _ _) ?_
    intro r
    cases r with
    | next t => exact ih (i + 1) t
    | empty => exact hR.ret _
    | wrongType => exact hR.ret _
    | found dent => exact hR.ret _

theorem rootScan_steps (fnamecopy : List Byte) (isdir lsRoot : Bool) (fuel : ℕ) :
    ∀ (cursect : ℕ) (t : Tally), Prog.Steps R
      (rootScan dev mydata fnamecopy isdir lsRoot fuel cursect t : FatM H _) := by
  induction fuel with
  | zero =>
    intro cursect t
    exact hR.exit _
  | succ fuel ih =>
    intro cursect t
    refine hR.bind (hR.work _ _) ?_
    intro ret
    split
    · exact hR.ret _
    · refine hR.bind (rootEntries_steps hR _ _ _ _ _ _) ?_
      intro r
      cases r with
      | next t => exact ih (cursect + 1) t
      | empty => exact hR.ret _
      | wrongType => exact hR.ret _
      | found dent => exact hR.ret _

theorem walk_steps (dirFuel : ℕ) (dols : Bool) (fuel : ℕ) :
    ∀ (subname : List Byte) (firsttime : Bool) (dent : DirEntry),
      Prog.Steps R
        (walk dev mydata dirFuel dols fuel subname firsttime dent : FatM H _) := by
  induction fuel with
  | zero =>
    intro subname firsttime dent
    exact hR.exit _
  | succ fuel ih =>
    intro subname firsttime dent
    refine hR.bind (getDentfromdir_steps hR _ _ _ _ _) ?_
    intro r
    cases r with
    | none => exact hR.ret _
    | some dent =>
      cases hnext : afterDelim subname with
      | some rest =>
        simp only
        split
        · exact hR.ret _
        · exact ih _ _ _
      | none =>
        simp only
        split
        · exact ih _ _ _
        · exact hR.ret _

theorem lookup_steps (fuel : ℕ) (filename : List Byte) (dols : Bool) :
    Prog.Steps R (lookup dev mydata fuel filename dols : FatM H _) := by
  refine hR.bind (hR.exitIf _ _) ?_
  intro _
  simp only
  split
  · split
    · exact hR.ret _
    · exact rootScan_steps hR _ _ _ _ _ _
  · refine hR.bind (rootScan_steps hR _ _ _ _ _ _) ?_
    intro r
    cases r with
    | error ret => exact hR.ret _
    | ok dent =>
      simp only
      split
      · exact walk_steps hR _ _ _ _ _ _
      · exact hR.ret _

end Reader

end SmartQ.UBoot.Fat
