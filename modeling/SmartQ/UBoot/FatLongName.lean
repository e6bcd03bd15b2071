import Mathlib.Data.List.TakeWhile
import SmartQ.UBoot.FatTable

/-!
# Assembling a long name

`get_vfatname` in `u-boot/fs/fat/fat.c` takes a long name from the slots in front of a directory
entry: it counts them off forwards, perhaps into the next cluster, and reads the name backwards
into the 256 bytes of its caller. Numbers, end marks and characters come from the card.

* `bounded_iff`: when it stays inside the cluster that is loaded and inside the name.
* `fits_of_counted`: up to 19 slots counted off inside a cluster always do.
-/

namespace SmartQ.UBoot.Fat

open SmartQ.Lib

/-! ## Slots -/

section Slots

variable (m : Mem)

/-- The characters of slot `j` before its terminator. -/
def slotLen (j : ℕ) : ℕ := ((slotChars m (32 * j)).takeWhile (· ≠ 0)).length

/-- A name that is read backwards ends at slot `j`. -/
def Ends (j : ℕ) : Prop := 0 ∈ slotChars m (32 * j) ∨ slotIsLast m (32 * j) = true

/-- Behind `pre` characters there is room for those of the slots below slot `k`, back to the first
    one that ends the name; there is such a slot. -/
def Fits (k pre : ℕ) : Prop :=
  ∃ j < k, Ends m j ∧ (∀ i, j < i → i < k → ¬ Ends m i) ∧
    pre + 13 * (k - 1 - j) + slotLen m j ≤ 255

/-- The `n` slots from slot `i` on count down. -/
def InOrder (i n : ℕ) : Prop := ∀ j < n, slotId m (32 * (i + j)) = slotId m (32 * i) - j

instance (j : ℕ) : Decidable (Ends m j) := inferInstanceAs (Decidable (_ ∨ _))

variable {m}

theorem slot2str_eq (j : ℕ) (lName : List Byte) :
    slot2str m (32 * j) lName =
      (decide (0 ∈ slotChars m (32 * j)),
        lName ++ (slotChars m (32 * j)).takeWhile (· ≠ 0)) := rfl

theorem slotLen_of_not_ends {j : ℕ} (h : ¬ Ends m j) : slotLen m j = 13 := by
  have hzero : ∀ c ∈ slotChars m (32 * j), decide (c ≠ 0) = true := by
    intro c hc
    apply decide_eq_true
    intro h0
    exact h (.inl (h0 ▸ hc))
  unfold slotLen
  rw [List.takeWhile_eq_self_iff.mpr hzero]
  rfl

theorem zero_notMem_takeWhile (l : List Byte) : 0 ∉ l.takeWhile (· ≠ 0) := by
  intro h
  have hne := List.mem_takeWhile_imp h
  simp at hne

/-- The loop back from slot `k` to the first slot of a name. -/
theorem slotsBack_succ (k : ℕ) (lName : List Byte) :
    slotsBack m (k + 1) lName =
      if Ends m k then some (lName ++ (slotChars m (32 * k)).takeWhile (· ≠ 0))
      else slotsBack m k (lName ++ (slotChars m (32 * k)).takeWhile (· ≠ 0)) := by
  rw [slotsBack, slot2str_eq]
  by_cases hends : Ends m k
  · have hstop : (decide (0 ∈ slotChars m (32 * k)) || slotIsLast m (32 * k)) = true := by
      rw [Bool.or_eq_true, decide_eq_true_eq]
      exact hends
    rw [if_pos hends]
    exact if_pos hstop
  · have hgo : ¬ (decide (0 ∈ slotChars m (32 * k)) || slotIsLast m (32 * k)) = true := by
      rw [Bool.or_eq_true, decide_eq_true_eq]
      exact hends
    rw [if_neg hends]
    exact if_neg hgo

/-- It finds a name with room exactly if the slots fit. -/
theorem slotsBack_iff (k : ℕ) :
    ∀ lName : List Byte, (∃ name, slotsBack m k lName = some name ∧ name.length ≤ 255) ↔
      Fits m k lName.length := by
  induction k with
  | zero =>
    intro lName
    constructor
    · rintro ⟨name, hname, -⟩
      cases hname
    · rintro ⟨j, hj, -⟩
      exact absurd hj (Nat.not_lt_zero j)
  | succ k ih =>
    intro lName
    rw [slotsBack_succ]
    by_cases hends : Ends m k
    · rw [if_pos hends]
      constructor
      · rintro ⟨name, hname, hlen⟩
        cases hname
        rw [List.length_append] at hlen
        refine ⟨k, Nat.lt_succ_self k, hends, fun i hlow hhigh => by omega, ?_⟩
        unfold slotLen
        omega
      · rintro ⟨j, hj, -, hbetween, hlen⟩
        obtain rfl : j = k := by
          by_contra hne
          exact hbetween k (by omega) (Nat.lt_succ_self k) hends
        refine ⟨_, rfl, ?_⟩
        unfold slotLen at hlen
        rw [List.length_append]
        omega
    · have hfull := slotLen_of_not_ends hends
      unfold slotLen at hfull
      rw [if_neg hends, ih, List.length_append, hfull]
      constructor
      · rintro ⟨j, hj, hj', hbetween, hlen⟩
        refine ⟨j, by omega, hj', fun i hlow hhigh => ?_, by omega⟩
        by_cases hik : i = k
        · exact hik ▸ hends
        · exact hbetween i hlow (by omega)
      · rintro ⟨j, hj, hj', hbetween, hlen⟩
        have hjk : j ≠ k := fun h => hends (h ▸ hj')
        exact ⟨j, by omega, hj', fun i hlow hhigh => hbetween i hlow (by omega), by omega⟩

theorem slotsBack_zero_notMem (k : ℕ) :
    ∀ lName name : List Byte, slotsBack m k lName = some name → 0 ∉ lName → 0 ∉ name := by
  induction k with
  | zero =>
    intro lName name hname
    cases hname
  | succ k ih =>
    intro lName name hname hzero
    have happend : 0 ∉ lName ++ (slotChars m (32 * k)).takeWhile (· ≠ 0) := by
      rw [List.mem_append, not_or]
      exact ⟨hzero, zero_notMem_takeWhile _⟩
    rw [slotsBack_succ] at hname
    split_ifs at hname
    · cases hname
      exact happend
    · exact ih _ _ hname happend

/-- The characters of the slots of the second cluster. -/
theorem slotsDown_length (k : ℕ) :
    ∀ lName : List Byte, (slotsDown m k lName).length =
      lName.length + ∑ j ∈ Finset.range k, slotLen m j := by
  induction k with
  | zero => exact fun _ => rfl
  | succ k ih =>
    intro lName
    rw [slotsDown, ih, slot2str_eq, List.length_append, Finset.sum_range_succ, slotLen]
    omega

theorem slotsDown_zero_notMem (k : ℕ) :
    ∀ lName : List Byte, 0 ∉ lName → 0 ∉ slotsDown m k lName := by
  induction k with
  | zero => exact fun _ h => h
  | succ k ih =>
    intro lName hzero
    apply ih
    rw [slot2str_eq, List.mem_append, not_or]
    exact ⟨hzero, zero_notMem_takeWhile _⟩

/-- The slots of a name are counted off to the first one, or to the end of the cluster. -/
theorem slotRun_eq (counter : ℕ) :
    ∀ i L : ℕ, i ≤ L →
      ((∀ j < min counter (L - i), slotId m (32 * (i + j)) = counter - j) →
        slotRun m (32 * L) counter (32 * i) = some (32 * (i + min counter (L - i)))) ∧
      ((¬ ∀ j < min counter (L - i), slotId m (32 * (i + j)) = counter - j) →
        slotRun m (32 * L) counter (32 * i) = none) := by
  induction counter with
  | zero =>
    intro i L hi
    rw [Nat.zero_min]
    refine ⟨fun _ => rfl, fun h => ?_⟩
    exact absurd (fun j hj => absurd hj (Nat.not_lt_zero j)) h
  | succ counter ih =>
    intro i L hi
    rw [slotRun]
    by_cases hend : i = L
    · subst hend
      rw [Nat.sub_self, Nat.min_zero, if_neg (lt_irrefl _)]
      refine ⟨fun _ => rfl, fun h => ?_⟩
      exact absurd (fun j hj => absurd hj (Nat.not_lt_zero j)) h
    · have hmin : min (counter + 1) (L - i) = min counter (L - (i + 1)) + 1 := by omega
      obtain ⟨hyes, hno⟩ := ih (i + 1) L (by omega)
      rw [if_pos (show 32 * i < 32 * L by omega), show 32 * i + 32 = 32 * (i + 1) by ring, hmin]
      have hshift : (∀ j < min counter (L - (i + 1)) + 1,
          slotId m (32 * (i + j)) = counter + 1 - j) ↔
          slotId m (32 * i) = counter + 1 ∧
            ∀ j < min counter (L - (i + 1)), slotId m (32 * (i + 1 + j)) = counter - j := by
        constructor
        · intro h
          refine ⟨h 0 (Nat.succ_pos _), fun j hj => ?_⟩
          have hj := h (j + 1) (by omega)
          rw [show i + (j + 1) = i + 1 + j by omega] at hj
          omega
        · rintro ⟨hfirst, hrest⟩ j hj
          cases j with
          | zero => exact hfirst
          | succ j =>
            rw [show i + (j + 1) = i + 1 + j by omega, hrest j (by omega)]
            omega
      rw [hshift]
      by_cases hfirst : slotId m (32 * i) = counter + 1
      · rw [if_pos hfirst]
        constructor
        · rintro ⟨-, hrest⟩
          rw [hyes hrest]
          congr 1
          omega
        · intro h
          exact hno fun hrest => h ⟨hfirst, hrest⟩
      · rw [if_neg hfirst]
        exact ⟨fun h => absurd h.1 hfirst, fun _ => rfl⟩

/-- The first slot of a cluster whose number is at most one. -/
theorem slotEnd_iff (n : ℕ) :
    ∀ i o : ℕ, slotEnd m n (32 * i) = some o ↔
      ∃ e < i + n, i ≤ e ∧ o = 32 * e ∧ (m (32 * e)).toNat ≤ 1 ∧
        ∀ j, i ≤ j → j < e → 1 < (m (32 * j)).toNat := by
  induction n with
  | zero =>
    intro i o
    constructor
    · intro h
      cases h
    · rintro ⟨e, he, hie, -⟩
      omega
  | succ n ih =>
    intro i o
    rw [slotEnd]
    by_cases hone : (m (32 * i)).toNat ≤ 1
    · rw [if_pos hone]
      constructor
      · intro h
        cases h
        exact ⟨i, by omega, le_rfl, rfl, hone, fun j hlow hhigh => by omega⟩
      · rintro ⟨e, he, hie, rfl, -, hbefore⟩
        obtain rfl : e = i := by
          by_contra hne
          exact absurd (hbefore i le_rfl (by omega)) (by omega)
        rfl
    · rw [if_neg hone, show 32 * i + 32 = 32 * (i + 1) by ring, ih]
      constructor
      · rintro ⟨e, he, hie, ho, hle, hbefore⟩
        refine ⟨e, by omega, by omega, ho, hle, fun j hlow hhigh => ?_⟩
        by_cases hji : j = i
        · rw [hji]
          omega
        · exact hbefore j (by omega) hhigh
      · rintro ⟨e, he, hie, ho, hle, hbefore⟩
        have hne : e ≠ i := fun h => hone (h ▸ hle)
        exact ⟨e, by omega, by omega, ho, hle, fun j hlow hhigh =>
          hbefore j (by omega) hhigh⟩

/-- Up to 19 slots that are counted off from the last slot of a name fit. -/
theorem fits_of_counted {i n : ℕ} (hlast : slotIsLast m (32 * i) = true) (hpos : 0 < n)
    (hn : n ≤ 19) : Fits m (i + n) 0 := by
  -- the slot nearest to the entry that ends the name
  obtain ⟨j, hj, hmax⟩ : ∃ j, (i ≤ j ∧ j < i + n ∧ Ends m j) ∧
      ∀ k, i ≤ k ∧ k < i + n ∧ Ends m k → k ≤ j := by
    have hne : ((Finset.range (i + n)).filter fun k => i ≤ k ∧ Ends m k).Nonempty :=
      ⟨i, Finset.mem_filter.mpr ⟨Finset.mem_range.mpr (by omega), le_rfl, .inr hlast⟩⟩
    have hmem := Finset.mem_filter.mp (Finset.max'_mem _ hne)
    refine ⟨_, ⟨hmem.2.1, Finset.mem_range.mp hmem.1, hmem.2.2⟩, fun k hk => ?_⟩
    exact Finset.le_max' _ k
      (Finset.mem_filter.mpr ⟨Finset.mem_range.mpr hk.2.1, hk.1, hk.2.2⟩)
  have hlen : slotLen m j ≤ 13 := (List.takeWhile_prefix _).length_le
  refine ⟨j, hj.2.1, hj.2.2, fun k hlow hhigh hends => ?_, by omega⟩
  exact absurd (hmax k ⟨by omega, hhigh, hends⟩) (by omega)

end Slots

/-! ## Names -/

section Names

theorem tolower_eq_zero {c : Byte} (h : tolower c = 0) : c = 0 := by
  unfold tolower at h
  split_ifs at h with hupper
  · have hle := UInt8.le_iff_toNat_le.mp hupper.2
    have hsum := congrArg UInt8.toNat h
    rw [UInt8.toNat_add] at hsum
    simp at hle hsum
    omega
  · exact h

theorem zero_notMem_downcase {name : List Byte} (h : 0 ∉ name) : 0 ∉ downcase name := by
  intro hmem
  obtain ⟨c, hc, hzero⟩ := List.mem_map.mp hmem
  exact h (tolower_eq_zero hzero ▸ hc)

theorem finishName_length_le (name : List Byte) : (finishName name).length ≤ name.length := by
  unfold finishName downcase
  rw [List.length_map]
  cases name with
  | nil => exact le_rfl
  | cons c rest =>
    simp only
    split_ifs
    · exact Nat.zero_le _
    · exact le_rfl
    · exact le_rfl

theorem finishName_zero_notMem {name : List Byte} (h : 0 ∉ name) : 0 ∉ finishName name := by
  apply zero_notMem_downcase
  cases name with
  | nil => exact h
  | cons c rest =>
    simp only
    rw [List.mem_cons, not_or] at h
    split_ifs
    · exact List.not_mem_nil
    · rw [List.mem_cons, not_or]
      exact ⟨by decide, h.2⟩
    · rw [List.mem_cons, not_or]
      exact h

end Names

/-! ## A call of `get_vfatname` -/

section Call

variable {H : Type}

/-- The run ended inside its buffers, and the name it returns fits into 256 bytes with its
    terminator. -/
def Safe : Except Fault (List Byte) → Prop
  | .ok name => name.length ≤ 255 ∧ 0 ∉ name
  | .error e => e ≠ .wild

/-- The run from `s` stays inside its buffers. -/
def Bounded (x : FatM H (List Byte)) (s : St H) : Prop := ∃ r s', x s = some (r, s') ∧ Safe r

/-- The cluster buffers cut to the cluster that is loaded into them. -/
def St.loaded (mydata : Fsdata) (s : St H) : St H :=
  { s with block := fun w => (s.block w).map fun b =>
      { b with size := min b.size mydata.clustBytes } }

/-- `DIRENTSPERCLUST`: the entries of 32 bytes that lie in a cluster. -/
def Fsdata.direntsPerClust (mydata : Fsdata) : ℕ := mydata.clustBytes / 32

/-- The slots of a name go on in a second cluster `m'`: before its last slot this has the slot in
    front of the entry, and the characters of its slots and of those in `m` have room. -/
def Crosses (m m' : Mem) (slots : ℕ) : Prop :=
  ∃ e, e + 1 < slots ∧ (m' (32 * e)).toNat ≤ 1 ∧ (∀ j < e, 1 < (m' (32 * j)).toNat) ∧
    Fits m (slots - 1) (∑ j ∈ Finset.range (e + 1), slotLen m' j)

/-- The name of the slot `i` of the cluster `m`: if its slots count down, they fit, or they reach
    the end of the cluster and fit with those of the next one, should that be read. -/
def NameInside (dev : BlockDev) (mydata : Fsdata) (curclust i : ℕ) (m : Mem) (s : St H) : Prop :=
  let n := min (slotId m (32 * i)) (mydata.direntsPerClust - i)
  InOrder m i n →
    if i + n < mydata.direntsPerClust then Fits m (i + n) 0
    else ∀ v s1 s2 b, getFatent dev mydata curclust s = some (.ok v, s1) →
      ¬ (int32 v ≤ 1 ∨ 0xfffffff0 ≤ v) →
      getWorkCluster dev mydata v .getVfatname s1 = some (.ok true, s2) →
      s2.block .getVfatname = some b → Crosses m b.byte mydata.direntsPerClust

variable {dev : BlockDev} {mydata : Fsdata}

theorem bounded_pure_nil (s : St H) : Bounded (pure [] : FatM H (List Byte)) s :=
  ⟨_, s, rfl, Nat.zero_le _, List.not_mem_nil⟩

theorem bounded_ok {α : Type} {x : FatM H α} {f : α → FatM H (List Byte)} {s s' : St H} {a : α}
    (h : x s = some (.ok a, s')) : Bounded (x >>= f) s ↔ Bounded (f a) s' := by
  unfold Bounded
  rw [Prog.bind_ok h]

theorem bounded_error {α : Type} {x : FatM H α} {f : α → FatM H (List Byte)} {s s' : St H}
    {e : Fault} (h : x s = some (.error e, s')) : Bounded (x >>= f) s ↔ e ≠ .wild := by
  unfold Bounded
  rw [Prog.bind_error h]
  constructor
  · rintro ⟨r, s'', hr, hsafe⟩
    cases hr
    exact hsafe
  · intro he
    exact ⟨_, _, rfl, he⟩

theorem contents_of_block {w : Work} {b : Block} {s : St H} (h : s.block w = some b) :
    contents w s = some (.ok b, s) := by
  rw [contents, Prog.get_bind, h]
  rfl

/-- The end of `get_vfatname`. -/
theorem vfatnameEnd_bounded {w : Work} {b : Block} {s : St H} (hb : s.block w = some b)
    (retdent k : ℕ) (real : Mem) (realdent : ℕ) {lName : List Byte} (hzero : 0 ∉ lName) :
    Bounded (vfatnameEnd w retdent k real realdent lName) s ↔ Fits b.byte k lName.length := by
  unfold vfatnameEnd
  rw [bounded_ok (contents_of_block hb), ← slotsBack_iff]
  cases hback : slotsBack b.byte k lName with
  | none =>
    constructor
    · rintro ⟨r, s', hr, hsafe⟩
      cases hr
      exact absurd rfl hsafe
    · rintro ⟨name, hname, -⟩
      cases hname
  | some name =>
    by_cases hlong : 255 < name.length
    · constructor
      · rintro ⟨r, s', hr, hsafe⟩
        have heq := (Prog.exitIf_of hlong).symm.trans hr
        cases heq
        exact absurd rfl hsafe
      · rintro ⟨name', hname, hlen⟩
        cases hname
        omega
    · constructor
      · intro _
        exact ⟨name, rfl, Nat.le_of_not_lt hlong⟩
      · intro _
        refine ⟨_, _, Prog.exitIf_of_not hlong, ?_⟩
        have hlen := finishName_length_le name
        exact ⟨by omega, finishName_zero_notMem (slotsBack_zero_notMem _ _ _ hback hzero)⟩

variable (dev) in
theorem diskRead_returns (start count : ℕ) (old : Mem) (s : St H) :
    ∃ r, diskRead dev start count old s = some (.ok r, { s with clock := s.clock + 1 }) :=
  ⟨_, rfl⟩

variable (dev mydata) in
/-- `get_fatent` returns and leaves the cluster buffers. -/
theorem getFatent_returns (c : ℕ) (s : St H) :
    ∃ v s', getFatent dev mydata c s = some (.ok v, s') ∧ s'.block = s.block := by
  unfold getFatent
  split_ifs with htype
  · exact ⟨0, s, rfl, rfl⟩
  · obtain ⟨ok, s', hload, hblock⟩ : ∃ ok s',
        loadFat dev mydata (c / fatBufSize mydata.fatsize) s = some (.ok ok, s') ∧
          s'.block = s.block := by
      unfold loadFat
      rw [Prog.get_bind]
      split_ifs
      · exact ⟨true, s, rfl, rfl⟩
      · obtain ⟨⟨ret, mem⟩, hread⟩ := diskRead_returns dev
          (c / fatBufSize mydata.fatsize * 6 + mydata.fatSect) (min 6 (mydata.fatlength * 512))
          s.fatbuf s
        rw [Prog.bind_ok hread]
        simp only [Prog.modify_bind]
        split_ifs
        · exact ⟨false, _, rfl, rfl⟩
        · exact ⟨true, _, rfl, rfl⟩
    rw [Prog.bind_ok hload]
    exact ⟨_, s', rfl, hblock⟩

variable (dev mydata) in
/-- A cluster is read into a buffer that is large enough, or the run ends. -/
theorem getWorkCluster_returns (c : ℕ) (w : Work) (s : St H) :
    (∃ s', getWorkCluster dev mydata c w s = some (.error .overflow, s')) ∨
      ∃ ok s' b mem, getWorkCluster dev mydata c w s = some (.ok ok, s') ∧
        s.block w = some b ∧ mydata.clustBytes ≤ b.size ∧
        s'.block = Function.update s.block w (some { b with byte := mem }) := by
  unfold getWorkCluster workRead
  rw [Prog.bind_assoc, Prog.get_bind, Prog.bind_assoc, Prog.modify_bind]
  cases hb : s.block w with
  | none => exact .inl ⟨_, rfl⟩
  | some b =>
    simp only
    by_cases hsmall : b.size < transferred mydata.clustSize
    · rw [Prog.bind_assoc, Prog.exitIf_of hsmall]
      exact .inl ⟨_, rfl⟩
    · rw [Prog.bind_assoc, Prog.exitIf_of_not hsmall]
      exact .inr ⟨_, _, b, _, rfl, rfl, (le_transferred _).trans (Nat.le_of_not_lt hsmall), rfl⟩

theorem clustBytes_eq (mydata : Fsdata) : mydata.clustBytes = 32 * mydata.direntsPerClust := by
  unfold Fsdata.direntsPerClust Fsdata.clustBytes
  omega

/-- The end of `get_vfatname` behind the read of a second cluster. -/
theorem crossing_bounded {w : Work} {b b' : Block} {s : St H} (hb : s.block w = some b)
    (hsize : b'.size = mydata.clustBytes) (retdent : ℕ) :
    Bounded (match slotEnd b'.byte (b'.size / 32) 0 with
      | none => Prog.exit .wild
      | some slotptr2 => do
        Prog.exitIf (b'.size < slotptr2 + 64) .wild
        vfatnameEnd w retdent (mydata.clustBytes / 32 - 1) b'.byte (slotptr2 + 32)
          (slotsDown b'.byte (slotptr2 / 32 + 1) [])) s ↔
      Crosses b.byte b'.byte mydata.direntsPerClust := by
  have hbytes := clustBytes_eq mydata
  have hslots : b'.size / 32 = mydata.direntsPerClust := by rw [hsize]; rfl
  have hfirst := slotEnd_iff (m := b'.byte) mydata.direntsPerClust 0
  rw [hslots]
  cases hslot : slotEnd b'.byte mydata.direntsPerClust 0 with
  | none =>
    constructor
    · rintro ⟨r, s', hr, hsafe⟩
      cases hr
      exact absurd rfl hsafe
    · rintro ⟨e, he, hone, hbefore, -⟩
      have hsome := (hfirst (32 * e)).mpr
        ⟨e, by omega, Nat.zero_le e, rfl, hone, fun j _ hj => hbefore j hj⟩
      exact absurd (hslot.symm.trans hsome) (by simp)
  | some o =>
    obtain ⟨e, he, -, rfl, hone, hbefore⟩ := (hfirst o).mp hslot
    have hunique : ∀ e', (b'.byte (32 * e')).toNat ≤ 1 →
        (∀ j < e', 1 < (b'.byte (32 * j)).toNat) → e' = e := by
      intro e' hone' hbefore'
      rcases Nat.lt_trichotomy e' e with hlt | heq | hgt
      · exact absurd (hbefore e' (Nat.zero_le _) hlt) (by omega)
      · exact heq
      · exact absurd (hbefore' e hgt) (by omega)
    by_cases hroom : b'.size < 32 * e + 64
    · constructor
      · rintro ⟨r, s', hr, hsafe⟩
        have heq := (Prog.exitIf_of hroom).symm.trans hr
        cases heq
        exact absurd rfl hsafe
      · rintro ⟨e', he', hone', hbefore', -⟩
        rw [hunique e' hone' hbefore'] at he'
        omega
    · have hgo : ∀ f : Unit → FatM H (List Byte),
          Bounded (Prog.exitIf (b'.size < 32 * e + 64) .wild >>= f) s ↔ Bounded (f ()) s := by
        intro f
        unfold Bounded
        rw [Prog.exitIf_of_not hroom]
      refine (hgo _).trans ?_
      rw [vfatnameEnd_bounded hb _ _ _ _ (slotsDown_zero_notMem _ _ List.not_mem_nil),
        slotsDown_length, show 32 * e / 32 = e by omega, List.length_nil, Nat.zero_add]
      constructor
      · intro hfits
        exact ⟨e, by omega, hone, fun j hj => hbefore j (Nat.zero_le j) hj, hfits⟩
      · rintro ⟨e', -, hone', hbefore', hfits⟩
        rw [hunique e' hone' hbefore'] at hfits
        exact hfits

/-- In a state whose cluster buffers end with what is loaded into them. -/
theorem getVfatname_bounded {w : Work} {b : Block} {s : St H} (hw : w ≠ .getVfatname)
    (hloaded : ∀ b', s.block .getVfatname = some b' → b'.size ≤ mydata.clustBytes)
    (hb : s.block w = some b) (curclust : ℕ) {i : ℕ} (hi : i < mydata.direntsPerClust) :
    Bounded (getVfatname dev mydata curclust w (32 * i)) s ↔
      NameInside dev mydata curclust i b.byte s := by
  have hbytes := clustBytes_eq mydata
  obtain ⟨hyes, hno⟩ := slotRun_eq (m := b.byte) (slotId b.byte (32 * i)) i
    mydata.direntsPerClust hi.le
  rw [← hbytes] at hyes hno
  unfold getVfatname NameInside
  rw [bounded_ok (contents_of_block hb)]
  by_cases hin : InOrder b.byte i
      (min (slotId b.byte (32 * i)) (mydata.direntsPerClust - i))
  · simp only [hyes hin, hin, true_implies]
    by_cases hend : i + min (slotId b.byte (32 * i)) (mydata.direntsPerClust - i) <
        mydata.direntsPerClust
    · rw [if_pos (by omega), if_pos hend, vfatnameEnd_bounded hb _ _ _ _ List.not_mem_nil,
        Nat.mul_div_cancel_left _ (by decide)]
      rfl
    · -- the name goes on in the next cluster
      have hall : i + min (slotId b.byte (32 * i)) (mydata.direntsPerClust - i) =
          mydata.direntsPerClust := by omega
      rw [if_neg (by omega), if_neg hend, hall, ← hbytes]
      obtain ⟨v, s1, hv, hblock⟩ := getFatent_returns dev mydata curclust s
      rw [bounded_ok hv]
      by_cases hstop : int32 v ≤ 1 ∨ 0xfffffff0 ≤ v
      · rw [if_pos hstop]
        refine iff_of_true (bounded_pure_nil s1) fun v' s1' _ _ hv' hgo => ?_
        have heq := hv.symm.trans hv'
        cases heq
        exact absurd hstop hgo
      · rw [if_neg hstop]
        rcases getWorkCluster_returns dev mydata v .getVfatname s1 with
          ⟨s2, hread⟩ | ⟨ok, s2, b', mem, hread, hb', hsize, hblock2⟩
        · rw [bounded_error hread]
          refine iff_of_true (by decide) fun v' s1' s2' _ hv' _ hread' => ?_
          have heq := hv.symm.trans hv'
          cases heq
          have heq := hread.symm.trans hread'
          cases heq
        · rw [bounded_ok hread]
          cases ok with
          | false =>
            refine iff_of_true (bounded_pure_nil s2) fun v' s1' s2' _ hv' _ hread' => ?_
            have heq := hv.symm.trans hv'
            cases heq
            have heq := hread.symm.trans hread'
            cases heq
          | true =>
            have hnext : s2.block .getVfatname = some { b' with byte := mem } := by
              rw [hblock2, Function.update_self]
            have hkept : s2.block w = some b := by
              rw [hblock2, Function.update_of_ne hw, hblock, hb]
            have hfull : b'.size = mydata.clustBytes := by
              rw [hblock] at hb'
              exact Nat.le_antisymm (hloaded b' hb') hsize
            rw [if_pos rfl, bounded_ok (contents_of_block hnext)]
            have hfull' : ({ b' with byte := mem } : Block).size = mydata.clustBytes := hfull
            refine (crossing_bounded hkept hfull' _).trans ?_
            constructor
            · intro hcross v' s1' s2' b'' hv' _ hread' hb''
              have heq := hv.symm.trans hv'
              cases heq
              have heq := hread.symm.trans hread'
              cases heq
              have heq := hnext.symm.trans hb''
              cases heq
              exact hcross
            · intro hall'
              exact hall' v s1 s2 _ hv hstop hread hnext
  · simp only [hno hin, hin, false_implies]
    exact iff_of_true (bounded_pure_nil s) trivial

/-- The bytes a call reads are loaded and the name it assembles has room exactly if the slots of
    the name end where they have to. -/
theorem bounded_iff (dev : BlockDev) (mydata : Fsdata) (curclust : ℕ) (w : Work) (b : Block)
    (i : ℕ) (s : St H) (hw : w ≠ .getVfatname) (hb : s.block w = some b)
    (hi : i < mydata.direntsPerClust) :
    Bounded (getVfatname dev mydata curclust w (32 * i)) (s.loaded mydata) ↔
      NameInside dev mydata curclust i b.byte (s.loaded mydata) := by
  have hb' : (s.loaded mydata).block w = some { b with size := min b.size mydata.clustBytes } := by
    show (s.block w).map _ = _
    rw [hb]
    rfl
  refine getVfatname_bounded hw ?_ hb' curclust hi
  intro b' hnext
  obtain ⟨b0, -, rfl⟩ := Option.map_eq_some_iff.mp hnext
  exact Nat.min_le_right _ _

/-! ### Examples -/

/-- A cluster whose first slot is the last one of a name of `n`; the other ones count down from
    it, and no name ends in them. The attributes mark them as slots. -/
def slotCluster (n : ℕ) : Mem := fun i =>
  if i = 0 then UInt8.ofNat (0x40 + n)
  else if i % 32 = 0 then UInt8.ofNat (n - i / 32)
  else if i % 32 = 11 then UInt8.ofNat attrVfat
  else 97

/-- This cluster of two sectors of the root directory is read. -/
def slotDir (n : ℕ) : St Unit :=
  { St.fresh with
    block := fun w => if w = .doFatRead then some ⟨0, 1024, slotCluster n⟩ else none }

/-- A volume with clusters of two sectors. -/
def twoSectors : Fsdata := ⟨16, 1, 1, 2, 2, 1⟩

/-- A name of one slot. -/
theorem bounded_oneSlot :
    Bounded (getVfatname (cardDev fun _ => 0) twoSectors 0 .doFatRead (32 * 0))
      ((slotDir 1).loaded twoSectors) := by
  refine (bounded_iff (cardDev fun _ => 0) twoSectors 0 .doFatRead _ 0 (slotDir 1) (by decide)
    rfl (by decide)).mpr ?_
  intro _
  exact (if_pos (by decide)).mpr (fits_of_counted (by decide) (by decide) (by decide))

/-- Of 20 slots the characters do not fit. -/
theorem not_bounded_twentySlots :
    ¬ Bounded (getVfatname (cardDev fun _ => 0) twoSectors 0 .doFatRead (32 * 0))
      ((slotDir 20).loaded twoSectors) := by
  rintro ⟨r, s', hrun, hsafe⟩
  have hwild : (getVfatname (cardDev fun _ => 0) twoSectors 0 .doFatRead (32 * 0)
      ((slotDir 20).loaded twoSectors)).map (fun p => match p.1 with
        | .error e => some e
        | .ok _ => none) = some (some .wild) := by decide +kernel
  rw [hrun] at hwild
  cases r with
  | ok name => cases hwild
  | error e =>
    cases hwild
    exact hsafe rfl

end Call

end SmartQ.UBoot.Fat
