import SmartQ.Lib.Bytes

/-!
# Storage as a function from offsets to bytes

A block device or a region of memory is a function `ℕ → Byte`; a write
replaces a range of it. Histories of writes are lists, so that the state
after a crash is the state after a prefix of the list.

* `load_store`, `load_store_disjoint`: a range reads back what was written to
  it, and is not touched by a write elsewhere.
* `store_append`: a write in two halves is one write.
* `load_applyWrites_disjoint`: a range no write of a history touches.
* `load_applyWrites_eq_iff`: what a history leaves in a range, whatever was there before.
* `load_applyWrites_iff`: a write survives the writes after it iff none of them
  puts another byte in its range.
* `load_applyWrites_take`: a range after a prefix of a history.
* `chunks`: a write split into chunks.
-/

namespace SmartQ.Lib

/-- The contents of a device, by byte offset. -/
abbrev Disk := ℕ → Byte

/-- The `n` bytes at offset `a`. -/
def load (d : Disk) (a n : ℕ) : List Byte := (List.range n).map fun i => d (a + i)

/-- `d` after `bs` is written at offset `a`. -/
def store (d : Disk) (a : ℕ) (bs : List Byte) : Disk :=
  fun x => if a ≤ x ∧ x < a + bs.length then byteAt bs (x - a) else d x

@[simp] theorem length_load (d : Disk) (a n : ℕ) : (load d a n).length = n := by simp [load]

@[simp] theorem load_zero (d : Disk) (a : ℕ) : load d a 0 = [] := rfl

theorem byteAt_load {d : Disk} {a n i : ℕ} (h : i < n) : byteAt (load d a n) i = d (a + i) := by
  rw [byteAt_of_lt (by simpa using h)]
  simp [load]

theorem load_ext {d d' : Disk} {a a' n : ℕ} (h : ∀ i < n, d (a + i) = d' (a' + i)) :
    load d a n = load d' a' n := by
  apply List.map_congr_left
  intro i hi
  exact h i (List.mem_range.mp hi)

/-- A range holds `bs` iff each of its bytes does. -/
theorem load_eq_iff {d : Disk} {a : ℕ} {bs : List Byte} :
    load d a bs.length = bs ↔ ∀ i < bs.length, d (a + i) = byteAt bs i := by
  constructor
  · intro h i hi
    rw [← byteAt_load (d := d) (a := a) hi, h]
  · intro h
    apply List.ext_getElem (by simp)
    intro i h1 h2
    rw [← byteAt_of_lt h2, ← h i h2]
    simp [load]

theorem load_append (d : Disk) (a m n : ℕ) :
    load d a (m + n) = load d a m ++ load d (a + m) n := by
  simp only [load, List.range_add, List.map_append, List.map_map]
  congr 1
  apply List.map_congr_left
  intro i _
  simp [Nat.add_assoc]

/-! ## One write -/

theorem store_apply_of_mem {d : Disk} {a x : ℕ} {bs : List Byte} (h0 : a ≤ x)
    (h1 : x < a + bs.length) : store d a bs x = byteAt bs (x - a) := if_pos ⟨h0, h1⟩

theorem store_apply_of_lt {d : Disk} {a x : ℕ} {bs : List Byte} (h : x < a) :
    store d a bs x = d x := if_neg (by omega)

theorem store_apply_of_ge {d : Disk} {a x : ℕ} {bs : List Byte} (h : a + bs.length ≤ x) :
    store d a bs x = d x := if_neg (by omega)

@[simp] theorem store_nil (d : Disk) (a : ℕ) : store d a [] = d := by
  funext x
  exact if_neg (by simp)

theorem load_store (d : Disk) (a : ℕ) (bs : List Byte) : load (store d a bs) a bs.length = bs := by
  rw [load_eq_iff]
  intro i hi
  rw [store_apply_of_mem (by omega) (by omega), Nat.add_sub_cancel_left]

theorem load_store_disjoint {d : Disk} {a b n : ℕ} {bs : List Byte}
    (h : a + bs.length ≤ b ∨ b + n ≤ a) : load (store d a bs) b n = load d b n := by
  apply load_ext
  intro i hi
  rcases h with h | h
  · exact store_apply_of_ge (by omega)
  · exact store_apply_of_lt (by omega)

/-- Writing `xs` and right behind it `ys` is writing `xs ++ ys`. -/
theorem store_append (d : Disk) (a : ℕ) (xs ys : List Byte) :
    store (store d a xs) (a + xs.length) ys = store d a (xs ++ ys) := by
  funext x
  simp only [store, List.length_append]
  by_cases h1 : a + xs.length ≤ x ∧ x < a + xs.length + ys.length
  · rw [if_pos h1, if_pos (by omega), byteAt_append_right _ (by omega)]
    congr 1
    omega
  · rw [if_neg h1]
    by_cases h2 : a ≤ x ∧ x < a + xs.length
    · rw [if_pos h2, if_pos (by omega), byteAt_append_left _ (by omega)]
    · rw [if_neg h2, if_neg (by omega)]

/-- A write is determined by what it does to every device. -/
theorem store_injective {a : ℕ} {bs bs' : List Byte} (h : ∀ d, store d a bs = store d a bs') :
    bs = bs' := by
  have hle : ∀ xs ys : List Byte, (∀ d, store d a xs = store d a ys) → xs.length ≤ ys.length := by
    intro xs ys hxy
    by_contra hlt
    have hx := congrFun (hxy fun _ => byteAt xs ys.length + 1) (a + ys.length)
    rw [store_apply_of_mem (by omega) (by omega), store_apply_of_ge le_rfl,
      Nat.add_sub_cancel_left] at hx
    simp at hx
  have hlen : bs.length = bs'.length :=
    le_antisymm (hle bs bs' h) (hle bs' bs fun d => (h d).symm)
  calc bs = load (store (fun _ => 0) a bs) a bs.length := (load_store _ a bs).symm
    _ = load (store (fun _ => 0) a bs') a bs'.length := by rw [h, hlen]
    _ = bs' := load_store _ a bs'

/-! ## Histories of writes -/

/-- One write: an offset and the bytes written there. -/
abbrev Write := ℕ × List Byte

/-- The device after the writes `ws`, the first of the list first. -/
def applyWrites (ws : List Write) (d : Disk) : Disk :=
  ws.foldl (fun d w => store d w.1 w.2) d

@[simp] theorem applyWrites_nil (d : Disk) : applyWrites [] d = d := rfl

@[simp] theorem applyWrites_cons (w : Write) (ws : List Write) (d : Disk) :
    applyWrites (w :: ws) d = applyWrites ws (store d w.1 w.2) := rfl

theorem applyWrites_append (ws vs : List Write) (d : Disk) :
    applyWrites (ws ++ vs) d = applyWrites vs (applyWrites ws d) := by
  simp [applyWrites, List.foldl_append]

/-- The write `w` touches no byte of `[b, b + n)`. -/
def Write.Avoids (w : Write) (b n : ℕ) : Prop := w.1 + w.2.length ≤ b ∨ b + n ≤ w.1

theorem Write.Avoids.mono {w : Write} {b n b' n' : ℕ} (h : w.Avoids b n) (hb : b ≤ b')
    (hn : b' + n' ≤ b + n) : w.Avoids b' n' := by
  unfold Write.Avoids at *
  omega

theorem load_applyWrites_disjoint {ws : List Write} {b n : ℕ} (h : ∀ w ∈ ws, w.Avoids b n)
    (d : Disk) : load (applyWrites ws d) b n = load d b n := by
  induction ws generalizing d with
  | nil => rfl
  | cons w ws ih =>
    rw [applyWrites_cons, ih (fun v hv => h v (List.mem_cons_of_mem _ hv)),
      load_store_disjoint (h w List.mem_cons_self)]

/-! ## The last writer of a byte -/

/-- The byte the last of the writes covering offset `x` puts there. -/
def overlay : List Write → ℕ → Option Byte
  | [], _ => none
  | w :: ws, x =>
    (overlay ws x).or (if w.1 ≤ x ∧ x < w.1 + w.2.length then some (byteAt w.2 (x - w.1)) else none)

@[simp] theorem overlay_nil (x : ℕ) : overlay [] x = none := rfl

theorem applyWrites_apply (ws : List Write) (d : Disk) (x : ℕ) :
    applyWrites ws d x = (overlay ws x).getD (d x) := by
  induction ws generalizing d with
  | nil => rfl
  | cons w ws ih =>
    rw [applyWrites_cons, ih, overlay]
    cases overlay ws x with
    | some v => rfl
    | none =>
      simp only [Option.getD_none, Option.none_or, store]
      split_ifs <;> rfl

theorem overlay_append (ws vs : List Write) (x : ℕ) :
    overlay (ws ++ vs) x = (overlay vs x).or (overlay ws x) := by
  induction ws with
  | nil => simp
  | cons w ws ih => rw [List.cons_append, overlay, overlay, ih, Option.or_assoc]

theorem overlay_of_avoids {ws : List Write} {x : ℕ} (h : ∀ w ∈ ws, w.Avoids x 1) :
    overlay ws x = none := by
  induction ws with
  | nil => rfl
  | cons w ws ih =>
    have hw := h w List.mem_cons_self
    unfold Write.Avoids at hw
    rw [overlay, ih fun v hv => h v (List.mem_cons_of_mem _ hv), if_neg (by omega)]
    rfl

/-- A range holds the same bytes whatever was there before iff the last writer of each puts the
    right one. -/
theorem load_applyWrites_eq_iff {ws : List Write} {c : Disk} {a b n : ℕ} :
    (∀ d, load (applyWrites ws d) a n = load c b n) ↔
      ∀ i < n, overlay ws (a + i) = some (c (b + i)) := by
  constructor
  · intro h i hi
    have hbyte : ∀ d : Disk, (overlay ws (a + i)).getD (d (a + i)) = c (b + i) := by
      intro d
      rw [← applyWrites_apply, ← byteAt_load (d := applyWrites ws d) hi, h d, byteAt_load hi]
    rcases hov : overlay ws (a + i) with _ | v
    · have hbad := hbyte fun _ => c (b + i) + 1
      rw [hov] at hbad
      simp at hbad
    · have hgood := hbyte c
      rw [hov] at hgood
      exact congrArg some hgood
  · intro h d
    apply load_ext
    intro i hi
    rw [applyWrites_apply, h i hi]
    rfl

/-- A byte that nothing writes. -/
theorem not_load_applyWrites {ws : List Write} {c : Disk} {a b n i : ℕ} (hi : i < n)
    (h : overlay ws (a + i) = none) : ¬ ∀ d, load (applyWrites ws d) a n = load c b n := by
  intro hstored
  have hbyte := load_applyWrites_eq_iff.mp hstored i hi
  rw [h] at hbyte
  cases hbyte

/-- A history that is one write ends where its writes end. -/
theorem add_length_le_of_applyWrites {ws : List Write} {a b : ℕ} {bs : List Byte}
    (h : ∀ d, applyWrites ws d = store d a bs) (hab : a ≤ b)
    (hin : ∀ w ∈ ws, w.1 + w.2.length ≤ b) : a + bs.length ≤ b := by
  by_contra hlt
  have hx := congrFun (h fun _ => byteAt bs (b - a) + 1) b
  rw [store_apply_of_mem hab (by omega), applyWrites_apply,
    overlay_of_avoids fun w hw => .inl (hin w hw)] at hx
  simp at hx

/-- `w` at an offset `a` bytes further on. -/
def Write.shift (a : ℕ) (w : Write) : Write := (a + w.1, w.2)

@[simp] theorem Write.shift_fst (a : ℕ) (w : Write) : (w.shift a).1 = a + w.1 := (rfl)

@[simp] theorem Write.shift_snd (a : ℕ) (w : Write) : (w.shift a).2 = w.2 := (rfl)

theorem overlay_shift (a : ℕ) (ws : List Write) (x : ℕ) :
    overlay (ws.map (Write.shift a)) (a + x) = overlay ws x := by
  induction ws with
  | nil => rfl
  | cons w ws ih =>
    rw [List.map_cons, overlay, overlay, ih]
    congr 1
    have hiff : ((w.shift a).1 ≤ a + x ∧ a + x < (w.shift a).1 + (w.shift a).2.length) ↔
        w.1 ≤ x ∧ x < w.1 + w.2.length := by
      show (a + w.1 ≤ a + x ∧ a + x < a + w.1 + w.2.length) ↔ _
      omega
    by_cases hx : w.1 ≤ x ∧ x < w.1 + w.2.length
    · rw [if_pos hx, if_pos (hiff.mpr hx)]
      show some (byteAt w.2 (a + x - (a + w.1))) = _
      rw [Nat.add_sub_add_left]
    · rw [if_neg hx, if_neg (mt hiff.mp hx)]

/-- None of the writes `post` changes a byte of `w`. -/
def Write.KeptBy (w : Write) (post : List Write) : Prop :=
  ∀ k < w.2.length, (overlay post (w.1 + k)).getD (byteAt w.2 k) = byteAt w.2 k

instance (w : Write) (post : List Write) : Decidable (w.KeptBy post) := by
  unfold Write.KeptBy
  infer_instance

theorem Write.keptBy_of_avoids {w : Write} {post : List Write}
    (h : ∀ v ∈ post, v.Avoids w.1 w.2.length) : w.KeptBy post := by
  intro k hk
  rw [overlay_of_avoids fun v hv => (h v hv).mono (by omega) (by omega)]
  rfl

/-- After all the writes the range of `w` holds the bytes of `w` iff the writes
    after `w` leave them. -/
theorem load_applyWrites_iff (pre : List Write) (w : Write) (post : List Write) (d : Disk) :
    load (applyWrites (pre ++ w :: post) d) w.1 w.2.length = w.2 ↔ w.KeptBy post := by
  rw [load_eq_iff]
  refine forall₂_congr fun k hk => ?_
  rw [applyWrites_append, applyWrites_cons, applyWrites_apply,
    store_apply_of_mem (by omega) (by omega), Nat.add_sub_cancel_left]

/-- Writes that keep out of the range of `w` do not matter. -/
theorem Write.keptBy_append_right {w : Write} {post vs : List Write}
    (h : ∀ v ∈ vs, v.Avoids w.1 w.2.length) : w.KeptBy (post ++ vs) ↔ w.KeptBy post := by
  refine forall₂_congr fun k hk => ?_
  rw [overlay_append, overlay_of_avoids fun v hv => (h v hv).mono (by omega) (by omega),
    Option.none_or]

theorem Write.keptBy_shift (a : ℕ) (w : Write) (post : List Write) :
    (w.shift a).KeptBy (post.map (Write.shift a)) ↔ w.KeptBy post := by
  refine forall₂_congr fun k hk => ?_
  show (overlay _ (a + w.1 + k)).getD _ = _ ↔ _
  rw [Nat.add_assoc, overlay_shift]
  rfl

/-- After a prefix of a history the range of its `i`-th write holds what was
    written, or what was there before, if all other writes keep out of it. -/
theorem load_applyWrites_take {ws : List Write} {i : ℕ} (hi : i < ws.length)
    (h : ∀ j (hj : j < ws.length), j ≠ i → ws[j].Avoids ws[i].1 ws[i].2.length) (k : ℕ) (d : Disk) :
    load (applyWrites (ws.take k) d) ws[i].1 ws[i].2.length =
      if i < k then ws[i].2 else load d ws[i].1 ws[i].2.length := by
  have havoid : ∀ (vs : List Write), (∀ v ∈ vs, ∃ j, ∃ hj : j < ws.length, j ≠ i ∧ ws[j] = v) →
      ∀ v ∈ vs, v.Avoids ws[i].1 ws[i].2.length := by
    intro vs hvs v hv
    obtain ⟨j, hj, hne, rfl⟩ := hvs v hv
    exact h j hj hne
  split_ifs with hk
  · have hsplit : ws.take k = ws.take i ++ ws[i] :: (ws.take k).drop (i + 1) := by
      have hlt : i < (ws.take k).length := by
        rw [List.length_take]
        omega
      have hdrop := List.take_append_drop i (ws.take k)
      rw [List.take_take, Nat.min_eq_left (by omega), List.drop_eq_getElem_cons hlt,
        List.getElem_take] at hdrop
      exact hdrop.symm
    rw [hsplit, load_applyWrites_iff]
    refine Write.keptBy_of_avoids (havoid _ fun v hv => ?_)
    obtain ⟨j, hj, rfl⟩ := List.getElem_of_mem hv
    simp only [List.length_drop, List.length_take] at hj
    exact ⟨i + 1 + j, by omega, by omega, by simp⟩
  · refine load_applyWrites_disjoint (havoid _ fun v hv => ?_) d
    obtain ⟨j, hj, rfl⟩ := List.getElem_of_mem hv
    rw [List.length_take] at hj
    exact ⟨j, by omega, by omega, by simp⟩

/-- The same when the writes behind the first ones, `vs`, keep out of the range,
    and the first ones out of each other's. -/
theorem load_applyWrites_take_append {ws vs : List Write} {i : ℕ} (hi : i < ws.length)
    (hws : ws.Pairwise fun v w => v.Avoids w.1 w.2.length ∧ w.Avoids v.1 v.2.length)
    (hvs : ∀ v ∈ vs, v.Avoids ws[i].1 ws[i].2.length) (k : ℕ) (d : Disk) :
    load (applyWrites ((ws ++ vs).take k) d) ws[i].1 ws[i].2.length =
      if i < k then ws[i].2 else load d ws[i].1 ws[i].2.length := by
  have hi' : i < (ws ++ vs).length := by
    rw [List.length_append]
    omega
  have heq : (ws ++ vs)[i] = ws[i] := List.getElem_append_left hi
  rw [← heq]
  refine load_applyWrites_take hi' (fun j hj hne => ?_) k d
  rw [heq]
  rcases Nat.lt_or_ge j ws.length with hlt | hge
  · rw [List.getElem_append_left hlt]
    rcases Nat.lt_or_gt_of_ne hne with h | h
    · exact (List.pairwise_iff_getElem.mp hws j i hlt hi h).1
    · exact (List.pairwise_iff_getElem.mp hws i j hi hlt h).2
  · rw [List.getElem_append_right hge]
    exact hvs _ (List.getElem_mem _)

/-! ## A write in chunks -/

/-- The writes of `bs` at `a` in chunks of `c` bytes: while at least `c` bytes
    remain a full chunk, at last one write of what remains (possibly empty). -/
def chunks (c : ℕ) (a : ℕ) (bs : List Byte) : List Write :=
  if 0 < c ∧ c ≤ bs.length then (a, bs.take c) :: chunks c (a + c) (bs.drop c)
  else [(a, bs)]
termination_by bs.length
decreasing_by simp only [List.length_drop]; omega

theorem chunks_of_lt {c a : ℕ} {bs : List Byte} (h : bs.length < c) : chunks c a bs = [(a, bs)] := by
  rw [chunks, if_neg (by omega)]

theorem chunks_of_le {c a : ℕ} {bs : List Byte} (hc : 0 < c) (h : c ≤ bs.length) :
    chunks c a bs = (a, bs.take c) :: chunks c (a + c) (bs.drop c) := by
  rw [chunks, if_pos ⟨hc, h⟩]

end SmartQ.Lib
