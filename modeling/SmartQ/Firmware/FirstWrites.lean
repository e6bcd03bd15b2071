import SmartQ.Firmware.EndState

/-!
# The first writes of a run

What `loading_firmware` has written in a run in which transfers may come up short
and checks may fail: a section below 4 MB takes one `write`, right when its own
`read` and `write` moved all they were asked to, and whatever the later stages do
lands behind them.

* `stage_one`: a stage of one `write`.
* `runStages_writesFrom`: stages that lie behind an offset write behind it.
* `runStages_take`: a prefix of the writes of stages of the first kind followed
  by stages of the second.
-/

namespace SmartQ.Firmware.Upgrade

open SmartQ.Lib

variable {env : Env}

/-! ## Writes behind an offset -/

/-- Between `s` and `s'` the flash was written only at or behind `a`, if it
    stood there to begin with; then it still does. -/
def WritesFrom (a : ℕ) (s s' : St) : Prop :=
  ∃ ws, writesOf s'.log = writesOf s.log ++ ws ∧
    (a ≤ s.inandPos → a ≤ s'.inandPos ∧ ∀ w ∈ ws, a ≤ w.1)

namespace WritesFrom

variable {a : ℕ}

/-- A step that writes nothing and does not move the flash back. -/
theorem of_log {s s' : St} (hlog : s'.log = s.log) (hpos : a ≤ s.inandPos → a ≤ s'.inandPos) :
    WritesFrom a s s' := by
  refine ⟨[], by rw [hlog, List.append_nil], fun h => ⟨hpos h, ?_⟩⟩
  exact fun w hw => absurd hw List.not_mem_nil

theorem refl (s : St) : WritesFrom a s s := of_log rfl id

theorem trans (s s' s'' : St) (h : WritesFrom a s s') (h' : WritesFrom a s' s'') :
    WritesFrom a s s'' := by
  obtain ⟨ws, hws, hpos⟩ := h
  obtain ⟨vs, hvs, hpos'⟩ := h'
  refine ⟨ws ++ vs, by rw [hvs, hws, List.append_assoc], fun ha => ?_⟩
  obtain ⟨ha', hw⟩ := hpos ha
  obtain ⟨ha'', hv⟩ := hpos' ha'
  exact ⟨ha'', fun w hmem => (List.mem_append.mp hmem).elim (hw w) (hv w)⟩

theorem bind {α β : Type} {x : Prog St Failure α} {f : α → Prog St Failure β}
    (hx : Prog.Steps (WritesFrom a) x) (hf : ∀ r, Prog.Steps (WritesFrom a) (f r)) :
    Prog.Steps (WritesFrom a) (x >>= f) := Prog.Steps.bind trans hx hf

theorem readSd (n : ℕ) : Prog.Steps (WritesFrom a) (readSd env n) :=
  Prog.Steps.step fun _ => of_log rfl id

theorem readInand (n : ℕ) : Prog.Steps (WritesFrom a) (readInand env n) :=
  Prog.Steps.step fun _ => of_log rfl fun h => le_trans h (Nat.le_add_right _ _)

theorem writeInand (n : ℕ) : Prog.Steps (WritesFrom a) (writeInand env n) := by
  refine Prog.Steps.step fun s => ⟨_, writesOf_append _ _, fun h => ⟨?_, ?_⟩⟩
  · exact le_trans h (Nat.le_add_right _ _)
  · exact List.forall_mem_singleton.mpr h

theorem addSizeSum (n : ℕ) : Prog.Steps (WritesFrom a) (addSizeSum n) :=
  Prog.Steps.modify fun _ => of_log rfl id

theorem seekInand {off : ℤ} (hoff : a ≤ fromEnd env off) :
    Prog.Steps (WritesFrom a) (seekInand env off) := by
  refine Prog.Steps.modify fun s => ?_
  split_ifs
  · exact of_log rfl fun _ => hoff
  · exact refl s

theorem loadingLoop (total fuel size n : ℕ) :
    Prog.Steps (WritesFrom a) (loadingLoop env total fuel size n) := by
  induction fuel generalizing size n with
  | zero => exact Prog.Steps.stuck
  | succ fuel ih =>
    rw [Upgrade.loadingLoop]
    split_ifs
    · refine bind (readSd _) fun got => bind (addSizeSum _) fun _ => bind (writeInand _) fun w => ?_
      split_ifs
      · exact Prog.Steps.ret refl _
      · exact ih _ _
    · exact bind (readSd _) fun got => bind (addSizeSum _) fun _ => bind (writeInand _) fun w =>
        Prog.Steps.ret refl _

theorem loading (total : ℕ) : Prog.Steps (WritesFrom a) (loading env total) := loadingLoop _ _ _ _

theorem checkSumLoop (fileSize : ℤ) (fuel : ℕ) (size n : ℤ) (ret : ℕ) :
    Prog.Steps (WritesFrom a) (checkSumLoop env fileSize fuel size n ret) := by
  induction fuel generalizing size n ret with
  | zero => exact Prog.Steps.stuck
  | succ fuel ih =>
    rw [Upgrade.checkSumLoop]
    split_ifs
    · exact bind (readInand _) fun got => bind (Prog.Steps.get refl) fun s => ih _ _ _
    · exact bind (readInand _) fun got => bind (Prog.Steps.get refl) fun s => Prog.Steps.ret refl _

theorem getCheckSum (fileSize : ℤ) : Prog.Steps (WritesFrom a) (getCheckSum env fileSize) :=
  checkSumLoop _ _ _ _ _

end WritesFrom

/-- A stage lies on the device, at or behind `a`. -/
structure Stage.Behind (env : Env) (a : ℕ) (t : Stage) : Prop where
  onDevice : t.OnDevice env
  flash : a ≤ fromEnd env t.flash
  verify : a ≤ fromEnd env t.verify

/-- Whatever comes up short in it, such a stage writes at or behind `a`. -/
theorem stage_writesFrom {a : ℕ} {t : Stage} (ht : t.Behind env a) {s s' : St}
    {r : Except Failure Unit} (h : stage env t s = some (r, s')) :
    ∃ ws, writesOf s'.log = writesOf s.log ++ ws ∧ ∀ w ∈ ws, a ≤ w.1 := by
  rw [stage, Prog.bind_ok (seekSource_apply t s),
    Prog.bind_ok (seekInand_apply ht.onDevice.flash ht.onDevice.flash_le _)] at h
  obtain ⟨ws, hws, hpos⟩ := WritesFrom.bind (WritesFrom.loading _) (fun _ =>
    WritesFrom.bind (WritesFrom.seekInand ht.verify) fun _ =>
    WritesFrom.bind (WritesFrom.getCheckSum _) fun _ =>
      Prog.Steps.exitIf WritesFrom.refl _ _) _ _ _ h
  exact ⟨ws, hws, (hpos ht.flash).2⟩

/-- And so do any number of them, as far as they get. -/
theorem runStages_writesFrom {a : ℕ} {ts : List Stage} (hts : ∀ t ∈ ts, t.Behind env a)
    {s s' : St} {r : Except Failure Unit} (h : runStages env ts s = some (r, s')) :
    ∃ ws, writesOf s'.log = writesOf s.log ++ ws ∧ ∀ w ∈ ws, a ≤ w.1 := by
  induction ts generalizing s with
  | nil =>
    cases h
    exact ⟨[], (List.append_nil _).symm, fun w hw => absurd hw List.not_mem_nil⟩
  | cons t ts ih =>
    have ht := hts t List.mem_cons_self
    rcases Prog.bind_eq_some.mp h with ⟨e, hst, -⟩ | ⟨_, s1, hst, hrest⟩
    · exact stage_writesFrom ht hst
    · obtain ⟨ws, hws, hw⟩ := stage_writesFrom ht hst
      obtain ⟨vs, hvs, hv⟩ := ih (fun u hu => hts u (List.mem_cons_of_mem _ hu)) hrest
      refine ⟨ws ++ vs, by rw [hvs, hws, List.append_assoc], fun w hmem => ?_⟩
      exact (List.mem_append.mp hmem).elim (hw w) (hv w)

/-! ## A section in one write -/

/-- The `read` of call `c` and the `write` behind it move all of `n` bytes,
    where that many are there. -/
def FullAt (env : Env) (c n : ℕ) : Prop :=
  transferred (env.io c) n n = n ∧ transferred (env.io (c + 1)) n n = n

/-- Nothing but the room can keep a full transfer short. -/
theorem transferred_of_le {r : IoResult} {n avail : ℕ} (h : transferred r n n = n)
    (hle : n ≤ avail) : transferred r n avail = n := by
  obtain ⟨hn, -⟩ := transferred_eq h
  unfold transferred at *
  rw [if_neg (by omega)] at h ⊢
  cases r <;> simp only at * <;> omega

/-- `loading` of less than 4 MB is one `read` and one `write`. -/
theorem loading_one {n : ℕ} {s s' : St} {r : Except Failure ℤ} (hn : n < inandSizePerWrite)
    (h : loading env n s = some (r, s')) :
    r = .ok 0 ∧ s'.calls = s.calls + 2 ∧ ∃ bs, s'.log = s.log ++ [.write (s.inandPos, bs)] ∧
      (FullAt env s.calls n → n ≤ env.file.length - s.sdPos → n ≤ env.deviceSize - s.inandPos →
        bs = slice env.file s.sdPos n) := by
  unfold loading at h
  rcases hfuel : env.fuel with _ | fuel
  · rw [hfuel] at h
    cases h
  rw [hfuel, loadingLoop, if_neg (by rw [Nat.div_eq_of_lt hn]; exact lt_irrefl 0)] at h
  cases h
  refine ⟨rfl, rfl, _, rfl, fun hfull hfile hdev => ?_⟩
  simp only [transferred_of_le hfull.1 hfile, transferred_of_le hfull.2 hdev, Int.toNat_natCast]
  have hload := load_store s.buffer 0 (slice env.file s.sdPos n)
  rw [length_slice hfile] at hload
  exact hload

/-- `get_check_sum` of less than 4 MB is one `read`. -/
theorem getCheckSum_one {size : ℤ} {s s' : St} {r : Except Failure ℕ}
    (hsize : size < inandSizePerWrite) (h : getCheckSum env size s = some (r, s')) :
    (∃ sum, r = .ok sum) ∧ s'.calls = s.calls + 1 ∧ s'.log = s.log := by
  unfold getCheckSum at h
  rcases hfuel : env.fuel with _ | fuel
  · rw [hfuel] at h
    cases h
  rw [hfuel, checkSumLoop, if_neg (by simp only [inandSizePerWrite] at *; omega)] at h
  cases h
  exact ⟨⟨_, rfl⟩, rfl, rfl⟩

/-- A stage that writes a section at a known place of the file with one `write`
    and checks it with one `read`. -/
structure Stage.OneWrite (env : Env) (t : Stage) : Prop where
  onDevice : t.OnDevice env
  size : t.size < inandSizePerWrite
  verifySize : t.verifySize < inandSizePerWrite
  source : ∀ pos, t.source pos = t.source 0
  inFile : t.size ≤ env.file.length - t.source 0
  inDevice : t.size ≤ env.deviceSize - fromEnd env t.flash

/-- It makes three calls and one `write`, of the section if the first two calls
    are full. -/
theorem stage_one {t : Stage} (ht : t.OneWrite env) {s s' : St} {r : Except Failure Unit}
    (h : stage env t s = some (r, s')) :
    s'.calls = s.calls + 3 ∧ ∃ w, writesOf s'.log = writesOf s.log ++ [w] ∧
      (FullAt env s.calls t.size → w = t.write env (t.source 0)) := by
  rw [stage, Prog.bind_ok (seekSource_apply t s),
    Prog.bind_ok (seekInand_apply ht.onDevice.flash ht.onDevice.flash_le _)] at h
  -- neither `loading` nor `get_check_sum` leaves the program
  rcases Prog.bind_eq_some.mp h with ⟨e, hl, -⟩ | ⟨got, s1, hl, h⟩
  · cases (loading_one ht.size hl).1
  obtain ⟨-, hcalls, bs, hlog, hbs⟩ := loading_one ht.size hl
  rw [Prog.bind_ok (seekInand_apply ht.onDevice.verify ht.onDevice.verify_le _)] at h
  rcases Prog.bind_eq_some.mp h with ⟨e, hc, -⟩ | ⟨sum, s2, hc, h⟩
  · obtain ⟨sum, hsum⟩ := (getCheckSum_one ht.verifySize hc).1
    cases hsum
  obtain ⟨-, hcalls', hlog'⟩ := getCheckSum_one ht.verifySize hc
  have hs2 : s2 = s' := by
    unfold Prog.exitIf at h
    split_ifs at h <;> cases h <;> rfl
  subst hs2
  refine ⟨by rw [hcalls', hcalls], (fromEnd env t.flash, bs), ?_, fun hfull => ?_⟩
  · rw [hlog', hlog]
    exact writesOf_append _ _
  · rw [Stage.write, hbs hfull (by simp only [ht.source]; exact ht.inFile) ht.inDevice]
    simp only [ht.source s.sdPos]

/-! ## The first stages of a run -/

/-- What stages of one `write` put on the flash. -/
def oneWrites (env : Env) (ts : List Stage) : List Write := ts.map fun t => t.write env (t.source 0)

/-- A run through stages of one `write`, `ts`, and behind them stages that lie at
    or behind `a`: the `j`-th write is the one of the `j`-th stage if its transfers
    are full, and those behind `ts` lie at or behind `a`. -/
theorem runStages_writes {a : ℕ} {ts us : List Stage} (hts : ∀ t ∈ ts, t.OneWrite env)
    (hus : ∀ t ∈ us, t.Behind env a) {s s' : St} {r : Except Failure Unit}
    (h : runStages env (ts ++ us) s = some (r, s')) :
    ∃ ws, writesOf s'.log = writesOf s.log ++ ws ∧ (r = .ok () → ts.length ≤ ws.length) ∧
      (∀ w ∈ ws.drop ts.length, a ≤ w.1) ∧
      ∀ j t w, ts[j]? = some t → ws[j]? = some w → FullAt env (s.calls + 3 * j) t.size →
        w = t.write env (t.source 0) := by
  induction ts generalizing s with
  | nil =>
    obtain ⟨ws, hws, hw⟩ := runStages_writesFrom hus h
    refine ⟨ws, hws, fun _ => Nat.zero_le _, hw, ?_⟩
    rintro j t w ⟨⟩
  | cons t ts ih =>
    have ht := hts t List.mem_cons_self
    rcases Prog.bind_eq_some.mp h with ⟨e, hst, rfl⟩ | ⟨_, s1, hst, hrest⟩
    · obtain ⟨-, w, hw, hfull⟩ := stage_one ht hst
      refine ⟨[w], hw, by simp, by simp, fun j u v hu hv hj => ?_⟩
      cases j with
      | zero =>
        cases hu
        cases hv
        exact hfull hj
      | succ j => cases hv
    · obtain ⟨hcalls, w, hw, hfull⟩ := stage_one ht hst
      obtain ⟨ws, hws, hlen, hfrom, hone⟩ := ih (fun u hu => hts u (List.mem_cons_of_mem _ hu)) hrest
      refine ⟨w :: ws, by rw [hws, hw, List.append_assoc, List.singleton_append], fun hr => ?_,
        hfrom, fun j u v hu hv hj => ?_⟩
      · have := hlen hr
        simp only [List.length_cons]
        omega
      · cases j with
        | zero =>
          cases hu
          cases hv
          exact hfull hj
        | succ j =>
          refine hone j u v hu hv ?_
          rw [hcalls, show s.calls + 3 + 3 * j = s.calls + 3 * (j + 1) by omega]
          exact hj

/-- The first `k` of these writes, if the transfers of the stages among `ts` they
    belong to are full. -/
theorem runStages_take {a : ℕ} {ts us : List Stage} (hts : ∀ t ∈ ts, t.OneWrite env)
    (hus : ∀ t ∈ us, t.Behind env a) {s s' : St} {r : Except Failure Unit}
    (h : runStages env (ts ++ us) s = some (r, s')) {k : ℕ}
    (hk : (writesOf s.log).length + k ≤ (writesOf s'.log).length)
    (hfull : ∀ j t, j < k → ts[j]? = some t → FullAt env (s.calls + 3 * j) t.size) :
    ∃ later : List Write, (∀ w ∈ later, a ≤ w.1) ∧
      ((writesOf s'.log).drop (writesOf s.log).length).take k =
        (oneWrites env ts ++ later).take k := by
  obtain ⟨ws, hws, -, hfrom, hone⟩ := runStages_writes hts hus h
  refine ⟨ws.drop ts.length, hfrom, ?_⟩
  rw [hws, List.length_append] at hk
  rw [hws, List.drop_left]
  apply List.ext_getElem?
  intro j
  rw [List.getElem?_take, List.getElem?_take]
  split_ifs with hj
  · rcases Nat.lt_or_ge j ts.length with hlt | hge
    · rw [List.getElem?_append_left (by simpa [oneWrites] using hlt), oneWrites, List.getElem?_map,
        List.getElem?_eq_getElem hlt, List.getElem?_eq_getElem (by omega)]
      exact congrArg some (hone j _ _ (List.getElem?_eq_getElem hlt)
        (List.getElem?_eq_getElem (by omega)) (hfull j _ hj (List.getElem?_eq_getElem hlt)))
    · rw [List.getElem?_append_right (by simpa [oneWrites] using hge), List.getElem?_drop, oneWrites,
        List.length_map, Nat.add_sub_cancel' hge]
  · rfl

end SmartQ.Firmware.Upgrade
