import SmartQ.Qi.I2cBitbang

/-!
# Programs of the I2C driver

Runs of `i2c_next_state` over a whole program.

* `done_bytes`: bytes, and one read behind them, are carried out for every answer of the slave.
* `conforms_iff`: these are the only programs that are. A repeated START is not said on the bus,
  and a symbol behind a read finds a counter that has run down.
* `i2cWrite_conforms`, `i2cRead_not_conforms`: the two programs of the driver.
-/

namespace SmartQ.Qi.I2cBitbang

open SmartQ.Lib SmartQ.Lib.I2cBus

/-! ## Bytes and reads -/

section Phases

variable (sda : ℕ → Bool) {bb : Bb} {i r n : ℕ} {es : List Event}

/-- A byte up to its acknowledge slot. -/
theorem reaches_sent (h : Phase bb .adsTxS i r n es) (hcount : bb.count = 8) {b : Byte}
    {ws : List (BitVec 32)} (hload : Loaded bb i (Symbol.word (.byte b) :: ws)) :
    ∃ bb', Reaches (i2cNextState sda) bb bb' ∧ Phase bb' .adsTxAckH i r n (es ++ byteBits b) ∧
      Loaded bb' (i + 1) ws ∧ bb'.data.length = bb.data.length := by
  obtain ⟨bb', hreach, hphase, hdata⟩ := reaches_bits sda 7 h hload.head (by omega)
  have hbits := bits_byte b
  refine ⟨bb', hreach, ?_, hload.tail le_rfl hdata, ?_⟩
  · rw [← hbits]
    exact hphase
  · rw [hdata, List.length_set]

/-- A byte that is taken. -/
theorem reaches_taken (h : Phase bb .adsTxS i r n es) (hcount : bb.count = 8) {b : Byte}
    {ws : List (BitVec 32)} (hload : Loaded bb i (Symbol.word (.byte b) :: ws))
    (hack : sda n = false) :
    ∃ bb' bb'' : Bb, Reaches (i2cNextState sda) bb bb' ∧
      i2cNextState sda bb' = nextSymbol bb'' ∧
      Phase bb'' .adsTxAckL (i + 1) r (n + 1) (es ++ byteBits b ++ [.bit true]) ∧
      bb''.count = 8 ∧ Loaded bb'' (i + 1) ws ∧ bb''.data.length = bb.data.length := by
  obtain ⟨bb₁, hreach, hphase, hload', hlength⟩ := reaches_sent sda h hcount hload
  obtain ⟨bb', bb'', hreach', hnext, hphase', hcount', hdata⟩ := reaches_ack sda hphase hack
  refine ⟨bb', bb'', hreach.trans hreach', hnext, hphase', hcount', ?_, ?_⟩
  · intro j w hw
    rw [hdata]
    exact hload' j w hw
  · rw [hdata, hlength]

/-- A read up to the word behind it. -/
theorem reaches_received (h : Phase bb .dataRxS i r n es) (hcount : bb.count = 8)
    (hv : bb.data[r]? = some 0) {next : BitVec 32} (hnext : bb.data[i + 1]? = some next)
    (hr : r ≤ i) :
    ∃ bb' bb'' : Bb, Reaches (i2cNextState sda) bb bb' ∧
      i2cNextState sda bb' = nextSymbol bb'' ∧
      Phase bb'' .dataRxAckL (i + 1) (r + 1) (n + 8)
        (es ++ List.replicate 8 (.bit true) ++ [.bit (decide (next ≠ doRead))]) ∧
      bb''.count = 0 ∧
      bb''.data = bb.data.set r
        (BitVec.ofNat 32 (byteOf ((List.range 8).map fun j => sda (n + j)))) := by
  obtain ⟨bb₁, hreach, hphase, hcount', hdata⟩ :=
    reaches_samples sda hr 7 h hv hnext (by omega)
  have hnext' : bb₁.data[i + 1]? = some next := by
    rw [hdata, List.getElem?_set_ne (by omega), hnext]
  obtain ⟨bb', bb'', hreach', hstep, hphase', hcount'', hdata'⟩ :=
    reaches_nak sda hphase hnext'
  refine ⟨bb', bb'', hreach.trans hreach', hstep, hphase', hcount''.trans hcount', ?_⟩
  rw [hdata', hdata]
  exact congrArg (bb.data.set r) (received_eq sda 8 n 0)

end Phases

/-! ## Programs that are carried out -/

section Done

variable (sda : ℕ → Bool) {bb bb' : Bb} {i n : ℕ} {es : List Event} {o : Outcome}

/-- From `bb` on, where `es` has been said, the run ends as `o` says. -/
def Done (bb : Bb) (es : List Event) (o : Outcome) : Prop :=
  ∃ m ret bb', ticks (i2cNextState sda) m bb = some (ret, bb') ∧ ret ≠ 0 ∧
    (bus bb').events = es ++ o.events ∧ ret = o.ret ∧
    ∀ (j v : ℕ), o.reads[j]? = some v → bb'.data[j]? = some (BitVec.ofNat 32 v)

theorem Done.of_reaches (h : Reaches (i2cNextState sda) bb bb') (hdone : Done sda bb' es o) :
    Done sda bb es o := by
  obtain ⟨k, hk⟩ := h
  obtain ⟨m, ret, bb'', hrun, hrest⟩ := hdone
  exact ⟨k + m, ret, bb'', (ticks_add hk).trans hrun, hrest⟩

/-- The STOP of a program that delivers what is already in `data`. -/
theorem done_stop {bb₁ : Bb} {r : ℕ} {state : States} (h : Phase bb state i r n es)
    (hnext : i2cNextState sda bb₁ = nextSymbol bb) (hw : bb.data[i]? = some doStop)
    {reads : List ℕ}
    (hreads : ∀ (j v : ℕ), reads[j]? = some v → bb.data[j]? = some (BitVec.ofNat 32 v)) :
    Done sda bb₁ es ⟨[.stop], 1, reads⟩ := by
  obtain ⟨bb₂, hstop, hphase, hdata⟩ := nextSymbol_stop h hw
  obtain ⟨bb₃, hrun, hevents, hdata'⟩ := ticks_stop sda hphase
  refine Done.of_reaches sda (Reaches.one (hnext.trans hstop))
    ⟨4, 1, bb₃, hrun, one_ne_zero, hevents, rfl, ?_⟩
  intro j v hv
  rw [hdata', hdata]
  exact hreads j v hv

/-- One read at the end of a program. -/
theorem done_read {bb₁ : Bb} {state : States} (h : Phase bb state i 0 n es)
    (hnext : i2cNextState sda bb₁ = nextSymbol bb) (hcount : bb.count = 8)
    (hload : Loaded bb i (encode [.read])) (hi : 0 < i) :
    Done sda bb₁ es (outcome sda n [.read]) := by
  have hlength : i < bb.data.length := (List.getElem?_eq_some_iff.mp hload.head).1
  obtain ⟨bb₂, hnextRead, hphase, hcount', hdata⟩ :=
    nextSymbol_read h hload.head (by omega)
  have hv : bb₂.data[0]? = some 0 := by
    rw [hdata, List.getElem?_set_self (by omega)]
  have hstop : bb₂.data[i + 1]? = some doStop := by
    rw [hdata, List.getElem?_set_ne (by omega)]
    exact hload 1 doStop rfl
  obtain ⟨bb₃, bb₄, hreach, hstep, hphase', -, hdata'⟩ :=
    reaches_received sda hphase (hcount'.trans hcount) hv hstop (by omega)
  have hstop' : bb₄.data[i + 1]? = some doStop := by
    rw [hdata', List.getElem?_set_ne (by omega), hstop]
  have hread : ∀ (j v : ℕ), (outcome sda n [.read]).reads[j]? = some v →
      bb₄.data[j]? = some (BitVec.ofNat 32 v) := by
    intro j v hj
    cases j with
    | zero =>
      cases hj
      rw [hdata', List.getElem?_set_self (by rw [hdata, List.length_set]; omega)]
    | succ j => cases hj
  obtain ⟨m, ret, bb₅, hrun, hret, hevents, hrest⟩ := done_stop sda hphase' hstep hstop' hread
  refine Done.of_reaches sda ((Reaches.one (hnext.trans hnextRead)).trans hreach)
    ⟨m, ret, bb₅, hrun, hret, ?_, hrest⟩
  rw [hevents, List.append_assoc, List.append_assoc]
  rfl

/-- A byte, where the program behind it is carried out if the byte is taken. -/
theorem done_byte (h : Phase bb .adsTxS i 0 n es) (hcount : bb.count = 8) {b : Byte}
    {ws : List (BitVec 32)} {prog : List Symbol}
    (hload : Loaded bb i (Symbol.word (.byte b) :: ws))
    (hrest : ∀ bb₁ bb₂ : Bb, i2cNextState sda bb₁ = nextSymbol bb₂ →
      Phase bb₂ .adsTxAckL (i + 1) 0 (n + 1) (es ++ byteBits b ++ [.bit true]) →
      bb₂.count = 8 → Loaded bb₂ (i + 1) ws →
      Done sda bb₁ (es ++ byteBits b ++ [.bit true]) (outcome sda (n + 1) prog)) :
    Done sda bb es (outcome sda n (.byte b :: prog)) := by
  cases hack : sda n with
  | true =>
    obtain ⟨bb₁, hreach, hphase, -, -⟩ := reaches_sent sda h hcount hload
    obtain ⟨bb₂, hstep, hevents⟩ := done_nack sda hphase hack
    have hout : outcome sda n (.byte b :: prog) = ⟨byteBits b, -1, []⟩ := if_pos hack
    rw [hout]
    refine Done.of_reaches sda hreach
      ⟨1, -1, bb₂, ticks_succ_of_ne hstep (by decide), by decide, hevents, rfl, ?_⟩
    intro j v hj
    cases hj
  | false =>
    obtain ⟨bb₁, bb₂, hreach, hstep, hphase, hcount', hload', -⟩ :=
      reaches_taken sda h hcount hload hack
    obtain ⟨m, ret, bb₃, hrun, hret, hevents, hr, hreads⟩ :=
      hrest bb₁ bb₂ hstep hphase hcount' hload'
    have hout : outcome sda n (.byte b :: prog) = { outcome sda (n + 1) prog with
        events := byteBits b ++ .bit true :: (outcome sda (n + 1) prog).events } :=
      if_neg (ne_true_of_eq_false hack)
    rw [hout]
    refine Done.of_reaches sda hreach ⟨m, ret, bb₃, hrun, hret, ?_, hr, hreads⟩
    rw [hevents, List.append_assoc, List.append_assoc]
    rfl

/-- Bytes, and one read behind them at most. -/
theorem done_bytes {tail : List Symbol} (htail : tail = [] ∨ tail = [.read]) (bs : List Byte) :
    ∀ {bb : Bb} {i n : ℕ} {es : List Event} (b : Byte), Phase bb .adsTxS i 0 n es →
      bb.count = 8 → Loaded bb i (encode (.byte b :: (bs.map Symbol.byte ++ tail))) →
      Done sda bb es (outcome sda n (.byte b :: (bs.map Symbol.byte ++ tail))) := by
  induction bs with
  | nil =>
    intro bb i n es b h hcount hload
    refine done_byte sda h hcount hload ?_
    intro bb₁ bb₂ hstep hphase hcount' hload'
    rcases htail with rfl | rfl
    · exact done_stop sda hphase hstep hload'.head fun j v hj => by cases hj
    · exact done_read sda hphase hstep hcount' hload' (Nat.succ_pos i)
  | cons b' bs ih =>
    intro bb i n es b h hcount hload
    refine done_byte sda h hcount hload ?_
    intro bb₁ bb₂ hstep hphase hcount' hload'
    obtain ⟨bb₃, hbyte, hphase', hcount'', hdata⟩ := nextSymbol_byte hphase hload'.head
    refine Done.of_reaches sda (Reaches.one (hstep.trans hbyte)) (ih b' hphase' ?_ ?_)
    · exact hcount''.trans hcount'
    · intro j w hw
      rw [hdata]
      exact hload' j w hw

/-- The START of a program. -/
theorem reaches_ready {prog : List Symbol} (h : Ready prog bb) :
    ∃ bb', Reaches (i2cNextState sda) bb bb' ∧ Phase bb' .adsTxS 0 0 0 [.start] ∧
      bb'.count = 8 ∧ Loaded bb' 0 (encode prog) ∧ bb'.data.length = 8 := by
  obtain ⟨hstate, hdata, hlength, hsamples, hlines⟩ := h
  refine ⟨{ bb with
    state := .adsTxS
    count := 8
    index := 0
    indexRead := 0
    lines := bb.lines ++ [(true, true)] ++ [(true, false)] ++ [(false, false)] },
    ((Reaches.one (t := { bb.set true true with index := 0, indexRead := 0, state := .start1 })
      ?_).trans (Reaches.one rfl)).trans (Reaches.one rfl), ?_, rfl, ?_, hlength⟩
  · simp only [i2cNextState, hstate]
  · have hbus : idle.read (bb.lines ++ [(true, true)] ++ [(true, false)] ++ [(false, false)]) =
        ⟨false, false, false, [.start]⟩ := by
      rw [hlines]
      rfl
    exact ⟨rfl, rfl, rfl, hsamples, congrArg Bus.scl hbus, congrArg Bus.events hbus⟩
  · intro j w hw
    obtain ⟨rest, hrest⟩ := hdata
    rw [Nat.zero_add]
    show bb.data[j]? = some w
    rw [← hrest, List.getElem?_append_left (List.getElem?_eq_some_iff.mp hw).1, hw]

theorem conforms_of_plain {prog : List Symbol} (hplain : Plain prog) (h : Ready prog bb) :
    Conforms sda prog bb := by
  obtain ⟨bb', hreach, hphase, hcount, hload, -⟩ := reaches_ready sda h
  obtain ⟨bs, hbs, hprog⟩ := hplain
  obtain ⟨b, bs, rfl⟩ := List.exists_cons_of_ne_nil hbs
  obtain ⟨tail, htail, rfl⟩ : ∃ tail, (tail = [] ∨ tail = [Symbol.read]) ∧
      prog = .byte b :: (bs.map Symbol.byte ++ tail) := by
    rcases hprog with rfl | rfl
    · exact ⟨[], Or.inl rfl, by rw [List.append_nil]; rfl⟩
    · exact ⟨[.read], Or.inr rfl, rfl⟩
  obtain ⟨m, ret, bb'', hrun, hret, hevents, hr, hreads⟩ :=
    Done.of_reaches sda hreach (done_bytes sda htail bs b hphase hcount hload)
  exact ⟨m, ret, bb'', hrun, hret, hevents, hr, hreads⟩

end Done

/-! ## Programs that are not -/

section Not

variable (sda : ℕ → Bool) {bb bb' : Bb} {i r n : ℕ} {es : List Event}

theorem store_lines {j : ℕ} {w : BitVec 32} (h : bb.store j w = some bb') :
    bb'.lines = bb.lines := by
  unfold Bb.store at h
  split_ifs at h
  cases h
  rfl

theorem nextSymbol_lines {ret : ℤ} (h : nextSymbol bb = some (ret, bb')) :
    bb'.lines = bb.lines := by
  unfold nextSymbol at h
  obtain ⟨w, -, h⟩ := Option.bind_eq_some_iff.mp h
  split_ifs at h
  · cases h
    rfl
  · cases h
    rfl
  · obtain ⟨bb₁, hstore, h⟩ := Option.bind_eq_some_iff.mp h
    have hlines := store_lines hstore
    cases h
    exact hlines
  · cases h
    rfl
  · cases h
    rfl

/-- A call adds to the calls of `set`. -/
theorem lines_next {ret : ℤ} (h : i2cNextState sda bb = some (ret, bb')) :
    bb.lines <+: bb'.lines := by
  unfold i2cNextState at h
  cases hstate : bb.state
  all_goals
    rw [hstate] at h
    simp only at h
  case init | start1 | start2 | dataRxS | dataRxH | stop1 | stop2 | stop3 | stop4 =>
    cases h
    exact List.prefix_append _ _
  case adsTxS | adsTxH | dataRxAckH =>
    obtain ⟨_, -, h⟩ := Option.bind_eq_some_iff.mp h
    cases h
    exact List.prefix_append _ _
  case adsTxL =>
    obtain ⟨w, -, h⟩ := Option.bind_eq_some_iff.mp h
    obtain ⟨bb₁, hstore, h⟩ := Option.bind_eq_some_iff.mp h
    have hlines : bb.lines <+: bb₁.lines := by
      rw [store_lines hstore]
      exact List.prefix_append _ _
    split_ifs at h
    · cases h
      exact hlines
    · cases h
      exact hlines.trans (List.prefix_append _ _)
  case adsTxAckH =>
    split_ifs at h
    · cases h
      exact List.prefix_rfl
    · cases h
      exact List.prefix_append _ _
  case adsTxAckL =>
    rw [nextSymbol_lines h]
    exact List.prefix_append _ _
  case dataRxL =>
    obtain ⟨v, -, h⟩ := Option.bind_eq_some_iff.mp h
    obtain ⟨bb₁, hstore, h⟩ := Option.bind_eq_some_iff.mp h
    rw [← store_lines hstore]
    split_ifs at h
    · cases h
      exact List.prefix_append _ _
    · obtain ⟨_, -, h⟩ := Option.bind_eq_some_iff.mp h
      cases h
      exact List.prefix_append _ _
  case dataRxAckL =>
    obtain ⟨_, -, h⟩ := Option.bind_eq_some_iff.mp h
    rw [nextSymbol_lines h]
    exact List.prefix_append _ _

/-- What was said when the driver is at `bb'` is the beginning of all that is said. -/
theorem not_conforms {prog : List Symbol} (h : Reaches (i2cNextState sda) bb bb')
    (hsaid : ¬ (bus bb').events <+: .start :: (outcome sda 0 prog).events) :
    ¬ Conforms sda prog bb := by
  rintro ⟨k, ret, bb'', hrun, hret, hevents, -, -⟩
  obtain ⟨m, hm⟩ := h.ticks_of_done hrun hret
  have hlines : bb'.lines <+: bb''.lines :=
    ticks_invariant (P := fun s t : Bb => s.lines <+: t.lines) (fun _ => List.prefix_rfl)
      (fun _ _ _ h h' => h.trans h')
      (fun _ _ _ => lines_next sda) hm
  obtain ⟨levels, hlevels⟩ := hlines
  refine hsaid ?_
  rw [← hevents, ← hlevels, read_lines]
  exact Bus.events_read levels (bus bb')

/-- A byte that is sent with a counter that has run down goes on for ever. -/
theorem reaches_tx (m : ℕ) :
    ∀ {bb : Bb} {es : List Event} {w : BitVec 32}, Phase bb .adsTxS i r n es → bb.count ≤ 0 →
      bb.data[i]? = some w →
      ∃ bb', Reaches (i2cNextState sda) bb bb' ∧ es.length + m ≤ (bus bb').events.length := by
  induction m with
  | zero =>
    intro bb es w h _ _
    exact ⟨bb, Reaches.refl bb, by rw [h.events]; exact le_rfl⟩
  | succ m ih =>
    intro bb es w h hcount hw
    obtain ⟨bb₁, hreach, hphase, hcount', hdata⟩ := reaches_bit sda h hw (by omega)
    have hlt : i < bb.data.length := (List.getElem?_eq_some_iff.mp hw).1
    obtain ⟨bb₂, hreach', hlength⟩ := ih (w := w <<< 1) hphase (by omega) (by
      rw [hdata, List.getElem?_set_self hlt])
    refine ⟨bb₂, hreach.trans hreach', ?_⟩
    rw [List.length_append, List.length_singleton] at hlength
    omega

/-- So does a read. -/
theorem reaches_rx (m : ℕ) :
    ∀ {bb : Bb} {es : List Event} {n : ℕ} {v : BitVec 32}, Phase bb .dataRxS i r n es →
      bb.count ≤ 0 → bb.data[r]? = some v →
      ∃ bb', Reaches (i2cNextState sda) bb bb' ∧ es.length + m ≤ (bus bb').events.length := by
  induction m with
  | zero =>
    intro bb es n v h _ _
    exact ⟨bb, Reaches.refl bb, by rw [h.events]; exact le_rfl⟩
  | succ m ih =>
    intro bb es n v h hcount hv
    obtain ⟨bb₁, hreach, hphase, hcount', hdata⟩ := reaches_sample sda h hv (by omega)
    have hlt : r < bb.data.length := (List.getElem?_eq_some_iff.mp hv).1
    obtain ⟨bb₂, hreach', hlength⟩ := ih hphase (by omega)
      (by rw [hdata]; exact List.getElem?_set_self hlt)
    refine ⟨bb₂, hreach.trans hreach', ?_⟩
    rw [List.length_append, List.length_singleton] at hlength
    omega

/-- The bytes in front of `ws`, all of them taken. -/
theorem reaches_all (bs : List Byte) :
    ∀ {bb : Bb} {i n : ℕ} {es : List Event} {ws : List (BitVec 32)} (b : Byte),
      Phase bb .adsTxS i 0 n es → bb.count = 8 →
      Loaded bb i ((b :: bs).map (fun b => Symbol.word (.byte b)) ++ ws) →
      ∃ (bb₁ bb₂ : Bb) (j : ℕ), Reaches (i2cNextState fun _ => false) bb bb₁ ∧
        i2cNextState (fun _ => false) bb₁ = nextSymbol bb₂ ∧ 0 < j ∧
        Phase bb₂ .adsTxAckL j 0 (n + (b :: bs).length)
          (es ++ (b :: bs).flatMap fun b => byteBits b ++ [.bit true]) ∧
        bb₂.count = 8 ∧ Loaded bb₂ j ws := by
  induction bs with
  | nil =>
    intro bb i n es ws b h hcount hload
    obtain ⟨bb₁, bb₂, hreach, hstep, hphase, hcount', hload', -⟩ :=
      reaches_taken (fun _ => false) h hcount hload rfl
    refine ⟨bb₁, bb₂, i + 1, hreach, hstep, Nat.succ_pos i, ?_, hcount', hload'⟩
    rw [List.flatMap_singleton, ← List.append_assoc]
    exact hphase
  | cons b' bs ih =>
    intro bb i n es ws b h hcount hload
    obtain ⟨bb₁, bb₂, hreach, hstep, hphase, hcount', hload', -⟩ :=
      reaches_taken (fun _ => false) h hcount hload rfl
    obtain ⟨bb₃, hbyte, hphase', hcount'', hdata⟩ := nextSymbol_byte hphase hload'.head
    have hload'' : Loaded bb₃ (i + 1) ((b' :: bs).map (fun b => Symbol.word (.byte b)) ++ ws) := by
      intro j w hw
      rw [hdata]
      exact hload' j w hw
    obtain ⟨bb₄, bb₅, j, hreach', hstep', hj, hphase'', hcount₅, hload₅⟩ :=
      ih b' hphase' (hcount''.trans hcount') hload''
    refine ⟨bb₄, bb₅, j, (hreach.trans (Reaches.one (hstep.trans hbyte))).trans hreach', hstep',
      hj, ?_, hcount₅, hload₅⟩
    have hlength : n + 1 + (b' :: bs).length = n + (b :: b' :: bs).length := by
      rw [List.length_cons (a := b)]
      omega
    rw [List.flatMap_cons, ← List.append_assoc, ← List.append_assoc, ← hlength]
    exact hphase''

theorem outcome_all (bs : List Byte) (prog : List Symbol) :
    ∀ n, (outcome (fun _ => false) n (bs.map Symbol.byte ++ prog)).events =
      (bs.flatMap fun b => byteBits b ++ [.bit true]) ++
        (outcome (fun _ => false) (n + bs.length) prog).events := by
  induction bs with
  | nil => exact fun _ => rfl
  | cons b bs ih =>
    intro n
    show byteBits b ++ .bit true ::
      (outcome (fun _ => false) (n + 1) (bs.map Symbol.byte ++ prog)).events = _
    rw [ih, List.flatMap_cons, List.append_assoc, List.append_assoc, List.length_cons,
      Nat.add_right_comm]
    rfl

/-- Every program is bytes and then another symbol, if any. -/
theorem exists_bytes (prog : List Symbol) :
    ∃ (bs : List Byte) (tail : List Symbol), prog = bs.map Symbol.byte ++ tail ∧
      ∀ b, tail.head? ≠ some (.byte b) := by
  induction prog with
  | nil => exact ⟨[], [], rfl, fun b h => by cases h⟩
  | cons s prog ih =>
    obtain ⟨bs, tail, rfl, htail⟩ := ih
    cases s with
    | byte b => exact ⟨b :: bs, tail, rfl, htail⟩
    | start => exact ⟨[], _, rfl, fun b h => by cases h⟩
    | read => exact ⟨[], _, rfl, fun b h => by cases h⟩

theorem not_prefix_of_ne {l l' : List Event} {e e' : Event} (pre : List Event) (hne : e ≠ e') :
    ¬ pre ++ (e :: l) <+: pre ++ (e' :: l') := by
  rw [List.prefix_append_right_inj, List.cons_prefix_cons]
  exact fun h => hne h.1

/-- A control in the first place is sent as if it were a byte. -/
theorem not_conforms_first {prog : List Symbol} (h : Ready prog bb)
    (hprog : ∀ b, prog.head? ≠ some (.byte b)) : ¬ Conforms (fun _ => false) prog bb := by
  obtain ⟨bb₁, hreach, hphase, hcount, hload, -⟩ := reaches_ready (fun _ => false) h
  have hsaid : ∀ w : BitVec 32, bb₁.data[0]? = some w → ∃ bb₂,
      Reaches (i2cNextState fun _ => false) bb bb₂ ∧ (bus bb₂).events =
        .start :: (List.range 8).map fun j => .bit (top (w <<< j)) := by
    intro w hw
    obtain ⟨bb₂, hreach', hphase', -⟩ :=
      reaches_bits (fun _ => false) 7 hphase hw (by omega)
    exact ⟨bb₂, hreach.trans hreach', hphase'.events⟩
  rcases prog with _ | ⟨b | _ | _, prog⟩
  · obtain ⟨bb₂, hreach', hevents⟩ := hsaid doStop hload.head
    refine not_conforms _ hreach' ?_
    rw [hevents]
    exact not_prefix_of_ne [.start] (by decide)
  · exact absurd rfl (hprog b)
  · obtain ⟨bb₂, hreach', hevents⟩ := hsaid doStart hload.head
    refine not_conforms _ hreach' ?_
    rw [hevents]
    exact not_prefix_of_ne [.start] (by decide)
  · obtain ⟨bb₂, hreach', hevents⟩ := hsaid doRead hload.head
    refine not_conforms _ hreach' ?_
    rw [hevents]
    exact not_prefix_of_ne (.start :: List.replicate 6 (.bit true))
      (show Event.bit (top (doRead <<< 6)) ≠ .bit true by decide)

/-- More has been said than there is to say. -/
theorem not_prefix_of_length {said target : List Event} (h : target.length < said.length) :
    ¬ said <+: target :=
  fun hprefix => absurd hprefix.length_le (by omega)

/-- A START where other symbols are in front of it. -/
theorem not_said_start {bb₁ : Bb} {state : States} {l : List Event}
    (hstep : i2cNextState sda bb₁ = nextSymbol bb) (h : Phase bb state i r n es)
    (hw : bb.data[i]? = some doStart) :
    ∃ bb', Reaches (i2cNextState sda) bb₁ bb' ∧
      ¬ (bus bb').events <+: es ++ .start :: l := by
  obtain ⟨bb₂, hnext, hphase⟩ := nextSymbol_start h hw
  obtain ⟨bb₃, hreach, hevents⟩ := reaches_restart sda hphase
  refine ⟨bb₃, (Reaches.one (hstep.trans hnext)).trans hreach, ?_⟩
  rw [hevents]
  exact not_prefix_of_ne es (by decide)

/-- A symbol behind a read. -/
theorem not_said_read {bb₁ : Bb} {prog : List Symbol} {x : Symbol}
    (hstep : i2cNextState sda bb₁ = nextSymbol bb) (h : Phase bb .adsTxAckL i 0 n es)
    (hcount : bb.count = 8) (hi : 0 < i) (hload : Loaded bb i (encode (.read :: x :: prog))) :
    ∃ bb', Reaches (i2cNextState sda) bb₁ bb' ∧
      ¬ (bus bb').events <+: es ++ (outcome sda n (.read :: x :: prog)).events := by
  have hlt : i < bb.data.length := (List.getElem?_eq_some_iff.mp hload.head).1
  obtain ⟨bb₂, hread, hphase, hcount₂, hdata⟩ := nextSymbol_read h hload.head (by omega)
  have hload₂ : Loaded bb₂ (i + 1) (encode (x :: prog)) := hload.tail (Nat.zero_le i) hdata
  have hv : bb₂.data[0]? = some 0 := by
    rw [hdata, List.getElem?_set_self (by omega)]
  obtain ⟨bb₃, bb₄, hreach, hstep₄, hphase₄, hcount₄, hdata₄⟩ :=
    reaches_received sda hphase (hcount₂.trans hcount) hv hload₂.head (by omega)
  have hdata' := hdata₄
  rw [hdata, List.set_set] at hdata'
  have hload₄ : Loaded bb₄ (i + 1) (encode (x :: prog)) := hload.tail (Nat.zero_le i) hdata'
  have hto := (Reaches.one (hstep.trans hread)).trans hreach
  cases x with
  | start =>
    obtain ⟨bb₅, hreach₅, hsaid⟩ := not_said_start sda hstep₄ hphase₄ hload₄.head
      (l := (outcome sda (n + 8) prog).events)
    refine ⟨bb₅, hto.trans hreach₅, ?_⟩
    rw [List.append_assoc, List.append_assoc] at hsaid
    exact hsaid
  | byte b =>
    obtain ⟨bb₅, hbyte, hphase₅, hcount₅, hdata₅⟩ := nextSymbol_byte hphase₄ hload₄.head
    obtain ⟨bb₆, hreach₆, hlength⟩ := reaches_tx sda
      ((es ++ (outcome sda n (.read :: .byte b :: prog)).events).length + 1) hphase₅
      (by omega) (by rw [hdata₅]; exact hload₄.head)
    refine ⟨bb₆, (hto.trans (Reaches.one (hstep₄.trans hbyte))).trans hreach₆, ?_⟩
    exact not_prefix_of_length (by omega)
  | read =>
    have hlt₄ : i + 1 < bb₄.data.length := (List.getElem?_eq_some_iff.mp hload₄.head).1
    obtain ⟨bb₅, hread₅, hphase₅, hcount₅, hdata₅⟩ :=
      nextSymbol_read hphase₄ hload₄.head (by omega)
    obtain ⟨bb₆, hreach₆, hlength⟩ := reaches_rx sda
      ((es ++ (outcome sda n (.read :: .read :: prog)).events).length + 1) hphase₅
      (by omega) (by rw [hdata₅]; exact List.getElem?_set_self (by omega))
    refine ⟨bb₆, (hto.trans (Reaches.one (hstep₄.trans hread₅))).trans hreach₆, ?_⟩
    exact not_prefix_of_length (by omega)

theorem not_conforms_of_not_plain {prog : List Symbol} (hplain : ¬ Plain prog)
    (h : Ready prog bb) : ¬ Conforms (fun _ => false) prog bb := by
  obtain ⟨bs, tail, rfl, htail⟩ := exists_bytes prog
  cases bs with
  | nil => exact not_conforms_first h htail
  | cons b bs =>
    obtain ⟨bb₁, hreach, hphase, hcount, hload, -⟩ := reaches_ready (fun _ => false) h
    have hwords : encode ((b :: bs).map Symbol.byte ++ tail) =
        (b :: bs).map (fun b => Symbol.word (.byte b)) ++ encode tail := by
      rw [encode, encode, List.map_append, List.map_map, List.append_assoc]
      rfl
    rw [hwords] at hload
    obtain ⟨bb₂, bb₃, j, hreach', hstep, hj, hphase', hcount', hload'⟩ :=
      reaches_all bs b hphase hcount hload
    have hout := outcome_all (b :: bs) tail 0
    obtain ⟨bb₄, hreach₄, hsaid⟩ : ∃ bb₄, Reaches (i2cNextState fun _ => false) bb₂ bb₄ ∧
        ¬ (bus bb₄).events <+: [.start] ++
          ((b :: bs).flatMap fun b => byteBits b ++ [.bit true]) ++
            (outcome (fun _ => false) (0 + (b :: bs).length) tail).events := by
      rcases tail with _ | ⟨b' | _ | _, _ | ⟨x, tail⟩⟩
      · exact absurd ⟨b :: bs, List.cons_ne_nil b bs, Or.inl (List.append_nil _)⟩ hplain
      · exact absurd rfl (htail b')
      · exact absurd rfl (htail b')
      · exact not_said_start _ hstep hphase' hload'.head
      · exact not_said_start _ hstep hphase' hload'.head
      · exact absurd ⟨b :: bs, List.cons_ne_nil b bs, Or.inr rfl⟩ hplain
      · exact not_said_read _ hstep hphase' hcount' hj hload'
    refine not_conforms _ ((hreach.trans hreach').trans hreach₄) ?_
    rw [hout]
    rw [List.append_assoc] at hsaid
    exact hsaid

/-- The driver carries a program out for every answer of the slave, whatever else is in `data`,
    exactly if the program is bytes with one read behind them at most. -/
theorem conforms_iff (prog : List Symbol) (hprog : (encode prog).length ≤ 8) :
    (∀ bb sda, Ready prog bb → Conforms sda prog bb) ↔ Plain prog := by
  constructor
  · intro h
    by_contra hplain
    have hready : Ready prog
        ⟨.init, 0, encode prog ++ List.replicate (8 - (encode prog).length) 0, 0, 0, 0, []⟩ := by
      refine ⟨rfl, List.prefix_append _ _, ?_, rfl, rfl⟩
      rw [List.length_append, List.length_replicate]
      omega
    exact not_conforms_of_not_plain hplain hready (h _ _ hready)
  · intro hplain bb sda h
    exact conforms_of_plain sda hplain h

/-- An address and two bytes. -/
theorem conforms_write :
    Plain [.byte 0x90, .byte 0x0F, .byte 0xA5] ∧
      ((∀ bb sda, Ready [.byte 0x90, .byte 0x0F, .byte 0xA5] bb →
        Conforms sda [.byte 0x90, .byte 0x0F, .byte 0xA5] bb) ↔
        Plain [.byte 0x90, .byte 0x0F, .byte 0xA5]) :=
  ⟨⟨[0x90, 0x0F, 0xA5], by decide, Or.inl rfl⟩,
    conforms_iff [.byte 0x90, .byte 0x0F, .byte 0xA5] (by decide)⟩

end Not

/-! ## `i2c_read` and `i2c_write` -/

section ReadWrite

variable {bb : Bb} {ads7 : Byte}

theorem toNat_address (hads7 : ads7.toNat < 128) : (2 * ads7).toNat = ads7.toNat <<< 1 := by
  rw [UInt8.toNat_mul, Nat.shiftLeft_eq]
  show 2 * ads7.toNat % 2 ^ 8 = _
  omega

theorem toNat_address_read (hads7 : ads7.toNat < 128) :
    (2 * ads7 + 1).toNat = ads7.toNat <<< 1 ||| 1 := by
  rw [UInt8.toNat_add, toNat_address hads7, Nat.shiftLeft_eq]
  show (ads7.toNat * 2 ^ 1 + 1) % 2 ^ 8 = _
  rw [Nat.mul_comm, ← Nat.two_pow_add_eq_or_of_lt (i := 1) (b := 1) (by decide)]
  omega

theorem ready_i2cWrite (hads7 : ads7.toNat < 128) (reg b : Byte) (hlength : bb.data.length = 8)
    (hsamples : bb.samples = 0) (hlines : bb.lines = []) :
    Ready [.byte (2 * ads7), .byte reg, .byte b] (i2cWrite bb ads7 reg b) := by
  refine ⟨rfl, ?_, ?_, hsamples, hlines⟩
  · show [BitVec.ofNat 32 (2 * ads7).toNat, BitVec.ofNat 32 reg.toNat, BitVec.ofNat 32 b.toNat,
      doStop, complete] <+: _
    rw [toNat_address hads7]
    exact List.prefix_append _ _
  · show ([_, _, _, _, _] ++ bb.data.drop 5).length = 8
    rw [List.length_append, List.length_drop, hlength]
    rfl

theorem ready_i2cRead (hads7 : ads7.toNat < 128) (reg : Byte) (hlength : bb.data.length = 8)
    (hsamples : bb.samples = 0) (hlines : bb.lines = []) :
    Ready [.byte (2 * ads7), .byte reg, .start, .byte (2 * ads7 + 1), .read]
      (i2cRead bb ads7 reg) := by
  refine ⟨rfl, ?_, ?_, hsamples, hlines⟩
  · show [BitVec.ofNat 32 (2 * ads7).toNat, BitVec.ofNat 32 reg.toNat, doStart,
      BitVec.ofNat 32 (2 * ads7 + 1).toNat, doRead, doStop, complete] <+: _
    rw [toNat_address hads7, toNat_address_read hads7]
    exact List.prefix_append _ _
  · show ([_, _, _, _, _, _, _] ++ bb.data.drop 7).length = 8
    rw [List.length_append, List.length_drop, hlength]
    rfl

/-- `i2c_write` is carried out for every answer of the slave. -/
theorem i2cWrite_conforms (sda : ℕ → Bool) (hads7 : ads7.toNat < 128) (reg b : Byte)
    (hlength : bb.data.length = 8) (hsamples : bb.samples = 0) (hlines : bb.lines = []) :
    Conforms sda [.byte (2 * ads7), .byte reg, .byte b] (i2cWrite bb ads7 reg b) :=
  conforms_of_plain sda ⟨[2 * ads7, reg, b], List.cons_ne_nil _ _, Or.inl rfl⟩
    (ready_i2cWrite hads7 reg b hlength hsamples hlines)

/-- `i2c_read` is not: its second START is not said. -/
theorem i2cRead_not_conforms (hads7 : ads7.toNat < 128) (reg : Byte)
    (hlength : bb.data.length = 8) (hsamples : bb.samples = 0) (hlines : bb.lines = []) :
    ¬ Conforms (fun _ => false) [.byte (2 * ads7), .byte reg, .start, .byte (2 * ads7 + 1), .read]
      (i2cRead bb ads7 reg) := by
  refine not_conforms_of_not_plain ?_ (ready_i2cRead hads7 reg hlength hsamples hlines)
  rintro ⟨bs, -, hbs⟩
  have hstart : Symbol.start ∉ bs.map Symbol.byte := by
    intro h
    obtain ⟨b, -, hb⟩ := List.mem_map.mp h
    cases hb
  rcases hbs with hbs | hbs
  · exact hstart (hbs ▸ by simp)
  · have hmem : Symbol.start ∈ bs.map Symbol.byte ++ [.read] := hbs ▸ by simp
    rcases List.mem_append.mp hmem with h | h
    · exact hstart h
    · cases List.mem_singleton.mp h

/-- The program of a read of the register 15 at the address 0x48. -/
theorem not_conforms_i2cRead :
    ¬ ∀ (prog : List Symbol) (bb : Bb) (sda : ℕ → Bool), (encode prog).length ≤ 8 →
      Ready prog bb → Conforms sda prog bb := by
  intro h
  have hread : ∀ bb : Bb, bb.data.length = 8 → bb.samples = 0 → bb.lines = [] → False := by
    intro bb hlength hsamples hlines
    have hads7 : (0x48 : Byte).toNat < 128 := by decide
    exact i2cRead_not_conforms hads7 0x0F hlength hsamples hlines
      (h _ _ _ (by decide) (ready_i2cRead hads7 0x0F hlength hsamples hlines))
  exact hread ⟨.init, 0, List.replicate 8 0, 0, 0, 0, []⟩ rfl rfl rfl

end ReadWrite

end SmartQ.Qi.I2cBitbang
