import SmartQ.Lib.Bytes
import SmartQ.Lib.I2cBus
import SmartQ.Lib.Runs

/-!
# The I2C driver

Model of `qi/src/drivers/i2c-bitbang.c`: the state machine that is called once for each half of a
bit. The levels that `set` gives the lines are kept in the order of the calls; `read_sda` answers
with the next value of a stream.

* `reaches_bits`, `reaches_samples`: the bits of a byte that is sent or received.
* `nextSymbol_byte` and the lemmas behind it: what each word of a program leads to.
-/

namespace SmartQ.Qi.I2cBitbang

open SmartQ.Lib SmartQ.Lib.I2cBus

/-! ## Model -/

/-- `enum i2c_bitbang_control`, as the words of a program. -/
def doStart : BitVec 32 := BitVec.ofInt 32 (-1)

/-- `I2CBB_DO_STOP` puts the stop condition on the bus. -/
def doStop : BitVec 32 := BitVec.ofInt 32 (-2)

/-- `I2CBB_DO_READ` reads a byte into the word it stands in. -/
def doRead : BitVec 32 := BitVec.ofInt 32 (-3)

/-- `I2CBB_DONE_COMPLETE` ends the program, behind a stop condition. -/
def complete : BitVec 32 := BitVec.ofInt 32 (-4)

/-- `enum i2c_bitbang_states`: where a transfer stands between two calls of `i2c_next_state`. -/
inductive States
  | init
  | start1
  | start2
  | adsTxS
  | adsTxH
  | adsTxL
  | adsTxAckH
  | adsTxAckL
  | dataRxS
  | dataRxH
  | dataRxL
  | dataRxAckH
  | dataRxAckL
  | stop1
  | stop2
  | stop3
  | stop4
  deriving DecidableEq

/-- `struct i2c_bitbang`, the number of calls of `read_sda` and the calls of `set`. -/
structure Bb where
  state : States
  count : ℤ
  data : List (BitVec 32)
  index : ℕ
  indexRead : ℕ
  samples : ℕ
  lines : List Levels

/-- `set`: the levels of both lines are recorded in the order in which they are set. -/
def Bb.set (bb : Bb) (clock data : Bool) : Bb := { bb with lines := bb.lines ++ [(clock, data)] }

/-- A store to `data`; none behind its end. -/
def Bb.store (bb : Bb) (i : ℕ) (w : BitVec 32) : Option Bb :=
  if i < bb.data.length then some { bb with data := bb.data.set i w } else none

/-- The bit that is sent next. -/
def top (w : BitVec 32) : Bool := w &&& 0x80 ≠ 0

/-- The switch over `data[index]` behind a byte that was sent or received (lines 102–120 and
    178–196). -/
def nextSymbol (bb : Bb) : Option (ℤ × Bb) := do
  let w ← bb.data[bb.index]?
  if w = doStart then some (0, { bb with state := .start1, index := bb.index + 1 })
  else if w = doStop then some (0, { bb with state := .stop1, index := bb.index + 1 })
  else if w = doRead then
    let bb ← bb.store bb.indexRead 0
    some (0, { bb with state := .dataRxS })
  else if w = complete then some (1, bb)
  else some (0, { bb with state := .adsTxS })

/-- The level of SDA in the acknowledge slot of a read. -/
def nak (bb : Bb) : Option Bool := do
  let next ← bb.data[bb.index + 1]?
  pure (next ≠ doRead)

section Model

variable (sda : ℕ → Bool)

/-- `i2c_next_state` (lines 50–218): one step of the transfer, which drives the lines and says
    how long to wait. -/
def i2cNextState (bb : Bb) : Option (ℤ × Bb) :=
  match bb.state with
  | .init => some (0, { bb.set true true with index := 0, indexRead := 0, state := .start1 })
  | .start1 => some (0, { bb.set true false with state := .start2 })
  | .start2 => some (0, { bb.set false false with count := 8, state := .adsTxS })
  | .adsTxS => do
    let w ← bb.data[bb.index]?
    some (0, { bb.set false (top w) with state := .adsTxH })
  | .adsTxH => do
    let w ← bb.data[bb.index]?
    some (0, { bb.set true (top w) with state := .adsTxL })
  | .adsTxL => do
    let w ← bb.data[bb.index]?
    let bb ← (bb.set false (top w)).store bb.index (w <<< 1)
    let bb := { bb with count := bb.count - 1 }
    if bb.count ≠ (0 : ℤ) then some (0, { bb with state := .adsTxS })
    else some (0, { bb.set false true with state := .adsTxAckH })
  | .adsTxAckH =>
    let ack := sda bb.samples
    let bb := { bb with samples := bb.samples + 1 }
    if ack then some (-1, bb)
    else some (0, { bb.set true true with state := .adsTxAckL })
  | .adsTxAckL => nextSymbol { bb.set false true with count := 8, index := bb.index + 1 }
  | .dataRxS => some (0, { bb.set false true with state := .dataRxH })
  | .dataRxH => some (0, { bb.set true true with state := .dataRxL })
  | .dataRxL => do
    let v ← bb.data[bb.indexRead]?
    let bit := sda bb.samples
    let bb ← bb.store bb.indexRead (v <<< 1 ||| if bit then 1 else 0)
    let bb := { bb with samples := bb.samples + 1, count := bb.count - 1 }
    if bb.count ≠ (0 : ℤ) then some (0, { bb.set false true with state := .dataRxS })
    else do
      let data ← nak bb
      some (0, { bb.set false data with state := .dataRxAckH })
  | .dataRxAckH => do
    let data ← nak bb
    some (0, { bb.set true data with state := .dataRxAckL })
  | .dataRxAckL => do
    let data ← nak bb
    nextSymbol { bb.set false data with indexRead := bb.indexRead + 1, index := bb.index + 1 }
  | .stop1 => some (0, { bb.set false false with state := .stop2 })
  | .stop2 => some (0, { bb.set true false with state := .stop3 })
  | .stop3 => some (0, { bb.set true true with state := .stop4 })
  | .stop4 => some (1, bb.set true true)

/-- `i2c_complete_synchronously`, with at most `n` calls. -/
def i2cCompleteSynchronously (n : ℕ) (bb : Bb) : Option (ℤ × Bb) := ticks (i2cNextState sda) n bb

end Model

/-- `i2c_read`: the program that reads a register: the address, the register, a new start, one
    byte and a stop. -/
def i2cRead (bb : Bb) (ads7 reg : Byte) : Bb :=
  { bb with
    data := [BitVec.ofNat 32 (ads7.toNat <<< 1), BitVec.ofNat 32 reg.toNat, doStart,
      BitVec.ofNat 32 (ads7.toNat <<< 1 ||| 1), doRead, doStop, complete] ++ bb.data.drop 7
    state := .init }

/-- `i2c_write`: the program that writes a register: the address, the register, the byte and a
    stop. -/
def i2cWrite (bb : Bb) (ads7 reg b : Byte) : Bb :=
  { bb with
    data := [BitVec.ofNat 32 (ads7.toNat <<< 1), BitVec.ofNat 32 reg.toNat,
      BitVec.ofNat 32 b.toNat, doStop, complete] ++ bb.data.drop 5
    state := .init }

/-! ## Programs -/

/-- A symbol of a program in front of its STOP. -/
inductive Symbol
  | byte (b : Byte)
  | start
  | read
  deriving DecidableEq

/-- The word of a symbol: a byte stands for itself, and the others are negative numbers. -/
def Symbol.word : Symbol → BitVec 32
  | byte b => BitVec.ofNat 32 b.toNat
  | start => doStart
  | read => doRead

/-- A program as it stands in `data`. -/
def encode (prog : List Symbol) : List (BitVec 32) := prog.map Symbol.word ++ [doStop, complete]

/-- What a run says on the bus behind its first START, what it returns, and what it delivers. -/
structure Outcome where
  events : List Event
  ret : ℤ
  reads : List ℕ

/-- The bits of a byte, the highest first. -/
def byteBits (b : Byte) : List Event := (List.range 8).map fun j => .bit (b.toNat.testBit (7 - j))

/-- The number that eight samples stand for. -/
def byteOf (bits : List Bool) : ℕ := bits.foldl (fun v b => 2 * v + b.toNat) 0

/-- What a program asks for, where `n` samples have been taken before. -/
def outcome (sda : ℕ → Bool) : ℕ → List Symbol → Outcome
  | _, [] => ⟨[.stop], 1, []⟩
  | n, .byte b :: prog =>
    if sda n then ⟨byteBits b, -1, []⟩
    else
      let o := outcome sda (n + 1) prog
      { o with events := byteBits b ++ .bit true :: o.events }
  | n, .start :: prog =>
    let o := outcome sda n prog
    { o with events := .start :: o.events }
  | n, .read :: prog =>
    let o := outcome sda (n + 8) prog
    { o with
      events := List.replicate 8 (.bit true) ++ .bit (prog.head? ≠ some .read) :: o.events
      reads := byteOf ((List.range 8).map fun j => sda (n + j)) :: o.reads }

/-- A run of the driver is what its program asks for. -/
def Conforms (sda : ℕ → Bool) (prog : List Symbol) (bb : Bb) : Prop :=
  ∃ n ret bb', i2cCompleteSynchronously sda n bb = some (ret, bb') ∧ ret ≠ 0 ∧
    (idle.read bb'.lines).events = .start :: (outcome sda 0 prog).events ∧
    ret = (outcome sda 0 prog).ret ∧
    ∀ (j v : ℕ), (outcome sda 0 prog).reads[j]? = some v → bb'.data[j]? = some (BitVec.ofNat 32 v)

/-- The driver is about to begin a program. -/
structure Ready (prog : List Symbol) (bb : Bb) : Prop where
  state : bb.state = .init
  data : encode prog <+: bb.data
  length : bb.data.length = 8
  samples : bb.samples = 0
  lines : bb.lines = []

/-- One or more bytes, and one read at most, behind them. -/
def Plain (prog : List Symbol) : Prop :=
  ∃ bs : List Byte, bs ≠ [] ∧
    (prog = bs.map Symbol.byte ∨ prog = bs.map Symbol.byte ++ [Symbol.read])

/-! ## One half of a bit after the other -/

section Steps

variable (sda : ℕ → Bool) {bb : Bb} {state : States} {i r n : ℕ} {es : List Event}

/-- What the lines have said: their levels, one after the other, as the bus sees them. -/
def bus (bb : Bb) : Bus := idle.read bb.lines

theorem read_lines (bb : Bb) (levels : List Levels) :
    idle.read (bb.lines ++ levels) = (bus bb).read levels :=
  Bus.read_append _ _ _

/-- Between two bits: the place in the program, the samples taken and what has been said. -/
structure Phase (bb : Bb) (state : States) (i r n : ℕ) (es : List Event) : Prop where
  state : bb.state = state
  index : bb.index = i
  indexRead : bb.indexRead = r
  samples : bb.samples = n
  scl : (bus bb).scl = false
  events : (bus bb).events = es

/-- The last of the three calls that send a bit, where the bits before are sent. -/
theorem next_adsTxL (bb : Bb) (hstate : bb.state = .adsTxL) {w : BitVec 32}
    (hw : bb.data[bb.index]? = some w) :
    i2cNextState sda bb = if bb.count - 1 ≠ 0 then
      some (0, { bb with
        state := .adsTxS
        data := bb.data.set bb.index (w <<< 1)
        count := bb.count - 1
        lines := bb.lines ++ [(false, top w)] })
    else
      some (0, { bb with
        state := .adsTxAckH
        data := bb.data.set bb.index (w <<< 1)
        count := bb.count - 1
        lines := bb.lines ++ [(false, top w), (false, true)] }) := by
  have hlt : bb.index < bb.data.length := (List.getElem?_eq_some_iff.mp hw).1
  simp only [i2cNextState, hstate, hw, Option.bind_eq_bind, Option.bind_some, Bb.store, Bb.set,
    if_pos hlt, List.append_assoc, List.cons_append, List.nil_append]

/-- Two calls before it. -/
theorem reaches_adsTxL (hstate : bb.state = .adsTxS) {w : BitVec 32}
    (hw : bb.data[bb.index]? = some w) :
    Reaches (i2cNextState sda) bb
      { bb with state := .adsTxL, lines := bb.lines ++ [(false, top w), (true, top w)] } := by
  refine (Reaches.one (t := { bb.set false (top w) with state := .adsTxH }) ?_).trans
    (Reaches.one ?_)
  · simp only [i2cNextState, hstate, hw, Option.bind_eq_bind, Option.bind_some]
  · simp only [i2cNextState, Bb.set, hw, Option.bind_eq_bind, Option.bind_some,
      List.append_assoc, List.cons_append, List.nil_append]

/-- A bit that is not the last one. -/
theorem reaches_bit (h : Phase bb .adsTxS i r n es) {w : BitVec 32} (hw : bb.data[i]? = some w)
    (hcount : bb.count ≠ 1) :
    ∃ bb', Reaches (i2cNextState sda) bb bb' ∧
      Phase bb' .adsTxS i r n (es ++ [.bit (top w)]) ∧ bb'.count = bb.count - 1 ∧
      bb'.data = bb.data.set i (w <<< 1) := by
  obtain ⟨hstate, rfl, rfl, rfl, hscl, rfl⟩ := h
  have hlast := next_adsTxL sda { bb with
    state := .adsTxL, lines := bb.lines ++ [(false, top w), (true, top w)] } rfl hw
  rw [if_pos (by show bb.count - 1 ≠ 0; omega)] at hlast
  refine ⟨_, (reaches_adsTxL sda hstate hw).trans (Reaches.one hlast), ?_, rfl, rfl⟩
  have hbus : idle.read (bb.lines ++ [(false, top w), (true, top w)] ++ [(false, top w)]) =
      ⟨false, top w, false, (bus bb).events ++ [.bit (top w)]⟩ := by
    rw [List.append_assoc, read_lines]
    exact Bus.read_bit hscl (top w)
  exact ⟨rfl, rfl, rfl, rfl, congrArg Bus.scl hbus, congrArg Bus.events hbus⟩

/-- The last bit: SDA is let go. -/
theorem reaches_last_bit (h : Phase bb .adsTxS i r n es) {w : BitVec 32}
    (hw : bb.data[i]? = some w) (hcount : bb.count = 1) :
    ∃ bb', Reaches (i2cNextState sda) bb bb' ∧
      Phase bb' .adsTxAckH i r n (es ++ [.bit (top w)]) ∧
      bb'.data = bb.data.set i (w <<< 1) := by
  obtain ⟨hstate, rfl, rfl, rfl, hscl, rfl⟩ := h
  have hlast := next_adsTxL sda { bb with
    state := .adsTxL, lines := bb.lines ++ [(false, top w), (true, top w)] } rfl hw
  rw [if_neg (by show ¬ bb.count - 1 ≠ 0; omega)] at hlast
  refine ⟨_, (reaches_adsTxL sda hstate hw).trans (Reaches.one hlast), ?_, rfl⟩
  have hbus : idle.read (bb.lines ++ [(false, top w), (true, top w)] ++
      [(false, top w), (false, true)]) =
      ⟨false, true, false, (bus bb).events ++ [.bit (top w)]⟩ := by
    rw [List.append_assoc, read_lines]
    show ((bus bb).read ([(false, top w), (true, top w), (false, top w)] ++ [(false, true)])) = _
    rw [Bus.read_append, Bus.read_bit hscl]
    rfl
  exact ⟨rfl, rfl, rfl, rfl, congrArg Bus.scl hbus, congrArg Bus.events hbus⟩

/-- The bits of a word, as many as are left. -/
theorem reaches_bits (k : ℕ) :
    ∀ {bb : Bb} {w : BitVec 32} {es : List Event}, Phase bb .adsTxS i r n es →
      bb.data[i]? = some w → bb.count = k + 1 →
      ∃ bb', Reaches (i2cNextState sda) bb bb' ∧
        Phase bb' .adsTxAckH i r n
          (es ++ (List.range (k + 1)).map fun j => .bit (top (w <<< j))) ∧
        bb'.data = bb.data.set i (w <<< (k + 1)) := by
  induction k with
  | zero =>
    intro bb w es h hw hcount
    have hone : (List.range (0 + 1)).map (fun j => Event.bit (top (w <<< j))) =
        [.bit (top w)] := by
      rw [show List.range (0 + 1) = [0] from rfl, List.map_singleton, BitVec.shiftLeft_zero]
    rw [hone]
    exact reaches_last_bit sda h hw (by omega)
  | succ k ih =>
    intro bb w es h hw hcount
    obtain ⟨bb', hreach, hphase, hcount', hdata⟩ := reaches_bit sda h hw (by omega)
    have hlt : i < bb.data.length := (List.getElem?_eq_some_iff.mp hw).1
    have hw' : bb'.data[i]? = some (w <<< 1) := by
      rw [hdata, List.getElem?_set_self hlt]
    obtain ⟨bb'', hreach', hphase', hdata'⟩ := ih hphase hw' (by omega)
    refine ⟨bb'', hreach.trans hreach', ?_, ?_⟩
    · rw [List.range_succ_eq_map, List.map_cons, List.map_map]
      rw [List.append_assoc] at hphase'
      have hshift : (fun j => Event.bit (top (w <<< 1 <<< j))) =
          (fun j => Event.bit (top (w <<< j))) ∘ Nat.succ := by
        funext j
        show _ = Event.bit (top (w <<< (j + 1)))
        rw [← BitVec.shiftLeft_add, Nat.add_comm]
      rw [hshift] at hphase'
      rw [BitVec.shiftLeft_zero]
      exact hphase'
    · rw [hdata', hdata, List.set_set, ← BitVec.shiftLeft_add, Nat.add_comm]

theorem top_eq (w : BitVec 32) : top w = w.getLsbD 7 := by
  unfold top
  rw [show (0x80 : BitVec 32) = BitVec.twoPow 32 7 from rfl, BitVec.and_twoPow]
  cases w.getLsbD 7 with
  | true => rfl
  | false => rfl

/-- A byte is sent with the highest bit first. -/
theorem bits_byte (b : Byte) :
    ((List.range 8).map fun j => Event.bit (top (BitVec.ofNat 32 b.toNat <<< j))) =
      byteBits b := by
  apply List.map_congr_left
  intro j hj
  rw [List.mem_range] at hj
  rw [top_eq, BitVec.getLsbD_shiftLeft, BitVec.getLsbD_ofNat]
  simp [show ¬ 7 < j by omega, show 7 - j < 32 by omega]

/-- The word of a symbol is none of the other controls. -/
theorem byte_ne (b : Byte) :
    Symbol.word (.byte b) ≠ doStart ∧ Symbol.word (.byte b) ≠ doStop ∧
      Symbol.word (.byte b) ≠ doRead ∧ Symbol.word (.byte b) ≠ complete := by
  have hlt : b.toNat < 2 ^ 8 := b.toNat_lt
  have hnat : (Symbol.word (.byte b)).toNat = b.toNat := by
    show (BitVec.ofNat 32 b.toNat).toNat = _
    rw [BitVec.toNat_ofNat]
    omega
  refine ⟨fun h => ?_, fun h => ?_, fun h => ?_, fun h => ?_⟩
  all_goals
    have hword := hnat.symm.trans (congrArg BitVec.toNat h)
    rw [hword] at hlt
    exact absurd hlt (by decide)

/-- The program goes on at `i` with the words `ws`. -/
def Loaded (bb : Bb) (i : ℕ) (ws : List (BitVec 32)) : Prop :=
  ∀ j w, ws[j]? = some w → bb.data[i + j]? = some w

theorem Loaded.head {w : BitVec 32} {ws : List (BitVec 32)} (h : Loaded bb i (w :: ws)) :
    bb.data[i]? = some w :=
  h 0 w rfl

theorem Loaded.tail {bb' : Bb} {w : BitVec 32} {ws : List (BitVec 32)}
    (h : Loaded bb i (w :: ws)) {j : ℕ} (hj : j ≤ i) {v : BitVec 32}
    (hdata : bb'.data = bb.data.set j v) : Loaded bb' (i + 1) ws := by
  intro k u hk
  rw [hdata, List.getElem?_set_ne (by omega), Nat.add_right_comm]
  exact h (k + 1) u hk

/-- A byte that is taken: what comes after it is decided by the next word. -/
theorem reaches_ack (h : Phase bb .adsTxAckH i r n es) (hack : sda n = false) :
    ∃ bb' bb'' : Bb, Reaches (i2cNextState sda) bb bb' ∧
      i2cNextState sda bb' = nextSymbol bb'' ∧
      Phase bb'' .adsTxAckL (i + 1) r (n + 1) (es ++ [.bit true]) ∧ bb''.count = 8 ∧
      bb''.data = bb.data := by
  obtain ⟨hstate, rfl, rfl, rfl, hscl, rfl⟩ := h
  refine ⟨{ bb with
      state := .adsTxAckL
      samples := bb.samples + 1
      lines := bb.lines ++ [(true, true)] },
    { bb with
      state := .adsTxAckL
      count := 8
      index := bb.index + 1
      samples := bb.samples + 1
      lines := bb.lines ++ [(true, true)] ++ [(false, true)] }, Reaches.one ?_, rfl, ?_, rfl, rfl⟩
  · simp only [i2cNextState, hstate, hack, Bb.set]
    rfl
  · have hbus : idle.read (bb.lines ++ [(true, true)] ++ [(false, true)]) =
        ⟨false, true, false, (bus bb).events ++ [.bit true]⟩ := by
      rw [List.append_assoc, read_lines]
      simp [Bus.read, Bus.step, hscl]
    exact ⟨rfl, rfl, rfl, rfl, congrArg Bus.scl hbus, congrArg Bus.events hbus⟩

/-- A byte that is not taken ends the run. -/
theorem done_nack (h : Phase bb .adsTxAckH i r n es) (hack : sda n = true) :
    ∃ bb', i2cNextState sda bb = some (-1, bb') ∧ (bus bb').events = es := by
  obtain ⟨hstate, rfl, rfl, rfl, hscl, rfl⟩ := h
  refine ⟨{ bb with samples := bb.samples + 1 }, ?_, rfl⟩
  simp only [i2cNextState, hstate, hack]
  rfl

/-! ## The next symbol -/

theorem nextSymbol_byte (h : Phase bb state i r n es) {b : Byte}
    (hw : bb.data[i]? = some (Symbol.word (.byte b))) :
    ∃ bb', nextSymbol bb = some (0, bb') ∧ Phase bb' .adsTxS i r n es ∧
      bb'.count = bb.count ∧ bb'.data = bb.data := by
  obtain ⟨hstart, hstop, hread, hcomplete⟩ := byte_ne b
  obtain ⟨-, rfl, rfl, rfl, hscl, rfl⟩ := h
  refine ⟨{ bb with state := .adsTxS }, ?_, ⟨rfl, rfl, rfl, rfl, hscl, rfl⟩, rfl, rfl⟩
  simp only [nextSymbol, hw, Option.bind_eq_bind, Option.bind_some, if_neg hstart, if_neg hstop,
    if_neg hread, if_neg hcomplete]

theorem nextSymbol_start (h : Phase bb state i r n es) (hw : bb.data[i]? = some doStart) :
    ∃ bb', nextSymbol bb = some (0, bb') ∧ Phase bb' .start1 (i + 1) r n es := by
  obtain ⟨-, rfl, rfl, rfl, hscl, rfl⟩ := h
  refine ⟨{ bb with state := .start1, index := bb.index + 1 }, ?_,
    ⟨rfl, rfl, rfl, rfl, hscl, rfl⟩⟩
  simp only [nextSymbol, hw, Option.bind_eq_bind, Option.bind_some, if_true]

theorem nextSymbol_stop (h : Phase bb state i r n es) (hw : bb.data[i]? = some doStop) :
    ∃ bb', nextSymbol bb = some (0, bb') ∧ Phase bb' .stop1 (i + 1) r n es ∧
      bb'.data = bb.data := by
  obtain ⟨-, rfl, rfl, rfl, hscl, rfl⟩ := h
  refine ⟨{ bb with state := .stop1, index := bb.index + 1 }, ?_,
    ⟨rfl, rfl, rfl, rfl, hscl, rfl⟩, rfl⟩
  simp only [nextSymbol, hw, Option.bind_eq_bind, Option.bind_some,
    if_neg (show ¬ doStop = doStart by decide), if_true]

theorem nextSymbol_read (h : Phase bb state i r n es) (hw : bb.data[i]? = some doRead)
    (hr : r < bb.data.length) :
    ∃ bb', nextSymbol bb = some (0, bb') ∧ Phase bb' .dataRxS i r n es ∧
      bb'.count = bb.count ∧ bb'.data = bb.data.set r 0 := by
  obtain ⟨-, rfl, rfl, rfl, hscl, rfl⟩ := h
  refine ⟨{ bb with state := .dataRxS, data := bb.data.set bb.indexRead 0 }, ?_,
    ⟨rfl, rfl, rfl, rfl, hscl, rfl⟩, rfl, rfl⟩
  simp only [nextSymbol, hw, Option.bind_eq_bind, Option.bind_some,
    if_neg (show ¬ doRead = doStart by decide), if_neg (show ¬ doRead = doStop by decide),
    if_true, Bb.store, if_pos hr]

/-- The STOP: the four calls that are left. -/
theorem ticks_stop (h : Phase bb .stop1 i r n es) :
    ∃ bb', ticks (i2cNextState sda) 4 bb = some (1, bb') ∧ (bus bb').events = es ++ [.stop] ∧
      bb'.data = bb.data := by
  obtain ⟨hstate, rfl, rfl, rfl, hscl, rfl⟩ := h
  refine ⟨{ bb with
    state := .stop4
    lines := bb.lines ++ [(false, false)] ++ [(true, false)] ++ [(true, true)] ++
      [(true, true)] }, ?_, ?_, rfl⟩
  · rw [ticks_succ_of_zero (by simp only [i2cNextState, hstate]; rfl),
      ticks_succ_of_zero rfl, ticks_succ_of_zero rfl, ticks_succ_of_ne rfl one_ne_zero]
    rfl
  · show (idle.read _).events = _
    rw [List.append_assoc, List.append_assoc, List.append_assoc, read_lines]
    simp [Bus.read, Bus.step, hscl]

/-- A repeated START: SCL rises while SDA falls, and a bit is said. -/
theorem reaches_restart (h : Phase bb .start1 i r n es) :
    ∃ bb', Reaches (i2cNextState sda) bb bb' ∧ (bus bb').events = es ++ [.bit false] := by
  obtain ⟨hstate, rfl, rfl, rfl, hscl, rfl⟩ := h
  refine ⟨{ bb with
    state := .adsTxS
    count := 8
    lines := bb.lines ++ [(true, false)] ++ [(false, false)] },
    (Reaches.one (t := { bb.set true false with state := .start2 }) ?_).trans
      (Reaches.one rfl), ?_⟩
  · simp only [i2cNextState, hstate]
  · show (idle.read _).events = _
    rw [List.append_assoc, read_lines]
    simp [Bus.read, Bus.step, hscl]

/-! ## Reads -/

/-- The word after `k` more samples. -/
def received (sda : ℕ → Bool) : (n k : ℕ) → BitVec 32 → BitVec 32
  | _, 0, v => v
  | n, k + 1, v => received sda (n + 1) k (v <<< 1 ||| if sda n then 1 else 0)

/-- Two calls to the sample of a bit. -/
theorem reaches_dataRxL (hstate : bb.state = .dataRxS) :
    Reaches (i2cNextState sda) bb
      { bb with state := .dataRxL, lines := bb.lines ++ [(false, true)] ++ [(true, true)] } := by
  refine (Reaches.one (t := { bb.set false true with state := .dataRxH }) ?_).trans
    (Reaches.one rfl)
  simp only [i2cNextState, hstate]

/-- A sample that is not the last one. -/
theorem reaches_sample (h : Phase bb .dataRxS i r n es) {v : BitVec 32}
    (hv : bb.data[r]? = some v) (hcount : bb.count ≠ 1) :
    ∃ bb', Reaches (i2cNextState sda) bb bb' ∧ Phase bb' .dataRxS i r (n + 1) (es ++ [.bit true]) ∧
      bb'.count = bb.count - 1 ∧
      bb'.data = bb.data.set r (v <<< 1 ||| if sda n then 1 else 0) := by
  obtain ⟨hstate, rfl, rfl, rfl, hscl, rfl⟩ := h
  have hlt : bb.indexRead < bb.data.length := (List.getElem?_eq_some_iff.mp hv).1
  have hcount' : bb.count - 1 ≠ 0 := by omega
  refine ⟨{ bb with
    state := .dataRxS
    count := bb.count - 1
    data := bb.data.set bb.indexRead (v <<< 1 ||| if sda bb.samples then 1 else 0)
    samples := bb.samples + 1
    lines := bb.lines ++ [(false, true)] ++ [(true, true)] ++ [(false, true)] },
    (reaches_dataRxL sda hstate).trans (Reaches.one ?_), ?_, rfl, rfl⟩
  · simp only [i2cNextState, hv, Option.bind_eq_bind, Option.bind_some, Bb.store, if_pos hlt,
      Bb.set, if_pos hcount']
  · have hbus : idle.read (bb.lines ++ [(false, true)] ++ [(true, true)] ++ [(false, true)]) =
        ⟨false, true, false, (bus bb).events ++ [.bit true]⟩ := by
      rw [List.append_assoc, List.append_assoc, read_lines]
      exact Bus.read_bit hscl true
    exact ⟨rfl, rfl, rfl, rfl, congrArg Bus.scl hbus, congrArg Bus.events hbus⟩

/-- The last sample: SDA is given the level of the acknowledge slot. -/
theorem reaches_last_sample (h : Phase bb .dataRxS i r n es) {v next : BitVec 32}
    (hv : bb.data[r]? = some v) (hnext : bb.data[i + 1]? = some next) (hr : r ≤ i)
    (hcount : bb.count = 1) :
    ∃ bb', Reaches (i2cNextState sda) bb bb' ∧
      Phase bb' .dataRxAckH i r (n + 1) (es ++ [.bit true]) ∧ bb'.count = 0 ∧
      bb'.data = bb.data.set r (v <<< 1 ||| if sda n then 1 else 0) := by
  obtain ⟨hstate, rfl, rfl, rfl, hscl, rfl⟩ := h
  have hlt : bb.indexRead < bb.data.length := (List.getElem?_eq_some_iff.mp hv).1
  have hcount' : ¬ bb.count - 1 ≠ 0 := by omega
  have hnext' : (bb.data.set bb.indexRead (v <<< 1 ||| if sda bb.samples then 1 else 0))[
      bb.index + 1]? = some next := by
    rw [List.getElem?_set_ne (by omega), hnext]
  refine ⟨{ bb with
    state := .dataRxAckH
    count := bb.count - 1
    data := bb.data.set bb.indexRead (v <<< 1 ||| if sda bb.samples then 1 else 0)
    samples := bb.samples + 1
    lines := bb.lines ++ [(false, true)] ++ [(true, true)] ++ [(false, decide (next ≠ doRead))] },
    (reaches_dataRxL sda hstate).trans (Reaches.one ?_), ?_, sub_eq_zero.mpr hcount, rfl⟩
  · simp only [i2cNextState, hv, Option.bind_eq_bind, Option.bind_some, Bb.store, if_pos hlt,
      Bb.set, if_neg hcount', nak, hnext']
    rfl
  · have hbus : idle.read (bb.lines ++ [(false, true)] ++ [(true, true)] ++
        [(false, decide (next ≠ doRead))]) =
        ⟨false, decide (next ≠ doRead), false, (bus bb).events ++ [.bit true]⟩ := by
      rw [List.append_assoc, List.append_assoc, read_lines]
      simp [Bus.read, Bus.step, hscl]
    exact ⟨rfl, rfl, rfl, rfl, congrArg Bus.scl hbus, congrArg Bus.events hbus⟩

/-- The samples that are left. -/
theorem reaches_samples {next : BitVec 32} (hr : r ≤ i) (k : ℕ) :
    ∀ {bb : Bb} {v : BitVec 32} {n : ℕ} {es : List Event}, Phase bb .dataRxS i r n es →
      bb.data[r]? = some v → bb.data[i + 1]? = some next → bb.count = k + 1 →
      ∃ bb', Reaches (i2cNextState sda) bb bb' ∧
        Phase bb' .dataRxAckH i r (n + (k + 1)) (es ++ List.replicate (k + 1) (.bit true)) ∧
        bb'.count = 0 ∧ bb'.data = bb.data.set r (received sda n (k + 1) v) := by
  induction k with
  | zero =>
    intro bb v n es h hv hnext hcount
    exact reaches_last_sample sda h hv hnext hr (by omega)
  | succ k ih =>
    intro bb v n es h hv hnext hcount
    obtain ⟨bb', hreach, hphase, hcount', hdata⟩ := reaches_sample sda h hv (by omega)
    have hlt : r < bb.data.length := (List.getElem?_eq_some_iff.mp hv).1
    have hv' : bb'.data[r]? = some (v <<< 1 ||| if sda n then 1 else 0) := by
      rw [hdata, List.getElem?_set_self hlt]
    have hnext' : bb'.data[i + 1]? = some next := by
      rw [hdata, List.getElem?_set_ne (by omega), hnext]
    obtain ⟨bb'', hreach', hphase', hcount'', hdata'⟩ := ih hphase hv' hnext' (by omega)
    refine ⟨bb'', hreach.trans hreach', ?_, hcount'', ?_⟩
    · rw [List.append_assoc, Nat.add_assoc, Nat.add_comm 1] at hphase'
      exact hphase'
    · rw [hdata', hdata, List.set_set]
      rfl

/-- The acknowledge slot of a read: what comes after it is decided by the next word. The counter
    is not set again. -/
theorem reaches_nak (h : Phase bb .dataRxAckH i r n es) {next : BitVec 32}
    (hnext : bb.data[i + 1]? = some next) :
    ∃ bb' bb'' : Bb, Reaches (i2cNextState sda) bb bb' ∧
      i2cNextState sda bb' = nextSymbol bb'' ∧
      Phase bb'' .dataRxAckL (i + 1) (r + 1) n (es ++ [.bit (next ≠ doRead)]) ∧
      bb''.count = bb.count ∧ bb''.data = bb.data := by
  obtain ⟨hstate, rfl, rfl, rfl, hscl, rfl⟩ := h
  refine ⟨{ bb with
      state := .dataRxAckL
      lines := bb.lines ++ [(true, decide (next ≠ doRead))] },
    { bb with
      state := .dataRxAckL
      index := bb.index + 1
      indexRead := bb.indexRead + 1
      lines := bb.lines ++ [(true, decide (next ≠ doRead))] ++ [(false, decide (next ≠ doRead))] },
    Reaches.one ?_, ?_, ?_, rfl, rfl⟩
  · simp only [i2cNextState, hstate, nak, hnext, Bb.set, Option.bind_eq_bind, Option.bind_some]
    rfl
  · simp only [i2cNextState, nak, hnext, Bb.set, Option.bind_eq_bind, Option.bind_some]
    rfl
  · have hbus : idle.read (bb.lines ++ [(true, decide (next ≠ doRead))] ++
          [(false, decide (next ≠ doRead))]) =
        ⟨false, decide (next ≠ doRead), false, (bus bb).events ++ [.bit (next ≠ doRead)]⟩ := by
      rw [List.append_assoc, read_lines]
      simp [Bus.read, Bus.step, hscl]
    exact ⟨rfl, rfl, rfl, rfl, congrArg Bus.scl hbus, congrArg Bus.events hbus⟩

theorem shiftLeft_or (m : ℕ) (b : Bool) :
    (BitVec.ofNat 32 m <<< 1 ||| if b then 1 else 0) = BitVec.ofNat 32 (2 * m + b.toNat) := by
  apply BitVec.eq_of_getLsbD_eq
  intro j hj
  have hlow : (if b then 1 else 0 : BitVec 32).getLsbD j = (b && decide (j = 0)) := by
    cases b with
    | false => exact BitVec.getLsbD_zero
    | true =>
      show (1#32).getLsbD j = _
      rw [BitVec.getLsbD_one]
      rfl
  rw [BitVec.getLsbD_or, hlow, BitVec.getLsbD_shiftLeft, BitVec.getLsbD_ofNat,
    BitVec.getLsbD_ofNat, ← Nat.bit_val]
  cases j with
  | zero => simp
  | succ j => simp [Nat.testBit_bit_succ, hj, show j < 32 by omega]

theorem received_eq (k : ℕ) : ∀ n m : ℕ, received sda n k (BitVec.ofNat 32 m) =
    BitVec.ofNat 32
      (((List.range k).map fun j => sda (n + j)).foldl (fun v b => 2 * v + b.toNat) m) := by
  induction k with
  | zero => exact fun _ _ => rfl
  | succ k ih =>
    intro n m
    rw [received, shiftLeft_or, ih, List.range_succ_eq_map, List.map_cons, List.map_map,
      List.foldl_cons]
    congr 3
    funext j
    show sda (n + 1 + j) = sda (n + (j + 1))
    rw [Nat.add_right_comm, Nat.add_assoc]

end Steps

end SmartQ.Qi.I2cBitbang
