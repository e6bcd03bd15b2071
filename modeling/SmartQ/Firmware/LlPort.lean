import Mathlib.Tactic
import SmartQ.Lib.Bytes
import SmartQ.Lib.I2cBus

/-!
# The crypto chip's two-wire port

Model of `fw-utils/ll_port.c` without its delays: what the port does to the lines, and which levels
of SDA it samples. SDA is low where the port or the slave pulls it low; the slave's level at each
sample is given from outside.

* `hears_llWrite`, `hears_llRead`, `hears_llStart`, `hears_llStop`: one lemma for each helper, from
  the level it finds to the one it leaves.
* `sound_sendCommand`, `sound_sendData`, `sound_receiveData`: what the three functions say.
* `session_iff`: every sequence of calls is carried out exactly if it has no `ll_WaitClock` with
  an argument from 64 on.
-/

namespace SmartQ.Firmware.LlPort

open SmartQ.Lib SmartQ.Lib.I2cBus

/-! ## Model -/

/-- What the port does: it sets a line, or samples SDA. -/
inductive Op
  | lines (scl sda : Bool)
  | sample (level : Bool)

/-- The port: the levels it drives, how often it has sampled, and what it has done. -/
structure Port where
  scl : Bool
  sda : Bool
  samples : ℕ
  log : List Op

/-- `ioctl(fd, SCL_HIGH)` and `ioctl(fd, SCL_LOW)`. -/
def Port.setScl (b : Bool) (p : Port) : Port :=
  { p with scl := b, log := p.log ++ [.lines b p.sda] }

/-- `ioctl(fd, SDA_HIGH)` and `ioctl(fd, SDA_LOW)`. -/
def Port.setSda (b : Bool) (p : Port) : Port :=
  { p with sda := b, log := p.log ++ [.lines p.scl b] }

/-- `ll_Clockhigh`: the clock line is released, without the delay that follows. -/
def llClockhigh (p : Port) : Port := p.setScl true

/-- `ll_Clocklow`: the clock line is pulled low, without the delay that follows. -/
def llClocklow (p : Port) : Port := p.setScl false

/-- `ll_ClockCycle`: the clock goes low and high again, whatever the data line is. -/
def llClockCycle (p : Port) : Port := llClockhigh (llClocklow p)

/-- `ll_ClockCycles`: `ucCount` clock cycles, one after the other. -/
def llClockCycles : ℕ → Port → Port
  | 0, p => p
  | ucCount + 1, p => llClockCycles ucCount (llClockCycle p)

/-- `ll_Datahigh`: the data line is released, so that the slave may hold it. -/
def llDatahigh (p : Port) : Port := p.setSda true

/-- `ll_Datalow`: the data line is pulled low by the host. -/
def llDatalow (p : Port) : Port := p.setSda false

/-- `ll_Start`: the data line falls while the clock is high, which is a START condition. -/
def llStart (p : Port) : Port :=
  llClocklow (llDatalow (llClockhigh (llDatahigh (llClocklow p))))

/-- `ll_Stop`: the data line rises while the clock is high, which is a STOP condition. -/
def llStop (p : Port) : Port := llDatahigh (llClockhigh (llDatalow (llClocklow p)))

/-- `ll_AckNak`: the ninth clock of a byte that was read, with the data line low for an
    acknowledge. -/
def llAckNak (ucAck : Bool) (p : Port) : Port :=
  let p := llClocklow p
  let p := if ucAck then llDatalow p else llDatahigh p
  llClocklow (llClockhigh p)

/-- `gpio_init`: both lines become outputs and high. -/
def gpioInit (p : Port) : Port := (p.setScl true).setSda true

/-- `ll_PowerOn`: the lines are set up and fifteen clocks given before anything is sent. -/
def llPowerOn (p : Port) : Port := llClockCycles 15 (llClocklow (llDatahigh (gpioInit p)))

section Model

variable (slave : ℕ → Bool)

/-- `ll_Data`: the wired-AND of the port and the slave. -/
def llData (p : Port) : Bool × Port :=
  let level := p.sda && slave p.samples
  (level, { p with samples := p.samples + 1, log := p.log ++ [.sample level] })

/-- The first loop of `ll_Write`, of `k` bits. -/
def writeBits : ℕ → Byte → Port → Port
  | 0, _, p => p
  | k + 1, ucData, p =>
    let p := llClocklow p
    let p := if ucData &&& 0x80 ≠ 0 then llDatahigh p else llDatalow p
    writeBits k (ucData <<< 1) (llClockhigh p)

/-- `LL_ACK_TRIES`: how often `ll_Write` looks at the data line for an acknowledge. -/
def ackTries : ℕ := 8

/-- The second loop of `ll_Write`, with `k` tries left: what it leaves in `i`. -/
def ackLoop : ℕ → Port → ℕ × Port
  | 0, p => (ackTries, p)
  | k + 1, p =>
    let (data, p) := llData slave p
    if data = false then (0, p) else ackLoop k p

/-- `ll_Write` (lines 133–166): the eight bits of a byte; it returns 0 if the slave acknowledges
    it, and `LL_ACK_TRIES` if not. -/
def llWrite (ucData : Byte) (p : Port) : ℕ × Port :=
  let p := writeBits 8 ucData p
  let (i, p) := ackLoop slave ackTries (llClockhigh (llDatahigh (llClocklow p)))
  (i, llClocklow p)

/-- The body of the loop of `ll_Read`. -/
def readBit (s : Byte × Port) (i : Byte) : Byte × Port :=
  let (data, p) := llData slave (llClockCycle s.2)
  (if data then s.1 ||| i else s.1, llClocklow p)

/-- `ll_Read` (lines 169–181): the mask goes down from `0x80`. -/
def llRead (p : Port) : Byte × Port :=
  [0x80, 0x40, 0x20, 0x10, 8, 4, 2, 1].foldl (readBit slave) (0, llDatahigh p)

/-- The results of the functions, as `lib_Crypto.h` names them. -/
inductive ReturnCode
  | success
  | failCmdstart
  | failCmdsend
  | failWrdata
  deriving DecidableEq

/-- `LL_START_TRIES`: how often `ll_SendCommand` starts over with a command that is not
    acknowledged. -/
def startTries : ℕ := 10

/-- The first loop of `ll_SendCommand`, with `i` tries left: whether the byte was taken. -/
def startLoop (b : Byte) : ℕ → Port → Bool × Port
  | 0, p => (false, p)
  | i + 1, p =>
    let (r, p) := llWrite slave b (llStart p)
    if r = 0 then (true, p) else startLoop b i p

/-- The loops over the bytes in `ll_SendCommand` and `ll_SendData`: whether all were taken. -/
def sendLoop : List Byte → Port → Bool × Port
  | [], p => (true, p)
  | b :: bs, p =>
    let (r, p) := llWrite slave b p
    if r ≠ 0 then (false, p) else sendLoop bs p

/-- `ll_SendCommand` (lines 183–202) of the bytes `b :: bs`. -/
def llSendCommand (b : Byte) (bs : List Byte) (p : Port) : ReturnCode × Port :=
  match startLoop slave b startTries p with
  | (false, p) => (.failCmdstart, p)
  | (true, p) =>
    match sendLoop slave bs p with
    | (false, p) => (.failCmdsend, p)
    | (true, p) => (.success, p)

/-- `ll_SendData` (lines 232–247): the bytes one after the other up to one without an
    acknowledge, and a STOP behind them all. -/
def llSendData (bs : List Byte) (p : Port) : ReturnCode × Port :=
  match sendLoop slave bs p with
  | (false, p) => (.failWrdata, p)
  | (true, p) => (.success, llStop p)

/-- The loop of `ll_ReceiveData`, of `k` bytes that are acknowledged, and the byte behind it. -/
def receiveLoop : ℕ → Port → List Byte × Port
  | 0, p =>
    let (b, p) := llRead slave p
    ([b], llAckNak false p)
  | k + 1, p =>
    let (b, p) := llRead slave p
    let (bs, p) := receiveLoop k (llAckNak true p)
    (b :: bs, p)

/-- `ll_ReceiveData` (lines 204–230): the bytes stored. -/
def llReceiveData (uclen : ℕ) (p : Port) : List Byte × Port :=
  if uclen > 0 then
    let (bs, p) := receiveLoop slave (uclen - 1) p
    (bs, llStop p)
  else ([], llStop p)

end Model

/-- The loop of `ll_WaitClock`, for at most a number of rounds. -/
def waitLoop (loop : ℕ) : ℕ → ℕ → Port → Option Port
  | 0, _, _ => none
  | k + 1, j, p =>
    if j < loop * 4 then
      waitLoop loop k ((j + 1) % 256) (llStop (llClockCycles 15 (llStart p)))
    else some p

/-- `ll_WaitClock` (lines 249–257): `loop` clocks, counted in an `unsigned char`; at most `k`
    are followed. -/
def llWaitClock (loop k : ℕ) (p : Port) : Option Port := waitLoop loop k 0 p

/-! ## What the lines say -/

/-- The lines as a receiver reads them. -/
def hear (bus : Bus) (ops : List Op) : Bus :=
  ops.foldl (fun bus op =>
    match op with
    | .lines scl sda => bus.step (scl, sda)
    | .sample _ => bus) bus

/-- Every sample is taken while SCL is high. -/
def SampledHigh : Bus → List Op → Prop
  | _, [] => True
  | bus, .lines scl sda :: ops => SampledHigh (bus.step (scl, sda)) ops
  | bus, .sample _ :: ops => bus.scl = true ∧ SampledHigh bus ops

/-- From `bus₀` on the port has brought the lines to `bus`. -/
structure Hears (bus₀ : Bus) (p : Port) (bus : Bus) : Prop where
  heard : hear bus₀ p.log = bus
  sampled : SampledHigh bus₀ p.log
  scl : bus.scl = p.scl
  sda : bus.sda = p.sda

/-- What has been said when SCL is next low. -/
def closed (bus : Bus) : List Event := (bus.step (false, bus.sda)).events

/-- A receive may follow: to let SDA go says nothing. -/
def Ready (bus : Bus) : Prop := bus.scl = false ∨ bus.sda = true

section Hears

variable {bus₀ bus : Bus} {p : Port} {sda : Bool} {es : List Event}

theorem hear_append (ops ops' : List Op) : hear bus (ops ++ ops') = hear (hear bus ops) ops' :=
  List.foldl_append

theorem sampledHigh_append (ops ops' : List Op) :
    SampledHigh bus (ops ++ ops') ↔ SampledHigh bus ops ∧ SampledHigh (hear bus ops) ops' := by
  induction ops generalizing bus with
  | nil => simp [SampledHigh, hear]
  | cons op ops ih =>
    cases op with
    | lines scl sda => exact ih
    | sample level => exact (and_congr_right fun _ => ih).trans and_assoc.symm

theorem Hears.setScl (h : Hears bus₀ p bus) (b : Bool) :
    Hears bus₀ (p.setScl b) (bus.step (b, bus.sda)) where
  heard := by
    rw [Port.setScl, hear_append, h.heard, ← h.sda]
    rfl
  sampled := (sampledHigh_append _ _).mpr ⟨h.sampled, trivial⟩
  scl := by cases b <;> cases hb : bus.scl <;> simp [Bus.step, hb, Port.setScl]
  sda := by
    show _ = p.sda
    rw [← h.sda]
    cases b <;> cases hb : bus.scl <;> simp [Bus.step, hb]

theorem Hears.setSda (h : Hears bus₀ p bus) (b : Bool) :
    Hears bus₀ (p.setSda b) (bus.step (bus.scl, b)) where
  heard := by
    rw [Port.setSda, hear_append, h.heard, ← h.scl]
    rfl
  sampled := (sampledHigh_append _ _).mpr ⟨h.sampled, trivial⟩
  scl := by
    show _ = p.scl
    rw [← h.scl]
    cases hb : bus.scl
    · simp [Bus.step, hb]
    · simp only [Bus.step, hb]
      split_ifs <;> simp [hb]
  sda := by
    show _ = b
    cases hb : bus.scl
    · simp [Bus.step, hb]
    · by_cases hs : bus.sda = b
      · simp [Bus.step, hb, hs]
      · simp [Bus.step, hb, hs]

theorem Hears.llData (h : Hears bus₀ p bus) (hscl : bus.scl = true) (slave : ℕ → Bool) :
    Hears bus₀ (llData slave p).2 bus where
  heard := by
    rw [LlPort.llData, hear_append, h.heard]
    rfl
  sampled := (sampledHigh_append _ _).mpr ⟨h.sampled, by rw [h.heard]; exact ⟨hscl, trivial⟩⟩
  scl := h.scl
  sda := h.sda

/-! ## The two levels of the clock -/

/-- SCL is low, and `es` has been said. -/
def Low (bus₀ : Bus) (p : Port) (sda : Bool) (es : List Event) : Prop :=
  ∃ still, Hears bus₀ p ⟨false, sda, still, es⟩

/-- SCL is high and SDA has been still since it rose. -/
def High (bus₀ : Bus) (p : Port) (sda : Bool) (es : List Event) : Prop :=
  Hears bus₀ p ⟨true, sda, true, es⟩

theorem Hears.low (h : Hears bus₀ p bus) : Low bus₀ (llClocklow p) bus.sda (closed bus) := by
  refine ⟨(bus.step (false, bus.sda)).still, ?_⟩
  have hlow := h.setScl false
  have hscl : (bus.step (false, bus.sda)).scl = false := by
    cases hb : bus.scl <;> simp [Bus.step, hb]
  have hsda : (bus.step (false, bus.sda)).sda = bus.sda := by
    cases hb : bus.scl <;> simp [Bus.step, hb]
  rw [closed]
  rwa [show (⟨false, bus.sda, (bus.step (false, bus.sda)).still,
    (bus.step (false, bus.sda)).events⟩ : Bus) = bus.step (false, bus.sda) from
      Bus.ext hscl.symm hsda.symm rfl rfl]

theorem Low.clocklow (h : Low bus₀ p sda es) : Low bus₀ (llClocklow p) sda es := by
  obtain ⟨still, h⟩ := h
  exact h.low

theorem High.clocklow (h : High bus₀ p sda es) :
    Low bus₀ (llClocklow p) sda (es ++ [.bit sda]) := Hears.low h

theorem Low.clockhigh (h : Low bus₀ p sda es) : High bus₀ (llClockhigh p) sda es := by
  obtain ⟨still, h⟩ := h
  exact h.setScl true

theorem Low.data (h : Low bus₀ p sda es) (b : Bool) : Low bus₀ (p.setSda b) b es := by
  obtain ⟨still, h⟩ := h
  exact ⟨still, h.setSda b⟩

theorem High.llData (h : High bus₀ p sda es) (slave : ℕ → Bool) :
    High bus₀ (llData slave p).2 sda es := Hears.llData h rfl slave

/-- SDA falls while SCL is high. -/
theorem High.start (h : High bus₀ p true es) :
    Low bus₀ (llClocklow (llDatalow p)) false (es ++ [.start]) := by
  have h1 : Hears bus₀ (llDatalow p) ⟨true, false, false, es ++ [.start]⟩ := Hears.setSda h false
  simpa [closed, Bus.step] using h1.low

/-- SDA rises while SCL is high. -/
theorem High.stop (h : High bus₀ p false es) :
    Hears bus₀ (llDatahigh p) ⟨true, true, false, es ++ [.stop]⟩ := Hears.setSda h true

/-! ## START, STOP and clocks -/

theorem hears_llStart (h : Hears bus₀ p bus) :
    Low bus₀ (llStart p) false (closed bus ++ [.start]) :=
  ((h.low.data true).clockhigh).start

theorem hears_llStop (h : Hears bus₀ p bus) :
    Hears bus₀ (llStop p) ⟨true, true, false, closed bus ++ [.stop]⟩ :=
  ((h.low.data false).clockhigh).stop

theorem hears_llAckNak (h : Low bus₀ p sda es) (ack : Bool) :
    Low bus₀ (llAckNak ack p) (!ack) (es ++ [.bit !ack]) := by
  cases ack with
  | true => exact (h.clocklow.data false).clockhigh.clocklow
  | false => exact (h.clocklow.data true).clockhigh.clocklow

theorem hears_llClockCycles (k : ℕ) (h : High bus₀ p sda es) :
    High bus₀ (llClockCycles k p) sda (es ++ List.replicate k (.bit sda)) := by
  induction k generalizing p es with
  | zero => simpa [llClockCycles] using h
  | succ k ih =>
    have := ih h.clocklow.clockhigh
    rwa [List.append_assoc, List.singleton_append, ← List.replicate_succ] at this

/-- Clocks between a START and a STOP. -/
theorem hears_clocks (k : ℕ) (h : Hears bus₀ p bus) :
    Hears bus₀ (llStop (llClockCycles (k + 1) (llStart p)))
      ⟨true, true, false,
        closed bus ++ [.start] ++ List.replicate (k + 1) (.bit false) ++ [.stop]⟩ := by
  have hclocks := hears_llClockCycles k (hears_llStart h).clocklow.clockhigh
  have hclosed : closed ⟨true, false, true,
      closed bus ++ [.start] ++ List.replicate k (.bit false)⟩ =
        closed bus ++ [.start] ++ List.replicate (k + 1) (.bit false) := by
    rw [List.replicate_succ', ← List.append_assoc]
    rfl
  rw [← hclosed, llClockCycles, llClockCycle]
  exact hears_llStop hclocks

end Hears

/-! ## A byte -/

/-- The bits of a byte, most significant first. -/
def byteBits (b : Byte) : List Bool := (List.range 8).map fun j => b.toNat.testBit (7 - j)

/-- The byte of these bits, most significant first. -/
def ofBits (bits : List Bool) : Byte := UInt8.ofNat (bits.foldl (fun v b => 2 * v + b.toNat) 0)

section Bytes

variable {bus₀ bus : Bus} {p : Port} {sda : Bool} {es : List Event}

/-- The bits that the first loop of `ll_Write` finds in `0x80`. -/
def shiftedBits : ℕ → Byte → List Bool
  | 0, _ => []
  | k + 1, ucData => decide (ucData &&& 0x80 ≠ 0) :: shiftedBits k (ucData <<< 1)

theorem shiftedBits_eq (b : Byte) : shiftedBits 8 b = byteBits b := by
  have hall : ∀ n < 256, shiftedBits 8 (UInt8.ofNat n) = byteBits (UInt8.ofNat n) := by
    decide +kernel
  have := hall b.toNat b.toNat_lt
  rwa [UInt8.ofNat_toNat] at this

/-- Each bit is set while SCL is low and held while it is high. -/
theorem hears_writeBits (k : ℕ) (ucData : Byte) (h : Hears bus₀ p bus) :
    ∃ bus', Hears bus₀ (writeBits k ucData p) bus' ∧
      closed bus' = closed bus ++ (shiftedBits k ucData).map .bit := by
  induction k generalizing p bus ucData with
  | zero => exact ⟨bus, h, by simp [shiftedBits]⟩
  | succ k ih =>
    have hbit : Low bus₀ (if ucData &&& 0x80 ≠ 0 then llDatahigh (llClocklow p)
        else llDatalow (llClocklow p)) (decide (ucData &&& 0x80 ≠ 0)) (closed bus) := by
      by_cases hb : ucData &&& 0x80 ≠ 0
      · rw [if_pos hb, decide_eq_true hb]
        exact h.low.data true
      · rw [if_neg hb, decide_eq_false hb]
        exact h.low.data false
    obtain ⟨bus', hears, hclosed⟩ := ih (ucData <<< 1) hbit.clockhigh
    refine ⟨bus', hears, hclosed.trans ?_⟩
    simp [closed, Bus.step, shiftedBits]

variable (slave : ℕ → Bool)

/-- The slave acknowledges within the samples from sample `n` on. -/
def Acked (n : ℕ) : Prop := ∃ j < ackTries, slave (n + j) = false

instance (n : ℕ) : Decidable (Acked slave n) := inferInstanceAs (Decidable (∃ j < _, _))

/-- The sample behind those of an acknowledge with `k` tries. -/
def afterTries : ℕ → ℕ → ℕ
  | 0, n => n
  | k + 1, n => if slave n = false then n + 1 else afterTries k (n + 1)

/-- The sample behind those of a byte's acknowledge. -/
def afterAck (n : ℕ) : ℕ := afterTries slave ackTries n

theorem hears_ackLoop (k : ℕ) (h : High bus₀ p true es) :
    High bus₀ (ackLoop slave k p).2 true es ∧
      (ackLoop slave k p).2.samples = afterTries slave k p.samples ∧
      ((ackLoop slave k p).1 = 0 ↔ ∃ j < k, slave (p.samples + j) = false) := by
  induction k generalizing p with
  | zero => exact ⟨h, rfl, by simp [ackLoop, ackTries]⟩
  | succ k ih =>
    have hlevel : (llData slave p).1 = slave p.samples := by
      show (p.sda && slave p.samples) = slave p.samples
      rw [← h.sda]
      rfl
    rw [ackLoop, afterTries]
    dsimp only
    rw [hlevel]
    by_cases hs : slave p.samples = false
    · rw [if_pos hs, if_pos hs]
      exact ⟨h.llData slave, rfl, iff_of_true rfl ⟨0, Nat.succ_pos k, hs⟩⟩
    · rw [if_neg hs, if_neg hs]
      obtain ⟨hhigh, hsamples, hack⟩ := ih (h.llData slave)
      refine ⟨hhigh, hsamples, hack.trans ?_⟩
      constructor
      · rintro ⟨j, hj, hlow⟩
        exact ⟨j + 1, by omega, by rw [← hlow]; congr 1; show _ = p.samples + 1 + j; omega⟩
      · rintro ⟨j, hj, hlow⟩
        rcases j with _ | j
        · exact absurd hlow hs
        · exact ⟨j, by omega, by rw [← hlow]; congr 1; show p.samples + 1 + j = _; omega⟩

/-- A byte and its acknowledge clock. -/
def written (b : Byte) : List Event := (byteBits b).map .bit ++ [.bit true]

theorem samples_writeBits (k : ℕ) (ucData : Byte) (p : Port) :
    (writeBits k ucData p).samples = p.samples := by
  induction k generalizing p ucData with
  | zero => rfl
  | succ k ih =>
    refine (ih (ucData <<< 1) _).trans ?_
    by_cases hb : ucData &&& 0x80 ≠ 0
    · rw [if_pos hb]
      rfl
    · rw [if_neg hb]
      rfl

theorem hears_llWrite (b : Byte) (h : Hears bus₀ p bus) :
    Low bus₀ (llWrite slave b p).2 true (closed bus ++ written b) ∧
      (llWrite slave b p).2.samples = afterAck slave p.samples ∧
      ((llWrite slave b p).1 = 0 ↔ Acked slave p.samples) := by
  obtain ⟨bus', hears, hclosed⟩ := hears_writeBits 8 b h
  obtain ⟨hhigh, hsamples, hack⟩ := hears_ackLoop slave ackTries
    (hears.low.data true).clockhigh
  have hn : (llClockhigh (llDatahigh (llClocklow (writeBits 8 b p)))).samples = p.samples :=
    samples_writeBits 8 b p
  refine ⟨?_, ?_, ?_⟩
  · have := hhigh.clocklow
    rw [hclosed, shiftedBits_eq, List.append_assoc] at this
    exact this
  · rw [← hn]
    exact hsamples
  · rw [← hn]
    exact hack

/-! ## A byte from the slave -/

theorem hears_readBit (h : Low bus₀ (llClocklow p) true es) (r i : Byte) :
    Low bus₀ (readBit slave (r, p) i).2 true (es ++ [.bit true]) ∧
      (readBit slave (r, p) i).2.samples = p.samples + 1 ∧
      (readBit slave (r, p) i).1 = if slave p.samples then r ||| i else r := by
  refine ⟨(h.clockhigh.llData slave).clocklow, rfl, ?_⟩
  have hlevel : (llData slave (llClockCycle p)).1 = slave p.samples := by
    show (p.sda && slave p.samples) = slave p.samples
    obtain ⟨still, h⟩ := h
    rw [show p.sda = (llClocklow p).sda from rfl, ← h.sda]
    rfl
  simp only [readBit, hlevel]

/-- The levels put the masks of the bits that are high into the byte. -/
def masked (slave : ℕ → Bool) : ℕ → List Byte → Byte → Byte
  | _, [], r => r
  | n, i :: masks, r => masked slave (n + 1) masks (if slave n then r ||| i else r)

theorem hears_readBits (masks : List Byte) (r : Byte) (h : Low bus₀ p true es) :
    Low bus₀ (masks.foldl (readBit slave) (r, p)).2 true
        (es ++ List.replicate masks.length (.bit true)) ∧
      (masks.foldl (readBit slave) (r, p)).2.samples = p.samples + masks.length ∧
      (masks.foldl (readBit slave) (r, p)).1 = masked slave p.samples masks r := by
  induction masks generalizing p es r with
  | nil => simpa [masked] using h
  | cons i masks ih =>
    obtain ⟨hlow, hsamples, hvalue⟩ := hears_readBit slave h.clocklow r i
    obtain ⟨hlow', hsamples', hvalue'⟩ := ih (readBit slave (r, p) i).1 hlow
    refine ⟨?_, ?_, ?_⟩
    · rw [List.append_assoc, List.singleton_append, ← List.replicate_succ] at hlow'
      exact hlow'
    · rw [List.length_cons, List.foldl_cons]
      refine hsamples'.trans ?_
      omega
    · rw [List.foldl_cons, masked, ← hvalue, ← hsamples]
      exact hvalue'

/-- The eight levels of a byte. -/
def levels (slave : ℕ → Bool) (n : ℕ) : List Bool := (List.range 8).map fun j => slave (n + j)

/-- The masks of `ll_Read` put the levels in order. -/
theorem masked_eq (slave : ℕ → Bool) (n : ℕ) :
    masked slave n [0x80, 0x40, 0x20, 0x10, 8, 4, 2, 1] 0 = ofBits (levels slave n) := by
  have hall : ∀ b0 b1 b2 b3 b4 b5 b6 b7 : Bool,
      masked (fun j => [b0, b1, b2, b3, b4, b5, b6, b7].getD j false) 0
        [0x80, 0x40, 0x20, 0x10, 8, 4, 2, 1] 0 = ofBits [b0, b1, b2, b3, b4, b5, b6, b7] := by
    decide
  exact hall (slave n) (slave (n + 1)) (slave (n + 2)) (slave (n + 3)) (slave (n + 4))
    (slave (n + 5)) (slave (n + 6)) (slave (n + 7))

theorem hears_llRead (h : Hears bus₀ p bus) (hready : Ready bus) :
    Low bus₀ (llRead slave p).2 true (closed bus ++ List.replicate 8 (.bit true)) ∧
      (llRead slave p).2.samples = p.samples + 8 ∧
      (llRead slave p).1 = ofBits (levels slave p.samples) := by
  -- letting SDA go says nothing, so the first clock starts from what was said before
  have hfirst : Low bus₀ (llClocklow (llDatahigh p)) true (closed bus) := by
    have hstep := (h.setSda true).low
    have hsda : (bus.step (bus.scl, true)).sda = true := by
      rw [(h.setSda true).sda]
      rfl
    have hclosed : closed (bus.step (bus.scl, true)) = closed bus := by
      rcases hready with hb | hb
      · simp [closed, Bus.step, hb]
      · cases hscl : bus.scl <;> simp [closed, Bus.step, hb, hscl]
    rw [hsda, hclosed] at hstep
    exact hstep
  have hrun : llRead slave p = [0x40, 0x20, 0x10, 8, 4, 2, 1].foldl (readBit slave)
      (readBit slave (0, llDatahigh p) 0x80) := List.foldl_cons ..
  obtain ⟨hlow, hsamples, hvalue⟩ := hears_readBit slave hfirst 0 0x80
  generalize readBit slave (0, llDatahigh p) 0x80 = s at hrun hlow hsamples hvalue
  obtain ⟨r, q⟩ := s
  dsimp only at hlow hsamples hvalue
  obtain ⟨hlow', hsamples', hvalue'⟩ := hears_readBits slave
    [0x40, 0x20, 0x10, 8, 4, 2, 1] r hlow
  rw [hrun]
  refine ⟨?_, ?_, ?_⟩
  · rw [List.append_assoc, List.singleton_append, ← List.replicate_succ] at hlow'
    exact hlow'
  · rw [hsamples', hsamples]
    rfl
  · have hp : (llDatahigh p).samples = p.samples := rfl
    have hmask : masked slave p.samples [0x80, 0x40, 0x20, 0x10, 8, 4, 2, 1] 0 =
        masked slave (p.samples + 1) [0x40, 0x20, 0x10, 8, 4, 2, 1]
          (if slave p.samples then 0 ||| 0x80 else 0) := by
      rw [masked]
    rw [hvalue', hsamples, hvalue, hp, ← masked_eq, hmask]

end Bytes

/-! ## The functions -/

section Functions

variable {bus₀ bus : Bus} {p : Port} {es : List Event} (slave : ℕ → Bool)

/-- What is said when bytes are sent from sample `n` on: up to the first one that is not
    acknowledged. -/
def sentEvents : ℕ → List Byte → List Event
  | _, [] => []
  | n, b :: bs => written b ++ if Acked slave n then sentEvents (afterAck slave n) bs else []

/-- Every byte is acknowledged. -/
def AllAcked : ℕ → List Byte → Prop
  | _, [] => True
  | n, _ :: bs => Acked slave n ∧ AllAcked (afterAck slave n) bs

instance decidableAllAcked : (n : ℕ) → (bs : List Byte) → Decidable (AllAcked slave n bs)
  | _, [] => .isTrue trivial
  | n, _ :: bs =>
    have := decidableAllAcked (afterAck slave n) bs
    inferInstanceAs (Decidable (_ ∧ _))

/-- What is said when `b` is sent behind a START, up to `k` times until it is acknowledged. -/
def startEvents (b : Byte) : ℕ → ℕ → List Event
  | 0, _ => []
  | k + 1, n => .start :: written b ++
      if Acked slave n then [] else startEvents b k (afterAck slave n)

/-- The sample behind the first START, out of `k`, whose byte is acknowledged. -/
def startAcked : ℕ → ℕ → Option ℕ
  | 0, _ => none
  | k + 1, n => if Acked slave n then some (afterAck slave n) else startAcked k (afterAck slave n)

/-- What is said when bytes are received: each one is acknowledged but the last. -/
def receivedEvents : ℕ → List Event
  | 0 => List.replicate 8 (.bit true) ++ [.bit true]
  | k + 1 => List.replicate 8 (.bit true) ++ [.bit false] ++ receivedEvents k

theorem closed_low (h : Low bus₀ p true es) :
    ∃ bus', Hears bus₀ p bus' ∧ Ready bus' ∧ closed bus' = es := by
  obtain ⟨still, h⟩ := h
  exact ⟨_, h, .inl rfl, rfl⟩

theorem sound_sendLoop (bs : List Byte) (h : Hears bus₀ p bus) (hready : Ready bus) :
    (∃ bus', Hears bus₀ (sendLoop slave bs p).2 bus' ∧ Ready bus' ∧
      closed bus' = closed bus ++ sentEvents slave p.samples bs) ∧
      ((sendLoop slave bs p).1 = true ↔ AllAcked slave p.samples bs) := by
  induction bs generalizing p bus with
  | nil => exact ⟨⟨bus, h, hready, (List.append_nil _).symm⟩, iff_of_true rfl trivial⟩
  | cons b bs ih =>
    obtain ⟨hlow, hsamples, hack⟩ := hears_llWrite slave b h
    obtain ⟨bus', hears, hready', hclosed⟩ := closed_low hlow
    rw [sendLoop, sentEvents, AllAcked]
    dsimp only
    by_cases ha : Acked slave p.samples
    · rw [if_neg (not_not.mpr (hack.mpr ha)), if_pos ha, ← hsamples]
      obtain ⟨⟨bus'', hears', hready'', hclosed'⟩, hiff⟩ := ih hears hready'
      refine ⟨⟨bus'', hears', hready'', ?_⟩, hiff.trans (and_iff_right ha).symm⟩
      rw [hclosed', hclosed, List.append_assoc]
    · rw [if_pos (mt hack.mp ha), if_neg ha, List.append_nil]
      exact ⟨⟨bus', hears, hready', hclosed⟩,
        iff_of_false Bool.false_ne_true fun h => ha h.1⟩

theorem sound_startLoop (b : Byte) (k : ℕ) (h : Hears bus₀ p bus) (hready : Ready bus) :
    (∃ bus', Hears bus₀ (startLoop slave b k p).2 bus' ∧ Ready bus' ∧
      closed bus' = closed bus ++ startEvents slave b k p.samples) ∧
      ((startLoop slave b k p).1 = true →
        startAcked slave k p.samples = some (startLoop slave b k p).2.samples) ∧
      ((startLoop slave b k p).1 = false → startAcked slave k p.samples = none) := by
  induction k generalizing p bus with
  | zero =>
    refine ⟨⟨bus, h, hready, (List.append_nil _).symm⟩, fun h => ?_, fun _ => rfl⟩
    exact absurd h Bool.false_ne_true
  | succ k ih =>
    obtain ⟨still, hstart⟩ := hears_llStart h
    obtain ⟨hlow, hsamples, hack⟩ := hears_llWrite slave b hstart
    obtain ⟨bus', hears, hready', hclosed⟩ := closed_low hlow
    have hn : (llStart p).samples = p.samples := rfl
    have hsaid : closed bus' = closed bus ++ (.start :: written b) := by
      rw [hclosed, closed]
      simp [Bus.step]
    rw [hn] at hsamples hack
    rw [startLoop, startEvents, startAcked]
    dsimp only
    by_cases ha : Acked slave p.samples
    · rw [if_pos (hack.mpr ha), if_pos ha, if_pos ha, List.append_nil, ← hsamples]
      exact ⟨⟨bus', hears, hready', hsaid⟩, fun _ => rfl, fun h => absurd h.symm Bool.false_ne_true⟩
    · rw [if_neg (mt hack.mp ha), if_neg ha, if_neg ha, ← hsamples]
      obtain ⟨⟨bus'', hears', hready'', hclosed'⟩, hyes, hno⟩ := ih hears hready'
      refine ⟨⟨bus'', hears', hready'', ?_⟩, hyes, hno⟩
      rw [hclosed', hsaid, List.append_assoc]

theorem sound_receiveLoop (k : ℕ) (h : Hears bus₀ p bus) (hready : Ready bus) :
    Low bus₀ (receiveLoop slave k p).2 true (closed bus ++ receivedEvents k) ∧
      (receiveLoop slave k p).1 =
        (List.range (k + 1)).map fun j => ofBits (levels slave (p.samples + 8 * j)) := by
  induction k generalizing p bus with
  | zero =>
    obtain ⟨hlow, -, hvalue⟩ := hears_llRead slave h hready
    rw [receiveLoop]
    dsimp only
    refine ⟨?_, ?_⟩
    · rw [receivedEvents, ← List.append_assoc]
      exact hears_llAckNak hlow false
    · rw [hvalue]
      rfl
  | succ k ih =>
    obtain ⟨hlow, hsamples, hvalue⟩ := hears_llRead slave h hready
    obtain ⟨still, hears⟩ := hears_llAckNak hlow true
    obtain ⟨hlow', hvalues⟩ := ih hears (.inl rfl)
    have hn : (llAckNak true (llRead slave p).2).samples = (llRead slave p).2.samples := rfl
    rw [receiveLoop]
    dsimp only
    refine ⟨?_, ?_⟩
    · rw [receivedEvents, ← List.append_assoc, ← List.append_assoc]
      have hclosed : closed ⟨false, !true, still,
          closed bus ++ List.replicate 8 (.bit true) ++ [.bit !true]⟩ =
            closed bus ++ List.replicate 8 (.bit true) ++ [.bit false] := rfl
      rw [hclosed] at hlow'
      exact hlow'
    · rw [hvalues, hvalue, hn, hsamples, List.range_succ_eq_map (n := k + 1), List.map_cons,
        List.map_map]
      congr 1
      apply List.map_congr_left
      intro j _
      show ofBits (levels slave (p.samples + 8 + 8 * j)) =
        ofBits (levels slave (p.samples + 8 * (j + 1)))
      congr 2
      omega

/-- What a round of `ll_WaitClock` says. -/
def waitRound : List Event := .start :: List.replicate 15 (.bit false) ++ [.stop]

/-! ## Sequences of calls -/

/-- A call of the port's interface, with the lengths that fit an `unsigned char`. -/
inductive Call
  | sendCommand (b : Byte) (bs : List Byte) (h : bs.length < 255)
  | sendData (bs : List Byte) (h : bs.length < 256)
  | receiveData (uclen : Byte) (h : uclen ≠ 0)
  | waitClock (loop : Byte)

/-- The result of a call, the bytes stored and the port behind it; none if it runs longer than
    `k` rounds. -/
def Call.run (slave : ℕ → Bool) (k : ℕ) (p : Port) : Call → Option (ReturnCode × List Byte × Port)
  | .sendCommand b bs _ =>
    let (code, p) := llSendCommand slave b bs p
    some (code, [], p)
  | .sendData bs _ =>
    let (code, p) := llSendData slave bs p
    some (code, [], p)
  | .receiveData uclen _ =>
    let (bs, p) := llReceiveData slave uclen.toNat p
    some (.success, bs, p)
  | .waitClock loop => (llWaitClock loop.toNat k p).map fun p => (.success, [], p)

/-- What a call has to say, from sample `n` on. -/
def Call.events (slave : ℕ → Bool) (n : ℕ) : Call → List Event
  | .sendCommand b bs _ => startEvents slave b startTries n ++
      match startAcked slave startTries n with
      | none => []
      | some m => sentEvents slave m bs
  | .sendData bs _ => sentEvents slave n bs ++ if AllAcked slave n bs then [.stop] else []
  | .receiveData uclen _ => receivedEvents (uclen.toNat - 1) ++ [.stop]
  | .waitClock loop => (List.replicate (loop.toNat * 4) waitRound).flatten

/-- When a call has to return `SUCCESS`: every byte is acknowledged, the first one of a command
    behind one of the STARTs. -/
def Call.Succeeds (slave : ℕ → Bool) (n : ℕ) : Call → Prop
  | .sendCommand _ bs _ => ∃ m, startAcked slave startTries n = some m ∧ AllAcked slave m bs
  | .sendData bs _ => AllAcked slave n bs
  | .receiveData _ _ => True
  | .waitClock _ => True

/-- The bytes that a call has to store: the levels of eight samples each. -/
def Call.stored (slave : ℕ → Bool) (n : ℕ) : Call → List Byte
  | .receiveData uclen _ =>
    (List.range uclen.toNat).map fun j => ofBits (levels slave (n + 8 * j))
  | _ => []

/-- What is asked of a call at the port `p`, which has done `p.log` since the lines were at `bus₀`:
    what the lines say, that SDA is sampled while SCL is high, the result, and the bytes. -/
structure Call.Sound (slave : ℕ → Bool) (bus₀ : Bus) (c : Call) (p : Port)
    (r : ReturnCode × List Byte × Port) : Prop where
  said : closed (hear bus₀ r.2.2.log) = closed (hear bus₀ p.log) ++ c.events slave p.samples
  sampled : SampledHigh bus₀ r.2.2.log
  success : r.1 = .success ↔ c.Succeeds slave p.samples
  stored : r.2.1 = c.stored slave p.samples

/-- Calls that follow each other all come to an end and are sound. -/
def Session (slave : ℕ → Bool) (bus₀ : Bus) : Port → List Call → Prop
  | _, [] => True
  | p, c :: cs => ∃ k r, c.run slave k p = some r ∧ c.Sound slave bus₀ p r ∧
      Session slave bus₀ r.2.2 cs

theorem sound_sendCommand {b : Byte} {bs : List Byte} (hlen : bs.length < 255)
    (h : Hears bus₀ p bus) (hready : Ready bus) (k : ℕ) :
    ∃ r bus', Call.run slave k p (.sendCommand b bs hlen) = some r ∧
      Call.Sound slave bus₀ (.sendCommand b bs hlen) p r ∧ Hears bus₀ r.2.2 bus' ∧ Ready bus' := by
  obtain ⟨⟨bus', hears, hready', hsaid⟩, hyes, hno⟩ :=
    sound_startLoop slave b startTries h hready
  have hbus : hear bus₀ p.log = bus := h.heard
  rcases hstart : startLoop slave b startTries p with ⟨ok, q⟩
  rw [hstart] at hears hyes hno
  cases ok with
  | false =>
    have hacked := hno rfl
    refine ⟨(.failCmdstart, [], q), bus', ?_, ⟨?_, hears.sampled, ?_, rfl⟩, hears, hready'⟩
    · simp only [Call.run, llSendCommand, hstart]
    · rw [hears.heard, hbus, hsaid]
      simp only [Call.events, hacked, List.append_nil]
    · refine iff_of_false (show ReturnCode.failCmdstart ≠ .success by decide) ?_
      rintro ⟨m, hm, -⟩
      rw [hacked] at hm
      cases hm
  | true =>
    have hacked := hyes rfl
    obtain ⟨⟨bus'', hears', hready'', hsaid'⟩, hiff⟩ :=
      sound_sendLoop slave bs hears hready'
    rcases hsend : sendLoop slave bs q with ⟨ok, q'⟩
    rw [hsend] at hears' hiff
    have hevents : closed (hear bus₀ q'.log) =
        closed (hear bus₀ p.log) ++ Call.events slave p.samples (.sendCommand b bs hlen) := by
      rw [hears'.heard, hbus, hsaid', hsaid, List.append_assoc]
      simp only [Call.events, hacked]
    have hsucc : Call.Succeeds slave p.samples (.sendCommand b bs hlen) ↔ ok = true := by
      refine Iff.trans ?_ hiff.symm
      constructor
      · rintro ⟨m, hm, hall⟩
        rw [hacked] at hm
        cases hm
        exact hall
      · intro hall
        exact ⟨_, hacked, hall⟩
    cases ok with
    | false =>
      refine ⟨(.failCmdsend, [], q'), bus'', ?_, ⟨hevents, hears'.sampled, ?_, rfl⟩, hears', hready''⟩
      · simp only [Call.run, llSendCommand, hstart, hsend]
      · exact iff_of_false (show ReturnCode.failCmdsend ≠ .success by decide)
          (mt hsucc.mp Bool.false_ne_true)
    | true =>
      refine ⟨(.success, [], q'), bus'', ?_, ⟨hevents, hears'.sampled, ?_, rfl⟩, hears', hready''⟩
      · simp only [Call.run, llSendCommand, hstart, hsend]
      · exact iff_of_true rfl (hsucc.mpr rfl)

theorem sound_sendData {bs : List Byte} (hlen : bs.length < 256) (h : Hears bus₀ p bus)
    (hready : Ready bus) (k : ℕ) :
    ∃ r bus', Call.run slave k p (.sendData bs hlen) = some r ∧
      Call.Sound slave bus₀ (.sendData bs hlen) p r ∧ Hears bus₀ r.2.2 bus' ∧ Ready bus' := by
  obtain ⟨⟨bus', hears, hready', hsaid⟩, hiff⟩ := sound_sendLoop slave bs h hready
  have hbus : hear bus₀ p.log = bus := h.heard
  rcases hsend : sendLoop slave bs p with ⟨ok, q⟩
  rw [hsend] at hears hiff
  cases ok with
  | false =>
    have hall : ¬ AllAcked slave p.samples bs := mt hiff.mpr Bool.false_ne_true
    refine ⟨(.failWrdata, [], q), bus', ?_, ⟨?_, hears.sampled, ?_, rfl⟩, hears, hready'⟩
    · simp only [Call.run, llSendData, hsend]
    · rw [hears.heard, hbus, hsaid]
      simp only [Call.events, if_neg hall, List.append_nil]
    · exact iff_of_false (show ReturnCode.failWrdata ≠ .success by decide) hall
  | true =>
    have hall : AllAcked slave p.samples bs := hiff.mp rfl
    have hstop := hears_llStop hears
    refine ⟨(.success, [], llStop q), _, ?_, ⟨?_, hstop.sampled, ?_, rfl⟩, hstop, .inr rfl⟩
    · simp only [Call.run, llSendData, hsend]
    · rw [hstop.heard, hbus]
      show closed bus' ++ [.stop] ++ [] = _
      rw [hsaid, List.append_nil]
      simp only [Call.events, if_pos hall, List.append_assoc]
    · exact iff_of_true rfl hall

theorem sound_receiveData {uclen : Byte} (hlen : uclen ≠ 0) (h : Hears bus₀ p bus)
    (hready : Ready bus) (k : ℕ) :
    ∃ r bus', Call.run slave k p (.receiveData uclen hlen) = some r ∧
      Call.Sound slave bus₀ (.receiveData uclen hlen) p r ∧ Hears bus₀ r.2.2 bus' ∧
        Ready bus' := by
  have hpos : 0 < uclen.toNat := by
    rw [Nat.pos_iff_ne_zero]
    exact fun h0 => hlen (UInt8.toNat_inj.mp h0)
  have hbus : hear bus₀ p.log = bus := h.heard
  obtain ⟨⟨still, hlow⟩, hvalues⟩ := sound_receiveLoop slave (uclen.toNat - 1) h hready
  have hstop := hears_llStop hlow
  refine ⟨(.success, (receiveLoop slave (uclen.toNat - 1) p).1,
    llStop (receiveLoop slave (uclen.toNat - 1) p).2), _, ?_, ⟨?_, hstop.sampled, ?_, ?_⟩, hstop,
    .inr rfl⟩
  · simp only [Call.run, llReceiveData, if_pos hpos]
  · rw [hstop.heard, hbus]
    show closed bus ++ receivedEvents (uclen.toNat - 1) ++ [.stop] ++ [] = _
    rw [List.append_nil, List.append_assoc]
    rfl
  · exact iff_of_true rfl trivial
  · show (receiveLoop slave (uclen.toNat - 1) p).1 = _
    rw [hvalues, Nat.sub_add_cancel hpos]
    rfl

/-! ## `ll_WaitClock` -/

/-- The rounds that are left, as long as the counter does not wrap. -/
theorem sound_waitLoop {loop : ℕ} (hloop : loop < 64) (m j : ℕ) (hj : j + m = loop * 4)
    (h : Hears bus₀ p bus) (hready : Ready bus) :
    ∃ q bus', waitLoop loop (m + 1) j p = some q ∧ Hears bus₀ q bus' ∧ Ready bus' ∧
      closed bus' = closed bus ++ (List.replicate m waitRound).flatten := by
  induction m generalizing j p bus with
  | zero =>
    rw [waitLoop, if_neg (by omega)]
    exact ⟨p, bus, rfl, h, hready, (List.append_nil _).symm⟩
  | succ m ih =>
    have hround := hears_clocks 14 h
    obtain ⟨q, bus', hrun, hears, hready', hclosed⟩ := ih (j + 1) (by omega) hround (.inr rfl)
    rw [waitLoop, if_pos (by omega), Nat.mod_eq_of_lt (by omega)]
    refine ⟨q, bus', hrun, hears, hready', hclosed.trans ?_⟩
    have hsaid : closed ⟨true, true, false,
        closed bus ++ [.start] ++ List.replicate (14 + 1) (.bit false) ++ [.stop]⟩ =
          closed bus ++ waitRound := by
      rw [waitRound]
      simp [closed, Bus.step]
    rw [hsaid, List.replicate_succ, List.flatten_cons, List.append_assoc]

theorem sound_waitClock {loop : Byte} (hloop : loop.toNat < 64) (h : Hears bus₀ p bus)
    (hready : Ready bus) :
    ∃ k r bus', Call.run slave k p (.waitClock loop) = some r ∧
      Call.Sound slave bus₀ (.waitClock loop) p r ∧ Hears bus₀ r.2.2 bus' ∧ Ready bus' := by
  obtain ⟨q, bus', hrun, hears, hready', hclosed⟩ :=
    sound_waitLoop hloop (loop.toNat * 4) 0 (Nat.zero_add _) h hready
  refine ⟨loop.toNat * 4 + 1, (.success, [], q), bus', ?_, ⟨?_, hears.sampled, ?_, rfl⟩, hears,
    hready'⟩
  · simp only [Call.run, llWaitClock, hrun, Option.map_some]
  · rw [hears.heard, h.heard, hclosed]
    rfl
  · exact iff_of_true rfl trivial

/-- A counter of eight bits never comes to 256. -/
theorem waitLoop_eq_none {loop j : ℕ} (hloop : 64 ≤ loop) (hj : j < 256) (k : ℕ) (p : Port) :
    waitLoop loop k j p = none := by
  induction k generalizing j p with
  | zero => rfl
  | succ k ih =>
    rw [waitLoop, if_pos (by omega)]
    exact ih (Nat.mod_lt _ (by norm_num)) _

/-- More rounds do not change where the loop ends. -/
theorem waitLoop_unique {loop j k k' : ℕ} {q q' : Port} (h : waitLoop loop k j p = some q)
    (h' : waitLoop loop k' j p = some q') : q = q' := by
  induction k generalizing j k' p with
  | zero => cases h
  | succ k ih =>
    rcases k' with _ | k'
    · cases h'
    · rw [waitLoop] at h h'
      by_cases hj : j < loop * 4
      · rw [if_pos hj] at h h'
        exact ih h h'
      · rw [if_neg hj] at h h'
        exact Option.some.inj (h.symm.trans h')

theorem Call.run_unique {c : Call} {k k' : ℕ} {r r' : ReturnCode × List Byte × Port}
    (h : c.run slave k p = some r) (h' : c.run slave k' p = some r') : r = r' := by
  cases c with
  | sendCommand b bs hlen => exact Option.some.inj (h.symm.trans h')
  | sendData bs hlen => exact Option.some.inj (h.symm.trans h')
  | receiveData uclen hlen => exact Option.some.inj (h.symm.trans h')
  | waitClock loop =>
    obtain ⟨q, hq, rfl⟩ := Option.map_eq_some_iff.mp h
    obtain ⟨q', hq', rfl⟩ := Option.map_eq_some_iff.mp h'
    rw [waitLoop_unique hq hq']

/-! ## Main result -/

theorem session_of_ready (calls : List Call) (h : Hears bus₀ p bus) (hready : Ready bus) :
    Session slave bus₀ p calls ↔ ∀ loop, Call.waitClock loop ∈ calls → loop.toNat < 64 := by
  induction calls generalizing p bus with
  | nil => exact iff_of_true trivial fun loop h => absurd h List.not_mem_nil
  | cons c calls ih =>
    by_cases hbad : ∃ loop : Byte, c = .waitClock loop ∧ 64 ≤ loop.toNat
    · obtain ⟨loop, rfl, hloop⟩ := hbad
      refine iff_of_false ?_ fun h => ?_
      · rintro ⟨k, r, hrun, -⟩
        simp only [Call.run, llWaitClock, waitLoop_eq_none hloop (show 0 < 256 by norm_num),
          Option.map_none] at hrun
        cases hrun
      · exact absurd (h loop List.mem_cons_self) (Nat.not_lt.mpr hloop)
    · have hsound : ∃ k r bus', c.run slave k p = some r ∧ c.Sound slave bus₀ p r ∧
          Hears bus₀ r.2.2 bus' ∧ Ready bus' := by
        cases c with
        | sendCommand b bs hlen => exact ⟨0, sound_sendCommand slave hlen h hready 0⟩
        | sendData bs hlen => exact ⟨0, sound_sendData slave hlen h hready 0⟩
        | receiveData uclen hlen => exact ⟨0, sound_receiveData slave hlen h hready 0⟩
        | waitClock loop =>
          refine sound_waitClock slave (Nat.lt_of_not_le fun hle => hbad ⟨loop, rfl, hle⟩) h hready
      have hrest : (∀ loop, Call.waitClock loop ∈ c :: calls → loop.toNat < 64) ↔
          ∀ loop, Call.waitClock loop ∈ calls → loop.toNat < 64 := by
        refine ⟨fun h loop hl => h loop (List.mem_cons_of_mem c hl), fun h loop hl => ?_⟩
        rcases List.mem_cons.mp hl with rfl | hl
        · exact Nat.lt_of_not_le fun hle => hbad ⟨loop, rfl, hle⟩
        · exact h loop hl
      rw [hrest]
      obtain ⟨k, r, bus', hrun, hc, hears, hready'⟩ := hsound
      constructor
      · rintro ⟨k', r', hrun', -, hsession⟩
        rw [← Call.run_unique slave hrun hrun'] at hsession
        exact (ih hears hready').mp hsession
      · intro hall
        exact ⟨k, r, hrun, hc, (ih hears hready').mpr hall⟩

/-- `ll_PowerOn` leaves SDA high. -/
theorem hears_llPowerOn (h : Hears bus₀ p bus) :
    ∃ bus', Hears bus₀ (llPowerOn p) bus' ∧ Ready bus' := by
  have hdata := ((h.setScl true).setSda true).setSda true
  have hclocks := hears_llClockCycles 14 hdata.low.clocklow.clockhigh
  exact ⟨_, hclocks, .inr hdata.sda⟩

end Functions

/-- Behind `ll_PowerOn`, with the lines at any levels before, every sequence of calls comes to an
    end and does what it has to iff no `ll_WaitClock` has an argument from 64 on. -/
theorem session_iff (slave : ℕ → Bool) (scl sda : Bool) (n : ℕ) (calls : List Call) :
    Session slave ⟨scl, sda, false, []⟩ (llPowerOn ⟨scl, sda, n, []⟩) calls ↔
      ∀ loop, Call.waitClock loop ∈ calls → loop.toNat < 64 := by
  have h : Hears ⟨scl, sda, false, []⟩ ⟨scl, sda, n, []⟩ ⟨scl, sda, false, []⟩ :=
    ⟨rfl, trivial, rfl, rfl⟩
  obtain ⟨bus', hears, hready⟩ := hears_llPowerOn h
  exact session_of_ready slave calls hears hready

/-- `ll_WaitClock(64)` does not come to an end. -/
theorem not_session_waitClock :
    ¬ Session (fun _ => true) ⟨true, true, false, []⟩ (llPowerOn ⟨true, true, 0, []⟩)
      [.waitClock 64] := by
  rintro ⟨k, r, hrun, -⟩
  obtain ⟨q, hq, -⟩ := Option.map_eq_some_iff.mp hrun
  have hnone := waitLoop_eq_none (le_refl 64) (show 0 < 256 by norm_num) k
    (llPowerOn ⟨true, true, 0, []⟩)
  rw [llWaitClock] at hq
  exact absurd (hnone.symm.trans hq) (by simp)

end SmartQ.Firmware.LlPort
