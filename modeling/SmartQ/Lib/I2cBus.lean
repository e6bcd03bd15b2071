import Mathlib.Data.List.Basic
import Mathlib.Tactic.Common

/-!
# What the lines of an I2C bus say

The levels of the two lines, one after the other, as a receiver reads them: SDA moves while SCL is
high at a START and at a STOP, and else each high phase of SCL is a bit.

* `read_append`: a longer run of levels adds to what was said.
-/

namespace SmartQ.Lib.I2cBus

/-- What is said on the bus. -/
inductive Event
  | start
  | bit (b : Bool)
  | stop
  deriving DecidableEq

/-- The levels of the lines, clock and data, that the parties leave high or pull low. -/
abbrev Levels := Bool × Bool

/-- The bus: its levels, whether SDA has been still since SCL rose, and what was said. -/
@[ext]
structure Bus where
  scl : Bool
  sda : Bool
  still : Bool
  events : List Event

/-- Both lines are let go, as between two transfers. -/
def idle : Bus := ⟨true, true, false, []⟩

/-- New levels, both lines at once. -/
def Bus.step (bus : Bus) : Levels → Bus
  | (scl, sda) =>
    match bus.scl, scl with
    | true, true =>
      if bus.sda = sda then bus
      else ⟨true, sda, false, bus.events ++ [if bus.sda then .start else .stop]⟩
    | true, false =>
      ⟨false, sda, false, bus.events ++ if bus.still then [.bit bus.sda] else []⟩
    | false, true => ⟨true, sda, true, bus.events⟩
    | false, false => ⟨false, sda, bus.still, bus.events⟩

/-- What the levels say from `bus` on. -/
def Bus.read (bus : Bus) (levels : List Levels) : Bus := levels.foldl Bus.step bus

section Read

theorem Bus.read_append (bus : Bus) (levels levels' : List Levels) :
    bus.read (levels ++ levels') = (bus.read levels).read levels' :=
  List.foldl_append

theorem Bus.events_step (bus : Bus) (l : Levels) : bus.events <+: (bus.step l).events := by
  obtain ⟨scl, sda⟩ := l
  cases h : bus.scl with
  | false =>
    cases scl with
    | false => simp [Bus.step, h]
    | true => simp [Bus.step, h]
  | true =>
    cases scl with
    | false =>
      simp only [Bus.step, h]
      exact List.prefix_append _ _
    | true =>
      simp only [Bus.step, h]
      split_ifs
      · exact List.prefix_rfl
      · exact List.prefix_append _ _
      · exact List.prefix_append _ _

/-- What was said stays. -/
theorem Bus.events_read (levels : List Levels) :
    ∀ bus : Bus, bus.events <+: (bus.read levels).events := by
  induction levels with
  | nil => exact fun _ => List.prefix_rfl
  | cons l levels ih => exact fun bus => (bus.events_step l).trans (ih (bus.step l))

/-- A bit: its level is set, held while SCL is high, and kept over its fall. -/
theorem Bus.read_bit {bus : Bus} (h : bus.scl = false) (b : Bool) :
    bus.read [(false, b), (true, b), (false, b)] =
      ⟨false, b, false, bus.events ++ [.bit b]⟩ := by
  simp [Bus.read, Bus.step, h]

end Read

end SmartQ.Lib.I2cBus
