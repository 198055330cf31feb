import EightBit.PacedRun

/-!
# Run options

How a program is run: the time for a cycle, the timer's period and the limit on cycles. A limited
run goes at full speed and measures the timer's period in cycles.
-/
namespace EightBit

structure RunOptions where
  cycleMicros : Nat
  timerMillis : Nat
  timer : Bool
  limit : Option Nat
  deriving DecidableEq, Repr

namespace RunOptions

def default : RunOptions := ⟨1000, 1000, true, none⟩

/-- The largest number that the options and periods can hold. -/
def largest : Nat := UInt64.size - 1

/-- The timer's period in cycles, at least one. The microseconds are capped before they are divided
by those of a cycle. -/
def tickPeriod (timerMillis cycleMicros : Nat) : Nat :=
  max 1 (min largest (timerMillis * 1000) / max cycleMicros 1)

abbrev Ticks := Silence ⊕ PeriodicTicks ⊕ Stopwatch

/-- Limited runs measure time in cycles, others by real time. -/
def ticks (o : RunOptions) : Ticks :=
  if !o.timer then .inl {}
  else if o.limit.isSome then .inr (.inl (.every (tickPeriod o.timerMillis o.cycleMicros)))
  else .inr (.inr (.every (o.timerMillis * 1000)))

/-- Limited runs do not wait between cycles. -/
def pacing (o : RunOptions) : Pacing Ticks where
  ticks := o.ticks
  cyclePeriod := if o.limit.isSome then 0 else o.cycleMicros
  limit := o.limit
  stopped := false

theorem tickPeriod_pos (timerMillis cycleMicros : Nat) : 0 < tickPeriod timerMillis cycleMicros :=
  Nat.lt_of_lt_of_le Nat.one_pos (Nat.le_max_left ..)

/-- The period is never refused. -/
theorem every?_tickPeriod (timerMillis cycleMicros : Nat) :
    PeriodicTicks.every? (tickPeriod timerMillis cycleMicros) =
      some (.every (tickPeriod timerMillis cycleMicros)) :=
  if_neg (Nat.ne_of_gt (tickPeriod_pos timerMillis cycleMicros))

end RunOptions
end EightBit
