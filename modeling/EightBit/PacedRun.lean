import EightBit.MachineCycle
import EightBit.TickSource

/-!
# Paced runs

A pacing drives a machine one cycle at a time. Before each cycle it polls its tick source and
requests the timer line when a tick is due. A run ends when the machine halts or traps, when the
pacing has been stopped, or after the limit's number of cycles, counted from the start of the run.
-/
namespace EightBit

inductive RunEnd
  | halted
  | stopped
  | cycleLimit
  | trapped (trap : Trap)
  deriving DecidableEq, Repr

/-- The end of a run whose last cycle had this outcome. -/
def Outcome.runEnd? : Outcome → Option RunEnd
  | halted => some .halted
  | trapped trap => some (.trapped trap)
  | _ => none

theorem Outcome.isSome_runEnd? (o : Outcome) : o.runEnd?.isSome = o.isFinal := by
  cases o <;> rfl

structure Pacing (τ : Type) where
  ticks : τ
  /-- Time for one cycle, in microseconds. -/
  cyclePeriod : Nat
  limit : Option Nat
  stopped : Bool
  deriving DecidableEq, Repr

namespace Pacing

variable {μ τ : Type} [Memory μ] [TickSource τ]

/-- A pacing without a limit that has not been stopped. -/
def free (ticks : τ) (cyclePeriod : Nat) : Pacing τ := ⟨ticks, cyclePeriod, none, false⟩

def map {σ τ : Type} (f : τ → σ) (p : Pacing τ) : Pacing σ := { p with ticks := f p.ticks }

/-- A millisecond for a cycle and a tick every second. -/
def standard : Pacing Stopwatch := free (.every 1000000) 1000

def beat (ticks : τ) (m : Machine μ) : Outcome × τ × Machine μ :=
  let (fired, polled) := TickSource.poll ticks
  let (outcome, after) := (if fired then m.request .timer else m).step
  (outcome, polled, after)

def cycles (cyclePeriod : Nat) : Nat → τ → Machine μ → RunEnd × τ × Machine μ
  | 0, ticks, m => (.cycleLimit, ticks, m)
  | n + 1, ticks, m =>
    let (outcome, polled, after) := beat ticks m
    match outcome.runEnd? with
    | some e => (e, polled, after)
    | none => cycles cyclePeriod n (TickSource.elapse polled cyclePeriod) after

/-- A run with a limit always ends. One without a limit is followed for `fuel` cycles, and has no
result when it goes on longer. -/
def run? (fuel : Nat) (p : Pacing τ) (m : Machine μ) : Option (RunEnd × Pacing τ × Machine μ) :=
  let ticks := TickSource.reset p.ticks
  if p.stopped then some (.stopped, { p with ticks := ticks }, m)
  else
    let (e, polled, after) := cycles p.cyclePeriod (p.limit.getD fuel) ticks m
    if e = .cycleLimit ∧ p.limit = none then none
    else some (e, { p with ticks := polled }, after)

theorem cycles_zero (cyclePeriod : Nat) (ticks : τ) (m : Machine μ) :
    cycles cyclePeriod 0 ticks m = (.cycleLimit, ticks, m) := rfl

theorem run?_of_stopped {p : Pacing τ} (h : p.stopped = true) (fuel : Nat) (m : Machine μ) :
    p.run? fuel m = some (.stopped, { p with ticks := TickSource.reset p.ticks }, m) := by
  simp [run?, h]

theorem run?_isSome_of_limit {p : Pacing τ} {n : Nat} (h : p.limit = some n) (fuel : Nat)
    (m : Machine μ) : (p.run? fuel m).isSome := by
  cases hs : p.stopped <;> simp [run?, h, hs]

end Pacing
end EightBit
