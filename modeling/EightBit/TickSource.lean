/-!
# Tick sources

A tick source is polled once before each cycle and says whether its tick is due. Between polls it
is told how much time has passed, in microseconds; a source that counts polls does not care.
-/
namespace EightBit

class TickSource (τ : Type) where
  poll : τ → Bool × τ
  reset : τ → τ
  elapse : τ → Nat → τ

namespace TickSource

variable {τ : Type} [TickSource τ]

/-- The answers to a number of polls in a row. -/
def pollMany : Nat → τ → List Bool × τ
  | 0, source => ([], source)
  | n + 1, source =>
    let (fired, after) := poll source
    let (rest, last) := pollMany n after
    (fired :: rest, last)

end TickSource

structure Silence where
  deriving DecidableEq, Repr

instance : TickSource Silence where
  poll s := (false, s)
  reset s := s
  elapse s _ := s

/-- Due at every `period`-th poll since the start or the last reset. -/
structure PeriodicTicks where
  period : Nat
  remaining : Nat
  deriving DecidableEq, Repr

namespace PeriodicTicks

def every (period : Nat) : PeriodicTicks := ⟨period, period⟩

/-- A period of no polls at all is refused. -/
def every? (period : Nat) : Option PeriodicTicks :=
  if period = 0 then none else some (every period)

def count (t : PeriodicTicks) : Bool × PeriodicTicks :=
  let left := t.remaining - 1
  if left = 0 then (true, { t with remaining := t.period }) else (false, { t with remaining := left })

instance : TickSource PeriodicTicks where
  poll := count
  reset t := { t with remaining := t.period }
  elapse t _ := t

theorem period_poll (t : PeriodicTicks) : (TickSource.poll t).2.period = t.period := by
  simp only [TickSource.poll, count]
  split <;> rfl

theorem every?_eq_none_iff {period : Nat} : every? period = none ↔ period = 0 := by
  simp [every?]

end PeriodicTicks

/-- A list of answers, one for each poll; after the last one never due. -/
structure ScriptedTicks where
  answers : List Bool
  deriving DecidableEq, Repr

instance : TickSource ScriptedTicks where
  poll s := (s.answers.headD false, ⟨s.answers.tail⟩)
  reset s := s
  elapse s _ := s

/-- Due once per period of time, in microseconds. Periods that went by without a poll count as one
tick. -/
structure Stopwatch where
  period : Nat
  now : Nat
  due : Nat
  deriving DecidableEq, Repr

namespace Stopwatch

def every (period : Nat) : Stopwatch := ⟨period, 0, period⟩

def every? (period : Nat) : Option Stopwatch :=
  if period = 0 then none else some (every period)

/-- The next tick is the first one after the present that keeps to the period. -/
def read (s : Stopwatch) : Bool × Stopwatch :=
  if s.now < s.due then (false, s)
  else (true, { s with due := s.due + s.period * ((s.now - s.due) / s.period + 1) })

instance : TickSource Stopwatch where
  poll := read
  reset s := { s with due := s.now + s.period }
  elapse s micros := { s with now := s.now + micros }

end Stopwatch

/-- Either of two kinds of source. -/
instance {σ τ : Type} [TickSource σ] [TickSource τ] : TickSource (σ ⊕ τ) where
  poll
    | .inl s => (TickSource.poll s).map id .inl
    | .inr t => (TickSource.poll t).map id .inr
  reset
    | .inl s => .inl (TickSource.reset s)
    | .inr t => .inr (TickSource.reset t)
  elapse
    | .inl s, micros => .inl (TickSource.elapse s micros)
    | .inr t, micros => .inr (TickSource.elapse t micros)

end EightBit
