import EightBit.MachineLoading
import EightBit.PacedRun
import EightBit.ProgramText

/-!
# Host sessions

A host works on a machine from outside: it loads images, raises lines, sets registers and memory,
steps the machine, lets a pacing drive it and takes what was printed. Each action has a reply and
leaves a session behind.
-/
namespace EightBit

/-- What a host can ask for. Runs that need not end are given a number of cycles as fuel. -/
inductive Action (τ : Type)
  | load (image : List UInt8) (start : UInt8)
  | loadText (text : String) (start : UInt8)
  | step
  | runAtMost (n : Nat)
  | run (fuel : Nat)
  | raise (number : UInt8)
  | setReg (r : Register) (v : UInt8)
  | poke (a v : UInt8)
  | setPc (v : UInt8)
  | setIr (v : UInt8)
  | setInterruptsEnabled (enabled : Bool)
  | setOverflow (overflow : Bool)
  | countCycle
  | takeOutput
  | pace (p : Pacing τ)
  | unpace
  | limitRuns (limit : Option Nat)
  | stopRuns (stopped : Bool)
  | runPaced (fuel : Nat)
  deriving DecidableEq, Repr

/-- The answer to an action; most actions are just done. -/
inductive Reply
  | done
  | loaded (length : Nat)
  | tooLarge (e : ImageTooLarge)
  | badText (e : ProgramTextError)
  | outcome (o : Outcome)
  | ended (e : RunEnd)
  | output (bytes : List UInt8)
  /-- The run did not end within its fuel, or there is no pacing. -/
  | nothing
  deriving DecidableEq, Repr

structure Session (μ τ : Type) where
  machine : Machine μ
  pacing : Option (Pacing τ)
  deriving DecidableEq, Repr

namespace Session

variable {μ τ : Type}

def start (memory : μ) : Session μ τ := ⟨.initial memory, none⟩

def withMachine (s : Session μ τ) (m : Machine μ) : Session μ τ := { s with machine := m }

variable [Memory μ] [TickSource τ]

/-- The reply is `fits` when the image does. -/
def load (s : Session μ τ) (image : List UInt8) (start : UInt8) (fits : Reply) :
    Reply × Session μ τ :=
  match s.machine.load image start with
  | .ok m => (fits, s.withMachine m)
  | .error e => (.tooLarge e, s)

def perform (s : Session μ τ) : Action τ → Reply × Session μ τ
  | .load image start => s.load image start .done
  | .loadText text start =>
    match ProgramImage.parse text with
    | .ok program => s.load program.bytes start (.loaded program.bytes.length)
    | .error e => (.badText e, s)
  | .step =>
    let (o, m) := s.machine.step
    (.outcome o, s.withMachine m)
  | .runAtMost n =>
    let (o, m) := s.machine.runAtMost n
    (.outcome o, s.withMachine m)
  | .run fuel =>
    match s.machine.run? fuel with
    | some (o, m) => (.outcome o, s.withMachine m)
    | none => (.nothing, s)
  | .raise number => (.done, s.withMachine (s.machine.raise number))
  | .setReg r v => (.done, s.withMachine (s.machine.setReg r v))
  | .poke a v => (.done, s.withMachine (s.machine.poke a v))
  | .setPc v => (.done, s.withMachine (s.machine.jump v))
  | .setIr v => (.done, s.withMachine { s.machine with ir := v })
  | .setInterruptsEnabled enabled =>
    (.done, s.withMachine { s.machine with interruptsEnabled := enabled })
  | .setOverflow overflow => (.done, s.withMachine { s.machine with overflow := overflow })
  | .countCycle => (.done, s.withMachine { s.machine with cycles := s.machine.cycles + 1 })
  | .takeOutput =>
    let (bytes, console) := s.machine.console.take
    (.output bytes, s.withMachine { s.machine with console := console })
  | .pace p => (.done, { s with pacing := some p })
  | .unpace => (.done, { s with pacing := none })
  | .limitRuns limit => (.done, { s with pacing := s.pacing.map ({ · with limit := limit }) })
  | .stopRuns stopped => (.done, { s with pacing := s.pacing.map ({ · with stopped := stopped }) })
  | .runPaced fuel =>
    match s.pacing.bind (·.run? fuel s.machine) with
    | some (e, p, m) => (.ended e, ⟨m, some p⟩)
    | none => (.nothing, s)

def performAll (s : Session μ τ) : List (Action τ) → List Reply × Session μ τ
  | [] => ([], s)
  | action :: rest =>
    let (reply, after) := s.perform action
    let (replies, last) := after.performAll rest
    (reply :: replies, last)

theorem performAll_nil (s : Session μ τ) : s.performAll [] = ([], s) := rfl

theorem performAll_append (s : Session μ τ) (first second : List (Action τ)) :
    (s.performAll (first ++ second)).2 = ((s.performAll first).2.performAll second).2 := by
  induction first generalizing s with
  | nil => rfl
  | cons action rest ih => exact ih _

end Session
end EightBit
