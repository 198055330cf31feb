import EightBit.InstructionDecoding
import EightBit.InstructionExecution

/-!
# Machine cycles

In one cycle a running machine enters the handler of an acceptable interrupt or executes one
instruction. A machine that has halted or trapped is not changed by further cycles.
-/
namespace EightBit.Machine

variable {μ : Type} [Memory μ]

/-- The bytes that an instruction at the program counter could take. -/
def nextBytes (m : Machine μ) : List UInt8 := Memory.readFrom m.memory m.pc Instruction.maxSize

def nextInstruction (m : Machine μ) : Except Trap Instruction :=
  match Instruction.decode m.nextBytes with
  | .ok i => .ok i
  | .error (.invalidRegister operand) => .error (.invalidRegister m.pc operand)
  | .error _ => .error (.invalidOpcode m.pc (m.peek m.pc))

def executeNext (m : Machine μ) : Machine μ :=
  let fetched := { m with ir := m.peek m.pc }
  match fetched.nextInstruction.bind fetched.execute with
  | .ok after => after
  | .error trap => fetched.fail trap

def cycle (m : Machine μ) : Outcome × Machine μ :=
  match m.acceptable? with
  | some line => (.entered line, m.enterHandler line)
  | none =>
    let after := m.executeNext
    (after.status.outcome, after)

def step (m : Machine μ) : Outcome × Machine μ :=
  match m.status with
  | .running => { m with cycles := m.cycles + 1 }.cycle
  | stopped => (stopped.outcome, m)

/-- At most `n` steps and the outcome of the last one, or `last` when there is none. -/
def runFrom (last : Outcome) : Nat → Machine μ → Outcome × Machine μ
  | 0, m => (last, m)
  | n + 1, m =>
    let (outcome, after) := m.step
    if outcome.isFinal then (outcome, after) else runFrom outcome n after

def runAtMost (n : Nat) (m : Machine μ) : Outcome × Machine μ := runFrom .executed n m

/-- The end of a run that halts or traps within `fuel` steps. -/
def run? (fuel : Nat) (m : Machine μ) : Option (Outcome × Machine μ) :=
  let (outcome, after) := m.runAtMost fuel
  if outcome.isFinal then some (outcome, after) else none

/-- At most `n` steps one by one, each with its outcome and the machine after it. Before the next
step the host attends to the machine, as by taking what was printed. -/
def trace (attend : Machine μ → Machine μ) : Nat → Machine μ → List (Outcome × Machine μ)
  | 0, _ => []
  | n + 1, m =>
    let (outcome, after) := m.step
    (outcome, after) :: if outcome.isFinal then [] else trace attend n (attend after)

theorem nextInstruction_eq_ok_iff {m : Machine μ} {i : Instruction} :
    m.nextInstruction = .ok i ↔ Instruction.decode m.nextBytes = .ok i := by
  unfold nextInstruction
  split <;> simp_all

/-- A machine that cannot decode names the address at which it tried. -/
theorem trap_of_undecodable {m : Machine μ} {trap : Trap} (h : m.nextInstruction = .error trap) :
    trap = .invalidOpcode m.pc (m.peek m.pc) ∨ ∃ operand, trap = .invalidRegister m.pc operand := by
  unfold nextInstruction at h
  split at h
  · cases h
  · next operand _ => exact .inr ⟨operand, (Except.error.inj h).symm⟩
  · exact .inl (Except.error.inj h).symm

theorem step_of_stopped {m : Machine μ} (h : m.status ≠ .running) :
    m.step = (m.status.outcome, m) := by
  unfold step
  split
  · next running => exact absurd running h
  · rfl

theorem runFrom_zero (last : Outcome) (m : Machine μ) : runFrom last 0 m = (last, m) := rfl

theorem runFrom_succ (last : Outcome) (n : Nat) (m : Machine μ) :
    runFrom last (n + 1) m =
      if m.step.1.isFinal then m.step else runFrom m.step.1 n m.step.2 := rfl

end EightBit.Machine
