import EightBit.InterruptLines
import EightBit.Instruction
import EightBit.Numerals

/-!
# Status of a machine

A machine runs until it halts or traps, and then stays as it is. One cycle of a running machine
executes an instruction, enters an interrupt handler, halts or traps.
-/
namespace EightBit

/-- What stops a machine, with the address of the instruction that could not be executed. -/
inductive Trap
  | invalidOpcode (pc opcode : UInt8)
  | invalidRegister (pc operand : UInt8)
  | unsupportedArithmetic (op : BinaryOp)
  deriving DecidableEq, Repr

def Trap.message : Trap → String
  | invalidOpcode pc opcode =>
    "invalid instruction 0b" ++ Numerals.binary opcode ++ " at address 0x" ++ Numerals.hex pc
  | invalidRegister pc operand =>
    "invalid register operand " ++ Nat.repr operand.toNat ++ " at address 0x" ++ Numerals.hex pc
  | unsupportedArithmetic op => "ALU doesn't implement " ++ Opcode.name op

inductive Status
  | running
  | halted
  | trapped (trap : Trap)
  deriving DecidableEq, Repr

def Status.trap? : Status → Option Trap
  | trapped trap => some trap
  | _ => none

inductive Outcome
  | executed
  | entered (line : Line)
  | halted
  | trapped (trap : Trap)
  deriving DecidableEq, Repr

/-- Whether no later cycle can change anything. -/
def Outcome.isFinal : Outcome → Bool
  | halted => true
  | trapped _ => true
  | _ => false

/-- The result of a cycle that entered no handler, by the status it left. -/
def Status.outcome : Status → Outcome
  | running => .executed
  | halted => .halted
  | trapped trap => .trapped trap

theorem Status.trap?_eq_some_iff {s : Status} {trap : Trap} :
    s.trap? = some trap ↔ s.outcome = .trapped trap := by
  cases s <;> simp [trap?, outcome]

theorem Status.isFinal_outcome (s : Status) : s.outcome.isFinal = decide (s ≠ running) := by
  cases s <;> simp [outcome, Outcome.isFinal]

end EightBit
