import EightBit.InterruptHandling

/-!
# Executing instructions

The effect of one instruction on a machine. Arithmetic wraps at 256. Every instruction goes on to
the next one in memory, except those that set the program counter and the one that halts.
-/
namespace EightBit

/-- Arithmetic is done by the operations that compute a byte from two; the others refuse. -/
def BinaryOp.compute (op : BinaryOp) (a b : UInt8) : Except Trap UInt8 :=
  match op with
  | add => .ok (a + b)
  | mul => .ok (a * b)
  | st => .error (.unsupportedArithmetic op)

namespace Machine

variable {μ : Type} [Memory μ]

def executeNullary (m : Machine μ) : NullaryOp → Machine μ
  | .hlt => { m with status := .halted }
  | .ret => m.pop.2.jump m.pop.1
  | .iret => m.leaveHandler

/-- A call returns to the instruction after it, and its target is read once that has been pushed. -/
def executeUnary (m : Machine μ) (a : Register) : UnaryOp → Machine μ
  | .prn => (m.printLine (Nat.toDigits 10 (m.reg a).toNat)).skip .unary
  | .pra => (m.printLine [Char.ofNat (m.reg a).toNat]).skip .unary
  | .push => (m.saveReg a).skip .unary
  | .pop => (m.restoreReg a).skip .unary
  | .call =>
    let pushed := m.push (m.following .unary)
    pushed.jump (pushed.reg a)
  | .jmp => m.jump (m.reg a)

def executeBinary (m : Machine μ) (a b : Register) (op : BinaryOp) : Except Trap (Machine μ) :=
  match op with
  | .st => .ok ((m.poke (m.reg a) (m.reg b)).skip .binary)
  | _ => (op.compute (m.reg a) (m.reg b)).map fun v => (m.setReg a v).skip .binary

def executeImmediate (m : Machine μ) (a : Register) (value : UInt8) : ImmediateOp → Machine μ
  | .ldi => (m.setReg a value).skip .immediate

def execute (m : Machine μ) : Instruction → Except Trap (Machine μ)
  | .nullary op => .ok (m.executeNullary op)
  | .unary op a => .ok (m.executeUnary a op)
  | .binary op a b => m.executeBinary a b op
  | .immediate op a value => .ok (m.executeImmediate a value op)

theorem executeBinary_add (m : Machine μ) (a b : Register) :
    m.executeBinary a b .add = .ok ((m.setReg a (m.reg a + m.reg b)).skip .binary) := rfl

theorem executeBinary_mul (m : Machine μ) (a b : Register) :
    m.executeBinary a b .mul = .ok ((m.setReg a (m.reg a * m.reg b)).skip .binary) := rfl

/-- Decoded instructions never fail. -/
theorem execute_isOk (m : Machine μ) (i : Instruction) : ∃ after, m.execute i = .ok after := by
  cases i with
  | nullary op => exact ⟨_, rfl⟩
  | unary op a => exact ⟨_, rfl⟩
  | binary op a b => cases op <;> exact ⟨_, rfl⟩
  | immediate op a value => exact ⟨_, rfl⟩

end Machine
end EightBit
