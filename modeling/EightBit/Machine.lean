import EightBit.Console
import EightBit.MachineStatus
import EightBit.Memory
import EightBit.RegisterFile

/-!
# Machine

Registers, program counter and flags over a memory and a console. The stack lives in the memory:
it grows downwards, and its pointer is an ordinary register that moves before a push writes and
after a pop reads.
-/
namespace EightBit

structure Machine (μ : Type) where
  registers : RegisterFile
  pc : UInt8
  /-- The opcode byte that was fetched last. -/
  ir : UInt8
  interruptsEnabled : Bool
  /-- A flag that no instruction reads or sets. -/
  overflow : Bool
  /-- Cycles begun while running. -/
  cycles : Nat
  memory : μ
  console : Console
  status : Status
  deriving DecidableEq, Repr

namespace Machine

variable {μ : Type}

def initial (memory : μ) : Machine μ where
  registers := .initial
  pc := 0
  ir := 0
  interruptsEnabled := true
  overflow := false
  cycles := 0
  memory := memory
  console := .empty
  status := .running

def reg (m : Machine μ) (r : Register) : UInt8 := m.registers.read r

def setReg (m : Machine μ) (r : Register) (v : UInt8) : Machine μ :=
  { m with registers := m.registers.write r v }

theorem reg_setReg (m : Machine μ) (r s : Register) (v : UInt8) :
    (m.setReg r v).reg s = if r = s then v else m.reg s := by
  simp [reg, setReg, RegisterFile.read_write]

def jump (m : Machine μ) (target : UInt8) : Machine μ := { m with pc := target }

/-- The address after an instruction of the group at the program counter. -/
def following (m : Machine μ) (g : Instruction.Group) : UInt8 := m.pc + UInt8.ofNat g.size

def skip (m : Machine μ) (g : Instruction.Group) : Machine μ := m.jump (m.following g)

def printLine (m : Machine μ) (text : List Char) : Machine μ :=
  { m with console := m.console.writeLine text }

def fail (m : Machine μ) (trap : Trap) : Machine μ := { m with status := .trapped trap }

def growStack (m : Machine μ) : Machine μ :=
  m.setReg .stackPointer (m.reg .stackPointer - 1)

variable [Memory μ]

def peek (m : Machine μ) (a : UInt8) : UInt8 := Memory.read m.memory a

def poke (m : Machine μ) (a v : UInt8) : Machine μ :=
  { m with memory := Memory.write m.memory a v }

def push (m : Machine μ) (v : UInt8) : Machine μ :=
  let grown := m.growStack
  grown.poke (grown.reg .stackPointer) v

/-- The register is read after the pointer has moved, so pushing the pointer saves its new value. -/
def saveReg (m : Machine μ) (r : Register) : Machine μ :=
  let grown := m.growStack
  grown.poke (grown.reg .stackPointer) (grown.reg r)

def pop (m : Machine μ) : UInt8 × Machine μ :=
  (m.peek (m.reg .stackPointer), m.setReg .stackPointer (m.reg .stackPointer + 1))

/-- The register is written after the pointer has moved, so a popped pointer is kept. -/
def restoreReg (m : Machine μ) (r : Register) : Machine μ :=
  let (v, shrunk) := m.pop
  shrunk.setReg r v

theorem reg_poke (m : Machine μ) (a v : UInt8) (r : Register) : (m.poke a v).reg r = m.reg r := rfl

theorem peek_setReg (m : Machine μ) (r : Register) (v a : UInt8) :
    (m.setReg r v).peek a = m.peek a := rfl

theorem saveReg_eq_push (m : Machine μ) {r : Register} (h : r ≠ .stackPointer) :
    m.saveReg r = m.push (m.reg r) := by
  simp [saveReg, push, growStack, reg_setReg, h.symm]

theorem saveReg_stackPointer (m : Machine μ) :
    m.saveReg .stackPointer = m.push (m.reg .stackPointer - 1) := by
  simp [saveReg, push, growStack, reg_setReg]

theorem reg_push (m : Machine μ) (v : UInt8) (r : Register) :
    (m.push v).reg r = if Register.stackPointer = r then m.reg .stackPointer - 1 else m.reg r := by
  simp [push, growStack, reg_poke, reg_setReg]

theorem memory_push (m : Machine μ) (v : UInt8) :
    (m.push v).memory = Memory.write m.memory (m.reg .stackPointer - 1) v := by
  simp [push, growStack, poke, setReg, reg, RegisterFile.read_write]

end Machine
end EightBit
