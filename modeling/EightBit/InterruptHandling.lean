import EightBit.Machine

/-!
# Interrupt handling

Requests are latched as bits of a register. A machine accepts the lowest requested line that is not
masked: it drops the request, disables interrupts, saves the program counter and all registers on
the stack and goes to the handler. Leaving the handler restores them from there and enables
interrupts again.
-/
namespace EightBit.Machine

/-- The address of the handler of line 0; those of the other lines follow. -/
def vectors : UInt8 := 0xf8

def vector (line : Line) : UInt8 := vectors + UInt8.ofNat line

variable {μ : Type}

def request (m : Machine μ) (line : Line) : Machine μ :=
  m.setReg .requests (LineSet.insert (m.reg .requests) line)

/-- Numbers past the last line are ignored. -/
def raise (m : Machine μ) (number : UInt8) : Machine μ :=
  match Line.ofByte? number with
  | some line => m.request line
  | none => m

/-- The line that would be accepted now. -/
def acceptable? (m : Machine μ) : Option Line :=
  if m.interruptsEnabled then LineSet.lowest? (m.reg .requests &&& m.reg .mask) else none

theorem reg_request (m : Machine μ) (line : Line) (r : Register) :
    (m.request line).reg r =
      if Register.requests = r then LineSet.insert (m.reg .requests) line else m.reg r := by
  simp [request, reg_setReg]

theorem acceptable?_eq_some_iff {m : Machine μ} {line : Line} :
    m.acceptable? = some line ↔ m.interruptsEnabled ∧
      LineSet.lowest? (m.reg .requests &&& m.reg .mask) = some line := by
  cases h : m.interruptsEnabled <;> simp [acceptable?, h]

theorem acceptable?_eq_none_iff {m : Machine μ} :
    m.acceptable? = none ↔ m.interruptsEnabled = false ∨ m.reg .requests &&& m.reg .mask = 0 := by
  cases h : m.interruptsEnabled <;> simp [acceptable?, h, LineSet.lowest?_eq_none_iff]

variable [Memory μ]

def saveRegisters (m : Machine μ) : Machine μ := Register.all.foldl saveReg m

/-- The handler's address is read after the frame has been written. -/
def enterHandler (m : Machine μ) (line : Line) : Machine μ :=
  let dropped := m.setReg .requests (LineSet.erase (m.reg .requests) line)
  let saved := ({ dropped with interruptsEnabled := false }.push m.pc).saveRegisters
  saved.jump (saved.peek (vector line))

/-- The registers other than the stack pointer, in the order they come off the stack. -/
def restored : List Register := (Register.all.filter (· ≠ .stackPointer)).reverse

/-- The saved stack pointer is dropped: popping the frame moves the pointer back by itself. -/
def leaveHandler (m : Machine μ) : Machine μ :=
  let dropped := m.pop.2
  let (pc, popped) := (restored.foldl restoreReg dropped).pop
  { popped.jump pc with interruptsEnabled := true }

end EightBit.Machine
