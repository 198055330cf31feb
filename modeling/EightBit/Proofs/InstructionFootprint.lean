import EightBit.Proofs.AttemptedWrites
import EightBit.Proofs.PrintedText

/-!
# What an instruction touches

For each instruction the writes that it attempts, the registers that it may change and the address
at which it leaves the program counter, whatever the memory makes of the writes.
-/
namespace EightBit.Machine

variable {μ : Type} [Memory μ]

/-- The writes that an instruction attempts. A pushed stack pointer has moved already. -/
def writesOf (m : Machine μ) : Instruction → List (UInt8 × UInt8)
  | .unary .push a => [(m.reg .r7 - 1, if a = .r7 then m.reg .r7 - 1 else m.reg a)]
  | .unary .call _ => [(m.reg .r7 - 1, m.pc + 2)]
  | .binary .st a b => [(m.reg a, m.reg b)]
  | _ => []

/-- The program counter after an instruction. -/
def targetOf (m : Machine μ) : Instruction → UInt8
  | .nullary .hlt => m.pc
  | .nullary .ret => m.peek (m.reg .r7)
  | .nullary .iret => m.peek (m.reg .r7 + 8)
  | .unary .call a => if a = .r7 then m.reg .r7 - 1 else m.reg a
  | .unary .jmp a => m.reg a
  | i => m.pc + UInt8.ofNat i.size

theorem memory_saveReg (m : Machine μ) (r : Register) :
    (m.saveReg r).memory = Memory.writeAll m.memory (m.writesOf (.unary .push r)) := by
  by_cases pointer : r = .stackPointer
  · subst pointer
    rw [saveReg_stackPointer, memory_push]
    rfl
  · rw [saveReg_eq_push m pointer, memory_push, writesOf, if_neg pointer]
    rfl

theorem memory_of_executes {m : Machine μ} {i : Instruction} (h : m.Executes i) :
    m.step.2.memory = Memory.writeAll m.memory (m.writesOf i) := by
  cases i with
  | nullary op =>
    cases op with
    | ret => rw [step_of_executes h rfl]; rfl
    | iret =>
      rw [step_of_iret h]
      exact m.fetched.memory_leaveHandler
    | hlt => rw [step_of_executes h rfl]; rfl
  | unary op a =>
    cases op with
    | push =>
      rw [step_of_executes h rfl]
      exact m.fetched.memory_saveReg a
    | call => exact (pushed_of_call h).2
    | prn => rw [step_of_executes h rfl]; rfl
    | pra => rw [step_of_executes h rfl]; rfl
    | pop => rw [step_of_executes h rfl]; rfl
    | jmp => rw [step_of_executes h rfl]; rfl
  | binary op a b => cases op <;> rw [step_of_executes h rfl] <;> rfl
  | immediate op a value => cases op; rw [step_of_executes h rfl]; rfl

theorem attemptedWrites_of_executes {m : Machine μ} {i : Instruction} (h : m.Executes i) :
    m.attemptedWrites = m.writesOf i :=
  attemptedWrites_eq (memory_of_executes h.journaled)

theorem pc_leaveHandler (m : Machine μ) :
    m.leaveHandler.pc = m.peek (m.reg .stackPointer + 8) := by
  have inside : 8 < 9 := by decide
  have cell := m.getElem?_stackCells inside
  rw [stackCells_leaveHandler] at cell
  exact Option.some.inj cell

theorem target_of_executes {m : Machine μ} {i : Instruction} (h : m.Executes i) :
    m.step.2.pc = m.targetOf i := by
  cases i with
  | nullary op =>
    cases op with
    | ret => rw [step_of_executes h rfl]; rfl
    | iret =>
      rw [step_of_iret h]
      exact m.fetched.pc_leaveHandler
    | hlt => rw [step_of_executes h rfl]; rfl
  | unary op a =>
    cases op with
    | call =>
      have moved : (m.fetched.push (m.fetched.following .unary)).reg a =
          m.targetOf (.unary .call a) := by
        by_cases pointer : a = .stackPointer
        · subst pointer
          exact (reg_push _ _ _).trans (if_pos rfl)
        · rw [reg_push, if_neg (Ne.symm pointer), targetOf, if_neg pointer]
          rfl
      rw [step_of_executes h rfl]
      exact moved
    | jmp => rw [step_of_executes h rfl]; rfl
    | prn => exact pc_of_executes h rfl
    | pra => exact pc_of_executes h rfl
    | push => exact pc_of_executes h rfl
    | pop => exact pc_of_executes h rfl
  | binary op a b => cases op <;> exact pc_of_executes h rfl
  | immediate op a value => cases op; exact pc_of_executes h rfl

theorem console_of_silent {m : Machine μ} {i : Instruction} (h : m.Executes i)
    (silent : ∀ a, i ≠ .unary .prn a ∧ i ≠ .unary .pra a) : m.step.2.console = m.console := by
  have text : m.textOf i = [] := by
    unfold textOf
    split
    · next a => exact absurd rfl (silent a).1
    · next a => exact absurd rfl (silent a).2
    · rfl
  rw [console_of_executes h, text]
  exact Console.write_nil _

/-- Executing an instruction attempts its own writes only, changes none but its own registers and
goes on where it says. Only a return sets the interrupt flag, and only the two output instructions
print. -/
theorem executes_within_footprint {m : Machine μ} {i : Instruction} (h : m.Executes i) :
    m.attemptedWrites = m.writesOf i ∧
    m.step.2.memory = Memory.writeAll m.memory (m.writesOf i) ∧
    (∀ r, r ∉ i.changed → m.step.2.reg r = m.reg r) ∧
    (i = .nullary .iret → m.step.2.reg .r7 = m.reg .r7 + 9) ∧
    (i ≠ .nullary .iret → m.step.2.interruptsEnabled = m.interruptsEnabled) ∧
    m.step.2.overflow = m.overflow ∧
    ((∀ a, i ≠ .unary .prn a ∧ i ≠ .unary .pra a) → m.step.2.console = m.console) ∧
    m.step.2.pc = m.targetOf i := by
  refine ⟨attemptedWrites_of_executes h, memory_of_executes h,
    fun r => reg_of_executes_of_not_mem h, ?_, interruptsEnabled_of_executes h, ?_,
    console_of_silent h, target_of_executes h⟩
  · rintro rfl
    rw [step_of_iret h]
    exact m.fetched.pointer_leaveHandler
  · rw [frame_of_executes h]
    rfl

/-- A call through the stack pointer at the last address of a memory that ignores all writes. -/
def callingPointer : Machine (WiredMemory PlainMemory) :=
  let cells := Memory.writeAll PlainMemory.zero (Memory.placed 0xff [0x0f, 0x07])
  { initial ⟨cells, 0xff, 0⟩ with pc := 0xff }

theorem call_within_footprint :
    callingPointer.Executes (.unary .call .r7) ∧
      callingPointer.attemptedWrites = [(0xf7, 0x01)] ∧
      (∀ r, r ≠ .r7 → callingPointer.step.2.reg r = callingPointer.reg r) ∧
      callingPointer.step.2.pc = 0xf7 := by
  have calls : callingPointer.Executes (.unary .call .r7) := by decide
  obtain ⟨writes, -, regs, -, -, -, -, pc⟩ := executes_within_footprint calls
  exact ⟨calls, writes, fun r other => regs r (by simpa [Instruction.changed] using other), pc⟩

end EightBit.Machine
