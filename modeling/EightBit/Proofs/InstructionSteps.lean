import EightBit.Proofs.InterruptFrame
import EightBit.Proofs.StepCases

/-!
# Steps that execute an instruction

Returning from a handler is the only instruction that reloads registers it does not name, and the
only one that touches the interrupt flag.
-/
namespace EightBit.Machine

variable {μ : Type} [Memory μ]

theorem step_of_iret {m : Machine μ} (h : m.Executes (.nullary .iret)) :
    m.step = (.executed, m.fetched.leaveHandler) := by
  have executed : m.fetched.execute (.nullary .iret) = .ok m.fetched.leaveHandler := rfl
  have running : m.fetched.leaveHandler.status = .running := by
    rw [leaveHandler_frame]
    exact h.running
  rw [step_of_executes h executed, running]
  rfl

/-- Registers that an instruction does not change keep their values. -/
theorem reg_of_executes_of_not_mem {m : Machine μ} {i : Instruction} (h : m.Executes i)
    {r : Register} (outside : r ∉ i.changed) : m.step.2.reg r = m.reg r := by
  cases i with
  | nullary op =>
    cases op with
    | ret =>
      have pointer : Register.stackPointer ≠ r := by
        simpa [Instruction.changed, eq_comm] using outside
      rw [step_of_executes h rfl]
      exact (reg_setReg _ _ _ _).trans (if_neg pointer)
    | iret => exact absurd r.mem_all outside
    | hlt =>
      rw [step_of_executes h rfl]
      rfl
  | unary op a =>
    cases op with
    | prn =>
      rw [step_of_executes h rfl]
      rfl
    | pra =>
      rw [step_of_executes h rfl]
      rfl
    | push =>
      have pointer : Register.stackPointer ≠ r := by
        simpa [Instruction.changed, eq_comm] using outside
      rw [step_of_executes h rfl]
      exact (reg_setReg _ _ _ _).trans (if_neg pointer)
    | pop =>
      have others : a ≠ r ∧ Register.stackPointer ≠ r := by
        simpa [Instruction.changed, eq_comm] using outside
      rw [step_of_executes h rfl]
      change ((m.fetched.setReg _ _).setReg a _).reg r = _
      rw [reg_setReg, if_neg others.1, reg_setReg, if_neg others.2]
      rfl
    | call =>
      have pointer : Register.stackPointer ≠ r := by
        simpa [Instruction.changed, eq_comm] using outside
      rw [step_of_executes h rfl]
      exact (reg_push _ (m.fetched.following .unary) _).trans (if_neg pointer)
    | jmp =>
      rw [step_of_executes h rfl]
      rfl
  | binary op a b =>
    cases op with
    | mul =>
      have other : a ≠ r := by simpa [Instruction.changed, eq_comm] using outside
      rw [step_of_executes h rfl]
      exact (reg_setReg _ _ _ _).trans (if_neg other)
    | st =>
      rw [step_of_executes h rfl]
      rfl
    | add =>
      have other : a ≠ r := by simpa [Instruction.changed, eq_comm] using outside
      rw [step_of_executes h rfl]
      exact (reg_setReg _ _ _ _).trans (if_neg other)
  | immediate op a value =>
    cases op with
    | ldi =>
      have other : a ≠ r := by simpa [Instruction.changed, eq_comm] using outside
      rw [step_of_executes h rfl]
      exact (reg_setReg _ _ _ _).trans (if_neg other)

/-- An instruction changes the register it names as its destination and the stack pointer. -/
theorem reg_of_executes {m : Machine μ} {i : Instruction} (h : m.Executes i)
    (stays : i ≠ .nullary .iret) {r : Register} (pointer : r ≠ .stackPointer)
    (kept : i.destination? ≠ some r) : m.step.2.reg r = m.reg r :=
  reg_of_executes_of_not_mem h (Instruction.not_mem_changed stays pointer kept)

/-- Executing an instruction takes one cycle and sets no flag, except that a return enables
interrupts. -/
theorem frame_of_executes {m : Machine μ} {i : Instruction} (h : m.Executes i) :
    m.step.2 =
      { m.fetched with
        registers := m.step.2.registers
        pc := m.step.2.pc
        interruptsEnabled := if i = .nullary .iret then true else m.interruptsEnabled
        memory := m.step.2.memory
        console := m.step.2.console
        status := m.step.2.status } := by
  cases i with
  | nullary op =>
    cases op with
    | ret => rw [step_of_executes h rfl]; rfl
    | iret =>
      rw [step_of_iret h, leaveHandler_frame]
      rfl
    | hlt => rw [step_of_executes h rfl]; rfl
  | unary op a => cases op <;> rw [step_of_executes h rfl] <;> rfl
  | binary op a b => cases op <;> rw [step_of_executes h rfl] <;> rfl
  | immediate op a value => cases op; rw [step_of_executes h rfl]; rfl

theorem interruptsEnabled_of_executes {m : Machine μ} {i : Instruction} (h : m.Executes i)
    (stays : i ≠ .nullary .iret) : m.step.2.interruptsEnabled = m.interruptsEnabled := by
  rw [frame_of_executes h]
  exact if_neg stays

/-- Only a return enables interrupts. -/
theorem interruptsEnabled_step_of_disabled {m : Machine μ} (disabled : m.interruptsEnabled = false)
    (stays : ¬ m.Executes (.nullary .iret)) : m.step.2.interruptsEnabled = false := by
  rcases m.step_cases with stopped | ⟨line, enters⟩ | ⟨i, executes⟩ | ⟨trap, traps⟩
  · rw [step_of_stopped stopped]
    exact disabled
  · exact absurd disabled (by simp [enters.enabled])
  · rw [interruptsEnabled_of_executes executes fun same => stays (same ▸ executes)]
    exact disabled
  · rw [step_of_traps traps]
    exact disabled

/-- Executing an instruction never traps. -/
theorem outcome_of_executes {m : Machine μ} {i : Instruction} (h : m.Executes i) :
    m.step.1 = if i = .nullary .hlt then .halted else .executed := by
  have running := h.running
  have outcome : ∀ after, m.fetched.execute i = .ok after → after.status = m.status →
      m.step.1 = .executed := by
    intro after executed same
    rw [step_of_executes h executed, same, running]
    rfl
  cases i with
  | nullary op =>
    cases op with
    | ret => exact outcome _ rfl rfl
    | iret => rw [step_of_iret h]; rfl
    | hlt => rw [step_of_executes h rfl]; rfl
  | unary op a => cases op <;> exact outcome _ rfl rfl
  | binary op a b => cases op <;> exact outcome _ rfl rfl
  | immediate op a value => cases op; exact outcome _ rfl rfl

theorem pc_of_executes {m : Machine μ} {i : Instruction} (h : m.Executes i)
    (onward : i.fallsThrough) : m.step.2.pc = m.pc + UInt8.ofNat i.size := by
  cases i with
  | nullary op => cases onward
  | unary op a =>
    cases op with
    | prn => rw [step_of_executes h rfl]; rfl
    | pra => rw [step_of_executes h rfl]; rfl
    | push => rw [step_of_executes h rfl]; rfl
    | pop => rw [step_of_executes h rfl]; rfl
    | call => cases onward
    | jmp => cases onward
  | binary op a b => cases op <;> rw [step_of_executes h rfl] <;> rfl
  | immediate op a value => cases op; rw [step_of_executes h rfl]; rfl

/-- A call leaves the address after it on the top of the stack. -/
theorem pushed_of_call {m : Machine μ} {a : Register} (h : m.Executes (.unary .call a)) :
    m.step.2.reg .stackPointer = m.reg .stackPointer - 1 ∧
      m.step.2.memory = Memory.write m.memory (m.reg .stackPointer - 1) (m.pc + 2) := by
  rw [step_of_executes h rfl]
  exact ⟨(reg_push m.fetched (m.fetched.following .unary) _).trans (if_pos rfl),
    m.fetched.memory_push (m.fetched.following .unary)⟩

/-- Every cycle begun while running counts, also one that enters a handler, halts or traps. -/
theorem cycles_step (m : Machine μ) :
    m.step.2.cycles = m.cycles + if m.status = .running then 1 else 0 := by
  rcases m.step_cases with stopped | ⟨line, enters⟩ | ⟨i, executes⟩ | ⟨trap, traps⟩
  · rw [step_of_stopped stopped, if_neg stopped]
    rfl
  · rw [step_of_enters enters, enterHandler_frame, if_pos enters.running]
    rfl
  · rw [frame_of_executes executes, if_pos executes.running]
    rfl
  · rw [step_of_traps traps, if_pos traps.running]
    rfl

end EightBit.Machine
