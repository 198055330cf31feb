import EightBit.HostSession
import EightBit.Proofs.AttemptedWrites
import EightBit.Proofs.EncodedPrefix
import EightBit.Proofs.OperandErrors

/-!
# When and how a machine traps

A running machine that accepts no interrupt traps exactly where no instruction stands. The trap
names the opcode, or the first operand from the left that should be a register and is none, and it
leaves everything that instructions work on as it was.
-/
namespace EightBit.Machine

variable {μ : Type} [Memory μ]

/-- The bytes after the opcode. -/
def nextOperands (m : Machine μ) : List UInt8 := [m.peek (m.pc + 1), m.peek (m.pc + 2)]

theorem nextBytes_eq (m : Machine μ) : m.nextBytes = m.peek m.pc :: m.nextOperands := by
  have first : m.pc + UInt8.ofNat 0 = m.pc := UInt8.add_zero m.pc
  change [m.peek (m.pc + UInt8.ofNat 0), m.peek (m.pc + 1), m.peek (m.pc + 2)] = _
  rw [first]
  rfl

theorem length_operandKinds_le (m : Machine μ) (i : Instruction) :
    i.group.operandKinds.length ≤ m.nextOperands.length := by
  cases i <;> simp [Instruction.group, Instruction.Group.operandKinds, nextOperands]

/-- The operands that an instruction of this kind would take for registers. -/
def nextRegisters (m : Machine μ) (i : Instruction) : List UInt8 :=
  Instruction.registerOperands i.group.operandKinds m.nextOperands

def trapFor (m : Machine μ) : Undecodable → Trap
  | .invalidRegister operand => .invalidRegister m.pc operand
  | _ => .invalidOpcode m.pc (m.peek m.pc)

theorem nextInstruction_eq_error_iff {m : Machine μ} {trap : Trap} :
    m.nextInstruction = .error trap ↔
      ∃ e, Instruction.decode m.nextBytes = .error e ∧ m.trapFor e = trap := by
  unfold nextInstruction
  cases Instruction.decode m.nextBytes with
  | ok i => simp
  | error e => cases e <;> simp [trapFor]

theorem nextInstruction_eq_error_iff_of_unknown {m : Machine μ}
    (unknown : m.peek m.pc ∉ Instruction.opcodes) {trap : Trap} :
    m.nextInstruction = .error trap ↔ trap = .invalidOpcode m.pc (m.peek m.pc) := by
  have refused : Instruction.decode m.nextBytes = .error (.invalidOpcode (m.peek m.pc)) := by
    rw [nextBytes_eq]
    exact Instruction.decodeIn_of_not_mem_opcodes _ unknown _
  rw [nextInstruction_eq_error_iff, refused]
  simp [trapFor, eq_comm]

/-- A known opcode is refused only for a register operand, as no operand can be missing. -/
theorem nextInstruction_eq_error_iff_of_known {m : Machine μ} {i : Instruction}
    (known : i.opcode = m.peek m.pc) {trap : Trap} :
    m.nextInstruction = .error trap ↔
      ∃ operand, (m.nextRegisters i).find? (8 ≤ ·) = some operand ∧
        trap = .invalidRegister m.pc operand := by
  have refused : ∀ e, Instruction.decode m.nextBytes = .error e ↔
      ∃ operand, (m.nextRegisters i).find? (8 ≤ ·) = some operand ∧
        .invalidRegister operand = e := by
    intro e
    have order : i.group ∈ [.immediate, .binary, .unary, .nullary] := by
      cases i <;> simp [Instruction.group]
    rw [nextBytes_eq, ← known, Instruction.decode, Instruction.decodeIn_eq_error_iff order,
      Instruction.operandError?_of_length_le (m.length_operandKinds_le i), nextRegisters,
      Option.map_eq_some_iff]
  rw [nextInstruction_eq_error_iff]
  constructor
  · rintro ⟨e, decoded, rfl⟩
    obtain ⟨operand, found, rfl⟩ := (refused e).1 decoded
    exact ⟨operand, found, rfl⟩
  · rintro ⟨operand, found, rfl⟩
    exact ⟨.invalidRegister operand, (refused _).2 ⟨operand, found, rfl⟩, rfl⟩

theorem traps_of_step {m : Machine μ} {trap : Trap} (running : m.status = .running)
    (h : m.step.1 = .trapped trap) : m.Traps trap := by
  rcases m.step_cases with stopped | ⟨line, enters⟩ | ⟨i, executes⟩ | ⟨other, traps⟩
  · exact absurd running stopped
  · rw [step_of_enters enters] at h
    cases h
  · rw [outcome_of_executes executes] at h
    split at h <;> cases h
  · rw [step_of_traps traps] at h
    cases h
    exact traps

/-- A machine tells the trap that its last cycle ended in, and no other one. -/
theorem trap?_step_iff {m : Machine μ} {trap : Trap} :
    m.step.2.status.trap? = some trap ↔ m.step.1 = .trapped trap := by
  rw [Status.trap?_eq_some_iff]
  rcases m.step_cases with stopped | ⟨line, enters⟩ | ⟨i, executes⟩ | ⟨trap', traps⟩
  · rw [step_of_stopped stopped]
  · have running : (m.counted.enterHandler line).status = .running := by
      rw [enterHandler_frame]
      exact enters.running
    rw [step_of_enters enters, running]
    simp [Status.outcome]
  · obtain ⟨after, executed⟩ := m.fetched.execute_isOk i
    rw [step_of_executes executes executed]
  · rw [step_of_traps traps]
    rfl

theorem exists_traps_iff {m : Machine μ} (running : m.status = .running) :
    (∃ trap, m.Traps trap) ↔
      m.acceptable? = none ∧ ∀ i : Instruction, ¬ i.encode <+: m.nextBytes := by
  have decoded : ∀ i, m.nextInstruction = .ok i ↔ i.encode <+: m.nextBytes := fun i =>
    nextInstruction_eq_ok_iff.trans Instruction.decode_eq_ok_iff
  constructor
  · rintro ⟨trap, traps⟩
    refine ⟨traps.undisturbed, ?_⟩
    intro i start
    have undecodable := traps.undecodable
    rw [(decoded i).2 start] at undecodable
    cases undecodable
  · rintro ⟨undisturbed, idle⟩
    cases next : m.nextInstruction with
    | ok i => exact absurd ((decoded i).1 next) (idle i)
    | error trap => exact ⟨trap, running, undisturbed, next⟩

theorem attemptedWrites_of_traps {m : Machine μ} {trap : Trap} (h : m.Traps trap) :
    m.attemptedWrites = [] := by
  have trapped : m.journaled.step.1 = .trapped trap := by
    have same := congrArg Prod.fst m.step_journaled
    rw [step_of_traps h] at same
    exact same.symm
  have traps : m.journaled.Traps trap := traps_of_step h.running trapped
  rw [attemptedWrites, step_of_traps traps]
  rfl

/-- A running machine traps exactly when it accepts no interrupt and no instruction stands at its
program counter. The trap tells what is wrong there, and apart from the fetched opcode, the count of
cycles and the status everything is as before. -/
theorem trap_exact_and_atomic (m : Machine μ) (running : m.status = .running) :
    ((∃ trap, m.step.1 = .trapped trap) ↔
      (m.interruptsEnabled = false ∨ m.reg .requests &&& m.reg .mask = 0) ∧
        ∀ i : Instruction,
          ¬ i.encode <+: [m.peek m.pc, m.peek (m.pc + 1), m.peek (m.pc + 2)]) ∧
    ∀ trap, m.step.1 = .trapped trap →
      (m.peek m.pc ∉ Instruction.opcodes → trap = .invalidOpcode m.pc (m.peek m.pc)) ∧
      (∀ i : Instruction, i.opcode = m.peek m.pc →
        ∃ operand, (m.nextRegisters i).find? (8 ≤ ·) = some operand ∧
          trap = .invalidRegister m.pc operand) ∧
      (∀ op, trap ≠ .unsupportedArithmetic op) ∧
      m.step.2 =
        { m with ir := m.peek m.pc, cycles := m.cycles + 1, status := .trapped trap } ∧
      m.attemptedWrites = [] := by
  constructor
  · have bytes : [m.peek m.pc, m.peek (m.pc + 1), m.peek (m.pc + 2)] = m.nextBytes :=
      m.nextBytes_eq.symm
    rw [bytes, ← acceptable?_eq_none_iff, ← exists_traps_iff running]
    constructor
    · rintro ⟨trap, trapped⟩
      exact ⟨trap, traps_of_step running trapped⟩
    · rintro ⟨trap, traps⟩
      exact ⟨trap, congrArg Prod.fst (step_of_traps traps)⟩
  · intro trap trapped
    have traps := traps_of_step running trapped
    refine ⟨?_, ?_, ?_, ?_, attemptedWrites_of_traps traps⟩
    · intro unknown
      exact (nextInstruction_eq_error_iff_of_unknown unknown).1 traps.undecodable
    · intro i known
      exact (nextInstruction_eq_error_iff_of_known known).1 traps.undecodable
    · rintro op rfl
      rcases trap_of_undecodable traps.undecodable with named | ⟨operand, named⟩
      · cases named
      · cases named
    · rw [step_of_traps traps]
      rfl

/-- An addition at the last address of a memory that ignores all writes. Its operands wrap past
address 0, and the second one is no register. -/
def unaddable : Machine (WiredMemory PlainMemory) :=
  let cells := Memory.writeAll PlainMemory.zero (Memory.placed 0xff [0x0c, 0x01, 0x09])
  { initial ⟨cells, 0xff, 0⟩ with pc := 0xff }

theorem trap_exact_at_last_address :
    unaddable.step.1 = .trapped (.invalidRegister 0xff 0x09) ∧
      (∀ i : Instruction, ¬ i.encode <+: [0x0c, 0x01, 0x09]) ∧
      unaddable.step.2.registers = unaddable.registers ∧ unaddable.attemptedWrites = [] := by
  obtain ⟨traps, told⟩ := unaddable.trap_exact_and_atomic rfl
  have trapped : unaddable.step.1 = .trapped (.invalidRegister 0xff 0x09) := by decide
  obtain ⟨-, -, -, state, writes⟩ := told _ trapped
  refine ⟨trapped, (traps.1 ⟨_, trapped⟩).2, ?_, writes⟩
  rw [state]

end EightBit.Machine
