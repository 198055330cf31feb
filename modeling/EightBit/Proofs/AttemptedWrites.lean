import EightBit.MemoryBus
import EightBit.Proofs.InstructionSteps

/-!
# Attempted writes

A machine takes the same steps whichever of two memories it runs on, as long as one shows the
other: reads and writes agree. A journal shows the memory behind it, so it tells which writes a
step attempts, also those that the memory ignores.
-/
namespace EightBit

/-- How one memory shows another. -/
structure MemoryView (μ ν : Type) [Memory μ] [Memory ν] where
  image : μ → ν
  read_image : ∀ memory a, Memory.read (image memory) a = Memory.read memory a
  write_image : ∀ memory a v, Memory.write (image memory) a v = image (Memory.write memory a v)

def Journal.view (μ : Type) [Memory μ] : MemoryView (Journal μ) μ :=
  ⟨Journal.cells, fun _ _ => rfl, fun _ _ _ => rfl⟩

namespace Machine

variable {μ ν : Type} [Memory μ] [Memory ν] (v : MemoryView μ ν)

/-- The machine over the memory that is shown. -/
def through (m : Machine μ) : Machine ν := { m with memory := v.image m.memory }

theorem peek_through (m : Machine μ) (a : UInt8) : (m.through v).peek a = m.peek a :=
  v.read_image m.memory a

theorem poke_through (m : Machine μ) (a b : UInt8) :
    (m.through v).poke a b = (m.poke a b).through v := by
  simp only [poke, through, v.write_image]

theorem push_through (m : Machine μ) (b : UInt8) : (m.through v).push b = (m.push b).through v :=
  poke_through v m.growStack _ b

theorem saveReg_through (m : Machine μ) (r : Register) :
    (m.through v).saveReg r = (m.saveReg r).through v :=
  poke_through v m.growStack _ _

theorem pop_through (m : Machine μ) :
    (m.through v).pop = (m.pop.1, m.pop.2.through v) :=
  congrArg (·, _) (peek_through v m _)

theorem restoreReg_through (m : Machine μ) (r : Register) :
    (m.through v).restoreReg r = (m.restoreReg r).through v := by
  simp only [restoreReg, pop_through]
  rfl

theorem enterHandler_through (m : Machine μ) (line : Line) :
    (m.through v).enterHandler line = (m.enterHandler line).through v := by
  have pushed : ((m.through v).acknowledged line).pushAll ((m.through v).entryFrame line).reverse =
      ((m.acknowledged line).pushAll (m.entryFrame line).reverse).through v :=
    @List.foldl_hom _ _ _ (through v) _ _ _ (m.acknowledged line) (push_through v)
  rw [enterHandler_eq, enterHandler_eq, pushed, peek_through]
  rfl

theorem resumed_through (m : Machine μ) : (m.through v).resumed = m.resumed.through v := by
  rw [resumed, pop_through]
  rfl

theorem leaveHandler_through (m : Machine μ) :
    (m.through v).leaveHandler = m.leaveHandler.through v := by
  have reloaded : (m.through v).reloaded = m.reloaded.through v := by
    rw [reloaded, pop_through]
    exact @List.foldl_hom _ _ _ (through v) _ _ _ m.pop.2 (restoreReg_through v)
  rw [leaveHandler_eq, leaveHandler_eq, reloaded, resumed_through]

theorem nextInstruction_through (m : Machine μ) :
    (m.through v).nextInstruction = m.nextInstruction := by
  have bytes : (m.through v).nextBytes = m.nextBytes :=
    List.map_congr_left fun i _ => peek_through v m (m.pc + UInt8.ofNat i)
  have opcode : (m.through v).peek (m.through v).pc = m.peek m.pc := peek_through v m m.pc
  simp only [nextInstruction, bytes, opcode]
  rfl

theorem execute_through (m : Machine μ) (i : Instruction) :
    (m.through v).execute i = (m.execute i).map (through v) := by
  cases i with
  | nullary op =>
    cases op with
    | ret =>
      simp only [execute, executeNullary, pop_through]
      rfl
    | iret =>
      simp only [execute, executeNullary, leaveHandler_through]
      rfl
    | hlt => rfl
  | unary op a =>
    cases op with
    | prn => rfl
    | pra => rfl
    | push =>
      simp only [execute, executeUnary, saveReg_through]
      rfl
    | pop =>
      simp only [execute, executeUnary, restoreReg_through]
      rfl
    | call =>
      simp only [execute, executeUnary, push_through]
      rfl
    | jmp => rfl
  | binary op a b =>
    cases op with
    | mul => rfl
    | st =>
      simp only [execute, executeBinary, poke_through]
      rfl
    | add => rfl
  | immediate op a value => cases op; rfl

theorem Enters.through {m : Machine μ} {line : Line} (h : m.Enters line) :
    (m.through v).Enters line := ⟨h.running, h.accepted⟩

theorem Executes.through {m : Machine μ} {i : Instruction} (h : m.Executes i) :
    (m.through v).Executes i :=
  ⟨h.running, h.undisturbed, (nextInstruction_through v m).trans h.decoded⟩

theorem Traps.through {m : Machine μ} {trap : Trap} (h : m.Traps trap) :
    (m.through v).Traps trap :=
  ⟨h.running, h.undisturbed, (nextInstruction_through v m).trans h.undecodable⟩

theorem fetched_through (m : Machine μ) : (m.through v).fetched = m.fetched.through v := by
  have opcode : (m.through v).peek (m.through v).pc = m.peek m.pc := peek_through v m m.pc
  rw [fetched, opcode]
  rfl

/-- Which of the two memories a machine runs on makes no difference to its steps. -/
theorem step_through (m : Machine μ) :
    (m.through v).step = (m.step.1, m.step.2.through v) := by
  rcases m.step_cases with stopped | ⟨line, enters⟩ | ⟨i, executes⟩ | ⟨trap, traps⟩
  · have same : (m.through v).status ≠ .running := stopped
    rw [step_of_stopped stopped, step_of_stopped same]
    rfl
  · have entered := enterHandler_through v m.counted line
    rw [step_of_enters enters, step_of_enters (enters.through v)]
    exact congrArg (Prod.mk (Outcome.entered line)) entered
  · obtain ⟨after, executed⟩ := m.fetched.execute_isOk i
    have shown : (m.through v).fetched.execute i = .ok (after.through v) := by
      rw [fetched_through, execute_through, executed]
      rfl
    rw [step_of_executes executes executed, step_of_executes (executes.through v) shown]
    rfl
  · rw [step_of_traps traps, step_of_traps (traps.through v), fetched_through]
    rfl

/-- The machine over a journal that has nothing in it yet. -/
def journaled (m : Machine μ) : Machine (Journal μ) := { m with memory := Journal.start m.memory }

/-- The writes that the next step attempts, in their order. -/
def attemptedWrites (m : Machine μ) : List (UInt8 × UInt8) := m.journaled.step.2.memory.writes

theorem step_journaled (m : Machine μ) :
    m.step = (m.journaled.step.1, m.journaled.step.2.through (Journal.view μ)) :=
  step_through (Journal.view μ) m.journaled

theorem Executes.journaled {m : Machine μ} {i : Instruction} (h : m.Executes i) :
    m.journaled.Executes i :=
  ⟨h.running, h.undisturbed, (nextInstruction_through (Journal.view μ) m.journaled).symm.trans h.decoded⟩

/-- The writes that bring about the memory of a journal are those that have been noted. -/
theorem attemptedWrites_eq {m : Machine μ} {writes : List (UInt8 × UInt8)}
    (h : m.journaled.step.2.memory = Memory.writeAll m.journaled.memory writes) :
    m.attemptedWrites = writes := by
  rw [attemptedWrites, h, Journal.writeAll_writes]
  rfl

end Machine
end EightBit
