import EightBit.Proofs.InstructionSteps

/-!
# The stack as a list

A step pushes values, drops some or leaves the stack alone. Over the plain memory the live cells
are a list on which it does the same, as long as they fit, the stack pointer is not overwritten and
nothing is stored into a live cell.
-/
namespace EightBit

inductive StackMove
  | keep
  /-- The last value is the first one pushed. -/
  | push (values : List UInt8)
  | drop (count : Nat)
  deriving DecidableEq, Repr

namespace StackMove

def apply (cells : List UInt8) : StackMove → List UInt8
  | keep => cells
  | push values => values ++ cells
  | drop count => cells.drop count

/-- Whether a stack of this depth has the room or the cells. -/
def Fits (depth : Nat) : StackMove → Prop
  | keep => True
  | push values => depth + values.length ≤ 256
  | drop count => count ≤ depth

instance (depth : Nat) : (move : StackMove) → Decidable (move.Fits depth)
  | keep => .isTrue trivial
  | push values => inferInstanceAs (Decidable (depth + values.length ≤ 256))
  | drop count => inferInstanceAs (Decidable (count ≤ depth))

theorem length_apply_le {move : StackMove} {cells : List UInt8} (size : cells.length ≤ 256)
    (fits : move.Fits cells.length) : (move.apply cells).length ≤ 256 := by
  cases move with
  | keep => exact size
  | push values =>
    simp only [Fits] at fits
    simp only [apply, List.length_append]
    omega
  | drop count =>
    simp only [apply, List.length_drop]
    omega

end StackMove

namespace Machine

section

variable {μ : Type} [Memory μ]

/-- Popping into the stack pointer overwrites it. -/
def stackMoveOf (m : Machine μ) : Instruction → StackMove
  | .nullary .ret => .drop 1
  | .nullary .iret => .drop 9
  | .unary .push a => .push [if a = .stackPointer then m.reg .stackPointer - 1 else m.reg a]
  | .unary .pop a => if a = .stackPointer then .keep else .drop 1
  | .unary .call _ => .push [m.pc + 2]
  | _ => .keep

/-- What the next step does to the stack. -/
def stackMove (m : Machine μ) : StackMove :=
  if m.status = .running then
    match m.acceptable?, m.nextInstruction with
    | some line, _ => .push (m.entryFrame line)
    | none, .ok i => m.stackMoveOf i
    | none, .error _ => .keep
  else .keep

/-- The address that the next step stores a register to. -/
def storedAt? (m : Machine μ) : Option UInt8 :=
  match m.upcoming? with
  | some (.binary .st a _) => some (m.reg a)
  | _ => none

/-- The next step keeps a stack of this depth intact. -/
structure StackSafe (m : Machine μ) (depth : Nat) : Prop where
  pointer : m.Overwrites .stackPointer → m.step.2.reg .stackPointer = m.reg .stackPointer
  fits : m.stackMove.Fits depth
  spared : ∀ i < depth, m.storedAt? ≠ some (m.reg .stackPointer + UInt8.ofNat i)

instance (m : Machine μ) (depth : Nat) : Decidable (m.StackSafe depth) :=
  decidable_of_iff
    ((m.Overwrites .stackPointer → m.step.2.reg .stackPointer = m.reg .stackPointer) ∧
      m.stackMove.Fits depth ∧
      ∀ i < depth, m.storedAt? ≠ some (m.reg .stackPointer + UInt8.ofNat i))
    ⟨fun ⟨pointer, fits, spared⟩ => ⟨pointer, fits, spared⟩, fun h => ⟨h.pointer, h.fits, h.spared⟩⟩

theorem stackMove_of_stopped {m : Machine μ} (stopped : m.status ≠ .running) :
    m.stackMove = .keep := by
  rw [stackMove, if_neg stopped]

theorem stackMove_of_enters {m : Machine μ} {line : Line} (h : m.Enters line) :
    m.stackMove = .push (m.entryFrame line) := by
  rw [stackMove, if_pos h.running, h.accepted]

theorem stackMove_of_executes {m : Machine μ} {i : Instruction} (h : m.Executes i) :
    m.stackMove = m.stackMoveOf i := by
  rw [stackMove, if_pos h.running, h.undisturbed, h.decoded]

theorem stackMove_of_traps {m : Machine μ} {trap : Trap} (h : m.Traps trap) :
    m.stackMove = .keep := by
  rw [stackMove, if_pos h.running, h.undisturbed, h.undecodable]

theorem storedAt?_of_st {m : Machine μ} {a b : Register} (h : m.Executes (.binary .st a b)) :
    m.storedAt? = some (m.reg a) := by
  rw [storedAt?, upcoming?_eq_some_iff.2 h]

/-- The stack of the other machine is that of this one after the move. -/
def Moves (m other : Machine μ) (depth : Nat) (move : StackMove) : Prop :=
  other.stackCells (move.apply (m.stackCells depth)).length = move.apply (m.stackCells depth)

theorem moves_keep {m other : Machine μ} (memory : other.memory = m.memory)
    (pointer : other.reg .stackPointer = m.reg .stackPointer) (depth : Nat) :
    m.Moves other depth .keep := by
  simp only [Moves, StackMove.apply, length_stackCells]
  exact stackCells_congr memory pointer depth

theorem moves_drop {m other : Machine μ} {count depth : Nat} (memory : other.memory = m.memory)
    (pointer : other.reg .stackPointer = m.reg .stackPointer + UInt8.ofNat count)
    (fits : count ≤ depth) : m.Moves other depth (.drop count) := by
  have split := stackCells_add memory pointer (depth - count)
  rw [Nat.add_sub_cancel' fits] at split
  simp only [Moves, StackMove.apply, length_stackCells, split,
    List.drop_left' (m.length_stackCells count)]

theorem moves_push {m other : Machine μ} {values : List UInt8} {depth : Nat}
    (h : other.stackCells (depth + values.length) = values ++ m.stackCells depth) :
    m.Moves other depth (.push values) := by
  simp only [Moves, StackMove.apply, List.length_append, length_stackCells]
  rw [Nat.add_comm, h]

end

/-- Writing a result leaves the stack alone if it does not move the pointer. -/
theorem moves_of_result {m : Machine PlainMemory} {i : Instruction} {a : Register} {v : UInt8}
    {g : Instruction.Group} {depth : Nat} (h : m.Executes i) (named : i.destination? = some a)
    (safe : m.StackSafe depth) (stepped : m.step.2 = (m.fetched.setReg a v).skip g) :
    m.Moves m.step.2 depth .keep := by
  have memory : m.step.2.memory = m.memory := by
    rw [stepped]
    rfl
  have pointer : m.step.2.reg .stackPointer = m.reg .stackPointer := by
    by_cases same : a = .stackPointer
    · subst same
      exact safe.pointer ⟨i, h, named⟩
    · rw [stepped]
      exact (reg_setReg _ _ _ _).trans (if_neg same)
  exact moves_keep memory pointer depth

theorem moves_of_executes {m : Machine PlainMemory} {i : Instruction} {depth : Nat}
    (h : m.Executes i) (safe : m.StackSafe depth) : m.Moves m.step.2 depth (m.stackMoveOf i) := by
  have fits := safe.fits
  rw [stackMove_of_executes h] at fits
  cases i with
  | nullary op =>
    cases op with
    | ret =>
      rw [step_of_executes h rfl]
      exact moves_drop rfl (reg_setReg _ _ _ _) fits
    | iret =>
      rw [step_of_iret h]
      exact moves_drop m.fetched.memory_leaveHandler m.fetched.pointer_leaveHandler fits
    | hlt =>
      rw [step_of_executes h rfl]
      exact moves_keep rfl rfl depth
  | unary op a =>
    cases op with
    | prn =>
      rw [step_of_executes h rfl]
      exact moves_keep rfl rfl depth
    | pra =>
      rw [step_of_executes h rfl]
      exact moves_keep rfl rfl depth
    | push =>
      have saved :
          m.step.2.stackCells (depth + 1) = (m.fetched.saveReg a).stackCells (depth + 1) := by
        rw [step_of_executes h rfl]
        rfl
      apply moves_push
      rw [List.length_singleton, saved]
      -- The pointer has already moved when its own value is pushed.
      by_cases same : a = .stackPointer
      · rw [if_pos same, same, saveReg_stackPointer]
        exact m.fetched.stackCells_push _ fits
      · rw [if_neg same, saveReg_eq_push _ same]
        exact m.fetched.stackCells_push _ fits
    | pop =>
      have memory : m.step.2.memory = m.memory := by
        rw [step_of_executes h rfl]
        rfl
      simp only [stackMoveOf] at fits ⊢
      -- A pop into the pointer is safe only when it leaves the pointer where it was.
      by_cases same : a = .stackPointer
      · rw [if_pos same]
        exact moves_keep memory (safe.pointer ⟨_, h, congrArg some same⟩) depth
      · rw [if_neg same] at fits ⊢
        have pointer : m.step.2.reg .stackPointer = m.reg .stackPointer + 1 := by
          rw [step_of_executes h rfl]
          exact (reg_restoreReg m.fetched same _).trans (if_pos rfl)
        exact moves_drop memory pointer fits
    | call =>
      rw [step_of_executes h rfl]
      exact moves_push (m.fetched.stackCells_push _ fits)
    | jmp =>
      rw [step_of_executes h rfl]
      exact moves_keep rfl rfl depth
  | binary op a b =>
    cases op with
    | mul => exact moves_of_result h rfl safe (congrArg Prod.snd (step_of_executes h rfl))
    | st =>
      have spared : ∀ i < depth, m.reg a ≠ m.reg .stackPointer + UInt8.ofNat i := by
        intro i hi live
        exact safe.spared i hi ((storedAt?_of_st h).trans (congrArg some live))
      rw [step_of_executes h rfl]
      simp only [stackMoveOf, Moves, StackMove.apply, length_stackCells]
      exact PlainMemory.readFrom_write m.memory spared (m.reg b)
    | add => exact moves_of_result h rfl safe (congrArg Prod.snd (step_of_executes h rfl))
  | immediate op a value =>
    cases op with
    | ldi => exact moves_of_result h rfl safe (congrArg Prod.snd (step_of_executes h rfl))

theorem moves_step {m : Machine PlainMemory} {depth : Nat} (safe : m.StackSafe depth) :
    m.Moves m.step.2 depth m.stackMove := by
  rcases m.step_cases with stopped | ⟨line, enters⟩ | ⟨i, executes⟩ | ⟨trap, traps⟩
  · rw [stackMove_of_stopped stopped, step_of_stopped stopped]
    exact moves_keep rfl rfl depth
  · have fits := safe.fits
    rw [stackMove_of_enters enters] at fits
    rw [stackMove_of_enters enters, step_of_enters enters]
    exact moves_push (m.counted.stackCells_enterHandler line fits)
  · rw [stackMove_of_executes executes]
    exact moves_of_executes executes safe
  · rw [stackMove_of_traps traps, step_of_traps traps]
    exact moves_keep rfl rfl depth

/-- An entry in the next step pushes the program counter and the registers, the stack pointer as it
is below the frame and the requests without the one that is accepted. -/
def SavesInterrupted {μ : Type} [Memory μ] (m : Machine μ) : Prop :=
  ∀ line, m.step.1 = .entered line →
    ∃ requests,
      m.stackMove = .push [m.reg .r7 - 9, requests, m.reg .r5, m.reg .r4, m.reg .r3, m.reg .r2,
        m.reg .r1, m.reg .r0, m.pc] ∧
      ∀ other, LineSet.contains requests other =
        (LineSet.contains (m.reg .r6) other && decide (other ≠ line))

theorem savesInterrupted {μ : Type} [Memory μ] (m : Machine μ) : m.SavesInterrupted := by
  intro line entered
  exact ⟨LineSet.erase (m.reg .r6) line, stackMove_of_enters (enters_of_step entered),
    LineSet.contains_erase (m.reg .r6) line⟩

/-- What the next step loads from the stack are the first cells of this list. -/
structure Retrieves {μ : Type} [Memory μ] (m : Machine μ) (cells : List UInt8) : Prop where
  pop : ∀ a, m.Executes (.unary .pop a) → a ≠ .stackPointer →
    cells.head? = some (m.step.2.reg a)
  ret : m.Executes (.nullary .ret) → cells.head? = some m.step.2.pc
  iret : m.Executes (.nullary .iret) →
    (cells.drop 1).take 8 =
      [.r6, .r5, .r4, .r3, .r2, .r1, .r0].map m.step.2.reg ++ [m.step.2.pc]

theorem head?_stackCells {μ : Type} [Memory μ] (m : Machine μ) {depth : Nat} (h : 1 ≤ depth) :
    (m.stackCells depth).head? = some (m.peek (m.reg .stackPointer)) := by
  obtain ⟨rest, rfl⟩ := Nat.exists_eq_add_of_le' h
  rw [stackCells_succ, List.head?_cons]

theorem retrieves_of_safe {μ : Type} [Memory μ] {m : Machine μ} {depth : Nat}
    (safe : m.StackSafe depth) : m.Retrieves (m.stackCells depth) where
  pop := by
    intro a executes other
    have fits := safe.fits
    rw [stackMove_of_executes executes, stackMoveOf, if_neg other] at fits
    rw [head?_stackCells m fits, step_of_executes executes rfl]
    exact congrArg some ((reg_setReg _ _ _ _).trans (if_pos rfl)).symm
  ret := by
    intro executes
    have fits := safe.fits
    rw [stackMove_of_executes executes] at fits
    rw [head?_stackCells m fits, step_of_executes executes rfl]
    rfl
  iret := by
    intro executes
    have fits := safe.fits
    rw [stackMove_of_executes executes] at fits
    have split : m.stackCells (9 + (depth - 9)) =
        m.stackCells 9 ++ m.fetched.leaveHandler.stackCells (depth - 9) :=
      stackCells_add m.fetched.memory_leaveHandler m.fetched.pointer_leaveHandler (depth - 9)
    rw [Nat.add_sub_cancel' fits] at split
    have frame : m.stackCells 9 = m.peek (m.reg .stackPointer) ::
        (restored.map m.fetched.leaveHandler.reg ++ [m.fetched.leaveHandler.pc]) :=
      m.fetched.stackCells_leaveHandler
    rw [split, frame, step_of_iret executes, List.cons_append, List.drop_one, List.tail_cons]
    exact List.take_left' rfl

end Machine
end EightBit
