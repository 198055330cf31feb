import EightBit.HostSession
import EightBit.Proofs.InstructionSteps

/-!
# Returning from an interrupt

A return undoes an entry whatever happened in between, as long as the stack pointer is back on the
frame and the frame still holds what the entry wrote. Only the request that was accepted stays
dropped.
-/
namespace EightBit.Session

open Machine

/-- The frame named by its addresses, from the byte below the interrupted pointer downwards. -/
theorem stackCells_of_frame_bytes {m other : Machine PlainMemory} {top : UInt8}
    (pointer : m.reg .r7 = top - 9) (same : other.reg .r7 = top - 9)
    (bytes : ∀ k < 9, m.peek (top - 1 - UInt8.ofNat k) = other.peek (top - 1 - UInt8.ofNat k)) :
    m.stackCells 9 = other.stackCells 9 := by
  apply List.ext_getElem?
  intro i
  by_cases inside : i < 9
  · have place : top - 9 + UInt8.ofNat i = top - 1 - UInt8.ofNat (8 - i) := by
      have whole : UInt8.ofNat i + UInt8.ofNat (8 - i) = 8 := by
        rw [← UInt8.ofNat_add, Nat.add_sub_cancel' (by omega)]
        rfl
      grind
    rw [getElem?_stackCells _ inside, getElem?_stackCells _ inside, pointer, same, place,
      bytes (8 - i) (by omega)]
  · have outside : 9 ≤ i := by omega
    rw [List.getElem?_eq_none (by simpa [length_stackCells] using outside),
      List.getElem?_eq_none (by simpa [length_stackCells] using outside)]

variable {τ : Type} [TickSource τ]

/-- Entering a handler and leaving it are inverse around everything that may happen between. -/
theorem return_restores_interrupted {s after : Session PlainMemory τ} {line : Line}
    (entered : s.perform .step = (.outcome (.entered line), after)) (actions : List (Action τ)) :
    let later := (after.performAll actions).2
    later.machine.reg .r7 = s.machine.reg .r7 - 9 →
    (∀ k < 9, later.machine.peek (s.machine.reg .r7 - 1 - UInt8.ofNat k) =
      after.machine.peek (s.machine.reg .r7 - 1 - UInt8.ofNat k)) →
    later.machine.Executes (.nullary .iret) →
    ∃ resumed, later.perform .step = (.outcome .executed, resumed) ∧
      (∀ r, r ≠ .r6 → resumed.machine.reg r = s.machine.reg r) ∧
      (∀ other, LineSet.contains (resumed.machine.reg .r6) other =
        (LineSet.contains (s.machine.reg .r6) other && decide (other ≠ line))) ∧
      resumed.machine.pc = s.machine.pc ∧
      resumed.machine.interruptsEnabled = true ∧
      resumed.machine.memory = later.machine.memory := by
  intro later pointer frame returning
  have outcome : s.machine.step.1 = .entered line :=
    Reply.outcome.inj (congrArg Prod.fst entered)
  have enters : s.machine.Enters line := enters_of_step outcome
  have machine : after.machine = s.machine.counted.enterHandler line := by
    have stepped : s.machine.step.2 = after.machine :=
      congrArg (fun result => result.2.machine) entered
    rw [← stepped, step_of_enters enters]
  have lowered : after.machine.reg .r7 = s.machine.reg .r7 - 9 := by
    rw [machine]
    exact reg_enterHandler _ _ _
  have written : after.machine.stackCells 9 = s.machine.entryFrame line := by
    rw [machine]
    exact s.machine.counted.frame_enterHandler line
  have place : later.machine.fetched.reg .r7 = s.machine.reg .r7 - 9 := pointer
  have found : later.machine.fetched.stackCells 9 = s.machine.entryFrame line := by
    rw [← written]
    exact stackCells_of_frame_bytes pointer lowered frame
  obtain ⟨others, requests, pc⟩ := leaveHandler_of_frame place found
  have enabled : later.machine.fetched.leaveHandler.interruptsEnabled = true := by
    rw [leaveHandler_frame]
  have memory : later.machine.fetched.leaveHandler.memory = later.machine.memory :=
    later.machine.fetched.memory_leaveHandler
  have returned : later.perform .step =
      (.outcome .executed, later.withMachine later.machine.fetched.leaveHandler) := by
    rw [perform, step_of_iret returning]
  exact ⟨_, returned, others, requests, pc, enabled, memory⟩

/-- Lines 1 and 3 are requested and unmasked, and a frame below address 4 wraps past address 0
into the vectors of the last lines. -/
def wrapping : Session PlainMemory Silence :=
  ((start .zero).performAll
    [.load [0x04, 0x00, 0x63, 0x1a] 0x20, .poke 0xf9 0x20, .setReg .r5 0x0a, .setReg .r6 0x0a,
      .setReg .r7 0x04]).2

theorem return_restores_wrapping_frame :
    wrapping.perform .step = (.outcome (.entered 1), (wrapping.perform .step).2) ∧
    ∃ resumed : Session PlainMemory Silence,
      ((wrapping.perform .step).2.performAll
        [.step, .raise 0, .poke 0x50 0x07]).2.perform .step = (.outcome .executed, resumed) ∧
      (∀ r, r ≠ .r6 → resumed.machine.reg r = wrapping.machine.reg r) ∧
      resumed.machine.reg .r6 = 0x08 ∧ resumed.machine.pc = 0 ∧
      resumed.machine.interruptsEnabled = true ∧
      resumed.machine.memory =
        ((wrapping.perform .step).2.performAll
          [.step, .raise 0, .poke 0x50 0x07]).2.machine.memory := by
  have entered : wrapping.perform .step = (.outcome (.entered 1), (wrapping.perform .step).2) := rfl
  obtain ⟨resumed, returned, others, requests, place, enabled, memory⟩ :=
    return_restores_interrupted entered [.step, .raise 0, .poke 0x50 0x07] rfl (by decide)
      ⟨rfl, rfl, rfl⟩
  have left : resumed.machine.reg .r6 = 0x08 := by
    apply LineSet.ext_contains
    intro other
    rw [requests other]
    decide +revert
  exact ⟨entered, resumed, returned, others, left, place, enabled, memory⟩

end EightBit.Session
