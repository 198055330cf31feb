import EightBit.Proofs.InterruptReturn
import EightBit.Proofs.UnnamedRegister
import Mathlib.Data.List.Basic

/-!
# Reloading the saved stack pointer

A return could also reload the stack pointer from its frame and pop the other registers from where
it points then. That comes to the same exactly when the saved pointer is the address of its own
cell, which is what an entry writes there.
-/
namespace EightBit

namespace Machine

section

variable {μ : Type} [Memory μ]

/-- The register is written before the pointer moves, so a popped pointer moves on as well. -/
def takeReg (m : Machine μ) (r : Register) : Machine μ :=
  let loaded := m.setReg r (m.peek (m.reg .stackPointer))
  loaded.setReg .stackPointer (loaded.reg .stackPointer + 1)

/-- Leaves a handler with all registers popped, the saved stack pointer among them. -/
def leaveReloading (m : Machine μ) : Machine μ := (Register.all.reverse.foldl takeReg m).resumed

theorem takeReg_of_ne (m : Machine μ) {r : Register} (general : r ≠ .stackPointer) :
    m.takeReg r = m.restoreReg r := by
  rw [takeReg, reg_setReg_of_ne m general, setReg_comm m general]
  rfl

theorem takeReg_stackPointer (m : Machine μ) :
    m.takeReg .stackPointer = m.setReg .stackPointer (m.peek (m.reg .stackPointer) + 1) := by
  rw [takeReg, reg_setReg, if_pos rfl, setReg_setReg]

/-- Once the saved pointer has been reloaded, the other registers are popped as usual. -/
theorem leaveReloading_eq (m : Machine μ) :
    m.leaveReloading =
      (restored.foldl restoreReg
        (m.setReg .stackPointer (m.peek (m.reg .stackPointer) + 1))).resumed := by
  have order : Register.all.reverse = .stackPointer :: restored := by decide
  have unlisted : .stackPointer ∉ restored := by decide
  have others : ∀ (n : Machine μ), ∀ r ∈ restored, n.takeReg r = n.restoreReg r := by
    intro n r member
    have general : r ≠ .stackPointer := fun same => unlisted (same ▸ member)
    exact n.takeReg_of_ne general
  rw [leaveReloading, order, List.foldl_cons, takeReg_stackPointer,
    List.foldl_ext takeReg restoreReg _ others]

theorem pointer_leaveReloading (m : Machine μ) :
    m.leaveReloading.reg .stackPointer = m.peek (m.reg .stackPointer) + 9 := by
  have total : ∀ b : UInt8, b + 1 + UInt8.ofNat restored.length + 1 = b + 9 := by
    intro b
    change b + 1 + 7 + 1 = b + 9
    grind
  rw [leaveReloading_eq, reg_resumed, if_pos rfl, pointer_foldl_restoreReg _ (by decide),
    reg_setReg, if_pos rfl, total]

/-- The saved pointer decides alone whether both returns leave the pointer at the same place. -/
theorem pointer_leaveReloading_eq_iff (m : Machine μ) :
    m.leaveReloading.reg .stackPointer = m.leaveHandler.reg .stackPointer ↔
      m.peek (m.reg .stackPointer) = m.reg .stackPointer := by
  rw [pointer_leaveReloading, pointer_leaveHandler]
  exact UInt8.add_left_inj 9

theorem leaveReloading_of_saved (m : Machine μ)
    (saved : m.peek (m.reg .stackPointer) = m.reg .stackPointer) :
    m.leaveReloading = m.leaveHandler := by
  rw [leaveReloading_eq, leaveHandler_eq, saved]
  rfl

end

/-- The pointer is saved after it has moved down over the whole frame, to its own cell. -/
theorem peek_pointer_enterHandler (m : Machine PlainMemory) (line : Line) :
    (m.enterHandler line).peek (m.reg .stackPointer - 9) = m.reg .stackPointer - 9 := by
  have pointer : (m.enterHandler line).reg .stackPointer = m.reg .stackPointer - 9 :=
    reg_enterHandler m line .stackPointer
  have frame := m.frame_enterHandler line
  rw [stackCells_succ, pointer, entryFrame] at frame
  exact (List.cons.inj frame).1

end Machine

namespace Session

open Machine

theorem machine_of_entered {τ : Type} [TickSource τ] {s after : Session PlainMemory τ}
    {line : Line} (entered : s.perform .step = (.outcome (.entered line), after)) :
    after.machine = s.machine.counted.enterHandler line := by
  have outcome : s.machine.step.1 = .entered line :=
    Reply.outcome.inj (congrArg Prod.fst entered)
  have stepped : s.machine.step.2 = after.machine :=
    congrArg (fun result => result.2.machine) entered
  rw [← stepped, step_of_enters (enters_of_step outcome)]

/-- Dropping the saved pointer and reloading it end alike exactly on frames that save their own
place, and the frames of entries do. -/
theorem return_reloads_iff_pointer_saved :
    (∀ {μ : Type} [Memory μ] (m : Machine μ), m.Executes (.nullary .iret) →
      (m.step.2.reg .r7 = m.fetched.leaveReloading.reg .r7 ↔ m.peek (m.reg .r7) = m.reg .r7) ∧
      (m.peek (m.reg .r7) = m.reg .r7 → m.step = (.executed, m.fetched.leaveReloading))) ∧
    (∀ {τ : Type} [TickSource τ] {s after : Session PlainMemory τ} {line : Line},
      s.perform .step = (.outcome (.entered line), after) →
      ∀ actions : List (Action τ),
        let later := (after.performAll actions).2
        later.machine.reg .r7 = s.machine.reg .r7 - 9 →
        later.machine.peek (s.machine.reg .r7 - 9) =
          after.machine.peek (s.machine.reg .r7 - 9) →
        later.machine.Executes (.nullary .iret) →
        later.machine.step = (.executed, later.machine.fetched.leaveReloading)) := by
  have agrees : ∀ {μ : Type} [Memory μ] (m : Machine μ), m.Executes (.nullary .iret) →
      m.peek (m.reg .r7) = m.reg .r7 → m.step = (.executed, m.fetched.leaveReloading) := by
    intro μ _ m returning saved
    rw [step_of_iret returning, m.fetched.leaveReloading_of_saved saved]
  refine ⟨?_, ?_⟩
  · intro μ _ m returning
    refine ⟨?_, agrees m returning⟩
    rw [step_of_iret returning, eq_comm]
    exact m.fetched.pointer_leaveReloading_eq_iff
  · intro τ _ s after line entered actions later pointer intact returning
    have saved : after.machine.peek (s.machine.reg .r7 - 9) = s.machine.reg .r7 - 9 := by
      rw [machine_of_entered entered]
      exact s.machine.counted.peek_pointer_enterHandler line
    apply agrees later.machine returning
    rw [pointer, intact, saved]

/-- A frame that wraps past address 0 is left either way, until its lowest byte is overwritten. -/
theorem return_reloads_wrapping_pointer :
    let handled := ((wrapping.perform .step).2.performAll [.step, .raise 0, .poke 0x50 0x07]).2
    let spoiled := (handled.perform (.poke 0xfb 0x30)).2.machine
    handled.machine.step = (.executed, handled.machine.fetched.leaveReloading) ∧
      spoiled.step.2.reg .r7 ≠ spoiled.fetched.leaveReloading.reg .r7 := by
  intro handled spoiled
  constructor
  · have entered : wrapping.perform .step =
        (.outcome (.entered 1), (wrapping.perform .step).2) := rfl
    exact return_reloads_iff_pointer_saved.2 entered [.step, .raise 0, .poke 0x50 0x07] rfl
      (by decide) ⟨rfl, rfl, rfl⟩
  · intro same
    have saved : spoiled.peek (spoiled.reg .r7) = spoiled.reg .r7 :=
      (return_reloads_iff_pointer_saved.1 spoiled ⟨rfl, rfl, rfl⟩).1.1 same
    exact absurd saved (by decide)

end Session
end EightBit
