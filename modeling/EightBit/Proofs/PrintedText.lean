import EightBit.Proofs.InstructionSteps
import EightBit.Proofs.PolledRun
import EightBit.Proofs.Utf8RoundTrip

/-!
# Printed text

A step prints nothing, or a number or a character on a line of its own. What a run prints is
therefore the encoding of a text, and it comes after what the console already holds.
-/
namespace EightBit

theorem Console.write_nil (c : Console) : c.write [] = c := rfl

theorem Console.write_encode_write (c : Console) (first second : List Char) :
    (c.write (Utf8.encode first)).write (Utf8.encode second) =
      c.write (Utf8.encode (first ++ second)) := by
  rw [write_write, Utf8.encode_append]

namespace Machine

variable {μ : Type}

/-- What an instruction prints: the value of a register in decimal, or the character with that
code point, and a newline. -/
def textOf (m : Machine μ) : Instruction → List Char
  | .unary .prn a => Nat.toDigits 10 (m.reg a).toNat ++ ['\n']
  | .unary .pra a => [Char.ofNat (m.reg a).toNat, '\n']
  | _ => []

variable [Memory μ]

/-- The text that the next step prints. -/
def nextText (m : Machine μ) : List Char := (m.upcoming?.map m.textOf).getD []

theorem nextText_of_executes {m : Machine μ} {i : Instruction} (h : m.Executes i) :
    m.nextText = m.textOf i := by
  rw [nextText, upcoming?_eq_some_iff.2 h]
  rfl

theorem nextText_of_not_executes {m : Machine μ} (idle : ∀ i, ¬ m.Executes i) :
    m.nextText = [] := by
  cases next : m.upcoming? with
  | none => rw [nextText, next]; rfl
  | some i => exact absurd (upcoming?_eq_some_iff.1 next) (idle i)

theorem console_of_executes {m : Machine μ} {i : Instruction} (h : m.Executes i) :
    m.step.2.console = m.console.write (Utf8.encode (m.textOf i)) := by
  cases i with
  | nullary op =>
    cases op with
    | ret => rw [step_of_executes h rfl]; rfl
    | iret =>
      rw [step_of_iret h, leaveHandler_frame]
      rfl
    | hlt => rw [step_of_executes h rfl]; rfl
  | unary op a => cases op <;> rw [step_of_executes h rfl] <;> rfl
  | binary op a b => cases op <;> rw [step_of_executes h rfl] <;> rfl
  | immediate op a value => cases op; rw [step_of_executes h rfl]; rfl

/-- Handlers are entered and machines trap silently. -/
theorem console_step (m : Machine μ) :
    m.step.2.console = m.console.write (Utf8.encode m.nextText) := by
  rcases m.step_cases with stopped | ⟨line, enters⟩ | ⟨i, executes⟩ | ⟨trap, traps⟩
  · rw [step_of_stopped stopped, nextText_of_not_executes fun i h => stopped h.running]
    exact (Console.write_nil _).symm
  · rw [step_of_enters enters, enterHandler_frame,
      nextText_of_not_executes fun i => enters.not_executes]
    exact (Console.write_nil _).symm
  · rw [console_of_executes executes, nextText_of_executes executes]
  · rw [step_of_traps traps, nextText_of_not_executes fun i => traps.not_executes]
    exact (Console.write_nil _).symm

/-- A run prints a text, whatever its polls answer. -/
theorem exists_text_runAlong (m : Machine μ) (dues : List Bool) :
    ∃ text, (m.runAlong dues).2.console = m.console.write (Utf8.encode text) := by
  induction dues generalizing m with
  | nil => exact ⟨[], (Console.write_nil _).symm⟩
  | cons due later ih =>
    have first : (m.polled due).step.2.console =
        m.console.write (Utf8.encode (m.polled due).nextText) := by
      rw [console_step, polled_frame]
    cases told : (m.polled due).step.1.runEnd? with
    | some e => exact ⟨_, by rw [runAlong_cons_of_some told, first]⟩
    | none =>
      obtain ⟨text, rest⟩ := ih (m.polled due).step.2
      exact ⟨_, by rw [runAlong_cons_of_none told, rest, first, Console.write_encode_write]⟩

end Machine
end EightBit
