import Mathlib.Data.List.Induction
import EightBit.Proofs.EventRun
import EightBit.Proofs.InstructionSteps

/-!
# Latched requests

The requests are an ordinary register that instructions may overwrite and that a return reloads
from the stack. A request that nothing overwrites stays latched until it is accepted, unless a
return reloads the requests without it, as it does when the request came while the handler ran.
-/
namespace EightBit

theorem LineSet.contains_request {m n : UInt8} {line other : Line}
    (h : n = insert m other) (latched : contains m line) : contains n line := by
  rw [h, contains_insert, latched]
  rfl

namespace Machine

section

variable {μ : Type}

theorem contains_raise {m : Machine μ} {line : Line}
    (latched : LineSet.contains (m.reg .requests) line) (number : UInt8) :
    LineSet.contains ((m.raise number).reg .requests) line := by
  rcases m.raise_cases number with same | ⟨other, -, requested⟩
  · rw [same]
    exact latched
  · rw [requested, reg_request, if_pos rfl]
    exact LineSet.contains_request rfl latched

end

variable {μ : Type} [Memory μ]

/-- The byte that a return would reload the requests from. -/
def savedRequests (m : Machine μ) : UInt8 := m.peek (m.reg .stackPointer + 1)

theorem requests_of_enters {m : Machine μ} {line : Line} (h : m.Enters line) :
    m.step.2.reg .requests = LineSet.erase (m.reg .requests) line := by
  rw [step_of_enters h]
  exact reg_enterHandler _ _ _

theorem requests_of_iret {m : Machine μ} (h : m.Executes (.nullary .iret)) :
    m.step.2.reg .requests = m.savedRequests := by
  have loaded : restored = [.r6, .r5, .r4, .r3, .r2, .r1, .r0] := by decide
  have cell : (m.fetched.stackCells 9)[1]? = some (m.fetched.leaveHandler.reg .r6) := by
    rw [stackCells_leaveHandler, loaded]
    rfl
  have place : (m.fetched.stackCells 9)[1]? = some m.savedRequests :=
    m.fetched.getElem?_stackCells (by decide)
  rw [step_of_iret h]
  exact Option.some.inj (cell.symm.trans place)

theorem requests_of_executes {m : Machine μ} {i : Instruction} (h : m.Executes i)
    (stays : i ≠ .nullary .iret) (kept : ¬ m.Overwrites .requests) :
    m.step.2.reg .requests = m.reg .requests := by
  apply reg_of_executes h stays (by decide)
  intro named
  exact kept ⟨i, h, named⟩

theorem requests_step_cases (m : Machine μ) (kept : ¬ m.Overwrites .requests) :
    (∃ line, m.Enters line ∧ m.step.2.reg .requests = LineSet.erase (m.reg .requests) line) ∨
    (m.Executes (.nullary .iret) ∧ m.step.2.reg .requests = m.savedRequests) ∨
    ((∀ line, ¬ m.Enters line) ∧ ¬ m.Executes (.nullary .iret) ∧
      m.step.2.reg .requests = m.reg .requests) := by
  rcases m.step_cases with stopped | ⟨line, enters⟩ | ⟨i, executes⟩ | ⟨trap, traps⟩
  · refine .inr (.inr ⟨fun line h => stopped h.running, fun h => stopped h.running, ?_⟩)
    rw [step_of_stopped stopped]
  · exact .inl ⟨line, enters, requests_of_enters enters⟩
  · by_cases returns : i = .nullary .iret
    · subst returns
      exact .inr (.inl ⟨executes, requests_of_iret executes⟩)
    · refine .inr (.inr ⟨fun line h => h.not_executes executes, ?_, ?_⟩)
      · intro h
        exact returns (executes.unique h)
      · exact requests_of_executes executes returns kept
  · refine .inr (.inr ⟨fun line h => h.not_traps traps, fun h => traps.not_executes h, ?_⟩)
    rw [step_of_traps traps]
    rfl

/-- One step keeps a latched request that it does not accept, unless it reloads the requests
without it. -/
theorem contains_step_iff {m : Machine μ} {line : Line}
    (latched : LineSet.contains (m.reg .requests) line) (kept : ¬ m.Overwrites .requests)
    (undelivered : m.step.1 ≠ .entered line) :
    LineSet.contains (m.step.2.reg .requests) line ↔
      (m.Executes (.nullary .iret) → LineSet.contains m.savedRequests line) := by
  rcases m.requests_step_cases kept with
    ⟨other, enters, after⟩ | ⟨returns, after⟩ | ⟨-, stays, after⟩
  · have differs : line ≠ other := by
      rintro rfl
      rw [step_of_enters enters] at undelivered
      exact undelivered rfl
    rw [after, LineSet.contains_erase, latched]
    simp [differs, enters.not_executes]
  · rw [after]
    exact ⟨fun h _ => h, fun h => h returns⟩
  · rw [after]
    exact ⟨fun _ returns => absurd returns stays, fun _ => latched⟩

/-- A request stays latched throughout a run exactly when every return in it reloads it. -/
theorem latched_iff_reloaded (m : Machine μ) (line : Line) (events : List Event) :
    let start := m.raise (UInt8.ofNat line)
    EachStep (fun before => ¬ (start.after before).Overwrites .requests) events →
    EachStep (fun before => (start.after before).step.1 ≠ .entered line) events →
    ((∀ part, part <+: events → LineSet.contains ((start.after part).reg .requests) line) ↔
      EachStep (fun before => (start.after before).Executes (.nullary .iret) →
        LineSet.contains (start.after before).savedRequests line) events) := by
  intro start kept undelivered
  constructor
  · intro latched before inside
    have now := latched before ((List.prefix_append _ _).trans inside)
    have next := latched (before ++ [.step]) inside
    rw [after_concat] at next
    exact (contains_step_iff now (kept before inside) (undelivered before inside)).1 next
  · intro reloaded part inside
    induction part using List.reverseRecOn with
    | nil =>
      change LineSet.contains (start.reg .requests) line
      rw [show start = m.request line from m.raise_line line, reg_request, if_pos rfl,
        LineSet.contains_insert]
      simp
    | append_singleton part e ih =>
      have now := ih ((List.prefix_append _ _).trans inside)
      rw [after_concat]
      cases e with
      | step =>
        exact (contains_step_iff now (kept part inside) (undelivered part inside)).2
          (reloaded part inside)
      | raise number => exact contains_raise now number

/-- Only line 0 is unmasked, its handler returns at once, and line 0 is requested. -/
def interrupted : Machine PlainMemory :=
  ((Session.start .zero : Session PlainMemory Silence).performAll
    [.load [0x1a] 0x20, .poke 0xf8 0x20, .setReg .r5 0x01, .raise 0]).2.machine

theorem latched_through_handler :
    ∀ part, part <+: [.step, .raise 0, .step] →
      LineSet.contains (((interrupted.raise 1).after part).reg .requests) 1 :=
  (interrupted.latched_iff_reloaded 1 [.step, .raise 0, .step] (by decide) (by decide)).2
    (by decide)

/-- A request that comes while a handler runs is gone after the return, though nothing overwrote
the requests and its handler was never entered. -/
theorem request_lost_on_return :
    ¬ ∀ (m : Machine PlainMemory) (line : Line) (events : List Event),
      let start := m.raise (UInt8.ofNat line)
      EachStep (fun before => ¬ (start.after before).Overwrites .requests) events →
      EachStep (fun before => (start.after before).step.1 ≠ .entered line) events →
      ∀ part, part <+: events → LineSet.contains ((start.after part).reg .requests) line := by
  intro latched
  have kept := latched interrupted.step.2 0 [.step] (by decide) (by decide) _ (List.prefix_refl _)
  revert kept
  decide

end Machine
end EightBit
