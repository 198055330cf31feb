import Mathlib.Data.List.Induction
import EightBit.Proofs.InstructionSteps
import EightBit.Proofs.SessionUnrolling

/-!
# Exclusion of handlers

Entering a handler disables interrupts, and unless the host sets the flag itself only a return
enables them again. So no handler is entered while another one is running, whatever the program,
the host and the tick source do in the meantime.
-/
namespace EightBit.Session

open Machine

variable {μ τ : Type} [Memory μ] [TickSource τ]

/-- No single action enables interrupts, except for setting the flag and for the step of a
return. -/
theorem interruptsEnabled_perform_of_disabled {s : Session μ τ} {action : Action τ}
    (single : action.isRun = false) (untouched : ∀ enabled, action ≠ .setInterruptsEnabled enabled)
    (stays : action = .step → ¬ s.machine.Executes (.nullary .iret))
    (disabled : s.machine.interruptsEnabled = false) :
    (s.perform action).2.machine.interruptsEnabled = false := by
  cases action with
  | load image start =>
    rw [perform, machine_load_frame]
    exact disabled
  | loadText text start =>
    simp only [perform]
    split
    · rw [machine_load_frame]
      exact disabled
    · exact disabled
  | step => exact interruptsEnabled_step_of_disabled disabled (stays rfl)
  | runAtMost n => cases single
  | run fuel => cases single
  | runPaced fuel => cases single
  | raise number =>
    change (s.machine.raise number).interruptsEnabled = false
    rw [raise_frame]
    exact disabled
  | setInterruptsEnabled enabled => exact absurd rfl (untouched enabled)
  | _ => exact disabled

/-- Until the first return after the entry of a handler interrupts are disabled. -/
theorem interruptsEnabled_inside (s : Session μ τ) {entry inner : List (Action τ)} {line : Line}
    (entered : (s.machineAfter entry).step.1 = .entered line)
    (single : ∀ action ∈ inner, action.isRun = false)
    (untouched : ∀ enabled, .setInterruptsEnabled enabled ∉ inner)
    (stays : ∀ part, part ++ [.step] <+: inner →
      ¬ (s.machineAfter (entry ++ .step :: part)).Executes (.nullary .iret)) :
    (s.machineAfter (entry ++ .step :: inner)).interruptsEnabled = false := by
  induction inner using List.reverseRecOn with
  | nil =>
    rw [machineAfter_concat]
    change (s.machineAfter entry).step.2.interruptsEnabled = false
    rw [step_of_enters (enters_of_step entered)]
    exact interruptsEnabled_enterHandler _ _
  | append_singleton inner action ih =>
    have start := List.prefix_append inner [action]
    have disabled : (s.machineAfter (entry ++ .step :: inner)).interruptsEnabled = false := by
      apply ih
      · intro other member
        exact single other (List.mem_append_left _ member)
      · intro enabled member
        exact untouched enabled (List.mem_append_left _ member)
      · intro part inside
        exact stays part (inside.trans start)
    have last : entry ++ .step :: (inner ++ [action]) = (entry ++ .step :: inner) ++ [action] := by
      simp
    rw [last, machineAfter_concat]
    apply interruptsEnabled_perform_of_disabled
    · exact single action (List.mem_append_right _ List.mem_cons_self)
    · rintro enabled rfl
      exact untouched enabled (List.mem_append_right _ List.mem_cons_self)
    · rintro rfl
      exact stays inner (List.prefix_refl _)
    · exact disabled

/-- Handlers never nest. A session is looked at cycle by cycle, those of its runs included. -/
theorem handlers_never_nest (s : Session μ τ) (actions : List (Action τ))
    (untouched : ∀ enabled, .setInterruptsEnabled enabled ∉ actions) :
    let moves := s.unrolled actions
    (∀ move ∈ moves, move.isRun = false) ∧
    (.nothing ∉ (s.performAll actions).1 → s.machineAfter moves = s.machineAfter actions) ∧
    (∀ entry inner line, entry ++ .step :: inner <+: moves →
      (s.machineAfter entry).step.1 = .entered line →
      (∀ part, part ++ [.step] <+: inner →
        ¬ (s.machineAfter (entry ++ .step :: part)).Executes (.nullary .iret)) →
      (s.machineAfter (entry ++ .step :: inner)).interruptsEnabled = false) ∧
    (∀ entry inner first second, entry ++ .step :: inner ++ [.step] <+: moves →
      (s.machineAfter entry).step.1 = .entered first →
      (s.machineAfter (entry ++ .step :: inner)).step.1 = .entered second →
      ∃ part, part ++ [.step] <+: inner ∧
        (s.machineAfter (entry ++ .step :: part)).Executes (.nullary .iret)) := by
  intro moves
  have inside : ∀ entry inner line, entry ++ .step :: inner <+: moves →
      (s.machineAfter entry).step.1 = .entered line →
      (∀ part, part ++ [.step] <+: inner →
        ¬ (s.machineAfter (entry ++ .step :: part)).Executes (.nullary .iret)) →
      (s.machineAfter (entry ++ .step :: inner)).interruptsEnabled = false := by
    intro entry inner line here entered stays
    have member : ∀ action ∈ inner, action ∈ moves := fun action h =>
      here.subset (List.mem_append_right _ (List.mem_cons_of_mem _ h))
    apply s.interruptsEnabled_inside entered _ _ stays
    · intro action h
      exact isRun_of_mem_unrolled (member action h)
    · intro enabled h
      rcases mem_unrolled (member _ h) with ⟨listed, -⟩ | ⟨e, same⟩
      · exact untouched enabled listed
      · cases e <;> cases same
  refine ⟨fun move => isRun_of_mem_unrolled, s.machineAfter_unrolled, inside, ?_⟩
  intro entry inner first second here entered again
  -- Without a return the flag would still be down when the second handler is entered.
  by_contra none
  have disabled := inside entry inner first ((List.prefix_append _ _).trans here) entered
    fun part within returns => none ⟨part, within, returns⟩
  rw [(enters_of_step again).enabled] at disabled
  cases disabled

/-- A handler that returns at once, driven by a timer that is due before the first and the third
cycle. -/
def ticking : Session PlainMemory ScriptedTicks :=
  ((start .zero).performAll [.load [0x1a] 0x20, .poke 0xf8 0x20, .setReg .r5 0x01]).2

def threeCycles : List (Action ScriptedTicks) :=
  [.pace (.free ⟨[true, false, true]⟩ 0), .limitRuns (some 3), .runPaced 0]

def firstTick : List (Action ScriptedTicks) := threeCycles.take 2 ++ [.raise 0]

theorem timer_handlers_never_nest :
    ticking.unrolled threeCycles = firstTick ++ .step :: [.step, .raise 0] ++ [.step] ∧
    (ticking.machineAfter (firstTick ++ [.step])).interruptsEnabled = false ∧
    ∃ part, part ++ [.step] <+: [.step, .raise 0] ∧
      (ticking.machineAfter (firstTick ++ .step :: part)).Executes (.nullary .iret) := by
  have moves : ticking.unrolled threeCycles =
      firstTick ++ .step :: [.step, .raise 0] ++ [.step] := by decide
  have entered : (ticking.machineAfter firstTick).step.1 = .entered 0 := by decide
  obtain ⟨-, -, inside, between⟩ :=
    ticking.handlers_never_nest threeCycles (by simp [threeCycles])
  rw [moves] at inside between
  refine ⟨moves, ?_, ?_⟩
  · apply inside firstTick [] 0 (by decide) entered
    intro part within
    simp at within
  · exact between firstTick [.step, .raise 0] 0 0 (List.prefix_refl _) entered (by decide)

end EightBit.Session
