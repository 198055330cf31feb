import EightBit.Proofs.SessionUnrolling

/-!
# Permanence of a stop

A machine that has halted or trapped never runs again, whatever a host does to it. Steps and runs
answer with the outcome that stopped it and leave it as it is. Only a paced run can still latch a
timer request, since it polls its ticks before it learns of the stop.
-/
namespace EightBit

theorem Status.isFinal_of_stopped {s : Status} (stopped : s ≠ .running) :
    s.outcome.isFinal = true := by
  rw [isFinal_outcome, decide_eq_true_eq]
  exact stopped

theorem Status.stopped_of_isFinal {s : Status} (final : s.outcome.isFinal = true) :
    s ≠ .running := by
  rw [isFinal_outcome] at final
  exact of_decide_eq_true final

namespace Machine

section

variable {μ : Type}

/-- At most the request on the timer line differs. -/
structure SameButTimer (m other : Machine μ) : Prop where
  frame : other = { m with registers := other.registers }
  registers : ∀ r, r ≠ .requests → other.reg r = m.reg r
  lines : ∀ line : Line, line ≠ .timer →
    LineSet.contains (other.reg .requests) line = LineSet.contains (m.reg .requests) line

theorem sameButTimer_refl (m : Machine μ) : m.SameButTimer m :=
  ⟨rfl, fun _ _ => rfl, fun _ _ => rfl⟩

theorem sameButTimer_request (m : Machine μ) : m.SameButTimer (m.request .timer) where
  frame := rfl
  registers := by
    intro r other
    rw [reg_request, if_neg other.symm]
  lines := by
    intro line other
    rw [reg_request, if_pos rfl, LineSet.contains_insert]
    simp [other.symm]

end

variable {μ : Type} [Memory μ]

/-- The outcome of a step that stops the machine is told by its status from then on. -/
theorem outcome_of_final_step {m : Machine μ} (final : m.step.1.isFinal = true) :
    m.step.2.status.outcome = m.step.1 := by
  rcases m.step_cases with stopped | ⟨line, enters⟩ | ⟨i, executes⟩ | ⟨trap, traps⟩
  · rw [step_of_stopped stopped]
  · rw [step_of_enters enters] at final
    cases final
  · obtain ⟨after, executed⟩ := m.fetched.execute_isOk i
    rw [step_of_executes executes executed]
  · rw [step_of_traps traps]
    rfl

theorem stopped_of_final_step {m : Machine μ} (final : m.step.1.isFinal = true) :
    m.step.2.status ≠ .running := by
  rw [← outcome_of_final_step final] at final
  exact Status.stopped_of_isFinal final

theorem status_after_of_stopped {m : Machine μ} (stopped : m.status ≠ .running)
    (events : List Event) : (m.after events).status = m.status := by
  induction events generalizing m with
  | nil => rfl
  | cons e rest ih =>
    have first : (m.undergo e).status = m.status := by
      cases e with
      | step => rw [undergo, step_of_stopped stopped]
      | raise number => rw [undergo, raise_frame]
    rw [after_cons, ih (first ▸ stopped), first]

theorem runFrom_of_stopped {m : Machine μ} (stopped : m.status ≠ .running) (last : Outcome)
    (n : Nat) : m.runFrom last (n + 1) = (m.status.outcome, m) := by
  rw [runFrom_succ, step_of_stopped stopped, if_pos (Status.isFinal_of_stopped stopped)]

theorem run?_of_stopped {m : Machine μ} (stopped : m.status ≠ .running) (fuel : Nat) :
    m.run? (fuel + 1) = some (m.status.outcome, m) := by
  rw [run?, runAtMost, runFrom_of_stopped stopped]
  exact if_pos (Status.isFinal_of_stopped stopped)

end Machine

namespace Pacing

section

variable {μ τ : Type} [TickSource τ]

/-- The machine as a poll leaves it. -/
def attended (ticks : τ) (m : Machine μ) : Machine μ :=
  if (TickSource.poll ticks).1 then m.request .timer else m

theorem sameButTimer_attended (ticks : τ) (m : Machine μ) :
    m.SameButTimer (attended ticks m) := by
  unfold attended
  split
  · exact m.sameButTimer_request
  · exact m.sameButTimer_refl

theorem status_attended (ticks : τ) (m : Machine μ) : (attended ticks m).status = m.status := by
  rw [(sameButTimer_attended ticks m).frame]

end

variable {μ τ : Type} [Memory μ] [TickSource τ]

theorem beat_eq (ticks : τ) (m : Machine μ) :
    beat ticks m =
      ((attended ticks m).step.1, (TickSource.poll ticks).2, (attended ticks m).step.2) := rfl

theorem cycles_of_stopped {m : Machine μ} (stopped : m.status ≠ .running) (cyclePeriod n : Nat)
    (ticks : τ) {e : RunEnd} (told : m.status.outcome.runEnd? = some e) :
    cycles cyclePeriod (n + 1) ticks m = (e, (TickSource.poll ticks).2, attended ticks m) := by
  have stays : (attended ticks m).step = (m.status.outcome, attended ticks m) := by
    rw [Machine.step_of_stopped (status_attended ticks m ▸ stopped), status_attended]
  rw [cycles, beat_eq, stays]
  simp only [told]

theorem run?_of_stopped_machine {m : Machine μ} (stopped : m.status ≠ .running) {p : Pacing τ}
    (going : p.stopped = false) (unlimited : p.limit ≠ some 0) (fuel : Nat) {e : RunEnd}
    (told : m.status.outcome.runEnd? = some e) :
    p.run? (fuel + 1) m =
      some (e, { p with ticks := (TickSource.poll (TickSource.reset p.ticks)).2 },
        attended (TickSource.reset p.ticks) m) := by
  obtain ⟨n, some_cycle⟩ : ∃ n, p.limit.getD (fuel + 1) = n + 1 := by
    cases limit : p.limit with
    | none => exact ⟨fuel, rfl⟩
    | some most =>
      cases most with
      | zero => exact absurd limit unlimited
      | succ n => exact ⟨n, rfl⟩
  have early : e ≠ .cycleLimit := by
    rintro rfl
    cases h : m.status.outcome <;> simp [h, Outcome.runEnd?] at told
  simp [run?, going, some_cycle, cycles_of_stopped stopped _ _ _ told, early]

end Pacing

namespace Session

variable {μ τ : Type} [Memory μ] [TickSource τ]

/-- No action of a host lets a stopped machine run again. -/
theorem status_perform {s : Session μ τ} (stopped : s.machine.status ≠ .running)
    (action : Action τ) : (s.perform action).2.machine.status = s.machine.status := by
  cases action with
  | load image start => rw [perform, machine_load_frame]
  | loadText text start =>
    simp only [perform]
    split
    · rw [machine_load_frame]
    · rfl
  | step =>
    change s.machine.step.2.status = _
    rw [Machine.step_of_stopped stopped]
  | runAtMost n =>
    change (s.machine.runFrom .executed n).2.status = _
    rw [← s.machine.after_runEvents, Machine.status_after_of_stopped stopped]
  | run fuel =>
    rw [perform]
    cases result : s.machine.run? fuel with
    | none => rfl
    | some last =>
      change last.2.status = _
      rw [← Machine.after_runEvents_of_run? result, Machine.status_after_of_stopped stopped]
  | raise number =>
    change (s.machine.raise number).status = _
    rw [Machine.raise_frame]
  | runPaced fuel =>
    rw [perform]
    cases result : s.pacing.bind (·.run? fuel s.machine) with
    | none => rfl
    | some last =>
      obtain ⟨p, -, ended⟩ := Option.bind_eq_some_iff.1 result
      change last.2.2.status = _
      rw [← Pacing.after_runEvents ended, Machine.status_after_of_stopped stopped]
  | _ => rfl

theorem status_performAll {s : Session μ τ} (stopped : s.machine.status ≠ .running)
    (actions : List (Action τ)) :
    (s.performAll actions).2.machine.status = s.machine.status := by
  induction actions generalizing s with
  | nil => rfl
  | cons action rest ih =>
    have first := s.status_perform stopped action
    exact (ih (first ▸ stopped)).trans first

/-- Stopping is permanent. -/
theorem stop_is_permanent {m : Machine μ} (final : m.step.1.isFinal = true)
    (pacing : Option (Pacing τ)) (actions : List (Action τ)) :
    let later := ((⟨m.step.2, pacing⟩ : Session μ τ).performAll actions).2
    later.perform .step = (.outcome m.step.1, later) ∧
    (∀ n, later.perform (.runAtMost (n + 1)) = (.outcome m.step.1, later)) ∧
    (∀ fuel, later.perform (.run (fuel + 1)) = (.outcome m.step.1, later)) ∧
    ∀ (p : Pacing τ) (fuel : Nat), p.stopped = false → p.limit ≠ some 0 →
      ∃ e ended, m.step.1.runEnd? = some e ∧
        (⟨later.machine, some p⟩ : Session μ τ).perform (.runPaced (fuel + 1)) =
          (.ended e, ⟨ended,
            some { p with ticks := (TickSource.poll (TickSource.reset p.ticks)).2 }⟩) ∧
        later.machine.SameButTimer ended ∧
        ((TickSource.poll (TickSource.reset p.ticks)).1 = false → ended = later.machine) := by
  intro later
  have first : m.step.2.status ≠ .running := Machine.stopped_of_final_step final
  have same : later.machine.status = m.step.2.status :=
    status_performAll (s := ⟨m.step.2, pacing⟩) first actions
  have stopped : later.machine.status ≠ .running := same ▸ first
  have answer : later.machine.status.outcome = m.step.1 := by
    rw [same, Machine.outcome_of_final_step final]
  refine ⟨?_, ?_, ?_, ?_⟩
  · rw [perform, Machine.step_of_stopped stopped, answer]
    rfl
  · intro n
    rw [perform, Machine.runAtMost, Machine.runFrom_of_stopped stopped, answer]
    rfl
  · intro fuel
    rw [perform, Machine.run?_of_stopped stopped, answer]
    rfl
  · intro p fuel going unlimited
    obtain ⟨e, told⟩ := Option.isSome_iff_exists.1 (m.step.1.isSome_runEnd?.trans final)
    refine ⟨e, Pacing.attended (TickSource.reset p.ticks) later.machine, told, ?_, ?_, ?_⟩
    · rw [perform, Option.bind_some,
        Pacing.run?_of_stopped_machine stopped going unlimited fuel (answer ▸ told)]
    · exact Pacing.sameButTimer_attended _ _
    · intro quiet
      rw [Pacing.attended, quiet]
      rfl

/-- A program is loaded over the byte that trapped, and the timer line gets a handler. -/
def repairs : List (Action ScriptedTicks) :=
  [.load [0x04, 0x00, 0x63, 0x1b] 0, .poke 0xf8 0x20, .setReg .r5 0x01, .setPc 0]

theorem trapped_after_repairs :
    let later := ((⟨(Machine.initial PlainMemory.zero).step.2, none⟩ :
      Session PlainMemory ScriptedTicks).performAll repairs).2
    later.perform .step = (.outcome (.trapped (.invalidOpcode 0 0)), later) ∧
    ∃ ended, (⟨later.machine, some (.free ⟨[true]⟩ 0)⟩ :
        Session PlainMemory ScriptedTicks).perform (.runPaced 5) =
          (.ended (.trapped (.invalidOpcode 0 0)), ⟨ended, some (.free ⟨[]⟩ 0)⟩) ∧
      later.machine.SameButTimer ended := by
  intro later
  have trapped : (Machine.initial PlainMemory.zero).step.1 = .trapped (.invalidOpcode 0 0) := by
    decide
  have final : (Machine.initial PlainMemory.zero).step.1.isFinal = true := by rw [trapped]; rfl
  obtain ⟨step, -, -, paced⟩ := stop_is_permanent final none repairs
  rw [trapped] at step paced
  obtain ⟨e, ended, told, run, alike, -⟩ := paced (.free ⟨[true]⟩ 0) 4 rfl (by decide)
  cases told
  exact ⟨step, ended, run, alike⟩

end Session
end EightBit
