import EightBit.Proofs.PolledRun

/-!
# Agreement of the drivers

A paced run whose ticks are never due takes the steps of a bounded run, and without a limit those of
an unbounded one. The loop of an unbounded run is given here without fuel: it steps until an outcome
is final, and what it comes to is what some bounded run answers.
-/
namespace EightBit

/-- The answer of a bounded run as the end of a paced one. -/
theorem Outcome.getD_runEnd? (o : Outcome) :
    (o.runEnd?.getD .cycleLimit = .halted ↔ o = .halted) ∧
      (∀ trap, o.runEnd?.getD .cycleLimit = .trapped trap ↔ o = .trapped trap) ∧
      (o.runEnd?.getD .cycleLimit = .cycleLimit ↔ o.isFinal = false) := by
  cases o <;> simp [runEnd?, isFinal]

theorem Outcome.isFinal_of_runEnd? {o : Outcome} {e : RunEnd} (told : o.runEnd? = some e) :
    o.isFinal = true := by
  rw [← isSome_runEnd?, told, Option.isSome_some]

namespace Machine

variable {μ : Type} [Memory μ]

/-- The loop that steps until an outcome is final comes to this outcome and this machine. -/
inductive Finishes : Machine μ → Outcome × Machine μ → Prop
  | last {m : Machine μ} (final : m.step.1.isFinal = true) : Finishes m m.step
  | onward {m : Machine μ} {result : Outcome × Machine μ} (going : m.step.1.isFinal = false)
      (rest : Finishes m.step.2 result) : Finishes m result

theorem Finishes.isFinal {m : Machine μ} {result : Outcome × Machine μ} (h : m.Finishes result) :
    result.1.isFinal = true := by
  induction h with
  | last final => exact final
  | onward going rest ih => exact ih

/-- The outcome is told by the status of the machine. -/
theorem Finishes.outcome {m : Machine μ} {result : Outcome × Machine μ} (h : m.Finishes result) :
    result.2.status.outcome = result.1 := by
  induction h with
  | last final => exact outcome_of_final_step final
  | onward going rest ih => exact ih

theorem Finishes.exists_runFrom {m : Machine μ} {result : Outcome × Machine μ}
    (h : m.Finishes result) : ∃ n, ∀ last, m.runFrom last n = result := by
  induction h with
  | last final =>
    refine ⟨1, fun last => ?_⟩
    rw [runFrom_succ, if_pos final]
  | onward going rest ih =>
    obtain ⟨n, ran⟩ := ih
    refine ⟨n + 1, fun last => ?_⟩
    rw [runFrom_succ, going, if_neg Bool.false_ne_true, ran]

theorem finishes_runFrom {last : Outcome} (going : last.isFinal = false) {n : Nat}
    {m : Machine μ} (final : (m.runFrom last n).1.isFinal = true) :
    m.Finishes (m.runFrom last n) := by
  induction n generalizing last m with
  | zero =>
    rw [runFrom_zero, going] at final
    cases final
  | succ n ih =>
    rw [runFrom_succ] at final ⊢
    cases first : m.step.1.isFinal with
    | true =>
      rw [if_pos rfl]
      exact .last first
    | false =>
      rw [first, if_neg Bool.false_ne_true] at final
      rw [if_neg Bool.false_ne_true]
      exact .onward first (ih first final)

theorem finishes_iff_runAtMost {m : Machine μ} {result : Outcome × Machine μ} :
    m.Finishes result ↔ result.1.isFinal = true ∧ ∃ n, m.runAtMost n = result := by
  constructor
  · intro h
    obtain ⟨n, ran⟩ := h.exists_runFrom
    exact ⟨h.isFinal, n, ran .executed⟩
  · rintro ⟨final, n, rfl⟩
    exact finishes_runFrom rfl final

theorem finishes_iff_run? {m : Machine μ} {result : Outcome × Machine μ} :
    m.Finishes result ↔ ∃ fuel, m.run? fuel = some result := by
  have enough : ∀ fuel, m.run? fuel = some result ↔
      (m.runAtMost fuel).1.isFinal = true ∧ m.runAtMost fuel = result := by
    intro fuel
    rw [run?, Option.ite_none_right_eq_some, Option.some_inj]
  rw [finishes_iff_runAtMost]
  constructor
  · rintro ⟨final, n, rfl⟩
    exact ⟨n, (enough n).2 ⟨final, rfl⟩⟩
  · rintro ⟨fuel, ended⟩
    obtain ⟨final, rfl⟩ := (enough fuel).1 ended
    exact ⟨final, fuel, rfl⟩

theorem runAlong_replicate_false {last : Outcome} (going : last.isFinal = false) (n : Nat)
    (m : Machine μ) :
    m.runAlong (List.replicate n false) =
      ((m.runFrom last n).1.runEnd?.getD .cycleLimit, (m.runFrom last n).2) := by
  induction n generalizing last m with
  | zero =>
    rw [runFrom_zero, Outcome.runEnd?_eq_none_iff.2 going]
    rfl
  | succ n ih =>
    rw [List.replicate_succ, runFrom_succ]
    cases told : m.step.1.runEnd? with
    | some e =>
      have ended : (m.polled false).step.1.runEnd? = some e := told
      rw [runAlong_cons_of_some ended, if_pos (Outcome.isFinal_of_runEnd? told), told]
      rfl
    | none =>
      have onward : (m.polled false).step.1.runEnd? = none := told
      have first := Outcome.runEnd?_eq_none_iff.1 told
      rw [runAlong_cons_of_none onward, first, if_neg Bool.false_ne_true]
      exact ih first _

end Machine

namespace Pacing

section

variable {τ : Type} [TickSource τ]

/-- No poll of a run is answered by a tick, however long the run is. -/
def Quiet (p : Pacing τ) : Prop :=
  ∀ n, true ∉ answersFrom p.cyclePeriod n (TickSource.reset p.ticks)

theorem answers_of_quiet {p : Pacing τ} (quiet : p.Quiet) (fuel : Nat) :
    p.answers fuel = List.replicate (p.limit.getD fuel) false := by
  apply List.eq_replicate_iff.2
  refine ⟨p.length_answers fuel, ?_⟩
  intro due member
  cases due with
  | true => exact absurd member (quiet _)
  | false => rfl

theorem quiet_silence (p : Pacing Silence) : p.Quiet := by
  intro n
  generalize TickSource.reset p.ticks = ticks
  induction n generalizing ticks with
  | zero => exact List.not_mem_nil
  | succ n ih =>
    rw [answersFrom_succ, List.mem_cons]
    rintro (due | later)
    · cases due
    · exact ih _ later

end

variable {μ τ : Type} [Memory μ] [TickSource τ]

theorem runAlong_of_quiet {p : Pacing τ} (quiet : p.Quiet) (fuel : Nat) (m : Machine μ) :
    m.runAlong (p.answers fuel) =
      ((m.runAtMost (p.limit.getD fuel)).1.runEnd?.getD .cycleLimit,
        (m.runAtMost (p.limit.getD fuel)).2) := by
  rw [answers_of_quiet quiet]
  exact Machine.runAlong_replicate_false rfl _ m

/-- A quiet run without a limit ends as the loop of an unbounded run does. -/
theorem run?_unlimited_iff_finishes {p : Pacing τ} (going : p.stopped = false) (quiet : p.Quiet)
    (unlimited : p.limit = none) {m last : Machine μ} {e : RunEnd} :
    (∃ fuel q, p.run? fuel m = some (e, q, last)) ↔
      ∃ o, o.runEnd? = some e ∧ m.Finishes (o, last) := by
  constructor
  · rintro ⟨fuel, ended⟩
    obtain ⟨along, early⟩ := (run?_eq_some_iff going).1 ended
    rw [runAlong_of_quiet quiet, unlimited] at along
    obtain ⟨answer, rfl⟩ := Prod.mk.inj along
    have told : (m.runAtMost fuel).1.runEnd? = some e := by
      cases told : (m.runAtMost fuel).1.runEnd? with
      | some other =>
        rw [← answer, Option.getD_none, told, Option.getD_some]
      | none =>
        rw [Option.getD_none, told, Option.getD_none] at answer
        exact absurd unlimited (early answer.symm)
    exact ⟨_, told, Machine.finishes_iff_runAtMost.2
      ⟨Outcome.isFinal_of_runEnd? told, fuel, rfl⟩⟩
  · rintro ⟨o, told, finishes⟩
    obtain ⟨-, n, ran⟩ := Machine.finishes_iff_runAtMost.1 finishes
    refine ⟨n, (run?_eq_some_iff going).2 ⟨?_, ?_⟩⟩
    · rw [runAlong_of_quiet quiet, unlimited, Option.getD_none, ran, told]
      rfl
    · rintro rfl
      exact absurd told (Outcome.runEnd?_ne_cycleLimit o)

/-- The drivers agree: a paced run that gets no ticks ends as the bounded run of its limit does, and
without a limit as an unbounded run does. -/
theorem drivers_agree (p : Pacing τ) (m : Machine μ) (going : p.stopped = false)
    (quiet : p.Quiet) :
    (∀ n fuel, ∃ e q,
      { p with limit := some n }.run? fuel m = some (e, q, (m.runAtMost n).2) ∧
        (e = .halted ↔ (m.runAtMost n).1 = .halted) ∧
        (∀ trap, e = .trapped trap ↔ (m.runAtMost n).1 = .trapped trap) ∧
        (e = .cycleLimit ↔ (m.runAtMost n).1.isFinal = false)) ∧
    (∀ e last, (∃ fuel q, { p with limit := none }.run? fuel m = some (e, q, last)) ↔
      ∃ o, o.runEnd? = some e ∧ m.Finishes (o, last)) ∧
    (∀ o last, m.Finishes (o, last) ↔ ∃ fuel, m.run? fuel = some (o, last)) ∧
    (∀ o last, m.Finishes (o, last) ↔ o.isFinal = true ∧ ∃ n, m.runAtMost n = (o, last)) ∧
    m.step.2.cycles = m.cycles + if m.status = .running then 1 else 0 := by
  refine ⟨?_, ?_, ?_, ?_, m.cycles_step⟩
  · intro n fuel
    obtain ⟨q, ended⟩ := (run?_eq_some_iff (p := { p with limit := some n }) going).2
      ⟨runAlong_of_quiet (p := { p with limit := some n }) quiet fuel m, fun _ => nofun⟩
    exact ⟨_, q, ended, Outcome.getD_runEnd? _⟩
  · intro e last
    exact run?_unlimited_iff_finishes (p := { p with limit := none }) going quiet rfl
  · intro o last
    exact Machine.finishes_iff_run?
  · intro o last
    exact Machine.finishes_iff_runAtMost

/-- The second instruction halts. -/
def halting : Machine PlainMemory :=
  Machine.initial (Memory.writeAll .zero (Memory.placed 0x00 [0x04, 0x00, 0x05, 0x1b]))

theorem halt_on_last_cycle_agrees :
    (∃ q, (⟨⟨⟩, 0, some 2, false⟩ : Pacing Silence).run? 0 halting =
      some (.halted, q, (halting.runAtMost 2).2)) ∧
    ∃ fuel q, (⟨⟨⟩, 0, none, false⟩ : Pacing Silence).run? fuel halting =
      some (.halted, q, (halting.runAtMost 2).2) := by
  obtain ⟨limited, unlimited, -, bounded, -⟩ :=
    drivers_agree ⟨⟨⟩, 0, none, false⟩ halting rfl (quiet_silence _)
  have halts : (halting.runAtMost 2).1 = .halted := by decide
  obtain ⟨e, q, ended, halted, -⟩ := limited 2 0
  have e_halted := halted.2 halts
  subst e_halted
  refine ⟨⟨q, ended⟩, (unlimited _ _).2 ⟨.halted, rfl, (bounded _ _).2 ⟨rfl, 2, ?_⟩⟩⟩
  exact Prod.ext halts rfl

end Pacing
end EightBit
