import EightBit.Proofs.DriverAgreement
import EightBit.Proofs.TickSchedule

/-!
# Runs in parts

A bounded run can be cut into two at any number of cycles. A paced run with periodic ticks can be
cut where a period is over: there the reset at the start of the second run leaves the countdown as
it is.
-/
namespace EightBit

namespace Machine

variable {μ : Type} [Memory μ]

/-- The outcome before a run is its answer only when it takes no step. -/
theorem runFrom_eq_of_pos (last other : Outcome) {n : Nat} (pos : 0 < n) (m : Machine μ) :
    m.runFrom last n = m.runFrom other n := by
  obtain ⟨k, rfl⟩ := Nat.exists_eq_add_of_lt pos
  rfl

theorem runFrom_add {last : Outcome} (going : last.isFinal = false) (a b : Nat) (m : Machine μ) :
    m.runFrom last (a + b) =
      if (m.runFrom last a).1.isFinal then m.runFrom last a
      else (m.runFrom last a).2.runFrom (m.runFrom last a).1 b := by
  induction a generalizing last m with
  | zero =>
    rw [Nat.zero_add, runFrom_zero, going, if_neg Bool.false_ne_true]
  | succ a ih =>
    rw [Nat.add_right_comm, runFrom_succ, runFrom_succ]
    cases first : m.step.1.isFinal with
    | true => simp only [if_true, first]
    | false =>
      simp only [Bool.false_eq_true, if_false]
      exact ih first _

/-- A second run after one that stopped the machine changes nothing and gives the same answer. -/
theorem runFrom_of_final_run {last : Outcome} {a : Nat} {m : Machine μ}
    (going : last.isFinal = false) (final : (m.runFrom last a).1.isFinal = true) {b : Nat}
    (pos : 0 < b) : (m.runFrom last a).2.runFrom .executed b = m.runFrom last a := by
  have outcome := (finishes_runFrom going final).outcome
  have stopped : (m.runFrom last a).2.status ≠ .running := by
    rw [← outcome] at final
    exact Status.stopped_of_isFinal final
  obtain ⟨k, rfl⟩ := Nat.exists_eq_add_of_lt pos
  rw [Nat.zero_add, runFrom_of_stopped stopped, outcome]

theorem runAtMost_add (a : Nat) {b : Nat} (pos : 0 < b) (m : Machine μ) :
    (m.runAtMost a).2.runAtMost b = m.runAtMost (a + b) := by
  unfold runAtMost
  rw [runFrom_add rfl]
  cases final : (m.runFrom .executed a).1.isFinal with
  | true =>
    rw [if_pos rfl]
    exact runFrom_of_final_run rfl final pos
  | false =>
    rw [if_neg Bool.false_ne_true]
    exact runFrom_eq_of_pos _ _ pos _

end Machine

namespace Pacing

variable {μ : Type} [Memory μ]

theorem period_cycles (cyclePeriod n : Nat) (t : PeriodicTicks) (m : Machine μ) :
    (cycles cyclePeriod n t m).2.1.period = t.period := by
  induction n generalizing t m with
  | zero => rfl
  | succ n ih =>
    have first := PeriodicTicks.period_poll t
    cases told : (m.polled (TickSource.poll t).1).step.1.runEnd? with
    | some e =>
      rw [cycles_succ_of_some told]
      exact first
    | none =>
      rw [cycles_succ_of_none told]
      exact (ih _ _).trans first

/-- Bounded runs compose. A run of at most `a` and one of at most `b` steps come to a run of at most
`a + b`, and so do two paced runs with periodic ticks when `a` is a whole number of periods. -/
theorem bounded_runs_compose (m : Machine μ) :
    (∀ a b, ((m.runAtMost a).2.runAtMost b).2 = (m.runAtMost (a + b)).2 ∧
      (1 ≤ b → ((m.runAtMost a).2.runAtMost b).1 = (m.runAtMost (a + b)).1)) ∧
    ∀ (p q : Pacing PeriodicTicks) (a b fuel : Nat) (mid : Machine μ),
      0 < p.ticks.period → p.ticks.period ∣ a →
      { p with limit := some a }.run? fuel m = some (.cycleLimit, q, mid) →
      ∃ e last, (∃ r, { q with limit := some b }.run? fuel mid = some (e, r, last)) ∧
        ∃ r, { p with limit := some (a + b) }.run? fuel m = some (e, r, last) := by
  constructor
  · intro a b
    cases b with
    | zero => exact ⟨rfl, fun pos => absurd pos (by decide)⟩
    | succ b =>
      rw [Machine.runAtMost_add a (Nat.succ_pos b)]
      exact ⟨rfl, fun _ => rfl⟩
  · intro p q a b fuel mid pos whole ended
    have going : p.stopped = false :=
      going_of_run? (p := { p with limit := some a }) ended (by decide)
    have left := run?_pacing (p := { p with limit := some a }) going ended
    have period : q.ticks.period = p.ticks.period := by
      rw [left]
      exact period_cycles _ _ _ _
    have first : m.runAlong (PeriodicTicks.schedule p.ticks.period a) = (.cycleLimit, mid) :=
      (run?_periodic_iff (p := { p with limit := some a }) pos going rfl).1 ⟨q, ended⟩
    have both : m.runAlong (PeriodicTicks.schedule p.ticks.period (a + b)) =
        mid.runAlong (PeriodicTicks.schedule p.ticks.period b) := by
      rw [PeriodicTicks.schedule_add whole, Machine.runAlong_append, first, if_pos rfl]
    obtain ⟨⟨e, last⟩, second⟩ :
      ∃ result, mid.runAlong (PeriodicTicks.schedule p.ticks.period b) = result := ⟨_, rfl⟩
    refine ⟨e, last, ?_, ?_⟩
    · apply (run?_periodic_iff (p := { q with limit := some b }) (period ▸ pos) _ rfl).2
      · rw [period]
        exact second
      · rw [left]
        exact going
    · exact (run?_periodic_iff (p := { p with limit := some (a + b) }) pos going rfl).2
        (both.trans second)

/-- The program spins and is interrupted before the cycles 3, 6 and 9. -/
theorem six_and_five_cycles_compose :
    (spinning.runAtMost 4).2.runAtMost 2 = spinning.runAtMost 6 ∧
    ∃ q mid e last,
      { sevenCycles with limit := some 6 }.run? 0 spinning = some (.cycleLimit, q, mid) ∧
      (∃ r, { q with limit := some 5 }.run? 0 mid = some (e, r, last)) ∧
      ∃ r, { sevenCycles with limit := some 11 }.run? 0 spinning = some (e, r, last) := by
  obtain ⟨steps, cycles⟩ := bounded_runs_compose spinning
  obtain ⟨state, answer⟩ := steps 4 2
  refine ⟨Prod.ext (answer (by decide)) state, ?_⟩
  have limited : (spinning.runAlong (PeriodicTicks.schedule 3 6)).1 = .cycleLimit := by decide
  obtain ⟨q, first⟩ := (run?_periodic_iff (p := { sevenCycles with limit := some 6 })
    (by decide) rfl rfl).2 (Prod.ext limited rfl)
  obtain ⟨e, last, second, whole⟩ := cycles sevenCycles q 6 5 0 _ (by decide) (by decide) first
  exact ⟨q, _, e, last, first, second, whole⟩

end Pacing
end EightBit
