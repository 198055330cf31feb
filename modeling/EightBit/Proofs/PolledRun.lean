import EightBit.Proofs.InstructionSteps
import EightBit.Proofs.PermanentStop

/-!
# Paced runs by the answers of their polls

A paced run depends on its tick source only through the answers to its polls, one before each
cycle. What holds of runs along any list of answers holds of all tick sources, and a run along two
lists in a row goes on where the first one reached its limit.
-/
namespace EightBit

theorem Outcome.runEnd?_eq_none_iff {o : Outcome} : o.runEnd? = none ↔ o.isFinal = false := by
  rw [← isSome_runEnd?, Option.isSome_eq_false_iff, Option.isNone_iff_eq_none]

/-- Only the pacing itself can end a run at a limit. -/
theorem Outcome.runEnd?_ne_cycleLimit (o : Outcome) : o.runEnd? ≠ some .cycleLimit := by
  cases o <;> simp [runEnd?]

/-- A cycle after a poll with this answer. -/
def Event.cycle (due : Bool) : List Event := if due then [.raise 0, .step] else [.step]

theorem Event.count_raise_cycles (dues : List Bool) :
    (dues.flatMap cycle).count (.raise 0) = dues.count true := by
  induction dues with
  | nil => rfl
  | cons due later ih =>
    rw [List.flatMap_cons, List.count_append, ih]
    cases due <;> simp [cycle, Nat.add_comm]

namespace Machine

section

variable {μ : Type}

/-- The machine after a poll with this answer. -/
def polled (m : Machine μ) (due : Bool) : Machine μ := if due then m.request .timer else m

theorem polled_frame (m : Machine μ) (due : Bool) :
    m.polled due = { m with registers := (m.polled due).registers } := by
  cases due <;> rfl

end

variable {μ : Type} [Memory μ]

theorem running_of_onward {m : Machine μ} (onward : m.step.1.isFinal = false) :
    m.status = .running := by
  by_cases running : m.status = .running
  · exact running
  · rw [step_of_stopped running, Status.isFinal_of_stopped running] at onward
    cases onward

/-- One cycle after each answer, until a cycle ends the run or the answers are used up. -/
def runAlong : List Bool → Machine μ → RunEnd × Machine μ
  | [], m => (.cycleLimit, m)
  | due :: later, m =>
    let (outcome, after) := (m.polled due).step
    match outcome.runEnd? with
    | some e => (e, after)
    | none => runAlong later after

theorem runAlong_cons_of_some {m : Machine μ} {due : Bool} {e : RunEnd}
    (told : (m.polled due).step.1.runEnd? = some e) (later : List Bool) :
    m.runAlong (due :: later) = (e, (m.polled due).step.2) := by
  rw [runAlong]
  simp only [told]

theorem runAlong_cons_of_none {m : Machine μ} {due : Bool}
    (onward : (m.polled due).step.1.runEnd? = none) (later : List Bool) :
    m.runAlong (due :: later) = (m.polled due).step.2.runAlong later := by
  rw [runAlong]
  simp only [onward]

theorem onward_of_cycleLimit {m : Machine μ} {due : Bool} {later : List Bool}
    (whole : (m.runAlong (due :: later)).1 = .cycleLimit) :
    (m.polled due).step.1.runEnd? = none := by
  cases told : (m.polled due).step.1.runEnd? with
  | some e =>
    rw [runAlong_cons_of_some told] at whole
    cases whole
    exact absurd told (Outcome.runEnd?_ne_cycleLimit _)
  | none => rfl

theorem runAlong_append (m : Machine μ) (first second : List Bool) :
    m.runAlong (first ++ second) =
      if (m.runAlong first).1 = .cycleLimit then (m.runAlong first).2.runAlong second
      else m.runAlong first := by
  induction first generalizing m with
  | nil => rfl
  | cons due later ih =>
    rw [List.cons_append]
    cases told : (m.polled due).step.1.runEnd? with
    | some e =>
      have early : e ≠ .cycleLimit := by
        rintro rfl
        exact Outcome.runEnd?_ne_cycleLimit _ told
      rw [runAlong_cons_of_some told, runAlong_cons_of_some told, if_neg early]
    | none => rw [runAlong_cons_of_none told, runAlong_cons_of_none told, ih]

/-- A run that reaches its limit has counted a cycle for every answer. -/
theorem cycles_runAlong {m : Machine μ} {dues : List Bool}
    (whole : (m.runAlong dues).1 = .cycleLimit) :
    (m.runAlong dues).2.cycles = m.cycles + dues.length := by
  induction dues generalizing m with
  | nil => rfl
  | cons due later ih =>
    have told := onward_of_cycleLimit whole
    have running := running_of_onward (Outcome.runEnd?_eq_none_iff.1 told)
    have first : (m.polled due).step.2.cycles = m.cycles + 1 := by
      rw [cycles_step, if_pos running, polled_frame]
    rw [runAlong_cons_of_none told] at whole ⊢
    rw [ih whole, first, List.length_cons]
    omega

end Machine

namespace Pacing

section

variable {τ : Type} [TickSource τ]

/-- The answers to `n` polls with a cycle after each of them. -/
def answersFrom (cyclePeriod : Nat) : Nat → τ → List Bool
  | 0, _ => []
  | n + 1, ticks =>
    let (due, polled) := TickSource.poll ticks
    due :: answersFrom cyclePeriod n (TickSource.elapse polled cyclePeriod)

/-- The answers that a run gets when nothing but its limit or its fuel ends it. -/
def answers (fuel : Nat) (p : Pacing τ) : List Bool :=
  answersFrom p.cyclePeriod (p.limit.getD fuel) (TickSource.reset p.ticks)

theorem answersFrom_succ (cyclePeriod n : Nat) (ticks : τ) :
    answersFrom cyclePeriod (n + 1) ticks =
      (TickSource.poll ticks).1 ::
        answersFrom cyclePeriod n (TickSource.elapse (TickSource.poll ticks).2 cyclePeriod) := rfl

theorem length_answersFrom (cyclePeriod n : Nat) (ticks : τ) :
    (answersFrom cyclePeriod n ticks).length = n := by
  induction n generalizing ticks with
  | zero => rfl
  | succ n ih => rw [answersFrom_succ, List.length_cons, ih]

theorem length_answers (fuel : Nat) (p : Pacing τ) :
    (p.answers fuel).length = p.limit.getD fuel := length_answersFrom _ _ _

end

variable {μ τ : Type} [Memory μ] [TickSource τ]

theorem beat_eq_polled (ticks : τ) (m : Machine μ) :
    beat ticks m =
      ((m.polled (TickSource.poll ticks).1).step.1, (TickSource.poll ticks).2,
        (m.polled (TickSource.poll ticks).1).step.2) := rfl

theorem cycles_succ_of_some {ticks : τ} {m : Machine μ} {e : RunEnd}
    (told : (m.polled (TickSource.poll ticks).1).step.1.runEnd? = some e) (cyclePeriod n : Nat) :
    cycles cyclePeriod (n + 1) ticks m =
      (e, (TickSource.poll ticks).2, (m.polled (TickSource.poll ticks).1).step.2) := by
  rw [cycles, beat_eq_polled]
  simp only [told]

theorem cycles_succ_of_none {ticks : τ} {m : Machine μ}
    (onward : (m.polled (TickSource.poll ticks).1).step.1.runEnd? = none) (cyclePeriod n : Nat) :
    cycles cyclePeriod (n + 1) ticks m =
      cycles cyclePeriod n (TickSource.elapse (TickSource.poll ticks).2 cyclePeriod)
        (m.polled (TickSource.poll ticks).1).step.2 := by
  rw [cycles, beat_eq_polled]
  simp only [onward]

theorem cycles_eq_runAlong (cyclePeriod n : Nat) (ticks : τ) (m : Machine μ) :
    ((cycles cyclePeriod n ticks m).1, (cycles cyclePeriod n ticks m).2.2) =
      m.runAlong (answersFrom cyclePeriod n ticks) := by
  induction n generalizing ticks m with
  | zero => rfl
  | succ n ih =>
    rw [answersFrom_succ]
    cases told : (m.polled (TickSource.poll ticks).1).step.1.runEnd? with
    | some e => rw [cycles_succ_of_some told, Machine.runAlong_cons_of_some told]
    | none =>
      rw [cycles_succ_of_none told, Machine.runAlong_cons_of_none told]
      exact ih _ _

/-- How a run ends and the machine it leaves, by its answers. Without a limit only a run that is
over within its fuel has an end. -/
theorem run?_eq_some_iff {p : Pacing τ} (going : p.stopped = false) {fuel : Nat}
    {m last : Machine μ} {e : RunEnd} :
    (∃ q, p.run? fuel m = some (e, q, last)) ↔
      m.runAlong (p.answers fuel) = (e, last) ∧ (e = .cycleLimit → p.limit ≠ none) := by
  have along := cycles_eq_runAlong p.cyclePeriod (p.limit.getD fuel) (TickSource.reset p.ticks) m
  rw [answers, ← along]
  unfold run?
  simp only [going, Bool.false_eq_true, if_false]
  constructor
  · rintro ⟨q, ended⟩
    obtain ⟨bounded, ended⟩ := Option.ite_none_left_eq_some.1 ended
    cases ended
    exact ⟨rfl, fun limited unlimited => bounded ⟨limited, unlimited⟩⟩
  · rintro ⟨same, bounded⟩
    cases same
    exact ⟨_, if_neg fun endless => bounded endless.1 endless.2⟩

/-- The cycles of a run come after its first answers, and after all of them unless the machine ends
the run. -/
theorem cycleEvents_eq (cyclePeriod n : Nat) (ticks : τ) (m : Machine μ) :
    ∃ ran ≤ n,
      cycleEvents cyclePeriod n ticks m =
        (answersFrom cyclePeriod ran ticks).flatMap Event.cycle ∧
      ((cycles cyclePeriod n ticks m).1 = .cycleLimit → ran = n) := by
  induction n generalizing ticks m with
  | zero => exact ⟨0, Nat.le_refl 0, rfl, fun _ => rfl⟩
  | succ n ih =>
    rw [cycleEvents, cycles, beat_eq_polled]
    cases told : (m.polled (TickSource.poll ticks).1).step.1.runEnd? with
    | some e =>
      simp only [told]
      refine ⟨1, Nat.succ_le_succ (Nat.zero_le n), rfl, ?_⟩
      rintro rfl
      exact absurd told (Outcome.runEnd?_ne_cycleLimit _)
    | none =>
      simp only [told]
      obtain ⟨ran, le, events, whole⟩ := ih _ _
      refine ⟨ran + 1, Nat.succ_le_succ le, ?_, fun limited => congrArg _ (whole limited)⟩
      rw [events, answersFrom_succ, List.flatMap_cons]
      rfl

theorem cycleEvents_of_cycleLimit {cyclePeriod n : Nat} {ticks : τ} {m : Machine μ}
    (whole : (m.runAlong (answersFrom cyclePeriod n ticks)).1 = .cycleLimit) :
    cycleEvents cyclePeriod n ticks m = (answersFrom cyclePeriod n ticks).flatMap Event.cycle := by
  obtain ⟨ran, -, events, limited⟩ := cycleEvents_eq cyclePeriod n ticks m
  rw [← cycles_eq_runAlong] at whole
  rw [events, limited whole]

/-- A run that reaches its limit raises the timer line once for every tick. -/
theorem runEvents_of_cycleLimit {p : Pacing τ} (going : p.stopped = false) {fuel : Nat}
    {m : Machine μ} (whole : (m.runAlong (p.answers fuel)).1 = .cycleLimit) :
    p.runEvents fuel m = (p.answers fuel).flatMap Event.cycle := by
  rw [runEvents, going, if_neg Bool.false_ne_true]
  exact cycleEvents_of_cycleLimit whole

/-- The events of a run are its cycles. -/
theorem runEvents_eq {p q : Pacing τ} (going : p.stopped = false) {fuel : Nat}
    {m last : Machine μ} {e : RunEnd} (ended : p.run? fuel m = some (e, q, last)) :
    ∃ ran ≤ p.limit.getD fuel,
      p.runEvents fuel m =
        (answersFrom p.cyclePeriod ran (TickSource.reset p.ticks)).flatMap Event.cycle ∧
      (e = .cycleLimit → ran = p.limit.getD fuel) := by
  unfold run? at ended
  rw [going, if_neg Bool.false_ne_true] at ended
  obtain ⟨-, ended⟩ := Option.ite_none_left_eq_some.1 ended
  cases ended
  rw [runEvents, going, if_neg Bool.false_ne_true]
  exact cycleEvents_eq _ _ _ _

theorem going_of_run? {p q : Pacing τ} {fuel : Nat} {m last : Machine μ} {e : RunEnd}
    (ended : p.run? fuel m = some (e, q, last)) (early : e ≠ .stopped) : p.stopped = false := by
  cases going : p.stopped with
  | true =>
    rw [run?_of_stopped going] at ended
    cases ended
    exact absurd rfl early
  | false => rfl

/-- A run changes nothing of its pacing but the tick source. -/
theorem run?_pacing {p q : Pacing τ} (going : p.stopped = false) {fuel : Nat}
    {m last : Machine μ} {e : RunEnd} (ended : p.run? fuel m = some (e, q, last)) :
    q = { p with
      ticks := (cycles p.cyclePeriod (p.limit.getD fuel) (TickSource.reset p.ticks) m).2.1 } := by
  unfold run? at ended
  rw [going, if_neg Bool.false_ne_true] at ended
  obtain ⟨-, ended⟩ := Option.ite_none_left_eq_some.1 ended
  cases ended
  rw [going]

end Pacing
end EightBit
