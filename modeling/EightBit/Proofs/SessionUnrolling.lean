import EightBit.Proofs.EventRun

/-!
# Sessions one cycle at a time

A run is made of single steps, and a paced run also of the requests that its ticks make before
them. Unrolled, a session holds these steps and requests in place of its runs and leads to the same
machine. A run that is not over when its fuel is spent contributes the cycles that it has gone
through, and nothing follows it.
-/
namespace EightBit

/-- Whether the action can take the machine through several cycles. -/
def Action.isRun {τ : Type} : Action τ → Bool
  | .runAtMost _ => true
  | .run _ => true
  | .runPaced _ => true
  | _ => false

namespace Machine

variable {μ : Type} [Memory μ]

/-- The steps of a run of at most `n` of them. -/
def runEvents : Nat → Machine μ → List Event
  | 0, _ => []
  | n + 1, m => .step :: if m.step.1.isFinal then [] else runEvents n m.step.2

theorem after_runEvents (last : Outcome) (n : Nat) (m : Machine μ) :
    m.after (m.runEvents n) = (m.runFrom last n).2 := by
  induction n generalizing last m with
  | zero => rfl
  | succ n ih =>
    rw [runEvents, after_cons, undergo, runFrom_succ]
    by_cases final : m.step.1.isFinal = true
    · rw [if_pos final, if_pos final]
      rfl
    · rw [if_neg final, if_neg final]
      exact ih _ _

theorem after_runEvents_of_run? {fuel : Nat} {m : Machine μ} {last : Outcome × Machine μ}
    (ended : m.run? fuel = some last) : m.after (m.runEvents fuel) = last.2 := by
  obtain ⟨-, ended⟩ := Option.ite_none_right_eq_some.1 ended
  cases ended
  exact m.after_runEvents .executed fuel

end Machine

namespace Pacing

variable {μ τ : Type} [Memory μ] [TickSource τ]

def beatEvents (ticks : τ) : List Event :=
  if (TickSource.poll ticks).1 then [.raise 0, .step] else [.step]

def cycleEvents (cyclePeriod : Nat) : Nat → τ → Machine μ → List Event
  | 0, _, _ => []
  | n + 1, ticks, m =>
    let (outcome, polled, after) := beat ticks m
    beatEvents ticks ++
      match outcome.runEnd? with
      | some _ => []
      | none => cycleEvents cyclePeriod n (TickSource.elapse polled cyclePeriod) after

def runEvents (fuel : Nat) (p : Pacing τ) (m : Machine μ) : List Event :=
  if p.stopped then []
  else cycleEvents p.cyclePeriod (p.limit.getD fuel) (TickSource.reset p.ticks) m

theorem after_beatEvents (ticks : τ) (m : Machine μ) :
    m.after (beatEvents ticks) = (beat ticks m).2.2 := by
  cases fired : (TickSource.poll ticks).1 <;> simp [beatEvents, beat, fired] <;> rfl

theorem after_cycleEvents (cyclePeriod n : Nat) (ticks : τ) (m : Machine μ) :
    m.after (cycleEvents cyclePeriod n ticks m) = (cycles cyclePeriod n ticks m).2.2 := by
  induction n generalizing ticks m with
  | zero => rfl
  | succ n ih =>
    rw [cycleEvents, cycles, Machine.after_append, after_beatEvents]
    cases ended : (beat ticks m).1.runEnd? with
    | some e => simp only [ended]; rfl
    | none => simp only [ended]; exact ih _ _

theorem after_runEvents {fuel : Nat} {p q : Pacing τ} {m last : Machine μ} {e : RunEnd}
    (ended : p.run? fuel m = some (e, q, last)) : m.after (p.runEvents fuel m) = last := by
  unfold runEvents
  unfold run? at ended
  by_cases stopped : p.stopped = true
  · rw [if_pos stopped] at ended ⊢
    cases ended
    rfl
  · rw [if_neg stopped] at ended ⊢
    obtain ⟨-, ended⟩ := Option.ite_none_left_eq_some.1 ended
    rw [after_cycleEvents]
    cases ended
    rfl

end Pacing

namespace Session

section

variable {μ τ : Type} [Memory μ]

theorem machine_load_congr {s other : Session μ τ} (same : s.machine = other.machine)
    (image : List UInt8) (start : UInt8) (fits : Reply) :
    (s.load image start fits).2.machine = (other.load image start fits).2.machine := by
  unfold load
  rw [← same]
  split
  · rfl
  · exact same

theorem machine_load_frame (s : Session μ τ) (image : List UInt8) (start : UInt8)
    (fits : Reply) :
    (s.load image start fits).2.machine =
      { s.machine with memory := (s.load image start fits).2.machine.memory } := by
  unfold load
  split
  · next m loaded =>
    obtain ⟨-, rfl⟩ := Machine.load_eq_ok_iff.1 loaded
    rfl
  · rfl

end

variable {μ τ : Type} [Memory μ] [TickSource τ]

def machineAfter (s : Session μ τ) (actions : List (Action τ)) : Machine μ :=
  (s.performAll actions).2.machine

/-- The single actions that an action comes to. -/
def moves (s : Session μ τ) : Action τ → List (Action τ)
  | .runAtMost n => (s.machine.runEvents n).map Event.action
  | .run fuel => (s.machine.runEvents fuel).map Event.action
  | .runPaced fuel => (s.pacing.elim [] (·.runEvents fuel s.machine)).map Event.action
  | action => [action]

/-- Whether the action is a run that is not over when its fuel is spent. -/
def breaksOff (s : Session μ τ) (action : Action τ) : Bool :=
  (s.perform action).1 = .nothing && !(s.moves action).isEmpty

def unrolled (s : Session μ τ) : List (Action τ) → List (Action τ)
  | [] => []
  | action :: rest =>
    s.moves action ++ if s.breaksOff action then [] else (s.perform action).2.unrolled rest

theorem machineAfter_concat (s : Session μ τ) (actions : List (Action τ)) (action : Action τ) :
    s.machineAfter (actions ++ [action]) = ((s.performAll actions).2.perform action).2.machine := by
  rw [machineAfter, performAll_append]
  rfl

theorem machineAfter_events (s : Session μ τ) (events : List Event) :
    s.machineAfter (events.map Event.action) = s.machine.after events := by
  rw [machineAfter, performAll_events]
  rfl

/-- Single actions do not depend on the pacing. -/
theorem machine_perform_congr {s other : Session μ τ} (same : s.machine = other.machine)
    {action : Action τ} (single : action.isRun = false) :
    (s.perform action).2.machine = (other.perform action).2.machine := by
  cases action with
  | load image start => exact machine_load_congr same image start .done
  | loadText text start =>
    simp only [perform]
    split
    · exact machine_load_congr same _ _ _
    · exact same
  | runAtMost n => cases single
  | run fuel => cases single
  | runPaced fuel => cases single
  | _ => simp only [perform, withMachine, same]

theorem machineAfter_congr {s other : Session μ τ} (same : s.machine = other.machine)
    {actions : List (Action τ)} (single : ∀ action ∈ actions, action.isRun = false) :
    s.machineAfter actions = other.machineAfter actions := by
  induction actions generalizing s other with
  | nil => exact same
  | cons action rest ih =>
    apply ih
    · exact machine_perform_congr same (single action List.mem_cons_self)
    · intro later member
      exact single later (List.mem_cons_of_mem _ member)

theorem mem_moves {s : Session μ τ} {action move : Action τ} (h : move ∈ s.moves action) :
    (move = action ∧ action.isRun = false) ∨ ∃ e : Event, move = e.action := by
  cases action with
  | runAtMost n =>
    obtain ⟨e, -, rfl⟩ := List.mem_map.1 h
    exact .inr ⟨e, rfl⟩
  | run fuel =>
    obtain ⟨e, -, rfl⟩ := List.mem_map.1 h
    exact .inr ⟨e, rfl⟩
  | runPaced fuel =>
    obtain ⟨e, -, rfl⟩ := List.mem_map.1 h
    exact .inr ⟨e, rfl⟩
  | _ => exact .inl ⟨List.mem_singleton.1 h, rfl⟩

/-- What is unrolled are single actions of the session, steps and requests. -/
theorem mem_unrolled {s : Session μ τ} {actions : List (Action τ)} {move : Action τ}
    (h : move ∈ s.unrolled actions) :
    (move ∈ actions ∧ move.isRun = false) ∨ ∃ e : Event, move = e.action := by
  induction actions generalizing s with
  | nil => cases h
  | cons action rest ih =>
    rcases List.mem_append.1 h with here | later
    · rcases mem_moves here with ⟨rfl, single⟩ | event
      · exact .inl ⟨List.mem_cons_self, single⟩
      · exact .inr event
    · by_cases broken : s.breaksOff action = true
      · rw [if_pos broken] at later
        cases later
      · rw [if_neg broken] at later
        rcases ih later with ⟨member, single⟩ | event
        · exact .inl ⟨List.mem_cons_of_mem _ member, single⟩
        · exact .inr event

theorem isRun_of_mem_unrolled {s : Session μ τ} {actions : List (Action τ)} {move : Action τ}
    (h : move ∈ s.unrolled actions) : move.isRun = false := by
  rcases mem_unrolled h with ⟨-, single⟩ | ⟨e, rfl⟩
  · exact single
  · cases e <;> rfl

theorem machineAfter_moves {s : Session μ τ} {action : Action τ}
    (ended : (s.perform action).1 ≠ .nothing) :
    s.machineAfter (s.moves action) = (s.perform action).2.machine := by
  cases action with
  | runAtMost n =>
    rw [moves, machineAfter_events]
    exact s.machine.after_runEvents .executed n
  | run fuel =>
    rw [moves, machineAfter_events]
    rw [perform] at ended ⊢
    cases result : s.machine.run? fuel with
    | none => simp [result] at ended
    | some last => exact Machine.after_runEvents_of_run? result
  | runPaced fuel =>
    rw [moves, machineAfter_events]
    rw [perform] at ended ⊢
    cases pacing : s.pacing with
    | none => simp [pacing] at ended
    | some p =>
      cases result : p.run? fuel s.machine with
      | none => simp [pacing, result] at ended
      | some last =>
        simp only [Option.bind_some, result]
        exact Pacing.after_runEvents result
  | _ => rfl

theorem machineAfter_unrolled (s : Session μ τ) {actions : List (Action τ)}
    (ended : .nothing ∉ (s.performAll actions).1) :
    s.machineAfter (s.unrolled actions) = s.machineAfter actions := by
  induction actions generalizing s with
  | nil => rfl
  | cons action rest ih =>
    have first : (s.perform action).1 ≠ .nothing := fun none => ended (none ▸ List.mem_cons_self)
    have others : .nothing ∉ ((s.perform action).2.performAll rest).1 :=
      fun member => ended (List.mem_cons_of_mem _ member)
    have whole : s.breaksOff action = false := by simp [breaksOff, first]
    have onward : s.machineAfter (s.moves action ++ (s.perform action).2.unrolled rest) =
        (s.perform action).2.machineAfter ((s.perform action).2.unrolled rest) := by
      rw [machineAfter, performAll_append]
      apply machineAfter_congr (machineAfter_moves first)
      intro move member
      exact isRun_of_mem_unrolled member
    rw [unrolled, whole]
    exact onward.trans (ih _ others)

end Session
end EightBit
