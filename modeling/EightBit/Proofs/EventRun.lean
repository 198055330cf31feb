import EightBit.HostSession
import EightBit.Proofs.StepCases

/-!
# Runs of events

A host that only steps a machine and raises lines makes it undergo a list of events. Conditions on
a run are stated for every step of it, by the events before that step.
-/
namespace EightBit

inductive Event
  | step
  | raise (number : UInt8)
  deriving DecidableEq, Repr

def Event.action {τ : Type} : Event → Action τ
  | step => .step
  | raise number => .raise number

/-- The property holds of the events before every step of a run. -/
def EachStep (p : List Event → Prop) (events : List Event) : Prop :=
  ∀ before, before ++ [.step] <+: events → p before

theorem eachStep_nil (p : List Event → Prop) : EachStep p [] := by
  intro before h
  exact absurd (List.prefix_nil.1 h) (by simp)

theorem eachStep_cons {p : List Event → Prop} {e : Event} {rest : List Event} :
    EachStep p (e :: rest) ↔
      (e = .step → p []) ∧ EachStep (fun before => p (e :: before)) rest := by
  constructor
  · intro h
    constructor
    · rintro rfl
      exact h [] (List.prefix_append [Event.step] rest)
    · intro before inside
      exact h (e :: before) (List.cons_prefix_cons.2 ⟨rfl, inside⟩)
  · rintro ⟨first, others⟩ before inside
    cases before with
    | nil => exact first (List.cons_prefix_cons.1 inside).1.symm
    | cons other before =>
      obtain ⟨rfl, deeper⟩ := List.cons_prefix_cons.1 inside
      exact others before deeper

theorem EachStep.of_prefix {p : List Event → Prop} {part events : List Event}
    (h : EachStep p events) (inside : part <+: events) : EachStep p part :=
  fun before step => h before (step.trans inside)

theorem EachStep.last {p : List Event → Prop} {events : List Event}
    (h : EachStep p (events ++ [.step])) : p events :=
  h events (List.prefix_refl _)

def decidableEachStep : (events : List Event) → (p : List Event → Prop) → [DecidablePred p] →
    Decidable (EachStep p events)
  | [], p, _ => .isTrue (eachStep_nil p)
  | e :: rest, p, _ =>
    have := decidableEachStep rest fun before => p (e :: before)
    decidable_of_iff _ eachStep_cons.symm

instance (events : List Event) (p : List Event → Prop) [DecidablePred p] :
    Decidable (EachStep p events) := decidableEachStep events p

namespace Machine

section

variable {μ : Type}

theorem raise_line (m : Machine μ) (line : Line) :
    m.raise (UInt8.ofNat line) = m.request line := by
  have number : Line.ofByte? (UInt8.ofNat line) = some line := by decide +revert
  rw [raise, number]

theorem raise_cases (m : Machine μ) (number : UInt8) :
    m.raise number = m ∨
      ∃ line : Line, number = UInt8.ofNat line ∧ m.raise number = m.request line := by
  unfold raise Line.ofByte?
  by_cases inside : number.toNat < 8
  · rw [dif_pos inside]
    exact .inr ⟨⟨number.toNat, inside⟩, by simp, rfl⟩
  · rw [dif_neg inside]
    exact .inl rfl

theorem raise_frame (m : Machine μ) (number : UInt8) :
    m.raise number = { m with registers := (m.raise number).registers } := by
  rcases m.raise_cases number with same | ⟨line, -, requested⟩
  · rw [same]
  · rw [requested]
    rfl

theorem reg_raise_of_ne (m : Machine μ) (number : UInt8) {r : Register} (h : r ≠ .requests) :
    (m.raise number).reg r = m.reg r := by
  rcases m.raise_cases number with same | ⟨line, -, requested⟩
  · rw [same]
  · rw [requested, reg_request, if_neg h.symm]

end

variable {μ : Type} [Memory μ]

def undergo (m : Machine μ) : Event → Machine μ
  | .step => m.step.2
  | .raise number => m.raise number

def reply (m : Machine μ) : Event → Reply
  | .step => .outcome m.step.1
  | .raise _ => .done

/-- The machine at the end of a run. -/
def after (m : Machine μ) (events : List Event) : Machine μ := events.foldl undergo m

def replies (m : Machine μ) : List Event → List Reply
  | [] => []
  | e :: rest => m.reply e :: (m.undergo e).replies rest

theorem after_cons (m : Machine μ) (e : Event) (rest : List Event) :
    m.after (e :: rest) = (m.undergo e).after rest := rfl

theorem after_append (m : Machine μ) (first second : List Event) :
    m.after (first ++ second) = (m.after first).after second := by
  simp [after]

theorem after_concat (m : Machine μ) (events : List Event) (e : Event) :
    m.after (events ++ [e]) = (m.after events).undergo e := by
  simp [after]

theorem replies_concat (m : Machine μ) (events : List Event) (e : Event) :
    m.replies (events ++ [e]) = m.replies events ++ [(m.after events).reply e] := by
  induction events generalizing m with
  | nil => rfl
  | cons first rest ih => simp [replies, ih, after_cons]

end Machine

/-- A run of events is a session of the host. -/
theorem Session.performAll_events {μ τ : Type} [Memory μ] [TickSource τ] (s : Session μ τ)
    (events : List Event) :
    s.performAll (events.map Event.action) =
      (s.machine.replies events, s.withMachine (s.machine.after events)) := by
  induction events generalizing s with
  | nil => rfl
  | cons e rest ih =>
    have first : s.perform e.action = (s.machine.reply e, s.withMachine (s.machine.undergo e)) := by
      cases e <;> rfl
    rw [List.map_cons, performAll, first]
    simp only [ih]
    rfl

end EightBit
