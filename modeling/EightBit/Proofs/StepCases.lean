import EightBit.MachineCycle

/-!
# What the next step does

The next step of a running machine enters a handler, executes one instruction or traps. Each case
fixes the outcome and the machine after it.
-/
namespace EightBit

theorem Status.outcome_ne_entered (s : Status) (line : Line) : s.outcome ≠ .entered line := by
  cases s <;> simp [outcome]

/-- The register that an instruction computes a value for, loads or pops. -/
def Instruction.destination? : Instruction → Option Register
  | .unary .pop a => some a
  | .binary .add a _ => some a
  | .binary .mul a _ => some a
  | .immediate .ldi a _ => some a
  | _ => none

/-- The registers that an instruction may change. -/
def Instruction.changed : Instruction → List Register
  | .nullary .ret => [.r7]
  | .nullary .iret => Register.all
  | .unary .push _ => [.r7]
  | .unary .pop a => [a, .r7]
  | .unary .call _ => [.r7]
  | .binary .mul a _ => [a]
  | .binary .add a _ => [a]
  | .immediate .ldi a _ => [a]
  | _ => []

/-- Only a return changes more than the stack pointer and its destination. -/
theorem Instruction.not_mem_changed {i : Instruction} (stays : i ≠ .nullary .iret) {r : Register}
    (pointer : r ≠ .stackPointer) (kept : i.destination? ≠ some r) : r ∉ i.changed := by
  cases i with
  | nullary op => cases op <;> simp_all [changed]
  | unary op a => cases op <;> simp_all [changed, destination?, eq_comm]
  | binary op a b => cases op <;> simp_all [changed, destination?, eq_comm]
  | immediate op a value => cases op; simpa [changed, destination?, eq_comm] using kept

/-- The next instruction in memory is executed after all but a halt, the returns, calls and
jumps. -/
def Instruction.fallsThrough : Instruction → Bool
  | .nullary _ => false
  | .unary .call _ => false
  | .unary .jmp _ => false
  | _ => true

namespace Machine

section

variable {μ : Type}

structure Enters (m : Machine μ) (line : Line) : Prop where
  running : m.status = .running
  accepted : m.acceptable? = some line

theorem Enters.enabled {m : Machine μ} {line : Line} (h : m.Enters line) :
    m.interruptsEnabled = true :=
  (acceptable?_eq_some_iff.1 h.accepted).1

end

variable {μ : Type} [Memory μ]

structure Executes (m : Machine μ) (i : Instruction) : Prop where
  running : m.status = .running
  undisturbed : m.acceptable? = none
  decoded : m.nextInstruction = .ok i

structure Traps (m : Machine μ) (trap : Trap) : Prop where
  running : m.status = .running
  undisturbed : m.acceptable? = none
  undecodable : m.nextInstruction = .error trap

/-- The next step executes an instruction that computes, loads or pops a value into `r`. -/
def Overwrites (m : Machine μ) (r : Register) : Prop :=
  ∃ i, m.Executes i ∧ i.destination? = some r

/-- The instruction that the next step executes. -/
def upcoming? (m : Machine μ) : Option Instruction :=
  if m.status = .running ∧ m.acceptable? = none then m.nextInstruction.toOption else none

theorem upcoming?_eq_some_iff {m : Machine μ} {i : Instruction} :
    m.upcoming? = some i ↔ m.Executes i := by
  unfold upcoming?
  constructor
  · intro h
    split at h
    · next ready =>
      cases decoded : m.nextInstruction with
      | ok j =>
        rw [decoded] at h
        cases h
        exact ⟨ready.1, ready.2, decoded⟩
      | error trap =>
        rw [decoded] at h
        cases h
    · cases h
  · intro h
    rw [if_pos ⟨h.running, h.undisturbed⟩, h.decoded]
    rfl

instance (m : Machine μ) (i : Instruction) : Decidable (m.Executes i) :=
  decidable_of_iff _ upcoming?_eq_some_iff

instance (m : Machine μ) (r : Register) : Decidable (m.Overwrites r) :=
  decidable_of_iff (m.upcoming?.bind Instruction.destination? = some r) (by
    simp only [Option.bind_eq_some_iff, upcoming?_eq_some_iff, Overwrites])

def counted (m : Machine μ) : Machine μ := { m with cycles := m.cycles + 1 }

/-- The machine on which the next instruction acts. -/
def fetched (m : Machine μ) : Machine μ := { m.counted with ir := m.peek m.pc }

theorem step_cases (m : Machine μ) :
    m.status ≠ .running ∨ (∃ line, m.Enters line) ∨ (∃ i, m.Executes i) ∨
      ∃ trap, m.Traps trap := by
  by_cases running : m.status = .running
  · right
    cases accepted : m.acceptable? with
    | some line => exact .inl ⟨line, running, accepted⟩
    | none =>
      cases decoded : m.nextInstruction with
      | ok i => exact .inr (.inl ⟨i, running, accepted, decoded⟩)
      | error trap => exact .inr (.inr ⟨trap, running, accepted, decoded⟩)
  · exact .inl running

theorem step_of_running {m : Machine μ} (running : m.status = .running) :
    m.step = m.counted.cycle := by
  unfold step
  split
  · rfl
  · next stopped => exact absurd running stopped

theorem step_of_enters {m : Machine μ} {line : Line} (h : m.Enters line) :
    m.step = (.entered line, m.counted.enterHandler line) := by
  have accepted : m.counted.acceptable? = some line := h.accepted
  rw [step_of_running h.running, cycle, accepted]

theorem step_of_undisturbed {m : Machine μ} (running : m.status = .running)
    (undisturbed : m.acceptable? = none) :
    m.step = (m.counted.executeNext.status.outcome, m.counted.executeNext) := by
  have none : m.counted.acceptable? = none := undisturbed
  rw [step_of_running running, cycle, none]

theorem executeNext_of_ok {m fetched after : Machine μ}
    (fetches : fetched = { m with ir := m.peek m.pc })
    (executed : fetched.nextInstruction.bind fetched.execute = .ok after) :
    m.executeNext = after := by
  subst fetches
  unfold executeNext
  simp only [executed]

theorem executeNext_of_error {m fetched : Machine μ} {trap : Trap}
    (fetches : fetched = { m with ir := m.peek m.pc })
    (trapped : fetched.nextInstruction.bind fetched.execute = .error trap) :
    m.executeNext = fetched.fail trap := by
  subst fetches
  unfold executeNext
  simp only [trapped]

theorem step_of_executes {m after : Machine μ} {i : Instruction} (h : m.Executes i)
    (executed : m.fetched.execute i = .ok after) : m.step = (after.status.outcome, after) := by
  have decoded : m.fetched.nextInstruction = .ok i := h.decoded
  have next : m.counted.executeNext = after := by
    apply executeNext_of_ok (rfl : m.fetched = _)
    rw [decoded, Except.bind, executed]
  rw [step_of_undisturbed h.running h.undisturbed, next]

theorem step_of_traps {m : Machine μ} {trap : Trap} (h : m.Traps trap) :
    m.step = (.trapped trap, m.fetched.fail trap) := by
  have undecodable : m.fetched.nextInstruction = .error trap := h.undecodable
  have next : m.counted.executeNext = m.fetched.fail trap := by
    apply executeNext_of_error (rfl : m.fetched = _)
    rw [undecodable, Except.bind]
  rw [step_of_undisturbed h.running h.undisturbed, next]
  rfl

theorem Executes.unique {m : Machine μ} {i j : Instruction} (h : m.Executes i)
    (g : m.Executes j) : i = j := by
  have same := h.decoded.symm.trans g.decoded
  exact Except.ok.inj same

theorem Enters.not_executes {m : Machine μ} {line : Line} {i : Instruction} (h : m.Enters line) :
    ¬ m.Executes i := by
  intro g
  have none := g.undisturbed
  rw [h.accepted] at none
  cases none

theorem Enters.not_traps {m : Machine μ} {line : Line} {trap : Trap} (h : m.Enters line) :
    ¬ m.Traps trap := by
  intro g
  have none := g.undisturbed
  rw [h.accepted] at none
  cases none

theorem Traps.not_executes {m : Machine μ} {trap : Trap} {i : Instruction} (h : m.Traps trap) :
    ¬ m.Executes i := by
  intro g
  have decoded := g.decoded
  rw [h.undecodable] at decoded
  cases decoded

theorem enters_of_step {m : Machine μ} {line : Line} (h : m.step.1 = .entered line) :
    m.Enters line := by
  rcases m.step_cases with stopped | ⟨other, enters⟩ | ⟨i, executes⟩ | ⟨trap, traps⟩
  · rw [step_of_stopped stopped] at h
    exact absurd h (Status.outcome_ne_entered _ _)
  · rw [step_of_enters enters] at h
    cases h
    exact enters
  · obtain ⟨after, executed⟩ := m.fetched.execute_isOk i
    rw [step_of_executes executes executed] at h
    exact absurd h (Status.outcome_ne_entered _ _)
  · rw [step_of_traps traps] at h
    cases h

end Machine
end EightBit
