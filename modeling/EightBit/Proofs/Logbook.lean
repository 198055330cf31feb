import EightBit.Proofs.PrintedText

/-!
# The logbook of a machine

A machine keeps the opcode byte that it fetched last, an overflow flag, the number of its cycles and
what it printed, and it reads none of them again. Two machines that agree on everything else go the
same way through every step and every run: they answer alike, print the same bytes, count as many
cycles and agree afterwards.
-/
namespace EightBit

structure Logbook where
  ir : UInt8
  overflow : Bool
  cycles : Nat
  console : Console
  deriving DecidableEq, Repr

def Logbook.printing (log : Logbook) (text : List Char) : Logbook :=
  { log with console := log.console.write (Utf8.encode text) }

namespace Machine

section

variable {μ : Type}

def withLogbook (m : Machine μ) (log : Logbook) : Machine μ :=
  { m with ir := log.ir, overflow := log.overflow, cycles := log.cycles, console := log.console }

/-- Agreement on all that a machine acts on. -/
structure Alike (m other : Machine μ) : Prop where
  registers : other.registers = m.registers
  pc : other.pc = m.pc
  interruptsEnabled : other.interruptsEnabled = m.interruptsEnabled
  memory : other.memory = m.memory
  status : other.status = m.status

theorem alike_withLogbook (m : Machine μ) (log : Logbook) : m.Alike (m.withLogbook log) :=
  ⟨rfl, rfl, rfl, rfl, rfl⟩

theorem Alike.trans {m other third : Machine μ} (h : m.Alike other) (g : other.Alike third) :
    m.Alike third where
  registers := g.registers.trans h.registers
  pc := g.pc.trans h.pc
  interruptsEnabled := g.interruptsEnabled.trans h.interruptsEnabled
  memory := g.memory.trans h.memory
  status := g.status.trans h.status

/-- A machine whose output has been taken. -/
def taken (m : Machine μ) : Machine μ := { m with console := m.console.take.2 }

theorem alike_taken (m : Machine μ) : m.Alike m.taken := ⟨rfl, rfl, rfl, rfl, rfl⟩

theorem Alike.exists_withLogbook {m other : Machine μ} (h : m.Alike other) :
    ∃ log, other = m.withLogbook log := by
  obtain ⟨registers, pc, ir, enabled, overflow, cycles, memory, console, status⟩ := other
  obtain ⟨rfl, rfl, rfl, rfl, rfl⟩ := h
  exact ⟨⟨ir, overflow, cycles, console⟩, rfl⟩

theorem Alike.setReg {m other : Machine μ} (h : m.Alike other) (r : Register) (v : UInt8) :
    (m.setReg r v).Alike (other.setReg r v) := by
  obtain ⟨log, rfl⟩ := h.exists_withLogbook
  exact alike_withLogbook _ log

theorem Alike.raise {m other : Machine μ} (h : m.Alike other) (number : UInt8) :
    (m.raise number).Alike (other.raise number) := by
  obtain ⟨log, rfl⟩ := h.exists_withLogbook
  unfold Machine.raise
  split
  · exact alike_withLogbook _ log
  · exact alike_withLogbook _ log

theorem Alike.polled {m other : Machine μ} (h : m.Alike other) (due : Bool) :
    (m.polled due).Alike (other.polled due) := by
  obtain ⟨log, rfl⟩ := h.exists_withLogbook
  cases due <;> exact alike_withLogbook _ log

/-- Nothing has been printed or counted, and the overflow flag is as it was. -/
structure Unlogged (m after : Machine μ) : Prop where
  console : after.console = m.console
  cycles : after.cycles = m.cycles
  overflow : after.overflow = m.overflow

theorem unlogged_raise (m : Machine μ) (number : UInt8) : m.Unlogged (m.raise number) := by
  rw [raise_frame]
  exact ⟨rfl, rfl, rfl⟩

theorem unlogged_polled (m : Machine μ) (due : Bool) : m.Unlogged (m.polled due) := by
  rw [polled_frame]
  exact ⟨rfl, rfl, rfl⟩

/-- Two machines have gone on side by side: they agree, have counted as many cycles since and have
kept their overflow flags. -/
structure Abreast (m other after otherAfter : Machine μ) : Prop where
  alike : after.Alike otherAfter
  counted : ∃ n, after.cycles = m.cycles + n ∧ otherAfter.cycles = other.cycles + n
  overflow : after.overflow = m.overflow ∧ otherAfter.overflow = other.overflow

theorem Abreast.trans {m other mid otherMid after otherAfter : Machine μ}
    (first : Abreast m other mid otherMid) (second : Abreast mid otherMid after otherAfter) :
    Abreast m other after otherAfter where
  alike := second.alike
  counted := by
    obtain ⟨n, here, there⟩ := first.counted
    obtain ⟨k, later, laterThere⟩ := second.counted
    exact ⟨n + k, by omega, by omega⟩
  overflow :=
    ⟨second.overflow.1.trans first.overflow.1, second.overflow.2.trans first.overflow.2⟩

/-- They have also printed the same bytes. -/
structure SameWay (m other after otherAfter : Machine μ) : Prop
    extends Abreast m other after otherAfter where
  printed : ∃ bytes, after.console = m.console.write bytes ∧
    otherAfter.console = other.console.write bytes

theorem SameWay.of_unlogged {m other after otherAfter : Machine μ} (alike : after.Alike otherAfter)
    (first : m.Unlogged after) (second : other.Unlogged otherAfter) :
    SameWay m other after otherAfter where
  alike := alike
  counted := ⟨0, first.cycles, second.cycles⟩
  overflow := ⟨first.overflow, second.overflow⟩
  printed := ⟨[], first.console, second.console⟩

theorem Alike.sameWay {m other : Machine μ} (h : m.Alike other) : SameWay m other m other :=
  .of_unlogged h ⟨rfl, rfl, rfl⟩ ⟨rfl, rfl, rfl⟩

theorem SameWay.trans {m other mid otherMid after otherAfter : Machine μ}
    (first : SameWay m other mid otherMid) (second : SameWay mid otherMid after otherAfter) :
    SameWay m other after otherAfter where
  toAbreast := first.toAbreast.trans second.toAbreast
  printed := by
    obtain ⟨bytes, here, there⟩ := first.printed
    obtain ⟨more, later, laterThere⟩ := second.printed
    refine ⟨bytes ++ more, ?_, ?_⟩
    · rw [later, here, Console.write_write]
    · rw [laterThere, there, Console.write_write]

end

variable {μ : Type} [Memory μ]

theorem enterHandler_withLogbook (m : Machine μ) (log : Logbook) (line : Line) :
    (m.withLogbook log).enterHandler line = (m.enterHandler line).withLogbook log := by
  have pushed :
      ((m.withLogbook log).acknowledged line).pushAll (m.entryFrame line).reverse =
        ((m.acknowledged line).pushAll (m.entryFrame line).reverse).withLogbook log :=
    @List.foldl_hom _ _ _ (withLogbook · log) _ _ _ (m.acknowledged line) fun _ _ => rfl
  have frame : (m.withLogbook log).entryFrame line = m.entryFrame line := rfl
  rw [enterHandler_eq, enterHandler_eq, frame, pushed]
  rfl

theorem resumed_withLogbook (m : Machine μ) (log : Logbook) :
    (m.withLogbook log).resumed = m.resumed.withLogbook log := rfl

theorem leaveHandler_withLogbook (m : Machine μ) (log : Logbook) :
    (m.withLogbook log).leaveHandler = m.leaveHandler.withLogbook log := by
  have reloaded : (m.withLogbook log).reloaded = m.reloaded.withLogbook log :=
    @List.foldl_hom _ _ _ (withLogbook · log) _ _ _ m.pop.2 fun _ _ => rfl
  rw [leaveHandler_eq, leaveHandler_eq, reloaded, resumed_withLogbook]

/-- An instruction writes what it prints into the logbook, and nothing else. -/
theorem execute_withLogbook (m : Machine μ) (log : Logbook) (i : Instruction) :
    (m.withLogbook log).execute i =
      (m.execute i).map (·.withLogbook (log.printing (m.textOf i))) := by
  cases i with
  | nullary op =>
    cases op with
    | ret => rfl
    | iret =>
      simp only [execute, executeNullary, leaveHandler_withLogbook]
      rfl
    | hlt => rfl
  | unary op a => cases op <;> rfl
  | binary op a b => cases op <;> rfl
  | immediate op a value => cases op; rfl

theorem overflow_step (m : Machine μ) : m.step.2.overflow = m.overflow := by
  rcases m.step_cases with stopped | ⟨line, enters⟩ | ⟨i, executes⟩ | ⟨trap, traps⟩
  · rw [step_of_stopped stopped]
  · rw [step_of_enters enters, enterHandler_frame]
    rfl
  · rw [frame_of_executes executes]
    rfl
  · rw [step_of_traps traps]
    rfl

/-- No step depends on the logbook. -/
theorem exists_step_withLogbook (m : Machine μ) (log : Logbook) :
    ∃ after, (m.withLogbook log).step = (m.step.1, m.step.2.withLogbook after) := by
  have counted : (m.withLogbook log).counted =
      m.counted.withLogbook { log with cycles := log.cycles + 1 } := rfl
  have fetched : (m.withLogbook log).fetched =
      m.fetched.withLogbook { log with ir := m.peek m.pc, cycles := log.cycles + 1 } := rfl
  rcases m.step_cases with stopped | ⟨line, enters⟩ | ⟨i, executes⟩ | ⟨trap, traps⟩
  · have still : (m.withLogbook log).status ≠ .running := stopped
    rw [step_of_stopped stopped, step_of_stopped still]
    exact ⟨log, rfl⟩
  · have alike : (m.withLogbook log).Enters line := ⟨enters.running, enters.accepted⟩
    rw [step_of_enters enters, step_of_enters alike, counted, enterHandler_withLogbook]
    exact ⟨_, rfl⟩
  · have alike : (m.withLogbook log).Executes i :=
      ⟨executes.running, executes.undisturbed, executes.decoded⟩
    obtain ⟨after, executed⟩ := m.fetched.execute_isOk i
    have logged := execute_withLogbook m.fetched
      { log with ir := m.peek m.pc, cycles := log.cycles + 1 } i
    rw [executed, ← fetched] at logged
    rw [step_of_executes executes executed, step_of_executes alike logged]
    exact ⟨_, rfl⟩
  · have alike : (m.withLogbook log).Traps trap :=
      ⟨traps.running, traps.undisturbed, traps.undecodable⟩
    rw [step_of_traps traps, step_of_traps alike, fetched]
    exact ⟨{ log with ir := m.peek m.pc, cycles := log.cycles + 1 }, rfl⟩

/-- Machines that are alike answer a step alike and stay alike. -/
theorem Alike.step {m other : Machine μ} (h : m.Alike other) :
    other.step.1 = m.step.1 ∧ SameWay m other m.step.2 other.step.2 := by
  obtain ⟨log, rfl⟩ := h.exists_withLogbook
  obtain ⟨after, same⟩ := m.exists_step_withLogbook log
  have text : (m.withLogbook log).nextText = m.nextText := rfl
  refine ⟨by rw [same], ⟨?_, ?_, m.overflow_step, overflow_step _⟩, ?_⟩
  · rw [same]
    exact alike_withLogbook _ after
  · exact ⟨_, m.cycles_step, cycles_step (m.withLogbook log)⟩
  · exact ⟨_, m.console_step, text ▸ console_step _⟩

theorem Alike.runFrom {m other : Machine μ} (h : m.Alike other) (last : Outcome) (n : Nat) :
    (other.runFrom last n).1 = (m.runFrom last n).1 ∧
      SameWay m other (m.runFrom last n).2 (other.runFrom last n).2 := by
  induction n generalizing last m other with
  | zero => exact ⟨rfl, h.sameWay⟩
  | succ n ih =>
    obtain ⟨answer, way⟩ := h.step
    rw [runFrom_succ, runFrom_succ, answer]
    by_cases final : m.step.1.isFinal = true
    · rw [if_pos final, if_pos final]
      exact ⟨answer, way⟩
    · rw [if_neg final, if_neg final]
      obtain ⟨later, onward⟩ := ih way.alike m.step.1
      exact ⟨later, way.trans onward⟩

/-- A trace in which the output is taken before each step tells how the run ends, and the pieces
taken from it are the output of the run. -/
theorem Alike.trace_taken {m other : Machine μ} (h : m.Alike other) (fresh : other.console = .empty)
    (last : Outcome) (n : Nat) :
    ((other.trace taken n).map Prod.fst).getLast?.getD last = (m.runFrom last n).1 ∧
      (m.runFrom last n).2.console.pending =
        m.console.pending ++ (other.trace taken n).flatMap (·.2.console.pending) := by
  induction n generalizing last m other with
  | zero => exact ⟨rfl, (List.append_nil _).symm⟩
  | succ n ih =>
    obtain ⟨answer, way⟩ := h.step
    obtain ⟨bytes, here, there⟩ := way.printed
    have piece : other.step.2.console.pending = bytes := by
      rw [there, fresh, Console.pending_write, Console.pending_empty, List.nil_append]
    rw [runFrom_succ, trace]
    simp only [answer, List.map_cons, List.flatMap_cons, piece]
    by_cases final : m.step.1.isFinal = true
    · simp [final, here, Console.pending_write]
    · obtain ⟨ends, printed⟩ := ih (way.alike.trans (alike_taken _)) rfl m.step.1
      rw [if_neg final, if_neg final, List.getLast?_cons, ends, printed, here,
        Console.pending_write, List.append_assoc]
      exact ⟨rfl, rfl⟩

/-- Either both runs end within the fuel, and alike, or neither does. -/
theorem Alike.run? {m other : Machine μ} (h : m.Alike other) (fuel : Nat) :
    (m.run? fuel = none ∧ other.run? fuel = none) ∨
      ∃ o last otherLast, m.run? fuel = some (o, last) ∧ other.run? fuel = some (o, otherLast) ∧
        SameWay m other last otherLast := by
  obtain ⟨answer, way⟩ := h.runFrom .executed fuel
  cases final : (m.runFrom .executed fuel).1.isFinal with
  | true =>
    simp only [Machine.run?, runAtMost, answer, final, if_true]
    exact .inr ⟨_, _, _, rfl, rfl, way⟩
  | false => exact .inl (by simp [Machine.run?, runAtMost, answer, final])

end Machine

namespace Pacing

variable {μ τ : Type} [Memory μ] [TickSource τ]

theorem cycles_of_alike {m other : Machine μ} (h : m.Alike other) (cyclePeriod n : Nat)
    (ticks : τ) :
    (cycles cyclePeriod n ticks other).1 = (cycles cyclePeriod n ticks m).1 ∧
      (cycles cyclePeriod n ticks other).2.1 = (cycles cyclePeriod n ticks m).2.1 ∧
      m.SameWay other (cycles cyclePeriod n ticks m).2.2 (cycles cyclePeriod n ticks other).2.2 := by
  induction n generalizing ticks m other with
  | zero => exact ⟨rfl, rfl, h.sameWay⟩
  | succ n ih =>
    have polled := h.polled (TickSource.poll ticks).1
    obtain ⟨answer, way⟩ := polled.step
    have cycle := (Machine.SameWay.of_unlogged polled (m.unlogged_polled _)
      (other.unlogged_polled _)).trans way
    cases told : (m.polled (TickSource.poll ticks).1).step.1.runEnd? with
    | some e =>
      rw [cycles_succ_of_some told, cycles_succ_of_some (answer ▸ told)]
      exact ⟨rfl, rfl, cycle⟩
    | none =>
      rw [cycles_succ_of_none told, cycles_succ_of_none (answer ▸ told)]
      obtain ⟨same, left, onward⟩ := ih cycle.alike _
      exact ⟨same, left, cycle.trans onward⟩

/-- The same pacing takes machines that are alike to the same end and is left the same. -/
theorem run?_of_alike {m other : Machine μ} (h : m.Alike other) (p : Pacing τ) (fuel : Nat) :
    (p.run? fuel m = none ∧ p.run? fuel other = none) ∨
      ∃ e q last otherLast, p.run? fuel m = some (e, q, last) ∧
        p.run? fuel other = some (e, q, otherLast) ∧ m.SameWay other last otherLast := by
  cases going : p.stopped with
  | true =>
    rw [run?_of_stopped going, run?_of_stopped going]
    exact .inr ⟨_, _, _, _, rfl, rfl, h.sameWay⟩
  | false =>
    obtain ⟨answer, left, way⟩ :=
      cycles_of_alike h p.cyclePeriod (p.limit.getD fuel) (TickSource.reset p.ticks)
    by_cases endless : (cycles p.cyclePeriod (p.limit.getD fuel) (TickSource.reset p.ticks) m).1 =
        .cycleLimit ∧ p.limit = none
    · left
      simp only [run?, going, Bool.false_eq_true, if_false, answer, if_pos endless, and_self]
    · simp only [run?, going, Bool.false_eq_true, if_false, answer, left, if_neg endless]
      exact .inr ⟨_, _, _, _, rfl, rfl, way⟩

end Pacing
end EightBit
