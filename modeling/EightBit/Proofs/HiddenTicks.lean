import EightBit.Proofs.DriverAgreement
import EightBit.Proofs.UnnamedRegister

/-!
# Ticks that cannot be accepted

A tick that comes while interrupts are disabled or the timer line is masked leaves only its request
behind. As long as the program does not name the register of requests, it cannot tell. The run with
ticks is compared with the one without: before every cycle the two machines are alike but for the
request on the timer line, and a return makes them equal, as it reloads the requests from memory.
-/
namespace EightBit

theorem Instruction.mem_registers_of_destination? {i : Instruction} {r : Register}
    (h : i.destination? = some r) : r ∈ i.registers := by
  unfold destination? at h
  split at h <;> simp_all [registers]

namespace Machine

section

variable {μ : Type}

theorem SameButTimer.trans {m other third : Machine μ} (first : m.SameButTimer other)
    (second : other.SameButTimer third) : m.SameButTimer third where
  frame := by
    have frame := second.frame
    rw [first.frame] at frame
    exact frame
  registers := fun r h => (second.registers r h).trans (first.registers r h)
  lines := fun line h => (second.lines line h).trans (first.lines line h)

theorem SameButTimer.polled {m other : Machine μ} (same : m.SameButTimer other) (due : Bool) :
    m.SameButTimer (other.polled due) := by
  cases due with
  | true => exact same.trans other.sameButTimer_request
  | false => exact same

theorem SameButTimer.eq_setReg {m other : Machine μ} (same : m.SameButTimer other) :
    other = m.setReg .requests (other.reg .requests) := by
  have registers : other.registers = m.registers.write .requests (other.reg .requests) := by
    apply RegisterFile.ext_read
    intro r
    rw [RegisterFile.read_write]
    by_cases here : Register.requests = r
    · rw [if_pos here, ← here]
      rfl
    · rw [if_neg here]
      exact same.registers r (Ne.symm here)
  rw [setReg, ← registers]
  exact same.frame

theorem sameButTimer_setReg (m : Machine μ) {v : UInt8}
    (lines : ∀ line : Line, line ≠ .timer →
      LineSet.contains v line = LineSet.contains (m.reg .requests) line) :
    m.SameButTimer (m.setReg .requests v) where
  frame := rfl
  registers := fun _ other => m.reg_setReg_of_ne other.symm v
  lines := by
    intro line other
    rw [reg_setReg, if_pos rfl]
    exact lines line other

end

variable {μ : Type} [Memory μ]

/-- The next step cannot depend on the request on the timer line. -/
structure HidesTimer (m : Machine μ) : Prop where
  unaccepted : m.interruptsEnabled = false ∨ LineSet.contains (m.reg .mask) .timer = false
  undisturbed : ∀ line, m.step.1 ≠ .entered line
  unnamed : ∀ i, m.Executes i → .requests ∉ i.registers

instance (m : Machine μ) : Decidable m.HidesTimer :=
  decidable_of_iff
    ((m.interruptsEnabled = false ∨ LineSet.contains (m.reg .mask) .timer = false) ∧
      (∀ line, m.step.1 ≠ .entered line) ∧
      ∀ i ∈ m.upcoming?, .requests ∉ i.registers)
    ⟨fun ⟨unaccepted, undisturbed, unnamed⟩ =>
      ⟨unaccepted, undisturbed, fun i h => unnamed i (upcoming?_eq_some_iff.2 h)⟩,
    fun h => ⟨h.unaccepted, h.undisturbed, fun i next => h.unnamed i (upcoming?_eq_some_iff.1 next)⟩⟩

theorem SameButTimer.acceptable? {m other : Machine μ} (same : m.SameButTimer other)
    (hidden : m.HidesTimer) (undisturbed : m.acceptable? = none) : other.acceptable? = none := by
  have enabled : other.interruptsEnabled = m.interruptsEnabled := by rw [same.frame]
  have mask : other.reg .mask = m.reg .mask := same.registers .mask (by decide)
  rw [acceptable?_eq_none_iff] at undisturbed ⊢
  rw [enabled, mask]
  rcases undisturbed with disabled | clear
  · exact .inl disabled
  · rcases hidden.unaccepted with disabled | masked
    · exact .inl disabled
    · right
      rw [← clear]
      apply LineSet.ext_contains
      intro line
      rw [LineSet.contains_and, LineSet.contains_and]
      by_cases timer : line = .timer
      · rw [timer, masked, Bool.and_false, Bool.and_false]
      · rw [same.lines line timer]

/-- The step of a machine that hides the timer is the same with and without a request on its
line. -/
theorem step_sameButTimer {m other : Machine μ} (same : m.SameButTimer other)
    (hidden : m.HidesTimer) :
    other.step.1 = m.step.1 ∧ m.step.2.SameButTimer other.step.2 := by
  have accepts := same.acceptable? hidden
  obtain ⟨v, rfl⟩ : ∃ v, other = m.setReg .requests v := ⟨_, same.eq_setReg⟩
  have lines : ∀ line : Line, line ≠ .timer →
      LineSet.contains v line = LineSet.contains (m.reg .requests) line := by
    intro line h
    have alike := same.lines line h
    rw [reg_setReg, if_pos rfl] at alike
    exact alike
  rcases m.step_cases with stopped | ⟨line, enters⟩ | ⟨i, executes⟩ | ⟨trap, traps⟩
  · have still : (m.setReg .requests v).status ≠ .running := stopped
    rw [step_of_stopped stopped, step_of_stopped still]
    exact ⟨rfl, same⟩
  · exact absurd (congrArg Prod.fst (step_of_enters enters)) (hidden.undisturbed line)
  · have alike : (m.setReg .requests v).Executes i :=
      ⟨executes.running, accepts executes.undisturbed, executes.decoded⟩
    by_cases stays : i = .nullary .iret
    · subst stays
      have reloads : (m.setReg .requests v).fetched.leaveHandler = m.fetched.leaveHandler :=
        leaveHandler_setReg (by decide) v m.fetched
      rw [step_of_iret executes, step_of_iret alike, reloads]
      exact ⟨rfl, sameButTimer_refl _⟩
    · have unnamed := hidden.unnamed i executes
      have requests : m.step.2.reg .requests = m.reg .requests :=
        reg_of_executes executes stays (by decide)
          fun named => unnamed (Instruction.mem_registers_of_destination? named)
      obtain ⟨after, executed⟩ := m.fetched.execute_isOk i
      have moved : (m.setReg .requests v).fetched.execute i = .ok (after.setReg .requests v) := by
        have moved := execute_setReg (by decide) v m.fetched stays unnamed
        rw [executed] at moved
        exact moved
      rw [step_of_executes executes executed] at requests ⊢
      rw [step_of_executes alike moved]
      refine ⟨rfl, after.sameButTimer_setReg ?_⟩
      rw [requests]
      exact lines
  · have alike : (m.setReg .requests v).Traps trap :=
      ⟨traps.running, accepts traps.undisturbed, traps.undecodable⟩
    rw [step_of_traps traps, step_of_traps alike]
    exact ⟨rfl, (m.fetched.fail trap).sameButTimer_setReg lines⟩

/-- Along a run every step of which hides the timer, ticks leave no trace but their request. -/
theorem runAlong_sameButTimer {m other : Machine μ} (same : m.SameButTimer other)
    {dues : List Bool}
    (hidden : EachStep (fun before => (m.after before).HidesTimer) (m.runEvents dues.length)) :
    (other.runAlong dues).1 = (m.runAlong (List.replicate dues.length false)).1 ∧
      (m.runAlong (List.replicate dues.length false)).2.SameButTimer (other.runAlong dues).2 := by
  induction dues generalizing m other with
  | nil => exact ⟨rfl, same⟩
  | cons due later ih =>
    rw [List.length_cons, runEvents, eachStep_cons] at hidden
    obtain ⟨first, others⟩ := hidden
    obtain ⟨answer, alike⟩ := step_sameButTimer (same.polled due) (first rfl)
    rw [List.length_cons, List.replicate_succ]
    cases told : (m.polled false).step.1.runEnd? with
    | some e =>
      have heard : (other.polled due).step.1.runEnd? = some e := answer ▸ told
      rw [runAlong_cons_of_some told, runAlong_cons_of_some heard]
      exact ⟨rfl, alike⟩
    | none =>
      have heard : (other.polled due).step.1.runEnd? = none := answer ▸ told
      have onward : m.step.1.isFinal = false := Outcome.runEnd?_eq_none_iff.1 told
      rw [onward, if_neg Bool.false_ne_true] at others
      rw [runAlong_cons_of_none told, runAlong_cons_of_none heard]
      exact ih alike others

end Machine

namespace Pacing

variable {μ τ : Type} [Memory μ] [TickSource τ]

theorem cycleEvents_of_no_tick {cyclePeriod n : Nat} {ticks : τ}
    (idle : true ∉ answersFrom cyclePeriod n ticks) (m : Machine μ) :
    cycleEvents cyclePeriod n ticks m = m.runEvents n := by
  induction n generalizing ticks m with
  | zero => rfl
  | succ n ih =>
    rw [answersFrom_succ, List.mem_cons, not_or] at idle
    obtain ⟨first, later⟩ := idle
    have undue : (TickSource.poll ticks).1 = false := Bool.eq_false_iff.2 (Ne.symm first)
    rw [cycleEvents, beat_eq_polled, beatEvents, undue, Machine.runEvents]
    cases told : (m.polled false).step.1.runEnd? with
    | some e =>
      have final : m.step.1.isFinal = true := Outcome.isFinal_of_runEnd? told
      simp only [told, final]
      rfl
    | none =>
      have onward : m.step.1.isFinal = false := Outcome.runEnd?_eq_none_iff.1 told
      simp only [told, onward, ih later]
      rfl

theorem runEvents_of_quiet {p : Pacing τ} (going : p.stopped = false) (quiet : p.Quiet)
    (fuel : Nat) (m : Machine μ) : p.runEvents fuel m = m.runEvents (p.limit.getD fuel) := by
  rw [runEvents, going, if_neg Bool.false_ne_true]
  exact cycleEvents_of_no_tick (quiet _) m

/-- The pacing with its ticks turned off. -/
def silenced (p : Pacing τ) : Pacing Silence := p.map fun _ => ⟨⟩

/-- Ticks that cannot be accepted are invisible. If every step of the run without ticks hides the
timer, the run with them ends alike, and at most the request on the timer line tells them apart. -/
theorem hidden_ticks_invisible (p : Pacing τ) (m : Machine μ) (going : p.stopped = false)
    (fuel : Nat) {e : RunEnd} {q : Pacing Silence} {last : Machine μ}
    (ended : p.silenced.run? fuel m = some (e, q, last))
    (hidden : EachStep (fun before => (m.after before).HidesTimer)
      (p.silenced.runEvents fuel m)) :
    ∃ r other, p.run? fuel m = some (e, r, other) ∧ last.SameButTimer other := by
  have quiet := quiet_silence p.silenced
  have length : (p.answers fuel).length = p.silenced.limit.getD fuel := p.length_answers fuel
  obtain ⟨silent, bounded⟩ := (run?_eq_some_iff (p := p.silenced) going).1 ⟨q, ended⟩
  rw [answers_of_quiet quiet, ← length] at silent
  rw [runEvents_of_quiet (p := p.silenced) going quiet, ← length] at hidden
  obtain ⟨answer, alike⟩ := Machine.runAlong_sameButTimer m.sameButTimer_refl hidden
  rw [silent] at answer alike
  have paced : m.runAlong (p.answers fuel) = (e, (m.runAlong (p.answers fuel)).2) :=
    Prod.ext answer rfl
  obtain ⟨r, ended⟩ := (run?_eq_some_iff going).2 ⟨paced, bounded⟩
  exact ⟨r, _, ended, alike⟩

/-- A handler unmasks the timer line and returns, and the program halts with the line masked. -/
def unmasking : Machine PlainMemory :=
  let memory := Memory.writeAll .zero (Memory.placed 0x00 [0x04, 0x05, 0x01, 0x1a, 0x1b])
  { Machine.initial memory with interruptsEnabled := false }

/-- A tick is due before each cycle. -/
def busy : Pacing ScriptedTicks := ⟨⟨[true, true, true]⟩, 0, none, false⟩

theorem busy_ticks_invisible :
    ∃ q last r other, busy.silenced.run? 3 unmasking = some (.halted, q, last) ∧
      busy.run? 3 unmasking = some (.halted, r, other) ∧ last.SameButTimer other ∧
      last.reg .requests = 0x00 ∧ other.reg .requests = 0x01 := by
  have halts : (unmasking.runAlong [false, false, false]).1 = .halted := by decide
  have silent : unmasking.runAlong (busy.silenced.answers 3) =
      (.halted, (unmasking.runAlong [false, false, false]).2) := Prod.ext halts rfl
  obtain ⟨q, ended⟩ := (run?_eq_some_iff (p := busy.silenced) rfl).2 ⟨silent, nofun⟩
  have hidden : EachStep (fun before => (unmasking.after before).HidesTimer)
      (busy.silenced.runEvents 3 unmasking) := by decide
  obtain ⟨r, other, paced, alike⟩ := hidden_ticks_invisible busy unmasking rfl 3 ended hidden
  obtain ⟨along, -⟩ := (run?_eq_some_iff (p := busy) rfl).1 ⟨r, paced⟩
  have left : (unmasking.runAlong [true, true, true]).2.reg .requests = 0x01 := by decide
  have told : unmasking.runAlong [true, true, true] = (.halted, other) := along
  rw [told] at left
  exact ⟨q, _, r, other, ended, paced, alike, by decide, left⟩

end Pacing
end EightBit
