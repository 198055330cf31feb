import EightBit.Proofs.DriverAgreement
import EightBit.Proofs.Logbook

/-!
# Sessions that differ in their logbooks

Two sessions whose machines are alike and whose pacings are the same cannot be told apart by a host:
the same actions get the same replies, print the same bytes and lead to two such sessions again. In
particular the limit of a paced run counts the cycles of that run, whatever the machine has counted
before.
-/
namespace EightBit

namespace Machine

variable {μ : Type} [Memory μ]

/-- A run counts at most a cycle for each answer, and fewer than that only if the machine stops. -/
theorem exists_count_runAlong (m : Machine μ) (dues : List Bool) :
    ∃ ran ≤ dues.length, (m.runAlong dues).2.cycles = m.cycles + ran ∧
      (ran < dues.length → (m.runAlong dues).2.status ≠ .running) := by
  induction dues generalizing m with
  | nil => exact ⟨0, Nat.le_refl 0, rfl, nofun⟩
  | cons due later ih =>
    have counted := cycles_step (m.polled due)
    rw [(m.unlogged_polled due).cycles] at counted
    cases told : (m.polled due).step.1.runEnd? with
    | some e =>
      have stopped := stopped_of_final_step (Outcome.isFinal_of_runEnd? told)
      rw [runAlong_cons_of_some told]
      refine ⟨_, ?_, counted, fun _ => stopped⟩
      split <;> simp
    | none =>
      have running := running_of_onward (Outcome.runEnd?_eq_none_iff.1 told)
      rw [if_pos running] at counted
      obtain ⟨ran, le, rest, short⟩ := ih (m.polled due).step.2
      rw [runAlong_cons_of_none told, List.length_cons]
      exact ⟨ran + 1, by omega, by omega, fun less => short (by omega)⟩

end Machine

namespace Pacing

variable {μ τ : Type} [Memory μ] [TickSource τ]

/-- A limited run ends, and its limit is met by the cycles that the run itself has counted. -/
theorem exists_count_run? {p : Pacing τ} {n : Nat} (limit : p.limit = some n) (fuel : Nat)
    (m : Machine μ) :
    ∃ e q last ran, p.run? fuel m = some (e, q, last) ∧ ran ≤ n ∧ last.cycles = m.cycles + ran ∧
      (e = .cycleLimit → ran = n) ∧
      (ran < n → p.stopped = true ∨ last.status ≠ .running) := by
  cases going : p.stopped with
  | true => exact ⟨_, _, _, 0, run?_of_stopped going fuel m, Nat.zero_le n, rfl, nofun, by simp⟩
  | false =>
    have bounded : p.limit ≠ none := by simp [limit]
    have length : (p.answers fuel).length = n := by rw [length_answers, limit]; rfl
    obtain ⟨q, ended⟩ := (run?_eq_some_iff going).2
      ⟨(rfl : m.runAlong (p.answers fuel) = _), fun _ => bounded⟩
    obtain ⟨ran, le, counted, short⟩ := m.exists_count_runAlong (p.answers fuel)
    rw [length] at le short
    refine ⟨_, q, _, ran, ended, le, counted, ?_, fun less => .inr (short less)⟩
    intro limited
    have whole := Machine.cycles_runAlong limited
    omega

end Pacing

namespace Session

section

variable {μ τ : Type}

/-- Two sessions have gone on side by side, and a host that takes what they print cannot tell them
apart either. -/
structure SameWay (s t after otherAfter : Session μ τ) : Prop
    extends Machine.Abreast s.machine t.machine after.machine otherAfter.machine where
  paced : otherAfter.pacing = after.pacing
  consoles : t.machine.console = s.machine.console →
    otherAfter.machine.console = after.machine.console

theorem SameWay.of_machines {s t after otherAfter : Session μ τ}
    (way : s.machine.SameWay t.machine after.machine otherAfter.machine)
    (paced : otherAfter.pacing = after.pacing) : SameWay s t after otherAfter where
  toAbreast := way.toAbreast
  paced := paced
  consoles := by
    obtain ⟨bytes, here, there⟩ := way.printed
    intro same
    rw [here, there, same]

theorem SameWay.trans {s t mid otherMid after otherAfter : Session μ τ}
    (first : SameWay s t mid otherMid) (second : SameWay mid otherMid after otherAfter) :
    SameWay s t after otherAfter where
  toAbreast := first.toAbreast.trans second.toAbreast
  paced := second.paced
  consoles := fun same => second.consoles (first.consoles same)

end

variable {μ τ : Type} [Memory μ]

/-- An image fits into both machines or into neither. -/
theorem load_of_alike {s t : Session μ τ} (alike : s.machine.Alike t.machine)
    (paced : t.pacing = s.pacing) (image : List UInt8) (start : UInt8) (fits : Reply) :
    (t.load image start fits).1 = (s.load image start fits).1 ∧
      s.machine.SameWay t.machine (s.load image start fits).2.machine
        (t.load image start fits).2.machine ∧
      (t.load image start fits).2.pacing = (s.load image start fits).2.pacing := by
  by_cases large : Memory.size < start.toNat + image.length
  · have refused (m : Machine μ) : m.load image start = .error ⟨image.length, start⟩ :=
      Machine.load_eq_error_iff.2 ⟨large, rfl⟩
    simp only [load, refused]
    exact ⟨trivial, alike.sameWay, paced⟩
  · have written (m : Machine μ) : m.load image start = .ok { m with
        memory := Memory.writeAll m.memory (Memory.placed start image) } :=
      Machine.load_eq_ok_iff.2 ⟨Nat.not_lt.1 large, rfl⟩
    simp only [load, written]
    refine ⟨trivial, .of_unlogged ?_ ⟨rfl, rfl, rfl⟩ ⟨rfl, rfl, rfl⟩, paced⟩
    exact { alike with memory := congrArg (Memory.writeAll · _) alike.memory }

variable [TickSource τ]

/-- The bytes that an action adds to the console. -/
def printedBy (s : Session μ τ) (action : Action τ) : List UInt8 :=
  (s.perform action).2.machine.console.pending.drop s.machine.console.pending.length

/-- The bytes that the actions add to the console, one by one. -/
def printed (s : Session μ τ) : List (Action τ) → List (List UInt8)
  | [] => []
  | action :: rest => s.printedBy action :: (s.perform action).2.printed rest

theorem printedBy_of_write {s : Session μ τ} {action : Action τ} {bytes : List UInt8}
    (wrote : (s.perform action).2.machine.console = s.machine.console.write bytes) :
    s.printedBy action = bytes := by
  rw [printedBy, wrote, Console.pending_write, List.drop_left]

/-- One action on two such sessions. -/
theorem perform_of_alike {s t : Session μ τ} (alike : s.machine.Alike t.machine)
    (paced : t.pacing = s.pacing) {action : Action τ} (unset : ∀ v, action ≠ .setOverflow v)
    (untaken : action ≠ .takeOutput) :
    (t.perform action).1 = (s.perform action).1 ∧
      s.machine.SameWay t.machine (s.perform action).2.machine (t.perform action).2.machine ∧
      (t.perform action).2.pacing = (s.perform action).2.pacing := by
  cases action with
  | load image start => exact load_of_alike alike paced image start .done
  | loadText text start =>
    simp only [perform]
    split
    · exact load_of_alike alike paced _ _ _
    · exact ⟨rfl, alike.sameWay, paced⟩
  | step =>
    obtain ⟨answer, way⟩ := alike.step
    exact ⟨congrArg Reply.outcome answer, way, paced⟩
  | runAtMost n =>
    obtain ⟨answer, way⟩ := alike.runFrom .executed n
    exact ⟨congrArg Reply.outcome answer, way, paced⟩
  | run fuel =>
    simp only [perform]
    rcases alike.run? fuel with ⟨here, there⟩ | ⟨o, last, otherLast, here, there, way⟩
    · simp only [here, there]
      exact ⟨trivial, alike.sameWay, paced⟩
    · simp only [here, there]
      exact ⟨trivial, way, paced⟩
  | raise number =>
    exact ⟨rfl, .of_unlogged (alike.raise number) (s.machine.unlogged_raise number)
      (t.machine.unlogged_raise number), paced⟩
  | setReg r v =>
    exact ⟨rfl, .of_unlogged (alike.setReg r v) ⟨rfl, rfl, rfl⟩ ⟨rfl, rfl, rfl⟩, paced⟩
  | poke a v =>
    refine ⟨rfl, .of_unlogged ?_ ⟨rfl, rfl, rfl⟩ ⟨rfl, rfl, rfl⟩, paced⟩
    exact { alike with memory := congrArg (Memory.write · a v) alike.memory }
  | setPc v =>
    refine ⟨rfl, .of_unlogged ?_ ⟨rfl, rfl, rfl⟩ ⟨rfl, rfl, rfl⟩, paced⟩
    exact { alike with pc := rfl }
  | setIr v =>
    refine ⟨rfl, .of_unlogged ?_ ⟨rfl, rfl, rfl⟩ ⟨rfl, rfl, rfl⟩, paced⟩
    exact { alike with }
  | setInterruptsEnabled now =>
    refine ⟨rfl, .of_unlogged ?_ ⟨rfl, rfl, rfl⟩ ⟨rfl, rfl, rfl⟩, paced⟩
    exact { alike with interruptsEnabled := rfl }
  | setOverflow overflow => exact absurd rfl (unset overflow)
  | countCycle =>
    exact ⟨rfl, ⟨⟨{ alike with }, ⟨1, rfl, rfl⟩, rfl, rfl⟩, ⟨[], rfl, rfl⟩⟩, paced⟩
  | takeOutput => exact absurd rfl untaken
  | pace p => exact ⟨rfl, alike.sameWay, rfl⟩
  | unpace => exact ⟨rfl, alike.sameWay, rfl⟩
  | limitRuns limit => exact ⟨rfl, alike.sameWay, by simp only [perform, paced]⟩
  | stopRuns stopped => exact ⟨rfl, alike.sameWay, by simp only [perform, paced]⟩
  | runPaced fuel =>
    simp only [perform, paced]
    cases pacing : s.pacing with
    | none => exact ⟨rfl, alike.sameWay, paced⟩
    | some p =>
      rcases p.run?_of_alike alike fuel with ⟨here, there⟩ | ⟨e, q, last, otherLast, here, there, way⟩
      · simp only [Option.bind_some, here, there]
        exact ⟨trivial, alike.sameWay, paced⟩
      · simp only [Option.bind_some, here, there]
        exact ⟨trivial, way, trivial⟩

/-- What is taken is the same when the consoles are, and then it leaves both of them empty. -/
theorem perform_takeOutput_of_alike {s t : Session μ τ} (alike : s.machine.Alike t.machine)
    (paced : t.pacing = s.pacing) (consoles : t.machine.console = s.machine.console) :
    (t.perform .takeOutput).1 = (s.perform .takeOutput).1 ∧
      SameWay s t (s.perform .takeOutput).2 (t.perform .takeOutput).2 := by
  constructor
  · exact congrArg (fun console => Reply.output console.pending) consoles
  · exact ⟨⟨{ alike with }, ⟨0, rfl, rfl⟩, rfl, rfl⟩, paced, fun _ => rfl⟩

theorem printedBy_takeOutput (s : Session μ τ) : s.printedBy .takeOutput = [] := by
  simp [printedBy, perform, Console.take, Console.pending_empty, withMachine]

theorem sameWay_perform {s t : Session μ τ} (alike : s.machine.Alike t.machine)
    (paced : t.pacing = s.pacing) {action : Action τ} (unset : ∀ v, action ≠ .setOverflow v)
    (consoles : action = .takeOutput → t.machine.console = s.machine.console) :
    (t.perform action).1 = (s.perform action).1 ∧ t.printedBy action = s.printedBy action ∧
      SameWay s t (s.perform action).2 (t.perform action).2 := by
  by_cases taking : action = .takeOutput
  · subst taking
    obtain ⟨reply, way⟩ := perform_takeOutput_of_alike alike paced (consoles rfl)
    exact ⟨reply, by rw [printedBy_takeOutput, printedBy_takeOutput], way⟩
  · obtain ⟨reply, way, left⟩ := perform_of_alike alike paced unset taking
    obtain ⟨bytes, here, there⟩ := way.printed
    exact ⟨reply, by rw [printedBy_of_write here, printedBy_of_write there], .of_machines way left⟩

theorem sameWay_performAll {s t : Session μ τ} (alike : s.machine.Alike t.machine)
    (paced : t.pacing = s.pacing) {actions : List (Action τ)}
    (unset : ∀ v, .setOverflow v ∉ actions)
    (consoles : .takeOutput ∈ actions → t.machine.console = s.machine.console) :
    (t.performAll actions).1 = (s.performAll actions).1 ∧ t.printed actions = s.printed actions ∧
      SameWay s t (s.performAll actions).2 (t.performAll actions).2 := by
  induction actions generalizing s t with
  | nil => exact ⟨rfl, rfl, .of_machines alike.sameWay paced⟩
  | cons action rest ih =>
    obtain ⟨reply, bytes, way⟩ := sameWay_perform alike paced
      (fun v same => unset v (same ▸ List.mem_cons_self))
      (fun taking => consoles (taking ▸ List.mem_cons_self))
    obtain ⟨replies, more, onward⟩ := ih way.alike way.paced
      (fun v member => unset v (List.mem_cons_of_mem _ member))
      (fun member => way.consoles (consoles (List.mem_cons_of_mem _ member)))
    exact ⟨List.cons_eq_cons.2 ⟨reply, replies⟩, List.cons_eq_cons.2 ⟨bytes, more⟩,
      way.trans onward⟩

/-- The opcode fetched last, the overflow flag and the count of cycles decide nothing. Sessions that
agree on the rest get the same replies to the same actions, print the same bytes in each of them and
agree again; their overflow flags stay and their counts grow alike. A limit is met by the cycles of
its own run. -/
theorem logbook_decides_nothing {s t : Session μ τ} (alike : s.machine.Alike t.machine)
    (paced : t.pacing = s.pacing) (actions : List (Action τ))
    (unset : ∀ v, .setOverflow v ∉ actions)
    (consoles : .takeOutput ∈ actions → t.machine.console = s.machine.console) :
    let after := (s.performAll actions).2
    let otherAfter := (t.performAll actions).2
    (t.performAll actions).1 = (s.performAll actions).1 ∧
    t.printed actions = s.printed actions ∧
    after.machine.Alike otherAfter.machine ∧ otherAfter.pacing = after.pacing ∧
    after.machine.overflow = s.machine.overflow ∧
    otherAfter.machine.overflow = t.machine.overflow ∧
    (∃ n, after.machine.cycles = s.machine.cycles + n ∧
      otherAfter.machine.cycles = t.machine.cycles + n) ∧
    ∀ (p : Pacing τ) (n fuel : Nat) (m : Machine μ), p.limit = some n →
      ∃ e q last ran, p.run? fuel m = some (e, q, last) ∧ ran ≤ n ∧
        last.cycles = m.cycles + ran ∧ (e = .cycleLimit → ran = n) ∧
        (ran < n → p.stopped = true ∨ last.status ≠ .running) := by
  intro after otherAfter
  obtain ⟨replies, bytes, way⟩ := sameWay_performAll alike paced unset consoles
  refine ⟨replies, bytes, way.alike, way.paced, way.overflow.1, way.overflow.2, way.counted, ?_⟩
  intro p n fuel m limit
  exact Pacing.exists_count_run? limit fuel m

/-- A machine that has been running for long. -/
def worn : Machine PlainMemory :=
  (Machine.initial PlainMemory.zero).withLogbook ⟨0xff, true, 1000, Console.empty.write [0x2a]⟩

/-- The program prints a zero and jumps back, with a tick before every third cycle of a run of
seven. -/
def shift : List (Action PeriodicTicks) :=
  [.load [0x06, 0x00, 0x11, 0x01] 0, .poke 0xf8 0x20, .poke 0x20 0x1a, .setReg .mask 0x01,
    .pace ⟨.every 3, 0, some 7, false⟩, .runPaced 0, .raise 9, .setPc 0, .step, .runAtMost 2]

theorem worn_machine_works_alike :
    let t : Session PlainMemory PeriodicTicks := ⟨worn, none⟩
    worn.cycles = 1000 ∧
    (t.performAll shift).1 = [.done, .done, .done, .done, .done, .ended .cycleLimit, .done, .done,
      .outcome .executed, .outcome .executed] ∧
    t.printed shift = [[], [], [], [], [], [0x30, 0x0a, 0x30, 0x0a], [], [], [0x30, 0x0a],
      [0x30, 0x0a]] ∧
    (t.performAll shift).2.machine.cycles = 1010 ∧ (t.performAll shift).2.machine.overflow = true ∧
    ∃ e q last ran, (⟨.every 3, 0, some 7, false⟩ : Pacing PeriodicTicks).run? 0 worn =
        some (e, q, last) ∧ ran ≤ 7 ∧ last.cycles = 1000 + ran ∧ (e = .cycleLimit → ran = 7) := by
  intro t
  let s : Session PlainMemory PeriodicTicks := .start PlainMemory.zero
  have alike : s.machine.Alike t.machine := Machine.alike_withLogbook _ _
  obtain ⟨replies, bytes, -, -, -, overflow, ⟨n, here, there⟩, limited⟩ :=
    logbook_decides_nothing alike rfl shift (by decide) (fun taking => absurd taking (by decide))
  have counted : (s.performAll shift).2.machine.cycles = 10 := by decide +kernel
  have total : (t.performAll shift).2.machine.cycles = 1010 := by
    rw [counted] at here
    have start : s.machine.cycles = 0 := rfl
    have service : t.machine.cycles = 1000 := rfl
    omega
  obtain ⟨e, q, last, ran, ended, le, cycles, whole, -⟩ :=
    limited ⟨.every 3, 0, some 7, false⟩ 7 0 worn rfl
  exact ⟨rfl, replies.trans (by decide +kernel), bytes.trans (by decide +kernel), total,
    overflow, e, q, last, ran, ended, le, cycles, whole⟩

end Session
end EightBit
