import EightBit.CommandReport
import EightBit.Proofs.PrintedText

/-!
# Runs with a raised limit

The limit of a run decides only where the run is cut off. With a higher one the polls are answered
alike as far as the lower one reaches, so the run goes through the same cycles first: it ends as
before if it was not cut off, and else goes on and prints after what it has printed already.
-/
namespace EightBit

namespace Machine

variable {μ : Type} [Memory μ]

theorem runAlong_not_stopped (m : Machine μ) (dues : List Bool) :
    (m.runAlong dues).1 ≠ .stopped := by
  induction dues generalizing m with
  | nil => simp [runAlong]
  | cons due later ih =>
    cases told : (m.polled due).step.1.runEnd? with
    | some e =>
      rw [runAlong_cons_of_some told]
      rintro rfl
      cases outcome : (m.polled due).step.1 <;> simp [outcome, Outcome.runEnd?] at told
    | none =>
      rw [runAlong_cons_of_none told]
      exact ih _

end Machine

namespace Pacing

variable {τ : Type} [TickSource τ]

theorem answersFrom_prefix (cyclePeriod : Nat) {n k : Nat} (le : n ≤ k) (ticks : τ) :
    answersFrom cyclePeriod n ticks <+: answersFrom cyclePeriod k ticks := by
  induction n generalizing k ticks with
  | zero => exact List.nil_prefix
  | succ n ih =>
    cases k with
    | zero => omega
    | succ k =>
      rw [answersFrom_succ, answersFrom_succ, List.cons_prefix_cons]
      exact ⟨rfl, ih (Nat.le_of_succ_le_succ le) _⟩

variable {μ : Type} [Memory μ]

/-- A limited run counts as many cycles as its limit allows, or ends in the same way under every
higher limit. -/
theorem run?_of_raised_limit {p : Pacing τ} (going : p.stopped = false) {n k : Nat} (le : n ≤ k)
    (fuel : Nat) (m : Machine μ) :
    ∃ e q last, { p with limit := some n }.run? fuel m = some (e, q, last) ∧ e ≠ .stopped ∧
      (e = .cycleLimit → last.cycles = m.cycles + n) ∧
      (∃ text, last.console = m.console.write (Utf8.encode text)) ∧
      ∃ e' q' last', { p with limit := some k }.run? fuel m = some (e', q', last') ∧
        (e ≠ .cycleLimit → e' = e ∧ last' = last) ∧
        ∃ text, last'.console = last.console.write (Utf8.encode text) := by
  let dues (limit : Nat) : List Bool := { p with limit := some limit }.answers fuel
  have ended (limit : Nat) : ∃ q, { p with limit := some limit }.run? fuel m =
      some ((m.runAlong (dues limit)).1, q, (m.runAlong (dues limit)).2) :=
    (run?_eq_some_iff (p := { p with limit := some limit }) going).2 ⟨rfl, fun _ => nofun⟩
  obtain ⟨q, short⟩ := ended n
  obtain ⟨q', long⟩ := ended k
  obtain ⟨later, more⟩ : dues n <+: dues k := answersFrom_prefix _ le _
  have onward : m.runAlong (dues k) =
      if (m.runAlong (dues n)).1 = .cycleLimit then (m.runAlong (dues n)).2.runAlong later
      else m.runAlong (dues n) := by
    rw [← more, Machine.runAlong_append]
  refine ⟨_, q, _, short, m.runAlong_not_stopped (dues n), ?_, m.exists_text_runAlong (dues n),
    _, q', _, long, ?_, ?_⟩
  · intro limited
    rw [Machine.cycles_runAlong limited, length_answers]
    rfl
  · intro uncut
    rw [onward, if_neg uncut]
    exact ⟨rfl, rfl⟩
  · rw [onward]
    split
    · exact Machine.exists_text_runAlong _ later
    · exact ⟨[], rfl⟩

end Pacing

namespace Report

theorem printed_of_text {m : Machine PlainMemory} {text : List Char}
    (wrote : m.console = Console.empty.write (Utf8.encode text)) :
    (printed m).toList = text := by
  rw [printed, String.toList_ofList, Console.takeText, wrote, Console.pending_write,
    Console.pending_empty, List.nil_append, Utf8.decodeLossy_encode]

theorem stdout_ofEnd (m : Machine PlainMemory) (e : RunEnd) : (ofEnd m e).stdout = printed m := by
  cases e <;> rfl

theorem ofEnd_cycleLimit (m : Machine PlainMemory) :
    ofEnd m .cycleLimit =
      ⟨0, printed m,
        "emu_cli: stopped (CycleLimit) after " ++ Nat.repr m.cycles ++ " cycles\n"⟩ := by
  have start : runName ++ ": stopped (" ++ "CycleLimit" ++ ") after " =
      "emu_cli: stopped (CycleLimit) after " := by decide
  rw [ofEnd, ofEnd.stop, start]

/-- Every program fits in memory. -/
theorem loaded_of_read {file : Option (List UInt8)} {program : ProgramImage}
    (read : ProgramImage.readFile file = .ok program) :
    loaded file = .ok { Machine.initial PlainMemory.zero with
      memory := Memory.writeAll PlainMemory.zero (Memory.placed 0 program.bytes) } := by
  have fits : (0 : UInt8).toNat + program.bytes.length ≤ Memory.size := by
    simpa using program.length_le
  rw [loaded, read]
  simp only [Machine.load_eq_ok_iff.2 ⟨fits, rfl⟩]
  rfl

theorem fresh_of_loaded {file : Option (List UInt8)} {m : Machine PlainMemory}
    (loads : loaded file = .ok m) : m.console = .empty ∧ m.cycles = 0 := by
  cases read : ProgramImage.readFile file with
  | error f => simp [loaded, read] at loads
  | ok program =>
    rw [loaded_of_read read] at loads
    cases loads
    exact ⟨rfl, rfl⟩

/-- Raising the limit only extends a run. What is printed under the lower limit is printed first
under the higher one. A run that was not cut off is not changed at all, and one that was reports as
many cycles as its limit. -/
theorem raised_limit_extends_run (options : RunOptions) (file : Option (List UInt8)) (fuel : Nat)
    {n k : Nat} (le : n ≤ k) :
    ∃ short long,
      ofRun? fuel { options with limit := some n } file = some short ∧
      ofRun? fuel { options with limit := some k } file = some long ∧
      short.stdout.toList <+: long.stdout.toList ∧
      (∀ f, loaded file = .error f → short = failure runName "" f ∧ long = short) ∧
      ∀ m, loaded file = .ok m → ∃ e q last,
        { options with limit := some n : RunOptions }.pacing.run? fuel m = some (e, q, last) ∧
        short = ofEnd last e ∧
        (e = .halted ∨ (∃ trap, e = .trapped trap) ∨ e = .cycleLimit) ∧
        (e = .halted ∨ (∃ trap, e = .trapped trap) → long = short) ∧
        (e = .cycleLimit → short.exitCode = 0 ∧
          short.stderr =
            "emu_cli: stopped (CycleLimit) after " ++ Nat.repr n ++ " cycles\n") := by
  cases loads : loaded file with
  | error f =>
    refine ⟨failure runName "" f, failure runName "" f, ?_, ?_, List.prefix_refl _, ?_, nofun⟩
    · simp [ofRun?, loads]
    · simp [ofRun?, loads]
    · rintro f' ⟨⟩
      exact ⟨rfl, rfl⟩
  | ok m =>
    obtain ⟨fresh, zero⟩ := fresh_of_loaded loads
    let p := { options with limit := some n : RunOptions }.pacing
    obtain ⟨e, q, last, short, going, counted, ⟨text, wrote⟩, e', q', last', long, same, more,
      wroteMore⟩ := Pacing.run?_of_raised_limit (p := p) rfl le fuel m
    have first : (printed last).toList = text := printed_of_text (fresh ▸ wrote)
    have second : (printed last').toList = text ++ more := by
      apply printed_of_text
      rw [wroteMore, wrote, fresh, Console.write_encode_write]
    refine ⟨ofEnd last e, ofEnd last' e', ?_, ?_, ?_, nofun, ?_⟩
    · simp only [ofRun?, loads]
      exact congrArg (Option.map fun result => ofEnd result.2.2 result.1) short
    · simp only [ofRun?, loads]
      exact congrArg (Option.map fun result => ofEnd result.2.2 result.1) long
    · rw [stdout_ofEnd, stdout_ofEnd, first, second]
      exact List.prefix_append text more
    · rintro m' ⟨⟩
      refine ⟨e, q, last, short, rfl, ?_, ?_, ?_⟩
      · cases e with
        | stopped => exact absurd rfl going
        | _ => simp
      · intro uncut
        obtain ⟨rfl, rfl⟩ := same (by rintro rfl; simp at uncut)
        rfl
      · rintro rfl
        rw [ofEnd_cycleLimit, counted rfl, zero, Nat.zero_add]
        exact ⟨rfl, rfl⟩

/-- Prints a zero and jumps back. -/
def loopText : List UInt8 := Utf8.encode "00000110\n00000000\n00010001\n00000001\n".toList

theorem printing_loop_goes_on :
    ofRun? 0 { RunOptions.default with limit := some 3 } (some loopText) =
      some ⟨0, "0\n0\n", "emu_cli: stopped (CycleLimit) after 3 cycles\n"⟩ ∧
    ∃ long, ofRun? 0 { RunOptions.default with limit := some 7 } (some loopText) = some long ∧
      "0\n0\n".toList <+: long.stdout.toList := by
  obtain ⟨short, long, low, high, front, -⟩ :=
    raised_limit_extends_run .default (some loopText) 0 (by decide : 3 ≤ 7)
  have cut : ofRun? 0 { RunOptions.default with limit := some 3 } (some loopText) =
      some ⟨0, "0\n0\n", "emu_cli: stopped (CycleLimit) after 3 cycles\n"⟩ := by decide
  refine ⟨cut, long, high, ?_⟩
  rw [low] at cut
  obtain rfl := Option.some.inj cut
  exact front

end Report
end EightBit
