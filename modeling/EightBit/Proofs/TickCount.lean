import EightBit.Proofs.TickSchedule
import Mathlib.Data.List.DropRight

/-!
# Polls and resets in any order

A periodic source is due at a poll when the polls since it was made or last reset, this one
included, are a multiple of its period. The invariant is that of a schedule, and a reset starts the
schedule again. A poll therefore never counts down from zero, so counting in words gives the same
answers although the decrement of a word wraps.
-/
namespace EightBit

inductive TickCall
  | poll
  | reset
  deriving DecidableEq, Repr

namespace TickCall

/-- The polls at the end of the calls: those after the last reset, or all of them. -/
def pollsSinceReset (calls : List TickCall) : Nat := (calls.rtakeWhile (· = poll)).length

theorem pollsSinceReset_poll (calls : List TickCall) :
    pollsSinceReset (calls ++ [poll]) = pollsSinceReset calls + 1 := by
  simp [pollsSinceReset]

theorem pollsSinceReset_reset (calls : List TickCall) :
    pollsSinceReset (calls ++ [reset]) = 0 := by
  simp [pollsSinceReset]

end TickCall

namespace TickSource

variable {τ : Type} [TickSource τ]

def call (source : τ) : TickCall → τ
  | .poll => (poll source).2
  | .reset => reset source

/-- The source as the calls leave it, the first one made first. -/
def after (source : τ) (calls : List TickCall) : τ := calls.foldl call source

theorem after_concat (source : τ) (calls : List TickCall) (c : TickCall) :
    after source (calls ++ [c]) = call (after source calls) c := by
  simp [after]

end TickSource

namespace PeriodicTicks

/-- After any calls the source is in step with the polls since its last reset. -/
theorem inStep_after {period : Nat} (pos : 0 < period) (calls : List TickCall) :
    (TickSource.after (every period) calls).period = period ∧
      (TickSource.after (every period) calls).InStep (TickCall.pollsSinceReset calls) := by
  induction calls using List.reverseRecOn with
  | nil => exact ⟨rfl, inStep_reset (t := every period) pos⟩
  | append_singleton calls c ih =>
    obtain ⟨same, inStep⟩ := ih
    rw [TickSource.after_concat]
    cases c with
    | poll =>
      rw [TickCall.pollsSinceReset_poll]
      exact ⟨(period_poll _).trans same, inStep.poll.2⟩
    | reset =>
      rw [TickCall.pollsSinceReset_reset]
      have still : 0 < (TickSource.after (every period) calls).period := by rwa [same]
      exact ⟨same, inStep_reset still⟩

/-- After any calls the answers to more polls are due at the multiples of the period, counted from
the last reset. -/
theorem pollMany_after {period : Nat} (pos : 0 < period) (calls : List TickCall) (n : Nat) :
    (TickSource.pollMany n (TickSource.after (every period) calls)).1 =
      (List.range' (TickCall.pollsSinceReset calls + 1) n).map fun k => decide (period ∣ k) := by
  obtain ⟨same, inStep⟩ := inStep_after pos calls
  rw [pollMany_eq_answersFrom 0, answersFrom_of_inStep 0 n inStep, same]

end PeriodicTicks

/-- Periodic ticks that are counted in words. The decrement is not guarded: from zero it goes to
the largest word. -/
structure WordTicks where
  period : UInt64
  remaining : UInt64
  deriving DecidableEq, Repr

namespace WordTicks

def every (period : UInt64) : WordTicks := ⟨period, period⟩

def count (t : WordTicks) : Bool × WordTicks :=
  let left := t.remaining - 1
  if left = 0 then (true, { t with remaining := t.period }) else (false, { t with remaining := left })

instance : TickSource WordTicks where
  poll := count
  reset t := { t with remaining := t.period }
  elapse t _ := t

def toPeriodic (t : WordTicks) : PeriodicTicks := ⟨t.period.toNat, t.remaining.toNat⟩

theorem toPeriodic_poll {t : WordTicks} (pos : 0 < t.toPeriodic.remaining) :
    TickSource.poll t.toPeriodic =
      ((TickSource.poll t).1, (TickSource.poll t).2.toPeriodic) := by
  have some_left : 1 ≤ t.remaining := UInt64.le_iff_toNat_le.2 pos
  have left : (t.remaining - 1).toNat = t.remaining.toNat - 1 :=
    UInt64.toNat_sub_of_le _ _ some_left
  have last : t.remaining - 1 = 0 ↔ t.remaining.toNat - 1 = 0 := by
    rw [← left, ← UInt64.toNat_inj]
    rfl
  change PeriodicTicks.count t.toPeriodic = ((count t).1, (count t).2.toPeriodic)
  unfold PeriodicTicks.count count
  by_cases fires : t.remaining - 1 = 0
  · simp [toPeriodic, fires, last.1 fires]
  · simp [toPeriodic, fires, mt last.2 fires, left]

theorem toPeriodic_after {period : UInt64} (pos : 0 < period.toNat) (calls : List TickCall) :
    (TickSource.after (every period) calls).toPeriodic =
      TickSource.after (PeriodicTicks.every period.toNat) calls := by
  induction calls using List.reverseRecOn with
  | nil => rfl
  | append_singleton calls c ih =>
    rw [TickSource.after_concat, TickSource.after_concat, ← ih]
    cases c with
    | poll =>
      have counting := (PeriodicTicks.inStep_after pos calls).2.pos
      rw [← ih] at counting
      exact (congrArg Prod.snd (toPeriodic_poll counting)).symm
    | reset => rfl

end WordTicks

namespace PeriodicTicks

/-- A new source of any period counts exactly, whatever calls it has had. It has between one and a
period of polls left, and the next poll is due when it ends a whole number of periods since the last
reset. On words the counts and answers are the same. -/
theorem ticks_count_exactly {period : Nat} (pos : 1 ≤ period) (calls : List TickCall) :
    ∃ fresh, every? period = some fresh ∧
      let t := TickSource.after fresh calls
      1 ≤ t.remaining ∧ t.remaining ≤ period ∧
      ((TickSource.poll t).1 = true ↔ period ∣ TickCall.pollsSinceReset (calls ++ [.poll])) ∧
      ∀ word : UInt64, word.toNat = period →
        let w := TickSource.after (WordTicks.every word) calls
        w.toPeriodic = t ∧ (TickSource.poll w).1 = (TickSource.poll t).1 := by
  obtain ⟨same, inStep⟩ := inStep_after pos calls
  have within := inStep.le
  rw [same] at within
  refine ⟨every period, if_neg (Nat.ne_of_gt pos), inStep.pos, within, ?_, ?_⟩
  · rw [inStep.poll.1, same, TickCall.pollsSinceReset_poll, decide_eq_true_eq]
  · rintro word rfl
    have counts := WordTicks.toPeriodic_after pos calls
    refine ⟨counts, ?_⟩
    rw [← counts] at inStep ⊢
    rw [WordTicks.toPeriodic_poll inStep.pos]

/-- A tick, one poll, a reset and two polls: the next poll is the third one after the reset. -/
def interrupted : List TickCall := [.poll, .poll, .poll, .poll, .reset, .poll, .poll]

theorem third_poll_after_reset_due :
    ∃ fresh, every? 3 = some fresh ∧
      (TickSource.poll (TickSource.after fresh interrupted)).1 = true ∧
      (TickSource.poll (TickSource.after (WordTicks.every 3) interrupted)).1 = true := by
  obtain ⟨fresh, new, -, -, due, words⟩ := ticks_count_exactly (by decide : 1 ≤ 3) interrupted
  have third := due.2 (by decide)
  exact ⟨fresh, new, third, (words 3 rfl).2.trans third⟩

end PeriodicTicks
end EightBit
