import EightBit.CommandReport
import EightBit.Proofs.TickSchedule

/-!
# The period of a limited run

The timer's period in cycles is the quotient of its microseconds by those of a cycle. The
microseconds are capped before the division, so the quotient is exact as long as the cap makes no
difference to it. The ticks of a limited run keep to that period.
-/
namespace EightBit

namespace Pacing

section

variable {σ τ : Type} [TickSource σ] [TickSource τ]

theorem answersFrom_inl (cyclePeriod n : Nat) (ticks : σ) :
    answersFrom cyclePeriod n (.inl ticks : σ ⊕ τ) = answersFrom cyclePeriod n ticks := by
  induction n generalizing ticks with
  | zero => rfl
  | succ n ih => exact congrArg (List.cons _) (ih _)

theorem answersFrom_inr (cyclePeriod n : Nat) (ticks : τ) :
    answersFrom cyclePeriod n (.inr ticks : σ ⊕ τ) = answersFrom cyclePeriod n ticks := by
  induction n generalizing ticks with
  | zero => rfl
  | succ n ih => exact congrArg (List.cons _) (ih _)

end

end Pacing

namespace RunOptions

/-- The quotient in unbounded numbers, at least one and capped like all periods. -/
def exactPeriod (timerMillis cycleMicros : Nat) : Nat :=
  max 1 (min largest (1000 * timerMillis / max 1 cycleMicros))

/-- A product of words that stops at the largest one. -/
def cappedMul (a b : UInt64) : UInt64 := UInt64.ofNat (min largest (a.toNat * b.toNat))

/-- The period computed on words. -/
def wordPeriod (timerMillis cycleMicros : UInt64) : UInt64 :=
  max (cappedMul timerMillis 1000 / max cycleMicros 1) 1

theorem toNat_cappedMul (a b : UInt64) :
    (cappedMul a b).toNat = min largest (a.toNat * b.toNat) := by
  rw [cappedMul, UInt64.toNat_ofNat', largest, UInt64.size]
  omega

theorem toNat_max (a b : UInt64) : (max a b).toNat = max a.toNat b.toNat := by
  change (if a ≤ b then b else a).toNat = _
  by_cases h : a ≤ b
  · rw [if_pos h, Nat.max_eq_right (UInt64.le_iff_toNat_le.1 h)]
  · have larger : b.toNat ≤ a.toNat := Nat.le_of_not_le fun le => h (UInt64.le_iff_toNat_le.2 le)
    rw [if_neg h, Nat.max_eq_left larger]

theorem toNat_wordPeriod (timerMillis cycleMicros : UInt64) :
    (wordPeriod timerMillis cycleMicros).toNat =
      tickPeriod timerMillis.toNat cycleMicros.toNat := by
  rw [wordPeriod, toNat_max, UInt64.toNat_div, toNat_max, toNat_cappedMul, Nat.max_comm]
  rfl

/-- Capping a number before or after a division. -/
theorem max_one_min_div_iff {cap n d : Nat} (pos : 0 < d) (le : d ≤ cap) :
    max 1 (min cap n / d) = max 1 (min cap (n / d)) ↔ n ≤ cap ∨ d = 1 ∨ n / d = cap / d := by
  have least : 1 ≤ cap / d := (Nat.one_le_div_iff pos).2 le
  by_cases small : n ≤ cap
  · have quotient : n / d ≤ cap := Nat.le_trans (Nat.div_le_self n d) small
    rw [Nat.min_eq_right small, Nat.min_eq_right quotient]
    exact iff_of_true rfl (.inl small)
  · have more : cap / d ≤ n / d := Nat.div_le_div_right (Nat.le_of_not_le small)
    rw [Nat.min_eq_left (Nat.le_of_not_le small)]
    rcases Nat.eq_or_lt_of_le pos with one | two
    · subst one
      simp
      omega
    · have less : cap / d < cap := Nat.div_lt_self (Nat.lt_of_lt_of_le pos le) two
      omega

theorem answersFrom_ticks (cyclePeriod ran : Nat) {o : RunOptions} {n : Nat}
    (timer : o.timer = true) (limit : o.limit = some n) :
    Pacing.answersFrom cyclePeriod ran (TickSource.reset o.ticks) =
      PeriodicTicks.schedule (tickPeriod o.timerMillis o.cycleMicros) ran := by
  have start : (PeriodicTicks.every (tickPeriod o.timerMillis o.cycleMicros)).InStep 0 :=
    PeriodicTicks.inStep_reset (t := .every _) (tickPeriod_pos _ _)
  have ticks : TickSource.reset o.ticks =
      .inr (.inl (.every (tickPeriod o.timerMillis o.cycleMicros))) := by
    rw [RunOptions.ticks, timer, limit]
    rfl
  rw [ticks, Pacing.answersFrom_inr, Pacing.answersFrom_inl]
  exact PeriodicTicks.answersFrom_of_inStep _ _ start

/-- The period that the options ask for, computed on words without a panic, is the exact quotient
unless the cap makes a difference to it, and a limited run requests the timer line before those of
its cycles whose number is a multiple of the period. -/
theorem period_exact_iff_uncapped {μ : Type} [Memory μ] (timerMillis cycleMicros : UInt64) :
    let t := timerMillis.toNat
    let c := cycleMicros.toNat
    let period := tickPeriod t c
    (period = exactPeriod t c ↔
      1000 * t ≤ largest ∨ max 1 c = 1 ∨ 1000 * t / max 1 c = largest / max 1 c) ∧
    period = (wordPeriod timerMillis cycleMicros).toNat ∧
    0 < max 1 c ∧ PeriodicTicks.every? period = some (.every period) ∧
    ∀ (n fuel : Nat) (m : Machine μ),
      let p := (⟨c, t, true, some n⟩ : RunOptions).pacing
      ∃ e q last ran, p.run? fuel m = some (e, q, last) ∧
        p.runEvents fuel m =
          (List.range' 1 ran).flatMap (fun k => Event.cycle (decide (period ∣ k))) ∧
        m.after (p.runEvents fuel m) = last ∧ ran ≤ n ∧ (e = .cycleLimit → ran = n) := by
  intro t c period
  have divisor : max 1 c ≤ largest := by
    have word := cycleMicros.toNat_lt
    simp only [c, largest, UInt64.size]
    omega
  refine ⟨?_, (toNat_wordPeriod _ _).symm, Nat.le_max_left 1 c, every?_tickPeriod t c, ?_⟩
  · have forms : period = max 1 (min largest (1000 * t) / max 1 c) := by
      rw [Nat.mul_comm, Nat.max_comm 1 c]
      rfl
    rw [forms]
    exact max_one_min_div_iff (Nat.le_max_left 1 c) divisor
  · intro n fuel m p
    obtain ⟨⟨e, q, last⟩, ended⟩ :=
      Option.isSome_iff_exists.1 (Pacing.run?_isSome_of_limit (p := p) rfl fuel m)
    obtain ⟨ran, le, events, whole⟩ := Pacing.runEvents_eq rfl ended
    have scheduled : p.runEvents fuel m =
        (List.range' 1 ran).flatMap fun k => Event.cycle (decide (period ∣ k)) := by
      have ticks : p.ticks = (⟨c, t, true, some n⟩ : RunOptions).ticks := rfl
      rw [events, ticks, answersFrom_ticks _ _ rfl rfl, PeriodicTicks.schedule, List.flatMap_map]
    exact ⟨e, q, last, ran, ended, scheduled, Pacing.after_runEvents ended, le, whole⟩

/-- One period is capped and still exact. The other one is three cycles of a run of seven. -/
theorem period_exact_beyond_cap :
    largest < 1000 * 18446744073709552 ∧
      tickPeriod 18446744073709552 1000000 = exactPeriod 18446744073709552 1000000 ∧
      ∃ q last, (⟨1000, 3, true, some 7⟩ : RunOptions).pacing.run? 0 Pacing.spinning =
          some (.cycleLimit, q, last) ∧
        (⟨1000, 3, true, some 7⟩ : RunOptions).pacing.runEvents 0 Pacing.spinning =
          [.step, .step, .raise 0, .step, .step, .step, .raise 0, .step, .step] := by
  obtain ⟨exact_iff, -⟩ := period_exact_iff_uncapped (μ := PlainMemory) 18446744073709552 1000000
  obtain ⟨-, -, -, -, runs⟩ := period_exact_iff_uncapped (μ := PlainMemory) 3 1000
  obtain ⟨e, q, last, ran, ended, events, -, -, whole⟩ := runs 7 0 Pacing.spinning
  have limited : ((⟨1000, 3, true, some 7⟩ : RunOptions).pacing.run? 0 Pacing.spinning).map
      Prod.fst = some .cycleLimit := by decide
  have same : e = .cycleLimit := Option.some.inj ((congrArg _ ended).symm.trans limited)
  subst same
  rw [whole rfl] at events
  exact ⟨by decide, exact_iff.2 (.inr (.inr (by decide))), q, last, ended, events⟩

/-- Loads the interrupt mask with the timer's line and halts. -/
def unmaskText : List UInt8 := Utf8.encode "00000100\n00000101\n00000001\n00011011\n".toList

/-- A timer period that takes a thousand cycles comes out as one, so the handler is entered where
the program would have halted. -/
theorem capped_period_is_one :
    exactPeriod largest largest = 1000 ∧ tickPeriod largest largest = 1 ∧
      Report.ofRun? 0 ⟨largest, largest, true, some 3⟩ (some unmaskText) =
        some ⟨0, "", "emu_cli: stopped (CycleLimit) after 3 cycles\n"⟩ ∧
      Report.ofRun? 0 ⟨1000, 1000, true, some 3⟩ (some unmaskText) = some ⟨0, "", ""⟩ := by
  decide

end RunOptions
end EightBit
