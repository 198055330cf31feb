import EightBit.Proofs.PolledRun

/-!
# Schedule of periodic ticks

A run resets its tick source first, so what a periodic source has counted before makes no
difference: its ticks are due before the cycles of the run whose number is a multiple of the
period. The invariant of a run is that the polls left until the next tick end at such a multiple.
-/
namespace EightBit

namespace PeriodicTicks

/-- For the cycles 1, 2, …, `n` of a run, whether the number of the cycle is a multiple of the
period. -/
def schedule (period n : Nat) : List Bool :=
  (List.range' 1 n).map fun k => decide (period ∣ k)

theorem schedule_succ (period n : Nat) :
    schedule period (n + 1) = schedule period n ++ [decide (period ∣ n + 1)] := by
  rw [schedule, List.range'_1_concat, List.map_append, Nat.add_comm 1 n]
  rfl

/-- After a whole number of periods the schedule starts again. -/
theorem schedule_add {period a : Nat} (whole : period ∣ a) (b : Nat) :
    schedule period (a + b) = schedule period a ++ schedule period b := by
  induction b with
  | zero => exact (List.append_nil _).symm
  | succ b ih =>
    have again : (period ∣ a + (b + 1)) ↔ period ∣ b + 1 := Nat.dvd_add_right whole
    rw [schedule_succ, ← List.append_assoc, ← ih, ← Nat.add_assoc, schedule_succ, Nat.add_assoc]
    simp only [again]

theorem count_schedule (period n : Nat) : (schedule period n).count true = n / period := by
  induction n with
  | zero => rw [Nat.zero_div]; rfl
  | succ n ih =>
    rw [schedule_succ, List.count_append, ih, Nat.succ_div]
    by_cases due : period ∣ n + 1 <;> simp [due]

/-- When `k` polls have been answered, the polls left end at a multiple of the period. -/
structure InStep (t : PeriodicTicks) (k : Nat) : Prop where
  multiple : t.period ∣ k + t.remaining
  pos : 0 < t.remaining
  le : t.remaining ≤ t.period

theorem inStep_reset {t : PeriodicTicks} (pos : 0 < t.period) :
    (TickSource.reset t).InStep 0 where
  multiple := by
    rw [Nat.zero_add]
    exact Nat.dvd_refl t.period
  pos := pos
  le := Nat.le_refl t.period

theorem InStep.poll {t : PeriodicTicks} {k : Nat} (h : t.InStep k) :
    (TickSource.poll t).1 = decide (t.period ∣ k + 1) ∧ (TickSource.poll t).2.InStep (k + 1) := by
  obtain ⟨multiple, pos, le⟩ := h
  change (count t).1 = _ ∧ (count t).2.InStep _
  unfold count
  by_cases last : t.remaining - 1 = 0
  · have one : t.remaining = 1 := by omega
    rw [one] at multiple
    rw [if_pos last]
    exact ⟨(decide_eq_true multiple).symm, (Nat.dvd_add_right multiple).2 (Nat.dvd_refl t.period),
      Nat.lt_of_lt_of_le pos le, Nat.le_refl t.period⟩
  · have left : 0 < t.remaining - 1 := Nat.pos_of_ne_zero last
    have next : k + t.remaining = k + 1 + (t.remaining - 1) := by omega
    rw [next] at multiple
    -- The polls left after this one are fewer than a period, so no multiple falls on this one.
    have early : ¬ t.period ∣ k + 1 := by
      intro due
      have short : t.period ∣ t.remaining - 1 := (Nat.dvd_add_right due).1 multiple
      have whole := Nat.le_of_dvd left short
      omega
    rw [if_neg last]
    exact ⟨(decide_eq_false early).symm, multiple, left, Nat.le_trans (Nat.sub_le _ _) le⟩

theorem answersFrom_of_inStep (cyclePeriod n : Nat) {t : PeriodicTicks} {k : Nat}
    (h : t.InStep k) :
    Pacing.answersFrom cyclePeriod n t =
      (List.range' (k + 1) n).map fun j => decide (t.period ∣ j) := by
  induction n generalizing t k with
  | zero => rfl
  | succ n ih =>
    obtain ⟨due, onward⟩ := h.poll
    rw [Pacing.answersFrom_succ, List.range'_succ, List.map_cons, due, ← period_poll t]
    exact congrArg _ (ih onward)

/-- Time does not matter to a source that counts polls. -/
theorem pollMany_eq_answersFrom (cyclePeriod n : Nat) (t : PeriodicTicks) :
    (TickSource.pollMany n t).1 = Pacing.answersFrom cyclePeriod n t := by
  induction n generalizing t with
  | zero => rfl
  | succ n ih => exact congrArg _ (ih (TickSource.poll t).2)

end PeriodicTicks

namespace Pacing

variable {μ : Type} [Memory μ]

theorem answers_periodic {p : Pacing PeriodicTicks} (pos : 0 < p.ticks.period) (fuel : Nat) :
    p.answers fuel = PeriodicTicks.schedule p.ticks.period (p.limit.getD fuel) :=
  PeriodicTicks.answersFrom_of_inStep _ _ (PeriodicTicks.inStep_reset pos)

theorem run?_periodic_iff {p : Pacing PeriodicTicks} (pos : 0 < p.ticks.period)
    (going : p.stopped = false) {n : Nat} (limit : p.limit = some n) {fuel : Nat}
    {m last : Machine μ} {e : RunEnd} :
    (∃ q, p.run? fuel m = some (e, q, last)) ↔
      m.runAlong (PeriodicTicks.schedule p.ticks.period n) = (e, last) := by
  have bounded : p.limit ≠ none := by simp [limit]
  rw [run?_eq_some_iff going, answers_periodic pos, limit]
  exact and_iff_left fun _ => limit ▸ bounded

/-- A paced run with periodic ticks goes through the cycles 1, 2, …, `n` and requests the timer line
before those whose number is a multiple of the period. -/
theorem periodic_run_keeps_schedule (p : Pacing PeriodicTicks) (m : Machine μ) {n : Nat}
    (pos : 0 < p.ticks.period) (going : p.stopped = false) (limit : p.limit = some n)
    (fuel : Nat) :
    ∃ e q last, p.run? fuel m = some (e, q, last) ∧
      m.runAlong ((List.range' 1 n).map fun k => decide (p.ticks.period ∣ k)) = (e, last) ∧
      m.after (p.runEvents fuel m) = last ∧
      (e = .cycleLimit →
        last.cycles = m.cycles + n ∧
          (p.runEvents fuel m).count (.raise 0) = n / p.ticks.period) := by
  have answers : p.answers fuel = PeriodicTicks.schedule p.ticks.period n := by
    rw [answers_periodic pos, limit]
    rfl
  obtain ⟨⟨e, last⟩, along⟩ : ∃ result, m.runAlong (p.answers fuel) = result := ⟨_, rfl⟩
  have scheduled := answers ▸ along
  obtain ⟨q, ended⟩ := (run?_periodic_iff pos going limit).2 scheduled
  refine ⟨e, q, last, ended, scheduled, after_runEvents ended, ?_⟩
  intro limited
  have whole : (m.runAlong (p.answers fuel)).1 = .cycleLimit := by rw [along, limited]
  constructor
  · have counted := Machine.cycles_runAlong whole
    rw [along, length_answers, limit] at counted
    exact counted
  · rw [runEvents_of_cycleLimit going whole, Event.count_raise_cycles, answers,
      PeriodicTicks.count_schedule]

/-- The program jumps to itself, and the handler of the timer returns at once. -/
def spinning : Machine PlainMemory :=
  (Machine.initial (Memory.writeAll .zero [(0x00, 0x11), (0x20, 0x1a), (0xf8, 0x20)])).setReg
    .mask 0x01

/-- A limit of seven cycles, with a tick in every third one. Before the run the source is left one
poll ahead of a tick. -/
def sevenCycles : Pacing PeriodicTicks := ⟨⟨3, 1⟩, 0, some 7, false⟩

theorem seven_cycles_keep_schedule :
    ∃ q last, sevenCycles.run? 0 spinning = some (.cycleLimit, q, last) ∧
      spinning.runAlong [false, false, true, false, false, true, false] = (.cycleLimit, last) ∧
      last.cycles = 7 ∧ (sevenCycles.runEvents 0 spinning).count (.raise 0) = 2 := by
  obtain ⟨e, q, last, ended, along, -, counted⟩ :=
    periodic_run_keeps_schedule sevenCycles spinning (by decide) rfl rfl 0
  have whole : (spinning.runAlong [false, false, true, false, false, true, false]).1 =
      .cycleLimit := by decide
  have limited : e = .cycleLimit := (congrArg Prod.fst along).symm.trans whole
  subst limited
  obtain ⟨cycles, ticks⟩ := counted rfl
  exact ⟨q, last, ended, along, cycles, ticks⟩

end Pacing
end EightBit
