import EightBit.Proofs.PolledRun

/-!
# Ticks of a stopwatch

Under a pacing whose cycles take their time exactly, a stopwatch ticks at the first poll at or after
each multiple of its period since the start of the run. Several multiples between two polls are one
tick. The invariant is that the next tick is due at the first multiple after the last poll.
-/
namespace EightBit

namespace Stopwatch

/-- The next tick is due at the first multiple of the period after this time since the origin. -/
def DueAfter (s : Stopwatch) (origin passed : Nat) : Prop :=
  s.due = origin + s.period * (passed / s.period + 1)

theorem period_read (s : Stopwatch) : s.read.2.period = s.period := by
  unfold read
  split <;> rfl

theorem now_read (s : Stopwatch) : s.read.2.now = s.now := by
  unfold read
  split <;> rfl

theorem dueAfter_reset (s : Stopwatch) : (TickSource.reset s).DueAfter s.now 0 := by
  simp [DueAfter, TickSource.reset]

/-- A tick is due when a multiple of the period lies after the last poll and not after this one. -/
theorem DueAfter.read {s : Stopwatch} {origin passed present : Nat} (pos : 0 < s.period)
    (h : s.DueAfter origin passed) (now : s.now = origin + present) (later : passed ≤ present) :
    s.read.1 = decide (passed / s.period < present / s.period) ∧
      s.read.2.DueAfter origin present := by
  have order : passed / s.period ≤ present / s.period := Nat.div_le_div_right later
  have early : s.now < s.due ↔ present / s.period < passed / s.period + 1 := by
    rw [Nat.div_lt_iff_lt_mul pos, now, h, Nat.mul_comm]
    omega
  unfold Stopwatch.read
  by_cases waiting : s.now < s.due
  · have same : passed / s.period = present / s.period := by
      have below := early.1 waiting
      omega
    rw [if_pos waiting, same]
    refine ⟨by simp, ?_⟩
    rw [DueAfter, h, same]
  · have missed : passed / s.period + 1 ≤ present / s.period := Nat.not_lt.1 (mt early.2 waiting)
    have overdue : (s.now - s.due) / s.period = present / s.period - (passed / s.period + 1) := by
      rw [now, h, Nat.add_sub_add_left, Nat.sub_mul_div]
    have next : passed / s.period + 1 + (present / s.period - (passed / s.period + 1) + 1) =
        present / s.period + 1 := by omega
    rw [if_neg waiting]
    refine ⟨(decide_eq_true missed).symm, ?_⟩
    simp only [DueAfter, overdue]
    rw [h, Nat.add_assoc, ← Nat.mul_add, next]

theorem answersFrom_of_dueAfter {origin cyclePeriod : Nat} (n : Nat) {s : Stopwatch} {k : Nat}
    (pos : 0 < s.period) (h : s.DueAfter origin ((k - 1) * cyclePeriod))
    (now : s.now = origin + k * cyclePeriod) :
    Pacing.answersFrom cyclePeriod n s = (List.range' k n).map fun i =>
      decide ((i - 1) * cyclePeriod / s.period < i * cyclePeriod / s.period) := by
  induction n generalizing s k with
  | zero => rfl
  | succ n ih =>
    obtain ⟨due, next⟩ := h.read pos now (Nat.mul_le_mul_right _ (Nat.sub_le k 1))
    have period : (TickSource.elapse s.read.2 cyclePeriod).period = s.period := s.period_read
    have time : (TickSource.elapse s.read.2 cyclePeriod).now = origin + (k + 1) * cyclePeriod := by
      simp [TickSource.elapse, s.now_read, now, Nat.add_mul, Nat.add_assoc]
    have onward := ih (period.symm ▸ pos) next time
    rw [period] at onward
    rw [Pacing.answersFrom_succ, List.range'_succ, List.map_cons]
    exact List.cons_eq_cons.2 ⟨due, onward⟩

end Stopwatch

namespace Pacing

theorem answers_stopwatch {p : Pacing Stopwatch} (pos : 0 < p.ticks.period) (fuel : Nat) :
    p.answers fuel = (List.range (p.limit.getD fuel)).map fun i =>
      decide ((i - 1) * p.cyclePeriod / p.ticks.period < i * p.cyclePeriod / p.ticks.period) := by
  have started : (TickSource.reset p.ticks).DueAfter p.ticks.now ((0 - 1) * p.cyclePeriod) := by
    rw [Nat.zero_sub, Nat.zero_mul]
    exact p.ticks.dueAfter_reset
  have now : (TickSource.reset p.ticks).now = p.ticks.now + 0 * p.cyclePeriod := by
    rw [Nat.zero_mul]
    rfl
  rw [List.range_eq_range']
  exact Stopwatch.answersFrom_of_dueAfter _ pos started now

theorem answers_standard (fuel : Nat) :
    standard.answers fuel = (List.range fuel).map fun i => decide (0 < i ∧ 1000 ∣ i) := by
  have pos : 0 < standard.ticks.period := by decide
  rw [answers_stopwatch pos]
  apply List.map_congr_left
  intro i _
  apply decide_eq_decide.2
  change (i - 1) * 1000 / 1000000 < i * 1000 / 1000000 ↔ _
  omega

variable {μ : Type} [Memory μ]

/-- A run at the standard pace has no limit. It requests the timer line before every cycle that
comes a multiple of a thousand cycles after the first one. -/
theorem standard_run?_iff {fuel : Nat} {m last : Machine μ} {e : RunEnd} :
    (∃ q, standard.run? fuel m = some (e, q, last)) ↔
      m.runAlong ((List.range fuel).map fun i => decide (0 < i ∧ 1000 ∣ i)) = (e, last) ∧
        e ≠ .cycleLimit := by
  rw [run?_eq_some_iff rfl, answers_standard]
  apply and_congr_right
  intro _
  simp [standard, free]

end Pacing
end EightBit
