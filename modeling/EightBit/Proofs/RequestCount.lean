import EightBit.Proofs.RequestLatch

/-!
# Requests and deliveries

A request is dropped before the requests are saved. A return therefore brings back only requests
that are still there, and no handler is entered more often than its line was raised.
-/
namespace EightBit.Machine

section

variable {μ : Type}

def pending (m : Machine μ) (line : Line) : Nat := (LineSet.contains (m.reg .requests) line).toNat

theorem pending_le_of_contains {m other : Machine μ} {line : Line}
    (h : LineSet.contains (m.reg .requests) line → LineSet.contains (other.reg .requests) line) :
    m.pending line ≤ other.pending line := by
  unfold pending
  cases requested : LineSet.contains (m.reg .requests) line with
  | false => simp
  | true => simp [h requested]

theorem pending_raise_le (m : Machine μ) (number : UInt8) (line : Line) :
    (m.raise number).pending line ≤
      [Event.raise number].count (.raise (UInt8.ofNat line)) + m.pending line := by
  rcases m.raise_cases number with same | ⟨other, rfl, requested⟩
  · rw [same]
    exact Nat.le_add_left _ _
  · rw [requested]
    by_cases h : other = line
    · subst h
      have one : (m.request other).pending other ≤ 1 := Bool.toNat_le _
      simp only [List.count_singleton_self]
      omega
    · have kept : (m.request other).pending line = m.pending line := by
        simp [pending, reg_request, LineSet.contains_insert, h]
      rw [kept]
      exact Nat.le_add_left _ _

variable [Memory μ]

theorem pending_of_enters {m : Machine μ} {line : Line} (h : m.Enters line) :
    m.pending line = 1 ∧ m.step.2.pending line = 0 := by
  obtain ⟨-, first⟩ := acceptable?_eq_some_iff.1 h.accepted
  have requested := (LineSet.lowest?_eq_some_iff.1 first).1
  rw [LineSet.contains_and, Bool.and_eq_true] at requested
  constructor
  · simp [pending, requested.1]
  · simp [pending, requests_of_enters h, LineSet.contains_erase]

/-- A step delivers at most what is pending, as long as a return brings no request back. -/
theorem entered_add_pending_le {m : Machine μ} (line : Line) (kept : ¬ m.Overwrites .requests)
    (reloads : m.Executes (.nullary .iret) → LineSet.contains m.savedRequests line →
      LineSet.contains (m.reg .requests) line) :
    [m.reply .step].count (.outcome (.entered line)) + m.step.2.pending line ≤ m.pending line := by
  by_cases delivered : m.step.1 = .entered line
  · obtain ⟨before, after⟩ := pending_of_enters (enters_of_step delivered)
    have counted : [m.reply .step].count (.outcome (.entered line)) = 1 := by
      rw [reply, delivered, List.count_singleton_self]
    omega
  · have uncounted : [m.reply .step].count (.outcome (.entered line)) = 0 := by
      simp [reply, delivered]
    rw [uncounted, Nat.zero_add]
    apply pending_le_of_contains
    intro latched
    rcases m.requests_step_cases kept with ⟨other, -, after⟩ | ⟨returns, after⟩ | ⟨-, -, after⟩
    · rw [after, LineSet.contains_erase, Bool.and_eq_true] at latched
      exact latched.1
    · rw [after] at latched
      exact reloads returns latched
    · rw [after] at latched
      exact latched

/-- Deliveries and what is still pending at the end are covered by the raises and by what was
pending at the start. -/
theorem count_entered_add_pending_le (m : Machine μ) (line : Line) (events : List Event)
    (kept : EachStep (fun before => ¬ (m.after before).Overwrites .requests) events)
    (reloads : EachStep (fun before => (m.after before).Executes (.nullary .iret) →
      LineSet.contains (m.after before).savedRequests line →
      LineSet.contains ((m.after before).reg .requests) line) events) :
    (m.replies events).count (.outcome (.entered line)) + (m.after events).pending line ≤
      events.count (.raise (UInt8.ofNat line)) + m.pending line := by
  induction events using List.reverseRecOn with
  | nil => exact Nat.le_refl _
  | append_singleton events e ih =>
    have start := List.prefix_append events [e]
    have covered := ih (kept.of_prefix start) (reloads.of_prefix start)
    rw [replies_concat, after_concat, List.count_append, List.count_append]
    cases e with
    | step =>
      have stepped := entered_add_pending_le line kept.last reloads.last
      have raised : [Event.step].count (.raise (UInt8.ofNat line)) = 0 := by simp
      rw [undergo]
      omega
    | raise number =>
      have raised := (m.after events).pending_raise_le number line
      have undelivered :
          [(m.after events).reply (.raise number)].count (.outcome (.entered line)) = 0 := by
        simp [reply]
      rw [undergo]
      omega

theorem step_while_disabled {m : Machine μ} (disabled : m.interruptsEnabled = false)
    (kept : ¬ m.Overwrites .requests) (stays : ¬ m.Executes (.nullary .iret)) :
    m.step.2.interruptsEnabled = false ∧ m.step.2.reg .requests = m.reg .requests := by
  refine ⟨interruptsEnabled_step_of_disabled disabled stays, ?_⟩
  rcases m.requests_step_cases kept with ⟨line, enters, -⟩ | ⟨returns, -⟩ | ⟨-, -, same⟩
  · exact absurd disabled (by simp [enters.enabled])
  · exact absurd returns stays
  · exact same

/-- While a handler runs and overwrites no requests, no other one is entered and requests are only
added. -/
theorem requests_while_disabled {m : Machine μ} {inner : List Event}
    (disabled : m.interruptsEnabled = false)
    (kept : EachStep (fun part => ¬ (m.after part).Overwrites .requests) inner)
    (stays : EachStep (fun part => ¬ (m.after part).Executes (.nullary .iret)) inner) :
    (m.after inner).interruptsEnabled = false ∧
      ∀ line, LineSet.contains (m.reg .requests) line →
        LineSet.contains ((m.after inner).reg .requests) line := by
  induction inner using List.reverseRecOn with
  | nil => exact ⟨disabled, fun _ latched => latched⟩
  | append_singleton inner e ih =>
    have start := List.prefix_append inner [e]
    obtain ⟨still, grown⟩ := ih (kept.of_prefix start) (stays.of_prefix start)
    rw [after_concat]
    -- Without a return the flag stays down, so no entry can drop a request either.
    cases e with
    | step =>
      obtain ⟨next, same⟩ := step_while_disabled still kept.last stays.last
      refine ⟨next, ?_⟩
      intro line latched
      rw [undergo, same]
      exact grown line latched
    | raise number =>
      refine ⟨?_, ?_⟩
      · rw [undergo, raise_frame]
        exact still
      · intro line latched
        exact contains_raise (grown line latched) number

end

/-- What the entry saves is what it leaves in the requests. -/
theorem savedRequests_of_enters {m : Machine PlainMemory} {line : Line} (h : m.Enters line) :
    m.step.2.savedRequests = m.step.2.reg .requests := by
  have saved : (m.step.2.stackCells 9)[1]? = some m.step.2.savedRequests :=
    m.step.2.getElem?_stackCells (by decide)
  have written : (m.step.2.stackCells 9)[1]? = some (LineSet.erase (m.reg .requests) line) := by
    rw [step_of_enters h, frame_enterHandler]
    rfl
  rw [requests_of_enters h]
  exact Option.some.inj (saved.symm.trans written)

/-- A return after these events is the first one since a handler was entered, and the requests
that it reloads are the ones that the entry saved. -/
def ReturnMatched (m : Machine PlainMemory) (before : List Event) : Prop :=
  (m.after before).Executes (.nullary .iret) →
    ∃ entry inner line, before = entry ++ .step :: inner ∧ (m.after entry).Enters line ∧
      EachStep (fun part => ¬ ((m.after entry).step.2.after part).Executes (.nullary .iret)) inner ∧
      (m.after before).savedRequests = (m.after entry).step.2.savedRequests

theorem ReturnMatched.reloads {m : Machine PlainMemory} {before : List Event}
    (matched : m.ReturnMatched before)
    (kept : EachStep (fun part => ¬ (m.after part).Overwrites .requests) before)
    (returns : (m.after before).Executes (.nullary .iret)) {line : Line}
    (saved : LineSet.contains (m.after before).savedRequests line) :
    LineSet.contains ((m.after before).reg .requests) line := by
  obtain ⟨entry, inner, other, rfl, enters, stays, same⟩ := matched returns
  have disabled : (m.after entry).step.2.interruptsEnabled = false := by
    rw [step_of_enters enters]
    exact interruptsEnabled_enterHandler _ _
  have later : ∀ part, m.after (entry ++ .step :: part) = (m.after entry).step.2.after part :=
    fun part => m.after_append entry (.step :: part)
  have keptInner :
      EachStep (fun part => ¬ ((m.after entry).step.2.after part).Overwrites .requests) inner := by
    intro part inside
    rw [← later]
    apply kept
    rw [List.append_assoc]
    exact (List.prefix_append_right_inj entry).2 (List.cons_prefix_cons.2 ⟨rfl, inside⟩)
  obtain ⟨-, grown⟩ := requests_while_disabled disabled keptInner stays
  rw [same, savedRequests_of_enters enters] at saved
  rw [later]
  exact grown line saved

/-- No handler is entered more often than its line was requested. -/
theorem count_entered_le_count_raise (m : Machine PlainMemory) (line : Line) (events : List Event)
    (kept : EachStep (fun before => ¬ (m.after before).Overwrites .requests) events)
    (matched : EachStep m.ReturnMatched events) :
    (m.replies events).count (.outcome (.entered line)) ≤
      events.count (.raise (UInt8.ofNat line)) +
        if LineSet.contains (m.reg .requests) line then 1 else 0 := by
  have covered := m.count_entered_add_pending_le line events kept (by
    intro before inside returns saved
    have earlier := kept.of_prefix ((List.prefix_append before [.step]).trans inside)
    exact (matched before inside).reloads earlier returns saved)
  have start : m.pending line = if LineSet.contains (m.reg .requests) line then 1 else 0 := by
    unfold pending
    cases LineSet.contains (m.reg .requests) line <;> rfl
  omega

/-- Line 0 is requested at the start and raised once more after the return of its handler. -/
theorem count_entered_of_interrupted :
    (interrupted.replies [.step, .raise 1, .step, .raise 0, .step]).count (.outcome (.entered 0)) ≤
      [Event.step, .raise 1, .step, .raise 0, .step].count (.raise 0) + 1 := by
  apply interrupted.count_entered_le_count_raise 0 [.step, .raise 1, .step, .raise 0, .step]
  · decide
  · have enters : interrupted.Enters 0 := ⟨by decide, by decide⟩
    have matched : interrupted.ReturnMatched [.step, .raise 1] :=
      fun _ => ⟨[], [.raise 1], 0, rfl, enters, by decide, by decide⟩
    have others : ∀ before ∈ [[], [.step, .raise 1, .step, .raise 0]],
        ¬ (interrupted.after before).Executes (.nullary .iret) := by decide
    simp only [eachStep_cons, eachStep_nil, and_true, reduceCtorEq, false_implies, true_implies,
      true_and]
    exact ⟨fun h => absurd h (others _ (by simp)), matched,
      fun h => absurd h (others _ (by simp))⟩

end EightBit.Machine
