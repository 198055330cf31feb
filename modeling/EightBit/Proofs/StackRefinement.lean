import EightBit.Proofs.RequestLatch
import EightBit.Proofs.StackSteps

/-!
# Stack discipline of a run

A run moves a list as its steps announce, and over the plain memory that list is the stack in every
state. Whatever is taken off the stack was put there by the step that last raised the stack above
that cell.
-/
namespace EightBit.Machine

section

variable {μ : Type} [Memory μ]

def eventMove (m : Machine μ) : Event → StackMove
  | .step => m.stackMove
  | .raise _ => .keep

/-- The list of cells at the end of a run. -/
def stackAfter (m : Machine μ) (cells : List UInt8) : List Event → List UInt8
  | [] => cells
  | e :: rest => (m.undergo e).stackAfter ((m.eventMove e).apply cells) rest

theorem stackAfter_concat (m : Machine μ) (cells : List UInt8) (events : List Event) (e : Event) :
    m.stackAfter cells (events ++ [e]) =
      ((m.after events).eventMove e).apply (m.stackAfter cells events) := by
  induction events generalizing m cells with
  | nil => rfl
  | cons first rest ih => exact ih (m.undergo first) _

/-- Between the two points of a run the stack is always higher than this, counted in cells from
the bottom. -/
def HigherSince (m : Machine μ) (cells : List UInt8) (start now : List Event) (height : Nat) :
    Prop :=
  ∀ part, start <+: part → part <+: now → height < (m.stackAfter cells part).length

theorem higherSince_self {m : Machine μ} {cells : List UInt8} {now : List Event} {height : Nat}
    (last : height < (m.stackAfter cells now).length) : m.HigherSince cells now now height := by
  intro part later inside
  rw [← later.eq_of_length_le inside.length_le]
  exact last

theorem HigherSince.concat {m : Machine μ} {cells : List UInt8} {start now : List Event}
    {height : Nat} (h : m.HigherSince cells start now height) {e : Event}
    (last : height < (m.stackAfter cells (now ++ [e])).length) :
    m.HigherSince cells start (now ++ [e]) height := by
  intro part later inside
  rcases List.prefix_concat_iff.1 inside with rfl | inside
  · exact last
  · exact h part later inside

/-- The step after `before` is the last one that raised the stack above this height, and it put
`v` there. -/
structure PutBy (m : Machine μ) (cells : List UInt8) (now before : List Event) (height : Nat)
    (v : UInt8) : Prop where
  earlier : before ++ [.step] <+: now
  reached : (m.stackAfter cells before).length ≤ height
  value : ∃ values, (m.after before).stackMove = .push values ∧
    values.reverse[height - (m.stackAfter cells before).length]? = some v
  since : m.HigherSince cells (before ++ [.step]) now height

theorem PutBy.concat {m : Machine μ} {cells : List UInt8} {now before : List Event}
    {height : Nat} {v : UInt8} (h : m.PutBy cells now before height v) {e : Event}
    (last : height < (m.stackAfter cells (now ++ [e])).length) :
    m.PutBy cells (now ++ [e]) before height v :=
  ⟨h.earlier.trans (List.prefix_append now [e]), h.reached, h.value, h.since.concat last⟩

theorem PutBy.eq_of_prefix {m : Machine μ} {cells : List UInt8} {now first second : List Event}
    {height : Nat} {v w : UInt8} (h : m.PutBy cells now first height v)
    (g : m.PutBy cells now second height w) (order : first ++ [.step] <+: second ++ [.step]) :
    first = second := by
  rcases List.prefix_concat_iff.1 order with same | inside
  · exact List.append_cancel_right same
  · have higher := h.since second inside ((List.prefix_append _ _).trans g.earlier)
    have reached := g.reached
    omega

/-- A cell has been put where it is by one step only. -/
theorem PutBy.unique {m : Machine μ} {cells : List UInt8} {now first second : List Event}
    {height : Nat} {v w : UInt8} (h : m.PutBy cells now first height v)
    (g : m.PutBy cells now second height w) : first = second := by
  rcases List.prefix_or_prefix_of_prefix h.earlier g.earlier with order | order
  · exact h.eq_of_prefix g order
  · exact (g.eq_of_prefix h order).symm

/-- A cell of the list is one of the first ones and was never dropped, or a step put it there. -/
theorem putBy_of_cell (m : Machine μ) (cells : List UInt8) (now : List Event) {height : Nat}
    {v : UInt8} (h : (m.stackAfter cells now).reverse[height]? = some v) :
    (cells.reverse[height]? = some v ∧ m.HigherSince cells [] now height) ∨
      ∃ before, m.PutBy cells now before height v := by
  induction now using List.reverseRecOn generalizing v with
  | nil =>
    left
    obtain ⟨inside, -⟩ := List.getElem?_eq_some_iff.1 h
    rw [List.length_reverse] at inside
    exact ⟨h, higherSince_self inside⟩
  | append_singleton now e ih =>
    obtain ⟨inside, -⟩ := List.getElem?_eq_some_iff.1 h
    rw [List.length_reverse] at inside
    have older : (m.stackAfter cells now).reverse[height]? = some v →
        (cells.reverse[height]? = some v ∧ m.HigherSince cells [] (now ++ [e]) height) ∨
          ∃ before, m.PutBy cells (now ++ [e]) before height v := by
      intro same
      rcases ih same with ⟨value, since⟩ | ⟨before, put⟩
      · exact .inl ⟨value, since.concat inside⟩
      · exact .inr ⟨before, put.concat inside⟩
    rw [stackAfter_concat] at h
    cases e with
    | raise number => exact older h
    | step =>
      -- Heights are counted from the bottom, so cells below the move keep theirs.
      cases moved : (m.after now).stackMove with
      | keep =>
        rw [eventMove, moved] at h
        exact older h
      | drop count =>
        rw [eventMove, moved, StackMove.apply, List.reverse_drop, List.getElem?_take] at h
        split at h
        · exact older h
        · cases h
      | push values =>
        rw [eventMove, moved, StackMove.apply, List.reverse_append] at h
        by_cases below : height < (m.stackAfter cells now).length
        · rw [List.getElem?_append_left (by simpa using below)] at h
          exact older h
        · rw [List.getElem?_append_right (by simpa using below), List.length_reverse] at h
          exact .inr ⟨now, List.prefix_refl _, by omega, ⟨values, moved, h⟩,
            higherSince_self inside⟩

end

/-- After every event of a safe run the memory holds the list. -/
theorem stackCells_after {m : Machine PlainMemory} {cells : List UInt8} {events : List Event}
    (size : cells.length ≤ 256) (start : m.stackCells cells.length = cells)
    (safe : EachStep (fun before =>
      (m.after before).StackSafe (m.stackAfter cells before).length) events) :
    (m.stackAfter cells events).length ≤ 256 ∧
      (m.after events).stackCells (m.stackAfter cells events).length =
        m.stackAfter cells events := by
  induction events using List.reverseRecOn with
  | nil => exact ⟨size, start⟩
  | append_singleton events e ih =>
    obtain ⟨small, same⟩ := ih (safe.of_prefix (List.prefix_append events [e]))
    rw [stackAfter_concat, after_concat]
    cases e with
    | step =>
      have moved := moves_step safe.last
      rw [Moves, same] at moved
      exact ⟨StackMove.length_apply_le small safe.last.fits, moved⟩
    | raise number =>
      refine ⟨small, ?_⟩
      have kept : ((m.after events).raise number).stackCells (m.stackAfter cells events).length =
          (m.after events).stackCells (m.stackAfter cells events).length := by
        apply stackCells_congr
        · rw [raise_frame]
        · exact reg_raise_of_ne _ _ (by decide)
      exact kept.trans same

/-- The memory stack is a list on which every step acts as announced. An entry puts the interrupted
state on it with the accepted request cleared. What a step takes off the stack are the first cells
of the list, and every cell was put there by the last step that raised the stack above it. -/
theorem stack_refines_list (m : Machine PlainMemory) {depth : Nat} (size : depth ≤ 256)
    (events : List Event) :
    let cells := m.stackCells depth
    EachStep (fun before => (m.after before).StackSafe (m.stackAfter cells before).length) events →
    (∀ part, part <+: events →
      (m.stackAfter cells part).length ≤ 256 ∧
      (m.after part).stackCells (m.stackAfter cells part).length = m.stackAfter cells part) ∧
    EachStep (fun before => (m.after before).SavesInterrupted) events ∧
    EachStep (fun before => (m.after before).Retrieves (m.stackAfter cells before)) events ∧
    ∀ part, part <+: events → ∀ height v,
      (m.stackAfter cells part).reverse[height]? = some v →
      (cells.reverse[height]? = some v ∧ m.HigherSince cells [] part height) ∨
        ∃ before, m.PutBy cells part before height v := by
  intro cells safe
  have length : cells.length = depth := m.length_stackCells depth
  have start : m.stackCells cells.length = cells := by rw [length]
  have holds : ∀ part, part <+: events →
      (m.stackAfter cells part).length ≤ 256 ∧
      (m.after part).stackCells (m.stackAfter cells part).length = m.stackAfter cells part :=
    fun part inside => stackCells_after (length ▸ size) start (safe.of_prefix inside)
  refine ⟨holds, fun before _ => (m.after before).savesInterrupted, ?_, ?_⟩
  · intro before inside
    obtain ⟨-, same⟩ := holds before ((List.prefix_append _ _).trans inside)
    rw [← same]
    exact retrieves_of_safe (safe before inside)
  · intro part _ height v h
    exact m.putBy_of_cell cells part h

/-- A push of the pointer and a call, whose callee is interrupted before it returns, and a pop. The
frame wraps past address 0, and line 3 stays requested throughout. -/
def nesting : Machine PlainMemory :=
  ((Session.start .zero : Session PlainMemory Silence).performAll
    [.load [0x0a, 0x07, 0x0f, 0x01, 0x0b, 0x02] 0x40, .poke 0x50 0x10, .poke 0x60 0x1a,
      .poke 0xf8 0x60, .setReg .r1 0x50, .setReg .r5 0x01, .setReg .r6 0x08, .setReg .r7 0x04,
      .setPc 0x40]).2.machine

theorem nesting_refines_list :
    let cells := nesting.stackCells 2
    let events := [.step, .step, .raise 0, .step, .step, .step, .step]
    (nesting.after events).stackCells (nesting.stackAfter cells events).length =
        nesting.stackAfter cells events ∧
      (nesting.after [.step, .step, .raise 0]).stackMove =
        .push [0xf9, 0x08, 0x01, 0x00, 0x00, 0x00, 0x50, 0x00, 0x50] ∧
      EachStep (fun before => (nesting.after before).Retrieves (nesting.stackAfter cells before))
        events := by
  intro cells events
  have size : 2 ≤ 256 := by decide
  obtain ⟨holds, saved, retrieved, -⟩ := nesting.stack_refines_list size events (by decide)
  have interrupted : [.step, .step, .raise 0] ++ [.step] <+: events := by decide
  obtain ⟨requests, pushed, left⟩ := saved [.step, .step, .raise 0] interrupted 0 rfl
  have cleared : requests = 0x08 := by
    apply LineSet.ext_contains
    intro other
    rw [left other]
    decide +revert
  rw [cleared] at pushed
  exact ⟨(holds events (List.prefix_refl _)).2, pushed, retrieved⟩

end EightBit.Machine
