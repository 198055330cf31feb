import Mathlib.Data.List.FinRange
import Mathlib.Data.List.Induction
import EightBit.Proofs.EventRun
import EightBit.Proofs.FetchedCode
import EightBit.Proofs.InstructionSteps

/-!
# Draining pending interrupts

Handlers that return at once are entered one after the other, the lowest line first and each line
once. Every round of an entry and its return gives back all but the request it served.
-/
namespace EightBit

namespace LineSet

/-- The lines of the set, the lowest first. -/
def toList (s : UInt8) : List Line := Line.all.filter (contains s)

theorem mem_toList {s : UInt8} {line : Line} : line ∈ toList s ↔ contains s line := by
  simp [toList, Line.all, List.mem_filter]

theorem pairwise_toList (s : UInt8) : (toList s).Pairwise (· < ·) :=
  (List.pairwise_lt_finRange 8).filter _

theorem head?_toList (s : UInt8) : (toList s).head? = lowest? s := List.head?_filter

/-- Without the first line the others stay in their order. -/
theorem toList_erase_of_cons {s : UInt8} {line : Line} {rest : List Line}
    (h : toList s = line :: rest) : toList (erase s line) = rest := by
  obtain ⟨before, after, split, absent, -, others⟩ := List.filter_eq_cons_iff.1 h
  have distinct : (before ++ line :: after).Nodup := split ▸ List.nodup_finRange 8
  have fresh : line ∉ after := (List.nodup_cons.1 (List.nodup_append.1 distinct).2.1).1
  have front : before.filter (contains (erase s line)) = [] := by
    apply List.filter_eq_nil_iff.2
    intro other inside
    simp [contains_erase, absent other inside]
  have back : after.filter (contains (erase s line)) = after.filter (contains s) := by
    apply List.filter_congr
    intro other inside
    have differs : other ≠ line := fun same => fresh (same ▸ inside)
    simp [contains_erase, differs]
  rw [toList, split, List.filter_append, front, List.filter_cons, contains_erase, back, others]
  simp

end LineSet

namespace Machine

section

variable {μ : Type}

/-- The lines that could be accepted with interrupts enabled, in the order of acceptance. -/
def deliverable (m : Machine μ) : List Line := LineSet.toList (m.reg .requests &&& m.reg .mask)

theorem mem_deliverable {m : Machine μ} {line : Line} :
    line ∈ m.deliverable ↔
      LineSet.contains (m.reg .requests) line ∧ LineSet.contains (m.reg .mask) line := by
  rw [deliverable, LineSet.mem_toList, LineSet.contains_and, Bool.and_eq_true]

theorem enters_of_deliverable {m : Machine μ} {line : Line} {rest : List Line}
    (running : m.status = .running) (enabled : m.interruptsEnabled = true)
    (pending : m.deliverable = line :: rest) : m.Enters line := by
  refine ⟨running, acceptable?_eq_some_iff.2 ⟨enabled, ?_⟩⟩
  rw [← LineSet.head?_toList]
  exact congrArg List.head? pending

end

/-- The handler of the line consists of a return, and an entry writes its frame neither over it nor
over its vector. -/
structure ReturnsAtOnce (m : Machine PlainMemory) (line : Line) : Prop where
  returns : m.peek (m.peek (vector line)) = (Instruction.nullary .iret).opcode
  vector_spared : vector line ∉ m.frameAddresses
  handler_spared : m.peek (vector line) ∉ m.frameAddresses

instance (m : Machine PlainMemory) (line : Line) : Decidable (m.ReturnsAtOnce line) :=
  decidable_of_iff
    (m.peek (m.peek (vector line)) = (Instruction.nullary .iret).opcode ∧
      vector line ∉ m.frameAddresses ∧ m.peek (vector line) ∉ m.frameAddresses)
    ⟨fun ⟨returns, vector, handler⟩ => ⟨returns, vector, handler⟩,
      fun h => ⟨h.returns, h.vector_spared, h.handler_spared⟩⟩

/-- The other machine is this one after serving these lines. -/
structure Served (m other : Machine PlainMemory) (lines : List Line) : Prop where
  registers : ∀ r, r ≠ .requests → other.reg r = m.reg r
  requests : ∀ line, LineSet.contains (other.reg .requests) line =
    (LineSet.contains (m.reg .requests) line && !decide (line ∈ lines))
  pc : other.pc = m.pc
  status : other.status = .running
  enabled : other.interruptsEnabled = true
  memory : ∀ a, a ∉ m.frameAddresses → other.peek a = m.peek a
  console : other.console = m.console

theorem Served.refl {m : Machine PlainMemory} (running : m.status = .running)
    (enabled : m.interruptsEnabled = true) : m.Served m [] where
  registers _ _ := rfl
  requests _ := by simp
  pc := rfl
  status := running
  enabled := enabled
  memory _ _ := rfl
  console := rfl

theorem Served.frameAddresses {m other : Machine PlainMemory} {lines : List Line}
    (h : m.Served other lines) : other.frameAddresses = m.frameAddresses := by
  rw [Machine.frameAddresses, Machine.frameAddresses, h.registers .stackPointer (by decide)]

theorem Served.trans {m other last : Machine PlainMemory} {first second : List Line}
    (h : m.Served other first) (g : other.Served last second) :
    m.Served last (first ++ second) where
  registers r hr := (g.registers r hr).trans (h.registers r hr)
  requests line := by
    rw [g.requests, h.requests, Bool.and_assoc]
    simp
  pc := g.pc.trans h.pc
  status := g.status
  enabled := g.enabled
  memory a spared := (g.memory a (h.frameAddresses ▸ spared)).trans (h.memory a spared)
  console := g.console.trans h.console

theorem Served.returnsAtOnce {m other : Machine PlainMemory} {lines : List Line} {line : Line}
    (h : m.Served other lines) (g : m.ReturnsAtOnce line) : other.ReturnsAtOnce line := by
  have vector : other.peek (vector line) = m.peek (vector line) := h.memory _ g.vector_spared
  have handler : other.peek (m.peek (Machine.vector line)) = m.peek (m.peek (Machine.vector line)) :=
    h.memory _ g.handler_spared
  refine ⟨?_, ?_, ?_⟩
  · rw [vector, handler, g.returns]
  · rw [h.frameAddresses]
    exact g.vector_spared
  · rw [vector, h.frameAddresses]
    exact g.handler_spared

/-- After the first line has been served the others are left. -/
theorem Served.deliverable {m other : Machine PlainMemory} {line : Line} {rest : List Line}
    (h : m.Served other [line]) (pending : m.deliverable = line :: rest) :
    other.deliverable = rest := by
  have erased : other.reg .requests &&& other.reg .mask =
      LineSet.erase (m.reg .requests &&& m.reg .mask) line := by
    apply LineSet.ext_contains
    intro next
    rw [h.registers .mask (by decide), LineSet.contains_and, h.requests, LineSet.contains_erase,
      LineSet.contains_and, Bool.and_right_comm]
    simp
  rw [Machine.deliverable, erased]
  exact LineSet.toList_erase_of_cons pending

theorem executes_return {m : Machine PlainMemory} (running : m.status = .running)
    (disabled : m.interruptsEnabled = false)
    (returns : m.peek m.pc = (Instruction.nullary .iret).opcode) :
    m.Executes (.nullary .iret) := by
  apply executes_of_code running
  · simp [acceptable?, disabled]
  · change Memory.readFrom m.memory m.pc (0 + 1) = _
    rw [Memory.readFrom_succ]
    exact congrArg (· :: _) returns

/-- Right after the entry of such a handler its return is executed. -/
theorem executes_return_of_enters {m : Machine PlainMemory} {line : Line} (enters : m.Enters line)
    (handler : m.ReturnsAtOnce line) : m.step.2.Executes (.nullary .iret) := by
  have place : (m.counted.enterHandler line).pc = m.peek (vector line) :=
    m.counted.pc_enterHandler line handler.vector_spared
  have found : (m.counted.enterHandler line).peek (m.peek (vector line)) =
      m.peek (m.peek (vector line)) := m.counted.peek_enterHandler line handler.handler_spared
  rw [step_of_enters enters]
  apply executes_return
  · rw [enterHandler_frame]
    exact enters.running
  · exact m.counted.interruptsEnabled_enterHandler line
  · rw [place, found, handler.returns]

/-- An entry and the return after it serve one line. -/
theorem served_round {m : Machine PlainMemory} {line : Line} (enters : m.Enters line)
    (handler : m.ReturnsAtOnce line) :
    m.step.1 = .entered line ∧ m.step.2.step.1 = .executed ∧ m.Served m.step.2.step.2 [line] := by
  have entered : m.step.2 = m.counted.enterHandler line := congrArg Prod.snd (step_of_enters enters)
  have returned := step_of_iret (executes_return_of_enters enters handler)
  have pointer : m.step.2.fetched.reg .r7 = m.reg .r7 - 9 := by
    rw [entered]
    exact reg_enterHandler _ _ _
  have frame : m.step.2.fetched.stackCells 9 = m.entryFrame line := by
    rw [entered]
    exact m.counted.frame_enterHandler line
  have memory : ∀ a, a ∉ m.frameAddresses → m.step.2.peek a = m.peek a := by
    intro a spared
    rw [entered]
    exact m.counted.peek_enterHandler line spared
  have console : m.step.2.console = m.console := by
    rw [entered, enterHandler_frame]
    rfl
  obtain ⟨others, requests, pc⟩ := leaveHandler_of_frame pointer frame
  refine ⟨congrArg Prod.fst (step_of_enters enters), congrArg Prod.fst returned, ?_⟩
  rw [returned]
  constructor
  · exact others
  · intro next
    rw [requests next]
    simp
  · exact pc
  · rw [leaveHandler_frame]
    exact (executes_return_of_enters enters handler).running
  · rw [leaveHandler_frame]
  · intro a spared
    rw [peek, memory_leaveHandler]
    exact memory a spared
  · rw [leaveHandler_frame]
    exact console

theorem served_rounds {m : Machine PlainMemory} {lines : List Line} (running : m.status = .running)
    (enabled : m.interruptsEnabled = true) (pending : m.deliverable = lines)
    (handlers : ∀ line ∈ lines, m.ReturnsAtOnce line) :
    m.replies (List.replicate (2 * lines.length) .step) =
        lines.flatMap (fun line => [.outcome (.entered line), .outcome .executed]) ∧
      m.Served (m.after (List.replicate (2 * lines.length) .step)) lines := by
  induction lines generalizing m with
  | nil => exact ⟨rfl, Served.refl running enabled⟩
  | cons line rest ih =>
    obtain ⟨first, second, served⟩ := served_round (enters_of_deliverable running enabled pending)
      (handlers line List.mem_cons_self)
    have later : ∀ next ∈ rest, m.step.2.step.2.ReturnsAtOnce next := fun next inside =>
      served.returnsAtOnce (handlers next (List.mem_cons_of_mem _ inside))
    obtain ⟨replies, others⟩ := ih served.status served.enabled (served.deliverable pending) later
    have steps : List.replicate (2 * (line :: rest).length) Event.step =
        .step :: .step :: List.replicate (2 * rest.length) .step := rfl
    rw [steps]
    constructor
    · change .outcome m.step.1 :: .outcome m.step.2.step.1 :: m.step.2.step.2.replies _ = _
      rw [first, second, replies]
      rfl
    · exact served.trans others

/-! Raising lines -/

section

variable {μ : Type}

theorem contains_raise_eq (m : Machine μ) (number : UInt8) (line : Line) :
    LineSet.contains ((m.raise number).reg .requests) line =
      (LineSet.contains (m.reg .requests) line || decide (UInt8.ofNat line = number)) := by
  by_cases named : UInt8.ofNat line = number
  · subst named
    rw [raise_line, reg_request, if_pos rfl, LineSet.contains_insert]
    simp
  · rcases m.raise_cases number with same | ⟨other, rfl, requested⟩
    · rw [same]
      simp [named]
    · have differs : ¬ other = line := fun same => named (same ▸ rfl)
      rw [requested, reg_request, if_pos rfl, LineSet.contains_insert]
      simp [named, differs]

variable [Memory μ]

theorem raises_frame (m : Machine μ) (numbers : List UInt8) :
    m.after (numbers.map .raise) =
      { m with registers := (m.after (numbers.map .raise)).registers } := by
  induction numbers using List.reverseRecOn with
  | nil => rfl
  | append_singleton numbers number ih =>
    rw [List.map_append, List.map_singleton, after_concat, undergo, raise_frame, ih]

theorem reg_raises_of_ne (m : Machine μ) (numbers : List UInt8) {r : Register}
    (h : r ≠ .requests) : (m.after (numbers.map .raise)).reg r = m.reg r := by
  induction numbers using List.reverseRecOn with
  | nil => rfl
  | append_singleton numbers number ih =>
    rw [List.map_append, List.map_singleton, after_concat, undergo, reg_raise_of_ne _ _ h, ih]

theorem peek_raises (m : Machine μ) (numbers : List UInt8) (a : UInt8) :
    (m.after (numbers.map .raise)).peek a = m.peek a := by
  rw [raises_frame]
  rfl

theorem frameAddresses_raises (m : Machine μ) (numbers : List UInt8) :
    (m.after (numbers.map .raise)).frameAddresses = m.frameAddresses := by
  rw [frameAddresses, frameAddresses, reg_raises_of_ne m numbers (by decide)]

/-- Raising a line again or raising lines in another order makes no difference. -/
theorem contains_raises (m : Machine μ) (numbers : List UInt8) (line : Line) :
    LineSet.contains ((m.after (numbers.map .raise)).reg .requests) line =
      (LineSet.contains (m.reg .requests) line || decide (UInt8.ofNat line ∈ numbers)) := by
  induction numbers using List.reverseRecOn with
  | nil => simp [after]
  | append_singleton numbers number ih =>
    rw [List.map_append, List.map_singleton, after_concat, undergo, contains_raise_eq, ih]
    simp [Bool.or_assoc]

end

/-- Raising lines moves neither a frame nor a handler. -/
theorem ReturnsAtOnce.of_raises {m : Machine PlainMemory} {line : Line} (h : m.ReturnsAtOnce line)
    (numbers : List UInt8) : (m.after (numbers.map .raise)).ReturnsAtOnce line := by
  refine ⟨?_, ?_, ?_⟩
  · rw [peek_raises, peek_raises, h.returns]
  · rw [frameAddresses_raises]
    exact h.vector_spared
  · rw [peek_raises, frameAddresses_raises]
    exact h.handler_spared

/-- Whatever lines are raised in whatever order, those that are requested and not masked are served
from the lowest to the highest, each once, and nothing but their requests and the cells of a frame
is changed. -/
theorem pending_served_in_order (m : Machine PlainMemory) (running : m.status = .running)
    (enabled : m.interruptsEnabled = true) (numbers : List UInt8)
    (handlers : ∀ line ∈ (m.after (numbers.map .raise)).deliverable, m.ReturnsAtOnce line) :
    let raised := m.after (numbers.map .raise)
    let lines := raised.deliverable
    let steps := List.replicate (2 * lines.length) Event.step
    let last := raised.after steps
    lines.Pairwise (· < ·) ∧
    (∀ line, line ∈ lines ↔
      (LineSet.contains (m.reg .requests) line ∨ UInt8.ofNat line ∈ numbers) ∧
        LineSet.contains (m.reg .mask) line) ∧
    raised.replies steps =
      lines.flatMap (fun line => [.outcome (.entered line), .outcome .executed]) ∧
    (∀ r, r ≠ .requests → last.reg r = m.reg r) ∧
    (∀ line, LineSet.contains (last.reg .requests) line =
      (LineSet.contains (raised.reg .requests) line && !decide (line ∈ lines))) ∧
    last.pc = m.pc ∧ last.status = .running ∧ last.interruptsEnabled = true ∧
    (∀ a, a ∉ m.frameAddresses → last.peek a = m.peek a) ∧
    last.console = m.console := by
  intro raised lines steps last
  have frame : raised = { m with registers := raised.registers } := m.raises_frame numbers
  have others : ∀ r, r ≠ .requests → raised.reg r = m.reg r :=
    fun r other => m.reg_raises_of_ne numbers other
  have status : raised.status = .running := by rw [frame, running]
  have ready : raised.interruptsEnabled = true := by rw [frame, enabled]
  have returning : ∀ line ∈ lines, raised.ReturnsAtOnce line :=
    fun line inside => (handlers line inside).of_raises numbers
  obtain ⟨replies, served⟩ := served_rounds status ready rfl returning
  have member : ∀ line, line ∈ lines ↔
      (LineSet.contains (m.reg .requests) line ∨ UInt8.ofNat line ∈ numbers) ∧
        LineSet.contains (m.reg .mask) line := by
    intro line
    rw [mem_deliverable, others .mask (by decide), contains_raises]
    simp
  have cells : raised.frameAddresses = m.frameAddresses := m.frameAddresses_raises numbers
  refine ⟨LineSet.pairwise_toList _, member, replies, ?_, served.requests, ?_, served.status,
    served.enabled, ?_, ?_⟩
  · intro r other
    exact (served.registers r other).trans (others r other)
  · rw [served.pc, frame]
  · intro a spared
    exact (served.memory a (cells ▸ spared)).trans (m.peek_raises numbers a)
  · rw [served.console, frame]

/-- Line 1 is requested, lines 0 to 2 are unmasked, and a frame below address 4 wraps past
address 0 into the vectors of the last lines. -/
def crowded : Machine PlainMemory :=
  ((Session.start .zero : Session PlainMemory Silence).performAll
    [.load [0x1a] 0x20, .load [0x1a] 0x30, .poke 0xf8 0x20, .poke 0xf9 0x30, .poke 0xfa 0x20,
      .setReg .r5 0x07, .setReg .r6 0x02, .setReg .r7 0x04]).2.machine

theorem crowded_served_in_order :
    let raised := crowded.after ([2, 0, 9, 2, 5].map .raise)
    raised.replies (List.replicate 6 .step) =
        [.outcome (.entered 0), .outcome .executed, .outcome (.entered 1), .outcome .executed,
          .outcome (.entered 2), .outcome .executed] ∧
      (raised.after (List.replicate 6 .step)).reg .r7 = 0x04 ∧
      ∀ a, a ∉ crowded.frameAddresses →
        (raised.after (List.replicate 6 .step)).peek a = crowded.peek a := by
  have lines : (crowded.after ([2, 0, 9, 2, 5].map .raise)).deliverable = [0, 1, 2] := by decide
  have handlers : ∀ line ∈ (crowded.after ([2, 0, 9, 2, 5].map .raise)).deliverable,
      crowded.ReturnsAtOnce line := by decide
  obtain ⟨-, -, replies, registers, -, -, -, -, memory, -⟩ :=
    crowded.pending_served_in_order rfl rfl [2, 0, 9, 2, 5] handlers
  rw [lines] at replies registers memory
  exact ⟨replies, registers .r7 (by decide), memory⟩

end Machine
end EightBit
