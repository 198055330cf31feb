import EightBit.HostSession
import EightBit.Proofs.AttemptedWrites
import Mathlib.Data.List.Nodup

/-!
# What an interrupt entry does

An entry attempts nine writes and then reads the address of the handler, whatever the memory makes
of the writes. A faithful memory answers what was installed there, or a byte of the frame when the
frame covers the vector.
-/
namespace EightBit.Machine

section

variable {μ : Type}

/-- The frame of an entry in the order in which it is written. -/
def entryWrites (m : Machine μ) (line : Line) : List (UInt8 × UInt8) :=
  [(m.reg .r7 - 1, m.pc), (m.reg .r7 - 2, m.reg .r0), (m.reg .r7 - 3, m.reg .r1),
    (m.reg .r7 - 4, m.reg .r2), (m.reg .r7 - 5, m.reg .r3), (m.reg .r7 - 6, m.reg .r4),
    (m.reg .r7 - 7, m.reg .r5), (m.reg .r7 - 8, LineSet.erase (m.reg .r6) line),
    (m.reg .r7 - 9, m.reg .r7 - 9)]

theorem pushesBelow_entryFrame (m : Machine μ) (line : Line) :
    pushesBelow (m.reg .r7) (m.entryFrame line).reverse = m.entryWrites line := by
  have lower : ∀ a b c : UInt8, a - b - c = a - (b + c) := by
    intro a b c
    grind
  simp [pushesBelow, entryFrame, entryWrites, lower]

theorem nodup_entryAddresses (m : Machine μ) (line : Line) :
    ((m.entryWrites line).map Prod.fst).Nodup := by
  have addresses : (m.entryWrites line).map Prod.fst =
      [1, 2, 3, 4, 5, 6, 7, 8, 9].map (m.reg .r7 - ·) := rfl
  rw [addresses]
  exact List.Nodup.map (fun _ _ => (UInt8.sub_right_inj _).1) (by decide)

variable [Memory μ]

theorem memory_enterHandler (m : Machine μ) (line : Line) :
    (m.enterHandler line).memory = Memory.writeAll m.memory (m.entryWrites line) := by
  have pointer : (m.acknowledged line).reg .stackPointer = m.reg .r7 := by
    simp [reg_acknowledged]
  have pushed := (m.acknowledged line).memory_pushAll (m.entryFrame line).reverse
  rw [pointer, pushesBelow_entryFrame] at pushed
  rw [enterHandler_eq]
  exact pushed

theorem pc_enterHandler_eq_read (m : Machine μ) (line : Line) :
    (m.enterHandler line).pc = Memory.read (m.enterHandler line).memory (vector line) := by
  rw [enterHandler_eq]
  rfl

theorem attemptedWrites_of_enters {m : Machine μ} {line : Line} (h : m.Enters line) :
    m.attemptedWrites = m.entryWrites line := by
  have entered : m.journaled.Enters line := ⟨h.running, h.accepted⟩
  apply attemptedWrites_eq
  rw [step_of_enters entered]
  exact m.journaled.counted.memory_enterHandler line

theorem step_eq_entered_iff {m : Machine μ} (running : m.status = .running) {line : Line} :
    m.step.1 = .entered line ↔
      m.interruptsEnabled = true ∧
        LineSet.contains (m.reg .requests &&& m.reg .mask) line = true ∧
        ∀ lower < line, LineSet.contains (m.reg .requests &&& m.reg .mask) lower = false := by
  rw [← LineSet.lowest?_eq_some_iff, ← acceptable?_eq_some_iff]
  constructor
  · intro entered
    exact (enters_of_step entered).accepted
  · intro accepted
    exact congrArg Prod.fst (step_of_enters ⟨running, accepted⟩)

/-- Reading back what an entry has written over a faithful memory. -/
theorem pc_of_faithful (faithful : Memory.Faithful μ) (m : Machine μ) (line : Line) :
    (vector line ∉ (m.entryWrites line).map Prod.fst →
      (m.enterHandler line).pc = m.peek (vector line)) ∧
    ∀ v, (vector line, v) ∈ m.entryWrites line → (m.enterHandler line).pc = v := by
  rw [pc_enterHandler_eq_read, memory_enterHandler]
  constructor
  · intro spared
    exact faithful.read_writeAll_of_not_mem _ spared
  · intro v covered
    exact faithful.read_writeAll_of_mem _ (m.nodup_entryAddresses line) covered

/-- A running machine enters a handler exactly for the lowest line that is requested and not masked,
and all that this changes is the request, the stack and its pointer, the program counter and the
interrupt flag. -/
theorem entry_exact (m : Machine μ) (running : m.status = .running) (line : Line) :
    let acceptable := m.reg .requests &&& m.reg .mask
    (m.step.1 = .entered line ↔
      m.interruptsEnabled = true ∧ acceptable ≠ 0 ∧ LineSet.contains acceptable line = true ∧
        ∀ lower < line, LineSet.contains acceptable lower = false) ∧
    (m.step.1 = .entered line →
      m.attemptedWrites = m.entryWrites line ∧
      (∀ other, LineSet.contains (m.step.2.reg .requests) other =
        (LineSet.contains (m.reg .requests) other && decide (other ≠ line))) ∧
      m.step.2.reg .stackPointer = m.reg .stackPointer - 9 ∧
      (∀ r, r ≠ .requests → r ≠ .stackPointer → m.step.2.reg r = m.reg r) ∧
      m.step.2 =
        { m with
          registers := m.step.2.registers
          pc := Memory.read (Memory.writeAll m.memory (m.entryWrites line)) (vector line)
          interruptsEnabled := false
          cycles := m.cycles + 1
          memory := Memory.writeAll m.memory (m.entryWrites line) } ∧
      (Memory.Faithful μ →
        (vector line ∉ (m.entryWrites line).map Prod.fst →
          m.step.2.pc = m.peek (vector line)) ∧
        ∀ v, (vector line, v) ∈ m.entryWrites line → m.step.2.pc = v)) := by
  intro acceptable
  refine ⟨?_, ?_⟩
  · rw [step_eq_entered_iff running]
    have requested : LineSet.contains acceptable line = true → acceptable ≠ 0 := by
      intro found none
      rw [none] at found
      exact absurd found (by simp [LineSet.contains])
    exact and_congr_right fun _ => ⟨fun h => ⟨requested h.1, h⟩, fun h => h.2⟩
  · intro entered
    have enters : m.Enters line := enters_of_step entered
    have after : m.step.2 = m.counted.enterHandler line :=
      congrArg Prod.snd (step_of_enters enters)
    have memory : (m.counted.enterHandler line).memory =
        Memory.writeAll m.memory (m.entryWrites line) := m.counted.memory_enterHandler line
    rw [after]
    refine ⟨attemptedWrites_of_enters enters, ?_, ?_, ?_, ?_, ?_⟩
    · intro other
      have requests : (m.counted.enterHandler line).reg .requests =
          LineSet.erase (m.reg .requests) line := by
        rw [reg_enterHandler]
        rfl
      rw [requests, LineSet.contains_erase]
    · exact (m.counted.reg_enterHandler line .stackPointer).trans (if_pos rfl)
    · intro r general pointer
      rw [reg_enterHandler, if_neg pointer.symm, if_neg general.symm]
      rfl
    · rw [← memory, ← pc_enterHandler_eq_read]
      exact m.counted.enterHandler_frame line
    · intro faithful
      exact pc_of_faithful faithful m.counted line

/-- Lines 3 and 7 are requested, and the frame of an entry below address 4 wraps past address 0
onto the vector of line 3. -/
def ontoVector : Machine PlainMemory :=
  ((Session.start .zero : Session PlainMemory Silence).performAll
    [.poke 0xfb 0x20, .setPc 0x10, .setReg .r0 0xa0, .setReg .r1 0xa1, .setReg .r2 0xa2,
      .setReg .r3 0xa3, .setReg .r4 0xa4, .setReg .r5 0xfc, .setReg .r6 0x8b,
      .setReg .r7 0x04]).2.machine

theorem entry_exact_onto_vector :
    ontoVector.status = .running ∧ ontoVector.step.1 = .entered 3 ∧
      ontoVector.attemptedWrites =
        [(0x03, 0x10), (0x02, 0xa0), (0x01, 0xa1), (0x00, 0xa2), (0xff, 0xa3), (0xfe, 0xa4),
          (0xfd, 0xfc), (0xfc, 0x83), (0xfb, 0xfb)] ∧
      ontoVector.step.2.pc = 0xfb := by
  obtain ⟨entered, told⟩ := ontoVector.entry_exact rfl 3
  have accepted : ontoVector.step.1 = .entered 3 := entered.2 (by decide)
  obtain ⟨writes, -, -, -, -, read⟩ := told accepted
  exact ⟨rfl, accepted, writes.trans (by decide), (read PlainMemory.faithful).2 0xfb (by decide)⟩

end

end EightBit.Machine
