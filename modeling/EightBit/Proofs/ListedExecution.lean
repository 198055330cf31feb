import EightBit.HostSession
import EightBit.Proofs.FetchedCode
import EightBit.Proofs.InstructionSteps
import EightBit.Proofs.ListingSweep

/-!
# Executing a listed image

A machine whose memory starts with an image executes what the listing of the image shows at the
program counter, though it always fetches three bytes and the listing stops at the end of the image.
Where nothing is listed the machine traps, unless an instruction reaches past that end.
-/
namespace EightBit

namespace Machine

variable {μ : Type} [Memory μ]

/-- The bytes from the program counter on tell the next instruction when all of it is there. -/
theorem encode_prefix_iff_nextInstruction {m : Machine μ} {rest : List UInt8}
    (holds : Memory.readFrom m.memory m.pc rest.length = rest) {i : Instruction} :
    i.encode <+: rest ↔ i.size ≤ rest.length ∧ m.nextInstruction = .ok i := by
  have front (fits : i.size ≤ rest.length) :
      rest.take i.size = Memory.readFrom m.memory m.pc i.size := by
    rw [← Memory.take_readFrom m.memory m.pc fits, holds]
  rw [List.prefix_iff_eq_take, i.length_encode, nextInstruction_eq_ok_iff_readFrom]
  constructor
  · intro start
    have fits : i.size ≤ rest.length := by
      have length := congrArg List.length start
      rw [i.length_encode, List.length_take] at length
      omega
    exact ⟨fits, (front fits).symm.trans start.symm⟩
  · rintro ⟨fits, next⟩
    exact ((front fits).trans next).symm

theorem traps_of_not_executes {m : Machine μ} (running : m.status = .running)
    (undisturbed : m.acceptable? = none) (idle : ∀ i, ¬ m.Executes i) :
    ∃ trap, m.step.1 = .trapped trap ∧
      ((∃ opcode, trap = .invalidOpcode m.pc opcode) ∨
        ∃ operand, trap = .invalidRegister m.pc operand) := by
  rcases m.step_cases with stopped | ⟨line, enters⟩ | ⟨i, executes⟩ | ⟨trap, traps⟩
  · exact absurd running stopped
  · rw [enters.accepted] at undisturbed
    cases undisturbed
  · exact absurd executes (idle i)
  · refine ⟨trap, congrArg Prod.fst (step_of_traps traps), ?_⟩
    rcases trap_of_undecodable traps.undecodable with opcode | operand
    · exact .inl ⟨_, opcode⟩
    · exact .inr operand

theorem not_trapped_of_executes {m : Machine μ} {i : Instruction} (h : m.Executes i) (trap : Trap) :
    m.step.1 ≠ .trapped trap := by
  rw [outcome_of_executes h]
  split <;> simp

end Machine

namespace Listing

variable {μ : Type} [Memory μ]

/-- Where an entry stands in the image and in a memory that starts with it. -/
theorem place_of_entry {image : List UInt8} (small : image.length ≤ Memory.size)
    {before after : List Entry} {e : Entry}
    (split : sweepFrom 0 image = before ++ e :: after) {memory : μ}
    (holds : Memory.readFrom memory 0 image.length = image) :
    ∃ rest, e = firstEntry e.address.toNat rest ∧
      image.length = e.address.toNat + rest.length ∧
      Memory.readFrom memory e.address rest.length = rest ∧
      after = sweepFrom e.following (rest.drop e.bytes.length) := by
  obtain ⟨rest, nonempty, joined, entry, tail⟩ := sweepFrom_eq_append_cons split
  rw [Nat.zero_add] at entry tail
  have length : image.length = (before.flatMap Entry.bytes).length + rest.length := by
    rw [joined, List.length_append]
  have positive : 0 < rest.length := List.length_pos_iff.2 nonempty
  have address : e.address = UInt8.ofNat (before.flatMap Entry.bytes).length := by
    rw [entry, address_firstEntry]
  have place : e.address.toNat = (before.flatMap Entry.bytes).length := by
    rw [address, UInt8.toNat_ofNat']
    apply Nat.mod_eq_of_lt
    simp only [Memory.size] at small
    omega
  refine ⟨rest, ?_, ?_, ?_, ?_⟩
  · rw [place, ← entry]
  · rw [place, length]
  · rw [joined] at holds
    have found := (Memory.readFrom_of_append holds).2
    rw [UInt8.zero_add, ← address] at found
    exact found
  · rw [tail, Entry.following, place]

theorem address_of_head?_sweepFrom {address : Nat} {bytes : List UInt8} {next : Entry}
    (h : (sweepFrom address bytes).head? = some next) :
    next.address = UInt8.ofNat address ∧ 0 < bytes.length := by
  cases bytes with
  | nil =>
    rw [sweepFrom_nil] at h
    cases h
  | cons b rest =>
    rw [sweepFrom_cons, List.head?_cons] at h
    cases h
    exact ⟨address_firstEntry address _, Nat.zero_lt_succ _⟩

/-- A machine agrees with the listing of the image in its memory: it executes the instruction that
is listed at the program counter and goes on to the next entry, and where a byte is listed it traps
or executes an instruction that the end of the image has cut off. -/
theorem step_agrees_with_entry {image : List UInt8} {entries before after : List Entry} {e : Entry}
    (listed : ofImage? image = some entries) (split : entries = before ++ e :: after)
    {m : Machine μ} (holds : Memory.readFrom m.memory 0 image.length = image)
    (running : m.status = .running) (undisturbed : m.acceptable? = none)
    (place : m.pc = e.address) :
    (∀ i, e.instruction? = some i →
      m.Executes i ∧ e.text = i.text ∧ e.bytes = i.encode ∧
      (∀ trap, m.step.1 ≠ .trapped trap) ∧
      (i.fallsThrough → m.step.2.pc = UInt8.ofNat e.following) ∧
      ∀ a, i = .unary .call a →
        m.step.2.reg .stackPointer = m.reg .stackPointer - 1 ∧
        m.step.2.memory =
          Memory.write m.memory (m.reg .stackPointer - 1) (UInt8.ofNat e.following)) ∧
    (∀ next, after.head? = some next → next.address.toNat = e.following) ∧
    (e.instruction? = none →
      (e.address.toNat + 3 ≤ image.length → ∃ trap, m.step.1 = .trapped trap ∧
        ((∃ opcode, trap = .invalidOpcode e.address opcode) ∨
          ∃ operand, trap = .invalidRegister e.address operand)) ∧
      ∀ i, m.Executes i → image.length < e.address.toNat + i.size) := by
  obtain ⟨small, swept⟩ : image.length ≤ Memory.size ∧ sweepFrom 0 image = entries := by
    simpa [ofImage?] using listed
  obtain ⟨rest, entry, length, found, tail⟩ := place_of_entry small (swept.trans split) holds
  rw [← place] at found
  have shown (i : Instruction) :
      e.instruction? = some i ↔ i.size ≤ rest.length ∧ m.nextInstruction = .ok i := by
    rw [entry, instruction?_firstEntry_iff, Machine.encode_prefix_iff_nextInstruction found]
  have encoded (i : Instruction) (h : e.instruction? = some i) : e.bytes = i.encode := by
    rw [entry] at h ⊢
    exact bytes_firstEntry_of_some h
  have cut (none : e.instruction? = none) (i : Instruction) (executes : m.Executes i) :
      image.length < e.address.toNat + i.size := by
    have hidden : ¬ i.size ≤ rest.length := by
      intro fits
      rw [(shown i).2 ⟨fits, executes.decoded⟩] at none
      cases none
    omega
  refine ⟨?_, ?_, fun none => ⟨?_, cut none⟩⟩
  · intro i h
    have executes : m.Executes i := ⟨running, undisturbed, ((shown i).1 h).2⟩
    have next : m.pc + UInt8.ofNat i.size = UInt8.ofNat e.following := by
      rw [Entry.following, encoded i h, i.length_encode, UInt8.ofNat_add, UInt8.ofNat_toNat, place]
    refine ⟨executes, ?_, encoded i h, Machine.not_trapped_of_executes executes, ?_, ?_⟩
    · simp only [Entry.text, h]
    · intro onward
      rw [Machine.pc_of_executes executes onward, next]
    · rintro a rfl
      rw [← next]
      exact Machine.pushed_of_call executes
  · intro next first
    rw [tail] at first
    obtain ⟨address, more⟩ := address_of_head?_sweepFrom first
    rw [address, UInt8.toNat_ofNat']
    apply Nat.mod_eq_of_lt
    rw [List.length_drop] at more
    simp only [Memory.size] at small
    simp only [Entry.following]
    omega
  · intro room
    rw [← place]
    apply Machine.traps_of_not_executes running undisturbed
    intro i executes
    have size := i.size_le_maxSize
    have reaches := cut none i executes
    simp only [Instruction.maxSize] at size
    omega

/-- A call between bytes that are no instructions; the load after it is cut off by the end of the
image. -/
def calling : Machine PlainMemory :=
  ((Session.start .zero : Session PlainMemory Silence).performAll
    [.load [0x00, 0x0f, 0x01, 0x04, 0x02] 0x00, .poke 0x05 0x09, .setReg .r1 0x40,
      .setPc 0x01]).2.machine

theorem calling_agrees_with_entry :
    calling.Executes (.unary .call .r1) ∧ calling.step.2.reg .stackPointer = 0xf7 ∧
      calling.step.2.memory = Memory.write calling.memory 0xf7 0x03 := by
  have listed : ofImage? [0x00, 0x0f, 0x01, 0x04, 0x02] =
      some ([⟨0x00, [0x00], none⟩] ++ ⟨0x01, [0x0f, 0x01], some (.unary .call .r1)⟩ ::
        [⟨0x03, [0x04], none⟩, ⟨0x04, [0x02], none⟩]) := by cbv
  have holds : Memory.readFrom calling.memory 0 5 = [0x00, 0x0f, 0x01, 0x04, 0x02] := by decide
  obtain ⟨shown, -, -⟩ := step_agrees_with_entry listed rfl holds rfl rfl rfl
  obtain ⟨executes, -, -, -, -, pushed⟩ := shown (.unary .call .r1) rfl
  exact ⟨executes, pushed .r1 rfl⟩

end Listing
end EightBit
