import EightBit.Proofs.EncodedPrefix
import EightBit.Proofs.StackCells
import EightBit.Proofs.StepCases

/-!
# Code in memory

A machine executes the instruction whose encoding stands at its program counter.
-/
namespace EightBit

/-- Bytes that stand one after the other stand each at its place. -/
theorem Memory.readFrom_of_append {μ : Type} [Memory μ] {memory : μ} {start : UInt8}
    {first second : List UInt8}
    (h : readFrom memory start (first ++ second).length = first ++ second) :
    readFrom memory start first.length = first ∧
      readFrom memory (start + UInt8.ofNat first.length) second.length = second := by
  rw [List.length_append, readFrom_add] at h
  exact List.append_inj h (length_readFrom memory start first.length)

namespace Machine

variable {μ : Type} [Memory μ]

theorem nextInstruction_eq_ok_iff_readFrom {m : Machine μ} {i : Instruction} :
    m.nextInstruction = .ok i ↔ Memory.readFrom m.memory m.pc i.size = i.encode := by
  rw [nextInstruction_eq_ok_iff, Instruction.decode_eq_ok_iff, List.prefix_iff_eq_take,
    i.length_encode, nextBytes, Memory.take_readFrom _ _ i.size_le_maxSize, eq_comm]

theorem executes_of_code {m : Machine μ} {i : Instruction} (running : m.status = .running)
    (undisturbed : m.acceptable? = none)
    (code : Memory.readFrom m.memory m.pc i.size = i.encode) : m.Executes i :=
  ⟨running, undisturbed, nextInstruction_eq_ok_iff_readFrom.2 code⟩

end Machine
end EightBit
