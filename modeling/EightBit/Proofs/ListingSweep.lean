import EightBit.Listing
import EightBit.Proofs.EncodedPrefix

/-!
# Sweeping an image

A sweep lists at each point the entry that the bytes from there on begin with, and goes on after
that entry. The bytes of the entries before a point are the bytes of the image before it.
-/
namespace EightBit

namespace Instruction

/-- Three bytes are enough to decode from. -/
theorem decode_take_maxSize_iff {bytes : List UInt8} {i : Instruction} :
    decode (bytes.take maxSize) = .ok i ↔ i.encode <+: bytes := by
  rw [decode_eq_ok_iff, List.prefix_take_iff, length_encode]
  exact and_iff_left i.size_le_maxSize

end Instruction

namespace Listing

/-- The entry at an address, by the bytes from there on. -/
def firstEntry (address : Nat) (bytes : List UInt8) : Entry :=
  match Instruction.decode (bytes.take Instruction.maxSize) with
  | .ok i => ⟨UInt8.ofNat address, i.encode, some i⟩
  | .error _ => ⟨UInt8.ofNat address, bytes.take 1, none⟩

theorem address_firstEntry (address : Nat) (bytes : List UInt8) :
    (firstEntry address bytes).address = UInt8.ofNat address := by
  unfold firstEntry
  split <;> rfl

/-- An instruction is listed exactly where its encoding stands. -/
theorem instruction?_firstEntry_iff {address : Nat} {bytes : List UInt8} {i : Instruction} :
    (firstEntry address bytes).instruction? = some i ↔ i.encode <+: bytes := by
  rw [← Instruction.decode_take_maxSize_iff, firstEntry]
  cases Instruction.decode (bytes.take Instruction.maxSize) <;> simp

theorem bytes_firstEntry_of_some {address : Nat} {bytes : List UInt8} {i : Instruction}
    (h : (firstEntry address bytes).instruction? = some i) :
    (firstEntry address bytes).bytes = i.encode := by
  have decoded := Instruction.decode_take_maxSize_iff.2 (instruction?_firstEntry_iff.1 h)
  simp only [firstEntry, decoded]

theorem bytes_firstEntry_of_none {address : Nat} {bytes : List UInt8}
    (h : (firstEntry address bytes).instruction? = none) :
    (firstEntry address bytes).bytes = bytes.take 1 := by
  unfold firstEntry at h ⊢
  split at h
  · cases h
  · rfl

theorem bytes_firstEntry_append_drop (address : Nat) (bytes : List UInt8) :
    (firstEntry address bytes).bytes ++ bytes.drop (firstEntry address bytes).bytes.length =
      bytes := by
  apply List.prefix_iff_eq_append.1
  cases listed : (firstEntry address bytes).instruction? with
  | none =>
    rw [bytes_firstEntry_of_none listed]
    exact List.take_prefix 1 bytes
  | some i =>
    rw [bytes_firstEntry_of_some listed]
    exact instruction?_firstEntry_iff.1 listed

theorem sweepFrom_nil (address : Nat) : sweepFrom address [] = [] := by rw [sweepFrom]

theorem sweepFrom_cons (address : Nat) (b : UInt8) (rest : List UInt8) :
    sweepFrom address (b :: rest) =
      firstEntry address (b :: rest) ::
        sweepFrom (address + (firstEntry address (b :: rest)).bytes.length)
          ((b :: rest).drop (firstEntry address (b :: rest)).bytes.length) := by
  rw [sweepFrom, firstEntry]
  cases decoded : Instruction.decode ((b :: rest).take Instruction.maxSize) with
  | error e => rfl
  | ok i =>
    have inside := Instruction.decode_take_maxSize_iff.1 decoded
    have encoded : (b :: rest).take i.size = i.encode := by
      rw [← i.length_encode]
      exact (List.prefix_iff_eq_take.1 inside).symm
    have left : (b :: rest).drop i.size = rest.drop i.group.operandCount := by
      rw [Instruction.size, Instruction.Group.size, Nat.add_comm, List.drop_succ_cons]
    simp only [encoded, i.length_encode, left]

/-- What stands at a place of the listing is the entry of the bytes that the entries before it
leave. -/
theorem sweepFrom_eq_append_cons {address : Nat} {bytes : List UInt8} {before after : List Entry}
    {e : Entry} (h : sweepFrom address bytes = before ++ e :: after) :
    ∃ rest, rest ≠ [] ∧ bytes = before.flatMap Entry.bytes ++ rest ∧
      e = firstEntry (address + (before.flatMap Entry.bytes).length) rest ∧
      after = sweepFrom (address + (before.flatMap Entry.bytes).length + e.bytes.length)
        (rest.drop e.bytes.length) := by
  induction before generalizing address bytes with
  | nil =>
    cases bytes with
    | nil =>
      rw [sweepFrom_nil] at h
      cases h
    | cons b rest =>
      rw [sweepFrom_cons] at h
      obtain ⟨rfl, rfl⟩ := List.cons.inj h
      exact ⟨b :: rest, List.cons_ne_nil b rest, rfl, rfl, rfl⟩
  | cons first before ih =>
    cases bytes with
    | nil =>
      rw [sweepFrom_nil] at h
      cases h
    | cons b rest =>
      rw [sweepFrom_cons] at h
      obtain ⟨rfl, others⟩ := List.cons.inj h
      obtain ⟨left, nonempty, split, entry, tail⟩ := ih others
      refine ⟨left, nonempty, ?_, ?_, ?_⟩
      · rw [List.flatMap_cons, List.append_assoc, ← split, bytes_firstEntry_append_drop]
      · rw [List.flatMap_cons, List.length_append, ← Nat.add_assoc, entry]
      · rw [List.flatMap_cons, List.length_append, ← Nat.add_assoc, tail]

end Listing
end EightBit
