import EightBit.InstructionDecoding

/-!
# Instructions at the start of bytes

Bytes decode to an instruction exactly when they start with its encoding. No encoding is the start
of another one, so the instruction at the start of some bytes is unique and what follows it plays
no part.
-/
namespace EightBit.Instruction

theorem exists_of_map_eq_ok {ε α β : Type} {x : Except ε α} {f : α → β} {b : β}
    (h : x.map f = .ok b) : ∃ a, x = .ok a ∧ f a = b := by
  cases x with
  | error e => cases h
  | ok a => exact ⟨a, rfl, Except.ok.inj h⟩

theorem exists_of_bind_eq_ok {ε α β : Type} {x : Except ε α} {f : α → Except ε β} {b : β}
    (h : x.bind f = .ok b) : ∃ a, x = .ok a ∧ f a = .ok b := by
  cases x with
  | error e => cases h
  | ok a => exact ⟨a, rfl, h⟩

theorem prefix_of_first {operands : List UInt8} {a : UInt8} (first : operands[0]? = some a) :
    [a] <+: operands := by
  cases operands with
  | nil => cases first
  | cons x rest =>
    cases first
    exact List.prefix_append [a] rest

theorem prefix_of_first_second {operands : List UInt8} {a b : UInt8}
    (first : operands[0]? = some a) (second : operands[1]? = some b) : [a, b] <+: operands := by
  cases operands with
  | nil => cases first
  | cons x rest =>
    cases first
    exact List.cons_prefix_cons.2 ⟨rfl, prefix_of_first second⟩

/-- A group reads its operands where an encoding has them. -/
theorem operands_prefix_of_decode? {g : Group} {opcode : UInt8} {operands : List UInt8}
    {i : Instruction} (h : g.decode? opcode operands = some (.ok i)) :
    i.opcode = opcode ∧ i.operands <+: operands := by
  cases g with
  | nullary =>
    obtain ⟨op, named, made⟩ := Option.map_eq_some_iff.1 h
    cases made
    exact ⟨Opcode.ofByte?_eq_some_iff.1 named, List.nil_prefix⟩
  | unary =>
    obtain ⟨op, named, made⟩ := Option.map_eq_some_iff.1 h
    obtain ⟨a, first, rfl⟩ := exists_of_map_eq_ok made
    exact ⟨Opcode.ofByte?_eq_some_iff.1 named, prefix_of_first (registerAt_eq_ok_iff.1 first)⟩
  | binary =>
    obtain ⟨op, named, made⟩ := Option.map_eq_some_iff.1 h
    obtain ⟨a, first, rest⟩ := exists_of_bind_eq_ok made
    obtain ⟨b, second, rfl⟩ := exists_of_map_eq_ok rest
    exact ⟨Opcode.ofByte?_eq_some_iff.1 named,
      prefix_of_first_second (registerAt_eq_ok_iff.1 first) (registerAt_eq_ok_iff.1 second)⟩
  | immediate =>
    obtain ⟨op, named, made⟩ := Option.map_eq_some_iff.1 h
    obtain ⟨a, first, rest⟩ := exists_of_bind_eq_ok made
    obtain ⟨value, second, rfl⟩ := exists_of_map_eq_ok rest
    exact ⟨Opcode.ofByte?_eq_some_iff.1 named,
      prefix_of_first_second (registerAt_eq_ok_iff.1 first) (operandAt_eq_ok_iff.1 second)⟩

/-- Whatever the order of the groups, decoded bytes start with the encoding. -/
theorem encode_prefix_of_decodeIn {order : List Group} {bytes : List UInt8} {i : Instruction}
    (h : decodeIn order bytes = .ok i) : i.encode <+: bytes := by
  cases bytes with
  | nil => cases h
  | cons opcode operands =>
    cases found : order.findSome? (Group.decode? opcode operands) with
    | none =>
      simp only [decodeIn, found] at h
      cases h
    | some result =>
      simp only [decodeIn, found] at h
      subst h
      obtain ⟨g, -, made⟩ := List.exists_of_findSome?_eq_some found
      exact List.cons_prefix_cons.2 (operands_prefix_of_decode? made)

theorem decode_eq_ok_iff {bytes : List UInt8} {i : Instruction} :
    decode bytes = .ok i ↔ i.encode <+: bytes := by
  constructor
  · exact encode_prefix_of_decodeIn
  · rintro ⟨rest, rfl⟩
    exact i.decode_encode_append rest

/-- No encoding is the start of another one. -/
theorem encode_prefix_encode_iff {i j : Instruction} : i.encode <+: j.encode ↔ i = j := by
  constructor
  · intro inside
    have decoded : decode j.encode = .ok j := decode_eq_ok_iff.2 (List.prefix_refl j.encode)
    rw [decode_eq_ok_iff.2 inside] at decoded
    exact Except.ok.inj decoded
  · rintro rfl
    exact List.prefix_refl i.encode

/-- Decoding and encoding are inverse to each other over all byte strings. -/
theorem decode_inverse_encode (bytes : List UInt8) (i : Instruction) :
    (decode bytes = .ok i ↔ i.encode <+: bytes) ∧
    i.encode.length = i.size ∧
    (∀ j : Instruction, i.encode <+: j.encode ↔ i = j) ∧
    (∀ rest, decode (i.encode ++ rest) = .ok i) ∧
    (decode bytes = .ok i ↔ ∀ rest, decode (bytes ++ rest) = .ok i) := by
  refine ⟨decode_eq_ok_iff, i.length_encode, fun _ => encode_prefix_encode_iff,
    i.decode_encode_append, ?_⟩
  constructor
  · intro decoded rest
    have start := decode_eq_ok_iff.1 decoded
    exact decode_eq_ok_iff.2 (start.trans (List.prefix_append bytes rest))
  · intro always
    have decoded := always []
    rw [List.append_nil] at decoded
    exact decoded

end EightBit.Instruction
