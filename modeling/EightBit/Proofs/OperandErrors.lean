import EightBit.InstructionDecoding

/-!
# Operands that cannot be read

The opcode fixes how many operands there are and which of them are registers. The first one from
the left that is missing or names no register decides why bytes are refused, in whatever order the
groups are tried.
-/
namespace EightBit.Instruction

inductive OperandKind
  | register | byte
  deriving DecidableEq, Repr

def Group.operandKinds : Group → List OperandKind
  | nullary => []
  | unary => [.register]
  | binary => [.register, .register]
  | immediate => [.register, .byte]

/-- The bytes that begin an instruction. -/
def opcodes : List UInt8 :=
  (Opcode.all : List ImmediateOp).map Opcode.byte ++ (Opcode.all : List BinaryOp).map Opcode.byte ++
    (Opcode.all : List UnaryOp).map Opcode.byte ++ (Opcode.all : List NullaryOp).map Opcode.byte

/-- What is wrong with the first operand that is not of its kind. -/
def operandError? (opcode : UInt8) : List OperandKind → List UInt8 → Option Undecodable
  | [], _ => none
  | _ :: _, [] => some (.missingOperand opcode)
  | .register :: kinds, b :: rest =>
    if 8 ≤ b then some (.invalidRegister b) else operandError? opcode kinds rest
  | .byte :: kinds, _ :: rest => operandError? opcode kinds rest

/-- The operands that stand where registers are called for. -/
def registerOperands : List OperandKind → List UInt8 → List UInt8
  | .register :: kinds, b :: rest => b :: registerOperands kinds rest
  | .byte :: kinds, _ :: rest => registerOperands kinds rest
  | _, _ => []

theorem mem_opcodes_iff {b : UInt8} : b ∈ opcodes ↔ ∃ i : Instruction, i.opcode = b := by
  simp only [opcodes, List.mem_append, List.mem_map, Opcode.mem_all, true_and]
  constructor
  · rintro (((⟨op, rfl⟩ | ⟨op, rfl⟩) | ⟨op, rfl⟩) | ⟨op, rfl⟩)
    · exact ⟨.immediate op .r0 0, rfl⟩
    · exact ⟨.binary op .r0 .r0, rfl⟩
    · exact ⟨.unary op .r0, rfl⟩
    · exact ⟨.nullary op, rfl⟩
  · rintro ⟨i, rfl⟩
    cases i with
    | nullary op => exact .inr ⟨op, rfl⟩
    | unary op a => exact .inl (.inr ⟨op, rfl⟩)
    | binary op a b => exact .inl (.inl (.inr ⟨op, rfl⟩))
    | immediate op a value => exact .inl (.inl (.inl ⟨op, rfl⟩))

example : opcodes =
    [0x04, 0x05, 0x09, 0x0c, 0x06, 0x07, 0x0a, 0x0b, 0x0f, 0x11, 0x10, 0x1a, 0x1b] := by decide

theorem map_eq_bind {ε α β : Type} (x : Except ε α) (f : α → β) :
    x.map f = x.bind fun a => .ok (f a) := by
  cases x <;> rfl

/-- Reading a register first fails there or goes on with the operands after it. -/
theorem registerAt_bind_eq_error_iff {α : Type} {opcode : UInt8} {operands : List UInt8}
    {kinds : List OperandKind} {f : Register → Except Undecodable α} {e : Undecodable}
    (onward : ∀ r rest, operands = r.byte :: rest →
      (f r = .error e ↔ operandError? opcode kinds rest = some e)) :
    (registerAt opcode operands 0).bind f = .error e ↔
      operandError? opcode (.register :: kinds) operands = some e := by
  cases operands with
  | nil => simp [registerAt, operandAt, operandError?, Except.bind]
  | cons b rest =>
    cases named : Register.ofByte? b with
    | none =>
      have refused : registerAt opcode (b :: rest) 0 = .error (.invalidRegister b) := by
        simp [registerAt, operandAt_zero, named]
      simp [refused, Except.bind, operandError?, Register.ofByte?_eq_none_iff.1 named]
    | some r =>
      obtain rfl := Register.byte_of_ofByte? named
      have small : ¬ 8 ≤ r.byte := by
        rw [← Register.ofByte?_eq_none_iff, named]
        exact Option.some_ne_none r
      rw [registerAt_zero, operandError?, if_neg small]
      exact onward r rest rfl

theorem operandAt_map_eq_error_iff {α : Type} {opcode : UInt8} {operands : List UInt8}
    {f : UInt8 → α} {e : Undecodable} :
    (operandAt opcode operands 0).map f = .error e ↔
      operandError? opcode [.byte] operands = some e := by
  cases operands <;> simp [operandAt, operandError?, Except.map]

/-- A group refuses its own opcode when an operand is not of its kind. -/
theorem decode?_eq_error_iff {i : Instruction} {operands : List UInt8} {e : Undecodable} :
    i.group.decode? i.opcode operands = some (.error e) ↔
      operandError? i.opcode i.group.operandKinds operands = some e := by
  cases i with
  | nullary op =>
    simp [group, opcode, Group.decode?, Opcode.ofByte?_byte, Group.operandKinds, operandError?]
  | unary op a =>
    simp only [group, opcode, Group.decode?, Opcode.ofByte?_byte, Group.operandKinds,
      Option.map_some, Option.some.injEq, map_eq_bind]
    apply registerAt_bind_eq_error_iff
    intro r rest _
    simp [operandError?]
  | binary op a b =>
    simp only [group, opcode, Group.decode?, Opcode.ofByte?_byte, Group.operandKinds,
      Option.map_some, Option.some.injEq]
    apply registerAt_bind_eq_error_iff
    rintro r rest rfl
    rw [map_eq_bind]
    apply registerAt_bind_eq_error_iff
    intro s rest _
    simp [operandError?]
  | immediate op a value =>
    simp only [group, opcode, Group.decode?, Opcode.ofByte?_byte, Group.operandKinds,
      Option.map_some, Option.some.injEq]
    apply registerAt_bind_eq_error_iff
    rintro r rest rfl
    exact operandAt_map_eq_error_iff

/-- A group always answers for its own opcode. -/
theorem decode?_isSome (i : Instruction) (operands : List UInt8) :
    (i.group.decode? i.opcode operands).isSome := by
  cases i <;> simp [group, opcode, Group.decode?, Opcode.ofByte?_byte]

theorem decodeIn_eq_error_iff {order : List Group} {i : Instruction} (h : i.group ∈ order)
    {operands : List UInt8} {e : Undecodable} :
    decodeIn order (i.opcode :: operands) = .error e ↔
      operandError? i.opcode i.group.operandKinds operands = some e := by
  obtain ⟨result, decided⟩ := Option.isSome_iff_exists.1 (decode?_isSome i operands)
  rw [← decode?_eq_error_iff, decided, decodeIn, findSome?_decode? h decided, Option.some.injEq]

theorem ofByte?_of_not_mem_opcodes {ω : Type} [Opcode ω] {b : UInt8} (h : b ∉ opcodes)
    (make : ω → Instruction) (same : ∀ op, (make op).opcode = Opcode.byte op) :
    (Opcode.ofByte? b : Option ω) = none := by
  apply Opcode.ofByte?_eq_none_iff.2
  intro op named
  exact h (mem_opcodes_iff.2 ⟨make op, (same op).trans named⟩)

theorem decodeIn_of_not_mem_opcodes (order : List Group) {b : UInt8} (h : b ∉ opcodes)
    (operands : List UInt8) : decodeIn order (b :: operands) = .error (.invalidOpcode b) := by
  have unknown : ∀ g ∈ order, g.decode? b operands = none := by
    intro g _
    cases g <;> apply Option.map_eq_none_iff.2
    case nullary => exact ofByte?_of_not_mem_opcodes h nullary fun _ => rfl
    case unary => exact ofByte?_of_not_mem_opcodes h (unary · .r0) fun _ => rfl
    case binary => exact ofByte?_of_not_mem_opcodes h (binary · .r0 .r0) fun _ => rfl
    case immediate => exact ofByte?_of_not_mem_opcodes h (immediate · .r0 0) fun _ => rfl
  rw [decodeIn, List.findSome?_eq_none_iff.2 unknown]

/-- Where no operand is missing the first register operand past the last register decides. -/
theorem operandError?_of_length_le {opcode : UInt8} {kinds : List OperandKind}
    {operands : List UInt8} (h : kinds.length ≤ operands.length) :
    operandError? opcode kinds operands =
      ((registerOperands kinds operands).find? (8 ≤ ·)).map .invalidRegister := by
  induction kinds generalizing operands with
  | nil => simp [operandError?, registerOperands]
  | cons kind kinds ih =>
    cases operands with
    | nil => simp at h
    | cons b rest =>
      have shorter : kinds.length ≤ rest.length := Nat.le_of_succ_le_succ h
      cases kind with
      | byte => exact ih shorter
      | register =>
        by_cases large : 8 ≤ b
        · simp [operandError?, registerOperands, large]
        · simp [operandError?, registerOperands, large, ih shorter]

end EightBit.Instruction
