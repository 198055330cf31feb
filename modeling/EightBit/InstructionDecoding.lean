import EightBit.Instruction
import EightBit.Numerals

/-!
# Decoding instructions

The opcode byte decides the group, and the group decides how the bytes after it are read, from
left to right. Bytes past the last operand are not looked at, so an encoded instruction decodes to
itself in front of any further bytes.
-/
namespace EightBit

/-- Why no instruction can be read from the start of some bytes. -/
inductive Undecodable
  | empty
  | invalidOpcode (opcode : UInt8)
  | invalidRegister (operand : UInt8)
  | missingOperand (opcode : UInt8)
  deriving DecidableEq, Repr

def Undecodable.message : Undecodable → String
  | empty => "empty input"
  | invalidOpcode opcode => "invalid opcode 0b" ++ Numerals.binary opcode
  | invalidRegister operand => "invalid register operand " ++ Nat.repr operand.toNat
  | missingOperand opcode => "opcode 0b" ++ Numerals.binary opcode ++ " is missing an operand"

namespace Instruction

/-- The operand byte at an index, counted from the byte after the opcode. -/
def operandAt (opcode : UInt8) (operands : List UInt8) (i : Nat) : Except Undecodable UInt8 :=
  match operands[i]? with
  | some b => .ok b
  | none => .error (.missingOperand opcode)

def registerAt (opcode : UInt8) (operands : List UInt8) (i : Nat) :
    Except Undecodable Register :=
  match operandAt opcode operands i with
  | .error e => .error e
  | .ok b =>
    match Register.ofByte? b with
    | some r => .ok r
    | none => .error (.invalidRegister b)

/-- The instruction a group makes of an opcode and the bytes after it, or nothing when the opcode
is not one of the group. -/
def Group.decode? (opcode : UInt8) (operands : List UInt8) :
    Group → Option (Except Undecodable Instruction)
  | nullary => (Opcode.ofByte? opcode).map fun op => .ok (.nullary op)
  | unary => (Opcode.ofByte? opcode).map fun op =>
      (registerAt opcode operands 0).map (.unary op)
  | binary => (Opcode.ofByte? opcode).map fun op =>
      (registerAt opcode operands 0).bind fun a =>
        (registerAt opcode operands 1).map (.binary op a)
  | immediate => (Opcode.ofByte? opcode).map fun op =>
      (registerAt opcode operands 0).bind fun a =>
        (operandAt opcode operands 1).map (.immediate op a)

/-- Decoding with the groups tried in a given order. -/
def decodeIn (order : List Group) : List UInt8 → Except Undecodable Instruction
  | [] => .error .empty
  | opcode :: operands =>
    match order.findSome? (Group.decode? opcode operands) with
    | some result => result
    | none => .error (.invalidOpcode opcode)

/-- No opcode is in two groups, so any order would do. -/
def decode (bytes : List UInt8) : Except Undecodable Instruction :=
  decodeIn [.immediate, .binary, .unary, .nullary] bytes

theorem operandAt_zero (opcode b : UInt8) (rest : List UInt8) :
    operandAt opcode (b :: rest) 0 = .ok b := rfl

theorem operandAt_one (opcode a b : UInt8) (rest : List UInt8) :
    operandAt opcode (a :: b :: rest) 1 = .ok b := rfl

theorem registerAt_zero (opcode : UInt8) (r : Register) (rest : List UInt8) :
    registerAt opcode (r.byte :: rest) 0 = .ok r := by
  simp [registerAt, operandAt_zero, Register.ofByte?_byte]

theorem registerAt_one (opcode a : UInt8) (r : Register) (rest : List UInt8) :
    registerAt opcode (a :: r.byte :: rest) 1 = .ok r := by
  simp [registerAt, operandAt_one, Register.ofByte?_byte]

theorem operandAt_eq_ok_iff {opcode b : UInt8} {operands : List UInt8} {i : Nat} :
    operandAt opcode operands i = .ok b ↔ operands[i]? = some b := by
  unfold operandAt
  cases operands[i]? <;> simp

theorem registerAt_eq_ok_iff {opcode : UInt8} {operands : List UInt8} {i : Nat} {r : Register} :
    registerAt opcode operands i = .ok r ↔ operands[i]? = some r.byte := by
  unfold registerAt operandAt
  cases operands[i]? with
  | none => simp
  | some b =>
    have named : b = r.byte ↔ Register.ofByte? b = some r :=
      eq_comm.trans Register.ofByte?_eq_some_iff.symm
    rw [Option.some.injEq, named]
    cases h : Register.ofByte? b <;> simp [h]

theorem decode?_group (i : Instruction) (rest : List UInt8) :
    i.group.decode? i.opcode (i.operands ++ rest) = some (.ok i) := by
  cases i <;> simp [group, opcode, operands, Group.decode?, Opcode.ofByte?_byte, registerAt_zero,
    registerAt_one, operandAt_one, Except.map, Except.bind]

/-- An opcode of one group is unknown to the others. -/
theorem decode?_of_ne_group {i : Instruction} {g : Group} (h : g ≠ i.group)
    (operands : List UInt8) : g.decode? i.opcode operands = none := by
  cases i with
  | nullary op => cases op <;> cases g <;> first | rfl | exact absurd rfl h
  | unary op a => cases op <;> cases g <;> first | rfl | exact absurd rfl h
  | binary op a b => cases op <;> cases g <;> first | rfl | exact absurd rfl h
  | immediate op a value => cases op; cases g <;> first | rfl | exact absurd rfl h

/-- In any order that has the instruction's group, that group decides. -/
theorem findSome?_decode? {order : List Group} {i : Instruction} (h : i.group ∈ order)
    {operands : List UInt8} {result : Except Undecodable Instruction}
    (decided : i.group.decode? i.opcode operands = some result) :
    order.findSome? (Group.decode? i.opcode operands) = some result := by
  induction order with
  | nil => simp at h
  | cons g order ih =>
    by_cases same : g = i.group
    · rw [List.findSome?_cons, same, decided]
    · rw [List.findSome?_cons, decode?_of_ne_group same]
      exact ih ((List.mem_cons.1 h).resolve_left (Ne.symm same))

theorem decodeIn_encode_append {order : List Group} {i : Instruction} (h : i.group ∈ order)
    (rest : List UInt8) : decodeIn order (i.encode ++ rest) = .ok i := by
  have found := findSome?_decode? h (decode?_group i rest)
  simp [encode, decodeIn, found]

theorem decode_encode_append (i : Instruction) (rest : List UInt8) :
    decode (i.encode ++ rest) = .ok i :=
  decodeIn_encode_append (by cases i <;> simp [group]) rest

end Instruction
end EightBit
