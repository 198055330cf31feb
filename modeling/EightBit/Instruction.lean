import EightBit.Opcode
import EightBit.Register

/-!
# Instructions

An instruction is an operation with its operands. Its encoding is the opcode byte followed by one
byte for each operand; its text has a tab after the mnemonic and a comma between operands.
-/
namespace EightBit

inductive Instruction
  | nullary (op : NullaryOp)
  | unary (op : UnaryOp) (a : Register)
  | binary (op : BinaryOp) (a b : Register)
  | immediate (op : ImmediateOp) (a : Register) (value : UInt8)
  deriving DecidableEq, Repr

namespace Instruction

/-- The kind of operands, which is fixed for each opcode group. -/
inductive Group
  | nullary | unary | binary | immediate
  deriving DecidableEq, Repr

def Group.operandCount : Group → Nat
  | nullary => 0
  | unary => 1
  | binary => 2
  | immediate => 2

/-- The bytes of an instruction of the group, with its opcode. -/
def Group.size (g : Group) : Nat := 1 + g.operandCount

def group : Instruction → Group
  | nullary _ => .nullary
  | unary _ _ => .unary
  | binary _ _ _ => .binary
  | immediate _ _ _ => .immediate

def opcode : Instruction → UInt8
  | nullary op => Opcode.byte op
  | unary op _ => Opcode.byte op
  | binary op _ _ => Opcode.byte op
  | immediate op _ _ => Opcode.byte op

def mnemonic : Instruction → String
  | nullary op => Opcode.name op
  | unary op _ => Opcode.name op
  | binary op _ _ => Opcode.name op
  | immediate op _ _ => Opcode.name op

def registers : Instruction → List Register
  | nullary _ => []
  | unary _ a => [a]
  | binary _ a b => [a, b]
  | immediate _ a _ => [a]

def value? : Instruction → Option UInt8
  | immediate _ _ value => some value
  | _ => none

def operands : Instruction → List UInt8
  | nullary _ => []
  | unary _ a => [a.byte]
  | binary _ a b => [a.byte, b.byte]
  | immediate _ a value => [a.byte, value]

/-- The operands as written: registers by name, a byte in decimal. -/
def operandTexts : Instruction → List String
  | nullary _ => []
  | unary _ a => [a.name]
  | binary _ a b => [a.name, b.name]
  | immediate _ a value => [a.name, Nat.repr value.toNat]

def encode (i : Instruction) : List UInt8 := i.opcode :: i.operands

def size (i : Instruction) : Nat := i.group.size

/-- No instruction takes more bytes than this. -/
def maxSize : Nat := 3

def text (i : Instruction) : String :=
  match i.operandTexts with
  | [] => i.mnemonic
  | operands => i.mnemonic ++ "\t" ++ String.intercalate ", " operands

/-- The registers come first, and then the byte if there is one. -/
theorem operands_eq (i : Instruction) :
    i.operands = i.registers.map Register.byte ++ i.value?.toList := by
  cases i <;> rfl

theorem length_operands (i : Instruction) : i.operands.length = i.group.operandCount := by
  cases i <;> rfl

theorem length_encode (i : Instruction) : i.encode.length = i.size := by
  rw [encode, List.length_cons, length_operands, size, Group.size, Nat.add_comm]

theorem size_pos (i : Instruction) : 0 < i.size := by
  unfold size Group.size
  omega

theorem size_le_maxSize (i : Instruction) : i.size ≤ maxSize := by
  cases i <;> simp [size, group, Group.size, Group.operandCount, maxSize]

end Instruction
end EightBit
