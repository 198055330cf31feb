/-!
# Opcode groups

An opcode group lists its operations, each with a byte and a mnemonic. Within a group no byte is
used twice, so reading an opcode byte undoes writing it.
-/
namespace EightBit

class Opcode (ω : Type) where
  all : List ω
  byte : ω → UInt8
  name : ω → String
  mem_all : ∀ op : ω, op ∈ all
  byte_injective : ∀ {a b : ω}, byte a = byte b → a = b

namespace Opcode

variable {ω : Type} [Opcode ω]

def ofNumber? (n : Nat) : Option ω := all.find? fun op => (byte op).toNat == n

def ofByte? (b : UInt8) : Option ω := ofNumber? b.toNat

theorem ofNumber?_eq_some_iff {n : Nat} {op : ω} :
    ofNumber? n = some op ↔ (byte op).toNat = n := by
  constructor
  · intro h
    simpa using List.find?_some h
  · rintro rfl
    cases h : (ofNumber? (byte op).toNat : Option ω) with
    | none => simpa using List.find?_eq_none.1 h op (mem_all op)
    | some found =>
      have same : (byte found).toNat = (byte op).toNat := by simpa using List.find?_some h
      rw [byte_injective (UInt8.toNat_inj.1 same)]

theorem ofByte?_eq_some_iff {b : UInt8} {op : ω} : ofByte? b = some op ↔ byte op = b := by
  rw [ofByte?, ofNumber?_eq_some_iff, UInt8.toNat_inj]

theorem ofByte?_byte (op : ω) : ofByte? (byte op) = some op := ofByte?_eq_some_iff.2 rfl

theorem ofByte?_eq_none_iff {b : UInt8} : (ofByte? b : Option ω) = none ↔ ∀ op : ω, byte op ≠ b := by
  simp [Option.eq_none_iff_forall_ne_some, ofByte?_eq_some_iff]

end Opcode

inductive NullaryOp
  | ret | iret | hlt
  deriving DecidableEq, Repr

inductive UnaryOp
  | prn | pra | push | pop | call | jmp
  deriving DecidableEq, Repr

inductive BinaryOp
  | mul | st | add
  deriving DecidableEq, Repr

/-- Operations on a register and a byte of the program. -/
inductive ImmediateOp
  | ldi
  deriving DecidableEq, Repr

instance : Opcode NullaryOp where
  all := [.ret, .iret, .hlt]
  byte
    | .ret => 0b00010000
    | .iret => 0b00011010
    | .hlt => 0b00011011
  name
    | .ret => "ret"
    | .iret => "iret"
    | .hlt => "hlt"
  mem_all op := by cases op <;> decide
  byte_injective {a b} := by cases a <;> cases b <;> decide

instance : Opcode UnaryOp where
  all := [.prn, .pra, .push, .pop, .call, .jmp]
  byte
    | .prn => 0b00000110
    | .pra => 0b00000111
    | .push => 0b00001010
    | .pop => 0b00001011
    | .call => 0b00001111
    | .jmp => 0b00010001
  name
    | .prn => "prn"
    | .pra => "pra"
    | .push => "push"
    | .pop => "pop"
    | .call => "call"
    | .jmp => "jmp"
  mem_all op := by cases op <;> decide
  byte_injective {a b} := by cases a <;> cases b <;> decide

instance : Opcode BinaryOp where
  all := [.mul, .st, .add]
  byte
    | .mul => 0b00000101
    | .st => 0b00001001
    | .add => 0b00001100
  name
    | .mul => "mul"
    | .st => "st"
    | .add => "add"
  mem_all op := by cases op <;> decide
  byte_injective {a b} := by cases a <;> cases b <;> decide

instance : Opcode ImmediateOp where
  all := [.ldi]
  byte
    | .ldi => 0b00000100
  name
    | .ldi => "ldi"
  mem_all op := by cases op; decide
  byte_injective {a b} := by cases a; cases b; decide

end EightBit
