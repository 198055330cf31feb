import EightBit.Proofs.EncodedPrefix
import EightBit.Proofs.OperandErrors

/-!
# Bytes that no instruction begins

An error of decoding tells exactly what is wrong at the start of the bytes: there is nothing, or no
opcode, or an operand that is the first one from the left to be missing or no register. No group
takes an opcode of another one, so this does not depend on the order in which they are tried.
-/
namespace EightBit.Instruction

/-- The operand at an index is there, and is a register where one is called for. -/
def OperandFits (kinds : List OperandKind) (operands : List UInt8) (n : Nat) : Prop :=
  ∃ b, operands[n]? = some b ∧ (kinds[n]? = some .register → b < 8)

/-- All operands before an index fit, but the one that is called for there does not. -/
structure FirstMisfit (kinds : List OperandKind) (operands : List UInt8) (n : Nat) : Prop where
  called : n < kinds.length
  before : ∀ k < n, OperandFits kinds operands k
  misfit : ¬ OperandFits kinds operands n

/-- What an operand that does not fit is refused for. -/
def misfitError (opcode : UInt8) (operands : List UInt8) (n : Nat) : Undecodable :=
  match operands[n]? with
  | none => .missingOperand opcode
  | some b => .invalidRegister b

section

variable {opcode b : UInt8} {kind : OperandKind} {kinds : List OperandKind} {operands : List UInt8}
  {n : Nat}

theorem operandFits_succ :
    OperandFits (kind :: kinds) operands (n + 1) ↔ OperandFits kinds operands.tail n := by
  cases operands <;> exact Iff.rfl

theorem operandFits_zero :
    OperandFits (kind :: kinds) (b :: operands) 0 ↔ (kind = .register → b < 8) := by
  simp [OperandFits]

theorem firstMisfit_zero :
    FirstMisfit (kind :: kinds) operands 0 ↔ ¬ OperandFits (kind :: kinds) operands 0 :=
  ⟨fun first => first.misfit, fun misfit => ⟨Nat.succ_pos _, nofun, misfit⟩⟩

theorem firstMisfit_succ :
    FirstMisfit (kind :: kinds) operands (n + 1) ↔
      OperandFits (kind :: kinds) operands 0 ∧ FirstMisfit kinds operands.tail n := by
  constructor
  · intro first
    refine ⟨first.before 0 (Nat.succ_pos n), Nat.lt_of_succ_lt_succ first.called, ?_, ?_⟩
    · intro k less
      exact operandFits_succ.1 (first.before (k + 1) (Nat.succ_lt_succ less))
    · exact fun fits => first.misfit (operandFits_succ.2 fits)
  · rintro ⟨fits, later⟩
    refine ⟨Nat.succ_lt_succ later.called, ?_, fun next => later.misfit (operandFits_succ.1 next)⟩
    intro k less
    cases k with
    | zero => exact fits
    | succ k => exact operandFits_succ.2 (later.before k (Nat.lt_of_succ_lt_succ less))

theorem operandError?_of_fits (fits : OperandFits (kind :: kinds) operands 0) :
    operandError? opcode (kind :: kinds) operands = operandError? opcode kinds operands.tail := by
  cases operands with
  | nil =>
    obtain ⟨b, none, -⟩ := fits
    cases none
  | cons b rest =>
    cases kind with
    | register =>
      have small := operandFits_zero.1 fits rfl
      exact if_neg (UInt8.not_le.2 small)
    | byte => rfl

theorem operandError?_of_misfit (misfit : ¬ OperandFits (kind :: kinds) operands 0) :
    operandError? opcode (kind :: kinds) operands = some (misfitError opcode operands 0) := by
  cases operands with
  | nil => rfl
  | cons b rest =>
    rw [operandFits_zero, Classical.not_imp] at misfit
    obtain ⟨rfl, large⟩ := misfit
    exact if_pos (UInt8.not_lt.1 large)

/-- Reading from the left finds the first operand that does not fit. -/
theorem operandError?_eq_some_iff {e : Undecodable} :
    operandError? opcode kinds operands = some e ↔
      ∃ n, FirstMisfit kinds operands n ∧ misfitError opcode operands n = e := by
  induction kinds generalizing operands with
  | nil =>
    constructor
    · nofun
    · rintro ⟨n, first, -⟩
      exact absurd first.called (Nat.not_lt_zero n)
  | cons kind kinds ih =>
    by_cases fits : OperandFits (kind :: kinds) operands 0
    · have shifted (n : Nat) :
          misfitError opcode operands (n + 1) = misfitError opcode operands.tail n := by
        cases operands <;> rfl
      rw [operandError?_of_fits fits, ih]
      constructor
      · rintro ⟨n, first, told⟩
        exact ⟨n + 1, firstMisfit_succ.2 ⟨fits, first⟩, (shifted n).trans told⟩
      · rintro ⟨n, first, told⟩
        cases n with
        | zero => exact absurd fits first.misfit
        | succ n => exact ⟨n, (firstMisfit_succ.1 first).2, (shifted n).symm.trans told⟩
    · rw [operandError?_of_misfit fits, Option.some.injEq]
      constructor
      · exact fun told => ⟨0, firstMisfit_zero.2 fits, told⟩
      · rintro ⟨n, first, told⟩
        cases n with
        | zero => exact told
        | succ n => exact absurd (firstMisfit_succ.1 first).1 fits

theorem operandError?_eq_missingOperand_iff {code : UInt8} :
    operandError? opcode kinds operands = some (.missingOperand code) ↔
      code = opcode ∧ ∃ n, FirstMisfit kinds operands n ∧ operands.length ≤ n := by
  have missing (n : Nat) : misfitError opcode operands n = .missingOperand code ↔
      code = opcode ∧ operands.length ≤ n := by
    rw [← List.getElem?_eq_none_iff]
    cases at_n : operands[n]? <;> simp [misfitError, at_n, eq_comm]
  simp only [operandError?_eq_some_iff, missing]
  constructor
  · rintro ⟨n, first, same, short⟩
    exact ⟨same, n, first, short⟩
  · rintro ⟨same, n, first, short⟩
    exact ⟨n, first, same, short⟩

/-- Only an operand that should be a register is refused for its value. -/
theorem operandError?_eq_invalidRegister_iff :
    operandError? opcode kinds operands = some (.invalidRegister b) ↔
      ∃ n, FirstMisfit kinds operands n ∧ operands[n]? = some b ∧ kinds[n]? = some .register ∧
        8 ≤ b := by
  have refused (n : Nat) :
      misfitError opcode operands n = .invalidRegister b ↔ operands[n]? = some b := by
    cases at_n : operands[n]? <;> simp [misfitError, at_n]
  simp only [operandError?_eq_some_iff, refused]
  constructor
  · rintro ⟨n, first, here⟩
    have large : kinds[n]? = some .register ∧ ¬ b < 8 :=
      Classical.not_imp.1 fun fine => first.misfit ⟨b, here, fine⟩
    exact ⟨n, first, here, large.1, UInt8.not_lt.1 large.2⟩
  · rintro ⟨n, first, here, -⟩
    exact ⟨n, first, here⟩

/-- Where there is no first misfit, there is none at all. -/
theorem operandError?_eq_none_iff :
    operandError? opcode kinds operands = none ↔
      ∀ n < kinds.length, OperandFits kinds operands n := by
  rw [Option.eq_none_iff_forall_ne_some]
  constructor
  · intro accepted n
    induction n using Nat.strongRecOn with
    | ind n ih =>
      intro called
      refine Classical.byContradiction fun misfit => ?_
      have first : FirstMisfit kinds operands n :=
        ⟨called, fun k less => ih k less (Nat.lt_trans less called), misfit⟩
      exact accepted _ (operandError?_eq_some_iff.2 ⟨n, first, rfl⟩)
  · intro fits e refused
    obtain ⟨n, first, -⟩ := operandError?_eq_some_iff.1 refused
    exact first.misfit (fits n first.called)

end

theorem length_operandKinds_lt (i : Instruction) : i.group.operandKinds.length < 3 := by
  cases i <;> simp [group, Group.operandKinds]

/-- There are no bytes, no opcode, or the opcode of an instruction. -/
theorem bytes_cases (bytes : List UInt8) :
    bytes = [] ∨ (∃ b rest, bytes = b :: rest ∧ b ∉ opcodes) ∨
      ∃ (i : Instruction) (operands : List UInt8), bytes = i.opcode :: operands := by
  cases bytes with
  | nil => exact .inl rfl
  | cons b rest =>
    by_cases known : b ∈ opcodes
    · obtain ⟨i, rfl⟩ := mem_opcodes_iff.1 known
      exact .inr (.inr ⟨i, rest, rfl⟩)
    · exact .inr (.inl ⟨b, rest, rfl, known⟩)

/-- Only the group of the opcode answers, so all orders that have it give the same result. -/
theorem decodeIn_eq_of_mem {order other : List Group} {i : Instruction} (h : i.group ∈ order)
    (h' : i.group ∈ other) (operands : List UInt8) :
    decodeIn order (i.opcode :: operands) = decodeIn other (i.opcode :: operands) := by
  obtain ⟨result, decided⟩ := Option.isSome_iff_exists.1 (decode?_isSome i operands)
  simp only [decodeIn, findSome?_decode? h decided, findSome?_decode? h' decided]

theorem exists_ok_iff {ε α : Type} {x : Except ε α} :
    (∃ a, x = .ok a) ↔ ∀ e, x ≠ .error e := by
  cases x <;> simp

section

variable {order : List Group} (complete : ∀ g : Group, g ∈ order)

include complete

theorem decodeIn_eq_decode (bytes : List UInt8) : decodeIn order bytes = decode bytes := by
  rcases bytes_cases bytes with rfl | ⟨b, rest, rfl, unknown⟩ | ⟨i, operands, rfl⟩
  · rfl
  · rw [decode, decodeIn_of_not_mem_opcodes _ unknown, decodeIn_of_not_mem_opcodes _ unknown]
  · exact decodeIn_eq_of_mem (complete _) (by cases i <;> simp [group]) operands

theorem exists_decodeIn_eq_ok_iff (i : Instruction) (operands : List UInt8) :
    (∃ j, decodeIn order (i.opcode :: operands) = .ok j) ↔
      ∀ n < i.group.operandKinds.length, OperandFits i.group.operandKinds operands n := by
  rw [exists_ok_iff, ← @operandError?_eq_none_iff i.opcode,
    Option.eq_none_iff_forall_ne_some]
  exact forall_congr' fun e => not_congr (decodeIn_eq_error_iff (complete _))

/-- A known opcode is refused for an operand only. -/
theorem error_cases_of_known {i : Instruction} {operands : List UInt8} {e : Undecodable}
    (refused : decodeIn order (i.opcode :: operands) = .error e) :
    e = .missingOperand i.opcode ∨ ∃ b, e = .invalidRegister b := by
  rw [decodeIn_eq_error_iff (complete _)] at refused
  obtain ⟨n, -, rfl⟩ := operandError?_eq_some_iff.1 refused
  unfold misfitError
  split
  · exact .inl rfl
  · exact .inr ⟨_, rfl⟩

theorem decodeIn_eq_empty_iff (bytes : List UInt8) :
    decodeIn order bytes = .error .empty ↔ bytes = [] := by
  rcases bytes_cases bytes with rfl | ⟨b, rest, rfl, unknown⟩ | ⟨i, operands, rfl⟩
  · exact ⟨fun _ => rfl, fun _ => rfl⟩
  · rw [decodeIn_of_not_mem_opcodes _ unknown]
    constructor <;> nofun
  · constructor
    · intro refused
      rcases error_cases_of_known complete refused with missing | ⟨b, invalid⟩
      · cases missing
      · cases invalid
    · nofun

theorem decodeIn_eq_invalidOpcode_iff (bytes : List UInt8) (opcode : UInt8) :
    decodeIn order bytes = .error (.invalidOpcode opcode) ↔
      bytes.head? = some opcode ∧ opcode ∉ opcodes := by
  rcases bytes_cases bytes with rfl | ⟨b, rest, rfl, unknown⟩ | ⟨i, operands, rfl⟩
  · constructor <;> nofun
  · rw [decodeIn_of_not_mem_opcodes _ unknown, List.head?_cons]
    constructor
    · rintro ⟨⟩
      exact ⟨rfl, unknown⟩
    · rintro ⟨⟨⟩, -⟩
      rfl
  · constructor
    · intro refused
      rcases error_cases_of_known complete refused with missing | ⟨b, invalid⟩
      · cases missing
      · cases invalid
    · rintro ⟨same, unknown⟩
      exact absurd (mem_opcodes_iff.2 ⟨i, Option.some.inj same⟩) unknown

/-- Three bytes have all the operands of every instruction. -/
theorem decodeIn_ne_missingOperand_of_length {bytes : List UInt8} (long : 3 ≤ bytes.length)
    (opcode : UInt8) : decodeIn order bytes ≠ .error (.missingOperand opcode) := by
  rcases bytes_cases bytes with rfl | ⟨b, rest, rfl, unknown⟩ | ⟨i, operands, rfl⟩
  · cases long
  · rw [decodeIn_of_not_mem_opcodes _ unknown]
    nofun
  · rw [Ne, decodeIn_eq_error_iff (complete _), operandError?_eq_missingOperand_iff]
    rintro ⟨-, n, first, short⟩
    have called := first.called
    have most := i.length_operandKinds_lt
    rw [List.length_cons] at long
    omega

end

/-- Errors of decoding are exact, whatever the order in which all the groups are tried. Of the
operands of a known opcode the first one from the left that does not fit is told. -/
theorem undecodable_exact {order : List Group} (complete : ∀ g : Group, g ∈ order)
    (bytes : List UInt8) :
    decodeIn order bytes = decode bytes ∧
    (decodeIn order bytes = .error .empty ↔ bytes = []) ∧
    (∀ opcode, decodeIn order bytes = .error (.invalidOpcode opcode) ↔
      bytes.head? = some opcode ∧ opcode ∉ opcodes) ∧
    (∀ (i : Instruction) (operands : List UInt8), bytes = i.opcode :: operands →
      let kinds := i.group.operandKinds
      ((∃ j, decodeIn order bytes = .ok j) ↔ ∀ n < kinds.length, OperandFits kinds operands n) ∧
      (∀ opcode, decodeIn order bytes = .error (.missingOperand opcode) ↔
        opcode = i.opcode ∧ ∃ n, FirstMisfit kinds operands n ∧ operands.length ≤ n) ∧
      ∀ b, decodeIn order bytes = .error (.invalidRegister b) ↔
        ∃ n, FirstMisfit kinds operands n ∧ operands[n]? = some b ∧ kinds[n]? = some .register ∧
          8 ≤ b) ∧
    (3 ≤ bytes.length → decodeIn order bytes ≠ .error .empty ∧
      ∀ opcode, decodeIn order bytes ≠ .error (.missingOperand opcode)) := by
  refine ⟨decodeIn_eq_decode complete bytes, decodeIn_eq_empty_iff complete bytes,
    decodeIn_eq_invalidOpcode_iff complete bytes, ?_, ?_⟩
  · rintro i operands rfl
    refine ⟨exists_decodeIn_eq_ok_iff complete i operands, ?_, ?_⟩
    · intro opcode
      rw [decodeIn_eq_error_iff (complete _), operandError?_eq_missingOperand_iff]
    · intro b
      rw [decodeIn_eq_error_iff (complete _), operandError?_eq_invalidRegister_iff]
  · intro long
    refine ⟨?_, decodeIn_ne_missingOperand_of_length complete long⟩
    rw [Ne, decodeIn_eq_empty_iff complete]
    rintro rfl
    cases long

/-- The groups in the opposite order. -/
def lastFirst : List Group := [.nullary, .unary, .binary, .immediate]

/-- An addition to a register that there is not, of an operand that there is not. -/
theorem addition_of_two_misfits_undecodable :
    (∀ g : Group, g ∈ lastFirst) ∧
    FirstMisfit [.register, .register] [0x09] 0 ∧
    decodeIn lastFirst [0x0c, 0x09] = .error (.invalidRegister 0x09) ∧
    decode [0x0c, 0x09] = .error (.invalidRegister 0x09) := by
  have complete : ∀ g : Group, g ∈ lastFirst := by
    intro g
    cases g <;> decide
  obtain ⟨same, -, -, known, -⟩ := undecodable_exact complete [0x0c, 0x09]
  obtain ⟨-, -, invalid⟩ := known (.binary .add .r0 .r0) [0x09] rfl
  have first : FirstMisfit [.register, .register] [0x09] 0 :=
    firstMisfit_zero.2 (by simp [operandFits_zero])
  have refused := (invalid 0x09).2 ⟨0, first, rfl, rfl, by decide⟩
  exact ⟨complete, first, refused, same ▸ refused⟩

end EightBit.Instruction
