import EightBit.Proofs.EntryLine
import EightBit.Proofs.ListingPartition

/-!
# Assembling a listing

The text of an entry can be assembled: its mnemonic gives the opcode and each operand after it gives
a byte. A byte that is listed by itself stands behind a directive, which has no opcode. So the texts
of a listing, in order, give the image without its addresses and bytes.
-/
namespace EightBit

namespace Assembly

def endsField (c : Char) : Bool := c == '\t' || c == ','

/-- The mnemonic and the operands of a row, without the blanks between them. -/
def fields (row : List Char) : List (List Char) := (row.filter (· != ' ')).splitOnP endsField

def mnemonics (ω : Type) [Opcode ω] : List (String × UInt8) :=
  (Opcode.all : List ω).map fun op => (Opcode.name op, Opcode.byte op)

/-- The opcode of a mnemonic, or no byte for a directive. -/
def opcodeOf (mnemonic : List Char) : List UInt8 :=
  ((mnemonics NullaryOp ++ mnemonics UnaryOp ++ mnemonics BinaryOp ++
    mnemonics ImmediateOp).lookup (String.ofList mnemonic)).toList

/-- The byte of an operand, which is a hexadecimal number, a register or a decimal number. -/
def operand : List Char → UInt8
  | '0' :: 'x' :: digits => UInt8.ofNat (Numerals.value 16 digits)
  | 'r' :: digits => UInt8.ofNat (Nat.ofDigitChars 10 digits 0)
  | digits => UInt8.ofNat (Nat.ofDigitChars 10 digits 0)

def row (text : String) : List UInt8 :=
  match fields text.toList with
  | [] => []
  | mnemonic :: operands => opcodeOf mnemonic ++ operands.map operand

/-- The bytes of all rows, in order. -/
def rows (texts : List String) : List UInt8 := texts.flatMap row

/-- Nothing in the text ends a field or is left out of it. -/
def Word (text : String) : Prop := ∀ c ∈ text.toList, c ≠ ' ' ∧ endsField c = false

instance (text : String) : Decidable (Word text) :=
  List.decidableBAll (fun c => c ≠ ' ' ∧ endsField c = false) text.toList

theorem Word.filter {text : String} (word : Word text) :
    text.toList.filter (· != ' ') = text.toList := by
  apply List.filter_eq_self.2
  intro c inside
  simpa using (word c inside).1

theorem fields_word {text : String} (word : Word text) : fields text.toList = [text.toList] := by
  rw [fields, word.filter]
  apply List.splitOnP_eq_singleton
  intro c inside
  exact (word c inside).2

theorem fields_append_cons {text : String} (word : Word text) {mark : Char} (shown : mark ≠ ' ')
    (ends : endsField mark = true) (rest : List Char) :
    fields (text.toList ++ mark :: rest) = text.toList :: fields rest := by
  have kept : (mark :: rest).filter (· != ' ') = mark :: rest.filter (· != ' ') :=
    List.filter_cons_of_pos (by simpa using shown)
  have first := fields_word word
  rw [fields, word.filter] at first
  rw [fields, List.filter_append, word.filter, kept, List.splitOnP_append_cons _ _ ends, first]
  rfl

theorem fields_intercalate {texts : List String} (nonempty : texts ≠ [])
    (words : ∀ text ∈ texts, Word text) :
    fields (String.intercalate ", " texts).toList = texts.map String.toList := by
  rw [String.toList_intercalate]
  induction texts with
  | nil => exact absurd rfl nonempty
  | cons text more ih =>
    have word := words text List.mem_cons_self
    cases more with
    | nil => simpa using fields_word word
    | cons next more =>
      have rest := ih (List.cons_ne_nil next more) fun other member =>
        words other (List.mem_cons_of_mem _ member)
      have comma (back : List Char) :
          fields (text.toList ++ ", ".toList ++ back) = text.toList :: fields back := by
        rw [List.append_assoc]
        exact fields_append_cons word (by decide) rfl (' ' :: back)
      rw [List.map_cons, List.map_cons, List.intercalate_cons_cons, ← List.map_cons, comma, rest]

/-- A mnemonic and its operands are assembled one by one. -/
theorem row_of_words {mnemonic : String} (word : Word mnemonic) {texts : List String}
    (nonempty : texts ≠ []) (words : ∀ text ∈ texts, Word text) :
    row (mnemonic ++ "\t" ++ String.intercalate ", " texts) =
      opcodeOf mnemonic.toList ++ texts.map fun text => operand text.toList := by
  have split : fields (mnemonic ++ "\t" ++ String.intercalate ", " texts).toList =
      mnemonic.toList :: texts.map String.toList := by
    rw [String.toList_append, String.toList_append, List.append_assoc,
      ← fields_intercalate nonempty words]
    exact fields_append_cons word (by decide) rfl _
  rw [row, split]
  simp only [List.map_map]
  rfl

theorem word_register (r : Register) : Word r.name := by
  cases r <;> decide

theorem operand_register (r : Register) : operand r.name.toList = r.byte := by
  cases r <;> decide

theorem word_decimal (n : Nat) : Word (Nat.repr n) := by
  intro c inside
  rw [Nat.toList_repr] at inside
  have digit := Nat.isDigit_of_mem_toDigits (by decide) (by decide) inside
  simp only [endsField, Bool.or_eq_false_iff, beq_eq_false_iff_ne]
  refine ⟨?_, ?_, ?_⟩ <;> rintro rfl <;> cases digit

/-- Digits alone are neither a register nor a hexadecimal number. -/
theorem operand_of_digits {digits : List Char} (h : ∀ c ∈ digits, c.isDigit = true) :
    operand digits = UInt8.ofNat (Nat.ofDigitChars 10 digits 0) := by
  unfold operand
  split
  · exact absurd (h 'x' (by simp)) (by decide)
  · exact absurd (h 'r' (by simp)) (by decide)
  · rfl

theorem operand_decimal (b : UInt8) : operand (Nat.toDigits 10 b.toNat) = b := by
  have digits : ∀ c ∈ Nat.toDigits 10 b.toNat, c.isDigit = true := fun c =>
    Nat.isDigit_of_mem_toDigits (by decide) (by decide)
  rw [operand_of_digits digits, Nat.ofDigitChars_ten_toDigits, UInt8.ofNat_toNat]

theorem word_hex (b : UInt8) : Word ("0x" ++ Numerals.hex b) := by
  have word : ∀ d < 16, Nat.digitChar d ≠ ' ' ∧ endsField (Nat.digitChar d) = false := by decide
  intro c inside
  rw [String.toList_append] at inside
  rcases List.mem_append.1 inside with start | digit
  · exact (by decide : Word "0x") c start
  · obtain ⟨d, small, rfl⟩ := Numerals.exists_digit_of_mem_hex digit
    exact word d small

theorem operand_hex (b : UInt8) : operand ("0x" ++ Numerals.hex b).toList = b := by
  rw [String.toList_append]
  change UInt8.ofNat (Numerals.value 16 (Numerals.hex b).toList) = b
  rw [Numerals.toList_hex, Numerals.value_hex, UInt8.ofNat_toNat]

theorem opcode_assembled {ω : Type} [Opcode ω]
    (all : ∀ op ∈ (Opcode.all : List ω), Word (Opcode.name op) ∧
      opcodeOf (Opcode.name op).toList = [Opcode.byte op]) (op : ω) :
    Word (Opcode.name op) ∧ opcodeOf (Opcode.name op).toList = [Opcode.byte op] :=
  all op (Opcode.mem_all op)

theorem mnemonic_assembled (i : Instruction) :
    Word i.mnemonic ∧ opcodeOf i.mnemonic.toList = [i.opcode] := by
  cases i with
  | nullary op => exact opcode_assembled (by decide) op
  | unary op a => exact opcode_assembled (by decide) op
  | binary op a b => exact opcode_assembled (by decide) op
  | immediate op a value => exact opcode_assembled (by decide) op

theorem words_operandTexts (i : Instruction) : ∀ text ∈ i.operandTexts, Word text := by
  cases i <;> simp [Instruction.operandTexts, word_register, word_decimal]

theorem operands_assembled (i : Instruction) :
    (i.operandTexts.map fun text => operand text.toList) = i.operands := by
  cases i <;> simp [Instruction.operandTexts, Instruction.operands, operand_register,
    operand_decimal]

theorem row_text (i : Instruction) : row i.text = i.encode := by
  obtain ⟨word, code⟩ := mnemonic_assembled i
  have words := words_operandTexts i
  have bytes := operands_assembled i
  rw [Instruction.text, Instruction.encode, ← bytes]
  cases texts : i.operandTexts with
  | nil => simp [row, fields_word word, code]
  | cons first more =>
    rw [texts] at words
    exact (row_of_words word (List.cons_ne_nil first more) words).trans (by rw [code]; rfl)

example : row "ldi\tr1, 200" = [0x04, 0x01, 0xc8] := by decide

/-- The directive has no opcode. -/
theorem row_byte (b : UInt8) : row (".byte\t0x" ++ Numerals.hex b) = [b] := by
  have parts : ".byte\t0x" ++ Numerals.hex b =
      ".byte" ++ "\t" ++ String.intercalate ", " ["0x" ++ Numerals.hex b] := by
    simp [← String.toList_inj]
  rw [parts, row_of_words (by decide) (List.cons_ne_nil _ _) (by simp [word_hex]), List.map_cons,
    operand_hex]
  rfl

end Assembly

namespace Listing

/-- The text of an entry is assembled to its bytes. -/
theorem row_firstEntry {bytes : List UInt8} (nonempty : bytes ≠ []) (address : Nat) :
    Assembly.row (firstEntry address bytes).text = (firstEntry address bytes).bytes := by
  cases listed : (firstEntry address bytes).instruction? with
  | some i => rw [Entry.text, listed, bytes_firstEntry_of_some listed, Assembly.row_text]
  | none =>
    rw [Entry.text, listed, bytes_firstEntry_of_none listed, Assembly.row_byte]
    cases bytes with
    | nil => exact absurd rfl nonempty
    | cons b rest => rfl

/-- The texts of a sweep are assembled to the bytes that were swept. -/
theorem rows_sweepFrom (address : Nat) (bytes : List UInt8) :
    Assembly.rows ((sweepFrom address bytes).map Entry.text) = bytes := by
  have each : ∀ e ∈ sweepFrom address bytes, Assembly.row e.text = e.bytes := by
    intro e member
    obtain ⟨place, rest, nonempty, rfl⟩ := exists_firstEntry_of_mem member
    exact row_firstEntry nonempty place
  rw [Assembly.rows, List.flatMap_map, List.flatMap_congr each, flatMap_bytes_sweepFrom]

/-- The text column of a listing determines its image, as it can be assembled to it. -/
theorem assembly_determines_image {image image' : List UInt8}
    (small : image.length ≤ Memory.size) (small' : image'.length ≤ Memory.size) :
    ∃ entries entries', ofImage? image = some entries ∧ ofImage? image' = some entries' ∧
      Assembly.rows (entries.map Entry.text) = image ∧
      (entries.map Entry.text = entries'.map Entry.text → image = image') := by
  refine ⟨_, _, if_pos small, if_pos small', rows_sweepFrom 0 image, ?_⟩
  intro same
  calc image
      = Assembly.rows ((sweepFrom 0 image).map Entry.text) := (rows_sweepFrom 0 image).symm
    _ = Assembly.rows ((sweepFrom 0 image').map Entry.text) := by rw [same]
    _ = image' := rows_sweepFrom 0 image'

/-- An output of a register that there is not is listed as two bytes. -/
theorem unprintable_determines_image :
    ∃ entries entries', ofImage? [0x06, 0x08, 0x1b] = some entries ∧
      ofImage? [0x06, 0x07, 0x1b] = some entries' ∧
      entries.map Entry.text = [".byte\t0x06", ".byte\t0x08", "hlt"] ∧
      Assembly.rows (entries.map Entry.text) = [0x06, 0x08, 0x1b] ∧
      entries.map Entry.text ≠ entries'.map Entry.text := by
  have small : ([0x06, 0x08, 0x1b] : List UInt8).length ≤ Memory.size := by decide
  have small' : ([0x06, 0x07, 0x1b] : List UInt8).length ≤ Memory.size := by decide
  obtain ⟨entries, entries', listed, listed', assembled, determined⟩ :=
    assembly_determines_image small small'
  have swept : ofImage? [0x06, 0x08, 0x1b] = some [⟨0x00, [0x06], none⟩, ⟨0x01, [0x08], none⟩,
      ⟨0x02, [0x1b], some (.nullary .hlt)⟩] := by cbv
  have texts : entries.map Entry.text = [".byte\t0x06", ".byte\t0x08", "hlt"] := by
    obtain rfl := Option.some.inj (swept.symm.trans listed)
    decide
  refine ⟨entries, entries', listed, listed', texts, assembled, fun same => ?_⟩
  exact absurd (determined same) (by decide)

end Listing
end EightBit
