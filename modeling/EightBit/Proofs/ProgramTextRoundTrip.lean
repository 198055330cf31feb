import EightBit.ProgramText
import EightBit.Proofs.Utf8RoundTrip

/-!
# Written programs are read back

A written program is one row of eight binary digits for each byte. Rows and bytes stand for each
other, so reading gives back what was written and writing gives back such rows.
-/
namespace EightBit.ProgramImage

/-- Eight binary digits. -/
structure IsRow (row : List Char) : Prop where
  length : row.length = 8
  binary : ∀ c ∈ row, c = '0' ∨ c = '1'

def rowOf (b : UInt8) : List Char := Numerals.digits 2 8 b.toNat

def byteOf (row : List Char) : UInt8 := UInt8.ofNat (Numerals.value 2 row)

theorem isRow_rowOf (b : UInt8) : IsRow (rowOf b) where
  length := Numerals.length_digits 2 8 b.toNat
  binary := by
    intro c inside
    obtain ⟨d, small, rfl⟩ := Numerals.exists_digit_of_mem_digits Nat.two_pos inside
    have all : ∀ d < 2, Nat.digitChar d = '0' ∨ Nat.digitChar d = '1' := by decide
    exact all d small

theorem byteOf_rowOf (b : UInt8) : byteOf (rowOf b) = b := by
  rw [byteOf, rowOf, Numerals.value_binary, UInt8.ofNat_toNat]

theorem rowOf_byteOf {row : List Char} (h : IsRow row) : rowOf (byteOf row) = row := by
  have valid : ∀ c ∈ row,
      Numerals.digitValue c < 2 ∧ Nat.digitChar (Numerals.digitValue c) = c := by
    intro c inside
    rcases h.binary c inside with rfl | rfl <;> decide
  have small : Numerals.value 2 row < 256 :=
    Numerals.value_lt_span h.length fun c inside => (valid c inside).1
  rw [rowOf, byteOf, UInt8.toNat_ofNat', Nat.mod_eq_of_lt small]
  exact Numerals.digits_value h.length valid

theorem IsRow.all {row : List Char} (h : IsRow row) {p : Char → Prop} (zero : p '0')
    (one : p '1') : ∀ c ∈ row, p c := by
  intro c inside
  rcases h.binary c inside with rfl | rfl
  · exact zero
  · exact one

theorem IsRow.not_mem {row : List Char} (h : IsRow row) {c : Char} (zero : '0' ≠ c)
    (one : '1' ≠ c) : c ∉ row := by
  intro inside
  rcases h.binary c inside with rfl | rfl
  · exact zero rfl
  · exact one rfl

theorem codeOf_row {row : List Char} (h : IsRow row) : codeOf row = row := by
  rw [codeOf, Text.cutAt_of_not_mem (h.not_mem (by decide) (by decide))]
  exact Text.trim_of_bare (Text.bare_of_no_blank (h.all (by decide) (by decide)))

theorem byte?_row {row : List Char} (h : IsRow row) : byte? row = some (byteOf row) := by
  have nonempty : row.isEmpty = false := by
    rw [List.isEmpty_eq_false_iff, ← List.length_pos_iff, h.length]
    decide
  have digits : row.all isBinaryDigit = true := List.all_eq_true.2 (h.all (by decide) (by decide))
  simp [byte?, nonempty, h.length, digits, byteOf]

theorem readLines_rows {rows : List (List Char)} (h : ∀ row ∈ rows, IsRow row) (number : Nat) :
    readLines number rows = .ok (rows.map byteOf) := by
  induction rows generalizing number with
  | nil => rfl
  | cons row rows ih =>
    have first := h row List.mem_cons_self
    have code : byte? (codeOf row) = some (byteOf row) := by rw [codeOf_row first, byte?_row first]
    have rest := ih (fun other inside => h other (List.mem_cons_of_mem _ inside)) (number + 1)
    rw [readLines_byte code, rest]
    rfl

/-- Rows that are each followed by a newline. -/
def rowText (rows : List (List Char)) : List Char := rows.flatMap (· ++ ['\n'])

theorem lines_rowText {rows : List (List Char)} (h : ∀ row ∈ rows, IsRow row) :
    Text.lines (rowText rows) = rows := by
  apply Text.lines_flatMap_newline
  intro row inside
  have row := h row inside
  refine ⟨row.not_mem (by decide) (by decide), ?_⟩
  intro last
  exact row.not_mem (by decide) (by decide) (List.mem_of_getLast? last)

theorem ofChars_rowText {rows : List (List Char)} (h : ∀ row ∈ rows, IsRow row) :
    ofChars (rowText rows) = ofBytes (rows.map byteOf) := by
  rw [ofChars, lines_rowText h, readLines_rows h]
  rfl

/-- The bytes of a text are read as the text is. -/
theorem read_encode (text : List Char) : read (Utf8.encode text) = ofChars text := by
  rw [read, Utf8.decode?_encode]

theorem read_rowText {rows : List (List Char)} (h : ∀ row ∈ rows, IsRow row) :
    read (Utf8.encode (rowText rows)) = ofBytes (rows.map byteOf) := by
  rw [read_encode, ofChars_rowText h]

theorem renderBytes_eq (bytes : List UInt8) : renderBytes bytes = rowText (bytes.map rowOf) := by
  rw [renderBytes, rowText, List.flatMap_map]
  rfl

theorem isRow_of_mem_map {bytes : List UInt8} : ∀ row ∈ bytes.map rowOf, IsRow row := by
  intro row inside
  obtain ⟨b, -, rfl⟩ := List.mem_map.1 inside
  exact isRow_rowOf b

theorem map_byteOf_map_rowOf (bytes : List UInt8) : (bytes.map rowOf).map byteOf = bytes := by
  rw [List.map_map]
  exact (List.map_congr_left fun b _ => byteOf_rowOf b).trans (List.map_id bytes)

theorem map_rowOf_map_byteOf {rows : List (List Char)} (h : ∀ row ∈ rows, IsRow row) :
    (rows.map byteOf).map rowOf = rows := by
  rw [List.map_map]
  exact (List.map_congr_left fun row inside => rowOf_byteOf (h row inside)).trans (List.map_id rows)

/-- A file with a written program is read as that program. -/
theorem read_render (p : ProgramImage) : read (Utf8.encode p.render.toList) = .ok p := by
  rw [render, String.toList_ofList, renderBytes_eq, read_rowText isRow_of_mem_map,
    map_byteOf_map_rowOf, ofBytes_bytes]

/-- What is written for some bytes is read as these bytes if the memory holds them, and rows of
digits that are read as a program are what is written for it. -/
theorem written_is_read_back (bytes : List UInt8) {rows : List (List Char)}
    (few : rows.length ≤ Memory.size)
    (eight : ∀ row ∈ rows, row.length = 8 ∧ ∀ c ∈ row, c = '0' ∨ c = '1') :
    let outcome : Except ProgramTextError ProgramImage :=
      if fits : bytes.length ≤ Memory.size then .ok ⟨bytes, fits⟩
      else .error (.tooLarge bytes.length)
    let text := String.ofList (rows.flatMap (· ++ ['\n']))
    parse (String.ofList (renderBytes bytes)) = outcome ∧
    read (Utf8.encode (renderBytes bytes)) = outcome ∧
    ∃ p, parse text = .ok p ∧ p.render = text := by
  intro outcome text
  have written : ∀ row ∈ bytes.map rowOf, IsRow row := isRow_of_mem_map
  have given : ∀ row ∈ rows, IsRow row :=
    fun row inside => ⟨(eight row inside).1, (eight row inside).2⟩
  have fits : (rows.map byteOf).length ≤ Memory.size := by rw [List.length_map]; exact few
  refine ⟨?_, ?_, ⟨rows.map byteOf, fits⟩, ?_, ?_⟩
  · rw [parse, String.toList_ofList, renderBytes_eq, ofChars_rowText written, map_byteOf_map_rowOf]
    rfl
  · rw [renderBytes_eq, read_rowText written, map_byteOf_map_rowOf]
    rfl
  · rw [parse, String.toList_ofList]
    exact (ofChars_rowText given).trans (ofBytes_bytes ⟨rows.map byteOf, fits⟩)
  · rw [render, renderBytes_eq, map_rowOf_map_byteOf given]
    rfl

/-- Programs of a load, and of an output and a halt. -/
theorem print_program_is_read_back :
    parse "00000100\n00000000\n00001000\n" = .ok ⟨[0x04, 0x00, 0x08], by decide⟩ ∧
    ∃ p, parse "00000110\n00000000\n00011011\n" = .ok p ∧
      p.render = "00000110\n00000000\n00011011\n" := by
  have few : ["00000110".toList, "00000000".toList, "00011011".toList].length ≤ Memory.size := by
    decide
  obtain ⟨parsed, -, written⟩ := written_is_read_back [0x04, 0x00, 0x08] few (by simp)
  exact ⟨parsed, written⟩

end EightBit.ProgramImage
