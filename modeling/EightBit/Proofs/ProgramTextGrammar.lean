import EightBit.Proofs.BinaryCodes
import EightBit.Proofs.RowCodes
import EightBit.Proofs.TextRows

/-!
# What is read as a program

Each row of a text says a code. A text is a program when every code that is not empty is one of a
byte and there are no more of them than the memory holds; the first other code decides what the
text is refused for, before their number does.
-/
namespace EightBit.ProgramImage

/-- The codes of the rows of a text. -/
def codes (text : List Char) : List (List Char) := (Text.rows text).map codeOf

/-- A code that is neither empty nor one of a byte. -/
def Flawed (code : List Char) : Prop := code ≠ [] ∧ ¬ IsCode code

instance (code : List Char) : Decidable (Flawed code) :=
  inferInstanceAs (Decidable (code ≠ [] ∧ ¬ IsCode code))

/-- The first flawed code and its number, counted from `number`. -/
def firstFlaw? (number : Nat) (codes : List (List Char)) : Option (List Char × Nat) :=
  (codes.zipIdx number).find? fun (code, _) => Flawed code

/-- The bytes of the codes that are not empty. -/
def bytesOf (codes : List (List Char)) : List UInt8 := (codes.filter (· ≠ [])).map byteOf

theorem not_flawed_iff {code : List Char} : ¬ Flawed code ↔ (code ≠ [] → IsCode code) := by
  simp [Flawed]

theorem firstFlaw?_cons (number : Nat) (code : List Char) (more : List (List Char)) :
    firstFlaw? number (code :: more) =
      if Flawed code then some (code, number) else firstFlaw? (number + 1) more := by
  by_cases h : Flawed code <;> simp [firstFlaw?, List.zipIdx_cons, h]

theorem firstFlaw?_append (number : Nat) (first second : List (List Char)) :
    firstFlaw? number (first ++ second) =
      (firstFlaw? number first).or (firstFlaw? (number + first.length) second) := by
  rw [firstFlaw?, List.zipIdx_append, List.find?_append, firstFlaw?, firstFlaw?]

theorem firstFlaw?_eq_none_iff {number : Nat} {codes : List (List Char)} :
    firstFlaw? number codes = none ↔ ∀ code ∈ codes.filter (· ≠ []), IsCode code := by
  induction codes generalizing number with
  | nil => simp [firstFlaw?]
  | cons code more ih =>
    rw [firstFlaw?_cons, List.filter_cons]
    by_cases empty : code = []
    · simp [empty, Flawed, ih]
    · by_cases sound : IsCode code <;> simp [empty, sound, Flawed, ih]

theorem firstFlaw?_eq_some_iff {number k : Nat} {codes : List (List Char)} {code : List Char} :
    firstFlaw? number codes = some (code, k) ↔
      ∃ i, k = number + i ∧ codes[i]? = some code ∧ Flawed code ∧
        ∀ j < i, ∀ earlier, codes[j]? = some earlier → ¬ Flawed earlier := by
  rw [firstFlaw?, List.find?_eq_some_iff_getElem]
  constructor
  · rintro ⟨flawed, i, inside, here, before⟩
    simp only [List.getElem_zipIdx, Prod.mk.injEq] at here
    obtain ⟨rfl, rfl⟩ := here
    refine ⟨i, rfl, by simp, by simpa using flawed, ?_⟩
    intro j below earlier found
    have place : j < codes.length := (List.getElem?_eq_some_iff.1 found).1
    obtain rfl : codes[j] = earlier := (List.getElem?_eq_some_iff.1 found).2
    simpa using before j below
  · rintro ⟨i, rfl, found, flawed, before⟩
    obtain ⟨inside, rfl⟩ := List.getElem?_eq_some_iff.1 found
    refine ⟨by simpa using flawed, i, by simpa using inside, by simp, ?_⟩
    intro j below
    have place : j < codes.length := Nat.lt_trans below inside
    simpa using before j below _ (List.getElem?_eq_getElem place)

/-- Reading lines stops at the first flawed code. -/
theorem readLines_eq (number : Nat) (lines : List (List Char)) :
    readLines number lines =
      match firstFlaw? number (lines.map codeOf) with
      | some (code, k) => .error (.invalidByte k (String.ofList code))
      | none => .ok (bytesOf (lines.map codeOf)) := by
  induction lines generalizing number with
  | nil => rfl
  | cons line lines ih =>
    rw [List.map_cons, firstFlaw?_cons]
    by_cases empty : codeOf line = []
    · have sound : ¬ Flawed (codeOf line) := fun flawed => flawed.1 empty
      rw [readLines_blank empty, ih, if_neg sound]
      simp [bytesOf, empty]
    · by_cases code : IsCode (codeOf line)
      · have sound : ¬ Flawed (codeOf line) := fun flawed => flawed.2 code
        rw [readLines_byte (byte?_of_isCode code), ih, if_neg sound]
        cases firstFlaw? (number + 1) (lines.map codeOf) with
        | none => simp [bytesOf, empty, Except.map]
        | some flaw => rfl
      · rw [readLines_bad empty (byte?_of_not_isCode code), if_pos ⟨empty, code⟩]

theorem codeOf_append_of_blank (line : List Char) {back : List Char}
    (h : ∀ c ∈ back, Text.isBlank c) : codeOf (line ++ back) = codeOf line := by
  have unmarked : '#' ∉ back := fun inside => absurd (h '#' inside) (by decide)
  rw [codeOf, Text.cutAt_append]
  split
  · rw [codeOf]
  · next outside =>
    rw [Text.cutAt_of_not_mem unmarked, Text.trim_append_of_blank _ h, codeOf,
      Text.cutAt_of_not_mem outside]

theorem codeOf_append_return (row : List Char) : codeOf (row ++ ['\r']) = codeOf row := by
  apply codeOf_append_of_blank
  intro c inside
  rw [List.mem_singleton.1 inside]
  rfl

theorem codeOf_withoutReturn (row : List Char) : codeOf (Text.withoutReturn row) = codeOf row := by
  by_cases ending : row.getLast? = some '\r'
  · obtain ⟨front, rfl⟩ := List.getLast?_eq_some_iff.1 ending
    rw [Text.withoutReturn_append_return, codeOf_append_return]
  · rw [Text.withoutReturn_of_ne ending]

/-- The carriage return before a newline does not count for the code. -/
theorem codes_eq_map_splitOn (text : List Char) : codes text = (text.splitOn '\n').map codeOf :=
  Text.map_dropReturns codeOf_withoutReturn _

/-- An empty row at the end is no line and holds no byte. -/
theorem readLines_lines (number : Nat) (text : List Char) :
    readLines number (Text.lines text) =
      match firstFlaw? number (codes text) with
      | some (code, k) => .error (.invalidByte k (String.ofList code))
      | none => .ok (bytesOf (codes text)) := by
  rw [readLines_eq, codes]
  rcases Text.rows_eq_lines text with same | longer
  · rw [same]
  · have empty : codeOf [] = [] := rfl
    have last : ∀ n, firstFlaw? n [[]] = none := fun _ => rfl
    simp [longer, firstFlaw?_append, last, bytesOf, empty]

theorem parse_eq (text : String) :
    parse text =
      match firstFlaw? 1 (codes text.toList) with
      | some (code, k) => .error (.invalidByte k (String.ofList code))
      | none => ofBytes (bytesOf (codes text.toList)) := by
  rw [parse, ofChars, readLines_lines]
  cases firstFlaw? 1 (codes text.toList) <;> rfl

theorem ofBytes_eq_ok_iff {bytes : List UInt8} {p : ProgramImage} :
    ofBytes bytes = .ok p ↔ p.bytes = bytes := by
  unfold ofBytes
  constructor
  · intro h
    split at h
    · exact congrArg ProgramImage.bytes (Except.ok.inj h).symm
    · cases h
  · rintro rfl
    rw [dif_pos p.length_le]

theorem ofBytes_eq_error_iff {bytes : List UInt8} {e : ProgramTextError} :
    ofBytes bytes = .error e ↔ Memory.size < bytes.length ∧ e = .tooLarge bytes.length := by
  unfold ofBytes
  split
  · next fits => simp [Nat.not_lt.2 fits]
  · next large => simp [Nat.not_le.1 large, eq_comm]

theorem length_bytesOf (codes : List (List Char)) :
    (bytesOf codes).length = (codes.filter (· ≠ [])).length := by
  rw [bytesOf, List.length_map]

theorem parse_of_sound {text : String} (sound : firstFlaw? 1 (codes text.toList) = none) :
    parse text = ofBytes (bytesOf (codes text.toList)) := by
  rw [parse_eq, sound]

theorem parse_eq_invalidByte_iff {text bad : String} {k : Nat} :
    parse text = .error (.invalidByte k bad) ↔
      firstFlaw? 1 (codes text.toList) = some (bad.toList, k) := by
  rw [parse_eq]
  cases firstFlaw? 1 (codes text.toList) with
  | none => simp [ofBytes_eq_error_iff]
  | some flaw =>
    obtain ⟨code, number⟩ := flaw
    have same : String.ofList code = bad ↔ code = bad.toList := by
      constructor
      · rintro rfl
        exact String.toList_ofList.symm
      · rintro rfl
        exact String.ofList_toList
    simp [same, and_comm]

theorem parse_eq_ok_iff {text : String} {p : ProgramImage} :
    parse text = .ok p ↔
      firstFlaw? 1 (codes text.toList) = none ∧ p.bytes = bytesOf (codes text.toList) := by
  rw [parse_eq]
  cases firstFlaw? 1 (codes text.toList) with
  | none => simp [ofBytes_eq_ok_iff]
  | some flaw => simp

theorem parse_eq_tooLarge_iff {text : String} {n : Nat} :
    parse text = .error (.tooLarge n) ↔
      firstFlaw? 1 (codes text.toList) = none ∧ Memory.size < n ∧
        n = (bytesOf (codes text.toList)).length := by
  rw [parse_eq]
  cases firstFlaw? 1 (codes text.toList) with
  | none =>
    rw [ofBytes_eq_error_iff]
    constructor
    · rintro ⟨large, same⟩
      cases same
      exact ⟨rfl, large, rfl⟩
    · rintro ⟨-, large, rfl⟩
      exact ⟨large, rfl⟩
  | some flaw => simp

theorem parse_ne_notUtf8 (text : String) : parse text ≠ .error .notUtf8 := by
  rw [parse_eq]
  cases firstFlaw? 1 (codes text.toList) with
  | none => simp [ofBytes_eq_error_iff]
  | some flaw => simp

/-- The rows of a text say one list of codes. The text is read as a program exactly when these are
codes of at most 256 bytes, and otherwise it is refused for its first flawed code or, if there is
none, for the number of its bytes. -/
theorem parse_exact (text : String) :
    ∃ codes, (∀ said, List.Forall₂ Says (Text.rows text.toList) said ↔ said = codes) ∧
      let coded := codes.filter (· ≠ [])
      ((∃ p, parse text = .ok p) ↔ (∀ code ∈ coded, IsCode code) ∧ coded.length ≤ 256) ∧
      (∀ p, parse text = .ok p → p.bytes.map UInt8.toNat = coded.map binaryValue) ∧
      (∀ code, byte? code =
        if (Utf8.encode code).length ≤ 8 ∧ code.all isBinaryDigit then Numerals.checkedBinary? code
        else none) ∧
      (∀ code, IsCode code →
        ∃ b, Numerals.checkedBinary? code = some b ∧ b.toNat = binaryValue code) ∧
      (∀ k bad, parse text = .error (.invalidByte k bad) ↔
        ∃ i, k = i + 1 ∧ codes[i]? = some bad.toList ∧ bad.toList ≠ [] ∧ ¬ IsCode bad.toList ∧
          ∀ j < i, ∀ earlier, codes[j]? = some earlier → earlier ≠ [] → IsCode earlier) ∧
      (∀ n, parse text = .error (.tooLarge n) ↔
        (∀ code ∈ coded, IsCode code) ∧ 256 < coded.length ∧ n = coded.length) ∧
      parse text ≠ .error .notUtf8 := by
  refine ⟨codes text.toList, fun said => forall₂_says_iff, ?_⟩
  intro coded
  have count : (bytesOf (codes text.toList)).length = coded.length :=
    length_bytesOf (codes text.toList)
  have sound_iff : firstFlaw? 1 (codes text.toList) = none ↔ ∀ code ∈ coded, IsCode code :=
    firstFlaw?_eq_none_iff
  refine ⟨?_, ?_, byte?_eq_checked, ?_, ?_, ?_, parse_ne_notUtf8 text⟩
  · rw [← count, ← sound_iff]
    constructor
    · rintro ⟨p, parsed⟩
      obtain ⟨sound, bytes⟩ := parse_eq_ok_iff.1 parsed
      exact ⟨sound, bytes ▸ p.length_le⟩
    · rintro ⟨sound, fits⟩
      exact ⟨⟨bytesOf (codes text.toList), fits⟩, parse_eq_ok_iff.2 ⟨sound, rfl⟩⟩
  · intro p parsed
    obtain ⟨sound, bytes⟩ := parse_eq_ok_iff.1 parsed
    rw [bytes, bytesOf, List.map_map]
    apply List.map_congr_left
    intro code inside
    exact (sound_iff.1 sound code inside).toNat_byteOf
  · intro code sound
    exact ⟨byteOf code, sound.checkedBinary, sound.toNat_byteOf⟩
  · intro k bad
    rw [parse_eq_invalidByte_iff, firstFlaw?_eq_some_iff]
    simp only [not_flawed_iff, Nat.add_comm 1]
    simp only [Flawed, and_assoc]
  · intro n
    rw [parse_eq_tooLarge_iff, sound_iff, count]
    constructor
    · rintro ⟨sound, large, rfl⟩
      exact ⟨sound, large, rfl⟩
    · rintro ⟨sound, large, rfl⟩
      exact ⟨sound, large, rfl⟩

/-- A byte between blanks with two number signs after it, a row that is only a comment, one that is
blank and one with nine digits. -/
def commented : String := " 101\t# five # six\r\n#1\n\u3000\n\u00a0000000101#\n2"

theorem parse_commented :
    Says " 101\t# five # six".toList ['1', '0', '1'] ∧
      parse commented = .error (.invalidByte 4 "000000101") := by
  have five : Says " 101\t# five # six".toList ['1', '0', '1'] := by
    refine ⟨[' '], ['\t'], "# five # six".toList, rfl, by decide, by simp, ?_, ?_, ?_⟩
    · exact List.forall_mem_singleton.2 rfl
    · exact List.forall_mem_singleton.2 rfl
    · exact Text.bare_of_no_blank (by simp [Text.isBlank])
  obtain ⟨codes, said, -, -, -, -, refused, -⟩ := parse_exact commented
  have told : List.Forall₂ Says (Text.rows commented.toList)
      [['1', '0', '1'], [], [], "000000101".toList, ['2']] := forall₂_says_iff.2 (by decide)
  obtain rfl := (said _).1 told
  exact ⟨five, (refused 4 "000000101").2 ⟨3, rfl, rfl, by decide, by decide, by decide⟩⟩

end EightBit.ProgramImage
