import EightBit.Proofs.ProgramTextGrammar

/-!
# Texts one after the other

The codes of two texts with a newline between them are the codes of both. So the first flaw of the
first text decides, then that of the second one with its number shifted by the rows before it, and
a text without flaws holds the bytes of both.
-/
namespace EightBit.ProgramImage

theorem codes_append_newline (a b : List Char) : codes (a ++ '\n' :: b) = codes a ++ codes b := by
  simp only [codes_eq_map_splitOn, Text.splitOn_append_newline, List.map_append]

theorem length_codes (text : List Char) : (codes text).length = text.count '\n' + 1 := by
  rw [codes, List.length_map, Text.length_rows]

theorem firstFlaw?_add (number shift : Nat) (codes : List (List Char)) :
    firstFlaw? (number + shift) codes =
      (firstFlaw? number codes).map fun (code, k) => (code, k + shift) := by
  induction codes generalizing number with
  | nil => rfl
  | cons code more ih =>
    rw [firstFlaw?_cons, firstFlaw?_cons, Nat.add_right_comm, ih]
    by_cases flawed : Flawed code <;> simp [flawed]

theorem bytesOf_append (first second : List (List Char)) :
    bytesOf (first ++ second) = bytesOf first ++ bytesOf second := by
  simp [bytesOf]

/-- The bytes of the codes in a text. -/
def codeBytes (text : String) : List UInt8 := bytesOf (codes text.toList)

theorem codes_join (a b : String) :
    codes (a ++ "\n" ++ b).toList = codes a.toList ++ codes b.toList := by
  rw [← codes_append_newline]
  simp

theorem codeBytes_join (a b : String) :
    codeBytes (a ++ "\n" ++ b) = codeBytes a ++ codeBytes b := by
  rw [codeBytes, codes_join, bytesOf_append, codeBytes, codeBytes]

theorem firstFlaw?_join (a b : String) :
    firstFlaw? 1 (codes (a ++ "\n" ++ b).toList) =
      (firstFlaw? 1 (codes a.toList)).or
        ((firstFlaw? 1 (codes b.toList)).map fun (code, k) =>
          (code, k + (a.toList.count '\n' + 1))) := by
  rw [codes_join, firstFlaw?_append, firstFlaw?_add, length_codes]

theorem firstFlaw?_eq_none_of_parse {text : String}
    (sound : ∀ k bad, parse text ≠ .error (.invalidByte k bad)) :
    firstFlaw? 1 (codes text.toList) = none := by
  cases found : firstFlaw? 1 (codes text.toList) with
  | none => rfl
  | some flaw =>
    obtain ⟨code, k⟩ := flaw
    have refused : parse text = .error (.invalidByte k (String.ofList code)) := by
      rw [parse_eq_invalidByte_iff, found, String.toList_ofList]
    exact absurd refused (sound k _)

/-- Two texts with a newline between them are read as one after the other. The bytes of both
together have to fit, and the lines of the second text are counted from the end of the first. -/
theorem parse_join (a b : String) :
    (∀ k bad, parse a = .error (.invalidByte k bad) →
      parse (a ++ "\n" ++ b) = .error (.invalidByte k bad)) ∧
    ((∀ k bad, parse a ≠ .error (.invalidByte k bad)) →
      (∀ n bad, parse b = .error (.invalidByte n bad) →
        parse (a ++ "\n" ++ b) =
          .error (.invalidByte (n + a.toList.count '\n' + 1) bad)) ∧
      ((∀ n bad, parse b ≠ .error (.invalidByte n bad)) →
        parse a = ofBytes (codeBytes a) ∧ parse b = ofBytes (codeBytes b) ∧
        parse (a ++ "\n" ++ b) = ofBytes (codeBytes a ++ codeBytes b) ∧
        ∀ n, parse (a ++ "\n" ++ b) = .error (.tooLarge n) ↔
          256 < n ∧ n = (codeBytes a).length + (codeBytes b).length)) := by
  refine ⟨?_, ?_⟩
  · intro k bad refused
    rw [parse_eq_invalidByte_iff] at refused
    rw [parse_eq_invalidByte_iff, firstFlaw?_join, refused, Option.some_or]
  · intro soundA
    have noneA := firstFlaw?_eq_none_of_parse soundA
    refine ⟨?_, ?_⟩
    · intro n bad refused
      rw [parse_eq_invalidByte_iff] at refused
      rw [parse_eq_invalidByte_iff, firstFlaw?_join, noneA, refused, Option.none_or]
      rfl
    · intro soundB
      have noneB := firstFlaw?_eq_none_of_parse soundB
      have none : firstFlaw? 1 (codes (a ++ "\n" ++ b).toList) = none := by
        rw [firstFlaw?_join, noneA, noneB]
        rfl
      have read : parse (a ++ "\n" ++ b) = ofBytes (codeBytes a ++ codeBytes b) :=
        (parse_of_sound none).trans (congrArg ofBytes (codeBytes_join a b))
      have count : (bytesOf (codes (a ++ "\n" ++ b).toList)).length =
          (codeBytes a).length + (codeBytes b).length := by
        rw [← List.length_append, ← codeBytes_join, codeBytes]
      refine ⟨parse_of_sound noneA, parse_of_sound noneB, read, ?_⟩
      intro n
      rw [parse_eq_tooLarge_iff, count]
      exact and_iff_right none

/-- Two flawed texts, a flaw in the second row of the second text, and two texts without a flaw. The
carriage return at the end of a text belongs to the newline after it. -/
theorem joined_texts_numbered :
    parse ("2" ++ "\n" ++ "3") = .error (.invalidByte 1 "2") ∧
    parse ("1\r" ++ "\n" ++ "# none\n2") = .error (.invalidByte 3 "2") ∧
    parse ("1\r" ++ "\n" ++ "10 # two") = ofBytes [0x01, 0x02] := by
  have flawed : parse "2" = .error (.invalidByte 1 "2") := by decide
  have second : parse "# none\n2" = .error (.invalidByte 2 "2") := by decide
  have one : parse "1\r" = ofBytes [0x01] := by decide
  have two : parse "10 # two" = ofBytes [0x02] := by decide
  have oneSound : ∀ k bad, parse "1\r" ≠ .error (.invalidByte k bad) := by
    intro k bad refused
    cases one.symm.trans refused
  have twoSound : ∀ k bad, parse "10 # two" ≠ .error (.invalidByte k bad) := by
    intro k bad refused
    cases two.symm.trans refused
  obtain ⟨-, -, both, -⟩ := ((parse_join "1\r" "10 # two").2 oneSound).2 twoSound
  exact ⟨(parse_join "2" "3").1 1 "2" flawed,
    ((parse_join "1\r" "# none\n2").2 oneSound).1 2 "2" second, both.trans (by decide)⟩

end EightBit.ProgramImage
