import EightBit.ProgramText
import Mathlib.Data.List.Forall2

/-!
# What a row says

A row is cut at its first number sign and freed of the blanks at both ends. The code that is left is
the only one that can stand between blanks before the comment of the row.
-/
namespace EightBit

namespace Text

theorem cutAt_eq_iff {mark : Char} {line kept : List Char} :
    cutAt mark line = kept ↔
      mark ∉ kept ∧ ∃ comment, line = kept ++ comment ∧ ∀ c ∈ comment.head?, c = mark := by
  constructor
  · rintro rfl
    refine ⟨not_mem_cutAt mark line, line.dropWhile (· != mark), ?_, ?_⟩
    · exact List.takeWhile_append_dropWhile.symm
    · intro c first
      have stop := List.head?_dropWhile_not (· != mark) line
      rw [Option.mem_def.1 first] at stop
      simpa using stop
  · rintro ⟨fresh, comment, rfl, first⟩
    cases comment with
    | nil => rw [List.append_nil, cutAt_of_not_mem fresh]
    | cons c comment =>
      obtain rfl : c = mark := first c rfl
      exact cutAt_append_cons fresh comment

/-- Trimming leaves the one bare text that stands between blanks. -/
theorem trim_eq_iff {text code : List Char} :
    trim text = code ↔
      Bare code ∧ ∃ front back, text = front ++ code ++ back ∧ (∀ c ∈ front, isBlank c) ∧
        ∀ c ∈ back, isBlank c := by
  constructor
  · rintro rfl
    obtain ⟨back, blank, whole⟩ := exists_blank_append_trimEnd (trimStart text)
    refine ⟨bare_trim text, text.takeWhile isBlank, back, ?_, ?_, blank⟩
    · rw [List.append_assoc, trim, whole, trimStart, List.takeWhile_append_dropWhile]
    · exact List.all_eq_true.1 List.all_takeWhile
  · rintro ⟨bare, front, back, rfl, blank, blank'⟩
    rw [trim_append_of_blank _ blank', trim, trimStart_append_of_blank blank, ← trim,
      trim_of_bare bare]

end Text

namespace ProgramImage

/-- A row says a code that stands between blanks before the first number sign, with a blank at
neither of its ends. -/
def Says (row code : List Char) : Prop :=
  ∃ front back comment, row = front ++ code ++ back ++ comment ∧
    '#' ∉ front ++ code ++ back ∧ (∀ c ∈ comment.head?, c = '#') ∧
    (∀ c ∈ front, Text.isBlank c) ∧ (∀ c ∈ back, Text.isBlank c) ∧ Text.Bare code

theorem says_iff {row code : List Char} : Says row code ↔ codeOf row = code := by
  rw [codeOf, Text.trim_eq_iff]
  constructor
  · rintro ⟨front, back, comment, rfl, unmarked, marked, blank, blank', bare⟩
    have kept := Text.cutAt_eq_iff.2 ⟨unmarked, comment, rfl, marked⟩
    exact ⟨bare, front, back, kept, blank, blank'⟩
  · rintro ⟨bare, front, back, kept, blank, blank'⟩
    obtain ⟨unmarked, comment, whole, marked⟩ := Text.cutAt_eq_iff.1 kept
    exact ⟨front, back, comment, whole, unmarked, marked, blank, blank', bare⟩

/-- Every row says exactly one code. -/
theorem forall₂_says_iff {rows codes : List (List Char)} :
    List.Forall₂ Says rows codes ↔ codes = rows.map codeOf := by
  have each : (Says : List Char → List Char → Prop) = fun row code => codeOf row = code := by
    funext row code
    exact propext says_iff
  rw [each, ← List.forall₂_map_left_iff (f := codeOf), List.forall₂_eq_eq_eq, eq_comm]

end ProgramImage
end EightBit
