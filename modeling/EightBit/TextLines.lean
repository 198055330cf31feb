/-!
# Lines of a text

A line ends at a newline, and one carriage return right before that newline belongs to the ending.
A text that ends with a newline has no empty line after it.
-/
namespace EightBit.Text

def lines : List Char → List (List Char)
  | [] => []
  | '\n' :: rest => [] :: lines rest
  | '\r' :: '\n' :: rest => [] :: lines rest
  | c :: rest =>
    match lines rest with
    | [] => [[c]]
    | line :: more => (c :: line) :: more

/-- What stands before the first mark, or everything when there is none. -/
def cutAt (mark : Char) (line : List Char) : List Char := line.takeWhile (· != mark)

theorem lines_newline (rest : List Char) : lines ('\n' :: rest) = [] :: lines rest := by
  rw [lines]

theorem lines_return_newline (rest : List Char) :
    lines ('\r' :: '\n' :: rest) = [] :: lines rest := by
  rw [lines]

/-- A character that ends no line belongs to the first line. -/
theorem lines_cons {c : Char} {rest : List Char} (inside : c ≠ '\n')
    (ending : c = '\r' → rest.head? ≠ some '\n') :
    lines (c :: rest) = (c :: (lines rest).headD []) :: (lines rest).tail := by
  rw [lines]
  · cases lines rest <;> rfl
  · exact inside
  · rintro more rfl rfl
    exact ending rfl rfl

/-- Characters that end no line go in front of the first line of what follows them. -/
theorem lines_append {row tail line : List Char} {more : List (List Char)} (inside : '\n' ∉ row)
    (apart : row.getLast? = some '\r' → tail.head? ≠ some '\n') (rest : lines tail = line :: more) :
    lines (row ++ tail) = (row ++ line) :: more := by
  induction row with
  | nil => exact rest
  | cons c row ih =>
    have first : c ≠ '\n' := fun same => inside (same ▸ List.mem_cons_self)
    have others : '\n' ∉ row := fun member => inside (List.mem_cons_of_mem _ member)
    cases row with
    | nil =>
      have next : c = '\r' → tail.head? ≠ some '\n' := fun same => apart (congrArg some same)
      simp [lines_cons first next, rest]
    | cons d row =>
      have next : c = '\r' → ((d :: row) ++ tail).head? ≠ some '\n' := by
        intro _ same
        exact others (Option.some.inj same ▸ List.mem_cons_self)
      rw [List.cons_append, lines_cons first next, ih others (by simpa using apart)]
      rfl

theorem lines_append_newline {line : List Char} (inside : '\n' ∉ line)
    (ending : line.getLast? ≠ some '\r') (rest : List Char) :
    lines (line ++ '\n' :: rest) = line :: lines rest := by
  simpa using lines_append inside (fun same => absurd same ending) (lines_newline rest)

/-- Lines that are each followed by a newline are the lines of the text. -/
theorem lines_flatMap_newline {rows : List (List Char)}
    (plain : ∀ row ∈ rows, '\n' ∉ row ∧ row.getLast? ≠ some '\r') :
    lines (rows.flatMap (· ++ ['\n'])) = rows := by
  induction rows with
  | nil => rw [List.flatMap_nil, lines]
  | cons row rows ih =>
    obtain ⟨inside, ending⟩ := plain row List.mem_cons_self
    have rest := ih fun other member => plain other (List.mem_cons_of_mem _ member)
    rw [List.flatMap_cons, List.append_assoc, List.singleton_append,
      lines_append_newline inside ending, rest]

theorem cutAt_of_not_mem {mark : Char} {line : List Char} (h : mark ∉ line) :
    cutAt mark line = line := by
  induction line with
  | nil => rfl
  | cons c line ih =>
    have first : c ≠ mark := fun same => h (same ▸ List.mem_cons_self)
    have rest : cutAt mark line = line := ih fun member => h (List.mem_cons_of_mem _ member)
    rw [cutAt] at rest ⊢
    rw [List.takeWhile_cons_of_pos (by simpa using first), rest]

theorem cutAt_append_cons {mark : Char} {line : List Char} (h : mark ∉ line) (rest : List Char) :
    cutAt mark (line ++ mark :: rest) = line := by
  have front : ∀ c ∈ line, (c != mark) = true := by
    intro c inside
    simpa using fun same : c = mark => h (same ▸ inside)
  rw [cutAt, List.takeWhile_append_of_pos front]
  simp

/-- What follows a text counts only when the mark is not in the text. -/
theorem cutAt_append (mark : Char) (line back : List Char) :
    cutAt mark (line ++ back) =
      if mark ∈ line then cutAt mark line else line ++ cutAt mark back := by
  split
  · next inside =>
    obtain ⟨front, rest, rfl, before⟩ := List.eq_append_cons_of_mem inside
    rw [List.append_assoc, List.cons_append, cutAt_append_cons before, cutAt_append_cons before]
  · next outside =>
    have all : ∀ c ∈ line, (c != mark) = true := by
      intro c inside
      simpa using fun same : c = mark => outside (same ▸ inside)
    exact List.takeWhile_append_of_pos all

theorem not_mem_cutAt (mark : Char) (line : List Char) : mark ∉ cutAt mark line := by
  intro h
  simpa using List.all_eq_true.1 (List.all_takeWhile (p := (· != mark)) (l := line)) mark h

end EightBit.Text
