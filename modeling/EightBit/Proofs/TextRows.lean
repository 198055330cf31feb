import EightBit.TextBlank
import EightBit.TextLines

/-!
# Rows between newlines

The rows of a text are what stands between its newlines, so there is one more of them than there
are newlines. The lines of a text are its rows, except that an empty row at the end is no line.
-/
namespace EightBit.Text

/-- A row without the carriage return that belongs to the newline after it. -/
def withoutReturn (row : List Char) : List Char :=
  if row.getLast? = some '\r' then row.dropLast else row

/-- There is a newline after every piece but the last. -/
def dropReturns : List (List Char) → List (List Char)
  | [] => []
  | [last] => [last]
  | piece :: more => withoutReturn piece :: dropReturns more

def rows (text : List Char) : List (List Char) := dropReturns (text.splitOn '\n')

theorem withoutReturn_append_return (row : List Char) :
    withoutReturn (row ++ ['\r']) = row := by
  simp [withoutReturn]

theorem withoutReturn_of_ne {row : List Char} (h : row.getLast? ≠ some '\r') :
    withoutReturn row = row := if_neg h

theorem dropReturns_cons {pieces : List (List Char)} (h : pieces ≠ []) (piece : List Char) :
    dropReturns (piece :: pieces) = withoutReturn piece :: dropReturns pieces := by
  cases pieces with
  | nil => exact absurd rfl h
  | cons next more => rfl

theorem length_dropReturns (pieces : List (List Char)) :
    (dropReturns pieces).length = pieces.length := by
  fun_induction dropReturns pieces with
  | case1 => rfl
  | case2 last => rfl
  | case3 piece more _ ih => simp [ih]

theorem map_dropReturns {α : Type} {f : List Char → α} (h : ∀ row, f (withoutReturn row) = f row)
    (pieces : List (List Char)) : (dropReturns pieces).map f = pieces.map f := by
  fun_induction dropReturns pieces with
  | case1 => rfl
  | case2 last => rfl
  | case3 piece more _ ih => simp [h, ih]

theorem splitOn_append_newline (a b : List Char) :
    (a ++ '\n' :: b).splitOn '\n' = a.splitOn '\n' ++ b.splitOn '\n' :=
  List.splitOnP_append_cons a b (beq_self_eq_true '\n')

theorem splitOn_of_not_mem {row : List Char} (h : '\n' ∉ row) : row.splitOn '\n' = [row] := by
  apply List.splitOnP_eq_singleton
  intro c inside
  simpa using fun same : c = '\n' => h (same ▸ inside)

/-- Texts are built from rows and newlines. -/
theorem row_induction {P : List Char → Prop} (last : ∀ row, '\n' ∉ row → P row)
    (more : ∀ row rest, '\n' ∉ row → P rest → P (row ++ '\n' :: rest)) (text : List Char) :
    P text := by
  by_cases h : '\n' ∈ text
  · obtain ⟨row, rest, rfl, inside⟩ := List.eq_append_cons_of_mem h
    exact more row rest inside (row_induction last more rest)
  · exact last text h
termination_by text.length

theorem length_rows (text : List Char) : (rows text).length = text.count '\n' + 1 := by
  rw [rows, length_dropReturns]
  induction text using row_induction with
  | last row h => simp [splitOn_of_not_mem h, List.count_eq_zero.2 h]
  | more row rest h ih =>
    simp [splitOn_append_newline, splitOn_of_not_mem h, List.count_eq_zero.2 h, ih]

theorem rows_of_not_mem {row : List Char} (h : '\n' ∉ row) : rows row = [row] := by
  rw [rows, splitOn_of_not_mem h, dropReturns]

theorem rows_append_newline {row : List Char} (h : '\n' ∉ row) (rest : List Char) :
    rows (row ++ '\n' :: rest) = withoutReturn row :: rows rest := by
  rw [rows, splitOn_append_newline, splitOn_of_not_mem h, List.singleton_append,
    dropReturns_cons (List.splitOn_ne_nil _ _), rows]

theorem lines_of_not_mem {row : List Char} (h : '\n' ∉ row) (nonempty : row ≠ []) :
    lines row = [row] := by
  obtain rfl | ⟨front, c, rfl⟩ := List.eq_nil_or_concat row
  · exact absurd rfl nonempty
  · rw [List.concat_eq_append] at h ⊢
    have inside : '\n' ∉ front := fun member => h (List.mem_append_left _ member)
    have last : c ≠ '\n' := fun same => h (by simp [same])
    have single : lines [c] = [[c]] := lines_cons last (by simp)
    exact lines_append inside (by simpa using fun _ => last) single

theorem lines_append_row {row : List Char} (h : '\n' ∉ row) (rest : List Char) :
    lines (row ++ '\n' :: rest) = withoutReturn row :: lines rest := by
  by_cases ending : row.getLast? = some '\r'
  · obtain ⟨front, rfl⟩ := List.getLast?_eq_some_iff.1 ending
    have inside : '\n' ∉ front := fun member => h (List.mem_append_left _ member)
    have next : lines ('\r' :: '\n' :: rest) = [] :: lines rest := lines_return_newline rest
    rw [withoutReturn_append_return, List.append_assoc]
    simpa using lines_append inside (by simp) next
  · rw [withoutReturn_of_ne ending, lines_append_newline h ending]

theorem rows_eq_lines (text : List Char) :
    rows text = lines text ∨ rows text = lines text ++ [[]] := by
  induction text using row_induction with
  | last row h =>
    by_cases empty : row = []
    · subst empty
      exact .inr rfl
    · rw [rows_of_not_mem h, lines_of_not_mem h empty]
      exact .inl rfl
  | more row rest h ih =>
    rw [rows_append_newline h, lines_append_row h]
    rcases ih with same | longer
    · exact .inl (by rw [same])
    · exact .inr (by rw [longer]; rfl)

end EightBit.Text
