import EightBit.Proofs.ProgramTextJoin
import Mathlib.Logic.Relation

/-!
# Layout of a program text

Carriage returns before the newlines, blanks around the lines, comments and blanks at the end are
layout. A change of layout keeps the code of every row and adds or drops rows without code at the
end only, so any number of changes leaves the program or the error as it was.
-/
namespace EightBit

namespace Text

/-- Every newline gets a carriage return before it. -/
def withReturns (text : List Char) : List Char :=
  text.flatMap fun c => if c = '\n' then ['\r', '\n'] else [c]

/-- A line starts where the text starts or after a newline. -/
def LineStart (before : List Char) : Prop := before = [] ∨ ∃ front, before = front ++ ['\n']

/-- A line ends where the text ends or before a newline, which may have its carriage return. -/
def LineEnd (after : List Char) : Prop :=
  after = [] ∨ ∃ rest, after = '\n' :: rest ∨ after = '\r' :: '\n' :: rest

/-- One change of the layout of a text. -/
inductive Relaid : List Char → List Char → Prop
  | returns (text : List Char) : Relaid text (withReturns text)
  | indented (before blank after : List Char) (start : LineStart before)
      (blanks : ∀ c ∈ blank, isBlank c ∧ c ≠ '\n') :
      Relaid (before ++ after) (before ++ blank ++ after)
  | padded (before blank after : List Char) (ending : LineEnd after)
      (blanks : ∀ c ∈ blank, isBlank c ∧ c ≠ '\n') :
      Relaid (before ++ after) (before ++ blank ++ after)
  | commented (before comment after : List Char) (ending : LineEnd after)
      (inside : '\n' ∉ comment) : Relaid (before ++ after) (before ++ '#' :: comment ++ after)
  | extended (text blank : List Char) (blanks : ∀ c ∈ blank, isBlank c) :
      Relaid text (text ++ blank)
  | trimmed (text : List Char) : Relaid text (trimEnd text)

/-- The same text but for any number of changes of layout, made or undone. -/
def SameLayout : List Char → List Char → Prop := Relation.EqvGen Relaid

theorem withReturns_of_not_mem {row : List Char} (h : '\n' ∉ row) : withReturns row = row := by
  induction row with
  | nil => rfl
  | cons c row ih =>
    have first : c ≠ '\n' := fun same => h (same ▸ List.mem_cons_self)
    have others : '\n' ∉ row := fun member => h (List.mem_cons_of_mem _ member)
    have rest := ih others
    rw [withReturns] at rest ⊢
    rw [List.flatMap_cons, rest, if_neg first, List.singleton_append]

theorem withReturns_append_newline {row : List Char} (h : '\n' ∉ row) (rest : List Char) :
    withReturns (row ++ '\n' :: rest) = (row ++ ['\r']) ++ '\n' :: withReturns rest := by
  have front := withReturns_of_not_mem h
  rw [withReturns] at front ⊢
  rw [List.flatMap_append, front, List.flatMap_cons, if_pos rfl, ← withReturns]
  simp

theorem LineEnd.exists_blank {after : List Char} (h : LineEnd after) :
    ∃ ret, (∀ c ∈ ret, isBlank c) ∧ '\n' ∉ ret ∧
      (after = ret ∨ ∃ rest, after = ret ++ '\n' :: rest) := by
  rcases h with rfl | ⟨rest, rfl | rfl⟩
  · exact ⟨[], nofun, List.not_mem_nil, .inl rfl⟩
  · exact ⟨[], nofun, List.not_mem_nil, .inr ⟨rest, rfl⟩⟩
  · exact ⟨['\r'], List.forall_mem_singleton.2 rfl, by decide, .inr ⟨rest, rfl⟩⟩

end Text

namespace ProgramImage

open Text

theorem codes_of_not_mem {row : List Char} (h : '\n' ∉ row) : codes row = [codeOf row] := by
  rw [codes, rows_of_not_mem h, List.map_singleton]

theorem codeOf_blank_append {front : List Char} (h : ∀ c ∈ front, isBlank c) (row : List Char) :
    codeOf (front ++ row) = codeOf row := by
  have unmarked : '#' ∉ front := fun inside => absurd (h '#' inside) (by decide)
  rw [codeOf, cutAt_append, if_neg unmarked, trim, trimStart_append_of_blank h, ← trim, codeOf]

theorem codeOf_append_comment (row comment : List Char) :
    codeOf (row ++ '#' :: comment) = codeOf row := by
  have cut : cutAt '#' ('#' :: comment) = [] := cutAt_append_cons List.not_mem_nil comment
  rw [codeOf, cutAt_append, cut, List.append_nil]
  split
  · rw [codeOf]
  · next outside => rw [codeOf, cutAt_of_not_mem outside]

theorem codes_withReturns (text : List Char) : codes (withReturns text) = codes text := by
  induction text using row_induction with
  | last row h => rw [withReturns_of_not_mem h]
  | more row rest h ih =>
    have inside : '\n' ∉ row ++ ['\r'] := by simpa using h
    rw [withReturns_append_newline h, codes_append_newline, codes_of_not_mem inside,
      codeOf_append_return, ih, codes_append_newline, codes_of_not_mem h]

theorem codes_blank_append {blank : List Char} (blanks : ∀ c ∈ blank, isBlank c ∧ c ≠ '\n')
    (after : List Char) : codes (blank ++ after) = codes after := by
  have plain : '\n' ∉ blank := fun inside => (blanks _ inside).2 rfl
  have code : ∀ row, codeOf (blank ++ row) = codeOf row :=
    codeOf_blank_append fun c inside => (blanks c inside).1
  induction after using row_induction with
  | last row h =>
    have inside : '\n' ∉ blank ++ row := by simp [plain, h]
    rw [codes_of_not_mem inside, code, codes_of_not_mem h]
  | more row rest h _ =>
    have inside : '\n' ∉ blank ++ row := by simp [plain, h]
    rw [← List.append_assoc, codes_append_newline, codes_of_not_mem inside, code,
      codes_append_newline, codes_of_not_mem h]

theorem codes_indented {before blank : List Char} (start : LineStart before)
    (blanks : ∀ c ∈ blank, isBlank c ∧ c ≠ '\n') (after : List Char) :
    codes (before ++ blank ++ after) = codes (before ++ after) := by
  rcases start with rfl | ⟨front, rfl⟩
  · exact codes_blank_append blanks after
  · simp only [List.append_assoc, List.cons_append, List.nil_append, codes_append_newline,
      codes_blank_append blanks after]

/-- What is put at the end of a line counts only by the code of that line. -/
theorem codes_put_at_end {put after : List Char} (before : List Char) (inside : '\n' ∉ put)
    (kept : ∀ row ret, (∀ c ∈ ret, isBlank c) → codeOf (row ++ put ++ ret) = codeOf row)
    (ending : LineEnd after) : codes (before ++ put ++ after) = codes (before ++ after) := by
  obtain ⟨ret, blanks, plain, shape⟩ := ending.exists_blank
  induction before using row_induction with
  | last row h =>
    have long : '\n' ∉ row ++ put ++ ret := by simp [h, inside, plain]
    have short : '\n' ∉ row ++ ret := by simp [h, plain]
    have same : codes (row ++ put ++ ret) = codes (row ++ ret) := by
      rw [codes_of_not_mem long, codes_of_not_mem short, kept row ret blanks,
        codeOf_append_of_blank row blanks]
    rcases shape with rfl | ⟨rest, rfl⟩
    · exact same
    · rw [← List.append_assoc, codes_append_newline, same, ← List.append_assoc,
        codes_append_newline]
  | more row rest h ih =>
    simp only [List.append_assoc, List.cons_append, codes_append_newline] at ih ⊢
    rw [ih]

theorem codes_padded {blank after : List Char} (before : List Char)
    (blanks : ∀ c ∈ blank, isBlank c ∧ c ≠ '\n') (ending : LineEnd after) :
    codes (before ++ blank ++ after) = codes (before ++ after) := by
  refine codes_put_at_end before (fun inside => (blanks _ inside).2 rfl) ?_ ending
  intro row ret spaces
  have all : ∀ c ∈ blank ++ ret, isBlank c := fun c inside =>
    (List.mem_append.1 inside).elim (fun front => (blanks c front).1) (spaces c)
  rw [List.append_assoc, codeOf_append_of_blank row all]

theorem codes_commented {comment after : List Char} (before : List Char) (inside : '\n' ∉ comment)
    (ending : LineEnd after) :
    codes (before ++ '#' :: comment ++ after) = codes (before ++ after) := by
  refine codes_put_at_end before (by simpa using inside) ?_ ending
  intro row ret _
  rw [List.append_assoc, List.cons_append, codeOf_append_comment]

/-- Blanks at the end are rows without code. -/
theorem codes_extended (text : List Char) {blank : List Char} (blanks : ∀ c ∈ blank, isBlank c) :
    ∃ added, (∀ code ∈ added, code = []) ∧ codes (text ++ blank) = codes text ++ added := by
  induction blank using row_induction generalizing text with
  | last row h =>
    have spaces : ∀ c ∈ row, isBlank c ∧ c ≠ '\n' := fun c inside =>
      ⟨blanks c inside, fun same => h (same ▸ inside)⟩
    have same := codes_padded text spaces (.inl rfl)
    rw [List.append_nil, List.append_nil] at same
    exact ⟨[], nofun, by rw [same, List.append_nil]⟩
  | more row rest h ih =>
    have spaces : ∀ c ∈ row, isBlank c ∧ c ≠ '\n' := fun c inside =>
      ⟨blanks c (List.mem_append_left _ inside), fun same => h (same ▸ inside)⟩
    have front := codes_padded text spaces (.inl rfl)
    rw [List.append_nil, List.append_nil] at front
    obtain ⟨added, empty, back⟩ := ih []
      fun c inside => blanks c (List.mem_append_right _ (List.mem_cons_of_mem _ inside))
    have first : codes [] = [[]] := rfl
    refine ⟨[] :: added, ?_, ?_⟩
    · intro code member
      exact (List.mem_cons.1 member).elim id (empty code)
    · rw [← List.append_assoc, codes_append_newline, front]
      exact congrArg _ (back.trans (congrArg (· ++ added) first))

theorem ofChars_of_codes {text other : List Char} {added : List (List Char)}
    (empty : ∀ code ∈ added, code = []) (same : codes other = codes text ++ added) :
    ofChars other = ofChars text := by
  have kept : added.filter (· ≠ []) = [] := by simpa using empty
  have sound : ∀ number, firstFlaw? number added = none := by
    intro number
    rw [firstFlaw?_eq_none_iff, kept]
    exact nofun
  have bytes : bytesOf added = [] := by rw [bytesOf, kept, List.map_nil]
  rw [ofChars, ofChars, readLines_lines, readLines_lines, same, firstFlaw?_append, sound,
    Option.or_none, bytesOf_append, bytes, List.append_nil]

theorem ofChars_of_relaid {text other : List Char} (h : Relaid text other) :
    ofChars other = ofChars text := by
  have of_same {s t : List Char} (same : codes t = codes s) : ofChars t = ofChars s :=
    ofChars_of_codes (List.forall_mem_nil _) (same.trans (List.append_nil _).symm)
  cases h with
  | returns => exact of_same (codes_withReturns text)
  | indented before blank after start blanks => exact of_same (codes_indented start blanks after)
  | padded before blank after ending blanks => exact of_same (codes_padded before blanks ending)
  | commented before comment after ending inside =>
    exact of_same (codes_commented before inside ending)
  | extended _ blank blanks =>
    obtain ⟨added, empty, same⟩ := codes_extended text blanks
    exact ofChars_of_codes empty same
  | trimmed =>
    obtain ⟨back, blanks, whole⟩ := exists_blank_append_trimEnd text
    obtain ⟨added, empty, same⟩ := codes_extended (trimEnd text) blanks
    rw [whole] at same
    exact (ofChars_of_codes empty same).symm

/-- Texts of the same layout are read as the same program or refused for the same reason, in the
same line and with the same code. -/
theorem parse_of_same_layout {text other : String}
    (same : SameLayout text.toList other.toList) : parse other = parse text := by
  have kept {s t : List Char} (h : SameLayout s t) : ofChars s = ofChars t := by
    induction h with
    | rel s t changed => exact (ofChars_of_relaid changed).symm
    | refl s => rfl
    | symm s t _ ih => exact ih.symm
    | trans s t u _ _ first second => exact first.trans second
  exact (kept same).symm

/-- The flaw in the second line of this text keeps its number and its code. -/
theorem parse_of_dressed_flaw :
    SameLayout "101\n2".toList "\t101# five\r\n2\u00a0\n \n".toList ∧
      parse "\t101# five\r\n2\u00a0\n \n" = .error (.invalidByte 2 "2") := by
  have returns : Relaid "101\n2".toList "101\r\n2".toList := .returns "101\n2".toList
  have indented : Relaid "101\r\n2".toList "\t101\r\n2".toList :=
    .indented [] ['\t'] "101\r\n2".toList (.inl rfl) (List.forall_mem_singleton.2 (by decide))
  have commented : Relaid "\t101\r\n2".toList "\t101# five\r\n2".toList :=
    .commented "\t101".toList " five".toList "\r\n2".toList (.inr ⟨['2'], .inr rfl⟩) (by decide)
  have padded : Relaid "\t101# five\r\n2".toList "\t101# five\r\n2\u00a0".toList :=
    .padded "\t101# five\r\n2".toList ['\u00a0'] [] (.inl rfl)
      (List.forall_mem_singleton.2 (by decide))
  have extended : Relaid "\t101# five\r\n2\u00a0".toList
      "\t101# five\r\n2\u00a0\n \n".toList :=
    .extended _ "\n \n".toList (List.all_eq_true.1 (by decide))
  have same : SameLayout "101\n2".toList "\t101# five\r\n2\u00a0\n \n".toList := by
    refine Relation.EqvGen.trans _ _ _ (.rel _ _ returns) ?_
    refine Relation.EqvGen.trans _ _ _ (.rel _ _ indented) ?_
    refine Relation.EqvGen.trans _ _ _ (.rel _ _ commented) ?_
    refine Relation.EqvGen.trans _ _ _ (.rel _ _ padded) ?_
    exact .rel _ _ extended
  have flaw : parse "101\n2" = .error (.invalidByte 2 "2") := by decide
  exact ⟨same, (parse_of_same_layout same).trans flaw⟩

end ProgramImage
end EightBit
