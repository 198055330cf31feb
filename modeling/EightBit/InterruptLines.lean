/-!
# Interrupt lines

Eight request lines, and bytes as sets of them: bit `i` of a byte stands for line `i`.
-/
namespace EightBit

abbrev Line := Fin 8

namespace Line

/-- The line of the periodic tick. -/
def timer : Line := 0

def ofByte? (b : UInt8) : Option Line :=
  if h : b.toNat < 8 then some ⟨b.toNat, h⟩ else none

def all : List Line := List.finRange 8

end Line

namespace LineSet

def single (line : Line) : UInt8 := 1 <<< UInt8.ofNat line

def contains (s : UInt8) (line : Line) : Bool := s.toBitVec.getLsbD line

def insert (s : UInt8) (line : Line) : UInt8 := s ||| single line

def erase (s : UInt8) (line : Line) : UInt8 := s &&& ~~~single line

/-- The lowest line of the set comes first. -/
def lowest? (s : UInt8) : Option Line := Line.all.find? (contains s)

theorem contains_single (line other : Line) :
    contains (single line) other = decide (line = other) := by
  decide +revert

theorem contains_or (s t : UInt8) (line : Line) :
    contains (s ||| t) line = (contains s line || contains t line) := by
  simp [contains]

theorem contains_and (s t : UInt8) (line : Line) :
    contains (s &&& t) line = (contains s line && contains t line) := by
  simp [contains]

theorem contains_not (s : UInt8) (line : Line) : contains (~~~s) line = !contains s line := by
  simp [contains]

theorem contains_insert (s : UInt8) (line other : Line) :
    contains (insert s line) other = (contains s other || decide (line = other)) := by
  simp [insert, contains_or, contains_single]

theorem contains_erase (s : UInt8) (line other : Line) :
    contains (erase s line) other = (contains s other && decide (other ≠ line)) := by
  simp [erase, contains_and, contains_not, contains_single, eq_comm]

/-- A byte is determined by the lines it contains. -/
theorem ext_contains {s t : UInt8} (h : ∀ line, contains s line = contains t line) : s = t := by
  apply UInt8.toBitVec_inj.1
  apply BitVec.eq_of_getLsbD_eq
  intro i hi
  exact h ⟨i, hi⟩

theorem lowest?_eq_some_iff {s : UInt8} {line : Line} :
    lowest? s = some line ↔ contains s line ∧ ∀ other < line, contains s other = false := by
  rw [lowest?, Line.all, List.find?_eq_some_iff_getElem]
  constructor
  · rintro ⟨set, i, hi, rfl, clear⟩
    refine ⟨set, fun other below => ?_⟩
    have hother : (other : Nat) < i := by simpa [Fin.lt_def] using below
    simpa using clear other hother
  · rintro ⟨set, clear⟩
    refine ⟨set, line, by simp, by simp, fun j hj => ?_⟩
    simpa using clear ⟨j, by omega⟩ hj

theorem lowest?_eq_none_iff {s : UInt8} : lowest? s = none ↔ s = 0 := by
  constructor
  · intro h
    apply ext_contains
    intro line
    have := List.find?_eq_none.1 h line (List.mem_finRange line)
    simpa [contains] using this
  · rintro rfl
    decide

end LineSet
end EightBit
