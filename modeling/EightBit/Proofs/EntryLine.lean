import Mathlib.Data.List.Basic
import EightBit.Listing
import EightBit.TextLines

/-!
# Reading the line of an entry

The address and the bytes of an entry are read back from its line, as these stand in columns of
their own. The text of the instruction is not needed for that, only that it ends no line.
-/
namespace EightBit

/-- Nothing in the text ends a line. -/
def Text.OneLine (text : String) : Prop := ∀ c ∈ text.toList, c ≠ '\n' ∧ c ≠ '\r'

namespace Text.OneLine

instance (text : String) : Decidable (OneLine text) :=
  List.decidableBAll (fun c => c ≠ '\n' ∧ c ≠ '\r') text.toList

theorem append {first second : String} (h : OneLine first) (h' : OneLine second) :
    OneLine (first ++ second) := by
  intro c inside
  rw [String.toList_append] at inside
  exact (List.mem_append.1 inside).elim (h c) (h' c)

theorem repr (n : Nat) : OneLine (Nat.repr n) := by
  intro c inside
  rw [Nat.toList_repr] at inside
  have digit := Nat.isDigit_of_mem_toDigits (by decide) (by decide) inside
  constructor <;> rintro rfl <;> cases digit

end Text.OneLine

namespace Numerals

/-- The bytes that hexadecimal digits stand for, two for each. -/
def bytesOfHex : List Char → List UInt8
  | high :: low :: rest => UInt8.ofNat (value 16 [high, low]) :: bytesOfHex rest
  | _ => []

theorem toList_hex (b : UInt8) : (hex b).toList = digits 16 2 b.toNat := String.toList_ofList

theorem exists_toList_hex (b : UInt8) :
    ∃ high low, (hex b).toList = [high, low] ∧ value 16 [high, low] = b.toNat := by
  obtain ⟨high, low, two⟩ := List.length_eq_two.1 (length_digits 16 2 b.toNat)
  refine ⟨high, low, (toList_hex b).trans two, ?_⟩
  rw [← two, value_hex]

theorem bytesOfHex_flatMap_hex (bytes : List UInt8) :
    bytesOfHex (bytes.flatMap fun b => (hex b).toList) = bytes := by
  induction bytes with
  | nil => rfl
  | cons b rest ih =>
    obtain ⟨high, low, two, same⟩ := exists_toList_hex b
    rw [List.flatMap_cons, two, List.cons_append, List.cons_append, List.nil_append, bytesOfHex,
      same, ih, UInt8.ofNat_toNat]

theorem exists_digit_of_mem_hex {b : UInt8} {c : Char} (h : c ∈ (hex b).toList) :
    ∃ d, d < 16 ∧ c = Nat.digitChar d :=
  exists_digit_of_mem_digits (by decide) (toList_hex b ▸ h)

theorem digitChar_ne : ∀ d < 16,
    Nat.digitChar d ≠ ' ' ∧ Nat.digitChar d ≠ '\t' ∧ Nat.digitChar d ≠ '\n' ∧
      Nat.digitChar d ≠ '\r' := by
  decide

theorem oneLine_hex (b : UInt8) : Text.OneLine (hex b) := by
  intro c inside
  obtain ⟨d, small, rfl⟩ := exists_digit_of_mem_hex inside
  exact (digitChar_ne d small).2.2

theorem filter_hex (b : UInt8) : (hex b).toList.filter (· != ' ') = (hex b).toList := by
  apply List.filter_eq_self.2
  intro c inside
  obtain ⟨d, small, rfl⟩ := exists_digit_of_mem_hex inside
  simp [(digitChar_ne d small).1]

theorem filter_intercalate_hex (bytes : List UInt8) :
    ([' '].intercalate (bytes.map fun b => (hex b).toList)).filter (· != ' ') =
      bytes.flatMap fun b => (hex b).toList := by
  induction bytes with
  | nil => rfl
  | cons b rest ih =>
    cases rest with
    | nil => simp [filter_hex]
    | cons next rest =>
      rw [List.map_cons] at ih ⊢
      rw [List.map_cons, List.intercalate_cons_cons, List.filter_append, List.filter_append,
        filter_hex, ih]
      simp

end Numerals

namespace Instruction

theorem oneLine_opcode {ω : Type} [Opcode ω]
    (all : ∀ op ∈ (Opcode.all : List ω), Text.OneLine (Opcode.name op)) (op : ω) :
    Text.OneLine (Opcode.name op) :=
  all op (Opcode.mem_all op)

theorem oneLine_mnemonic (i : Instruction) : Text.OneLine i.mnemonic := by
  cases i with
  | nullary op => exact oneLine_opcode (by decide) op
  | unary op a => exact oneLine_opcode (by decide) op
  | binary op a b => exact oneLine_opcode (by decide) op
  | immediate op a value => exact oneLine_opcode (by decide) op

theorem oneLine_name (r : Register) : Text.OneLine r.name := by
  cases r <;> decide

theorem oneLine_text (i : Instruction) : Text.OneLine i.text := by
  have tab : Text.OneLine "\t" := by decide
  have comma : Text.OneLine ", " := by decide
  have named := i.oneLine_mnemonic
  cases i with
  | nullary op => exact named
  | unary op a => exact (named.append tab).append (oneLine_name a)
  | binary op a b =>
    exact (named.append tab).append (((oneLine_name a).append comma).append (oneLine_name b))
  | immediate op a value =>
    exact (named.append tab).append
      (((oneLine_name a).append comma).append (Text.OneLine.repr value.toNat))

end Instruction

namespace Entry

theorem filter_toList_dump (e : Entry) :
    e.dump.toList.filter (· != ' ') = e.bytes.flatMap fun b => (Numerals.hex b).toList := by
  have padding (n : Nat) : (List.replicate n ' ').filter (· != ' ') = [] :=
    List.filter_replicate_of_neg (by decide)
  rw [dump, String.toList_ofList, String.toList_intercalate, List.map_map, List.rightpad,
    List.filter_append, padding, List.append_nil]
  exact Numerals.filter_intercalate_hex e.bytes

/-- Besides digits there are only the blanks that were filtered out. -/
theorem mem_dump {e : Entry} {c : Char} (h : c ∈ e.dump.toList) :
    c = ' ' ∨ ∃ d, d < 16 ∧ c = Nat.digitChar d := by
  by_cases blank : c = ' '
  · exact .inl blank
  · have digit : c ∈ e.dump.toList.filter (· != ' ') := List.mem_filter.2 ⟨h, by simpa using blank⟩
    rw [filter_toList_dump] at digit
    obtain ⟨b, -, inside⟩ := List.mem_flatMap.1 digit
    exact .inr (Numerals.exists_digit_of_mem_hex inside)

theorem tab_not_mem_dump (e : Entry) : '\t' ∉ e.dump.toList := by
  intro inside
  rcases mem_dump inside with blank | ⟨d, small, digit⟩
  · cases blank
  · exact (Numerals.digitChar_ne d small).2.1 digit.symm

theorem oneLine_dump (e : Entry) : Text.OneLine e.dump := by
  intro c inside
  rcases mem_dump inside with rfl | ⟨d, small, rfl⟩
  · decide
  · exact (Numerals.digitChar_ne d small).2.2

theorem oneLine_text (e : Entry) : Text.OneLine e.text := by
  unfold text
  split
  · exact Instruction.oneLine_text _
  · exact .append (by decide) (Numerals.oneLine_hex _)

theorem oneLine_line (e : Entry) : Text.OneLine e.line := by
  have start : Text.OneLine ("0x" ++ Numerals.hex e.address ++ ":\t") :=
    .append (.append (by decide) (Numerals.oneLine_hex _)) (by decide)
  exact ((start.append e.oneLine_dump).append (by decide)).append e.oneLine_text

end Entry

namespace Listing

/-- The address and the bytes that a line gives. -/
def readLine? : List Char → Option (Nat × List UInt8)
  | '0' :: 'x' :: high :: low :: ':' :: '\t' :: rest =>
    some (Numerals.value 16 [high, low],
      Numerals.bytesOfHex ((Text.cutAt '\t' rest).filter (· != ' ')))
  | _ => none

theorem readLine?_line (e : Entry) :
    readLine? e.line.toList = some (e.address.toNat, e.bytes) := by
  obtain ⟨high, low, two, same⟩ := Numerals.exists_toList_hex e.address
  have columns : e.line.toList = '0' :: 'x' :: high :: low :: ':' :: '\t' ::
      (e.dump.toList ++ '\t' :: e.text.toList) := by
    simp [Entry.line, two]
  rw [columns, readLine?, same, Text.cutAt_append_cons e.tab_not_mem_dump,
    Entry.filter_toList_dump, Numerals.bytesOfHex_flatMap_hex]

theorem readLine?_dots : readLine? "...".toList = none := by decide

end Listing
end EightBit
