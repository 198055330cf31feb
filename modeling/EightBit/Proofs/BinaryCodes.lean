import EightBit.Proofs.ProgramTextRoundTrip
import Mathlib.Data.List.Induction
import Mathlib.Data.Nat.Digits.Defs

/-!
# Binary codes of bytes

A code is one to eight binary digits. Such codes are all that is read as a byte: their value in base
two is always a byte, so reading them digit by digit with checked arithmetic never fails.
-/
namespace EightBit

namespace Numerals

theorem value_eq_ofDigits (base : Nat) (ds : List Char) :
    value base ds = Nat.ofDigits base (ds.reverse.map digitValue) := by
  induction ds using List.reverseRecOn with
  | nil => rfl
  | append_singleton ds c ih => simp [value_concat, ih, Nat.ofDigits_cons, Nat.add_comm]

/-- A byte with one more binary digit, unless that is no digit or the result is no byte. -/
def pushBit? (v : UInt8) (c : Char) : Option UInt8 :=
  if (c = '0' ∨ c = '1') ∧ 2 * v.toNat + digitValue c < 256 then
    some (UInt8.ofNat (2 * v.toNat + digitValue c))
  else none

def checkedDigits? (ds : List Char) : Option UInt8 :=
  if ds.isEmpty then none else ds.foldlM pushBit? 0

/-- Binary digits after an optional plus sign, read with checked arithmetic. -/
def checkedBinary? : List Char → Option UInt8
  | '+' :: ds => checkedDigits? ds
  | ds => checkedDigits? ds

theorem foldlM_pushBit? {ds : List Char} (binary : ∀ c ∈ ds, c = '0' ∨ c = '1') (v : UInt8)
    (room : (v.toNat + 1) * 2 ^ ds.length ≤ 256) :
    ∃ w, ds.foldlM pushBit? v = some w ∧
      w.toNat = ds.foldl (fun n c => 2 * n + digitValue c) v.toNat := by
  induction ds generalizing v with
  | nil => exact ⟨v, rfl, rfl⟩
  | cons c ds ih =>
    have digit : digitValue c ≤ 1 := by rcases binary c (by simp) with rfl | rfl <;> decide
    have fewer : (2 * v.toNat + digitValue c + 1) * 2 ^ ds.length ≤ 256 :=
      calc (2 * v.toNat + digitValue c + 1) * 2 ^ ds.length
          ≤ ((v.toNat + 1) * 2) * 2 ^ ds.length := Nat.mul_le_mul_right _ (by omega)
        _ = (v.toNat + 1) * 2 ^ (ds.length + 1) := by rw [Nat.mul_assoc, Nat.pow_succ']
        _ ≤ 256 := room
    have small : 2 * v.toNat + digitValue c < 256 :=
      Nat.le_trans (Nat.le_mul_of_pos_right _ (Nat.two_pow_pos _)) fewer
    have next : (UInt8.ofNat (2 * v.toNat + digitValue c)).toNat = 2 * v.toNat + digitValue c := by
      rw [UInt8.toNat_ofNat', Nat.mod_eq_of_lt small]
    have pushed : pushBit? v c = some (UInt8.ofNat (2 * v.toNat + digitValue c)) :=
      if_pos ⟨binary c (by simp), small⟩
    obtain ⟨w, read, value⟩ := ih (fun d inside => binary d (by simp [inside]))
      (UInt8.ofNat (2 * v.toNat + digitValue c)) (by rw [next]; exact fewer)
    refine ⟨w, ?_, ?_⟩
    · rw [List.foldlM_cons, pushed]
      exact read
    · rw [value, next, List.foldl_cons]

end Numerals

namespace ProgramImage

/-- One to eight binary digits. -/
structure IsCode (code : List Char) : Prop where
  nonempty : code ≠ []
  short : code.length ≤ 8
  binary : ∀ c ∈ code, c = '0' ∨ c = '1'

/-- The number that binary digits write, the most significant one first. -/
def binaryValue (code : List Char) : Nat :=
  Nat.ofDigits 2 (code.reverse.map fun c => if c = '1' then 1 else 0)

theorem all_isBinaryDigit_iff {code : List Char} :
    code.all isBinaryDigit = true ↔ ∀ c ∈ code, c = '0' ∨ c = '1' := by
  simp [isBinaryDigit]

theorem isCode_iff {code : List Char} :
    (!code.isEmpty && code.length ≤ 8 && code.all isBinaryDigit) = true ↔ IsCode code := by
  rw [Bool.and_eq_true, Bool.and_eq_true, all_isBinaryDigit_iff]
  constructor
  · rintro ⟨⟨nonempty, short⟩, binary⟩
    exact ⟨by simpa using nonempty, by simpa using short, binary⟩
  · rintro ⟨nonempty, short, binary⟩
    exact ⟨⟨by simpa using nonempty, by simpa using short⟩, binary⟩

instance (code : List Char) : Decidable (IsCode code) := decidable_of_iff _ isCode_iff

theorem byte?_eq_ite (code : List Char) :
    byte? code = if IsCode code then some (byteOf code) else none := by
  simp only [byte?, isCode_iff, byteOf]

theorem byte?_of_isCode {code : List Char} (h : IsCode code) : byte? code = some (byteOf code) := by
  rw [byte?_eq_ite, if_pos h]

theorem byte?_of_not_isCode {code : List Char} (h : ¬ IsCode code) : byte? code = none := by
  rw [byte?_eq_ite, if_neg h]

theorem IsCode.value_eq {code : List Char} (h : IsCode code) :
    Numerals.value 2 code = binaryValue code := by
  have digits : code.reverse.map Numerals.digitValue =
      code.reverse.map fun c => if c = '1' then 1 else 0 := by
    apply List.map_congr_left
    intro c inside
    rcases h.binary c (List.mem_reverse.1 inside) with rfl | rfl <;> decide
  rw [Numerals.value_eq_ofDigits, digits, binaryValue]

theorem IsCode.checkedDigits {code : List Char} (h : IsCode code) :
    ∃ b, Numerals.checkedDigits? code = some b ∧ b.toNat = Numerals.value 2 code := by
  have room : ((0 : UInt8).toNat + 1) * 2 ^ code.length ≤ 256 := by
    simpa using Nat.pow_le_pow_right Nat.two_pos h.short
  obtain ⟨b, read, value⟩ := Numerals.foldlM_pushBit? h.binary 0 room
  exact ⟨b, by simpa [Numerals.checkedDigits?, h.nonempty] using read, value⟩

/-- No code overflows a byte. -/
theorem IsCode.toNat_byteOf {code : List Char} (h : IsCode code) :
    (byteOf code).toNat = binaryValue code := by
  obtain ⟨b, -, value⟩ := h.checkedDigits
  rw [byteOf, ← value, UInt8.ofNat_toNat, value, h.value_eq]

theorem IsCode.checkedBinary {code : List Char} (h : IsCode code) :
    Numerals.checkedBinary? code = some (byteOf code) := by
  obtain ⟨b, read, value⟩ := h.checkedDigits
  have unsigned : Numerals.checkedBinary? code = Numerals.checkedDigits? code := by
    unfold Numerals.checkedBinary?
    split
    · next ds => exact absurd (h.binary '+' (by simp)) (by decide)
    · rfl
  rw [unsigned, read, byteOf, ← value, UInt8.ofNat_toNat]

theorem length_encode_of_binary {code : List Char} (binary : ∀ c ∈ code, c = '0' ∨ c = '1') :
    (Utf8.encode code).length = code.length := by
  induction code with
  | nil => rfl
  | cons c code ih =>
    have rest := ih fun d inside => binary d (by simp [inside])
    have one : (String.utf8EncodeChar c).length = 1 := by
      rcases binary c (by simp) with rfl | rfl <;> decide
    rw [Utf8.encode, List.flatMap_cons, List.length_append, ← Utf8.encode, rest, one,
      List.length_cons, Nat.add_comm]

/-- At most eight bytes of binary digits are read with checked arithmetic, and other codes are
refused. -/
theorem byte?_eq_checked (code : List Char) :
    byte? code =
      if (Utf8.encode code).length ≤ 8 ∧ code.all isBinaryDigit then
        Numerals.checkedBinary? code
      else none := by
  by_cases accepted : (Utf8.encode code).length ≤ 8 ∧ code.all isBinaryDigit
  · have binary := all_isBinaryDigit_iff.1 accepted.2
    have short : code.length ≤ 8 := by
      rw [← length_encode_of_binary binary]
      exact accepted.1
    rw [if_pos accepted]
    by_cases empty : code = []
    · subst empty
      rfl
    · have code : IsCode code := ⟨empty, short, binary⟩
      rw [byte?_of_isCode code, code.checkedBinary]
  · rw [if_neg accepted]
    apply byte?_of_not_isCode
    intro code
    apply accepted
    rw [length_encode_of_binary code.binary]
    exact ⟨code.short, all_isBinaryDigit_iff.2 code.binary⟩

end ProgramImage
end EightBit
