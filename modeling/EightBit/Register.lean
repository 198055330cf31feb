/-!
# General registers

Eight byte registers. Three of them have a second role: `r5` masks interrupt lines, `r6` latches
their requests and `r7` points at the top of the stack.
-/
namespace EightBit

inductive Register
  | r0 | r1 | r2 | r3 | r4 | r5 | r6 | r7
  deriving DecidableEq, Repr

namespace Register

/-- Lines that may interrupt. -/
abbrev mask : Register := r5

/-- Lines that have been requested. -/
abbrev requests : Register := r6

abbrev stackPointer : Register := r7

def all : List Register := [r0, r1, r2, r3, r4, r5, r6, r7]

def number : Register → Nat
  | r0 => 0 | r1 => 1 | r2 => 2 | r3 => 3 | r4 => 4 | r5 => 5 | r6 => 6 | r7 => 7

def ofNumber? (n : Nat) : Option Register := all[n]?

def byte (r : Register) : UInt8 := UInt8.ofNat r.number

def ofByte? (b : UInt8) : Option Register := ofNumber? b.toNat

def name : Register → String
  | r0 => "r0" | r1 => "r1" | r2 => "r2" | r3 => "r3"
  | r4 => "r4" | r5 => "r5" | r6 => "r6" | r7 => "r7"

theorem mem_all (r : Register) : r ∈ all := by cases r <;> decide

theorem number_lt (r : Register) : r.number < 8 := by cases r <;> decide

def index (r : Register) : Fin 8 := ⟨r.number, r.number_lt⟩

theorem number_injective {r s : Register} (h : r.number = s.number) : r = s := by
  cases r <;> cases s <;> first | rfl | exact absurd h (by decide)

theorem ofNumber?_number (r : Register) : ofNumber? r.number = some r := by cases r <;> rfl

theorem number_of_ofNumber? {n : Nat} {r : Register} (h : ofNumber? n = some r) :
    r.number = n := by
  obtain ⟨bound, rfl⟩ := List.getElem?_eq_some_iff.1 h
  exact (by decide : ∀ i : Fin 8, all[i].number = i) ⟨n, bound⟩

theorem exists_number {n : Nat} (h : n < 8) : ∃ r : Register, r.number = n :=
  ⟨all.get ⟨n, h⟩, number_of_ofNumber? (List.getElem?_eq_getElem h)⟩

theorem ofByte?_byte (r : Register) : ofByte? r.byte = some r := by cases r <;> rfl

theorem byte_of_ofByte? {b : UInt8} {r : Register} (h : ofByte? b = some r) : r.byte = b := by
  simp [byte, number_of_ofNumber? h]

theorem ofByte?_eq_some_iff {b : UInt8} {r : Register} : ofByte? b = some r ↔ r.byte = b :=
  ⟨byte_of_ofByte?, fun h => h ▸ ofByte?_byte r⟩

theorem ofByte?_eq_none_iff {b : UInt8} : ofByte? b = none ↔ 8 ≤ b := by
  rw [ofByte?, ofNumber?, List.getElem?_eq_none_iff, UInt8.le_iff_toNat_le]
  rfl

end Register
end EightBit
