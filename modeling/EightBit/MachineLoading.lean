import EightBit.Machine
import EightBit.Numerals

/-!
# Loading an image

An image is written to the addresses from its start on, a byte each, and the last address is never
passed. An image that reaches past it is refused before anything is written.
-/
namespace EightBit

/-- An image of `length` bytes does not fit at `start`. -/
structure ImageTooLarge where
  length : Nat
  start : UInt8
  deriving DecidableEq, Repr

def ImageTooLarge.message (e : ImageTooLarge) : String :=
  "image of " ++ Nat.repr e.length ++ " bytes doesn't fit in memory at 0x" ++ Numerals.hex e.start ++
    " (" ++ Nat.repr Memory.size ++ " bytes)"

namespace Machine

variable {μ : Type} [Memory μ]

def load (m : Machine μ) (image : List UInt8) (start : UInt8) : Except ImageTooLarge (Machine μ) :=
  if Memory.size < start.toNat + image.length then .error ⟨image.length, start⟩
  else .ok { m with
    memory := Memory.writeAll m.memory ((Memory.addressesFrom start).zip image) }

theorem load_eq_error_iff {m : Machine μ} {image : List UInt8} {start : UInt8} {e : ImageTooLarge} :
    m.load image start = .error e ↔
      Memory.size < start.toNat + image.length ∧ e = ⟨image.length, start⟩ := by
  by_cases h : Memory.size < start.toNat + image.length <;> simp [load, h, eq_comm]

/-- An image that is not refused fits, and is written whole. -/
theorem load_eq_ok_iff {m after : Machine μ} {image : List UInt8} {start : UInt8} :
    m.load image start = .ok after ↔
      start.toNat + image.length ≤ Memory.size ∧
        after = { m with memory := Memory.writeAll m.memory (Memory.placed start image) } := by
  by_cases h : Memory.size < start.toNat + image.length
  · simp [load, h, Nat.not_le.2 h]
  · have fits := Nat.not_lt.1 h
    simp [load, h, fits, Memory.zip_addressesFrom fits, eq_comm]

end Machine
end EightBit
