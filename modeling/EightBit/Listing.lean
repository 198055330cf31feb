import EightBit.InstructionDecoding
import EightBit.Memory

/-!
# Listings

An image is listed by a linear sweep: at each address the bytes are decoded, and the next entry
follows the instruction found. A byte at which nothing decodes is an entry by itself. The bytes of
the entries in order are the image.
-/
namespace EightBit

structure Entry where
  address : UInt8
  bytes : List UInt8
  instruction? : Option Instruction
  deriving DecidableEq, Repr

namespace Entry

/-- The address right after the entry, not wrapped. -/
def following (e : Entry) : Nat := e.address.toNat + e.bytes.length

def isZeroByte (e : Entry) : Bool := e.bytes = [0]

def text (e : Entry) : String :=
  match e.instruction? with
  | some i => i.text
  | none => ".byte\t0x" ++ Numerals.hex (e.bytes.headD 0)

/-- The bytes in hexadecimal, as wide as those of the longest instruction. -/
def dump (e : Entry) : String :=
  String.ofList ((String.intercalate " " (e.bytes.map Numerals.hex)).toList.rightpad 8 ' ')

def line (e : Entry) : String :=
  "0x" ++ Numerals.hex e.address ++ ":\t" ++ e.dump ++ "\t" ++ e.text

end Entry

namespace Listing

def sweepFrom (address : Nat) : List UInt8 → List Entry
  | [] => []
  | b :: rest =>
    match Instruction.decode ((b :: rest).take Instruction.maxSize) with
    | .ok i =>
      ⟨UInt8.ofNat address, (b :: rest).take i.size, some i⟩ ::
        sweepFrom (address + i.size) (rest.drop i.group.operandCount)
    | .error _ => ⟨UInt8.ofNat address, [b], none⟩ :: sweepFrom (address + 1) rest
  termination_by bytes => bytes.length
  decreasing_by
    all_goals
      simp only [List.length_drop, List.length_cons]
      omega

/-- Only images that fit in memory are listed. -/
def ofImage? (image : List UInt8) : Option (List Entry) :=
  if image.length ≤ Memory.size then some (sweepFrom 0 image) else none

end Listing
end EightBit
