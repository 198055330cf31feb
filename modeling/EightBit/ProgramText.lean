import EightBit.Memory
import EightBit.Numerals
import EightBit.TextBlank
import EightBit.TextLines
import EightBit.TextQuoted
import EightBit.Utf8Text

/-!
# Program text

A program is written one byte a line in binary. Blanks around the digits, blank lines and comments
from a number sign on are left out. A program is at most as long as the memory; that is checked
after all lines have been read, so the first bad line is reported even in a text that is too long.
-/
namespace EightBit

structure ProgramImage where
  bytes : List UInt8
  length_le : bytes.length ≤ Memory.size
  deriving DecidableEq, Repr

inductive ProgramTextError
  /-- A line, counted from 1, whose code is not a byte. -/
  | invalidByte (line : Nat) (code : String)
  | tooLarge (length : Nat)
  | notUtf8
  deriving DecidableEq, Repr

def ProgramTextError.message : ProgramTextError → String
  | invalidByte line code =>
    "line " ++ Nat.repr line ++ ": expected a binary byte, found " ++ Text.quoted code
  | tooLarge length =>
    "program is " ++ Nat.repr length ++ " bytes, memory holds " ++ Nat.repr Memory.size
  | notUtf8 => "stream did not contain valid UTF-8"

namespace ProgramImage

def ofBytes (bytes : List UInt8) : Except ProgramTextError ProgramImage :=
  if h : bytes.length ≤ Memory.size then .ok ⟨bytes, h⟩ else .error (.tooLarge bytes.length)

/-- A line without its comment and the blanks around it. -/
def codeOf (line : List Char) : List Char := Text.trim (Text.cutAt '#' line)

def isBinaryDigit (c : Char) : Bool := c = '0' || c = '1'

/-- One to eight binary digits. -/
def byte? (code : List Char) : Option UInt8 :=
  if !code.isEmpty && code.length ≤ 8 && code.all isBinaryDigit then
    some (UInt8.ofNat (Numerals.value 2 code))
  else none

/-- The bytes of the lines that are not blank; lines are counted from `number`. -/
def readLines (number : Nat) : List (List Char) → Except ProgramTextError (List UInt8)
  | [] => .ok []
  | line :: rest =>
    match codeOf line with
    | [] => readLines (number + 1) rest
    | code =>
      match byte? code with
      | none => .error (.invalidByte number (String.ofList code))
      | some b => (readLines (number + 1) rest).map (b :: ·)

def ofChars (text : List Char) : Except ProgramTextError ProgramImage :=
  (readLines 1 (Text.lines text)).bind ofBytes

def parse (text : String) : Except ProgramTextError ProgramImage := ofChars text.toList

/-- Text is read from bytes that are UTF-8. -/
def read (bytes : List UInt8) : Except ProgramTextError ProgramImage :=
  match Utf8.decode? bytes with
  | some text => ofChars text
  | none => .error .notUtf8

def renderByte (b : UInt8) : List Char := Numerals.digits 2 8 b.toNat ++ ['\n']

def renderBytes (bytes : List UInt8) : List Char := bytes.flatMap renderByte

/-- Eight digits and a newline for each byte. -/
def render (p : ProgramImage) : String := String.ofList (renderBytes p.bytes)

theorem ofBytes_bytes (p : ProgramImage) : ofBytes p.bytes = .ok p := by
  simp [ofBytes, p.length_le]

theorem readLines_nil (number : Nat) : readLines number [] = .ok [] := rfl

theorem readLines_blank {line : List Char} (h : codeOf line = []) (number : Nat)
    (rest : List (List Char)) :
    readLines number (line :: rest) = readLines (number + 1) rest := by
  simp [readLines, h]

theorem readLines_byte {line : List Char} {b : UInt8} (h : byte? (codeOf line) = some b)
    (number : Nat) (rest : List (List Char)) :
    readLines number (line :: rest) = (readLines (number + 1) rest).map (b :: ·) := by
  cases hc : codeOf line with
  | nil => simp [hc, byte?] at h
  | cons c code => rw [hc] at h; simp [readLines, hc, h]

theorem readLines_bad {line : List Char} (nonempty : codeOf line ≠ [])
    (h : byte? (codeOf line) = none) (number : Nat) (rest : List (List Char)) :
    readLines number (line :: rest) =
      .error (.invalidByte number (String.ofList (codeOf line))) := by
  cases hc : codeOf line with
  | nil => exact absurd hc nonempty
  | cons c code => rw [hc] at h; simp [readLines, hc, h]

end ProgramImage
end EightBit
