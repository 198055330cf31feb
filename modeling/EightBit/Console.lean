import EightBit.Utf8Text

/-!
# Console

The bytes printed by a machine, kept until they are taken. Taking hands over all of them and leaves
the console empty, so what was taken and what is left together are all that was written.
-/
namespace EightBit

/-- The newest byte is kept first: a write takes time for its own bytes only and shares the older
ones with every earlier state of the console. -/
structure Console where
  newestFirst : List UInt8
  deriving DecidableEq, Repr

namespace Console

def empty : Console := ⟨[]⟩

/-- The bytes not taken yet, oldest first. -/
def pending (c : Console) : List UInt8 := c.newestFirst.reverse

def write (c : Console) (bytes : List UInt8) : Console := ⟨bytes.reverse ++ c.newestFirst⟩

def isEmpty (c : Console) : Bool := c.newestFirst.isEmpty

def take (c : Console) : List UInt8 × Console := (c.pending, empty)

/-- The pending bytes as text, with ill-formed pieces replaced. -/
def takeText (c : Console) : List Char × Console := (Utf8.decodeLossy c.pending, empty)

def writeLine (c : Console) (text : List Char) : Console := c.write (Utf8.encode (text ++ ['\n']))

theorem pending_empty : empty.pending = [] := rfl

theorem pending_write (c : Console) (bytes : List UInt8) :
    (c.write bytes).pending = c.pending ++ bytes := by
  simp [pending, write]

theorem write_write (c : Console) (first second : List UInt8) :
    (c.write first).write second = c.write (first ++ second) := by
  simp [write]

/-- A console is determined by what is pending. -/
theorem ext_pending {c d : Console} (h : c.pending = d.pending) : c = d := by
  obtain ⟨cs⟩ := c
  obtain ⟨ds⟩ := d
  exact congrArg mk (List.reverse_inj.1 h)

end Console
end EightBit
