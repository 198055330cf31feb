import EightBit.Register

/-!
# Register file

One byte for each register. A write is seen by later reads of the same register and by no others.
-/
namespace EightBit

structure RegisterFile where
  values : Vector UInt8 8
  deriving DecidableEq, Repr

namespace RegisterFile

def read (f : RegisterFile) (r : Register) : UInt8 := f.values[r.index]

def write (f : RegisterFile) (r : Register) (v : UInt8) : RegisterFile :=
  ⟨f.values.set r.index v⟩

/-- The stack grows down from the byte below the interrupt vectors. -/
def stackTop : UInt8 := 0xf8

/-- The stack is empty and every other register is zero. -/
def initial : RegisterFile :=
  (⟨Vector.replicate 8 0⟩ : RegisterFile).write .stackPointer stackTop

def toList (f : RegisterFile) : List UInt8 := f.values.toList

theorem read_write (f : RegisterFile) (r s : Register) (v : UInt8) :
    (f.write r v).read s = if r = s then v else f.read s := by
  have same : r.number = s.number ↔ r = s := ⟨Register.number_injective, fun h => h ▸ rfl⟩
  simp [read, write, Register.index, Vector.getElem_set, same]

theorem read_write_self (f : RegisterFile) (r : Register) (v : UInt8) :
    (f.write r v).read r = v := by simp [read_write]

theorem read_write_of_ne (f : RegisterFile) {r s : Register} (h : r ≠ s) (v : UInt8) :
    (f.write r v).read s = f.read s := by simp [read_write, h]

/-- Register files that read alike are equal. -/
theorem ext_read {f g : RegisterFile} (h : ∀ r, f.read r = g.read r) : f = g := by
  obtain ⟨f⟩ := f
  obtain ⟨g⟩ := g
  congr 1
  apply Vector.ext
  intro i hi
  obtain ⟨r, rfl⟩ := Register.exists_number hi
  exact h r

theorem write_comm (f : RegisterFile) {r s : Register} (h : r ≠ s) (v w : UInt8) :
    (f.write r v).write s w = (f.write s w).write r v := by
  apply ext_read
  intro t
  simp only [read_write]
  by_cases first : r = t
  · rw [if_pos first, if_neg fun second => h (first.trans second.symm), if_pos first]
  · rw [if_neg first, if_neg first]

theorem write_write (f : RegisterFile) (r : Register) (v w : UInt8) :
    (f.write r v).write r w = f.write r w := by
  apply ext_read
  intro t
  simp only [read_write]
  by_cases here : r = t
  · rw [if_pos here, if_pos here]
  · rw [if_neg here, if_neg here, if_neg here]

end RegisterFile
end EightBit
