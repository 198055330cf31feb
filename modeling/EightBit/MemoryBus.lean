import EightBit.Memory

/-!
# Memories behind a bus

Two memories built over another one: a wired memory leaves out address lines and protects a range
from writes, a journal keeps a list of all writes that were attempted.
-/
namespace EightBit

/-- Addresses are masked before use, and a masked address from `romFrom` on is read only. -/
structure WiredMemory (μ : Type) where
  cells : μ
  mask : UInt8
  romFrom : Nat

namespace WiredMemory

variable {μ : Type} [Memory μ]

instance : Memory (WiredMemory μ) where
  read w a := Memory.read w.cells (a &&& w.mask)
  write w a v :=
    if (a &&& w.mask).toNat < w.romFrom then { w with cells := Memory.write w.cells (a &&& w.mask) v }
    else w

theorem write_of_protected (w : WiredMemory μ) {a : UInt8} (v : UInt8)
    (h : w.romFrom ≤ (a &&& w.mask).toNat) : Memory.write w a v = w := by
  exact if_neg (Nat.not_lt.2 h)

/-- A write is read back at all addresses that are wired to its own, unless these are protected. -/
theorem read_write (faithful : Memory.Faithful μ) (w : WiredMemory μ) (a b v : UInt8) :
    Memory.read (Memory.write w a v) b =
      if (a &&& w.mask).toNat < w.romFrom ∧ a &&& w.mask = b &&& w.mask then v
      else Memory.read w b := by
  by_cases open' : (a &&& w.mask).toNat < w.romFrom
  · have written : Memory.write w a v = { w with cells := Memory.write w.cells (a &&& w.mask) v } :=
      if_pos open'
    rw [written]
    simp only [open', true_and]
    exact faithful w.cells (a &&& w.mask) (b &&& w.mask) v
  · rw [write_of_protected w v (Nat.not_lt.1 open'), if_neg fun both => open' both.1]

end WiredMemory

/-- A memory with the attempted writes since the journal was last cleared. The newest one is kept
first, so noting a write takes the same time however long the journal is. -/
structure Journal (μ : Type) where
  cells : μ
  newestFirst : List (UInt8 × UInt8)

namespace Journal

variable {μ : Type} [Memory μ]

instance : Memory (Journal μ) where
  read j a := Memory.read j.cells a
  write j a v := ⟨Memory.write j.cells a v, (a, v) :: j.newestFirst⟩

def start (cells : μ) : Journal μ := ⟨cells, []⟩

def clear (j : Journal μ) : Journal μ := start j.cells

/-- The writes in the order in which they were attempted. -/
def writes (j : Journal μ) : List (UInt8 × UInt8) := j.newestFirst.reverse

theorem writes_write (j : Journal μ) (a v : UInt8) :
    (Memory.write j a v).writes = j.writes ++ [(a, v)] := by
  simp [writes, Memory.write]

theorem writeAll_writes (j : Journal μ) (ws : List (UInt8 × UInt8)) :
    (Memory.writeAll j ws).writes = j.writes ++ ws := by
  induction ws generalizing j with
  | nil => simp [Memory.writeAll_nil]
  | cons w ws ih => simp [Memory.writeAll_cons, ih, writes_write]

end Journal
end EightBit
