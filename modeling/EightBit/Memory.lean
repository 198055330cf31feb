/-!
# Memory

A memory answers reads and accepts writes at byte addresses; it is free to ignore a write or to
answer what it likes. The plain memory of 256 bytes answers what was last written.
-/
namespace EightBit

class Memory (μ : Type) where
  read : μ → UInt8 → UInt8
  write : μ → UInt8 → UInt8 → μ

namespace Memory

variable {μ : Type} [Memory μ]

def size : Nat := 256

/-- Bytes from an address on; addresses wrap past the last one. -/
def readFrom (memory : μ) (start : UInt8) (count : Nat) : List UInt8 :=
  (List.range count).map fun i => read memory (start + UInt8.ofNat i)

def contents (memory : μ) : List UInt8 := readFrom memory 0 size

/-- Writes of values at addresses, in the order of the list. -/
def writeAll (memory : μ) (writes : List (UInt8 × UInt8)) : μ :=
  writes.foldl (fun m w => write m w.1 w.2) memory

/-- Consecutive addresses for the bytes of a block. -/
def placed (start : UInt8) (bytes : List UInt8) : List (UInt8 × UInt8) :=
  bytes.zipIdx.map fun (b, i) => (start + UInt8.ofNat i, b)

/-- All addresses from `start` to the last one. -/
def addressesFrom (start : UInt8) : List UInt8 :=
  (List.range' start.toNat (size - start.toNat)).map UInt8.ofNat

theorem length_placed (start : UInt8) (bytes : List UInt8) :
    (placed start bytes).length = bytes.length := by
  rw [placed, List.length_map, List.length_zipIdx]

theorem mem_placed_iff {start a v : UInt8} {bytes : List UInt8} :
    (a, v) ∈ placed start bytes ↔ ∃ i, bytes[i]? = some v ∧ start + UInt8.ofNat i = a := by
  simp only [placed, List.mem_map, Prod.exists, List.mk_mem_zipIdx_iff_getElem?, Prod.mk.injEq]
  constructor
  · rintro ⟨b, i, here, address, rfl⟩
    exact ⟨i, here, address⟩
  · rintro ⟨i, here, address⟩
    exact ⟨v, i, here, address, rfl⟩

/-- The addresses suffice for a block that fits, so none of its bytes is left out. -/
theorem zip_addressesFrom {start : UInt8} {bytes : List UInt8}
    (fits : start.toNat + bytes.length ≤ size) :
    (addressesFrom start).zip bytes = placed start bytes := by
  have count : (addressesFrom start).length = size - start.toNat := by
    rw [addressesFrom, List.length_map, List.length_range']
  apply List.ext_getElem
  · rw [List.length_zip, count, length_placed]
    omega
  · intro i inside _
    have address : UInt8.ofNat (start.toNat + i) = start + UInt8.ofNat i := by
      rw [UInt8.ofNat_add, UInt8.ofNat_toNat]
    simp only [List.getElem_zip, addressesFrom, placed, List.getElem_map, List.getElem_range',
      List.getElem_zipIdx, Nat.one_mul, Nat.zero_add, address]

theorem writeAll_nil (memory : μ) : writeAll memory [] = memory := rfl

theorem writeAll_cons (memory : μ) (w : UInt8 × UInt8) (ws : List (UInt8 × UInt8)) :
    writeAll memory (w :: ws) = writeAll (write memory w.1 w.2) ws := rfl

/-- Every address answers what was last written to it. -/
def Faithful (μ : Type) [Memory μ] : Prop :=
  ∀ (memory : μ) (a b v : UInt8), read (write memory a v) b = if a = b then v else read memory b

theorem Faithful.read_writeAll_of_not_mem (faithful : Faithful μ) (memory : μ)
    {writes : List (UInt8 × UInt8)} {a : UInt8} (h : a ∉ writes.map Prod.fst) :
    read (writeAll memory writes) a = read memory a := by
  induction writes generalizing memory with
  | nil => rfl
  | cons w ws ih =>
    simp only [List.map_cons, List.mem_cons, not_or] at h
    rw [writeAll_cons, ih _ h.2, faithful, if_neg (Ne.symm h.1)]

/-- Writes to different addresses are all read back, in whatever order they were made. -/
theorem Faithful.read_writeAll_of_mem (faithful : Faithful μ) (memory : μ)
    {writes : List (UInt8 × UInt8)} (distinct : (writes.map Prod.fst).Nodup)
    {a v : UInt8} (h : (a, v) ∈ writes) : read (writeAll memory writes) a = v := by
  induction writes generalizing memory with
  | nil => cases h
  | cons w ws ih =>
    obtain ⟨fresh, others⟩ := List.nodup_cons.1 distinct
    rcases List.mem_cons.1 h with rfl | later
    · rw [writeAll_cons, faithful.read_writeAll_of_not_mem _ fresh, faithful, if_pos rfl]
    · exact ih _ others later

end Memory

structure PlainMemory where
  bytes : Vector UInt8 256
  deriving DecidableEq, Repr

namespace PlainMemory

def zero : PlainMemory := ⟨Vector.replicate 256 0⟩

instance : Memory PlainMemory where
  read ram a := ram.bytes[a.toFin]
  write ram a v := ⟨ram.bytes.set a.toFin v⟩

theorem read_zero (a : UInt8) : Memory.read zero a = 0 := by
  simp [Memory.read, zero]

theorem read_write (ram : PlainMemory) (a b v : UInt8) :
    Memory.read (Memory.write ram a v) b = if a = b then v else Memory.read ram b := by
  simp [Memory.read, Memory.write, Vector.getElem_set, UInt8.toNat_inj]

theorem faithful : Memory.Faithful PlainMemory := read_write

/-- Memories that read alike are equal. -/
theorem ext_read {ram other : PlainMemory} (h : ∀ a, Memory.read ram a = Memory.read other a) :
    ram = other := by
  obtain ⟨bytes⟩ := ram
  obtain ⟨others⟩ := other
  congr 1
  apply Vector.ext
  intro i hi
  have here := h (UInt8.ofNat i)
  simpa [Memory.read, Nat.mod_eq_of_lt hi] using here

end PlainMemory
end EightBit
