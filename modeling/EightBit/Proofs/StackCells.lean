import EightBit.Machine

/-!
# Cells of the stack

The bytes from the stack pointer upwards, the newest one first. Addresses wrap, so up to 256 cells
are live at different addresses, and over the plain memory a push leaves all of them as they are.
-/
namespace EightBit

namespace Memory

variable {μ : Type} [Memory μ]

theorem length_readFrom (memory : μ) (start : UInt8) (count : Nat) :
    (readFrom memory start count).length = count := by
  simp [readFrom]

theorem readFrom_succ (memory : μ) (start : UInt8) (count : Nat) :
    readFrom memory start (count + 1) =
      read memory start :: readFrom memory (start + 1) count := by
  have shifted : ∀ i, start + UInt8.ofNat (i + 1) = start + 1 + UInt8.ofNat i := by
    intro i
    rw [UInt8.ofNat_add]
    grind
  rw [readFrom, List.range_succ_eq_map, List.map_cons, List.map_map]
  congr 1
  · simp
  · apply List.map_congr_left
    intro i _
    exact congrArg (read memory) (shifted i)

theorem readFrom_add (memory : μ) (start : UInt8) (first second : Nat) :
    readFrom memory start (first + second) =
      readFrom memory start first ++ readFrom memory (start + UInt8.ofNat first) second := by
  induction first generalizing start with
  | zero => simp [readFrom]
  | succ first ih =>
    have shifted : start + 1 + UInt8.ofNat first = start + UInt8.ofNat (first + 1) := by
      rw [UInt8.ofNat_add]
      grind
    rw [Nat.add_right_comm, readFrom_succ, ih, readFrom_succ, shifted, List.cons_append]

theorem getElem?_readFrom (memory : μ) (start : UInt8) {count i : Nat} (h : i < count) :
    (readFrom memory start count)[i]? = some (read memory (start + UInt8.ofNat i)) := by
  simp [readFrom, h]

theorem take_readFrom (memory : μ) (start : UInt8) {count n : Nat} (h : count ≤ n) :
    (readFrom memory start n).take count = readFrom memory start count := by
  rw [readFrom, ← List.map_take, List.take_range, Nat.min_eq_left h, readFrom]

end Memory

theorem PlainMemory.readFrom_write (ram : PlainMemory) {a start : UInt8} {count : Nat}
    (spared : ∀ i < count, a ≠ start + UInt8.ofNat i) (v : UInt8) :
    Memory.readFrom (Memory.write ram a v) start count = Memory.readFrom ram start count := by
  apply List.map_congr_left
  intro i hi
  have below : i < count := List.mem_range.1 hi
  rw [read_write, if_neg (spared i below)]

/-- The byte below an address is none of the next 255 above it. -/
theorem byte_below_ne (a : UInt8) {i : Nat} (h : i < 255) : a - 1 ≠ a + UInt8.ofNat i := by
  intro same
  have wrapped : UInt8.ofNat (i + 1) = 0 := by
    rw [UInt8.ofNat_add]
    grind
  have value := congrArg UInt8.toNat wrapped
  simp only [UInt8.toNat_ofNat', UInt8.toNat_zero] at value
  omega

namespace Machine

/-- The writes of pushes below a pointer. -/
def pushesBelow : UInt8 → List UInt8 → List (UInt8 × UInt8)
  | _, [] => []
  | top, v :: vs => (top - 1, v) :: pushesBelow (top - 1) vs

theorem map_fst_pushesBelow (top : UInt8) (vs : List UInt8) :
    (pushesBelow top vs).map Prod.fst =
      (List.range vs.length).map fun i => top - UInt8.ofNat (i + 1) := by
  induction vs generalizing top with
  | nil => rfl
  | cons v vs ih =>
    have lower : ∀ b : UInt8, top - 1 - b = top - (b + 1) := by
      intro b
      grind
    simp [pushesBelow, ih, List.range_succ_eq_map, lower, Function.comp_def]

section

variable {μ : Type} [Memory μ]

/-- The first `depth` bytes of the stack. -/
def stackCells (m : Machine μ) (depth : Nat) : List UInt8 :=
  Memory.readFrom m.memory (m.reg .stackPointer) depth

/-- Pushes in the order of the list. -/
def pushAll (m : Machine μ) (vs : List UInt8) : Machine μ := vs.foldl push m

theorem pushAll_cons (m : Machine μ) (v : UInt8) (vs : List UInt8) :
    m.pushAll (v :: vs) = (m.push v).pushAll vs := rfl

theorem pushAll_frame (m : Machine μ) (vs : List UInt8) :
    m.pushAll vs =
      { m with registers := (m.pushAll vs).registers, memory := (m.pushAll vs).memory } := by
  induction vs generalizing m with
  | nil => rfl
  | cons v vs ih => exact ih (m.push v)

theorem length_stackCells (m : Machine μ) (depth : Nat) : (m.stackCells depth).length = depth :=
  Memory.length_readFrom _ _ _

theorem stackCells_congr {m other : Machine μ} (memory : m.memory = other.memory)
    (pointer : m.reg .stackPointer = other.reg .stackPointer) (depth : Nat) :
    m.stackCells depth = other.stackCells depth := by
  rw [stackCells, stackCells, memory, pointer]

theorem stackCells_succ (m : Machine μ) (depth : Nat) :
    m.stackCells (depth + 1) = m.peek (m.reg .stackPointer) :: m.pop.2.stackCells depth := by
  have pointer : m.pop.2.reg .stackPointer = m.reg .stackPointer + 1 := by
    simp [pop, reg_setReg]
  rw [stackCells, Memory.readFrom_succ, stackCells, pointer]
  rfl

/-- The cells past the first `count` are the stack of a machine whose pointer is that much
higher. -/
theorem stackCells_add {m higher : Machine μ} {count : Nat} (memory : higher.memory = m.memory)
    (pointer : higher.reg .stackPointer = m.reg .stackPointer + UInt8.ofNat count) (depth : Nat) :
    m.stackCells (count + depth) = m.stackCells count ++ higher.stackCells depth := by
  rw [stackCells, Memory.readFrom_add, ← pointer, stackCells, stackCells, memory]

theorem getElem?_stackCells (m : Machine μ) {depth i : Nat} (h : i < depth) :
    (m.stackCells depth)[i]? = some (m.peek (m.reg .stackPointer + UInt8.ofNat i)) :=
  Memory.getElem?_readFrom _ _ h

theorem reg_pushAll (m : Machine μ) (vs : List UInt8) (r : Register) :
    (m.pushAll vs).reg r =
      if Register.stackPointer = r then m.reg .stackPointer - UInt8.ofNat vs.length
      else m.reg r := by
  induction vs generalizing m with
  | nil =>
    by_cases h : Register.stackPointer = r
    · simp [pushAll, ← h]
    · simp [pushAll, h]
  | cons v vs ih =>
    have lower : m.reg .stackPointer - 1 - UInt8.ofNat vs.length =
        m.reg .stackPointer - UInt8.ofNat (vs.length + 1) := by
      rw [UInt8.ofNat_add]
      grind
    rw [pushAll_cons, ih, reg_push, reg_push]
    by_cases h : Register.stackPointer = r
    · rw [if_pos h, if_pos h, if_pos rfl, lower, List.length_cons]
    · rw [if_neg h, if_neg h, if_neg h]

theorem memory_pushAll (m : Machine μ) (vs : List UInt8) :
    (m.pushAll vs).memory = Memory.writeAll m.memory (pushesBelow (m.reg .stackPointer) vs) := by
  induction vs generalizing m with
  | nil => rfl
  | cons v vs ih =>
    have pointer : (m.push v).reg .stackPointer = m.reg .stackPointer - 1 := by simp [reg_push]
    rw [pushAll_cons, ih, pointer, memory_push, pushesBelow, Memory.writeAll_cons]

end

/-- Pushes write just below the stack pointer and nowhere else. -/
theorem peek_pushAll (m : Machine PlainMemory) {vs : List UInt8} {a : UInt8}
    (spared : ∀ i < vs.length, a ≠ m.reg .stackPointer - UInt8.ofNat (i + 1)) :
    (m.pushAll vs).peek a = m.peek a := by
  have outside : a ∉ (pushesBelow (m.reg .stackPointer) vs).map Prod.fst := by
    rw [map_fst_pushesBelow, List.mem_map]
    rintro ⟨i, inside, same⟩
    exact spared i (List.mem_range.1 inside) same.symm
  rw [peek, memory_pushAll, PlainMemory.faithful.read_writeAll_of_not_mem _ outside, peek]

theorem stackCells_push (m : Machine PlainMemory) (v : UInt8) {depth : Nat} (room : depth < 256) :
    (m.push v).stackCells (depth + 1) = v :: m.stackCells depth := by
  have pointer : (m.push v).reg .stackPointer = m.reg .stackPointer - 1 := by
    simp [reg_push]
  have above : m.reg .stackPointer - 1 + 1 = m.reg .stackPointer := UInt8.sub_add_cancel _ _
  have spared : ∀ i < depth, m.reg .stackPointer - 1 ≠ m.reg .stackPointer + UInt8.ofNat i := by
    intro i hi
    exact byte_below_ne _ (by omega)
  rw [stackCells, Memory.readFrom_succ, pointer, above, memory_push, PlainMemory.read_write,
    if_pos rfl, PlainMemory.readFrom_write _ spared]
  rfl

theorem stackCells_pushAll (m : Machine PlainMemory) (vs : List UInt8) {depth : Nat}
    (room : depth + vs.length ≤ 256) :
    (m.pushAll vs).stackCells (depth + vs.length) = vs.reverse ++ m.stackCells depth := by
  induction vs generalizing m depth with
  | nil => rfl
  | cons v vs ih =>
    simp only [List.length_cons] at room
    have first : (m.push v).stackCells (depth + 1) = v :: m.stackCells depth :=
      m.stackCells_push v (by omega)
    have rest : ((m.push v).pushAll vs).stackCells (depth + 1 + vs.length) =
        vs.reverse ++ (m.push v).stackCells (depth + 1) := ih (m.push v) (by omega)
    have count : depth + (v :: vs).length = depth + 1 + vs.length := by
      simp only [List.length_cons]
      omega
    rw [count, pushAll_cons, rest, first, List.reverse_cons, List.append_assoc]
    rfl

end Machine
end EightBit
