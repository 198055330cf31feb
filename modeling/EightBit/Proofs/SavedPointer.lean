import EightBit.HostSession
import EightBit.Proofs.SavedRegisters

/-!
# Saving the stack pointer

A pushed stack pointer has moved already, and a popped one is not moved any more. So with the
pointer among the saved registers there are machines on which it does not come back, however the
list looks otherwise.
-/
namespace EightBit.Machine

theorem eq_of_ofNat_eq {i j : Nat} (hi : i < 256) (hj : j < 256)
    (same : UInt8.ofNat i = UInt8.ofNat j) : i = j := by
  have value := congrArg UInt8.toNat same
  rwa [UInt8.toNat_ofNat', UInt8.toNat_ofNat', Nat.mod_eq_of_lt hi, Nat.mod_eq_of_lt hj] at value

/-- A machine whose pushed bytes lie right above its code, and whose other registers hold the
address where the code ends. -/
def abutting (rs : List Register) : Machine PlainMemory where
  registers := (⟨Vector.replicate 8 (UInt8.ofNat (4 * rs.length))⟩ : RegisterFile).write
    .stackPointer (UInt8.ofNat (5 * rs.length))
  pc := 0
  ir := 0
  interruptsEnabled := false
  overflow := false
  cycles := 0
  memory := .holding ((Transfer.roundTrip rs).flatMap (·.instruction.encode))
  console := .empty
  status := .running

theorem reg_abutting (rs : List Register) (r : Register) :
    (abutting rs).reg r =
      if Register.stackPointer = r then UInt8.ofNat (5 * rs.length)
      else UInt8.ofNat (4 * rs.length) := by
  rw [reg, abutting, RegisterFile.read_write]
  simp [RegisterFile.read]

theorem savesAndRestores_abutting {rs : List Register} (room : 5 * rs.length ≤ 256) :
    (abutting rs).SavesAndRestores rs where
  running := rfl
  undisturbed := rfl
  code := by
    have size : ((Transfer.roundTrip rs).flatMap (·.instruction.encode)).length =
        4 * rs.length := by
      rw [Transfer.length_flatMap_encode, Transfer.length_roundTrip]
      omega
    rw [← size]
    exact PlainMemory.readFrom_holding (by omega)
  spared := by
    intro i hi j hj same
    have above : UInt8.ofNat (5 * rs.length) =
        UInt8.ofNat (5 * rs.length - (j + 1)) + UInt8.ofNat (j + 1) := by
      rw [← UInt8.ofNat_add]
      congr 1
      omega
    have value : UInt8.ofNat i = UInt8.ofNat (5 * rs.length - (j + 1)) := by
      rw [reg_abutting, if_pos rfl, above, UInt8.add_sub_cancel] at same
      exact (UInt8.zero_add _).symm.trans same
    have place := eq_of_ofNat_eq (by omega) (by omega) value
    omega

/-- When all registers but the pointer hold the same byte, each pushed cell holds that byte or its
own address. -/
theorem peek_saves (m : Machine PlainMemory) {low : UInt8}
    (alike : ∀ r, r ≠ .stackPointer → m.reg r = low) {rs : List Register}
    (room : rs.length ≤ 256) {i : Nat} (inside : i < rs.length) {cell : UInt8}
    (place : (rs.foldl saveReg m).reg .stackPointer + UInt8.ofNat i = cell) :
    (rs.foldl saveReg m).peek cell = low ∨ (rs.foldl saveReg m).peek cell = cell := by
  induction rs using List.reverseRecOn generalizing i with
  | nil => exact absurd inside (Nat.not_lt_zero i)
  | append_singleton rs r ih =>
    rw [List.length_append, List.length_singleton] at room inside
    obtain ⟨v, pushed, known⟩ : ∃ v, (rs.foldl saveReg m).saveReg r = (rs.foldl saveReg m).push v ∧
        (v = low ∨ v = (rs.foldl saveReg m).reg .stackPointer - 1) := by
      by_cases pointer : r = .stackPointer
      · subst pointer
        exact ⟨_, saveReg_stackPointer _, .inr rfl⟩
      · refine ⟨_, saveReg_eq_push _ pointer, .inl ?_⟩
        obtain ⟨vs, -, frame⟩ := m.exists_pushAll_eq_saves rs
        rw [frame, reg_pushAll, if_neg (Ne.symm pointer), alike r pointer]
    have last : (rs ++ [r]).foldl saveReg m = (rs.foldl saveReg m).push v := by
      rw [List.foldl_append, List.foldl_cons, List.foldl_nil, pushed]
    rw [last, reg_push, if_pos rfl] at place
    rw [last, peek, memory_push, PlainMemory.read_write]
    cases i with
    | zero =>
      have lowest : (rs.foldl saveReg m).reg .stackPointer - 1 = cell :=
        (UInt8.add_zero _).symm.trans place
      rwa [if_pos lowest, ← lowest]
    | succ i =>
      have higher : (rs.foldl saveReg m).reg .stackPointer + UInt8.ofNat i = cell := by
        rw [UInt8.ofNat_add] at place
        grind
      rw [if_neg (higher ▸ byte_below_ne _ (by omega))]
      exact ih (by omega) (by omega) higher

/-- Popping moves the pointer past a cell or, into the pointer, back to where it points at or to
the lowest cell. -/
theorem exists_pointer_restores (m : Machine PlainMemory) {low : UInt8} {depth : Nat}
    (cells : ∀ i < depth, m.peek (low + UInt8.ofNat i) = low ∨
      m.peek (low + UInt8.ofNat i) = low + UInt8.ofNat i)
    {rs : List Register} {o : Nat} (pointer : m.reg .stackPointer = low + UInt8.ofNat o)
    (inside : o + rs.length ≤ depth) :
    ∃ last, last + rs.count .stackPointer ≤ o + rs.length ∧
      (rs.foldl restoreReg m).reg .stackPointer = low + UInt8.ofNat last := by
  induction rs generalizing m o with
  | nil => exact ⟨o, Nat.le_refl _, pointer⟩
  | cons r rs ih =>
    rw [List.length_cons] at inside
    by_cases listed : r = .stackPointer
    · subst listed
      have loaded : (m.restoreReg .stackPointer).reg .stackPointer =
          m.peek (low + UInt8.ofNat o) := by
        simp [restoreReg, pop, reg_setReg, pointer]
      obtain ⟨next, back, pointed⟩ : ∃ next, next ≤ o ∧
          (m.restoreReg .stackPointer).reg .stackPointer = low + UInt8.ofNat next := by
        rcases cells o (by omega) with lowest | itself
        · exact ⟨0, Nat.zero_le o, by rw [loaded, lowest]; exact (UInt8.add_zero low).symm⟩
        · exact ⟨o, Nat.le_refl o, by rw [loaded, itself]⟩
      obtain ⟨last, bound, ends⟩ := ih (m.restoreReg .stackPointer) cells pointed (by omega)
      refine ⟨last, ?_, ends⟩
      rw [List.count_cons_self, List.length_cons]
      omega
    · have moved : (m.restoreReg r).reg .stackPointer = low + UInt8.ofNat (o + 1) := by
        rw [reg_restoreReg m listed, if_pos rfl, pointer, UInt8.ofNat_add, UInt8.add_assoc]
        rfl
      obtain ⟨last, bound, ends⟩ := ih (m.restoreReg r) cells moved (by omega)
      refine ⟨last, ?_, ends⟩
      rw [List.count_cons_of_ne listed, List.length_cons]
      omega

theorem exists_pointer_roundTrip (m : Machine PlainMemory) {low : UInt8} {rs : List Register}
    (alike : ∀ r, r ≠ .stackPointer → m.reg r = low) (room : rs.length ≤ 256)
    (pointer : m.reg .stackPointer = low + UInt8.ofNat rs.length) :
    ∃ last, last + rs.count .stackPointer ≤ rs.length ∧
      (m.transferAll (Transfer.roundTrip rs)).reg .stackPointer = low + UInt8.ofNat last := by
  have lowest : (rs.foldl saveReg m).reg .stackPointer = low := by
    obtain ⟨vs, length, frame⟩ := m.exists_pushAll_eq_saves rs
    rw [frame, reg_pushAll, if_pos rfl, pointer, length, UInt8.add_sub_cancel]
  have bottom : (rs.foldl saveReg m).reg .stackPointer = low + UInt8.ofNat 0 :=
    lowest.trans (UInt8.add_zero low).symm
  have cells : ∀ i < rs.length, (rs.foldl saveReg m).peek (low + UInt8.ofNat i) = low ∨
      (rs.foldl saveReg m).peek (low + UInt8.ofNat i) = low + UInt8.ofNat i :=
    fun i hi => m.peek_saves alike room hi (congrArg (· + UInt8.ofNat i) lowest)
  have inside : 0 + rs.reverse.length ≤ rs.length := by simp
  obtain ⟨last, bound, ends⟩ := exists_pointer_restores _ cells bottom inside
  refine ⟨last, ?_, ?_⟩
  · rwa [List.count_reverse, List.length_reverse, Nat.zero_add] at bound
  · rw [Transfer.roundTrip, transferAll_append, transferAll_saves, transferAll_restores, ends]

theorem pointer_of_abutting {rs : List Register} (room : 5 * rs.length ≤ 256)
    (listed : .stackPointer ∈ rs) :
    ((abutting rs).after (List.replicate (2 * rs.length) .step)).reg .stackPointer ≠
      (abutting rs).reg .stackPointer := by
  have undisturbed : ∀ part, part <+: Transfer.roundTrip rs →
      ((abutting rs).transferAll part).acceptable? = none := by
    intro part _
    rw [acceptable?_eq_none_iff, interruptsEnabled_transferAll]
    exact .inl rfl
  obtain ⟨same, -⟩ := after_transfers rfl ((savesAndRestores_abutting room).ready undisturbed)
  rw [Transfer.length_roundTrip] at same
  have alike : ∀ r, r ≠ .stackPointer → (abutting rs).reg r = UInt8.ofNat (4 * rs.length) := by
    intro r other
    rw [reg_abutting, if_neg other.symm]
  have top : (abutting rs).reg .stackPointer =
      UInt8.ofNat (4 * rs.length) + UInt8.ofNat rs.length := by
    rw [reg_abutting, if_pos rfl, ← UInt8.ofNat_add]
    congr 1
    omega
  obtain ⟨last, bound, ends⟩ := (abutting rs).exists_pointer_roundTrip alike (by omega) top
  -- Each pop into the pointer falls one cell behind, and none makes up for it.
  have lower : last < rs.length := by
    have := List.count_pos_iff.2 listed
    omega
  rw [reg, same.registers]
  change ((abutting rs).transferAll (Transfer.roundTrip rs)).reg .stackPointer ≠ _
  rw [ends, top]
  intro equal
  have whole := eq_of_ofNat_eq (by omega) (by omega) ((UInt8.add_right_inj _).1 equal)
  omega

/-- Pushing registers and popping them again is the identity exactly for the lists without the
pointer, of those that fit into the memory. -/
theorem restores_all_iff_pointer_unlisted (rs : List Register) :
    (.stackPointer ∉ rs → ∀ m : Machine PlainMemory, m.SavesAndRestores rs →
      let last := m.after (List.replicate (2 * rs.length) .step)
      (∀ r, last.reg r = m.reg r) ∧ last.pc = m.pc + UInt8.ofNat (4 * rs.length)) ∧
    (.stackPointer ∈ rs → 5 * rs.length ≤ 256 → ∃ m : Machine PlainMemory,
      m.SavesAndRestores rs ∧
        (m.after (List.replicate (2 * rs.length) .step)).reg .stackPointer ≠
          m.reg .stackPointer) := by
  constructor
  · intro unlisted m saves
    exact saves.restored unlisted
  · intro listed room
    exact ⟨abutting rs, savesAndRestores_abutting room, pointer_of_abutting room listed⟩

/-- Requests and a register listed twice, over code that runs past the last address. -/
def saving : Machine PlainMemory :=
  ((Session.start .zero : Session PlainMemory Silence).performAll
    [.load [0x0a, 0x03, 0x0a, 0x06] 0xfc, .load [0x0a, 0x03, 0x0b, 0x03, 0x0b, 0x06, 0x0b, 0x03] 0,
      .setPc 0xfc, .setReg .r3 0x2a, .setReg .r6 0x81, .setReg .r7 0x40]).2.machine

theorem repeated_register_comes_back :
    (∀ r, (saving.after (List.replicate 6 .step)).reg r = saving.reg r) ∧
      (saving.after (List.replicate 6 .step)).pc = 0x08 ∧
      ∃ m : Machine PlainMemory, m.SavesAndRestores [.r7] ∧
        (m.after (List.replicate 2 .step)).reg .r7 ≠ m.reg .r7 := by
  obtain ⟨regs, pc⟩ :=
    (restores_all_iff_pointer_unlisted [.r3, .r6, .r3]).1 (by decide) saving (by decide)
  exact ⟨regs, pc, (restores_all_iff_pointer_unlisted [.r7]).2 (by decide) (by decide)⟩

/-- A pushed pointer has moved already, and popped it stays there. -/
theorem pointer_not_restored :
    ¬ ∀ (rs : List Register) (m : Machine PlainMemory), rs ≠ [] → m.SavesAndRestores rs →
      let last := m.after (List.replicate (2 * rs.length) .step)
      (∀ r, last.reg r = m.reg r) ∧ last.pc = m.pc + UInt8.ofNat (4 * rs.length) := by
  intro restored
  let m := ((Session.start .zero : Session PlainMemory Silence).performAll
    [.load [0x0a, 0x07, 0x0b, 0x07] 0]).2.machine
  have back : (m.after (List.replicate 2 .step)).reg .r7 = m.reg .r7 :=
    (restored [.r7] m (by decide) (by decide)).1 .r7
  exact absurd back (by decide)

end EightBit.Machine
