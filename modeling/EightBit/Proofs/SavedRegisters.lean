import EightBit.Proofs.TransferRun

/-!
# Saving registers on the stack

Registers other than the stack pointer that are pushed and then popped in the reverse order get
their values back, also those that are pushed several times. The code is found unchanged throughout,
since the pushes write nowhere but below the pointer.
-/
namespace EightBit

/-- A memory of the bytes of a list, and zero after them. -/
def PlainMemory.holding (bytes : List UInt8) : PlainMemory :=
  ⟨Vector.ofFn fun i => bytes[i.val]?.getD 0⟩

theorem PlainMemory.readFrom_holding {bytes : List UInt8} (small : bytes.length ≤ 256) :
    Memory.readFrom (holding bytes) 0 bytes.length = bytes := by
  apply List.ext_getElem?
  intro i
  by_cases inside : i < bytes.length
  · have place : i % 256 = i := Nat.mod_eq_of_lt (by omega)
    rw [Memory.getElem?_readFrom _ _ inside]
    simp [Memory.read, holding, place, inside]
  · rw [List.getElem?_eq_none (by simpa [Memory.length_readFrom] using inside),
      List.getElem?_eq_none (by simpa using inside)]

/-- Pushes in the order of the list and pops in the reverse order. -/
def Transfer.roundTrip (rs : List Register) : List Transfer :=
  rs.map .save ++ rs.reverse.map .restore

theorem Transfer.length_roundTrip (rs : List Register) :
    (roundTrip rs).length = 2 * rs.length := by
  simp [roundTrip, Nat.two_mul]

theorem Transfer.length_flatMap_encode (ts : List Transfer) :
    (ts.flatMap (·.instruction.encode)).length = 2 * ts.length := by
  induction ts with
  | nil => rfl
  | cons t ts ih =>
    have two : t.instruction.encode.length = 2 := by cases t <;> rfl
    rw [List.flatMap_cons, List.length_append, two, ih, List.length_cons]
    omega

namespace Machine

/-- The machine is about to push the registers and to pop them again, and the bytes that it pushes
are none of its code. -/
structure SavesAndRestores (m : Machine PlainMemory) (rs : List Register) : Prop where
  running : m.status = .running
  undisturbed : m.acceptable? = none
  code : Memory.readFrom m.memory m.pc (4 * rs.length) =
    (Transfer.roundTrip rs).flatMap (·.instruction.encode)
  spared : ∀ i < 4 * rs.length, ∀ j < rs.length,
    m.pc + UInt8.ofNat i ≠ m.reg .stackPointer - UInt8.ofNat (j + 1)

instance (m : Machine PlainMemory) (rs : List Register) : Decidable (m.SavesAndRestores rs) :=
  decidable_of_iff
    (m.status = .running ∧ m.acceptable? = none ∧
      Memory.readFrom m.memory m.pc (4 * rs.length) =
        (Transfer.roundTrip rs).flatMap (·.instruction.encode) ∧
      ∀ i < 4 * rs.length, ∀ j < rs.length,
        m.pc + UInt8.ofNat i ≠ m.reg .stackPointer - UInt8.ofNat (j + 1))
    ⟨fun ⟨running, undisturbed, code, spared⟩ => ⟨running, undisturbed, code, spared⟩,
      fun h => ⟨h.running, h.undisturbed, h.code, h.spared⟩⟩

/-- Code and stack together have room in the memory. -/
theorem SavesAndRestores.room {m : Machine PlainMemory} {rs : List Register}
    (h : m.SavesAndRestores rs) : 5 * rs.length ≤ 256 := by
  by_contra large
  -- Among 256 distances in a row is the one from the code to the stack.
  obtain ⟨n, low, high, distance⟩ : ∃ n, 1 ≤ n ∧ n ≤ 256 ∧
      m.pc + UInt8.ofNat n = m.reg .stackPointer := by
    by_cases same : m.reg .stackPointer = m.pc
    · exact ⟨256, by decide, Nat.le_refl _, same ▸ UInt8.add_zero _⟩
    · refine ⟨(m.reg .stackPointer - m.pc).toNat, ?_, Nat.le_of_lt (UInt8.toNat_lt _), ?_⟩
      · rw [Nat.one_le_iff_ne_zero]
        intro zero
        have none : m.reg .stackPointer - m.pc = 0 := UInt8.toNat.inj zero
        exact same (by grind)
      · rw [UInt8.ofNat_toNat]
        grind
  obtain ⟨i, j, inCode, pushed, rfl⟩ : ∃ i j, i < 4 * rs.length ∧ j < rs.length ∧
      n = i + (j + 1) := by
    by_cases near : n ≤ rs.length
    · exact ⟨0, n - 1, by omega, by omega, by omega⟩
    · exact ⟨n - rs.length, rs.length - 1, by omega, by omega, by omega⟩
  apply h.spared i inCode j pushed
  rw [← distance, UInt8.ofNat_add]
  grind

section

variable {μ : Type} [Memory μ]

theorem exists_pushAll_eq_saves (m : Machine μ) (rs : List Register) :
    ∃ vs, vs.length = rs.length ∧ rs.foldl saveReg m = m.pushAll vs := by
  induction rs generalizing m with
  | nil => exact ⟨[], rfl, rfl⟩
  | cons r rs ih =>
    obtain ⟨v, first⟩ : ∃ v, m.saveReg r = m.push v := by
      by_cases pointer : r = .stackPointer
      · exact ⟨_, pointer ▸ m.saveReg_stackPointer⟩
      · exact ⟨_, m.saveReg_eq_push pointer⟩
    obtain ⟨vs, length, rest⟩ := ih (m.push v)
    refine ⟨v :: vs, by simp [length], ?_⟩
    rw [List.foldl_cons, first, rest, pushAll_cons]

/-- Popping into registers what they already hold changes none but the pointer. -/
theorem reg_restores_of_held (m : Machine μ) {rs : List Register} (unlisted : .stackPointer ∉ rs)
    {f : Register → UInt8} (cells : m.stackCells rs.length = rs.map f)
    (held : ∀ r, r ≠ .stackPointer → m.reg r = f r) :
    ∀ r, r ≠ .stackPointer → (rs.foldl restoreReg m).reg r = f r := by
  induction rs generalizing m with
  | nil => exact held
  | cons s rs ih =>
    have first : s ≠ .stackPointer := fun same => unlisted (same ▸ List.mem_cons_self)
    have others : .stackPointer ∉ rs := fun member => unlisted (List.mem_cons_of_mem _ member)
    rw [List.length_cons, stackCells_succ, ← stackCells_restoreReg m first, List.map_cons,
      List.cons.injEq] at cells
    obtain ⟨top, below⟩ := cells
    apply ih _ others below
    intro r other
    rw [reg_restoreReg m first, if_neg other.symm]
    by_cases same : s = r
    · rw [if_pos same, top, same]
    · rw [if_neg same, held r other]

theorem transferAll_of_prefix (m : Machine μ) {rs : List Register} {part : List Transfer}
    (inside : part <+: Transfer.roundTrip rs) :
    m.transferAll part =
      (rs.reverse.take (part.length - rs.length)).foldl restoreReg
        ((rs.take part.length).foldl saveReg m) := by
  have split : part = (rs.take part.length).map .save ++
      (rs.reverse.take (part.length - rs.length)).map .restore := by
    rw [List.map_take, List.map_take, ← List.length_map (f := Transfer.save), ← List.take_append]
    exact List.prefix_iff_eq_take.1 inside
  rw [split, transferAll_append, transferAll_saves, transferAll_restores, ← split]

theorem interruptsEnabled_transferAll (m : Machine μ) (ts : List Transfer) :
    (m.transferAll ts).interruptsEnabled = m.interruptsEnabled := by
  induction ts generalizing m with
  | nil => rfl
  | cons t ts ih => cases t <;> exact ih _

end

/-- The pushes and pops write below the stack pointer only. -/
theorem peek_transferAll_of_prefix (m : Machine PlainMemory) {rs : List Register}
    {part : List Transfer} (inside : part <+: Transfer.roundTrip rs) {a : UInt8}
    (spared : ∀ j < rs.length, a ≠ m.reg .stackPointer - UInt8.ofNat (j + 1)) :
    (m.transferAll part).peek a = m.peek a := by
  obtain ⟨vs, length, pushed⟩ := m.exists_pushAll_eq_saves (rs.take part.length)
  have fewer : vs.length ≤ rs.length := by
    rw [length, List.length_take]
    exact Nat.min_le_right _ _
  rw [m.transferAll_of_prefix inside, foldl_restoreReg_frame, pushed]
  exact m.peek_pushAll fun j hj => spared j (Nat.lt_of_lt_of_le hj fewer)

theorem SavesAndRestores.ready {m : Machine PlainMemory} {rs : List Register}
    (h : m.SavesAndRestores rs)
    (undisturbed : ∀ part, part <+: Transfer.roundTrip rs →
      (m.transferAll part).acceptable? = none) :
    m.Ready (Transfer.roundTrip rs) := by
  intro part t inside
  have before : part <+: Transfer.roundTrip rs := (List.prefix_append part [t]).trans inside
  have kept : Memory.readFrom (m.transferAll part).memory m.pc (4 * rs.length) =
      (Transfer.roundTrip rs).flatMap (·.instruction.encode) := by
    rw [← h.code]
    apply List.map_congr_left
    intro i hi
    exact m.peek_transferAll_of_prefix before (h.spared i (List.mem_range.1 hi))
  refine ⟨undisturbed part before, ?_⟩
  obtain ⟨rest, whole⟩ := inside
  have bytes : (Transfer.roundTrip rs).flatMap (·.instruction.encode) =
      part.flatMap (·.instruction.encode) ++
        (t.instruction.encode ++ rest.flatMap (·.instruction.encode)) := by
    simp [← whole]
  have size : 4 * rs.length = ((Transfer.roundTrip rs).flatMap (·.instruction.encode)).length := by
    rw [Transfer.length_flatMap_encode, Transfer.length_roundTrip]
    omega
  rw [size, bytes] at kept
  obtain ⟨-, fromHere⟩ := Memory.readFrom_of_append kept
  obtain ⟨here, -⟩ := Memory.readFrom_of_append fromHere
  have two : t.instruction.encode.length = 2 := by cases t <;> rfl
  rwa [Transfer.length_flatMap_encode, two] at here

theorem stackCells_saves (m : Machine PlainMemory) {rs : List Register}
    (unlisted : .stackPointer ∉ rs) (room : rs.length ≤ 256) :
    (rs.foldl saveReg m).stackCells rs.length = rs.reverse.map m.reg := by
  have pushed : (m.pushAll (rs.map m.reg)).stackCells (0 + (rs.map m.reg).length) =
      (rs.map m.reg).reverse ++ m.stackCells 0 := m.stackCells_pushAll _ (by simpa using room)
  have empty : m.stackCells 0 = [] := rfl
  rw [Nat.zero_add, List.length_map, empty, List.append_nil, ← List.map_reverse] at pushed
  rw [m.foldl_saveReg unlisted, pushed]

theorem reg_transferAll_of_prefix (m : Machine PlainMemory) {rs : List Register}
    (unlisted : .stackPointer ∉ rs) (room : rs.length ≤ 256) {part : List Transfer}
    (inside : part <+: Transfer.roundTrip rs) {r : Register} (other : r ≠ .stackPointer) :
    (m.transferAll part).reg r = m.reg r := by
  have held : ∀ s, s ≠ .stackPointer →
      ((rs.take part.length).foldl saveReg m).reg s = m.reg s := by
    intro s hs
    have unlistedTake : .stackPointer ∉ rs.take part.length :=
      fun member => unlisted (List.mem_of_mem_take member)
    rw [m.foldl_saveReg unlistedTake, reg_pushAll, if_neg hs.symm]
  -- Pops come only after all pushes, so they find what was pushed in the reverse order.
  have cells : ((rs.take part.length).foldl saveReg m).stackCells
      (rs.reverse.take (part.length - rs.length)).length =
        (rs.reverse.take (part.length - rs.length)).map m.reg := by
    by_cases saving : part.length ≤ rs.length
    · rw [Nat.sub_eq_zero_of_le saving]
      rfl
    · have whole : rs.take part.length = rs := List.take_of_length_le (by omega)
      have fewer : (rs.reverse.take (part.length - rs.length)).length ≤ rs.length := by
        rw [List.length_take, List.length_reverse]
        exact Nat.min_le_right _ _
      have top : ((rs.foldl saveReg m).stackCells rs.length).take
          (rs.reverse.take (part.length - rs.length)).length =
            (rs.foldl saveReg m).stackCells (rs.reverse.take (part.length - rs.length)).length :=
        Memory.take_readFrom _ _ fewer
      rw [whole, ← top, m.stackCells_saves unlisted room]
      simp
  have unlistedBack : .stackPointer ∉ rs.reverse.take (part.length - rs.length) :=
    fun member => unlisted (List.mem_reverse.1 (List.mem_of_mem_take member))
  rw [m.transferAll_of_prefix inside]
  exact reg_restores_of_held _ unlistedBack cells held r other

theorem SavesAndRestores.restored {m : Machine PlainMemory} {rs : List Register}
    (h : m.SavesAndRestores rs) (unlisted : .stackPointer ∉ rs) :
    (∀ r, (m.after (List.replicate (2 * rs.length) .step)).reg r = m.reg r) ∧
      (m.after (List.replicate (2 * rs.length) .step)).pc = m.pc + UInt8.ofNat (4 * rs.length) := by
  have room : rs.length ≤ 256 := by
    have := h.room
    omega
  have ready : m.Ready (Transfer.roundTrip rs) := by
    apply h.ready
    intro part inside
    rw [acceptable?, interruptsEnabled_transferAll,
      m.reg_transferAll_of_prefix unlisted room inside (by decide),
      m.reg_transferAll_of_prefix unlisted room inside (by decide)]
    exact h.undisturbed
  obtain ⟨same, pc⟩ := after_transfers h.running ready
  rw [Transfer.length_roundTrip] at same pc
  refine ⟨?_, ?_⟩
  · intro r
    rw [reg, same.registers]
    change (m.transferAll (Transfer.roundTrip rs)).reg r = _
    by_cases pointer : r = .stackPointer
    · subst pointer
      have unlistedBack : .stackPointer ∉ rs.reverse := by simpa using unlisted
      rw [Transfer.roundTrip, transferAll_append, transferAll_saves, transferAll_restores,
        pointer_foldl_restoreReg _ unlistedBack, m.foldl_saveReg unlisted, reg_pushAll,
        if_pos rfl, List.length_map, List.length_reverse, UInt8.sub_add_cancel]
    · exact m.reg_transferAll_of_prefix unlisted room (List.prefix_refl _) pointer
  · rw [pc, ← Nat.mul_assoc]

end Machine
end EightBit
