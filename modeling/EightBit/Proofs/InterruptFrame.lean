import EightBit.InterruptHandling
import EightBit.Proofs.StackCells

/-!
# Interrupt frames

Entering a handler pushes nine bytes and leaving it drops nine. What an entry pushes is known
beforehand, and what a return reloads is named by the places of the cells it comes from.
-/
namespace EightBit.Machine

section

variable {μ : Type}

/-- The bytes that an entry pushes, the newest one first. -/
def entryFrame (m : Machine μ) (line : Line) : List UInt8 :=
  [m.reg .r7 - 9, LineSet.erase (m.reg .r6) line, m.reg .r5, m.reg .r4, m.reg .r3, m.reg .r2,
    m.reg .r1, m.reg .r0, m.pc]

/-- The addresses of the nine cells that an entry pushes. -/
def frameAddresses (m : Machine μ) : List UInt8 :=
  (List.range 9).map fun i => m.reg .stackPointer - UInt8.ofNat (i + 1)

/-- A machine that has dropped the request on a line and takes no other one. -/
def acknowledged (m : Machine μ) (line : Line) : Machine μ :=
  { m.setReg .requests (LineSet.erase (m.reg .requests) line) with interruptsEnabled := false }

theorem reg_acknowledged (m : Machine μ) (line : Line) (r : Register) :
    (m.acknowledged line).reg r =
      if Register.requests = r then LineSet.erase (m.reg .requests) line else m.reg r :=
  reg_setReg m .requests r _

variable [Memory μ]

theorem foldl_saveReg (m : Machine μ) {rs : List Register} (h : .stackPointer ∉ rs) :
    rs.foldl saveReg m = m.pushAll (rs.map m.reg) := by
  induction rs generalizing m with
  | nil => rfl
  | cons r rs ih =>
    have first : r ≠ .stackPointer := fun same => h (same ▸ List.mem_cons_self)
    have others : .stackPointer ∉ rs := fun member => h (List.mem_cons_of_mem _ member)
    have kept : rs.map (m.push (m.reg r)).reg = rs.map m.reg := by
      apply List.map_congr_left
      intro s hs
      have other : Register.stackPointer ≠ s := fun same => others (same ▸ hs)
      rw [reg_push, if_neg other]
    rw [List.foldl_cons, saveReg_eq_push m first, ih _ others, kept, List.map_cons, pushAll_cons]

theorem saveRegisters_eq (m : Machine μ) :
    m.saveRegisters =
      m.pushAll ([.r0, .r1, .r2, .r3, .r4, .r5, .r6].map m.reg ++ [m.reg .r7 - 8]) := by
  have split : m.saveRegisters =
      ([.r0, .r1, .r2, .r3, .r4, .r5, .r6].foldl saveReg m).saveReg .stackPointer := rfl
  have pointer : m.reg .r7 - 7 - 1 = m.reg .r7 - 8 := by grind
  rw [split, foldl_saveReg m (by decide), saveReg_stackPointer, reg_pushAll, if_pos rfl]
  simp [pushAll, ← pointer]

theorem enterHandler_eq (m : Machine μ) (line : Line) :
    m.enterHandler line =
      ((m.acknowledged line).pushAll (m.entryFrame line).reverse).jump
        (((m.acknowledged line).pushAll (m.entryFrame line).reverse).peek (vector line)) := by
  have saved : ((m.acknowledged line).push m.pc).saveRegisters =
      (m.acknowledged line).pushAll (m.entryFrame line).reverse := by
    have pointer : m.reg .r7 - 1 - 8 = m.reg .r7 - 9 := by grind
    rw [saveRegisters_eq, ← pushAll_cons]
    simp [reg_push, reg_acknowledged, entryFrame, pointer]
  rw [← saved]
  rfl

theorem reg_enterHandler (m : Machine μ) (line : Line) (r : Register) :
    (m.enterHandler line).reg r =
      if Register.stackPointer = r then m.reg .stackPointer - 9
      else if Register.requests = r then LineSet.erase (m.reg .requests) line
      else m.reg r := by
  have pushed := (m.acknowledged line).reg_pushAll (m.entryFrame line).reverse r
  have pointer : (m.acknowledged line).reg .stackPointer = m.reg .stackPointer := by
    simp [reg_acknowledged]
  rw [pointer, reg_acknowledged] at pushed
  rw [enterHandler_eq]
  exact pushed

theorem enterHandler_frame (m : Machine μ) (line : Line) :
    m.enterHandler line =
      { m with
        registers := (m.enterHandler line).registers
        pc := (m.enterHandler line).pc
        interruptsEnabled := false
        memory := (m.enterHandler line).memory } := by
  rw [enterHandler_eq, pushAll_frame]
  rfl

theorem interruptsEnabled_enterHandler (m : Machine μ) (line : Line) :
    (m.enterHandler line).interruptsEnabled = false := by
  rw [enterHandler_eq, pushAll_frame]
  rfl

/-! Leaving a handler -/

theorem reg_restoreReg (m : Machine μ) {r : Register} (h : r ≠ .stackPointer) (s : Register) :
    (m.restoreReg r).reg s =
      if Register.stackPointer = s then m.reg .stackPointer + 1
      else if r = s then m.peek (m.reg .stackPointer) else m.reg s := by
  have popped : (m.restoreReg r).reg s =
      if r = s then m.peek (m.reg .stackPointer)
      else if Register.stackPointer = s then m.reg .stackPointer + 1 else m.reg s := by
    simp [restoreReg, pop, reg_setReg]
  by_cases pointer : Register.stackPointer = s
  · have other : r ≠ s := fun same => h (same.trans pointer.symm)
    rw [popped, if_neg other, if_pos pointer, if_pos pointer]
  · rw [popped, if_neg pointer, if_neg pointer]

theorem stackCells_restoreReg (m : Machine μ) {r : Register} (h : r ≠ .stackPointer)
    (depth : Nat) : (m.restoreReg r).stackCells depth = m.pop.2.stackCells depth := by
  apply stackCells_congr
  · rfl
  · rw [reg_restoreReg m h, if_pos rfl]
    simp [pop, reg_setReg]

theorem foldl_restoreReg_frame (m : Machine μ) (rs : List Register) :
    rs.foldl restoreReg m = { m with registers := (rs.foldl restoreReg m).registers } := by
  induction rs generalizing m with
  | nil => rfl
  | cons r rs ih => exact ih (m.restoreReg r)

theorem pointer_foldl_restoreReg (m : Machine μ) {rs : List Register}
    (h : .stackPointer ∉ rs) :
    (rs.foldl restoreReg m).reg .stackPointer =
      m.reg .stackPointer + UInt8.ofNat rs.length := by
  induction rs generalizing m with
  | nil => simp
  | cons r rs ih =>
    have first : r ≠ .stackPointer := fun same => h (same ▸ List.mem_cons_self)
    have others : .stackPointer ∉ rs := fun member => h (List.mem_cons_of_mem _ member)
    have higher : m.reg .stackPointer + 1 + UInt8.ofNat rs.length =
        m.reg .stackPointer + UInt8.ofNat (rs.length + 1) := by
      rw [UInt8.ofNat_add]
      grind
    rw [List.foldl_cons, ih _ others, reg_restoreReg m first, if_pos rfl, higher, List.length_cons]

theorem reg_foldl_restoreReg (m : Machine μ) {rs : List Register} (h : .stackPointer ∉ rs)
    {r : Register} (other : r ≠ .stackPointer) (untouched : r ∉ rs) :
    (rs.foldl restoreReg m).reg r = m.reg r := by
  induction rs generalizing m with
  | nil => rfl
  | cons s rs ih =>
    have first : s ≠ .stackPointer := fun same => h (same ▸ List.mem_cons_self)
    have others : .stackPointer ∉ rs := fun member => h (List.mem_cons_of_mem _ member)
    have differs : s ≠ r := fun same => untouched (same ▸ List.mem_cons_self)
    have rest : r ∉ rs := fun member => untouched (List.mem_cons_of_mem _ member)
    rw [List.foldl_cons, ih _ others rest, reg_restoreReg m first, if_neg other.symm,
      if_neg differs]

/-- Registers popped one after the other hold the cells of the stack in their order. -/
theorem stackCells_foldl_restoreReg (m : Machine μ) {rs : List Register}
    (h : .stackPointer ∉ rs) (distinct : rs.Nodup) :
    m.stackCells rs.length = rs.map (rs.foldl restoreReg m).reg := by
  induction rs generalizing m with
  | nil => rfl
  | cons r rs ih =>
    have first : r ≠ .stackPointer := fun same => h (same ▸ List.mem_cons_self)
    have others : .stackPointer ∉ rs := fun member => h (List.mem_cons_of_mem _ member)
    obtain ⟨fresh, rest⟩ := List.nodup_cons.1 distinct
    have top : (rs.foldl restoreReg (m.restoreReg r)).reg r = m.peek (m.reg .stackPointer) := by
      rw [reg_foldl_restoreReg _ others first fresh, reg_restoreReg m first, if_neg first.symm,
        if_pos rfl]
    rw [List.length_cons, stackCells_succ, ← stackCells_restoreReg m first, ih _ others rest,
      List.map_cons, List.foldl_cons, top]

/-- All registers of a frame are popped and the program counter is still on the stack. -/
def reloaded (m : Machine μ) : Machine μ := restored.foldl restoreReg m.pop.2

def resumed (m : Machine μ) : Machine μ :=
  { m.pop.2.jump m.pop.1 with interruptsEnabled := true }

theorem leaveHandler_eq (m : Machine μ) : m.leaveHandler = m.reloaded.resumed := rfl

theorem reg_resumed (m : Machine μ) (r : Register) :
    m.resumed.reg r =
      if Register.stackPointer = r then m.reg .stackPointer + 1 else m.reg r :=
  reg_setReg m .stackPointer r _

theorem resumed_frame {m original : Machine μ} {f : RegisterFile}
    (h : m = { original with registers := f }) :
    m.resumed =
      { original with
        registers := m.resumed.registers
        pc := m.resumed.pc
        interruptsEnabled := true } := by
  subst h
  rfl

theorem reloaded_frame (m : Machine μ) :
    m.reloaded = { m with registers := m.reloaded.registers } :=
  m.pop.2.foldl_restoreReg_frame restored

theorem pointer_reloaded (m : Machine μ) :
    m.reloaded.reg .stackPointer = m.reg .stackPointer + 8 := by
  have popped : m.pop.2.reg .stackPointer = m.reg .stackPointer + 1 := by
    simp [pop, reg_setReg]
  have total : m.reg .stackPointer + 1 + UInt8.ofNat restored.length = m.reg .stackPointer + 8 := by
    change m.reg .stackPointer + 1 + 7 = _
    grind
  rw [reloaded, pointer_foldl_restoreReg _ (by decide), popped, total]

theorem pointer_leaveHandler (m : Machine μ) :
    m.leaveHandler.reg .stackPointer = m.reg .stackPointer + 9 := by
  have total : m.reg .stackPointer + 8 + 1 = m.reg .stackPointer + 9 := by grind
  rw [leaveHandler_eq, reg_resumed, if_pos rfl, pointer_reloaded, total]

theorem leaveHandler_frame (m : Machine μ) :
    m.leaveHandler =
      { m with
        registers := m.leaveHandler.registers
        pc := m.leaveHandler.pc
        interruptsEnabled := true } :=
  resumed_frame m.reloaded_frame

theorem memory_leaveHandler (m : Machine μ) : m.leaveHandler.memory = m.memory := by
  rw [leaveHandler_frame]

/-- A return takes the registers and the program counter from the cells above the top one. -/
theorem stackCells_leaveHandler (m : Machine μ) :
    m.stackCells 9 =
      m.peek (m.reg .stackPointer) :: (restored.map m.leaveHandler.reg ++ [m.leaveHandler.pc]) := by
  have memory : m.reloaded.memory = m.pop.2.memory := by
    rw [reloaded_frame]
    rfl
  have split : m.pop.2.stackCells (restored.length + 1) =
      m.pop.2.stackCells restored.length ++ m.reloaded.stackCells 1 :=
    stackCells_add memory (pointer_foldl_restoreReg _ (by decide)) 1
  have regs : m.pop.2.stackCells restored.length = restored.map m.leaveHandler.reg := by
    rw [stackCells_foldl_restoreReg _ (by decide) (by decide)]
    apply List.map_congr_left
    intro r hr
    have absent : .stackPointer ∉ restored := by decide
    have other : Register.stackPointer ≠ r := fun same => absent (same ▸ hr)
    rw [leaveHandler_eq, reg_resumed, if_neg other, reloaded]
  have last : m.reloaded.stackCells 1 = [m.leaveHandler.pc] := m.reloaded.stackCells_succ 0
  have nine : 9 = restored.length + 1 + 1 := rfl
  rw [nine, stackCells_succ, split, regs, last]

end

/-! Over the plain memory -/

theorem stackCells_enterHandler (m : Machine PlainMemory) (line : Line) {depth : Nat}
    (room : depth + 9 ≤ 256) :
    (m.enterHandler line).stackCells (depth + 9) = m.entryFrame line ++ m.stackCells depth := by
  have pushed := (m.acknowledged line).stackCells_pushAll (m.entryFrame line).reverse room
  rw [List.reverse_reverse] at pushed
  have below : (m.acknowledged line).stackCells depth = m.stackCells depth := by
    apply stackCells_congr
    · rfl
    · simp [reg_acknowledged]
  rw [enterHandler_eq]
  rw [below] at pushed
  exact pushed

theorem frame_enterHandler (m : Machine PlainMemory) (line : Line) :
    (m.enterHandler line).stackCells 9 = m.entryFrame line := by
  have room : 0 + 9 ≤ 256 := by decide
  exact m.stackCells_enterHandler line room

theorem peek_enterHandler (m : Machine PlainMemory) (line : Line) {a : UInt8}
    (spared : a ∉ m.frameAddresses) : (m.enterHandler line).peek a = m.peek a := by
  have pushed : ((m.acknowledged line).pushAll (m.entryFrame line).reverse).peek a =
      (m.acknowledged line).peek a := by
    apply peek_pushAll
    intro i hi same
    have pointer : (m.acknowledged line).reg .stackPointer = m.reg .stackPointer := by
      simp [reg_acknowledged]
    rw [pointer] at same
    exact spared (List.mem_map.2 ⟨i, List.mem_range.2 hi, same.symm⟩)
  rw [enterHandler_eq]
  exact pushed

theorem pc_enterHandler (m : Machine PlainMemory) (line : Line)
    (spared : vector line ∉ m.frameAddresses) :
    (m.enterHandler line).pc = m.peek (vector line) := by
  rw [← peek_enterHandler m line spared, enterHandler_eq]
  rfl

/-- Leaving a handler on the frame of its entry restores everything but the request that the entry
has accepted. -/
theorem leaveHandler_of_frame {m : Machine PlainMemory} {interrupted : Machine PlainMemory}
    {line : Line} (pointer : m.reg .r7 = interrupted.reg .r7 - 9)
    (frame : m.stackCells 9 = interrupted.entryFrame line) :
    (∀ r, r ≠ .r6 → m.leaveHandler.reg r = interrupted.reg r) ∧
      (∀ other, LineSet.contains (m.leaveHandler.reg .r6) other =
        (LineSet.contains (interrupted.reg .r6) other && decide (other ≠ line))) ∧
      m.leaveHandler.pc = interrupted.pc := by
  have cells := m.stackCells_leaveHandler
  rw [frame] at cells
  have loaded : restored = [.r6, .r5, .r4, .r3, .r2, .r1, .r0] := by decide
  simp only [entryFrame, loaded, List.map_cons, List.map_nil, List.cons_append, List.nil_append,
    List.cons.injEq, and_true] at cells
  obtain ⟨-, h6, h5, h4, h3, h2, h1, h0, hpc⟩ := cells
  have h7 : m.leaveHandler.reg .r7 = interrupted.reg .r7 := by
    rw [pointer_leaveHandler, pointer]
    exact UInt8.sub_add_cancel _ _
  refine ⟨?_, ?_, hpc.symm⟩
  · intro r other
    cases r with
    | r0 => exact h0.symm
    | r1 => exact h1.symm
    | r2 => exact h2.symm
    | r3 => exact h3.symm
    | r4 => exact h4.symm
    | r5 => exact h5.symm
    | r6 => exact absurd rfl other
    | r7 => exact h7
  · intro other
    rw [← h6, LineSet.contains_erase]

end EightBit.Machine
