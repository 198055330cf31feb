import EightBit.InstructionExecution
import EightBit.Proofs.InterruptFrame

/-!
# Registers that an instruction does not name

Apart from the stack pointer, the effect of an instruction neither depends on a register that it
does not name nor changes it. A return names none and reloads them all, so it forgets what they
held.
-/
namespace EightBit.Machine

section

variable {μ : Type}

theorem reg_setReg_of_ne (m : Machine μ) {r s : Register} (h : r ≠ s) (v : UInt8) :
    (m.setReg r v).reg s = m.reg s := by
  rw [reg_setReg, if_neg h]

theorem setReg_comm (m : Machine μ) {r s : Register} (h : r ≠ s) (v w : UInt8) :
    (m.setReg r v).setReg s w = (m.setReg s w).setReg r v := by
  simp only [setReg, RegisterFile.write_comm _ h]

theorem setReg_setReg (m : Machine μ) (r : Register) (v w : UInt8) :
    (m.setReg r v).setReg r w = m.setReg r w := by
  simp only [setReg, RegisterFile.write_write]

theorem growStack_setReg (m : Machine μ) {r : Register} (general : r ≠ .stackPointer)
    (v : UInt8) : (m.setReg r v).growStack = m.growStack.setReg r v := by
  rw [growStack, reg_setReg_of_ne m general, setReg_comm m general]
  rfl

end

variable {μ : Type} [Memory μ] {r : Register} (general : r ≠ .stackPointer) (v : UInt8)
include general

theorem push_setReg (m : Machine μ) (b : UInt8) :
    (m.setReg r v).push b = (m.push b).setReg r v := by
  rw [push, growStack_setReg m general, reg_setReg_of_ne _ general]
  rfl

theorem saveReg_setReg (m : Machine μ) {s : Register} (unnamed : r ≠ s) :
    (m.setReg r v).saveReg s = (m.saveReg s).setReg r v := by
  rw [saveReg, growStack_setReg m general, reg_setReg_of_ne _ general, reg_setReg_of_ne _ unnamed]
  rfl

theorem pop_setReg (m : Machine μ) :
    (m.setReg r v).pop = (m.pop.1, m.pop.2.setReg r v) := by
  rw [pop, reg_setReg_of_ne m general, setReg_comm m general]
  rfl

theorem restoreReg_setReg (m : Machine μ) {s : Register} (unnamed : r ≠ s) :
    (m.setReg r v).restoreReg s = (m.restoreReg s).setReg r v := by
  rw [restoreReg, pop_setReg general]
  exact setReg_comm m.pop.2 unnamed v m.pop.1

theorem restoreReg_setReg_self (m : Machine μ) :
    (m.setReg r v).restoreReg r = m.restoreReg r := by
  rw [restoreReg, pop_setReg general]
  exact setReg_setReg m.pop.2 r v m.pop.1

theorem foldl_restoreReg_setReg (m : Machine μ) {rs : List Register} (member : r ∈ rs) :
    rs.foldl restoreReg (m.setReg r v) = rs.foldl restoreReg m := by
  induction rs generalizing m with
  | nil => cases member
  | cons s rs ih =>
    rw [List.foldl_cons, List.foldl_cons]
    by_cases here : r = s
    · subst here
      rw [restoreReg_setReg_self general]
    · have later : r ∈ rs := (List.mem_cons.1 member).resolve_left here
      rw [restoreReg_setReg general v m here]
      exact ih _ later

theorem leaveHandler_setReg (m : Machine μ) : (m.setReg r v).leaveHandler = m.leaveHandler := by
  have member : r ∈ restored := by simp [restored, Register.mem_all, general]
  rw [leaveHandler_eq, leaveHandler_eq, reloaded, pop_setReg general,
    foldl_restoreReg_setReg general v _ member, ← reloaded]

theorem execute_setReg (m : Machine μ) {i : Instruction} (stays : i ≠ .nullary .iret)
    (unnamed : r ∉ i.registers) :
    (m.setReg r v).execute i = (m.execute i).map (·.setReg r v) := by
  cases i with
  | nullary op =>
    cases op with
    | ret =>
      simp only [execute, executeNullary, pop_setReg general]
      rfl
    | iret => exact absurd rfl stays
    | hlt => rfl
  | unary op a =>
    have other : r ≠ a := fun same => unnamed (same ▸ List.mem_singleton_self _)
    cases op with
    | prn =>
      simp only [execute, executeUnary, reg_setReg_of_ne m other]
      rfl
    | pra =>
      simp only [execute, executeUnary, reg_setReg_of_ne m other]
      rfl
    | push =>
      simp only [execute, executeUnary, saveReg_setReg general v m other]
      rfl
    | pop =>
      simp only [execute, executeUnary, restoreReg_setReg general v m other]
      rfl
    | call =>
      simp only [execute, executeUnary, push_setReg general, reg_setReg_of_ne _ other]
      rfl
    | jmp =>
      simp only [execute, executeUnary, reg_setReg_of_ne m other]
      rfl
  | binary op a b =>
    have first : r ≠ a := fun same => unnamed (same ▸ List.mem_cons_self)
    have second : r ≠ b := fun same =>
      unnamed (same ▸ List.mem_cons_of_mem _ (List.mem_singleton_self _))
    cases op with
    | mul =>
      simp only [execute, executeBinary_mul, reg_setReg_of_ne m first, reg_setReg_of_ne m second,
        setReg_comm m first]
      rfl
    | st =>
      simp only [execute, executeBinary, reg_setReg_of_ne m first, reg_setReg_of_ne m second]
      rfl
    | add =>
      simp only [execute, executeBinary_add, reg_setReg_of_ne m first, reg_setReg_of_ne m second,
        setReg_comm m first]
      rfl
  | immediate op a value =>
    have other : r ≠ a := fun same => unnamed (same ▸ List.mem_singleton_self _)
    cases op
    simp only [execute, executeImmediate, setReg_comm m other]
    rfl

end EightBit.Machine
