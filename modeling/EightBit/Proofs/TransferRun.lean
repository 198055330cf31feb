import Mathlib.Data.List.Induction
import EightBit.Proofs.EventRun
import EightBit.Proofs.FetchedCode
import EightBit.Proofs.InterruptFrame

/-!
# Runs of pushes and pops

Pushes and pops that stand one after the other in memory are executed one after the other, as long
as no interrupt comes between them and none of them overwrites those that follow.
-/
namespace EightBit

/-- A push of a register or a pop into one. -/
inductive Transfer
  | save (r : Register)
  | restore (r : Register)
  deriving DecidableEq, Repr

def Transfer.instruction : Transfer → Instruction
  | save r => .unary .push r
  | restore r => .unary .pop r

namespace Machine

section

variable {μ : Type}

/-- Machines that differ at most in the program counter and in what instructions do not read. -/
structure SameStore (m other : Machine μ) : Prop where
  registers : m.registers = other.registers
  memory : m.memory = other.memory
  status : m.status = other.status
  enabled : m.interruptsEnabled = other.interruptsEnabled

theorem SameStore.refl (m : Machine μ) : m.SameStore m := ⟨rfl, rfl, rfl, rfl⟩

theorem SameStore.acceptable? {m other : Machine μ} (h : m.SameStore other) :
    m.acceptable? = other.acceptable? := by
  simp only [Machine.acceptable?, reg, h.registers, h.enabled]

end

variable {μ : Type} [Memory μ]

def transfer (m : Machine μ) : Transfer → Machine μ
  | .save r => m.saveReg r
  | .restore r => m.restoreReg r

def transferAll (m : Machine μ) (ts : List Transfer) : Machine μ := ts.foldl transfer m

theorem transferAll_append (m : Machine μ) (first second : List Transfer) :
    m.transferAll (first ++ second) = (m.transferAll first).transferAll second :=
  List.foldl_append

theorem transferAll_concat (m : Machine μ) (ts : List Transfer) (t : Transfer) :
    m.transferAll (ts ++ [t]) = (m.transferAll ts).transfer t := by
  simp [transferAll]

theorem transferAll_saves (m : Machine μ) (rs : List Register) :
    m.transferAll (rs.map .save) = rs.foldl saveReg m := List.foldl_map

theorem transferAll_restores (m : Machine μ) (rs : List Register) :
    m.transferAll (rs.map .restore) = rs.foldl restoreReg m := List.foldl_map

theorem SameStore.transfer {m other : Machine μ} (h : m.SameStore other) (t : Transfer) :
    (m.transfer t).SameStore (other.transfer t) := by
  obtain ⟨registers, pc, ir, enabled, overflow, cycles, memory, console, status⟩ := m
  obtain ⟨rfl, rfl, rfl, rfl⟩ := h
  cases t <;> exact ⟨rfl, rfl, rfl, rfl⟩

theorem step_of_transfer {m : Machine μ} {t : Transfer} (h : m.Executes t.instruction) :
    m.step.2 = (m.fetched.transfer t).skip .unary := by
  cases t with
  | save r => rw [step_of_executes h rfl]; rfl
  | restore r => rw [step_of_executes h rfl]; rfl

/-- Every transfer of the list finds its instruction in place and no interrupt to accept. -/
def Ready (m : Machine μ) (ts : List Transfer) : Prop :=
  ∀ part t, part ++ [t] <+: ts →
    (m.transferAll part).acceptable? = none ∧
      Memory.readFrom (m.transferAll part).memory (m.pc + UInt8.ofNat (2 * part.length)) 2 =
        t.instruction.encode

theorem status_transferAll (m : Machine μ) (ts : List Transfer) :
    (m.transferAll ts).status = m.status := by
  induction ts generalizing m with
  | nil => rfl
  | cons t ts ih => cases t <;> exact ih _

theorem after_transfers {m : Machine μ} {ts : List Transfer} (running : m.status = .running)
    (ready : m.Ready ts) :
    (m.after (List.replicate ts.length .step)).SameStore (m.transferAll ts) ∧
      (m.after (List.replicate ts.length .step)).pc = m.pc + UInt8.ofNat (2 * ts.length) := by
  induction ts using List.reverseRecOn with
  | nil => exact ⟨.refl m, (UInt8.add_zero m.pc).symm⟩
  | append_singleton ts t ih =>
    obtain ⟨same, place⟩ := ih fun part next inside =>
      ready part next (inside.trans (List.prefix_append ts [t]))
    obtain ⟨undisturbed, code⟩ := ready ts t (List.prefix_refl _)
    let now := m.after (List.replicate ts.length .step)
    have executes : now.Executes t.instruction := by
      apply executes_of_code
      · rw [same.status, status_transferAll, running]
      · rw [same.acceptable?, undisturbed]
      · have size : t.instruction.size = 2 := by cases t <;> rfl
        rw [size, same.memory, place, code]
    have steps : List.replicate (ts ++ [t]).length Event.step =
        List.replicate ts.length .step ++ [.step] := by
      rw [List.length_append, List.length_singleton, List.replicate_succ']
    have stepped : m.after (List.replicate (ts ++ [t]).length .step) =
        (now.fetched.transfer t).skip .unary := by
      rw [steps, after_concat, undergo, step_of_transfer executes]
    have fetched : now.fetched.SameStore (m.transferAll ts) :=
      ⟨same.registers, same.memory, same.status, same.enabled⟩
    obtain ⟨registers, memory, status, enabled⟩ := fetched.transfer t
    rw [stepped, transferAll_concat]
    refine ⟨⟨registers, memory, status, enabled⟩, ?_⟩
    have pc : (now.fetched.transfer t).pc = now.pc := by cases t <;> rfl
    have total : UInt8.ofNat (2 * ts.length) + 2 = UInt8.ofNat (2 * (ts ++ [t]).length) := by
      rw [List.length_append, List.length_singleton, Nat.mul_add, UInt8.ofNat_add]
      rfl
    change (now.fetched.transfer t).pc + 2 = _
    rw [pc, place, UInt8.add_assoc, total]

end Machine
end EightBit
