import EightBit.Proofs.PrintedText
import Mathlib.Data.List.Forall2

/-!
# Output taken along the way

A host takes what was printed whenever it likes between its other actions, as bytes or as text.
Between two actions the console holds the encoding of a text, since a step prints whole characters.
So nothing that is taken ends within a character, and what was taken and what is left are together
the pieces that the cycles of the session have printed, in order.
-/
namespace EightBit

/-- What one taking hands over. -/
inductive Taken
  | bytes (bs : List UInt8)
  | text (cs : List Char)
  deriving DecidableEq, Repr

/-- A turn of a host that reads its output in both ways. -/
inductive Turn (τ : Type)
  | act (action : Action τ)
  | takeText
  deriving DecidableEq, Repr

namespace Taken

def toBytes : Taken → List UInt8
  | bytes bs => bs
  | text cs => Utf8.encode cs

/-- Well-formed bytes of the text, or the text itself. -/
def Tells : Taken → List Char → Prop
  | bytes bs, told => bs = Utf8.encode told ∧ Utf8.decode? bs = some told
  | text cs, told => cs = told

theorem tells_bytes (told : List Char) : (bytes (Utf8.encode told)).Tells told :=
  ⟨rfl, Utf8.decode?_encode told⟩

/-- Nothing is replaced in the text of whole characters. -/
theorem tells_text (told : List Char) : (text (Utf8.decodeLossy (Utf8.encode told))).Tells told :=
  Utf8.decodeLossy_encode told

theorem toBytes_of_tells {t : Taken} {told : List Char} (h : t.Tells told) :
    t.toBytes = Utf8.encode told := by
  cases t with
  | bytes bs => exact h.1
  | text cs => exact congrArg Utf8.encode h

theorem flatMap_toBytes {taken : List Taken} {texts : List (List Char)}
    (h : List.Forall₂ Tells taken texts) :
    taken.flatMap toBytes = Utf8.encode texts.flatten := by
  induction h with
  | nil => rfl
  | cons tells _ ih =>
    rw [List.flatMap_cons, List.flatten_cons, Utf8.encode_append, toBytes_of_tells tells, ih]

end Taken

def Reply.taken? : Reply → Option Taken
  | .output bytes => some (.bytes bytes)
  | _ => none

/-- Only the two printing instructions print. Entries, traps and stopped machines are silent. -/
theorem Machine.nextText_eq {μ : Type} [Memory μ] (m : Machine μ) :
    (∀ a, m.Executes (.unary .prn a) →
      m.nextText = Nat.toDigits 10 (m.reg a).toNat ++ ['\n']) ∧
    (∀ a, m.Executes (.unary .pra a) → m.nextText = [Char.ofNat (m.reg a).toNat, '\n']) ∧
    ((∀ a, ¬ m.Executes (.unary .prn a) ∧ ¬ m.Executes (.unary .pra a)) → m.nextText = []) := by
  refine ⟨fun a h => nextText_of_executes h, fun a h => nextText_of_executes h, ?_⟩
  intro silent
  by_cases busy : ∃ i, m.Executes i
  · obtain ⟨i, h⟩ := busy
    rw [nextText_of_executes h]
    cases i with
    | unary op a =>
      cases op with
      | prn => exact absurd h (silent a).1
      | pra => exact absurd h (silent a).2
      | _ => rfl
    | _ => rfl
  · exact nextText_of_not_executes (not_exists.1 busy)

namespace Session

section

variable {μ τ : Type} [Memory μ]

theorem taken?_load (s : Session μ τ) (image : List UInt8) (start : UInt8) {fits : Reply}
    (none : fits.taken? = .none) : (s.load image start fits).1.taken? = .none := by
  unfold load
  split
  · exact none
  · rfl

end

variable {μ τ : Type} [Memory μ] [TickSource τ]

/-- The machines that the steps among these actions find. -/
def found (s : Session μ τ) : List (Action τ) → List (Machine μ)
  | [] => []
  | .step :: rest => s.machine :: (s.perform .step).2.found rest
  | action :: rest => (s.perform action).2.found rest

/-- The machines that the cycles of an action find. A run that is not over when its fuel is spent
is not counted, and leaves the session as it was. -/
def cycled (s : Session μ τ) (action : Action τ) : List (Machine μ) :=
  if (s.perform action).1 = .nothing then [] else s.found (s.moves action)

def turn (s : Session μ τ) : Turn τ → Option Taken × Session μ τ
  | .act action =>
    let (reply, after) := s.perform action
    (reply.taken?, after)
  | .takeText =>
    let (text, console) := s.machine.console.takeText
    (some (.text text), s.withMachine { s.machine with console := console })

/-- What a host has taken in its turns, and the session that they leave. -/
def play (s : Session μ τ) : List (Turn τ) → List Taken × Session μ τ
  | [] => ([], s)
  | t :: rest =>
    let (taken, after) := s.turn t
    let (later, last) := after.play rest
    (taken.toList ++ later, last)

def cycledIn (s : Session μ τ) : Turn τ → List (Machine μ)
  | .act action => s.cycled action
  | .takeText => []

/-- The machines that the cycles of a session find, from the first one to the last. -/
def history (s : Session μ τ) : List (Turn τ) → List (Machine μ)
  | [] => []
  | t :: rest => s.cycledIn t ++ (s.turn t).2.history rest

theorem play_cons (s : Session μ τ) (t : Turn τ) (rest : List (Turn τ)) :
    s.play (t :: rest) =
      ((s.turn t).1.toList ++ ((s.turn t).2.play rest).1, ((s.turn t).2.play rest).2) := rfl

theorem taken?_perform (s : Session μ τ) {action : Action τ} (other : action ≠ .takeOutput) :
    (s.perform action).1.taken? = none := by
  cases action with
  | load image start => exact s.taken?_load image start rfl
  | loadText text start =>
    simp only [perform]
    split
    · exact s.taken?_load _ start rfl
    · rfl
  | run fuel =>
    simp only [perform]
    split <;> rfl
  | runPaced fuel =>
    simp only [perform]
    split <;> rfl
  | takeOutput => exact absurd rfl other
  | _ => rfl

theorem perform_of_nothing {s : Session μ τ} {action : Action τ}
    (nothing : (s.perform action).1 = .nothing) : (s.perform action).2 = s := by
  cases action with
  | load image start =>
    simp only [perform, load] at nothing
    split at nothing <;> cases nothing
  | loadText text start =>
    simp only [perform, load] at nothing
    split at nothing
    · split at nothing <;> cases nothing
    · cases nothing
  | run fuel =>
    simp only [perform] at nothing ⊢
    split at nothing
    · cases nothing
    · rfl
  | runPaced fuel =>
    simp only [perform] at nothing ⊢
    split at nothing
    · cases nothing
    · rfl
  | _ => cases nothing

theorem found_cons (s : Session μ τ) (action : Action τ) (rest : List (Action τ)) :
    s.found (action :: rest) = s.found [action] ++ (s.perform action).2.found rest := by
  cases action <;> rfl

/-- Only a step prints. -/
theorem console_perform_single (s : Session μ τ) {action : Action τ}
    (single : action.isRun = false) (other : action ≠ .takeOutput) :
    (s.perform action).2.machine.console =
      s.machine.console.write (Utf8.encode ((s.found [action]).flatMap Machine.nextText)) := by
  cases action with
  | load image start =>
    rw [perform, machine_load_frame]
    rfl
  | loadText text start =>
    simp only [perform]
    split
    · rw [machine_load_frame]
      rfl
    · rfl
  | step =>
    rw [found, found, List.flatMap_cons, List.flatMap_nil, List.append_nil]
    exact s.machine.console_step
  | raise number =>
    change (s.machine.raise number).console = _
    rw [Machine.raise_frame]
    rfl
  | runAtMost n => cases single
  | run fuel => cases single
  | runPaced fuel => cases single
  | takeOutput => exact absurd rfl other
  | _ => rfl

theorem console_found (s : Session μ τ) {actions : List (Action τ)}
    (single : ∀ action ∈ actions, action.isRun = false) (kept : .takeOutput ∉ actions) :
    (s.machineAfter actions).console =
      s.machine.console.write (Utf8.encode ((s.found actions).flatMap Machine.nextText)) := by
  induction actions generalizing s with
  | nil => exact (Console.write_nil _).symm
  | cons action rest ih =>
    have first := s.console_perform_single (single action List.mem_cons_self)
      fun taking => kept (taking ▸ List.mem_cons_self)
    have others := ih (s.perform action).2
      (fun later member => single later (List.mem_cons_of_mem _ member))
      fun member => kept (List.mem_cons_of_mem _ member)
    rw [first, Console.write_encode_write, ← List.flatMap_append, ← found_cons] at others
    exact others

theorem console_perform (s : Session μ τ) {action : Action τ} (other : action ≠ .takeOutput) :
    (s.perform action).2.machine.console =
      s.machine.console.write (Utf8.encode ((s.cycled action).flatMap Machine.nextText)) := by
  unfold cycled
  by_cases broken : (s.perform action).1 = .nothing
  · rw [if_pos broken, perform_of_nothing broken]
    exact (Console.write_nil _).symm
  · rw [if_neg broken, ← machineAfter_moves broken]
    -- A run unrolls into steps and requests, and neither of them takes output.
    apply console_found
    · intro move member
      rcases mem_moves member with ⟨rfl, single⟩ | ⟨e, rfl⟩
      · exact single
      · cases e <;> rfl
    · intro member
      rcases mem_moves member with ⟨taking, -⟩ | ⟨e, taking⟩
      · exact other taking.symm
      · cases e <;> cases taking

/-- A turn hands over all that is held, or its cycles add whole characters to it. -/
theorem turn_of_held {s : Session μ τ} {held : List Char}
    (h : s.machine.console.pending = Utf8.encode held) (t : Turn τ) :
    ∃ texts left, texts.flatten ++ left = held ++ (s.cycledIn t).flatMap Machine.nextText ∧
      List.Forall₂ Taken.Tells (s.turn t).1.toList texts ∧
      (s.turn t).2.machine.console.pending = Utf8.encode left := by
  cases t with
  | act action =>
    by_cases taking : action = .takeOutput
    · subst taking
      refine ⟨[held], [], by simp [cycledIn, cycled, moves, found], .cons ?_ .nil, rfl⟩
      rw [h]
      exact Taken.tells_bytes held
    · refine ⟨[], held ++ (s.cycled action).flatMap Machine.nextText, rfl, ?_, ?_⟩
      · change List.Forall₂ Taken.Tells (s.perform action).1.taken?.toList []
        rw [s.taken?_perform taking]
        exact .nil
      · change (s.perform action).2.machine.console.pending = _
        rw [s.console_perform taking, Console.pending_write, h, Utf8.encode_append]
  | takeText =>
    refine ⟨[held], [], by simp [cycledIn], .cons ?_ .nil, rfl⟩
    rw [h]
    exact Taken.tells_text held

/-- What was held first and then printed is handed over in order, up to what is held at the end. -/
theorem play_of_held {s : Session μ τ} {held : List Char}
    (h : s.machine.console.pending = Utf8.encode held) (turns : List (Turn τ)) :
    ∃ texts left, texts.flatten ++ left = held ++ (s.history turns).flatMap Machine.nextText ∧
      List.Forall₂ Taken.Tells (s.play turns).1 texts ∧
      (s.play turns).2.machine.console.pending = Utf8.encode left := by
  induction turns generalizing s held with
  | nil => exact ⟨[], held, by simp [history], .nil, h⟩
  | cons t rest ih =>
    obtain ⟨texts, between, told, tells, pending⟩ := turn_of_held h t
    obtain ⟨later, left, told', tells', pending'⟩ := ih pending
    rw [play_cons]
    refine ⟨texts ++ later, left, ?_, List.rel_append tells tells', pending'⟩
    calc (texts ++ later).flatten ++ left
        = texts.flatten ++ (later.flatten ++ left) := by simp
      _ = (texts.flatten ++ between) ++
            ((s.turn t).2.history rest).flatMap Machine.nextText := by simp [told']
      _ = held ++ (s.history (t :: rest)).flatMap Machine.nextText := by
            simp [told, history]

/-- Output is complete, in order and always whole characters. -/
theorem output_is_history {s : Session μ τ} (fresh : s.machine.console = .empty)
    (turns : List (Turn τ)) :
    let steps := s.history turns
    let taken := (s.play turns).1
    let pending := (s.play turns).2.machine.console.pending
    taken.flatMap Taken.toBytes ++ pending = Utf8.encode (steps.flatMap Machine.nextText) ∧
    (∃ texts left, texts.flatten ++ left = steps.flatMap Machine.nextText ∧
      List.Forall₂ Taken.Tells taken texts ∧ pending = Utf8.encode left) ∧
    ∀ m ∈ steps,
      (∀ a, m.Executes (.unary .prn a) →
        m.nextText = Nat.toDigits 10 (m.reg a).toNat ++ ['\n']) ∧
      (∀ a, m.Executes (.unary .pra a) → m.nextText = [Char.ofNat (m.reg a).toNat, '\n']) ∧
      ((∀ a, ¬ m.Executes (.unary .prn a) ∧ ¬ m.Executes (.unary .pra a)) →
        m.nextText = []) := by
  intro steps taken pending
  have nothing : s.machine.console.pending = Utf8.encode [] := by
    rw [fresh]
    rfl
  obtain ⟨texts, left, told, tells, rest⟩ := play_of_held nothing turns
  rw [List.nil_append] at told
  refine ⟨?_, ⟨texts, left, told, tells, rest⟩, fun m _ => m.nextText_eq⟩
  calc taken.flatMap Taken.toBytes ++ pending
      = Utf8.encode texts.flatten ++ Utf8.encode left := by
        rw [Taken.flatMap_toBytes tells, ← rest]
    _ = Utf8.encode (steps.flatMap Machine.nextText) := by
        rw [← Utf8.encode_append, told]

/-- A letter of two bytes is printed twice, then the number of its code point. -/
def accents : List Instruction :=
  [.immediate .ldi .r0 0xe9, .unary .pra .r0, .unary .pra .r0, .unary .prn .r0, .nullary .hlt]

/-- Text is taken after the first letter and bytes after the second, and a step follows the halt. -/
def accentTurns : List (Turn Silence) :=
  [.act (.load (accents.flatMap Instruction.encode) 0), .act .step, .act .step, .takeText,
    .act .step, .act .takeOutput, .act (.run 9), .act .step]

theorem accents_taken_in_order :
    let s : Session PlainMemory Silence := .start PlainMemory.zero
    s.machine.console = .empty ∧
      (s.play accentTurns).1 = [.text ['é', '\n'], .bytes [0xc3, 0xa9, 0x0a]] ∧
      Utf8.encode ((s.history accentTurns).flatMap Machine.nextText) =
        [0xc3, 0xa9, 0x0a, 0xc3, 0xa9, 0x0a, 0x32, 0x33, 0x33, 0x0a] ∧
      ∃ texts left, texts.flatten ++ left = ['é', '\n', 'é', '\n', '2', '3', '3', '\n'] ∧
        List.Forall₂ Taken.Tells (s.play accentTurns).1 texts := by
  intro s
  have fresh : s.machine.console = .empty := rfl
  obtain ⟨whole, ⟨texts, left, told, tells, -⟩, -⟩ := output_is_history fresh accentTurns
  have taken : (s.play accentTurns).1 = [.text ['é', '\n'], .bytes [0xc3, 0xa9, 0x0a]] := by
    decide +kernel
  have pending : (s.play accentTurns).2.machine.console.pending = [0x32, 0x33, 0x33, 0x0a] := by
    decide +kernel
  refine ⟨fresh, taken, ?_, texts, left, ?_, tells⟩
  · rw [← whole, taken, pending]
    decide
  · rw [told]
    decide +kernel

end Session
end EightBit
