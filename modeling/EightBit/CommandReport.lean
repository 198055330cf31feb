import EightBit.ListingElision
import EightBit.MachineLoading
import EightBit.ProgramText
import EightBit.RunOptions

/-!
# Command reports

What the commands that run and list a program write and how they exit, as a function of their
options and of the file's bytes.
-/
namespace EightBit

structure Report where
  exitCode : UInt8
  stdout : String
  stderr : String
  deriving DecidableEq, Repr

/-- What keeps a command from finishing. -/
inductive Failure
  | missingFile
  | badProgram (e : ProgramTextError)
  | tooLarge (e : ImageTooLarge)
  | trapped (trap : Trap)
  deriving DecidableEq, Repr

def Failure.message : Failure → String
  | missingFile => "No such file or directory (os error 2)"
  | badProgram e => e.message
  | tooLarge e => e.message
  | trapped trap => trap.message

/-- The program in a file, given the file's bytes if there is one. -/
def ProgramImage.readFile (file : Option (List UInt8)) : Except Failure ProgramImage :=
  match file with
  | none => .error .missingFile
  | some bytes => (ProgramImage.read bytes).mapError .badProgram

namespace Report

def runName : String := "emu_cli"

def listName : String := "disassembler"

def failure (command : String) (stdout : String) (f : Failure) : Report :=
  ⟨1, stdout, command ++ ": " ++ f.message ++ "\n"⟩

def loaded (file : Option (List UInt8)) : Except Failure (Machine PlainMemory) :=
  match ProgramImage.readFile file with
  | .error f => .error f
  | .ok program => ((Machine.initial PlainMemory.zero).load program.bytes 0).mapError .tooLarge

def printed (m : Machine PlainMemory) : String := String.ofList m.console.takeText.1

def ofEnd (m : Machine PlainMemory) : RunEnd → Report
  | .halted => ⟨0, printed m, ""⟩
  | .stopped => stop "Stopped"
  | .cycleLimit => stop "CycleLimit"
  | .trapped trap => failure runName (printed m) (.trapped trap)
where
  stop (reason : String) : Report :=
    ⟨0, printed m,
      runName ++ ": stopped (" ++ reason ++ ") after " ++ Nat.repr m.cycles ++ " cycles\n"⟩

/-- Running a program; nothing when a run without a limit does not end within the fuel. -/
def ofRun? (fuel : Nat) (options : RunOptions) (file : Option (List UInt8)) : Option Report :=
  match loaded file with
  | .error f => some (failure runName "" f)
  | .ok m => (options.pacing.run? fuel m).map fun (e, _, after) => ofEnd after e

/-- A command that a failed check of a bound ends before it has written anything. The message, which
tells a place in the program, is left out. -/
def aborted : Report := ⟨101, "", ""⟩

/-- Listing a program; the path is named in errors. -/
def ofListing (path : String) (file : Option (List UInt8)) : Report :=
  match ProgramImage.readFile file with
  | .error f => failure (listName ++ ": " ++ path) "" f
  | .ok program =>
    match (Listing.ofImage? program.bytes).bind Listing.shortLines? with
    | some lines => ⟨0, String.join (lines.map (· ++ "\n")), ""⟩
    | none => aborted

end Report
end EightBit
