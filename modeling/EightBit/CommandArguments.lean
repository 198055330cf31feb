import EightBit.Numerals
import EightBit.RunOptions

/-!
# Command arguments

The arguments of the command that runs a program: a file, or a dash for standard input, and
options. An option that takes a number has it after an equals sign or as the next argument, and no
option is given twice.
-/
namespace EightBit

namespace RunOptions

/-- A number below 2^64 in decimal digits, possibly after a plus sign. -/
def number? (text : String) : Option Nat :=
  let digits := match text.toList with
    | '+' :: digits => digits
    | digits => digits
  (Numerals.decimal? digits).filter (· ≤ largest)

inductive Flag
  | cycleMicros | timerMillis | limit | noTimer
  deriving DecidableEq, Repr

/-- The arguments read so far, with the flag that the next one is the value of. After two dashes
every argument is a file. -/
structure Given where
  cycleMicros : Option Nat
  timerMillis : Option Nat
  limit : Option Nat
  noTimer : Bool
  file : Option String
  awaiting : Option Flag
  filesOnly : Bool
  deriving DecidableEq, Repr

def Flag.takesValue (flag : Flag) : Bool := flag ≠ .noTimer

def Flag.ofName? : String → Option Flag
  | "--cycle-us" => some .cycleMicros
  | "--timer-ms" => some .timerMillis
  | "--max-cycles" => some .limit
  | "--no-timer" => some .noTimer
  | _ => none

/-- A flag with the text after its equals sign, if it has one. -/
def splitFlag (argument : String) : String × Option String :=
  let (name, rest) := argument.toList.span (· != '=')
  (String.ofList name, if rest.isEmpty then none else some (String.ofList rest.tail))

/-- A flag that has been given already is refused, as is one without the value it needs. The timer
needs at least a millisecond. -/
def Given.set (g : Given) : Flag → Option String → Option Given
  | .noTimer, none => if g.noTimer then none else some { g with noTimer := true }
  | .cycleMicros, some text =>
    if g.cycleMicros.isSome then none
    else (number? text).map fun n => { g with cycleMicros := some n }
  | .timerMillis, some text =>
    if g.timerMillis.isSome then none
    else ((number? text).filter (1 ≤ ·)).map fun n => { g with timerMillis := some n }
  | .limit, some text =>
    if g.limit.isSome then none
    else (number? text).map fun n => { g with limit := some n }
  | _, _ => none

def Given.setFile (g : Given) (file : String) : Option Given :=
  if g.file.isSome then none else some { g with file := some file }

def isFlag (argument : String) : Bool :=
  match argument.toList with
  | '-' :: _ :: _ => true
  | _ => false

def Given.accept (g : Given) (argument : String) : Option Given :=
  match g.awaiting with
  | some flag => { g with awaiting := none }.set flag (some argument)
  | none =>
    if g.filesOnly || !isFlag argument then g.setFile argument
    else if argument = "--" then some { g with filesOnly := true }
    else
      let (name, value) := splitFlag argument
      (Flag.ofName? name).bind fun flag =>
        if flag.takesValue && value.isNone then some { g with awaiting := some flag }
        else g.set flag value

def Given.options? (g : Given) : Option (RunOptions × String) :=
  if g.awaiting.isSome then none
  else g.file.map fun file =>
    (⟨g.cycleMicros.getD default.cycleMicros, g.timerMillis.getD default.timerMillis, !g.noTimer,
      g.limit⟩, file)

def ofArguments? (arguments : List String) : Option (RunOptions × String) :=
  (arguments.foldlM Given.accept ⟨none, none, none, false, none, none, false⟩).bind
    Given.options?

end RunOptions
end EightBit
