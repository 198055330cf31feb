import EightBit.CommandArguments
import EightBit.CommandReport

/-!
# Command line

`run` executes a program and `list` prints its listing. A run with a limit is computed at once; one
without a limit waits between cycles and takes timer ticks by real time.
-/
namespace EightBit.CommandLine

def usage : String :=
  "usage: eightbit run [--cycle-us N] [--timer-ms N] [--no-timer] [--max-cycles N] PROGRAM\n" ++
  "       eightbit list PROGRAM\n"

partial def readAll (stream : IO.FS.Stream) (front : ByteArray) : IO ByteArray := do
  let chunk ← stream.read 65536
  if chunk.isEmpty then return front else readAll stream (front ++ chunk)

/-- The bytes of a file, or nothing if there is no such file. -/
def fileBytes (path : String) : IO (Option (List UInt8)) := do
  try
    return some (← IO.FS.readBinFile path).toList
  catch
    | .noFileOrDirectory .. => return none
    | e => throw e

def inputBytes (path : String) : IO (Option (List UInt8)) := do
  if path = "-" then
    return some (← readAll (← IO.getStdin) .empty).toList
  else fileBytes path

def deliver (report : Report) : IO UInt32 := do
  IO.print report.stdout
  IO.eprint report.stderr
  return report.exitCode.toUInt32

/-- Cycle by cycle, printing as the machine prints; `since` is the time of the last poll. -/
partial def follow (cyclePeriod : Nat) (ticks : RunOptions.Ticks) (m : Machine PlainMemory) (since : Nat) :
    IO Report := do
  let (outcome, polled, after) := Pacing.beat ticks m
  IO.print (Report.printed after)
  (← IO.getStdout).flush
  let drained := { after with console := .empty }
  match outcome.runEnd? with
  | some e => return Report.ofEnd drained e
  | none =>
    IO.sleep (UInt32.ofNat (cyclePeriod / 1000))
    let now := (← IO.monoNanosNow) / 1000
    follow cyclePeriod (TickSource.elapse polled (now - since)) drained now

def run (options : RunOptions) (file : Option (List UInt8)) : IO UInt32 := do
  match Report.ofRun? 0 options file with
  | some report => deliver report
  | none =>
    match Report.loaded file with
    | .error f => deliver (Report.failure Report.runName "" f)
    | .ok m =>
      let pacing := options.pacing
      deliver (← follow pacing.cyclePeriod (TickSource.reset pacing.ticks) m
        ((← IO.monoNanosNow) / 1000))

end EightBit.CommandLine

open EightBit EightBit.CommandLine in
/-- The exit code is 2 for arguments that are not understood. -/
def main (arguments : List String) : IO UInt32 := do
  match arguments with
  | "run" :: rest =>
    match RunOptions.ofArguments? rest with
    | some (options, path) => run options (← inputBytes path)
    | none => IO.eprint usage; return 2
  | ["list", path] => deliver (Report.ofListing path (← fileBytes path))
  | _ => IO.eprint usage; return 2
