import EightBit.Numerals
import EightBit.TextLines
import EightBit.TextBlank
import EightBit.TextQuoted
import EightBit.Utf8Text
import EightBit.RegisterFile
import EightBit.InterruptLines
import EightBit.InstructionDecoding
import EightBit.MemoryBus
import EightBit.Console
import EightBit.MachineCycle
import EightBit.MachineLoading
import EightBit.ProgramText
import EightBit.ListingElision
import EightBit.HostSession
import EightBit.CommandArguments
import EightBit.Main
import EightBit.Proofs.EncodedPrefix
import EightBit.Proofs.StepCases
import EightBit.Proofs.InterruptFrame
import EightBit.Proofs.InterruptReturn
import EightBit.Proofs.EventRun
import EightBit.Proofs.RequestLatch
import EightBit.Proofs.RequestCount
import EightBit.Proofs.StackRefinement
import EightBit.Proofs.PendingDrain
import EightBit.Proofs.ListedExecution
import EightBit.Proofs.ProgramTextRoundTrip
import EightBit.Proofs.OperandErrors
import EightBit.Proofs.AttemptedWrites
import EightBit.Proofs.TrapExactness
import EightBit.Proofs.SavedRegisters
import EightBit.Proofs.HandlerExclusion
import EightBit.Proofs.PermanentStop
import EightBit.Proofs.SavedPointer
import EightBit.Proofs.PolledRun
import EightBit.Proofs.TickSchedule
import EightBit.Proofs.StopwatchTicks
import EightBit.Proofs.RunComposition
import EightBit.Proofs.DriverAgreement
import EightBit.Proofs.UnnamedRegister
import EightBit.Proofs.HiddenTicks
import EightBit.Proofs.LimitExtension
import EightBit.Proofs.ZeroRunRemoval
import EightBit.Proofs.ListingRecovery
import EightBit.Proofs.TextRows
import EightBit.Proofs.BinaryCodes
import EightBit.Proofs.ProgramTextGrammar
import EightBit.Proofs.ProgramTextJoin
import EightBit.Proofs.EntryExactness
import EightBit.Proofs.InstructionFootprint
import EightBit.Proofs.ProgramTextLayout
import EightBit.Proofs.ImageLoading
import EightBit.Proofs.TickPeriod
import EightBit.Proofs.ReloadedPointer
import EightBit.Proofs.UndecodableBytes
import EightBit.Proofs.ListingExtension
import EightBit.Proofs.AssemblyText
import EightBit.Proofs.OutputHistory
import EightBit.Proofs.TickCount
import EightBit.Proofs.SessionAgreement
