import WordMachine.Json.Parser
import WordMachine.Main
import WordMachine.Proofs.Acceptance
import WordMachine.Proofs.Accesses
import WordMachine.Proofs.Arithmetic
import WordMachine.Proofs.BlankLines
import WordMachine.Proofs.Boundaries
import WordMachine.Proofs.Building
import WordMachine.Proofs.CarryChain
import WordMachine.Proofs.Continuation
import WordMachine.Proofs.Course
import WordMachine.Proofs.Coverage
import WordMachine.Proofs.Cycles
import WordMachine.Proofs.Decoding
import WordMachine.Proofs.Disks
import WordMachine.Proofs.Encoding
import WordMachine.Proofs.ErrorLines
import WordMachine.Proofs.Execution
import WordMachine.Proofs.Faults
import WordMachine.Proofs.FileTrees
import WordMachine.Proofs.FirstFault
import WordMachine.Proofs.Forward
import WordMachine.Proofs.Grammar
import WordMachine.Proofs.Inputs
import WordMachine.Proofs.InstructionTable
import WordMachine.Proofs.Interference
import WordMachine.Proofs.LastWriter
import WordMachine.Proofs.Layout
import WordMachine.Proofs.Listing
import WordMachine.Proofs.Lockstep
import WordMachine.Proofs.MemorySize
import WordMachine.Proofs.Mnemonics
import WordMachine.Proofs.Numerals
import WordMachine.Proofs.OutputPath
import WordMachine.Proofs.Parsing
import WordMachine.Proofs.Passes
import WordMachine.Proofs.Reassembly
import WordMachine.Proofs.Recording
import WordMachine.Proofs.Renaming
import WordMachine.Proofs.RoundTrip
import WordMachine.Proofs.RowText
import WordMachine.Proofs.RunArguments
import WordMachine.Proofs.Spacing
import WordMachine.Proofs.StepBound
import WordMachine.Proofs.StepProtocol
import WordMachine.Proofs.Stepping
import WordMachine.Proofs.Sweep
import WordMachine.Proofs.Tiling
import WordMachine.Proofs.TraceShape
import WordMachine.Proofs.Tracing
import WordMachine.Proofs.Transcription
import WordMachine.Proofs.TwoPhases
import WordMachine.Proofs.Words
import WordMachine.Wire.Record
