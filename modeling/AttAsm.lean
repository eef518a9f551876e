import AttAsm.Width
import AttAsm.Error
import AttAsm.Register
import AttAsm.Operation
import AttAsm.Instruction
import AttAsm.Constant
import AttAsm.File
import AttAsm.Text.Utf8
import AttAsm.Text.Blank
import AttAsm.Text.Lines
import AttAsm.Text.Literal
import AttAsm.Text.Decimal
import AttAsm.Log
import AttAsm.Emission.Event
import AttAsm.Emission.Sink
import AttAsm.Emission.Writer
import AttAsm.Target
import AttAsm.Convention
import AttAsm.Argument
import AttAsm.Program
import AttAsm.Check.Directive
import AttAsm.Check.Scan
import AttAsm.CommandLine.Options
import AttAsm.CommandLine.Run
import AttAsm.Main
import AttAsm.Proofs.Spelling
import AttAsm.Proofs.Building
import AttAsm.Proofs.InstructionText
import AttAsm.Proofs.LiteralText
import AttAsm.Proofs.Rows
import AttAsm.Proofs.FileText
import AttAsm.Proofs.RowText
import AttAsm.Proofs.Memory
import AttAsm.Proofs.Machine
import AttAsm.Proofs.Execution
import AttAsm.Proofs.Frames
import AttAsm.Proofs.FactorialFunction
import AttAsm.Proofs.ProgramRuns
import AttAsm.Proofs.ArgumentPlaces
import AttAsm.Proofs.LimitedSinks
import AttAsm.Proofs.Utf8Text
import AttAsm.Proofs.OutputText
import AttAsm.Proofs.OutputLines
import AttAsm.Proofs.LineCounts
import AttAsm.Proofs.Warnings
import AttAsm.Proofs.TextLines
import AttAsm.Proofs.DirectiveText
import AttAsm.Proofs.ScanSteps
import AttAsm.Proofs.Transcripts
import AttAsm.Proofs.LineAssignments
import AttAsm.Proofs.Searches
import AttAsm.Proofs.EditedLists
import AttAsm.Proofs.PureLayout
import AttAsm.Proofs.WellFormed
import AttAsm.Proofs.CommandRuns
import AttAsm.Proofs.FrameSizes
import AttAsm.Proofs.PlaceFormulas
import AttAsm.Proofs.FrameBalance
import AttAsm.Proofs.DirectiveLines
import AttAsm.Proofs.DirectiveGrammar
import AttAsm.Proofs.FunctionLabels
