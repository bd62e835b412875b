import BlockIR.Arena
import BlockIR.Binary64
import BlockIR.Binary64.Shortest
import BlockIR.Body
import BlockIR.CommandLine.Directory
import BlockIR.CommandLine.Interpreter
import BlockIR.CommandLine.Item
import BlockIR.CommandLine.Options
import BlockIR.Data
import BlockIR.Data.Machine
import BlockIR.Data.Module
import BlockIR.Draft
import BlockIR.Draft.Edit
import BlockIR.FileTest.Expectation
import BlockIR.FileTest.Report
import BlockIR.FileTest.Session
import BlockIR.FileTest.Suite
import BlockIR.Literal
import BlockIR.Log
import BlockIR.Machine.Arithmetic
import BlockIR.Machine.Basic
import BlockIR.Machine.Event
import BlockIR.Machine.Frame
import BlockIR.Machine.Run
import BlockIR.Machine.Value
import BlockIR.Main
import BlockIR.Module
import BlockIR.NameTable
import BlockIR.Operand
import BlockIR.Parser.Basic
import BlockIR.Parser.Block
import BlockIR.Parser.Module
import BlockIR.Printer
import BlockIR.Proofs.Draft
import BlockIR.Proofs.Edits
import BlockIR.Proofs.ErrorPlaces
import BlockIR.Proofs.Expectations
import BlockIR.Proofs.Grammar.Blocks
import BlockIR.Proofs.Grammar.Bodies
import BlockIR.Proofs.Grammar.Code
import BlockIR.Proofs.Grammar.Complaints
import BlockIR.Proofs.Grammar.Heads
import BlockIR.Proofs.Grammar.Meaning
import BlockIR.Proofs.Grammar.Modules
import BlockIR.Proofs.Grammar.Names
import BlockIR.Proofs.Grammar.Passes
import BlockIR.Proofs.Grammar.Reading
import BlockIR.Proofs.Grammar.Relocated
import BlockIR.Proofs.Grammar.Relocation
import BlockIR.Proofs.Grammar.Resolution
import BlockIR.Proofs.IntegerLiterals
import BlockIR.Proofs.Interchange
import BlockIR.Proofs.IssueOrder
import BlockIR.Proofs.Joining
import BlockIR.Proofs.Keywords
import BlockIR.Proofs.Layout
import BlockIR.Proofs.Lexemes
import BlockIR.Proofs.Lines
import BlockIR.Proofs.Listing
import BlockIR.Proofs.Machine.Activation
import BlockIR.Proofs.Machine.Callers
import BlockIR.Proofs.Machine.Confinement
import BlockIR.Proofs.Machine.ControlFlow
import BlockIR.Proofs.Machine.Counting
import BlockIR.Proofs.Machine.DepthLimit
import BlockIR.Proofs.Machine.Drops
import BlockIR.Proofs.Machine.Effects
import BlockIR.Proofs.Machine.Framed
import BlockIR.Proofs.Machine.Frames
import BlockIR.Proofs.Machine.History
import BlockIR.Proofs.Machine.Integers
import BlockIR.Proofs.Machine.Limits
import BlockIR.Proofs.Machine.Operations
import BlockIR.Proofs.Machine.Operators
import BlockIR.Proofs.Machine.Raise
import BlockIR.Proofs.Machine.Reach
import BlockIR.Proofs.Machine.Refinement
import BlockIR.Proofs.Machine.Safety
import BlockIR.Proofs.Machine.Simulation
import BlockIR.Proofs.Machine.StepCount
import BlockIR.Proofs.Machine.StepLimit
import BlockIR.Proofs.Machine.Tiling
import BlockIR.Proofs.Moved
import BlockIR.Proofs.Nearest
import BlockIR.Proofs.Resolved
import BlockIR.Proofs.Results
import BlockIR.Proofs.RoundTrip.Constants
import BlockIR.Proofs.RoundTrip.Derivation
import BlockIR.Proofs.RoundTrip.Floats
import BlockIR.Proofs.RoundTrip.Literals
import BlockIR.Proofs.RoundTrip.Modules
import BlockIR.Proofs.RoundTrip.Positions
import BlockIR.Proofs.RoundTrip.Printing
import BlockIR.Proofs.Violations
import BlockIR.Proofs.Words
import BlockIR.ReadError
import BlockIR.StartPoint
import BlockIR.Text.Dictionary
import BlockIR.Text.LineDiff
import BlockIR.Text.Lines
import BlockIR.Text.Numeral
import BlockIR.Text.Quoted
import BlockIR.Text.Styled
import BlockIR.Token
import BlockIR.Token.Lexer
import BlockIR.Verifier
