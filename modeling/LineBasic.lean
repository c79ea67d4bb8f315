import LineBasic.Console.Scripted
import LineBasic.Console.Transcript
import LineBasic.Main
import LineBasic.Proofs.Console.Runner
import LineBasic.Proofs.Console.Terminal
import LineBasic.Proofs.Environment.Draws
import LineBasic.Proofs.Environment.FirstFailure
import LineBasic.Proofs.Environment.Middle
import LineBasic.Proofs.Environment.Variables
import LineBasic.Proofs.Listing.Built
import LineBasic.Proofs.Listing.Load
import LineBasic.Proofs.Listing.Reload
import LineBasic.Proofs.Number.Counting
import LineBasic.Proofs.Number.Magnitude
import LineBasic.Proofs.Number.Nearest
import LineBasic.Proofs.Number.Ordered
import LineBasic.Proofs.Number.RoundTrip
import LineBasic.Proofs.Number.Rounding
import LineBasic.Proofs.Number.Shortest
import LineBasic.Proofs.Number.Whole
import LineBasic.Proofs.Number.Written
import LineBasic.Proofs.Program.BreaksOff
import LineBasic.Proofs.Program.Case
import LineBasic.Proofs.Program.Headings
import LineBasic.Proofs.Program.Insertions
import LineBasic.Proofs.Program.OneLine
import LineBasic.Proofs.Program.Progress
import LineBasic.Proofs.Program.Rendered
import LineBasic.Proofs.Run.Consoles
import LineBasic.Proofs.Run.Corresponding
import LineBasic.Proofs.Run.Dependence
import LineBasic.Proofs.Run.Failure
import LineBasic.Proofs.Run.Forward
import LineBasic.Proofs.Run.Interrupt
import LineBasic.Proofs.Run.Invariant
import LineBasic.Proofs.Run.Limit
import LineBasic.Proofs.Run.Located
import LineBasic.Proofs.Run.LoopBack
import LineBasic.Proofs.Run.Overflow
import LineBasic.Proofs.Run.Remarks
import LineBasic.Proofs.Run.Renumbering
import LineBasic.Proofs.Run.Simulation
import LineBasic.Proofs.Run.Trace
import LineBasic.Proofs.Run.Turns
import LineBasic.Proofs.Statement.ExprWritten
import LineBasic.Proofs.Statement.Likeness
import LineBasic.Proofs.Statement.Readable
import LineBasic.Proofs.Statement.Written
import LineBasic.Proofs.Token.Alone
import LineBasic.Proofs.Token.Case
import LineBasic.Proofs.Token.Follows
import LineBasic.Proofs.Token.LineNumber
import LineBasic.Proofs.Token.Pieces
import LineBasic.Proofs.Token.Rereading
import LineBasic.Proofs.Token.Typeset
import LineBasic.Proofs.Value.Comparison
