import Brainfuck.Code.Evaluation
import Brainfuck.Main
import Brainfuck.Program.ListingReader
import Brainfuck.Program.Span
import Brainfuck.Session.Machine
import Brainfuck.Session.Tape
import Brainfuck.Proofs.Tape.Row
import Brainfuck.Proofs.Tape.Reach
import Brainfuck.Proofs.Machine.Advance
import Brainfuck.Proofs.Program.Nesting
import Brainfuck.Proofs.Machine.Loops
import Brainfuck.Proofs.Machine.Rerun
import Brainfuck.Proofs.Machine.Schedule
import Brainfuck.Proofs.Code.Layout
import Brainfuck.Proofs.Tape.Offset
import Brainfuck.Proofs.Code.Divergence
import Brainfuck.Proofs.Code.Simulation
import Brainfuck.Proofs.Run.Course
import Brainfuck.Proofs.Run.StepLimit
import Brainfuck.Proofs.Machine.Printed
import Brainfuck.Proofs.Output.Taken
import Brainfuck.Proofs.Output.Resend
import Brainfuck.Proofs.Run.Prompts
import Brainfuck.Proofs.Run.Resume
import Brainfuck.Proofs.Run.Feeding
import Brainfuck.Proofs.CommandLine.Response
import Brainfuck.Proofs.Input.LineText
import Brainfuck.Proofs.Input.Stream
import Brainfuck.Proofs.Run.Ahead
import Brainfuck.Proofs.CommandLine.Arrival
import Brainfuck.Proofs.CommandLine.Conversation
import Brainfuck.Proofs.Tape.Endless
import Brainfuck.Proofs.Machine.Sound
import Brainfuck.Proofs.Output.Reset
import Brainfuck.Proofs.Machine.Comments
import Brainfuck.Proofs.Machine.Sequence
import Brainfuck.Proofs.Machine.Extent
import Brainfuck.Proofs.Machine.Waiting
import Brainfuck.Proofs.Run.Budget
import Brainfuck.Proofs.Program.Listing
import Brainfuck.Proofs.Program.Runs
import Brainfuck.Proofs.Program.Matching
import Brainfuck.Proofs.Machine.Picture
import Brainfuck.Proofs.Machine.Counting
