import LineScript.Main
import LineScript.Statement.Printer
import LineScript.Proofs.Outcome
import LineScript.Proofs.Ticks
import LineScript.Proofs.Moments
import LineScript.Proofs.Completion
import LineScript.Proofs.Progress
import LineScript.Proofs.JumpGuard
import LineScript.Proofs.Cycles
import LineScript.Proofs.Printing
import LineScript.Proofs.Truncation
import LineScript.Proofs.History
import LineScript.Proofs.Course
import LineScript.Proofs.Reassignment
import LineScript.Proofs.Words
import LineScript.Proofs.Rendering
import LineScript.Proofs.Interrupt
import LineScript.Proofs.Essence
import LineScript.Proofs.Elementary
import LineScript.Proofs.Effects
import LineScript.Proofs.Ahead
import LineScript.Proofs.Reflection
import LineScript.Proofs.Tracing
import LineScript.Proofs.Locals
import LineScript.Proofs.Names
import LineScript.Proofs.Slices
import LineScript.Proofs.Pending
import LineScript.Proofs.Bindings
import LineScript.Proofs.Dialogue
import LineScript.Proofs.Turns
import LineScript.Proofs.LineFiles
import LineScript.Proofs.Replay
import LineScript.Proofs.Sequence
import LineScript.Proofs.Passes
import LineScript.Proofs.Reports
import LineScript.Proofs.Startup
import LineScript.Proofs.Failures
import LineScript.Proofs.Arithmetic
import LineScript.Proofs.Forms
import LineScript.Proofs.Impossible
import LineScript.Proofs.LineEndings
import LineScript.Proofs.SettingsFile
import LineScript.Proofs.SettingForms
import LineScript.Proofs.OptionSpelling
import LineScript.Proofs.OptionOrder
import LineScript.Proofs.RoundTrips
import LineScript.Proofs.CallDepth
import LineScript.Proofs.JumpCounts
