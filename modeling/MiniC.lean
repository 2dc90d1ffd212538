import MiniC.Command.Folder
import MiniC.Grammar.Reading
import MiniC.Main
import MiniC.Proofs.Machine.Memory
import MiniC.Proofs.Machine.Step
import MiniC.Proofs.Evaluation
import MiniC.Proofs.Code.Inversion
import MiniC.Proofs.Code.Labels
import MiniC.Proofs.Frame
import MiniC.Proofs.Machine.Arithmetic
import MiniC.Proofs.Preservation.State
import MiniC.Proofs.Preservation.Room
import MiniC.Proofs.Preservation.Expression
import MiniC.Proofs.Preservation.Program
import MiniC.Proofs.Grammar.Derivation
import MiniC.Proofs.Grammar.Soundness
import MiniC.Proofs.Grammar.Completeness
import MiniC.Proofs.Grammar.Recognition
import MiniC.Proofs.Printing.Render
import MiniC.Proofs.Printing.Scanning
import MiniC.Proofs.Printing.RoundTrip
import MiniC.Proofs.Code.Parts
import MiniC.Proofs.Stack.Path
import MiniC.Proofs.Stack.Balance
import MiniC.Proofs.Stack.Discipline
import MiniC.Proofs.Fuel
import MiniC.Proofs.Pointers.Execution
import MiniC.Proofs.Code.Emission
import MiniC.Proofs.Code.Faults
import MiniC.Proofs.Code.Slots
import MiniC.Proofs.Code.Refusal
import MiniC.Proofs.Grammar.Dialects
import MiniC.Proofs.Code.Hygiene
import MiniC.Proofs.Grammar.Relabel
import MiniC.Proofs.Token.Lexeme
import MiniC.Proofs.Token.Decomposition
import MiniC.Proofs.Excerpt
import MiniC.Proofs.Token.Fault
import MiniC.Proofs.Grammar.Diagnostics
import MiniC.Proofs.Grammar.Extension
import MiniC.Proofs.Grammar.Nesting
import MiniC.Proofs.Grammar.Continuation
import MiniC.Proofs.Grammar.Completion
import MiniC.Proofs.Grammar.Variables
import MiniC.Proofs.Code.Renaming
import MiniC.Proofs.Code.Shift
import MiniC.Proofs.Code.Composition
import MiniC.Proofs.Printing.Readable
import MiniC.Proofs.Printing.OneLine
import MiniC.Proofs.Printing.Outline.Expression
import MiniC.Proofs.Printing.Outline.Statement
import MiniC.Proofs.Printing.Outline.Program
import MiniC.Proofs.Printing.Offender
import MiniC.Proofs.Token.Layout
import MiniC.Proofs.Command.Writes
import MiniC.Proofs.Column
import MiniC.Proofs.Grammar.Termination
import MiniC.Proofs.Token.Listing
