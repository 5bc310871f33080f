import Lowering.CommandLine
import Lowering.DenseSet
import Lowering.Directory
import Lowering.Fault
import Lowering.Frame.Access
import Lowering.Function.Basic
import Lowering.Function.Package
import Lowering.Function.Runs
import Lowering.Instr.Basic
import Lowering.Instr.Check
import Lowering.Instr.Template
import Lowering.Listing
import Lowering.Main
import Lowering.Pattern.Basic
import Lowering.Pattern.Captures
import Lowering.Pattern.Kind
import Lowering.Program.Build
import Lowering.Program.Declaration
import Lowering.Program.Form
import Lowering.Proofs.Selecting
import Lowering.Proofs.Tiling.Rules
import Lowering.Proofs.Tiling.Tile
import Lowering.Rule.Action
import Lowering.Rule.Basic
import Lowering.Rule.Script
import Lowering.SExpr.Basic
import Lowering.SExpr.Blank
import Lowering.SExpr.Grammar
import Lowering.SExpr.Reader
import Lowering.SExpr.Source
import Lowering.Selection
import Lowering.Session
import Lowering.Temp
import Lowering.Text.Basic
import Lowering.Text.Literal
import Lowering.Text.Printable
import Lowering.Text.Quoted
import Lowering.Text.Wire
import Lowering.Tree.Basic
import Lowering.Tree.Comparison
import Lowering.Tree.Op
import Lowering.Tree.Printer
import Lowering.X86.Form
import Lowering.X86.Frame
import Lowering.X86.Register
import Lowering.X86.Rules
import Lowering.Proofs.Tiling.Derivation
import Lowering.Proofs.Tiling.Coverage
import Lowering.Proofs.Machine.Assembly
import Lowering.Proofs.Machine.Execution
import Lowering.Proofs.Meaning
import Lowering.Proofs.Preservation.Expressions
import Lowering.Proofs.Preservation.Statements
import Lowering.Proofs.Machine.Control
import Lowering.Proofs.Tiling.Places
import Lowering.Proofs.Operands.Writes
import Lowering.Proofs.Operands.Changes
import Lowering.Proofs.Operands.Survival
import Lowering.Proofs.Template.Expansion
import Lowering.Proofs.Template.Printing
import Lowering.Proofs.Program.Bodies
import Lowering.Proofs.Program.Compilation
import Lowering.Proofs.Branching.Edges
import Lowering.Proofs.Machine.Memory
import Lowering.Proofs.Frame.Layout
import Lowering.Proofs.Frame.Arguments
import Lowering.Proofs.Frame.Allocation
import Lowering.Proofs.Tiling.Refusals
import Lowering.Proofs.Effects.Order
import Lowering.Proofs.Reading.Words
import Lowering.Proofs.Reading.Data
import Lowering.Proofs.Reading.Trees
import Lowering.Proofs.Reading.Rebuilding
import Lowering.Proofs.Reading.Printability
import Lowering.Proofs.Reading.RoundTrip
import Lowering.Proofs.Reading.Language
import Lowering.Proofs.Log.Blindness
import Lowering.Proofs.Log.Journal
import Lowering.Proofs.Log.Calls
import Lowering.Proofs.Program.Grammar
import Lowering.Proofs.Renaming.Tiles
import Lowering.Proofs.Renaming.Bodies
import Lowering.Proofs.Renaming.Functions
import Lowering.Proofs.Renaming.Texts
import Lowering.Proofs.Runs.Jobs
import Lowering.Proofs.Runs.Turns
import Lowering.Proofs.Runs.Outcomes
import Lowering.Proofs.Runs.Independence
import Lowering.Proofs.Tiling.Totality
import Lowering.Proofs.Reading.Continuation
import Lowering.Proofs.Reading.Files
import Lowering.Proofs.Calls.Blocks
import Lowering.Proofs.Calls.Balance
import Lowering.Proofs.Definedness.Check
import Lowering.Proofs.Definedness.Chains
import Lowering.Proofs.Operands.Lists
import Lowering.Proofs.Frame.Saved
import Lowering.Proofs.Matching.Instances
import Lowering.Proofs.Matching.Captures
import Lowering.Proofs.Matching.Exactness
import Lowering.Proofs.Matching.Priority
import Lowering.Proofs.Template.Substitution
import Lowering.Proofs.Template.Layout
import Lowering.Proofs.Template.Verbatim
import Lowering.Proofs.Reading.Locations
import Lowering.Proofs.Reading.Spans
import Lowering.Proofs.Reading.Positions
import Lowering.Proofs.Program.Names
import Lowering.Proofs.Tiling.Sequences
import Lowering.Proofs.Ending
import Lowering.Proofs.Definedness.Histories
import Lowering.Proofs.Reading.Blanks
