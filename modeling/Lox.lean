import Lox.CommandLine.Arguments
import Lox.CommandLine.Commands
import Lox.CommandLine.Transcript
import Lox.Config.Basic
import Lox.Config.Document
import Lox.Config.Field
import Lox.Config.File
import Lox.Config.Variables
import Lox.Data
import Lox.Decimal.Binary
import Lox.Decimal.Notation
import Lox.Decimal.Reader
import Lox.Decimal.Shortest
import Lox.Diagnostic.Basic
import Lox.Diagnostic.Collector
import Lox.Environment
import Lox.Evaluation
import Lox.Main
import Lox.Native
import Lox.Path
import Lox.Proofs.Scope.Accepted
import Lox.Proofs.Scope.Bindings
import Lox.Proofs.Scope.Collected
import Lox.Proofs.Scope.Effect
import Lox.Proofs.Scope.Labels
import Lox.Proofs.Scope.Lexical
import Lox.Proofs.Scope.Numbering
import Lox.Proofs.Scope.Recursion
import Lox.Proofs.Scope.Sites
import Lox.Proofs.Syntax.ExpressionCompleteness
import Lox.Proofs.Syntax.ExpressionSoundness
import Lox.Proofs.Syntax.Grammar
import Lox.Proofs.Syntax.Recognition
import Lox.Proofs.Syntax.StatementCompleteness
import Lox.Proofs.Syntax.StatementSoundness
import Lox.Proofs.Syntax.Steps
import Lox.RuntimeError
import Lox.Scope.Finding
import Lox.Scope.Reference
import Lox.Scope.Resolution
import Lox.Scope.Walk
import Lox.Session
import Lox.Source.Lines
import Lox.Source.Position
import Lox.Store
import Lox.Syntax.Basic
import Lox.Syntax.Error
import Lox.Syntax.Parser.Expression
import Lox.Syntax.Parser.Program
import Lox.Syntax.Parser.State
import Lox.Syntax.Parser.Statement
import Lox.Syntax.Printer
import Lox.Text.Blank
import Lox.Text.Fields
import Lox.Text.Letter
import Lox.Text.Newlines
import Lox.Text.Numeral
import Lox.Text.Printable
import Lox.Text.Quoted
import Lox.Text.Ranges
import Lox.Token.Basic
import Lox.Token.Lexer
import Lox.Value
import Lox.Yaml.Basic
import Lox.Yaml.Document
import Lox.Yaml.Kind
import Lox.Yaml.Layout
import Lox.Yaml.Moment
import Lox.Yaml.Node
import Lox.Yaml.Scalar
import Lox.Yaml.Token
import Lox.Proofs.Execution.Frames
import Lox.Proofs.Execution.Soundness
import Lox.Proofs.Execution.Safety
import Lox.Proofs.Execution.Preservation
import Lox.Proofs.Execution.Calls
import Lox.Proofs.Execution.Sessions
import Lox.Proofs.Lexical.Evaluation
import Lox.Proofs.Lexical.Outline
import Lox.Proofs.Scope.Erasure
import Lox.Proofs.Lexical.Slots
import Lox.Proofs.Lexical.Agreement
import Lox.Proofs.Lexical.Simulation
import Lox.Proofs.Lexical.Programs
import Lox.Proofs.Lexical.Sessions
import Lox.Proofs.Execution.Discipline
import Lox.Proofs.Execution.Reach
import Lox.Proofs.Execution.Outcomes
import Lox.Proofs.Scope.Warnings
import Lox.Proofs.Syntax.Relocation
import Lox.Proofs.Execution.Undefined
import Lox.Proofs.Scope.Renaming
import Lox.Proofs.Scope.RenamedPrograms
import Lox.Proofs.Matching.Alike
import Lox.Proofs.Matching.Trees
import Lox.Proofs.Matching.Links
import Lox.Proofs.Matching.Worlds
import Lox.Proofs.Matching.Agreement
import Lox.Proofs.Matching.Simulation
import Lox.Proofs.Matching.Scopes
import Lox.Proofs.Matching.Places
import Lox.Proofs.Matching.Sessions
import Lox.Proofs.Matching.Renaming
import Lox.Proofs.Syntax.Lines
import Lox.Proofs.Syntax.Joining
import Lox.Proofs.Matching.Pieces
import Lox.Proofs.Matching.Wrapping
import Lox.Proofs.Syntax.Lexemes
import Lox.Proofs.Syntax.Tiling
import Lox.Proofs.Execution.Changes
import Lox.Proofs.Execution.Deepening
import Lox.Proofs.Execution.CallDepth
import Lox.Proofs.Execution.Tally
import Lox.Proofs.Execution.Counting
import Lox.Proofs.Execution.Origins
import Lox.Proofs.Execution.Restored
import Lox.Proofs.Execution.Reports
import Lox.Proofs.Syntax.Limits
import Lox.Proofs.Commands.Agreement
import Lox.Proofs.Syntax.TreePlaces
import Lox.Proofs.Syntax.Regions
import Lox.Proofs.Scope.FindingPlaces
import Lox.Proofs.Execution.Blame
import Lox.Proofs.Execution.References
import Lox.Proofs.Execution.Histories
import Lox.Proofs.Execution.LastWrites
import Lox.Proofs.Quoting.Lines
import Lox.Proofs.Quoting.Places
import Lox.Proofs.Quoting.Sessions
import Lox.Proofs.Scope.Points
import Lox.Proofs.Scope.Findings
import Lox.Proofs.Scope.Redeclarations
import Lox.Proofs.Syntax.Noting
import Lox.Proofs.Syntax.Roaming
import Lox.Proofs.Syntax.TokenOrder
import Lox.Proofs.Syntax.FaultOrder
import Lox.Proofs.Syntax.Turns
import Lox.Proofs.Syntax.Progress
import Lox.Proofs.Syntax.Locality
import Lox.Proofs.Syntax.BadSegments
import Lox.Proofs.Syntax.Recovery
import Lox.Proofs.Syntax.Nodes
import Lox.Proofs.Syntax.Nesting
import Lox.Proofs.Syntax.Excerpts
import Lox.Proofs.Syntax.NodeTexts
import Lox.Proofs.Scope.Standing
import Lox.Proofs.Execution.Complete
import Lox.Proofs.Loops.Hops
import Lox.Proofs.Loops.Links
import Lox.Proofs.Loops.Worlds
import Lox.Proofs.Loops.Agreement
import Lox.Proofs.Loops.Simulation
import Lox.Proofs.Loops.ForLoops
import Lox.Proofs.Loops.LoopTrees
import Lox.Proofs.Loops.PassFrames
import Lox.Proofs.Loops.Meaning
import Lox.Proofs.Scope.FindingOrder
import Lox.Proofs.Quoting.Visible
import Lox.Proofs.Quoting.Carets
import Lox.Proofs.Numbers.Rounding
import Lox.Proofs.Numbers.Doubles
import Lox.Proofs.Numbers.Nearest
import Lox.Proofs.Numbers.Search
import Lox.Proofs.Numbers.Numerals
import Lox.Proofs.Numbers.Notations
import Lox.Proofs.Numbers.Printing
import Lox.Proofs.Numbers.Exact
import Lox.Proofs.Numbers.Integers
import Lox.Proofs.Syntax.Respacing
import Lox.Proofs.Syntax.Spelling
import Lox.Proofs.Syntax.Forms
import Lox.Proofs.Syntax.TreeForms
import Lox.Proofs.Syntax.LeafTexts
import Lox.Proofs.Syntax.Printed
import Lox.Proofs.Syntax.Infinities
import Lox.Proofs.Output.Strings
import Lox.Proofs.Output.Chronicle
import Lox.Proofs.Output.Following
import Lox.Proofs.Output.Chronicled
import Lox.Proofs.Output.Lines
import Lox.Proofs.Config.Fields
import Lox.Proofs.Config.Documents
import Lox.Proofs.Config.Texts
import Lox.Proofs.Config.Layers
