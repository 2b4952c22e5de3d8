import GraphQLSyntax.Command.Arguments
import GraphQLSyntax.Command.Check
import GraphQLSyntax.Command.Collection
import GraphQLSyntax.Command.Diagnostic
import GraphQLSyntax.Command.FileTree
import GraphQLSyntax.Command.Format
import GraphQLSyntax.Command.Path
import GraphQLSyntax.Command.Result
import GraphQLSyntax.Grammar.Executable
import GraphQLSyntax.Grammar.Parser
import GraphQLSyntax.Grammar.Schema
import GraphQLSyntax.Grammar.Value
import GraphQLSyntax.Json
import GraphQLSyntax.Log.Parsing
import GraphQLSyntax.Log.Record
import GraphQLSyntax.Log.Setting
import GraphQLSyntax.Main
import GraphQLSyntax.Options
import GraphQLSyntax.Parsing
import GraphQLSyntax.Printing.Executable
import GraphQLSyntax.Printing.Node
import GraphQLSyntax.Printing.Schema
import GraphQLSyntax.Printing.Value
import GraphQLSyntax.Rewriting.Edit
import GraphQLSyntax.Rewriting.Rewriter
import GraphQLSyntax.Rewriting.Rule
import GraphQLSyntax.Rewriting.Update
import GraphQLSyntax.Source
import GraphQLSyntax.Source.Location
import GraphQLSyntax.Source.Position
import GraphQLSyntax.SyntaxError
import GraphQLSyntax.Text.Bytes
import GraphQLSyntax.Text.Character
import GraphQLSyntax.Text.Layout
import GraphQLSyntax.Text.Line
import GraphQLSyntax.Text.Quoted
import GraphQLSyntax.Text.Shown
import GraphQLSyntax.Text.Split
import GraphQLSyntax.Text.Trim
import GraphQLSyntax.Token
import GraphQLSyntax.Token.Reader
import GraphQLSyntax.Token.Scan
import GraphQLSyntax.Traversal.Outline
import GraphQLSyntax.Traversal.Transcript
import GraphQLSyntax.Traversal.Walk
import GraphQLSyntax.Tree.Basic
import GraphQLSyntax.Tree.Executable
import GraphQLSyntax.Tree.Node
import GraphQLSyntax.Tree.Order
import GraphQLSyntax.Tree.Schema
import GraphQLSyntax.Tree.Tag
import GraphQLSyntax.Tree.Value
import GraphQLSyntax.Tree.View
import GraphQLSyntax.Proofs.Lexical.Spelling
import GraphQLSyntax.Proofs.Yield.Terminal
import GraphQLSyntax.Proofs.Yield.Value
import GraphQLSyntax.Proofs.Recognition.Language
import GraphQLSyntax.Proofs.Recognition.Basic
import GraphQLSyntax.Proofs.Recognition.Repetition
import GraphQLSyntax.Proofs.Recognition.Value
import GraphQLSyntax.Proofs.Yield.Executable
import GraphQLSyntax.Proofs.Yield.Schema
import GraphQLSyntax.Proofs.Recognition.Executable
import GraphQLSyntax.Proofs.Recognition.Schema
import GraphQLSyntax.Proofs.Lexical.Scanning
import GraphQLSyntax.Proofs.Parsing.Run
import GraphQLSyntax.Proofs.Yield.Ordinary
import GraphQLSyntax.Proofs.Parsing.Inverse
import GraphQLSyntax.Proofs.Parsing.SchemaInverse
import GraphQLSyntax.Proofs.Parsing.Earliest
import GraphQLSyntax.Proofs.Lexical.Written
import GraphQLSyntax.Proofs.Printing.Layout
import GraphQLSyntax.Proofs.Printing.Value
import GraphQLSyntax.Proofs.Parsing.Unending
import GraphQLSyntax.Proofs.Printing.Executable
import GraphQLSyntax.Proofs.Printing.Schema
import GraphQLSyntax.Proofs.Printing.Tags
import GraphQLSyntax.Proofs.Printing.RoundTrip
import GraphQLSyntax.Proofs.Printing.SchemaRoundTrip
import GraphQLSyntax.Proofs.Tree.Tags
import GraphQLSyntax.Proofs.Rewriting.Lists
import GraphQLSyntax.Proofs.Rewriting.Rebuilding
import GraphQLSyntax.Proofs.Rewriting.Run
import GraphQLSyntax.Proofs.Rewriting.Children
import GraphQLSyntax.Proofs.Rewriting.Occurrence
import GraphQLSyntax.Proofs.Rewriting.Allocation
import GraphQLSyntax.Proofs.Rewriting.Ancestors
import GraphQLSyntax.Proofs.Rewriting.Sharing
import GraphQLSyntax.Proofs.Rewriting.Simulation
import GraphQLSyntax.Proofs.Rewriting.Plain
import GraphQLSyntax.Proofs.Rewriting.Calls
import GraphQLSyntax.Proofs.Lexical.Locality
import GraphQLSyntax.Proofs.Lexical.Segment
import GraphQLSyntax.Proofs.Yield.Node
import GraphQLSyntax.Proofs.Location.Tiling
import GraphQLSyntax.Proofs.Location.Parser
import GraphQLSyntax.Proofs.Location.Value
import GraphQLSyntax.Proofs.Location.Executable
import GraphQLSyntax.Proofs.Location.Schema
import GraphQLSyntax.Proofs.Location.Document
import GraphQLSyntax.Proofs.Location.Exact
import GraphQLSyntax.Proofs.Traversal.Visits
import GraphQLSyntax.Proofs.Traversal.Places
import GraphQLSyntax.Proofs.Traversal.Agreement
import GraphQLSyntax.Proofs.Parsing.UnendingSchema
import GraphQLSyntax.Proofs.Tree.Grammatical
import GraphQLSyntax.Proofs.Rewriting.Notes
import GraphQLSyntax.Proofs.Rewriting.Deletion
import GraphQLSyntax.Proofs.Rewriting.Pruning
import GraphQLSyntax.Proofs.Lexical.Literal
import GraphQLSyntax.Proofs.Lexical.Division
import GraphQLSyntax.Proofs.Lexical.Cursor
import GraphQLSyntax.Proofs.Lexical.Tiling
import GraphQLSyntax.Proofs.Lexical.Overlong
import GraphQLSyntax.Proofs.Printing.Limit
import GraphQLSyntax.Proofs.Printing.Pruned
import GraphQLSyntax.Proofs.Traversal.Stopping
import GraphQLSyntax.Proofs.Rewriting.Stopping
import GraphQLSyntax.Proofs.Text.Lines
import GraphQLSyntax.Proofs.Text.Encoding
import GraphQLSyntax.Proofs.Source.Position
import GraphQLSyntax.Proofs.Source.Excerpt
import GraphQLSyntax.Proofs.Lexical.Faults
import GraphQLSyntax.Proofs.Lexical.Offsets
import GraphQLSyntax.Proofs.Parsing.Diagnostics
import GraphQLSyntax.Proofs.Lexical.Decoding
import GraphQLSyntax.Proofs.Printing.Quoting
import GraphQLSyntax.Proofs.Log.Records
import GraphQLSyntax.Proofs.Command.Agreement
import GraphQLSyntax.Proofs.Parsing.Wording
import GraphQLSyntax.Proofs.Lexical.Numbers
import GraphQLSyntax.Proofs.Source.Columns
import GraphQLSyntax.Proofs.Lexical.Filler
import GraphQLSyntax.Proofs.Bounds.Access
import GraphQLSyntax.Proofs.Bounds.Escapes
import GraphQLSyntax.Proofs.Bounds.Rendering
import GraphQLSyntax.Proofs.Rewriting.Remains
import GraphQLSyntax.Proofs.Rewriting.Phases
import GraphQLSyntax.Proofs.Rewriting.Fusion
import GraphQLSyntax.Proofs.Parsing.Restriction
import GraphQLSyntax.Proofs.Parsing.Constants
import GraphQLSyntax.Proofs.Printing.Phrase
import GraphQLSyntax.Proofs.Printing.Passage
import GraphQLSyntax.Proofs.Printing.Indentation
import GraphQLSyntax.Proofs.Printing.Depth
import GraphQLSyntax.Proofs.Parsing.Concatenation
import GraphQLSyntax.Proofs.Command.Collecting
import GraphQLSyntax.Proofs.Command.Checking
import GraphQLSyntax.Proofs.Comparison.Executable
import GraphQLSyntax.Proofs.Comparison.Insertion
import GraphQLSyntax.Proofs.Comparison.Options
import GraphQLSyntax.Proofs.Comparison.Parser
import GraphQLSyntax.Proofs.Comparison.Schema
import GraphQLSyntax.Proofs.Comparison.Value
import GraphQLSyntax.Proofs.Rewriting.Lens
import GraphQLSyntax.Proofs.Rewriting.Items
import GraphQLSyntax.Proofs.OnDemand.Run
