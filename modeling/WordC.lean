import WordC.Artifact.Format
import WordC.Artifact.Varint
import WordC.Assembly.Line
import WordC.Assembly.Mnemonic
import WordC.Assembly.Reader
import WordC.Command.Disk
import WordC.Command.Options
import WordC.Command.Session
import WordC.Compiler
import WordC.DataType
import WordC.Declarations
import WordC.Error
import WordC.Expression.Builder
import WordC.Linear.Balance
import WordC.Linear.Element
import WordC.Linear.Listing
import WordC.Linear.Program
import WordC.Log
import WordC.Lowering.Assembler
import WordC.Lowering.Body
import WordC.Lowering.Control
import WordC.Lowering.Error
import WordC.Lowering.Expression
import WordC.Lowering.Label
import WordC.Lowering.Program
import WordC.Lowering.RegisterFile
import WordC.Lowering.State
import WordC.Machine.Expansion
import WordC.Machine.Line
import WordC.Main
import WordC.Operator
import WordC.Position
import WordC.Proofs.Expression.Draft
import WordC.Proofs.Expression.Language
import WordC.Proofs.Expression.Reading
import WordC.Proofs.Expression.Refinement
import WordC.Proofs.Expression.Steps
import WordC.Proofs.Expression.Tree
import WordC.Proofs.Expression.WellFormed
import WordC.Proofs.Lowering.Calls
import WordC.Proofs.Lowering.Elements
import WordC.Proofs.Lowering.Expressions
import WordC.Proofs.Lowering.Held
import WordC.Proofs.Lowering.Instructions
import WordC.Proofs.Lowering.Linked
import WordC.Proofs.Lowering.Machine
import WordC.Proofs.Lowering.Operators
import WordC.Proofs.Lowering.Room
import WordC.Proofs.Lowering.Stack
import WordC.Proofs.Lowering.Trees
import WordC.Proofs.Stateful
import WordC.Scopes
import WordC.Settings
import WordC.SourceUnit.Body
import WordC.SourceUnit.Check
import WordC.SourceUnit.Cursor
import WordC.SourceUnit.Error
import WordC.SourceUnit.Read
import WordC.Statement
import WordC.Text.Alphabetic
import WordC.Text.Blank
import WordC.Text.CodePoints
import WordC.Text.Combining
import WordC.Text.Ignorable
import WordC.Text.Invisible
import WordC.Text.Layout
import WordC.Text.Numeral
import WordC.Text.Numeric
import WordC.Text.Quoted
import WordC.Token
import WordC.Token.Lexeme
import WordC.Token.Listing
import WordC.Token.Scan
import WordC.Variable
import WordC.Proofs.SourceUnit.Body
import WordC.Proofs.Linear.Balance
import WordC.Proofs.Lowering.Discipline
import WordC.Proofs.Lowering.Edges
import WordC.Proofs.Lowering.Flow
import WordC.Proofs.Lowering.Labels
import WordC.Proofs.Token.Partition
import WordC.Proofs.Lowering.Jumps
import WordC.Proofs.Lowering.Execution
import WordC.Proofs.Lowering.Walk
import WordC.Proofs.SourceUnit.Storage
import WordC.Proofs.Lowering.Meaning
import WordC.Proofs.Artifact.RoundTrip
import WordC.Proofs.Text.Numeral
import WordC.Proofs.Text.Layout
import WordC.Proofs.Assembly.Operands
import WordC.Proofs.Assembly.ReadBack
import WordC.Proofs.Machine.Acceptance
import WordC.Proofs.Lowering.Vocabulary
import WordC.Proofs.Lowering.Lines
import WordC.Proofs.Assembly.Spelling
import WordC.Proofs.Compiler.FrontEnd
import WordC.Proofs.Compiler.Translation
import WordC.Proofs.SourceUnit.Names
import WordC.Proofs.Linear.Grammar
import WordC.Proofs.Linear.Numbering
import WordC.Proofs.Command.Files
import WordC.Proofs.Command.Resume
import WordC.Proofs.SourceUnit.Sentences
import WordC.Proofs.Compiler.Symbols
import WordC.Proofs.Declarations
import WordC.Proofs.Expression.Placeholders
import WordC.Proofs.Lowering.Bookkeeping
import WordC.Proofs.Lowering.Histories
import WordC.Proofs.Machine.Statements
import WordC.Proofs.Machine.Processor
import WordC.Proofs.Machine.Effects
import WordC.Proofs.Machine.Simulation
import WordC.Proofs.Machine.Segments
import WordC.Proofs.Token.Reading
import WordC.Proofs.Token.Respelling
import WordC.Proofs.Machine.Brackets
