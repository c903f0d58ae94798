import BlockC.Text.Numeral
import BlockC.Text.Position
import BlockC.Text.Blank
import BlockC.Text.Lines
import BlockC.Text.Join
import BlockC.Text.Hidden
import BlockC.Text.Quoted
import BlockC.Text.Utf8
import BlockC.Token.Kind
import BlockC.Token.Pattern
import BlockC.Token.Rules
import BlockC.Token.Scan
import BlockC.Symbol.Handle
import BlockC.Diagnostic.Cause
import BlockC.Diagnostic.Report
import BlockC.Tree.Node
import BlockC.Tree.Check
import BlockC.Grammar.Level
import BlockC.Grammar.Production
import BlockC.Grammar.Machine
import BlockC.Grammar.SourceFile
import BlockC.Surface.Operator
import BlockC.Surface.TypeExpr
import BlockC.Surface.Program
import BlockC.Surface.Reader
import BlockC.Symbol.Typing
import BlockC.Symbol.Table
import BlockC.Symbol.Lookup
import BlockC.Symbol.TypeLookup
import BlockC.Bound.Program
import BlockC.Bound.Context
import BlockC.Bound.Binder
import BlockC.Code.Declarator
import BlockC.Code.Name
import BlockC.Code.Prelude
import BlockC.Code.Emit
import BlockC.Compile
import BlockC.CommandLine.Folder
import BlockC.CommandLine.Command
import BlockC.Main
import BlockC.Proofs.Outcome
import BlockC.Proofs.Numerals
import BlockC.Proofs.PatternMatch
import BlockC.Proofs.Lexemes
import BlockC.Proofs.Comments
import BlockC.Proofs.Scanning
import BlockC.Proofs.Scoping
import BlockC.Proofs.SourceText
import BlockC.Proofs.TextPartition
import BlockC.Proofs.LineSeam
import BlockC.Proofs.Spelling
import BlockC.Proofs.StackInvariant
import BlockC.Proofs.ProperProgram
import BlockC.Proofs.TreeReading
import BlockC.Proofs.Transcript
import BlockC.Proofs.TreeContract
import BlockC.Proofs.OperatorTree
import BlockC.Proofs.ExprReading
import BlockC.Proofs.TableInvariant
import BlockC.Proofs.TableLookup
import BlockC.Proofs.ContextInvariant
import BlockC.Proofs.BinderSteps
import BlockC.Proofs.BlockIsolation
import BlockC.Proofs.BoundProgram
import BlockC.Proofs.BinderInvariant
import BlockC.Proofs.Emission
import BlockC.Proofs.CompileOutcome
import BlockC.Proofs.ExprRoundTrip
import BlockC.Proofs.Placement
import BlockC.Proofs.PlainProgram
import BlockC.Proofs.PlainReading
import BlockC.Proofs.ProgramReading
import BlockC.Proofs.Relexing
import BlockC.Proofs.LocalInvariant
import BlockC.Proofs.ProgramRoundTrip
import BlockC.Proofs.Completion
import BlockC.Proofs.EarliestFault
import BlockC.Proofs.StatementSeam
import BlockC.Proofs.LeafConservation
import BlockC.Proofs.TreeLayout
import BlockC.Proofs.Relocation
import BlockC.Proofs.ReadingAlike
import BlockC.Proofs.Frames
import BlockC.Proofs.ContextFrames
import BlockC.Proofs.NameTracking
import BlockC.Proofs.LexicalBinding
import BlockC.Proofs.Visibility
import BlockC.Proofs.LayoutIndependence
import BlockC.Proofs.AppendedCode
import BlockC.Proofs.NameClashes
import BlockC.Proofs.ScopeStack
import BlockC.Proofs.BindingMoments
import BlockC.Proofs.TableWalks
import BlockC.Proofs.CompleteUnits
import BlockC.Proofs.StatementFrame
import BlockC.Proofs.Publication
import BlockC.Proofs.StatementPrefix
import BlockC.Proofs.DottedNames
import BlockC.Proofs.FunctionScopes
import BlockC.Proofs.ReportedPlaces
import BlockC.Proofs.DiagnosticPlaces
import BlockC.Proofs.TypesOfCallees
import BlockC.Proofs.CaretColumn
import BlockC.Proofs.DeclaratorSyntax
import BlockC.Proofs.DeclaratorReading
import BlockC.Proofs.Precedence
import BlockC.Proofs.NumberLiterals
import BlockC.Proofs.ExpectedTokens
import BlockC.Proofs.TypeRoundTrip
import BlockC.Proofs.TypeResolution
import BlockC.Proofs.LongestMatch
import BlockC.Proofs.TokenLines
import BlockC.Proofs.TreeWalk
import BlockC.Proofs.IfPlaces
import BlockC.Proofs.Unfolding
import BlockC.Proofs.UnfoldedRun
import BlockC.Proofs.ElseIf
import BlockC.Proofs.ClosingMarks
import BlockC.Proofs.Progress
