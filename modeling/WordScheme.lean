import WordScheme.Assoc
import WordScheme.Command.Disk
import WordScheme.Command.Invocation
import WordScheme.Command.Run
import WordScheme.Compile
import WordScheme.CompileError
import WordScheme.Datum
import WordScheme.Datum.Assemble
import WordScheme.Double
import WordScheme.Expr
import WordScheme.Expr.OfDatum
import WordScheme.FunctionDraft
import WordScheme.Ir.Instruction
import WordScheme.Ir.Module
import WordScheme.Ir.ModuleDraft
import WordScheme.Ir.Print
import WordScheme.Ir.Type
import WordScheme.Lowering
import WordScheme.Lowering.Assigned
import WordScheme.Lowering.Unit
import WordScheme.Main
import WordScheme.Naming
import WordScheme.Operator
import WordScheme.Program
import WordScheme.ReadError
import WordScheme.Scope
import WordScheme.Source
import WordScheme.Table
import WordScheme.Text.Blank
import WordScheme.Text.Escaped
import WordScheme.Text.Extending
import WordScheme.Text.Graphic
import WordScheme.Text.Hex
import WordScheme.Text.Numeral
import WordScheme.Text.Quoted
import WordScheme.Text.Ranges
import WordScheme.Text.Strip
import WordScheme.Text.Styled
import WordScheme.Text.Utf8
import WordScheme.Text.Visible
import WordScheme.Token
import WordScheme.Token.Lexer
import WordScheme.Token.Scan
import WordScheme.Proofs.DraftBlocks
import WordScheme.Proofs.Labels
import WordScheme.Proofs.Construction
import WordScheme.Proofs.Soundness
import WordScheme.Proofs.LoweringSteps
import WordScheme.Proofs.Conditionals
import WordScheme.Proofs.LoweringRun
import WordScheme.Proofs.Reachability
import WordScheme.Proofs.FunctionRun
import WordScheme.Proofs.ControlFlow
import WordScheme.Proofs.InternalChecks
import WordScheme.Proofs.Availability
import WordScheme.Proofs.Dominance
import WordScheme.Proofs.Evaluation
import WordScheme.Proofs.Machine
import WordScheme.Proofs.Agreement
import WordScheme.Proofs.Simulation
import WordScheme.Proofs.ConditionalMeaning
import WordScheme.Proofs.OperationMeaning
import WordScheme.Proofs.ExpressionMeaning
import WordScheme.Proofs.BodyMeaning
import WordScheme.Proofs.Preservation
import WordScheme.Proofs.InstructionTypes
import WordScheme.Proofs.ModuleIndex
import WordScheme.Proofs.Moves
import WordScheme.Proofs.LoweringMoves
import WordScheme.Proofs.MoveRun
import WordScheme.Proofs.TypeCorrectness
import WordScheme.Proofs.UnitDefinitions
import WordScheme.Proofs.Resolution
import WordScheme.Proofs.CompileRun
import WordScheme.Proofs.References
import WordScheme.Proofs.SymbolNames
import WordScheme.Proofs.ErrorPolicies
import WordScheme.Proofs.LinearScan
import WordScheme.Proofs.LambdaNodes
import WordScheme.Proofs.LambdaNames
import WordScheme.Proofs.CompileCalls
import WordScheme.Proofs.Termination
import WordScheme.Proofs.FunctionAccount
import WordScheme.Proofs.TokenSpans
import WordScheme.Proofs.BlamedSpans
import WordScheme.Proofs.ReadingSafety
import WordScheme.Proofs.Lockstep
import WordScheme.Proofs.LetCalls
import WordScheme.Proofs.Hoisting
import WordScheme.Proofs.CanonicalText
import WordScheme.Proofs.AtomSpellings
import WordScheme.Proofs.ReadingBack
import WordScheme.Proofs.StaticCheck
import WordScheme.Proofs.CheckedLowering
import WordScheme.Proofs.Acceptance
import WordScheme.Proofs.PlainText
import WordScheme.Proofs.Relocation
import WordScheme.Proofs.TokenLayout
import WordScheme.Proofs.Concatenation
import WordScheme.Proofs.FailedFunctions
import WordScheme.Proofs.DraftRuns
import WordScheme.Proofs.LoweringParts
import WordScheme.Proofs.LoweringChanges
import WordScheme.Proofs.LoweringPoints
import WordScheme.Proofs.LocalFrames
import WordScheme.Proofs.LabelTwins
import WordScheme.Proofs.NestedConditionals
import WordScheme.Proofs.StringConstants
import WordScheme.Proofs.DraftHistory
import WordScheme.Proofs.LabelClashes
import WordScheme.Proofs.FunctionOrder
import WordScheme.Proofs.DatumGrammar
import WordScheme.Proofs.Grouping
import WordScheme.Proofs.Tiling
import WordScheme.Proofs.NumeralGrammar
import WordScheme.Proofs.PrintedNames
import WordScheme.Proofs.UniquePrinting
import WordScheme.Proofs.Demands
import WordScheme.Proofs.EntryClashes
import WordScheme.Proofs.ScopeRuns
import WordScheme.Proofs.Peeking
import WordScheme.Proofs.Separation
import WordScheme.Proofs.ParameterNames
import WordScheme.Proofs.RowsAndColumns
