import PhpStyle.Text.Blank
import PhpStyle.Text.Letter
import PhpStyle.Text.Reader
import PhpStyle.Text.Search
import PhpStyle.Token.Basic
import PhpStyle.Token.Kind
import PhpStyle.Token.Lexer
import PhpStyle.Token.Linking
import PhpStyle.Token.Search
import PhpStyle.Token.Structure
import PhpStyle.DocType.Basic
import PhpStyle.DocType.Parser
import PhpStyle.DocTag
import PhpStyle.DocBlock
import PhpStyle.Signature
import PhpStyle.Edit.Basic
import PhpStyle.Edit.Buffer
import PhpStyle.Path
import PhpStyle.Disk
import PhpStyle.Violation
import PhpStyle.Report
import PhpStyle.Allowance
import PhpStyle.SourceFile
import PhpStyle.Rule.Basic
import PhpStyle.Rule.Script
import PhpStyle.Rules.ArrayBlankLines
import PhpStyle.Rules.CastSpacing
import PhpStyle.Rules.EnumCase
import PhpStyle.Rules.FunctionDoc
import PhpStyle.Rules.LicenseHeader
import PhpStyle.Rules.NullableDoc
import PhpStyle.Rules.ParamDoc
import PhpStyle.Rules.Psr4
import PhpStyle.Rules.Yoda
import PhpStyle.RuleSet
import PhpStyle.Json
import PhpStyle.Decimal.Binary
import PhpStyle.Toml.Basic
import PhpStyle.Toml.Scalar
import PhpStyle.Toml.Document
import PhpStyle.Config
import PhpStyle.Glob
import PhpStyle.Ignore.Pattern
import PhpStyle.Ignore.Walk
import PhpStyle.Analyzer.Invocation
import PhpStyle.Analyzer.Pass
import PhpStyle.Analyzer.Basic
import PhpStyle.CommandLine.Arguments
import PhpStyle.CommandLine.Help
import PhpStyle.CommandLine.Output
import PhpStyle.CommandLine.Project
import PhpStyle.CommandLine.Run
import PhpStyle.Main
import PhpStyle.Proofs.Lexemes
import PhpStyle.Proofs.Relinking
import PhpStyle.Proofs.Partition
import PhpStyle.Proofs.Changesets
import PhpStyle.Proofs.FixLoop
import PhpStyle.Proofs.BalancedBrackets
import PhpStyle.Proofs.LexemeEnds
import PhpStyle.Proofs.EnclosedLexemes
import PhpStyle.Proofs.Lookahead
import PhpStyle.Proofs.DocRewording
import PhpStyle.Proofs.ParenOwners
import PhpStyle.Proofs.ScopeOwners
import PhpStyle.Proofs.DocComments
import PhpStyle.Proofs.RuleIsolation
import PhpStyle.Proofs.ConfinedEdits
import PhpStyle.Proofs.NestedText
import PhpStyle.Proofs.TypeRoundTrip
import PhpStyle.Proofs.DocFixes
import PhpStyle.Proofs.Turns
import PhpStyle.Proofs.CommittedEdits
import PhpStyle.Proofs.FixAccounts
import PhpStyle.Proofs.LeakedChangesets
import PhpStyle.Proofs.FailureLog
import PhpStyle.Proofs.FileOrder
import PhpStyle.Proofs.Spans
import PhpStyle.Proofs.Compatibility
import PhpStyle.Proofs.CommittedFixes
import PhpStyle.Proofs.Settling
import PhpStyle.Proofs.DocRelexing
import PhpStyle.Proofs.RewordedDocs
import PhpStyle.Proofs.TypeReader
import PhpStyle.Proofs.TypeParts
import PhpStyle.Proofs.RewrittenTags
import PhpStyle.Proofs.PlainOperands
import PhpStyle.Proofs.Relexing
import PhpStyle.Proofs.UndisputedFixes
import PhpStyle.Proofs.BlankLexemes
import PhpStyle.Proofs.RemovedTokens
import PhpStyle.Proofs.TrailingBlankLines
import PhpStyle.Proofs.InsertedComments
import PhpStyle.Proofs.LicenseHeaders
import PhpStyle.Proofs.PascalCase
import PhpStyle.Proofs.StatementBounds
import PhpStyle.Proofs.AdjacentDocs
import PhpStyle.Proofs.CastSpaces
import PhpStyle.Proofs.LexerStates
import PhpStyle.Proofs.TriviaSegments
import PhpStyle.Proofs.OperandLexemes
import PhpStyle.Proofs.OperandContext
import PhpStyle.Proofs.TouchingWords
import PhpStyle.Proofs.ConstantOperands
import PhpStyle.Proofs.SwappedLexemes
import PhpStyle.Proofs.OperandBounds
import PhpStyle.Proofs.SwappedOperands
import PhpStyle.Proofs.MatchedTokens
import PhpStyle.Proofs.MatchedSignatures
import PhpStyle.Proofs.CommentMarks
import PhpStyle.Proofs.Directives
import PhpStyle.Proofs.DocLines
import PhpStyle.Proofs.DocBlockLines
import PhpStyle.Proofs.WrittenLexemes
import PhpStyle.Proofs.SelectedAlternatives
import PhpStyle.Proofs.PathTexts
import PhpStyle.Proofs.NamespaceNames
import PhpStyle.Proofs.MappedDirectories
import PhpStyle.Proofs.LinkTargets
import PhpStyle.Proofs.CheckedReads
import PhpStyle.Proofs.CheckedStructure
import PhpStyle.Proofs.CheckedSignatures
import PhpStyle.Proofs.TotalQueries
import PhpStyle.Proofs.StandingLexemes
import PhpStyle.Proofs.WrittenLiterals
import PhpStyle.Proofs.WrittenValues
import PhpStyle.Proofs.WrittenTypes
import PhpStyle.Proofs.WrittenParameters
import PhpStyle.Proofs.RecoveredParameters
import PhpStyle.Proofs.TokenScans
import PhpStyle.Proofs.SelectedRules
import PhpStyle.Proofs.WordPositions
import PhpStyle.Proofs.LineIndents
import PhpStyle.Proofs.PathSpellings
import PhpStyle.Proofs.CachedLookups
