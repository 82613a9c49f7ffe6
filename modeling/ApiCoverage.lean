import ApiCoverage.Text.Basic
import ApiCoverage.Text.Blank
import ApiCoverage.Text.Word
import ApiCoverage.Symbol.Kind
import ApiCoverage.Statement.Lexeme
import ApiCoverage.Statement.Declaration
import ApiCoverage.Statement.Specifier
import ApiCoverage.Statement.Export
import ApiCoverage.Statement.Import
import ApiCoverage.Statement.Segment
import ApiCoverage.Source.Locate
import ApiCoverage.Source.DocMap
import ApiCoverage.Path.Basic
import ApiCoverage.Path.Normal
import ApiCoverage.Path.Order
import ApiCoverage.Path.Relative
import ApiCoverage.Disk.Basic
import ApiCoverage.Disk.Discovery
import ApiCoverage.Disk.Resolution
import ApiCoverage.Source.Outline
import ApiCoverage.Graph.Basic
import ApiCoverage.Graph.Trace
import ApiCoverage.Symbol.Basic
import ApiCoverage.Coverage.Rounding
import ApiCoverage.Coverage.Stats
import ApiCoverage.Json.Basic
import ApiCoverage.Json.Literal
import ApiCoverage.Json.Token
import ApiCoverage.Json.Reader
import ApiCoverage.Json.Printer
import ApiCoverage.Config.Comments
import ApiCoverage.Config.Basic
import ApiCoverage.Config.Load
import ApiCoverage.Analysis.Error
import ApiCoverage.Analysis.Symbols
import ApiCoverage.Analysis.Basic
import ApiCoverage.Report.Basic
import ApiCoverage.Report.Format
import ApiCoverage.Report.Plain
import ApiCoverage.Report.Structured
import ApiCoverage.Report.Markdown
import ApiCoverage.Report.Render
import ApiCoverage.Command.Options
import ApiCoverage.Command.Run
import ApiCoverage.Main
import ApiCoverage.Proofs.TextFacts
import ApiCoverage.Proofs.Lexemes
import ApiCoverage.Proofs.Words
import ApiCoverage.Proofs.Statements
import ApiCoverage.Proofs.BareDeclarations
import ApiCoverage.Proofs.NormalPath
import ApiCoverage.Proofs.DiskFiles
import ApiCoverage.Proofs.GraphFacts
import ApiCoverage.Proofs.Tasks
import ApiCoverage.Proofs.Visit
import ApiCoverage.Proofs.Reach
import ApiCoverage.Proofs.Arising
import ApiCoverage.Proofs.EntryErrors
import ApiCoverage.Proofs.Dependencies
import ApiCoverage.Proofs.Memoization
import ApiCoverage.Proofs.OwnExports
import ApiCoverage.Proofs.StarExports
import ApiCoverage.Proofs.NamedExports
import ApiCoverage.Proofs.Evidence
import ApiCoverage.Proofs.Spelling
import ApiCoverage.Proofs.EntrySymbols
import ApiCoverage.Proofs.Termination
import ApiCoverage.Proofs.CallStack
import ApiCoverage.Proofs.Representation
import ApiCoverage.Proofs.SameTree
import ApiCoverage.Proofs.Locality
import ApiCoverage.Proofs.SelfContained
import ApiCoverage.Proofs.Statistics
import ApiCoverage.Proofs.SymbolOrder
import ApiCoverage.Proofs.WorkspaceTotals
import ApiCoverage.Proofs.JsonGrammar
import ApiCoverage.Proofs.JsonReading
import ApiCoverage.Proofs.Decorations
import ApiCoverage.Proofs.JsonPrinting
import ApiCoverage.Proofs.ReportReading
import ApiCoverage.Proofs.ExportedNames
import ApiCoverage.Proofs.DocBlocks
import ApiCoverage.Proofs.DocInsertion
import ApiCoverage.Proofs.SpecifierLists
import ApiCoverage.Proofs.ExportLists
import ApiCoverage.Proofs.ImportClauses
import ApiCoverage.Proofs.DeclarationForms
import ApiCoverage.Proofs.DeclaredLines
import ApiCoverage.Proofs.ListDetection
import ApiCoverage.Proofs.JoinedHeaders
import ApiCoverage.Proofs.LineNumbers
import ApiCoverage.Proofs.PathSteps
import ApiCoverage.Proofs.Relocation
import ApiCoverage.Proofs.CanonicalPaths
import ApiCoverage.Proofs.NormalWalk
import ApiCoverage.Proofs.PathsBelow
import ApiCoverage.Proofs.ListedFiles
import ApiCoverage.Proofs.ShownPaths
import ApiCoverage.Proofs.ReportedPaths
import ApiCoverage.Proofs.StatementLines
import ApiCoverage.Proofs.ColoredReport
import ApiCoverage.Proofs.RoundedPercentages
