import Notemark.Address.Bech32
import Notemark.Address.Pointer
import Notemark.Address.Tlv
import Notemark.Batch.Job
import Notemark.Batch.Options
import Notemark.Batch.Stage
import Notemark.Body.Element
import Notemark.Body.Construct
import Notemark.Body.Fault
import Notemark.Body.Grammar
import Notemark.Body.Lookahead
import Notemark.Body.Paragraph
import Notemark.Body.Position
import Notemark.Body.Scanner
import Notemark.Body.Tag
import Notemark.Body.TagStack
import Notemark.Body.Token
import Notemark.Body.Tokenize
import Notemark.Body.Tree
import Notemark.Decimal.Double
import Notemark.Decimal.Shortest
import Notemark.Document.Compile
import Notemark.Document.Failure
import Notemark.Document.Session
import Notemark.Fault
import Notemark.Files.Directory
import Notemark.Files.Path
import Notemark.Files.Pattern
import Notemark.Header.Fields
import Notemark.Header.Split
import Notemark.Log
import Notemark.Main
import Notemark.Pipe.Compile
import Notemark.Pipe.Expression
import Notemark.Schema.Document
import Notemark.Schema.Element
import Notemark.Schema.Issue
import Notemark.Schema.Record
import Notemark.Schema.Scalar
import Notemark.Settings.Basic
import Notemark.Settings.EnvFile
import Notemark.Settings.Load
import Notemark.Style.Class
import Notemark.Style.Palette
import Notemark.Style.Pass
import Notemark.Text.Blank
import Notemark.Text.Digit
import Notemark.Text.Printable
import Notemark.Text.Quoted
import Notemark.Text.Search
import Notemark.Text.Surrogate
import Notemark.Text.Utf8
import Notemark.Value.Basic
import Notemark.Value.Depth
import Notemark.Value.Json
import Notemark.Value.Shown
import Notemark.Yaml.Fault
import Notemark.Yaml.Load
import Notemark.Yaml.Node
import Notemark.Yaml.Scalar
import Notemark.Yaml.Token
import Notemark.Proofs.Text
import Notemark.Proofs.Names
import Notemark.Proofs.TokenList
import Notemark.Proofs.Rules
import Notemark.Proofs.TagForms
import Notemark.Proofs.Readings
import Notemark.Proofs.Lookahead
import Notemark.Proofs.Coverage
import Notemark.Proofs.Scanners
import Notemark.Proofs.ScanLoop
import Notemark.Proofs.Brackets
import Notemark.Proofs.TagBalance
import Notemark.Proofs.Builder
import Notemark.Proofs.Nesting
import Notemark.Proofs.TagText
import Notemark.Proofs.BlockTree
import Notemark.Proofs.Pieces
import Notemark.Proofs.RoundTrip
import Notemark.Proofs.Tiling
import Notemark.Proofs.Recovery
import Notemark.Proofs.Repair
import Notemark.Proofs.Outline
import Notemark.Proofs.Conservation
import Notemark.Proofs.ParagraphRuns
import Notemark.Proofs.Positions
import Notemark.Proofs.Decoration
import Notemark.Proofs.Exchanges
import Notemark.Proofs.AttributeItems
import Notemark.Proofs.Breaches
import Notemark.Proofs.FaultPlaces
import Notemark.Proofs.Lenient
import Notemark.Proofs.StrictGrammar
import Notemark.Proofs.Entries
import Notemark.Proofs.Records
import Notemark.Proofs.Runs
import Notemark.Proofs.StyleTree
import Notemark.Proofs.StylePass
import Notemark.Proofs.Building
import Notemark.Proofs.Conformance
import Notemark.Proofs.ClassNumbers
import Notemark.Proofs.LastDocument
import Notemark.Proofs.Escapes
import Notemark.Proofs.Batches
import Notemark.Proofs.OutputFiles
import Notemark.Proofs.Writable
import Notemark.Proofs.Checking
import Notemark.Proofs.Separation
import Notemark.Proofs.TagEnds
import Notemark.Proofs.QuoteParity
import Notemark.Proofs.TagAttributes
import Notemark.Proofs.Indentation
import Notemark.Proofs.Lines
import Notemark.Proofs.LineTokens
import Notemark.Proofs.Messages
import Notemark.Proofs.PipeSteps
import Notemark.Proofs.PipeRooms
import Notemark.Proofs.FinishedPipes
import Notemark.Proofs.NestedPipes
import Notemark.Proofs.HeaderBlock
import Notemark.Proofs.ClassStyles
import Notemark.Proofs.SupportedClasses
import Notemark.Proofs.StyleRecursion
import Notemark.Proofs.ElementIssues
import Notemark.Proofs.LineColumns
import Notemark.Proofs.References
import Notemark.Proofs.TaggedEntries
import Notemark.Proofs.Checksum
import Notemark.Proofs.Regrouping
import Notemark.Proofs.Utf8
import Notemark.Proofs.Addresses
