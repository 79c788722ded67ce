import WireTables.Text.Word
import WireTables.Text.Camel
import WireTables.Text.Quoted
import WireTables.Text.Search
import WireTables.Text.Lines
import WireTables.Text.Blank
import WireTables.Expression.Lexer
import WireTables.Expression.Machine
import WireTables.Domain.Parser
import WireTables.Table.Row
import WireTables.Table.Template
import WireTables.Target.Name
import WireTables.Schema.Link
import WireTables.Extraction
import WireTables.Normal.Basic
import WireTables.Schema.Listing
import WireTables.Target.Adapt
import WireTables.Wire.Decode
import WireTables.Source.Reference
import WireTables.Source.Statement
import WireTables.Source.Printer
import WireTables.Source.TypeScript
import WireTables.Source.Python
import WireTables.Source.Basic
import WireTables.Storage.Memory
import WireTables.CommandLine.Run
import WireTables.Main
import WireTables.Proofs.Codec
import WireTables.Proofs.Expression.Grammar
import WireTables.Proofs.Expression.Machine
import WireTables.Proofs.Expression.Evaluation
import WireTables.Proofs.Schema.Size
import WireTables.Proofs.Normal.ArrayUnion
import WireTables.Proofs.Wire.Bound
import WireTables.Proofs.WireSize
import WireTables.Proofs.Normal.Steps
import WireTables.Proofs.Derivation
import WireTables.Proofs.Membership
import WireTables.Proofs.Constants
import WireTables.Proofs.Factory
import WireTables.Proofs.Flattening
import WireTables.Proofs.Normal.Confluence
import WireTables.Proofs.Extent
import WireTables.Proofs.PlanOrder
import WireTables.Proofs.Schema.Verdict
import WireTables.Proofs.InlinedAnswers
import WireTables.Proofs.MemberTypes
import WireTables.Proofs.Adaptation
import WireTables.Proofs.Termination
import WireTables.Proofs.ConstantOrder
import WireTables.Proofs.Translation
import WireTables.Proofs.History
import WireTables.Proofs.Precedence
import WireTables.Proofs.Persistence
import WireTables.Proofs.FirstParameter
import WireTables.Proofs.TableOrder
import WireTables.Proofs.Ownership
import WireTables.Proofs.Selection
import WireTables.Proofs.Resolution
import WireTables.Proofs.ArrayCounts
import WireTables.Proofs.Schema.Afresh
import WireTables.Proofs.Schema.Coverage
import WireTables.Proofs.Schema.Recall
import WireTables.Proofs.ArraySizes
import WireTables.Proofs.Memoization
import WireTables.Proofs.Normal.PlainTail
import WireTables.Proofs.NullTails
import WireTables.Proofs.BackReferences
import WireTables.Proofs.ConstantNames
import WireTables.Proofs.Wire.Forward
import WireTables.Proofs.Wire.Regions
import WireTables.Proofs.Normal.Heads
import WireTables.Proofs.Commands
import WireTables.Proofs.Handles
import WireTables.Proofs.DataFields
import WireTables.Proofs.FieldNames
import WireTables.Proofs.Text.Search
import WireTables.Proofs.Qualifiers
import WireTables.Proofs.BitConstants
import WireTables.Proofs.Text.Blank
import WireTables.Proofs.DomainText
import WireTables.Proofs.FieldCells
import WireTables.Proofs.Templates
import WireTables.Proofs.RowLinks
import WireTables.Proofs.Wiring
