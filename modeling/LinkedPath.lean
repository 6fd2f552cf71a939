import LinkedPath.CommandLine.Arguments
import LinkedPath.CommandLine.Folder
import LinkedPath.CommandLine.Run
import LinkedPath.Context.Basic
import LinkedPath.Context.Expander
import LinkedPath.Context.Keyword
import LinkedPath.Decimal.Binary
import LinkedPath.Decimal.Fixed
import LinkedPath.Decimal.Shortest
import LinkedPath.Fault
import LinkedPath.Json.Basic
import LinkedPath.Json.Number
import LinkedPath.Json.Pointer
import LinkedPath.Json.Reader
import LinkedPath.Json.Token
import LinkedPath.Json.Writer
import LinkedPath.Keyed
import LinkedPath.Main
import LinkedPath.Match.Content
import LinkedPath.Match.Search
import LinkedPath.Match.Selection
import LinkedPath.Proofs.CommandLine.Flags
import LinkedPath.Proofs.CommandLine.Output
import LinkedPath.Proofs.CommandLine.OwnContext
import LinkedPath.Proofs.Context.AliasOrder
import LinkedPath.Proofs.Context.Expansion
import LinkedPath.Proofs.Context.Spellings
import LinkedPath.Proofs.Json.FullNames
import LinkedPath.Proofs.Json.Layout
import LinkedPath.Proofs.Json.Members
import LinkedPath.Proofs.Json.Places
import LinkedPath.Proofs.Json.Reading
import LinkedPath.Proofs.Json.Replacement
import LinkedPath.Proofs.Keyed
import LinkedPath.Proofs.Match.Anchoring
import LinkedPath.Proofs.Match.Chaining
import LinkedPath.Proofs.Match.Denotation
import LinkedPath.Proofs.Match.Descent
import LinkedPath.Proofs.Match.Embedding
import LinkedPath.Proofs.Match.EnclosingType
import LinkedPath.Proofs.Match.FailureTable
import LinkedPath.Proofs.Match.Lines
import LinkedPath.Proofs.Match.LiteralKeys
import LinkedPath.Proofs.Match.Moments
import LinkedPath.Proofs.Match.Narrowing
import LinkedPath.Proofs.Match.Placement
import LinkedPath.Proofs.Match.Resolution
import LinkedPath.Proofs.Match.Spelling
import LinkedPath.Proofs.Match.Vacuity
import LinkedPath.Proofs.Query.Assembly
import LinkedPath.Proofs.Query.Brackets
import LinkedPath.Proofs.Query.Conservation
import LinkedPath.Proofs.Query.Extraction
import LinkedPath.Proofs.Query.FullNames
import LinkedPath.Proofs.Query.Groups
import LinkedPath.Proofs.Query.Printing
import LinkedPath.Proofs.Query.Productions
import LinkedPath.Proofs.Query.Readback
import LinkedPath.Proofs.Query.Records
import LinkedPath.Proofs.Query.Spacing
import LinkedPath.Proofs.Query.Trailing
import LinkedPath.Proofs.Session.Calls
import LinkedPath.Proofs.Session.Chaining
import LinkedPath.Proofs.Session.Effects
import LinkedPath.Proofs.Session.FirstAndAll
import LinkedPath.Proofs.Session.Isolation
import LinkedPath.Proofs.Session.Lineages
import LinkedPath.Proofs.Session.Origins
import LinkedPath.Proofs.Session.Outline
import LinkedPath.Proofs.Session.Trailing
import LinkedPath.Proofs.Session.Transparency
import LinkedPath.Proofs.Session.Upkeep
import LinkedPath.Proofs.Session.Uses
import LinkedPath.Proofs.Text.Blank
import LinkedPath.Proofs.Text.Collapse
import LinkedPath.Proofs.Text.Pattern
import LinkedPath.Proofs.Trace.Chains
import LinkedPath.Proofs.Trace.DocumentOrder
import LinkedPath.Proofs.Trace.Lines
import LinkedPath.Proofs.Trace.Parallel
import LinkedPath.Proofs.Trace.Pointers
import LinkedPath.Proofs.Trace.Spots
import LinkedPath.Proofs.Trace.Subdocument
import LinkedPath.Proofs.Trace.TopLevel
import LinkedPath.Proofs.Trace.WalkOrder
import LinkedPath.Query.Compiled
import LinkedPath.Query.Part
import LinkedPath.Query.Step
import LinkedPath.Session.Cache
import LinkedPath.Session.Command
import LinkedPath.Session.Compiler
import LinkedPath.Session.Workspace
import LinkedPath.Text.Affix
import LinkedPath.Text.Blank
import LinkedPath.Trace.Basic
import LinkedPath.Trace.Walk
