import DeclVisibility.CommandLine.Failure
import DeclVisibility.CommandLine.Invocation
import DeclVisibility.CommandLine.Job
import DeclVisibility.CommandLine.Machine
import DeclVisibility.CommandLine.Page
import DeclVisibility.CommandLine.Request
import DeclVisibility.CommandLine.Subcommand
import DeclVisibility.Decimal.Shortest
import DeclVisibility.Exchange.Document
import DeclVisibility.Exchange.Draft
import DeclVisibility.Fix.Basic
import DeclVisibility.Json.Cause
import DeclVisibility.Json.Number
import DeclVisibility.Json.Printer
import DeclVisibility.Json.Reader
import DeclVisibility.Json.Text
import DeclVisibility.Json.Value
import DeclVisibility.Kind.Element
import DeclVisibility.Kind.Token
import DeclVisibility.Main
import DeclVisibility.Origin
import DeclVisibility.Outline
import DeclVisibility.Package
import DeclVisibility.Proofs.CommandLine.Abreast
import DeclVisibility.Proofs.CommandLine.Alone
import DeclVisibility.Proofs.CommandLine.Batch
import DeclVisibility.Proofs.CommandLine.Files
import DeclVisibility.Proofs.CommandLine.InTurn
import DeclVisibility.Proofs.CommandLine.Jobs
import DeclVisibility.Proofs.CommandLine.Modes
import DeclVisibility.Proofs.CommandLine.Pending
import DeclVisibility.Proofs.CommandLine.Pieces
import DeclVisibility.Proofs.CommandLine.Rows
import DeclVisibility.Proofs.Exchange.Bulk
import DeclVisibility.Proofs.Exchange.Draft
import DeclVisibility.Proofs.Exchange.Loading
import DeclVisibility.Proofs.Fix.Anchor
import DeclVisibility.Proofs.Fix.Foremost
import DeclVisibility.Proofs.Fix.Frame
import DeclVisibility.Proofs.Fix.Insertion
import DeclVisibility.Proofs.Fix.Keeps
import DeclVisibility.Proofs.Fix.Offer
import DeclVisibility.Proofs.Fix.Placement
import DeclVisibility.Proofs.Fix.Places
import DeclVisibility.Proofs.Fix.Published
import DeclVisibility.Proofs.Fix.Room
import DeclVisibility.Proofs.Fix.Safety
import DeclVisibility.Proofs.Fix.Starts
import DeclVisibility.Proofs.Json.Bulk
import DeclVisibility.Proofs.Json.Bytes
import DeclVisibility.Proofs.Json.Depth
import DeclVisibility.Proofs.Json.Text
import DeclVisibility.Proofs.Json.Value
import DeclVisibility.Proofs.Outcome
import DeclVisibility.Proofs.Outline.Enclosure
import DeclVisibility.Proofs.Outline.Listing
import DeclVisibility.Proofs.Outline.Mirror
import DeclVisibility.Proofs.Outline.Paths
import DeclVisibility.Proofs.Outline.Symbols
import DeclVisibility.Proofs.Outline.Written
import DeclVisibility.Proofs.Package.History
import DeclVisibility.Proofs.Package.Lookup
import DeclVisibility.Proofs.Reports
import DeclVisibility.Proofs.Service.Addressing
import DeclVisibility.Proofs.Service.Belonging
import DeclVisibility.Proofs.Service.Descents
import DeclVisibility.Proofs.Service.Documents
import DeclVisibility.Proofs.Service.Dumps
import DeclVisibility.Proofs.Service.EditLog
import DeclVisibility.Proofs.Service.Isolation
import DeclVisibility.Proofs.Service.Limit
import DeclVisibility.Proofs.Service.Naming
import DeclVisibility.Proofs.Service.Offers
import DeclVisibility.Proofs.Service.Offsets
import DeclVisibility.Proofs.Service.Order
import DeclVisibility.Proofs.Service.Outlines
import DeclVisibility.Proofs.Service.Publishing
import DeclVisibility.Proofs.Service.Relisting
import DeclVisibility.Proofs.Service.Rendering
import DeclVisibility.Proofs.Service.Reopening
import DeclVisibility.Proofs.Service.Room
import DeclVisibility.Proofs.Service.RoundTrip
import DeclVisibility.Proofs.Service.Runs
import DeclVisibility.Proofs.Service.Safety
import DeclVisibility.Proofs.Service.Search
import DeclVisibility.Proofs.Service.Sight
import DeclVisibility.Proofs.Service.Single
import DeclVisibility.Proofs.Service.Trivia
import DeclVisibility.Proofs.Service.Versions
import DeclVisibility.Proofs.Text.Comparison
import DeclVisibility.Proofs.Text.Lines
import DeclVisibility.Proofs.Text.Position
import DeclVisibility.Proofs.Text.Quoted
import DeclVisibility.Proofs.Text.Sums
import DeclVisibility.Proofs.Tree.Bare
import DeclVisibility.Proofs.Tree.Building
import DeclVisibility.Proofs.Tree.Cycles
import DeclVisibility.Proofs.Tree.Drafts
import DeclVisibility.Proofs.Tree.Growth
import DeclVisibility.Proofs.Tree.Lasting
import DeclVisibility.Proofs.Tree.Links
import DeclVisibility.Proofs.Tree.Looks
import DeclVisibility.Proofs.Tree.Makeup
import DeclVisibility.Proofs.Tree.Matching
import DeclVisibility.Proofs.Tree.Nesting
import DeclVisibility.Proofs.Tree.Order
import DeclVisibility.Proofs.Tree.Planting
import DeclVisibility.Proofs.Tree.Preorder
import DeclVisibility.Proofs.Tree.Reading
import DeclVisibility.Proofs.Tree.Rows
import DeclVisibility.Proofs.Tree.Shown
import DeclVisibility.Proofs.Tree.Siblings
import DeclVisibility.Proofs.Tree.Sideways
import DeclVisibility.Proofs.Tree.Soundness
import DeclVisibility.Proofs.Tree.Tops
import DeclVisibility.Proofs.Tree.Walk
import DeclVisibility.Proofs.Tree.Words
import DeclVisibility.Proofs.Visibility
import DeclVisibility.Proofs.Visibility.Forms
import DeclVisibility.Report
import DeclVisibility.Service.Basic
import DeclVisibility.Service.Session
import DeclVisibility.Service.Single
import DeclVisibility.Symbol
import DeclVisibility.Table
import DeclVisibility.Text.Bounded
import DeclVisibility.Text.Position
import DeclVisibility.Text.Quoted
import DeclVisibility.Tree.Basic
import DeclVisibility.Tree.Builder
import DeclVisibility.Tree.Draft
import DeclVisibility.Tree.Forest
import DeclVisibility.Tree.Node
import DeclVisibility.Tree.Subtree
import DeclVisibility.Visibility
