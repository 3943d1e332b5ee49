import Lineage.Main
import Lineage.Proofs.Ordered.FirstOccurrences
import Lineage.Proofs.Ordered.Gather
import Lineage.Proofs.Merging.Plan
import Lineage.Proofs.Resolution.Shape
import Lineage.Proofs.Resolution.Binding
import Lineage.Proofs.Merging.Fold
import Lineage.Proofs.Merging.Renaming
import Lineage.Proofs.Merging.Survivors
import Lineage.Proofs.Assembly.Placement
import Lineage.Proofs.TypeTable.Growth
import Lineage.Proofs.Merging.Table
import Lineage.Proofs.Merging.Removal
import Lineage.Proofs.Merging.Deletion
import Lineage.Proofs.Merging.Members
import Lineage.Proofs.Merging.Sharing
import Lineage.Proofs.Merging.Union
import Lineage.Proofs.Document.Faithful
import Lineage.Proofs.Dump.View
import Lineage.Proofs.Record.Sources
import Lineage.Proofs.Record.Parallel
import Lineage.Proofs.TypeTable.Runs
import Lineage.Proofs.Dump.Walk
import Lineage.Proofs.Record.Confined
import Lineage.Proofs.TypeTable.Refusal
import Lineage.Proofs.Recovery.Bodies
import Lineage.Proofs.Recovery.Outcome
import Lineage.Proofs.Recovery.Faults
import Lineage.Proofs.Recovery.Schedule
import Lineage.Proofs.Symbol.Shift
import Lineage.Proofs.Assembly.Frame
import Lineage.Proofs.Assembly.Shift
import Lineage.Proofs.Recovery.ImageBase
import Lineage.Proofs.Assembly.Fallback
import Lineage.Proofs.Recovery.Publics
import Lineage.Proofs.Command.Settlement
import Lineage.Proofs.Command.Delivery
import Lineage.Proofs.Json.RoundTrip
import Lineage.Proofs.Document.RoundTrip
import Lineage.Proofs.Relabel.Containers
import Lineage.Proofs.Relabel.Table
import Lineage.Proofs.Relabel.Resolution
import Lineage.Proofs.Relabel.Merging
import Lineage.Proofs.Relabel.Hierarchy
import Lineage.Proofs.Relabel.Recovery
import Lineage.Proofs.Text.Clear
import Lineage.Proofs.Text.Trimming
import Lineage.Proofs.Text.Run
import Lineage.Proofs.Text.Hexadecimal
import Lineage.Proofs.Text.HexSpelling
import Lineage.Proofs.Text.Leftmost
import Lineage.Proofs.Text.Pattern
import Lineage.Proofs.Dump.Values
import Lineage.Proofs.Record.Listing
import Lineage.Proofs.Record.ReadBack
import Lineage.Proofs.TypeTable.Listing
import Lineage.Proofs.Merging.Idempotence
import Lineage.Proofs.Hierarchy.Chains
import Lineage.Proofs.Hierarchy.Walk
import Lineage.Proofs.Hierarchy.Figures
import Lineage.Proofs.Symbol.PublicIndex
import Lineage.Proofs.Assembly.Ambiguity
import Lineage.Proofs.QualifiedName.Balanced
import Lineage.Proofs.QualifiedName.Components
import Lineage.Proofs.QualifiedName.Stripping
import Lineage.Proofs.Symbol.Procedures
import Lineage.Proofs.Record.WrappedNames
import Lineage.Proofs.Record.WrappedMembers
import Lineage.Proofs.Record.TrailingSpace
import Lineage.Proofs.Symbol.Mangled
import Lineage.Proofs.Symbol.Line
import Lineage.Proofs.Symbol.Pattern
import Lineage.Proofs.Image.Listing
