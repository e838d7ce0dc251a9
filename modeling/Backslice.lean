import Backslice.Config.Yaml
import Backslice.Criterion.Yaml
import Backslice.Pipeline
import Backslice.Program.Document
import Backslice.Proofs.Arrival
import Backslice.Proofs.Links
import Backslice.Proofs.Memo
import Backslice.Proofs.Accounting
import Backslice.Proofs.Edges
import Backslice.Proofs.Continuations
import Backslice.Proofs.Groups
import Backslice.Proofs.Paths
import Backslice.Proofs.Merging
import Backslice.Proofs.Requests
import Backslice.Proofs.GroupPaths
import Backslice.Proofs.Optimizing
import Backslice.Proofs.Refreshing
import Backslice.Proofs.Increments
import Backslice.Proofs.Shape
import Backslice.Proofs.Enumeration
import Backslice.Proofs.Segments
import Backslice.Proofs.Definitions
import Backslice.Proofs.DeadCode
import Backslice.Proofs.Relevance
import Backslice.Proofs.Route
import Backslice.Proofs.Remerging
import Backslice.Proofs.Handovers
import Backslice.Proofs.Captures
import Backslice.Proofs.FoldedValues
import Backslice.Proofs.Literals
import Backslice.Proofs.Identity
import Backslice.Proofs.CodeFacts
import Backslice.Proofs.GraphFacts
import Backslice.Proofs.Duplicates
import Backslice.Proofs.SignatureForms
import Backslice.Proofs.Insertions
import Backslice.Proofs.PredicateText
import Backslice.Proofs.Containment
import Backslice.Proofs.Resolution
import Backslice.Proofs.BranchTable
