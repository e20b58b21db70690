import VisualQuery.Main
import VisualQuery.Exchange.GraphResult
import VisualQuery.FileTree
import VisualQuery.Metadata.QueryEdit
import VisualQuery.Session.Run
import VisualQuery.Proofs.KeyedList
import VisualQuery.Proofs.Metadata.Inheritance
import VisualQuery.Proofs.Metadata.Returned
import VisualQuery.Proofs.Metadata.Registration
import VisualQuery.Proofs.Metadata.Validation
import VisualQuery.Proofs.Graph.Edit
import VisualQuery.Proofs.Graph.Addition
import VisualQuery.Proofs.Graph.Cascade
import VisualQuery.Proofs.Graph.Extent
import VisualQuery.Proofs.Graph.Outcome
import VisualQuery.Proofs.Graph.WellFormed
import VisualQuery.Proofs.Graph.Invariance
import VisualQuery.Proofs.Graph.Naming
import VisualQuery.Proofs.Graph.History
import VisualQuery.Proofs.Graph.Drawing
import VisualQuery.Proofs.Graph.Acceptance
import VisualQuery.Proofs.Graph.Reading
import VisualQuery.Proofs.Graph.Loading
import VisualQuery.Proofs.Graph.Listings
import VisualQuery.Proofs.Graph.Unlisting
import VisualQuery.Proofs.Graph.Growth
import VisualQuery.Proofs.Graph.Moves
import VisualQuery.Proofs.Graph.Entrance
import VisualQuery.Proofs.Graph.Pruning
import VisualQuery.Proofs.Graph.Handling
import VisualQuery.Proofs.Graph.Leftovers
import VisualQuery.Proofs.Graph.Cutting
import VisualQuery.Proofs.Graph.Persistence
import VisualQuery.Proofs.Graph.Shedding
import VisualQuery.Proofs.Compiler.Climbing
import VisualQuery.Proofs.Compiler.Relevance
import VisualQuery.Proofs.Compiler.Connection
import VisualQuery.Proofs.Compiler.Picture
import VisualQuery.Proofs.Compiler.Elements
import VisualQuery.Proofs.Compiler.Selection
import VisualQuery.Proofs.Compiler.Results
import VisualQuery.Proofs.Compiler.OwnValue
import VisualQuery.Proofs.Compiler.Fragments
import VisualQuery.Proofs.Compiler.Parameters
import VisualQuery.Proofs.Compiler.Chain
import VisualQuery.Proofs.Compiler.Hygiene
import VisualQuery.Proofs.Compiler.Constraint
import VisualQuery.Proofs.Compiler.Scoping
import VisualQuery.Proofs.Compiler.StraightPath
import VisualQuery.Proofs.Compiler.Placement
import VisualQuery.Proofs.Compiler.Narrowing
import VisualQuery.Proofs.Compiler.Pinned
import VisualQuery.Proofs.Session.Call
import VisualQuery.Proofs.Session.Frame
import VisualQuery.Proofs.Session.Trace
import VisualQuery.Proofs.Session.Listing
import VisualQuery.Proofs.Session.Lateness
import VisualQuery.Proofs.Session.Drawing
import VisualQuery.Proofs.Session.Paging
import VisualQuery.Proofs.Session.Choice
import VisualQuery.Proofs.Session.Following
import VisualQuery.Proofs.Session.Handling
import VisualQuery.Proofs.Session.Rejection
import VisualQuery.Proofs.Session.Pinning
import VisualQuery.Proofs.Session.Unbinding
import VisualQuery.Proofs.Session.Collapsing
import VisualQuery.Proofs.Session.Refusal
import VisualQuery.Proofs.Session.Editing
import VisualQuery.Proofs.Session.Counting
import VisualQuery.Proofs.Session.Rounds
import VisualQuery.Proofs.Session.Selecting
import VisualQuery.Proofs.Session.Cascading
import VisualQuery.Proofs.Graph.Annexing
import VisualQuery.Proofs.Session.Keeping
import VisualQuery.Proofs.Session.Annexing
import VisualQuery.Proofs.Session.Expanding
import VisualQuery.Proofs.Session.Discovering
import VisualQuery.Proofs.Session.Undoing
import VisualQuery.Proofs.Cypher.Legibility
import VisualQuery.Proofs.Cypher.Splitting
import VisualQuery.Proofs.Exchange.FirstItems
import VisualQuery.Proofs.Compiler.Columns
import VisualQuery.Proofs.Json.Trees
import VisualQuery.Proofs.Number.Finite
import VisualQuery.Proofs.Json.Reading
import VisualQuery.Proofs.Json.Ranges
import VisualQuery.Proofs.Exchange.PlainValues
import VisualQuery.Proofs.Exchange.Payloads
import VisualQuery.Proofs.Cypher.Slicing
