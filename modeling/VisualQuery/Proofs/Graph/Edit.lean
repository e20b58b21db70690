import VisualQuery.Graph.Schema
import VisualQuery.Proofs.Step

/-!
# Edits of a query graph

Everything a caller may do to a graph, as data, and what a sequence of edits
makes of it.  A refused edit leaves the graph as it was, except that a schema
keeps what was built before the refusal.
-/

namespace VisualQuery

/-- What callers note on a node: answers of the database and the state of the
display. -/
structure NodeNotes where
  count : Nat
  data : List Row
  page : Nat
  valueExpanded : Bool
  relationships : List Relationship

namespace Node

/-- The notes on a node. -/
def notes (node : Node) : NodeNotes :=
  ⟨node.count, node.data, node.page, node.valueExpanded, node.relationships⟩

/-- Replace the notes on a node. -/
def withNotes (notes : NodeNotes) (node : Node) : Node :=
  { node with
    count := notes.count, data := notes.data, page := notes.page,
    valueExpanded := notes.valueExpanded, relationships := notes.relationships }

end Node

/-- One edit of a graph. -/
inductive GraphEdit where
  | addRoot (label : String)
  | reset (label : String)
  | clear
  | generateVariable (label : String)
  | addNode (parent : NodeId) (label : String) (isGroup : Bool)
  | addRelationship (parent : NodeId) (relationship label : String) (isGroup : Bool)
  | addValue (parent : NodeId) (attributes : Row)
  | addLink (source target : NodeId) (kind : LinkKind) (label : Option String)
  | removeNode (node : NodeId)
  | removeLink (link : LinkId)
  | removeValues (node : NodeId)
  | bindValue (node value : NodeId)
  | clearValue (node : NodeId)
  | setImmutable (node : NodeId) (immutable : Bool)
  | addSchema (schema : NodeSchema)
  | note (node : NodeId) (change : NodeNotes → NodeNotes)

namespace GraphEdit

/-- The graph after an edit, refused or not. -/
def apply : GraphEdit → QueryGraph → QueryGraph
  | .addRoot label => Step.after (Step.atomic (QueryGraph.addRoot label))
  | .reset label => fun _ => (QueryGraph.reset label).2
  | .clear => fun _ => .empty
  | .generateVariable label => fun graph => (graph.generateVariable label).2
  | .addNode parent label isGroup =>
    Step.after (Step.atomic (QueryGraph.addNode parent label isGroup))
  | .addRelationship parent relationship label isGroup =>
    Step.after (Step.atomic (QueryGraph.addRelationship parent relationship label isGroup))
  | .addValue parent attributes =>
    Step.after (Step.atomic (QueryGraph.addValue parent attributes))
  | .addLink source target kind label =>
    Step.after (Step.atomic (QueryGraph.addLink source target kind label))
  | .removeNode node => Step.after (Step.atomicUnit (QueryGraph.removeNode node))
  | .removeLink link => Step.after (Step.atomicUnit (QueryGraph.removeLink link))
  | .removeValues node => Step.after (Step.atomic (QueryGraph.removeValues node))
  | .bindValue node value => Step.after (Step.atomicUnit (QueryGraph.bindValue node value))
  | .clearValue node => Step.after (Step.atomic (QueryGraph.clearValue node))
  | .setImmutable node immutable =>
    Step.after (Step.atomicUnit (QueryGraph.setImmutable node immutable))
  | .addSchema schema => Step.after (QueryGraph.addSchema schema)
  | .note node change => fun graph =>
    graph.modifyNode node fun node => node.withNotes (change node.notes)

/-- The graph after a sequence of edits. -/
def run (edits : List GraphEdit) (graph : QueryGraph) : QueryGraph :=
  edits.foldl (fun graph edit => edit.apply graph) graph

theorem run_append
    (first second : List GraphEdit)
    (graph : QueryGraph) :
    run (first ++ second) graph = run second (run first graph) :=
  List.foldl_append

/-- A property kept by every edit is kept by every sequence of edits. -/
theorem run_keeps
    {property : QueryGraph → Prop}
    (step : ∀ (edit : GraphEdit) (graph : QueryGraph),
      property graph → property (edit.apply graph))
    (edits : List GraphEdit)
    {graph : QueryGraph}
    (holds : property graph) :
    property (run edits graph) := by
  induction edits generalizing graph with
  | nil => exact holds
  | cons edit edits inductionHypothesis =>
      exact inductionHypothesis (step edit graph holds)

end GraphEdit
end VisualQuery
