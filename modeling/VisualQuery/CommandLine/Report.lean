import VisualQuery.CommandLine.Arguments
import VisualQuery.Session.Basic

/-!
# Reports

What a command finds out, before it is written: compiled statements, taxonomy
counts, and the metadata of labels.
-/

namespace VisualQuery
namespace CommandLine

/-- A statement with the node it is about. -/
structure CompiledQuery where
  /-- Variable of the node. -/
  node : String
  label : String
  statement : Statement

/-- What a command finds out. -/
inductive Report where
  | compiled (kind : QueryKind) (queries : List CompiledQuery)
  | taxonomy (queries : List CompiledQuery)
  | labels (labels : List ResolvedLabel)

/-- Why compiling ends without a report. -/
inductive CompileError where
  /-- No node has the variable. -/
  | unknownVariable (name : String)
  | query (error : QueryError)
deriving DecidableEq

/-- The node that a variable names, if the statement is about one node. -/
def targetOf (graph : QueryGraph) (kind : QueryKind) (node : Option String) :
    Except CompileError (Option NodeId) :=
  match node with
  | some name =>
    if kind.targetsNode then
      match graph.findByVariable? name with
      | some node => .ok (some node.id)
      | none => .error (.unknownVariable name)
    else .ok none
  | none => .ok none

/-- A statement described by its node. -/
def describe (graph : QueryGraph) (id : NodeId) (query : QueryStructure) :
    Except QueryError CompiledQuery := do
  let node ← graph.node id
  pure ⟨node.var, node.label, query.toStatement⟩

/-- The statements of one kind: about the target, about the root without one,
and for counts about all counted nodes without one. -/
def compileKind (session : Session) (kind : QueryKind) (target : Option NodeId) :
    Except QueryError (List CompiledQuery) := do
  let graph := session.graph
  let context := session.context
  let root ← graph.root
  let id := target.getD root.id
  match kind, target with
  | .result, _ => pure [← describe graph root.id (← context.resultQuery)]
  | .graph, _ => pure [← describe graph root.id (← context.graphQuery)]
  | .count, none =>
    let queries ← context.countQueries
    queries.mapM fun (id, query) => describe graph id query
  | .count, some id => pure [← describe graph id (← context.countQuery id)]
  | .values, _ => pure [← describe graph id (← context.valueQuery id)]
  | .relations, _ => pure [← describe graph id (← context.relationQuery id)]

/-- Compile the statements of a session. -/
def compile (session : Session) (kind : QueryKind) (node : Option String) :
    Except CompileError Report := do
  let target ← targetOf session.graph kind node
  let queries ← (compileKind session kind target).mapError CompileError.query
  pure (.compiled kind queries)

/-- The taxonomy counts of all searchable labels. -/
def taxonomyReport (registry : LabelRegistry) : Report :=
  let searchable := registry.labels.filter fun label => (registry.resolve label).searchable
  .taxonomy (searchable.map fun label =>
    ⟨"", label, (Compiler.taxonomyQuery registry.metadata label).toStatement⟩)

/-- The metadata of all labels. -/
def labelReport (registry : LabelRegistry) : Report :=
  .labels (LabelResolver.resolveAll { registry } registry.labels).1

end CommandLine
end VisualQuery
