import VisualQuery.Proofs.Compiler.Results
import VisualQuery.Proofs.Graph.Invariance
import VisualQuery.Proofs.Graph.Loading
import VisualQuery.Proofs.Session.Trace

/-!
# Schemas that are rejected

A schema with a value on a group is rejected on the way.  What was built until
then is its loadable part, and it stays.  Only a graph that has nodes already is
left alone, since the root is refused before anything is done; loading into a
session clears the graph first, so there it is always replaced.
-/

namespace VisualQuery

open QueryGraph

/-- Without nodes nothing but the names handed out is left of a graph. -/
theorem QueryGraph.WellFormed.eq_of_nodes_eq_nil
    {graph : QueryGraph}
    (wellFormed : graph.WellFormed)
    (empty : graph.nodes = []) :
    graph = { names := graph.names } := by
  obtain ⟨nodes, links, nextId, names⟩ := graph
  have unlinked := wellFormed.links_eq_nil empty
  have unused := wellFormed.freshWhenEmpty empty
  simp only at empty unlinked unused
  subst empty unlinked unused
  rfl

/-- On a graph with nodes a schema is refused at its root. -/
theorem QueryGraph.addSchema_occupied
    {graph : QueryGraph}
    (occupied : graph.nodes ≠ [])
    (schema : NodeSchema) :
    Step.perform (addSchema schema) graph = (.error .rootAlreadyPresent, graph) := by
  have refusal : addRoot schema.label graph = .error .rootAlreadyPresent := by
    rw [addRoot, if_neg (by simpa using occupied)]
  rw [addSchema, Step.perform_bind_error (Step.perform_atomic_error refusal)]

namespace Session

/-- Loading gives up all requests and builds the schema on the empty graph,
whatever graph there was. -/
theorem perform_loadSchema
    (schema : NodeSchema)
    (session : Session) :
    Step.perform (loadSchema schema) session =
      ((Step.perform (addSchema schema) .empty).1,
        { session.abandonRequests with graph := (Step.perform (addSchema schema) .empty).2 }) := by
  rw [loadSchema, Step.perform_bind_ok (Step.perform_update _ session)]
  rfl

/-- A schema added to a graph is rejected if the graph has nodes, and then the
graph stays as it was; or if some group strictly below its root has a value, and
then its loadable part has been added.  A schema loaded into a session is
rejected in the second case only, and its loadable part has replaced the graph. -/
theorem rejected_schema_leaves_loadablePart
    (edits : List GraphEdit)
    (session : Session)
    (schema : NodeSchema) :
    let graph := GraphEdit.run edits .empty
    let rejection : QueryError := .invalidArgument .valueOwner
    (if graph.nodes ≠ [] then
        Step.perform (addSchema schema) graph = (.error .rootAlreadyPresent, graph)
      else if schema.Loadable then
        ∃ root after, Step.perform (addSchema schema) graph = (.ok root, after)
      else ∃ root part,
        Step.perform (addSchema schema) graph = (.error rejection, part) ∧
          Step.perform (addSchema schema.loadablePart) graph = (.ok root, part) ∧
          part.nodes ≠ graph.nodes) ∧
      if schema.Loadable then
        ∃ root after, Step.perform (loadSchema schema) session = (.ok root, after)
      else ∃ root part,
        Step.perform (loadSchema schema) session =
            (.error rejection, { session.abandonRequests with graph := part }) ∧
          Step.perform (addSchema schema.loadablePart) .empty = (.ok root, part) := by
  intro graph rejection
  have wellFormed : graph.WellFormed := GraphEdit.run_wellFormed edits
  constructor
  · split
    · rename_i occupied
      exact addSchema_occupied occupied schema
    · rename_i free
      have empty : graph.nodes = [] := by simpa using free
      rw [wellFormed.eq_of_nodes_eq_nil empty]
      split
      · rename_i loadable
        exact addSchema_accepted schema graph.names loadable
      · rename_i refused
        exact addSchema_cut schema graph.names refused
  · rw [perform_loadSchema]
    split
    · rename_i loadable
      obtain ⟨root, after, loaded⟩ := addSchema_accepted schema {} loadable
      exact ⟨root, _, by rw [QueryGraph.empty, loaded]⟩
    · rename_i refused
      obtain ⟨root, part, refusal, built, _⟩ := addSchema_cut schema {} refused
      exact ⟨root, part, by rw [QueryGraph.empty, refusal], built⟩

/-- An account in a team, the team a group with a value. -/
def valuedTeam : NodeSchema where
  label := "Account"
  rel := [("IN", { label := "Team", group := true, value := some [("name", .string "A")] })]

/-- The movie of the session is gone, and the team is there without its value. -/
theorem rejected_schema_leaves_team :
    let session := SessionCall.run [.start "Movie"] (.new Compiler.namedLabels {})
    session.graph.nodes.map Node.label = ["Movie"] ∧
      ∃ error after,
        Step.perform (loadSchema valuedTeam) session = (.error error, after) ∧
          after.graph.nodes.map (fun node => (node.label, node.kind)) =
            [("Account", .root), ("Team", .group)] := by
  intro session
  have refused : ¬ valuedTeam.Loadable := by decide
  have built : (Step.perform (addSchema valuedTeam.loadablePart) .empty).2.nodes.map
      (fun node => (node.label, node.kind)) = [("Account", .root), ("Team", .group)] := by
    decide +kernel
  have outcome := (rejected_schema_leaves_loadablePart [] session valuedTeam).2
  rw [if_neg refused] at outcome
  obtain ⟨root, part, refusal, partBuilt⟩ := outcome
  rw [partBuilt] at built
  exact ⟨rfl, _, _, refusal, built⟩

end Session
end VisualQuery
