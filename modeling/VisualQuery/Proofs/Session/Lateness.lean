import VisualQuery.Proofs.Compiler.Results
import VisualQuery.Proofs.Session.Trace

/-!
# Late responses to counts and discoveries

A count batch carries the generation of its graph, and only starting the
session over raises it: a batch is refused exactly if that happened since.  An
edit that empties the graph in the hands of the caller does not count as
starting over, so counts asked for the old graph go to the nodes that bear the
same numbers in the new one.  A discovery carries the number of its node and
nothing else, so its response goes to whichever node bears that number now.
-/

namespace VisualQuery
namespace Session

variable {session : Session}

/-! ## Counts -/

theorem generation_of_beginCounts
    {batch : CountBatch}
    (begun : session.beginCounts = .ok batch) :
    batch.generation = session.generation := by
  unfold beginCounts at begun
  cases queries : session.context.countQueries with
  | error error => rw [queries] at begun; cases begun
  | ok found =>
      rw [queries] at begun
      injection begun with same
      rw [← same]

theorem completeCounts_current
    {batch : CountBatch}
    (current : batch.generation = session.generation)
    (outcome : Outcome) :
    Step.perform (completeCounts batch outcome) session =
      (.ok (), { session with graph := storeCounts batch.nodes outcome session.graph }) :=
  Step.perform_atomicUnit_ok (if_pos current)

theorem completeCounts_stale
    {batch : CountBatch}
    (stale : batch.generation ≠ session.generation)
    (outcome : Outcome) :
    Step.perform (completeCounts batch outcome) session =
      (.error (.staleResponse batch.generation), session) :=
  Step.perform_atomicUnit_error (if_neg stale)

/-- Whatever happened since a count batch was made, its response is refused, and
nothing changes, if the session was started over.  If it was not, the counts
are stored in the present graph, whatever became of the graph they were asked
for. -/
theorem completeCounts_refused_iff_restarted
    {batch : CountBatch}
    (begun : session.beginCounts = .ok batch)
    (calls : List SessionCall)
    (outcome : Outcome) :
    let later := SessionCall.run calls session
    Step.perform (completeCounts batch outcome) later =
      if ∃ call ∈ calls, call.restarts = true then
        (.error (.staleResponse batch.generation), later)
      else (.ok (), { later with graph := storeCounts batch.nodes outcome later.graph }) := by
  intro later
  have made := generation_of_beginCounts begun
  have raised : later.generation = session.generation + calls.countP SessionCall.restarts :=
    generation_run calls session
  split
  · rename_i restarted
    have positive : 0 < calls.countP SessionCall.restarts := List.countP_pos_iff.2 restarted
    exact completeCounts_stale (by omega) outcome
  · rename_i steady
    have none : ¬ 0 < calls.countP SessionCall.restarts :=
      fun positive => steady (List.countP_pos_iff.1 positive)
    exact completeCounts_current (by omega) outcome

/-- A session that was started on accounts. -/
def accounts : Session := SessionCall.run [.start "Account"] (.new Compiler.namedLabels {})

/-- The caller resets the graph to movies. -/
def resetToMovies : SessionCall := .editGraph fun _ => (QueryGraph.reset "Movie").2

/-- A response with one count. -/
def sevenCounted : Outcome := .ok ⟨[⟨["count"], [⟨[.int 7], none⟩]⟩], []⟩

/-- The count of accounts becomes the count of movies. -/
theorem completeCounts_resetToMovies :
    ∃ batch,
      accounts.beginCounts = .ok batch ∧
        let movies := SessionCall.run [resetToMovies] accounts
        Step.perform (completeCounts batch sevenCounted) movies =
            (.ok (), { movies with graph := storeCounts batch.nodes sevenCounted movies.graph }) ∧
          (storeCounts batch.nodes sevenCounted movies.graph).nodes.map
            (fun node => (node.label, node.count)) = [("Movie", 7)] := by
  have counted : accounts.beginCounts.toOption.map CountBatch.nodes = some [⟨0⟩] := by
    decide +kernel
  have landed :
      (storeCounts [⟨0⟩] sevenCounted (SessionCall.run [resetToMovies] accounts).graph).nodes.map
        (fun node => (node.label, node.count)) = [("Movie", 7)] := by
    decide +kernel
  have steady : ¬ ∃ call ∈ [resetToMovies], call.restarts = true := by
    simp [resetToMovies, SessionCall.restarts]
  cases begun : accounts.beginCounts with
  | error error =>
      rw [begun] at counted
      cases counted
  | ok batch =>
      rw [begun] at counted
      have nodes : batch.nodes = [⟨0⟩] := Option.some.inj counted
      refine ⟨batch, rfl, ?_⟩
      intro movies
      constructor
      · exact (completeCounts_refused_iff_restarted begun [resetToMovies] sevenCounted).trans
          (if_neg steady)
      · rw [nodes]
        exact landed

/-! ## Discoveries -/

theorem node_of_beginRelations
    {id : NodeId}
    {request : RelationRequest}
    (begun : session.beginRelations id = .ok request) :
    request.node = id := by
  unfold beginRelations at begun
  cases query : session.context.relationQuery id with
  | error error => rw [query] at begun; cases begun
  | ok query =>
      rw [query] at begun
      injection begun with same
      rw [← same]

/-- No call changes which relationships of a response are kept. -/
theorem relationshipsOf_run
    (response : TransactionResponse)
    (calls : List SessionCall)
    (session : Session) :
    relationshipsOf response (SessionCall.run calls session) =
      relationshipsOf response session := by
  rw [relationshipsOf, relationshipsOf, metadata_run]

/-- The graph in which a node has the relationships of a response. -/
def withDiscovered
    (id : NodeId)
    (response : TransactionResponse)
    (session : Session) : QueryGraph :=
  session.graph.modifyNode id fun node =>
    { node with relationships := relationshipsOf response session }

/-- The response to a discovery changes the node with its number, if there is
one. -/
theorem graph_completeRelations_ok
    (request : RelationRequest)
    (response : TransactionResponse)
    (session : Session) :
    (Step.after (completeRelations request (.ok response)) session).graph =
      session.withDiscovered request.node response := by
  have answered : Step.perform (Step.inspect fun _ => answered (.ok response)) session =
      (.ok response, session) := Step.perform_inspect _ session
  rw [Step.after, completeRelations, Step.perform_bind_ok answered,
    Step.perform_bind_ok (Step.perform_state session)]
  cases found : session.graph.node request.node with
  | ok node =>
      have looked : Step.perform (inspectGraph (QueryGraph.node request.node)) session =
          (.ok node, session) := by rw [perform_inspectGraph, found]
      rw [Step.perform_bind_ok looked]
      rfl
  | error error =>
      have looked : Step.perform (inspectGraph (QueryGraph.node request.node)) session =
          (.error error, session) := by rw [perform_inspectGraph, found]
      rw [Step.perform_bind_error looked]
      refine (QueryGraph.modifyNode_eq_self_iff.2 ?_).symm
      intro node member named
      exact absurd named (QueryGraph.ne_of_node_error found member)

theorem after_completeRelations_error
    (request : RelationRequest)
    (failure : ExchangeFailure)
    (session : Session) :
    Step.after (completeRelations request (.error failure)) session = session := by
  have failed : Step.perform (Step.inspect fun _ => answered (.error failure)) session =
      (.error (.exchange failure), session) := Step.perform_inspect _ session
  rw [Step.after, completeRelations, Step.perform_bind_error failed]

/-- The graph stays if there is nothing to store, or nowhere, or nothing new. -/
theorem graph_completeRelations_eq_iff
    (request : RelationRequest)
    (outcome : Outcome)
    (session : Session) :
    (Step.after (completeRelations request outcome) session).graph = session.graph ↔
      ∀ response, outcome = .ok response →
        ∀ node ∈ session.graph.nodes, node.id = request.node →
          node.relationships = relationshipsOf response session := by
  cases outcome with
  | error failure => simp [after_completeRelations_error]
  | ok response =>
      rw [graph_completeRelations_ok, withDiscovered, QueryGraph.modifyNode_eq_self_iff]
      constructor
      · intro same other equal node member named
        cases equal
        exact (congrArg Node.relationships (same node member named)).symm
      · intro same node member named
        rw [← same response rfl node member named]

/-- Whatever happened since a discovery was made, and be it that the session was
started over, its response leaves the graph alone exactly if the exchange
failed, or if no node bears the number any more, or if the node has those
relationships already.  So a discovery for the root, if it found anything, changes every
graph that a start makes. -/
theorem completeRelations_unchanged_iff
    {id : NodeId}
    {request : RelationRequest}
    (begun : session.beginRelations id = .ok request)
    (calls : List SessionCall)
    (outcome : Outcome) :
    let later := SessionCall.run calls session
    ((Step.after (completeRelations request outcome) later).graph = later.graph ↔
        ∀ response, outcome = .ok response → ∀ node ∈ later.graph.nodes, node.id = id →
          node.relationships = relationshipsOf response session) ∧
      ∀ label response, outcome = .ok response → id = ⟨0⟩ →
        relationshipsOf response session ≠ [] →
          let restarted := SessionCall.run (calls ++ [.start label]) session
          (Step.after (completeRelations request outcome) restarted).graph ≠
            restarted.graph := by
  have named : request.node = id := node_of_beginRelations begun
  intro later
  constructor
  · rw [graph_completeRelations_eq_iff, named]
    simp only [later, relationshipsOf_run]
  · intro label response answered isRoot found restarted same
    have started : restarted = SessionCall.run [.start label] later :=
      SessionCall.run_append calls [.start label] session
    have member : QueryGraph.empty.freshRoot label ∈ restarted.graph.nodes := by
      rw [started]
      exact List.mem_singleton_self _
    have numbered : (QueryGraph.empty.freshRoot label).id = request.node := by
      rw [named, isRoot]
      rfl
    have kept := (graph_completeRelations_eq_iff request outcome restarted).1 same
      response answered (QueryGraph.empty.freshRoot label) member numbered
    rw [relationshipsOf_run] at kept
    exact found kept.symm

/-- A response with one relationship. -/
def contactsOwned : TransactionResponse :=
  ⟨[⟨["relationship", "label", "count"],
    [⟨[.string "OWNS", .string "Contact", .int 3], none⟩]⟩], []⟩

/-- What accounts own is found below movies. -/
theorem completeRelations_started :
    ∃ request,
      accounts.beginRelations ⟨0⟩ = .ok request ∧
        relationshipsOf contactsOwned accounts = [⟨"OWNS", "Contact", 3⟩] ∧
          let movies := SessionCall.run [.start "Movie"] accounts
          (Step.after (completeRelations request (.ok contactsOwned)) movies).graph ≠
            movies.graph := by
  have answered : (accounts.beginRelations ⟨0⟩).toOption.isSome = true := by decide +kernel
  have exists_request : ∃ request, accounts.beginRelations ⟨0⟩ = .ok request := by
    cases begun : accounts.beginRelations ⟨0⟩ with
    | ok request => exact ⟨request, rfl⟩
    | error error =>
        rw [begun] at answered
        cases answered
  have found : relationshipsOf contactsOwned accounts = [⟨"OWNS", "Contact", 3⟩] := rfl
  obtain ⟨request, begun⟩ := exists_request
  refine ⟨request, begun, found, ?_⟩
  have changes := (completeRelations_unchanged_iff begun [] (.ok contactsOwned)).2
  exact changes "Movie" contactsOwned rfl rfl (by simp [found])

end Session
end VisualQuery
