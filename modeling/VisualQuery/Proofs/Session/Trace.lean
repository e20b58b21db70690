import VisualQuery.Proofs.Session.Frame

/-!
# What calls do to a session

The books of a session are its flag, the pending token, the last token and the
generation.  Only four things touch them: starting over, issuing a request for
values, and taking or refusing the response to one.  A trace records these as
events; every sequence of calls has a trace, so what a session is after any
sequence of calls is read off the ways in which a trace can grow.
-/

namespace VisualQuery

/-- What happened to the listings of a session. -/
inductive ListingEvent where
  /-- A request for values was handed out. -/
  | issued (request : ValueRequest)
  /-- The response to a request was handed in, and answered. -/
  | completed (request : ValueRequest) (answer : Except QueryError (List NodeId))
  /-- The graph was started over. -/
  | restarted

/-- Whether an event is a restart. -/
def ListingEvent.isRestart : ListingEvent → Bool
  | .restarted => true
  | .issued _ | .completed _ _ => false

namespace Session

/-! ## Requests for values -/

@[simp] theorem perform_inspectGraph
    {α : Type}
    (look : QueryGraph → Except QueryError α)
    (session : Session) :
    Step.perform (inspectGraph look) session = (look session.graph, session) :=
  Step.perform_inspect (fun session : Session => look session.graph) session

/-- A response to another request than the pending one is refused. -/
theorem completeValues_stale
    {session : Session}
    {request : ValueRequest}
    (stale : session.pendingValue ≠ some request.token)
    (outcome : Outcome) :
    Step.perform (completeValues request outcome) session =
      (.error (.staleResponse request.token), session) :=
  Step.perform_bind_error (Step.perform_atomicUnit_error (if_neg stale))

/-- What the response to the pending request does to the graph. -/
def showRows (request : ValueRequest) (outcome : Outcome) : Step Session (List NodeId) := do
  let response ← Step.inspect fun _ => answered outcome
  let _ ← inspectGraph (QueryGraph.node request.node)
  modifyNode request.node fun node => { node with data := response.firstRows, page := 1 }
  showPage request.node

theorem graphOnly_showRows (request : ValueRequest) (outcome : Outcome) :
    GraphOnly (showRows request outcome) := by
  refine (GraphOnly.inspect fun _ => neverStale_answered outcome).bind fun response => ?_
  refine (GraphOnly.node request.node).bind fun _ => ?_
  exact (GraphOnly.modifyNode request.node _).bind fun _ => graphOnly_showPage request.node

/-- The response to the pending request is taken, and the session is free. -/
theorem completeValues_pending
    {session : Session}
    {request : ValueRequest}
    (pending : session.pendingValue = some request.token)
    (outcome : Outcome) :
    ∃ answer graph,
      Step.perform (completeValues request outcome) session =
          (answer, { session with graph, waiting := false, pendingValue := none }) ∧
        NeverStale answer := by
  have settled : Step.perform (completeValues request outcome) session =
      Step.perform (showRows request outcome)
        { session with waiting := false, pendingValue := none } :=
    Step.perform_bind_ok (Step.perform_atomicUnit_ok (if_pos pending))
  rw [settled]
  exact graphOnly_showRows request outcome _

/-- What is done to issue a request once nothing stands in its way. -/
def askForValues (id : NodeId) : Step Session (Option ValueRequest) := do
  collapseAll
  let query ← Step.inspect fun session => session.context.valueQuery id
  let request ← issueValueRequest id query
  pure (some request)

/-- Before a listing begins its node is looked up, and must list values. -/
theorem perform_beginValues (id : NodeId) (session : Session) :
    (∃ error, Step.perform (beginValues id) session = (.error error, session) ∧
      ∀ node, session.graph.node id = .ok node → node.kind.listsValues = false) ∨
      ∃ node, session.graph.node id = .ok node ∧ node.kind.listsValues = true ∧
        Step.perform (beginValues id) session =
          if session.waiting || node.immutable then (.ok none, session)
          else Step.perform (askForValues id) session := by
  rw [beginValues, Step.perform_bind, perform_inspectGraph]
  cases session.graph.node id with
  | error error => exact Or.inl ⟨error, rfl, by simp⟩
  | ok node =>
      cases lists : node.kind.listsValues with
      | false => exact Or.inl ⟨.invalidArgument .notListable, by simp [lists], by simp [lists]⟩
      | true =>
          refine Or.inr ⟨node, rfl, lists, ?_⟩
          simp only [lists, Bool.not_true, Bool.false_eq_true, if_false]
          rw [Step.perform_bind_ok (Step.perform_state session)]
          split <;> rfl

/-- While a listing is under way no other one begins, and nothing changes. -/
theorem beginValues_waiting
    {session : Session}
    (waiting : session.waiting = true)
    (id : NodeId) :
    ∃ outcome, Step.perform (beginValues id) session = (outcome, session) ∧
      ∀ request, outcome ≠ .ok (some request) := by
  rcases perform_beginValues id session with ⟨error, refused, _⟩ | ⟨node, _, _, passed⟩
  · exact ⟨.error error, refused, by simp⟩
  · exact ⟨.ok none, by rw [passed, waiting, Bool.true_or, if_pos rfl], by simp⟩

/-- A listing begins only in a free session: then its request carries the next
token and the session waits for it.  Otherwise only the graph changes. -/
theorem beginValues_cases (id : NodeId) (session : Session) :
    (∃ outcome graph,
        Step.perform (beginValues id) session = (outcome, { session with graph }) ∧
          ∀ request, outcome ≠ .ok (some request)) ∨
      ∃ request graph,
        Step.perform (beginValues id) session =
            (.ok (some request),
              { session with
                graph, waiting := true, pendingValue := some request.token
                lastToken := request.token }) ∧
          session.waiting = false ∧ request.token = session.lastToken + 1 := by
  rcases perform_beginValues id session with ⟨error, refused, _⟩ | ⟨node, _, _, passed⟩
  · exact Or.inl ⟨.error error, session.graph, refused, by simp⟩
  · rw [passed]
    split
    · exact Or.inl ⟨.ok none, session.graph, rfl, by simp⟩
    · rename_i free
      simp only [Bool.or_eq_true, not_or, Bool.not_eq_true] at free
      obtain ⟨outcome, graph, collapsed, -⟩ := graphOnly_collapseAll session
      rw [askForValues, Step.perform_bind, collapsed]
      cases outcome with
      | error error => exact Or.inl ⟨.error error, graph, rfl, by simp⟩
      | ok _ =>
          simp only [Step.perform_bind, Step.perform_inspect]
          cases ({ session with graph } : Session).context.valueQuery id with
          | error error => exact Or.inl ⟨.error error, graph, rfl, by simp⟩
          | ok query =>
              exact Or.inr ⟨_, graph, rfl, free.1, rfl⟩

/-- A request is for the node that it was begun for. -/
theorem node_of_beginValues
    {id : NodeId}
    {session reached : Session}
    {request : ValueRequest}
    (begun : Step.perform (beginValues id) session = (.ok (some request), reached)) :
    request.node = id := by
  rcases perform_beginValues id session with ⟨error, refused, _⟩ | ⟨node, _, _, passed⟩
  · rw [refused] at begun
    cases begun
  · rw [passed] at begun
    split at begun
    · cases begun
    · obtain ⟨_, _, _, asked⟩ := Step.perform_bind_eq_ok begun
      obtain ⟨query, _, _, issued⟩ := Step.perform_bind_eq_ok asked
      cases issued
      rfl

end Session

namespace SessionCall

/-- What a call records. -/
def events : SessionCall → Session → List ListingEvent
  | .start _, _ | .loadSchema _, _ => [.restarted]
  | .beginValues id, session =>
    match (Step.perform (Session.beginValues id) session).1 with
    | .ok (some request) => [.issued request]
    | _ => []
  | .completeValues request outcome, session =>
    [.completed request (Step.perform (Session.completeValues request outcome) session).1]
  | .runValues id post, session =>
    match Step.perform (Session.beginValues id) session with
    | (.ok (some request), reached) =>
      [.issued request,
        .completed request
          (Step.perform (Session.completeValues request (post request.request)) reached).1]
    | _ => []
  | _, _ => []

/-- What a sequence of calls records. -/
def log : List SessionCall → Session → List ListingEvent
  | [], _ => []
  | call :: calls, session => call.events session ++ log calls (call.apply session)

end SessionCall

namespace Session

/-! ## Traces -/

/-- The ways in which a session moves on from a first one, with what is
recorded on the way. -/
inductive Traced (first : Session) : List ListingEvent → Session → Prop
  | here : Traced first [] first
  | changed
      {log : List ListingEvent}
      {session : Session}
      (traced : Traced first log session)
      (graph : QueryGraph) :
      Traced first log { session with graph }
  | restarted
      {log : List ListingEvent}
      {session : Session}
      (traced : Traced first log session)
      (graph : QueryGraph) :
      Traced first (log ++ [.restarted]) { session.abandonRequests with graph }
  | issued
      {log : List ListingEvent}
      {session : Session}
      {request : ValueRequest}
      (traced : Traced first log session)
      (graph : QueryGraph)
      (free : session.waiting = false)
      (next : request.token = session.lastToken + 1) :
      Traced first (log ++ [.issued request])
        { session with
          graph, waiting := true, pendingValue := some request.token
          lastToken := request.token }
  | taken
      {log : List ListingEvent}
      {session : Session}
      {request : ValueRequest}
      {answer : Except QueryError (List NodeId)}
      (traced : Traced first log session)
      (graph : QueryGraph)
      (pending : session.pendingValue = some request.token)
      (notStale : NeverStale answer) :
      Traced first (log ++ [.completed request answer])
        { session with graph, waiting := false, pendingValue := none }
  | refused
      {log : List ListingEvent}
      {session : Session}
      {request : ValueRequest}
      (traced : Traced first log session)
      (stale : session.pendingValue ≠ some request.token) :
      Traced first (log ++ [.completed request (.error (.staleResponse request.token))]) session

variable
  {first session : Session}
  {log : List ListingEvent}

namespace Traced

/-- A step that keeps to the graph records nothing. -/
theorem graphOnly
    {α : Type}
    {step : Step Session α}
    (traced : Traced first log session)
    (only : GraphOnly step) :
    Traced first log (Step.after step session) := by
  obtain ⟨outcome, graph, performed, -⟩ := only session
  rw [Step.after, performed]
  exact traced.changed graph

theorem completeCounts
    (traced : Traced first log session)
    (batch : CountBatch)
    (outcome : Outcome) :
    Traced first log (Step.after (Session.completeCounts batch outcome) session) := by
  refine Step.atomicUnit_property traced ?_
  intro reached accepted
  split at accepted
  · injection accepted with same
    rw [← same]
    exact traced.changed _
  · cases accepted

theorem completeValues
    (traced : Traced first log session)
    (request : ValueRequest)
    (outcome : Outcome) :
    Traced first
      (log ++
        [.completed request (Step.perform (Session.completeValues request outcome) session).1])
      (Step.after (Session.completeValues request outcome) session) := by
  rw [Step.after]
  by_cases pending : session.pendingValue = some request.token
  · obtain ⟨answer, graph, performed, notStale⟩ := completeValues_pending pending outcome
    rw [performed]
    exact traced.taken graph pending notStale
  · rw [completeValues_stale pending outcome]
    exact traced.refused pending

theorem beginValues
    (traced : Traced first log session)
    (id : NodeId) :
    Traced first (log ++ (SessionCall.beginValues id).events session)
      (Step.after (Session.beginValues id) session) := by
  rw [Step.after, SessionCall.events]
  rcases beginValues_cases id session with
    ⟨outcome, graph, performed, noRequest⟩ | ⟨request, graph, performed, free, next⟩
  · rw [performed]
    split
    · rename_i request issued
      exact absurd issued (noRequest request)
    · rw [List.append_nil]
      exact traced.changed graph
  · rw [performed]
    exact traced.issued graph free next

theorem loadSchema
    (traced : Traced first log session)
    (schema : NodeSchema) :
    Traced first (log ++ [.restarted]) (Step.after (Session.loadSchema schema) session) := by
  rw [Step.after, Session.loadSchema, Step.perform_bind_ok (Step.perform_update _ session)]
  exact traced.restarted _

theorem runCounts
    (traced : Traced first log session)
    (post : TransactionRequest → Outcome) :
    Traced first log (Id.run (Session.runCounts post session)).2 := by
  unfold Session.runCounts
  cases session.beginCounts with
  | error error => exact traced
  | ok batch => exact traced.completeCounts batch (post batch.request)

theorem runRelations
    (traced : Traced first log session)
    (id : NodeId)
    (post : TransactionRequest → Outcome) :
    Traced first log (Id.run (Session.runRelations id post session)).2 := by
  unfold Session.runRelations
  cases session.beginRelations id with
  | error error => exact traced
  | ok request =>
      exact traced.graphOnly (graphOnly_completeRelations request (post request.request))

theorem runAutoExpand
    (traced : Traced first log session)
    (id : NodeId)
    (post : TransactionRequest → Outcome) :
    Traced first log (Id.run (Session.runAutoExpand id post session)).2 := by
  have discovered := traced.runRelations id post
  unfold Session.runAutoExpand
  cases session.graph.node id with
  | error error => exact traced
  | ok node =>
      by_cases asked : (session.metadata.resolve node.label).autoExpandRelations = true
      · simp only [asked, if_true, Id.run_bind]
        rcases found : Id.run (Session.runRelations id post session) with ⟨outcome, reached⟩
        rw [found] at discovered
        cases outcome with
        | error error => exact discovered
        | ok relationships => exact discovered.graphOnly (graphOnly_expandRelationships id)
      · simp only [asked]
        exact traced

theorem runValues
    (traced : Traced first log session)
    (id : NodeId)
    (post : TransactionRequest → Outcome) :
    Traced first (log ++ (SessionCall.runValues id post).events session)
      (Id.run (Session.runValues id post session)).2 := by
  have begun := traced.beginValues id
  unfold Session.runValues
  rw [Step.after, SessionCall.events] at begun
  rw [SessionCall.events]
  rcases performed : Step.perform (Session.beginValues id) session with
    ⟨_ | _ | request, reached⟩ <;> rw [performed] at begun
  · exact begun
  · exact begun
  · have completed := begun.completeValues request (post request.request)
    rw [List.append_assoc] at completed
    exact completed

theorem silent (traced : Traced first log session) : Traced first (log ++ []) session := by
  rw [List.append_nil]
  exact traced

/-- Every call moves a session on in one of these ways. -/
theorem apply
    (traced : Traced first log session)
    (call : SessionCall) :
    Traced first (log ++ call.events session) (call.apply session) := by
  cases call with
  | start label => exact traced.restarted _
  | loadSchema schema => exact traced.loadSchema schema
  | editGraph edit => exact (traced.changed (edit session.graph)).silent
  | completeCounts batch outcome => exact (traced.completeCounts batch outcome).silent
  | beginValues id => exact traced.beginValues id
  | completeValues request outcome => exact traced.completeValues request outcome
  | nextPage id => exact (traced.graphOnly (graphOnly_nextPage id)).silent
  | selectValue value => exact (traced.graphOnly (graphOnly_selectValue value)).silent
  | clearSelection id => exact (traced.graphOnly (graphOnly_clearSelection id)).silent
  | collapseNode id => exact (traced.graphOnly (graphOnly_collapseNode id)).silent
  | completeRelations request outcome =>
      exact (traced.graphOnly (graphOnly_completeRelations request outcome)).silent
  | expandRelationship id relationship =>
      exact (traced.graphOnly (graphOnly_expandRelationship id relationship)).silent
  | expandRelationships id =>
      exact (traced.graphOnly (graphOnly_expandRelationships id)).silent
  | collapseRelationships id =>
      exact (traced.graphOnly (graphOnly_collapseRelationships id)).silent
  | runCounts post => exact (traced.runCounts post).silent
  | runValues id post => exact traced.runValues id post
  | runRelations id post => exact (traced.runRelations id post).silent
  | runAutoExpand id post => exact (traced.runAutoExpand id post).silent

theorem run
    (traced : Traced first log session)
    (calls : List SessionCall) :
    Traced first (log ++ SessionCall.log calls session) (SessionCall.run calls session) := by
  induction calls generalizing log session with
  | nil => exact traced.silent
  | cons call calls inductionHypothesis =>
      have later := inductionHypothesis (traced.apply call)
      rw [List.append_assoc] at later
      exact later

end Traced

/-- Every sequence of calls has a trace. -/
theorem traced_run (calls : List SessionCall) (session : Session) :
    Traced session (SessionCall.log calls session) (SessionCall.run calls session) :=
  Traced.here.run calls

/-! ## What never changes, and what counts restarts -/

/-- Labels and options stay those of the first session. -/
theorem Traced.settings_eq
    (traced : Traced first log session) :
    session.metadata = first.metadata ∧ session.options = first.options := by
  induction traced with
  | here => exact ⟨rfl, rfl⟩
  | changed _ _ inductionHypothesis => exact inductionHypothesis
  | restarted _ _ inductionHypothesis => exact inductionHypothesis
  | issued _ _ _ _ inductionHypothesis => exact inductionHypothesis
  | taken _ _ _ _ inductionHypothesis => exact inductionHypothesis
  | refused _ _ inductionHypothesis => exact inductionHypothesis

theorem metadata_run (calls : List SessionCall) (session : Session) :
    (SessionCall.run calls session).metadata = session.metadata :=
  (traced_run calls session).settings_eq.1

/-- The generation counts the restarts. -/
theorem Traced.generation_eq
    (traced : Traced first log session) :
    session.generation = first.generation + log.countP ListingEvent.isRestart := by
  induction traced with
  | here => rfl
  | changed _ _ inductionHypothesis => exact inductionHypothesis
  | restarted _ _ inductionHypothesis =>
      rw [List.countP_append, ← Nat.add_assoc, ← inductionHypothesis]
      rfl
  | issued _ _ _ _ inductionHypothesis =>
      rw [List.countP_append]
      exact inductionHypothesis
  | taken _ _ _ _ inductionHypothesis =>
      rw [List.countP_append]
      exact inductionHypothesis
  | refused _ _ inductionHypothesis =>
      rw [List.countP_append]
      exact inductionHypothesis

theorem countP_isRestart_events (call : SessionCall) (session : Session) :
    (call.events session).countP ListingEvent.isRestart = if call.restarts then 1 else 0 := by
  cases call with
  | beginValues id =>
      rw [SessionCall.events]
      split <;> rfl
  | runValues id post =>
      rw [SessionCall.events]
      split <;> rfl
  | _ => rfl

theorem countP_isRestart_log (calls : List SessionCall) (session : Session) :
    (SessionCall.log calls session).countP ListingEvent.isRestart =
      calls.countP SessionCall.restarts := by
  induction calls generalizing session with
  | nil => rfl
  | cons call calls inductionHypothesis =>
      rw [SessionCall.log, List.countP_append, inductionHypothesis, countP_isRestart_events,
        List.countP_cons, Nat.add_comm]

theorem generation_run (calls : List SessionCall) (session : Session) :
    (SessionCall.run calls session).generation =
      session.generation + calls.countP SessionCall.restarts := by
  rw [(traced_run calls session).generation_eq, countP_isRestart_log]

end Session
end VisualQuery
