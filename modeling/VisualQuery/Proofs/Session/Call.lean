import VisualQuery.Proofs.Step
import VisualQuery.Session.Run

/-!
# Calls of a session

Everything that may change a session, as data, and what a sequence of calls
makes of it.  A caller holds the graph itself and may change it in any way, so
an edit is any function on graphs; requests, batches and outcomes are any at
all, whether the session made them or not.  Calls that only read are left out.
-/

namespace VisualQuery

/-- One call that may change a session. -/
inductive SessionCall where
  | start (label : String)
  | loadSchema (schema : NodeSchema)
  | editGraph (edit : QueryGraph → QueryGraph)
  | completeCounts (batch : CountBatch) (outcome : Outcome)
  | beginValues (node : NodeId)
  | completeValues (request : ValueRequest) (outcome : Outcome)
  | nextPage (node : NodeId)
  | selectValue (value : NodeId)
  | clearSelection (node : NodeId)
  | collapseNode (node : NodeId)
  | completeRelations (request : RelationRequest) (outcome : Outcome)
  | expandRelationship (node : NodeId) (relationship : Relationship)
  | expandRelationships (node : NodeId)
  | collapseRelationships (node : NodeId)
  | runCounts (post : TransactionRequest → Outcome)
  | runValues (node : NodeId) (post : TransactionRequest → Outcome)
  | runRelations (node : NodeId) (post : TransactionRequest → Outcome)
  | runAutoExpand (node : NodeId) (post : TransactionRequest → Outcome)

namespace SessionCall

/-- The session after a call, refused or not. -/
def apply : SessionCall → Session → Session
  | .start label => Step.after (Session.start label)
  | .loadSchema schema => Step.after (Session.loadSchema schema)
  | .editGraph edit => fun session => { session with graph := edit session.graph }
  | .completeCounts batch outcome => Step.after (Session.completeCounts batch outcome)
  | .beginValues node => Step.after (Session.beginValues node)
  | .completeValues request outcome => Step.after (Session.completeValues request outcome)
  | .nextPage node => Step.after (Session.nextPage node)
  | .selectValue value => Step.after (Session.selectValue value)
  | .clearSelection node => Step.after (Session.clearSelection node)
  | .collapseNode node => Step.after (Session.collapseNode node)
  | .completeRelations request outcome =>
    Step.after (Session.completeRelations request outcome)
  | .expandRelationship node relationship =>
    Step.after (Session.expandRelationship node relationship)
  | .expandRelationships node => Step.after (Session.expandRelationships node)
  | .collapseRelationships node => Step.after (Session.collapseRelationships node)
  | .runCounts post => fun session => (Id.run (Session.runCounts post session)).2
  | .runValues node post => fun session => (Id.run (Session.runValues node post session)).2
  | .runRelations node post => fun session =>
    (Id.run (Session.runRelations node post session)).2
  | .runAutoExpand node post => fun session =>
    (Id.run (Session.runAutoExpand node post session)).2

/-- The session after a sequence of calls. -/
def run (calls : List SessionCall) (session : Session) : Session :=
  calls.foldl (fun session call => call.apply session) session

@[simp] theorem run_nil (session : Session) : run [] session = session := rfl

@[simp] theorem run_cons
    (call : SessionCall)
    (calls : List SessionCall)
    (session : Session) :
    run (call :: calls) session = run calls (call.apply session) := rfl

theorem run_append
    (first second : List SessionCall)
    (session : Session) :
    run (first ++ second) session = run second (run first session) :=
  List.foldl_append

/-- Whether a call starts the graph over and gives up all requests. -/
def restarts : SessionCall → Bool
  | .start _ | .loadSchema _ => true
  | _ => false

end SessionCall
end VisualQuery
