import VisualQuery.Session.Counts
import VisualQuery.Session.Relations
import VisualQuery.Session.Results

/-!
# Whole exchanges

Each run makes a request, posts it and takes the response.  Posting may happen
in any monad: a network, a script or a pure function.
-/

namespace VisualQuery
namespace Session

variable {m : Type → Type} [Monad m]

/-- How a request is carried out. -/
abbrev Post (m : Type → Type) := TransactionRequest → m Outcome

/-- The outcome of a step and the session after it. -/
abbrev After (α : Type) := Except QueryError α × Session

/-- Refresh all counts. -/
def runCounts (post : Post m) (session : Session) : m (After Unit) :=
  match session.beginCounts with
  | .error error => pure (.error error, session)
  | .ok batch => do
    let outcome ← post batch.request
    pure ((completeCounts batch outcome).perform session)

/-- List the values of a node; nothing is listed when the request is held
back. -/
def runValues (id : NodeId) (post : Post m) (session : Session) : m (After (List NodeId)) :=
  match (beginValues id).perform session with
  | (.error error, session) => pure (.error error, session)
  | (.ok none, session) => pure (.ok [], session)
  | (.ok (some request), session) => do
    let outcome ← post request.request
    pure ((completeValues request outcome).perform session)

/-- Discover the relationships of a node. -/
def runRelations (id : NodeId) (post : Post m) (session : Session) :
    m (After (List Relationship)) :=
  match session.beginRelations id with
  | .error error => pure (.error error, session)
  | .ok request => do
    let outcome ← post request.request
    pure ((completeRelations request outcome).perform session)

/-- Discover and expand all relationships of a node whose label asks for it. -/
def runAutoExpand (id : NodeId) (post : Post m) (session : Session) :
    m (After (List NodeId)) :=
  match session.graph.node id with
  | .error error => pure (.error error, session)
  | .ok node =>
    if (session.metadata.resolve node.label).autoExpandRelations then do
      match ← runRelations id post session with
      | (.error error, session) => pure (.error error, session)
      | (.ok _, session) => pure ((expandRelationships id).perform session)
    else pure (.ok [], session)

/-- Fetch the result rows. -/
def runResults (post : Post m) (session : Session) : m (After (List ResultRecord)) :=
  match session.resultRequest false with
  | .error error => pure (.error error, session)
  | .ok request => do
    let outcome ← post request.request
    match outcome with
    | .error failure => pure (.error (.exchange failure), session)
    | .ok response => pure (session.parseResults response, session)

end Session
end VisualQuery
