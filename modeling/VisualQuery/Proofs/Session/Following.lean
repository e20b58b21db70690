import Mathlib.Order.Defs.Unbundled
import VisualQuery.Proofs.Graph.Coherence
import VisualQuery.Proofs.Session.Trace

/-!
# Where the graph of a session goes

A step leads from the graph of its session to another one.  For a preorder on
graphs, the steps that stay within it are closed under the ways in which steps
are put together.
-/

namespace VisualQuery
namespace Session

open QueryGraph

variable
  {α β : Type}
  {relation : QueryGraph → QueryGraph → Prop}
  [IsPreorder QueryGraph relation]
  {session : Session}

/-- The graph of a session is in relation to the graph after a step. -/
def FollowsFrom
    (relation : QueryGraph → QueryGraph → Prop)
    (session : Session)
    (step : Step Session α) : Prop :=
  relation session.graph (Step.after step session).graph

/-- Of every session the graph is in relation to the graph after a step. -/
def Follows
    (relation : QueryGraph → QueryGraph → Prop)
    (step : Step Session α) : Prop :=
  ∀ session, FollowsFrom relation session step

namespace FollowsFrom

/-- A step that leaves the graph alone. -/
theorem of_graph_eq
    {step : Step Session α}
    (unchanged : (Step.after step session).graph = session.graph) :
    FollowsFrom relation session step := by
  rw [FollowsFrom, unchanged]
  exact refl_of relation session.graph

theorem bind
    {step : Step Session α}
    {next : α → Step Session β}
    (first : FollowsFrom relation session step)
    (second : ∀ answer, FollowsFrom relation (Step.after step session) (next answer)) :
    FollowsFrom relation session (step >>= next) := by
  unfold FollowsFrom
  rw [Step.after_bind]
  split
  · exact trans_of relation first (second _)
  · exact first

/-- A test in front, which may refuse. -/
theorem refuse
    {test : Prop}
    [Decidable test]
    {error : QueryError}
    {otherwise : PUnit → Step Session α}
    (passed : ¬ test → FollowsFrom relation session (otherwise ⟨⟩)) :
    FollowsFrom relation session (if test then throw error >>= otherwise else otherwise ⟨⟩) := by
  split
  · exact of_graph_eq rfl
  · rename_i notTest
    exact passed notTest

omit [IsPreorder QueryGraph relation] in
/-- What follows sees the session. -/
theorem state
    {next : Session → Step Session α}
    (passed : FollowsFrom relation session (next session)) :
    FollowsFrom relation session (Step.state >>= next) :=
  passed

/-- What follows sees what was found in the graph. -/
theorem look
    {look : QueryGraph → Except QueryError α}
    {next : α → Step Session β}
    (passed : ∀ answer, look session.graph = .ok answer →
      FollowsFrom relation session (next answer)) :
    FollowsFrom relation session (inspectGraph look >>= next) := by
  unfold FollowsFrom
  rw [Step.after_bind, perform_inspectGraph, Step.after, perform_inspectGraph]
  cases found : look session.graph with
  | error error => exact refl_of relation session.graph
  | ok answer => exact passed answer found

/-- What follows sees the node that was looked up. -/
theorem node
    {id : NodeId}
    {next : Node → Step Session β}
    (passed : ∀ node ∈ session.graph.nodes, node.id = id →
      FollowsFrom relation session (next node)) :
    FollowsFrom relation session (inspectGraph (QueryGraph.node id) >>= next) := by
  apply look
  intro node found
  obtain ⟨member, named⟩ := mem_of_node found
  exact passed node member named

/-- An edit that has no effect when it is refused. -/
theorem edit
    {edit : QueryGraph → Except QueryError (α × QueryGraph)}
    (accepted : ∀ answer graph, edit session.graph = .ok (answer, graph) →
      relation session.graph graph) :
    FollowsFrom relation session (onGraph (Step.atomic edit)) := by
  have reached : (Step.after (onGraph (Step.atomic edit)) session).graph =
      Step.after (Step.atomic edit) session.graph := rfl
  rw [FollowsFrom, reached]
  exact Step.atomic_property (refl_of relation session.graph) accepted

/-- An edit without an answer. -/
theorem editUnit
    {edit : QueryGraph → Except QueryError QueryGraph}
    (accepted : ∀ graph, edit session.graph = .ok graph → relation session.graph graph) :
    FollowsFrom relation session (onGraph (Step.atomicUnit edit)) := by
  have reached : (Step.after (onGraph (Step.atomicUnit edit)) session).graph =
      Step.after (Step.atomicUnit edit) session.graph := rfl
  rw [FollowsFrom, reached]
  exact Step.atomicUnit_property (refl_of relation session.graph) accepted

end FollowsFrom

/-- The pending request is settled. -/
theorem perform_settleValueRequest
    {token : Nat}
    (pending : session.pendingValue = some token) :
    Step.perform (settleValueRequest token) session =
      (.ok (), { session with waiting := false, pendingValue := none }) :=
  Step.perform_atomicUnit_ok (if_pos pending)

namespace Follows

theorem of_graph_eq
    {step : Step Session α}
    (unchanged : ∀ session, (Step.after step session).graph = session.graph) :
    Follows relation step :=
  fun session => FollowsFrom.of_graph_eq (unchanged session)

theorem pure (answer : α) : Follows relation (Pure.pure answer : Step Session α) :=
  of_graph_eq fun _ => rfl

theorem state : Follows relation Step.state := of_graph_eq fun _ => rfl

theorem inspect (look : Session → Except QueryError α) :
    Follows relation (Step.inspect look) := by
  apply of_graph_eq
  intro session
  rw [Step.after, Step.perform_inspect]

theorem inspectGraph (look : QueryGraph → Except QueryError α) :
    Follows relation (inspectGraph look) :=
  inspect fun session => look session.graph

theorem bind
    {step : Step Session α}
    {next : α → Step Session β}
    (first : Follows relation step)
    (second : ∀ answer, Follows relation (next answer)) :
    Follows relation (step >>= next) :=
  fun session => (first session).bind fun answer => second answer _

/-- A change of the books alone. -/
theorem books
    {change : Session → Except QueryError (α × Session)}
    (unchanged :
      ∀ session answer after, change session = .ok (answer, after) →
        after.graph = session.graph) :
    Follows relation (Step.atomic change) := by
  apply of_graph_eq
  intro session
  rcases Step.after_atomic_cases change session with ⟨answer, accepted⟩ | refused
  · exact unchanged session answer _ accepted
  · rw [refused]

theorem issueValueRequest (id : NodeId) (query : QueryStructure) :
    Follows relation (issueValueRequest id query) := by
  apply books
  intro session request after issued
  injection issued with same
  injection same with _ same
  rw [← same]

theorem settleValueRequest (token : Nat) : Follows relation (settleValueRequest token) := by
  apply of_graph_eq
  intro session
  by_cases pending : session.pendingValue = some token
  · rw [Step.after, perform_settleValueRequest pending]
  · have refused : Step.perform (Session.settleValueRequest token) session =
        (.error (.staleResponse token), session) :=
      Step.perform_atomicUnit_error (if_neg pending)
    rw [Step.after, refused]

end Follows

/-! ## Steps with a known outcome -/

/-- An edit of the graph that is accepted. -/
theorem perform_onGraph
    {edit : QueryGraph → Except QueryError (α × QueryGraph)}
    {answer : α}
    {graph : QueryGraph}
    (accepted : edit session.graph = .ok (answer, graph)) :
    Step.perform (onGraph (Step.atomic edit)) session = (.ok answer, { session with graph }) := by
  have parts : Step.perform (onGraph (Step.atomic edit)) session =
      ((Step.perform (Step.atomic edit) session.graph).1,
        { session with graph := (Step.perform (Step.atomic edit) session.graph).2 }) := rfl
  rw [parts, Step.perform_atomic_ok accepted]

theorem perform_onGraph_unit
    {edit : QueryGraph → Except QueryError QueryGraph}
    {graph : QueryGraph}
    (accepted : edit session.graph = .ok graph) :
    Step.perform (onGraph (Step.atomicUnit edit)) session = (.ok (), { session with graph }) :=
  perform_onGraph (by rw [accepted]; rfl)

/-- An edit of the graph that is refused. -/
theorem perform_onGraph_error
    {edit : QueryGraph → Except QueryError (α × QueryGraph)}
    {error : QueryError}
    (refused : edit session.graph = .error error) :
    Step.perform (onGraph (Step.atomic edit)) session = (.error error, session) := by
  have parts : Step.perform (onGraph (Step.atomic edit)) session =
      ((Step.perform (Step.atomic edit) session.graph).1,
        { session with graph := (Step.perform (Step.atomic edit) session.graph).2 }) := rfl
  rw [parts, Step.perform_atomic_error refused]

/-- A node of a coherent graph is found under its number. -/
theorem perform_node
    (coherent : session.graph.Coherent)
    {owner : Node}
    (member : owner ∈ session.graph.nodes) :
    Step.perform (inspectGraph (QueryGraph.node owner.id)) session = (.ok owner, session) := by
  rw [perform_inspectGraph, coherent.node_of_mem member]

theorem perform_node_of_not_mem
    {id : NodeId}
    (missing : id ∉ session.graph.nodeIds) :
    Step.perform (inspectGraph (QueryGraph.node id)) session =
      (.error (.unknownNode id), session) := by
  rw [perform_inspectGraph, node_of_not_mem missing]

/-- A value was listed for its parent. -/
theorem perform_listedFor
    (coherent : session.graph.Coherent)
    {value : Node}
    (member : value ∈ session.graph.nodes)
    (isValue : value.kind = .value)
    {owner : NodeId}
    (parent : value.parent = some owner) :
    Step.perform (inspectGraph (listedFor value.id)) session = (.ok owner, session) := by
  rw [perform_inspectGraph, listedFor, coherent.node_of_mem member]
  simp only [bind, Except.bind, isValue, parent]
  rfl

/-- Nothing else was listed. -/
theorem listedFor_ok
    {graph : QueryGraph}
    {id owner : NodeId}
    (accepted : listedFor id graph = .ok owner) :
    ∃ value ∈ graph.nodes, value.id = id ∧ value.kind = .value ∧ value.parent = some owner := by
  unfold listedFor at accepted
  cases found : graph.node id with
  | error error => rw [found] at accepted; cases accepted
  | ok value =>
      rw [found] at accepted
      obtain ⟨member, named⟩ := mem_of_node found
      simp only [bind, Except.bind] at accepted
      split at accepted
      · rename_i parent isValue isParent
        injection accepted with same
        exact ⟨value, member, named, isValue, same ▸ isParent⟩
      · cases accepted

/-- A listing begins for a node that lists values and is not pinned, if no other
one is under way. -/
theorem perform_beginValues_of_free
    (coherent : session.graph.Coherent)
    {owner : Node}
    (member : owner ∈ session.graph.nodes)
    (lists : owner.kind.listsValues = true)
    (unpinned : owner.immutable = false)
    (free : session.waiting = false) :
    Step.perform (beginValues owner.id) session =
      Step.perform (askForValues owner.id) session := by
  have known := coherent.node_of_mem member
  rcases perform_beginValues owner.id session with ⟨_, _, listsNone⟩ | ⟨node, found, _, begun⟩
  · rw [listsNone owner known] at lists
    cases lists
  · rw [known] at found
    injection found with same
    rw [begun, ← same, free, unpinned, Bool.or_self, if_neg Bool.false_ne_true]

end Session
end VisualQuery
