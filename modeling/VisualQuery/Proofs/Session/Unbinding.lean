import Mathlib.Data.List.Induction
import VisualQuery.Proofs.Compiler.Results
import VisualQuery.Proofs.Graph.Leftovers
import VisualQuery.Proofs.Session.Handling

/-!
# Values of nodes that are not on display

As long as its caller leaves the graph alone, a session keeps its graph tidy
with regard to the graph that it was started with.  So a value below a node that
is neither on display nor bound is one that the last schema gave to the node.
Such values do arise: a schema lists the values it binds without showing them,
and clearing a node unlists shown values only.
-/

namespace VisualQuery

open QueryGraph

/-! ## Starting over -/

namespace SessionCall

/-- A call is made by the session alone: it operates, or it starts over. -/
def IsOwn (call : SessionCall) : Prop := call.isOperation = true ∨ call.restarts = true

theorem IsOwn.isPlain
    {call : SessionCall}
    (own : call.IsOwn)
    (session : Session) :
    call.IsPlain session := by
  cases call with
  | editGraph edit => simp [IsOwn, isOperation, restarts] at own
  | _ => trivial

/-- The last schema that was loaded gave a value to a node, and no call has
started over since. -/
def GaveValue (calls : List SessionCall) (session : Session) (node value : NodeId) : Prop :=
  ∃ earlier schema later,
    calls = earlier ++ .loadSchema schema :: later ∧ (∀ call ∈ later, call.restarts = false) ∧
      (run (earlier ++ [.loadSchema schema]) session).graph.Binds node value

/-- One more operation starts nothing over. -/
theorem GaveValue.append
    {calls : List SessionCall}
    {session : Session}
    {node value : NodeId}
    (gave : GaveValue calls session node value)
    {call : SessionCall}
    (operates : call.isOperation = true) :
    GaveValue (calls ++ [call]) session node value := by
  obtain ⟨earlier, schema, later, rfl, unstarted, binds⟩ := gave
  refine ⟨earlier, schema, later ++ [call], by simp, ?_, binds⟩
  intro other member
  rcases List.mem_append.1 member with old | new
  · exact unstarted other old
  · rw [List.mem_singleton] at new
    subst new
    cases other <;> first | rfl | cases operates

/-- The graph of a session is tidy with regard to one whose bindings were given by
the last schema. -/
structure Kept (calls : List SessionCall) (session : Session) (loaded : QueryGraph) : Prop where
  coherent : loaded.Coherent
  tidy : loaded.Tidy (run calls session).graph
  given : ∀ node value, loaded.Binds node value → GaveValue calls session node value

/-- A session that is left to itself keeps its graph tidy. -/
theorem exists_kept
    (calls : List SessionCall)
    {session : Session}
    (empty : session.graph = .empty)
    (own : ∀ call ∈ calls, call.IsOwn) :
    (run calls session).graph.Grown ∧ ∃ loaded, Kept calls session loaded := by
  induction calls using List.reverseRecOn with
  | nil =>
      rw [run_nil, empty]
      refine ⟨grown_empty, .empty, coherent_empty, ?_, ?_⟩
      · intro node member
        rw [run_nil, empty] at member
        cases member
      · rintro node value ⟨_, member, _⟩
        cases member
  | append_singleton calls call inductionHypothesis =>
      obtain ⟨grown, loaded, kept⟩ := inductionHypothesis fun earlier member =>
        own earlier (List.mem_append_left _ member)
      have last := own call (by simp)
      have reached : run (calls ++ [call]) session = call.apply (run calls session) :=
        run_append calls [call] session
      have reachedGrown := apply_grown call grown (last.isPlain _)
      refine ⟨reached ▸ reachedGrown, ?_⟩
      by_cases operates : call.isOperation = true
      · have tidy : loaded.Tidy (call.apply (run calls session)).graph :=
          Handled.keeps (fun _ _ move moveGrown tidy => tidy.handles kept.coherent move moveGrown)
            (apply_tends call _ operates grown) grown kept.tidy
        exact ⟨loaded, kept.coherent, reached ▸ tidy, fun node value binds =>
          (kept.given node value binds).append operates⟩
      -- A graph that was started over is tidy with regard to itself.
      · have laid : (call.apply (run calls session)).graph.Laid := by
          cases call with
          | start label =>
              have rooted : (freshRoot label .empty).kind ≠ .value := by simp [freshRoot]
              exact Laid.of_root rfl rooted rfl rfl
          | loadSchema schema => exact laid_addSchema schema
          | editGraph edit => simp [IsOwn, isOperation, restarts] at last
          | _ => exact absurd rfl operates
        have coherent := reachedGrown.toCoherent
        refine ⟨_, coherent, reached ▸ laid.tidy coherent, ?_⟩
        intro node value binds
        cases call with
        | start label =>
            obtain ⟨root, member, _, bound⟩ := binds
            rw [List.mem_singleton.1 (show root ∈ [freshRoot label .empty] from member)] at bound
            cases bound
        | loadSchema schema => exact ⟨calls, schema, [], rfl, by simp, reached ▸ binds⟩
        | editGraph edit => simp [IsOwn, isOperation, restarts] at last
        | _ => exact absurd rfl operates

end SessionCall

namespace Session

variable {session : Session}

/-- Nothing is collapsed where nothing is on display. -/
theorem perform_collapseAll_of_unmarked
    (unmarked : ∀ node ∈ session.graph.nodes, node.valueExpanded = false) :
    Step.perform collapseAll session = (.ok (), session) := by
  have none : expandedNodes session.graph = [] := by
    rw [expandedNodes, List.map_eq_nil_iff, List.filter_eq_nil_iff]
    intro node member
    simp [unmarked node member]
  rw [collapseAll, Step.perform_bind_ok (Step.perform_state session), none]
  rfl

/-- Clearing a node of a graph just loaded takes its binding alone. -/
theorem clearSelection_laid
    (laid : session.graph.Laid)
    (coherent : session.graph.Coherent)
    {owner : Node}
    (member : owner ∈ session.graph.nodes)
    (unpinned : owner.immutable = false)
    {value : NodeId}
    (bound : owner.value = some value) :
    Step.perform (clearSelection owner.id) session =
      (.ok true, { session with
        graph := session.graph.modifyNode owner.id fun node => { node with value := none } }) := by
  have linked : (session.graph.modifyNode owner.id fun node =>
      { node with value := none }).isTarget value = true := laid.linked owner member value bound
  have accepted := coherent.clearValue_accepted member unpinned bound
  rw [dropDetached, if_pos linked] at accepted
  rw [clearSelection, Step.perform_bind_ok (perform_node coherent member),
    Step.perform_bind_ok (perform_collapseAll_of_unmarked laid.unmarked)]
  exact perform_onGraph accepted

/-- In a session whose caller leaves the graph alone, a value below a node whose
values are not on display is bound to it, unless the node is unbound and not
pinned and was given the value by the last schema.  This does happen: after any
schema, clearing a node that is bound and not pinned reports a value removed, but
takes the binding alone, and the value stays below the node. -/
theorem hidden_value_bound_or_given
    (metadata : LabelMetadata)
    (options : QueryOptions)
    {calls : List SessionCall}
    (own : ∀ call ∈ calls, call.IsOwn) :
    let session := SessionCall.run calls (.new metadata options)
    (∀ node ∈ session.graph.nodes, node.valueExpanded = false →
      ∀ value ∈ session.graph.nodes, value.kind = .value → value.parent = some node.id →
        node.value = some value.id ∨
          node.value = none ∧ node.immutable = false ∧
            SessionCall.GaveValue calls (.new metadata options) node.id value.id) ∧
      ∀ schema,
        let loaded := Step.after (loadSchema schema) session
        ∀ node ∈ loaded.graph.nodes, node.immutable = false →
          ∀ value, loaded.graph.boundValue? node = some value →
            node.valueExpanded = false ∧ value.kind = .value ∧ value.parent = some node.id ∧
              Step.perform (clearSelection node.id) loaded =
                (.ok true, { loaded with
                  graph := loaded.graph.modifyNode node.id fun node =>
                    { node with value := none } }) := by
  intro session
  obtain ⟨grown, reference, kept⟩ :=
    SessionCall.exists_kept calls (show (Session.new metadata options).graph = .empty from rfl) own
  constructor
  · intro node member unmarked value valueMember isValue parent
    rcases (kept.tidy node member unmarked).below value valueMember isValue parent with
      bound | ⟨unbound, unpinned, gave⟩
    · exact Or.inl bound
    · exact Or.inr ⟨unbound, unpinned, kept.given node.id value.id gave⟩
  · intro schema loaded node member unpinned value found
    have loadedGrown : loaded.graph.Grown :=
      SessionCall.apply_grown (.loadSchema schema) grown trivial
    have laid : loaded.graph.Laid := laid_addSchema schema
    have coherent := loadedGrown.toCoherent
    obtain ⟨id, bound, isFound⟩ := Option.bind_eq_some_iff.1 found
    obtain ⟨valueMember, rfl⟩ := mem_of_node? isFound
    obtain ⟨isValue, parent⟩ := coherent.below_of_bound member valueMember bound
    exact ⟨laid.unmarked node member, isValue, parent,
      clearSelection_laid laid coherent member unpinned bound⟩

/-- An account bound to a value. -/
def boundAccount : NodeSchema where
  label := "Account"
  value := some [("name", .string "Ann")]

/-- The account is cleared and keeps the value that the schema gave it. -/
theorem cleared_account_keeps_value :
    let calls : List SessionCall := [.loadSchema boundAccount, .clearSelection ⟨0⟩]
    let session := SessionCall.run calls (.new Compiler.namedLabels {})
    ∃ node ∈ session.graph.nodes, ∃ value ∈ session.graph.nodes,
      node.kind = .root ∧ node.valueExpanded = false ∧ node.value = none ∧
        value.kind = .value ∧ value.parent = some node.id ∧
        SessionCall.GaveValue calls (.new Compiler.namedLabels {}) node.id value.id := by
  intro calls session
  have own : ∀ call ∈ calls, call.IsOwn := by
    simp [calls, SessionCall.IsOwn, SessionCall.isOperation, SessionCall.restarts]
  have left : ∃ node ∈ session.graph.nodes, ∃ value ∈ session.graph.nodes,
      node.kind = .root ∧ node.valueExpanded = false ∧ node.value = none ∧
        value.kind = .value ∧ value.parent = some node.id := by decide +kernel
  obtain ⟨node, member, value, valueMember, isRoot, hidden, unbound, isValue, parent⟩ := left
  refine ⟨node, member, value, valueMember, isRoot, hidden, unbound, isValue, parent, ?_⟩
  rcases (hidden_value_bound_or_given Compiler.namedLabels {} own).1 node member hidden value
      valueMember isValue parent with bound | ⟨_, _, gave⟩
  · rw [unbound] at bound
    cases bound
  · exact gave

end Session
end VisualQuery
