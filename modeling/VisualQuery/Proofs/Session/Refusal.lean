import VisualQuery.Proofs.Compiler.Constraint
import VisualQuery.Proofs.Session.Collapsing
import VisualQuery.Proofs.Session.Expanding

/-!
# Actions that are refused

Most actions of a user check their arguments before they change anything, so a
refusal leaves the session alone.  Three do not.  Beginning a listing and
clearing a node collapse everything first, which may take the node they are
about, or end at a nested listing; and the next page of a node is stored and its
values unlisted before the new values are refused.
-/

namespace VisualQuery

open QueryGraph

variable {α : Type}

/-- What a user does to a session. -/
inductive UserAction where
  | beginValues (node : NodeId)
  | nextPage (node : NodeId)
  | selectValue (value : NodeId)
  | clearSelection (node : NodeId)
  | collapseNode (node : NodeId)
  | expandRelationship (node : NodeId) (relationship : Relationship)
  | expandRelationships (node : NodeId)

namespace UserAction

/-- The step of an action, without its answer. -/
def step : UserAction → Step Session Unit
  | .beginValues node => Session.beginValues node >>= fun _ => pure ()
  | .nextPage node => Session.nextPage node >>= fun _ => pure ()
  | .selectValue value => Session.selectValue value >>= fun _ => pure ()
  | .clearSelection node => Session.clearSelection node >>= fun _ => pure ()
  | .collapseNode node => Session.collapseNode node >>= fun _ => pure ()
  | .expandRelationship node relationship =>
    Session.expandRelationship node relationship >>= fun _ => pure ()
  | .expandRelationships node => Session.expandRelationships node >>= fun _ => pure ()

/-- When an action is refused after it has changed the graph.  A listing begins,
or a node is cleared, although collapsing everything takes the node away or is
refused at a nested listing; or the next page is shown of a node that lists no
values but has rows, and its page or its mark changes. -/
def Disturbs (session : Session) : UserAction → Prop
  | .beginValues id =>
    session.waiting = false ∧
      (∃ node ∈ session.graph.nodes,
        node.id = id ∧ node.kind.listsValues = true ∧ node.immutable = false) ∧
      (session.graph.Swept id ∨ session.graph.Nested)
  | .nextPage id =>
    ∃ node ∈ session.graph.nodes,
      node.id = id ∧ node.kind.listsValues = false ∧ node.data ≠ [] ∧
        (Session.followingPage session.pageSize node ≠ node.page ∨ node.valueExpanded = true)
  | .clearSelection id =>
    id ∈ session.graph.nodeIds ∧ (session.graph.Swept id ∨ session.graph.Nested)
  | _ => False

end UserAction

namespace Session

variable {session : Session} {owner : Node}

/-! ## How a step ends -/

/-- A step is accepted, or it is refused and leaves the session alone; or, under
a condition, it is refused after it has changed the graph, and only the graph. -/
inductive Ends (step : Step Session α) (session : Session) (disturbs : Prop) : Prop
  | accepted
      {answer : α}
      {after : Session}
      (performed : Step.perform step session = (.ok answer, after))
      (calm : ¬ disturbs)
  | refused
      {error : QueryError}
      (performed : Step.perform step session = (.error error, session))
      (calm : ¬ disturbs)
  | disturbed
      {error : QueryError}
      {graph : QueryGraph}
      (performed : Step.perform step session = (.error error, { session with graph }))
      (changed : graph ≠ session.graph)
      (disturbs : disturbs)

namespace Ends

variable {disturbs : Prop} {step : Step Session α}

theorem congr
    (ends : Ends step session disturbs)
    {other : Prop}
    (same : disturbs ↔ other) :
    Ends step session other := by
  rwa [← propext same]

theorem of_eq
    (ends : Ends step session disturbs)
    {other : Step Session α}
    (same : Step.perform other session = Step.perform step session) :
    Ends other session disturbs := by
  cases ends with
  | accepted performed calm => exact .accepted (same.trans performed) calm
  | refused performed calm => exact .refused (same.trans performed) calm
  | disturbed performed changed holds => exact .disturbed (same.trans performed) changed holds

/-- The answer does not matter. -/
theorem forget (ends : Ends step session disturbs) :
    Ends (step >>= fun _ => pure ()) session disturbs := by
  cases ends with
  | accepted performed calm => exact .accepted (Step.perform_bind_ok performed) calm
  | refused performed calm => exact .refused (Step.perform_bind_error performed) calm
  | disturbed performed changed holds =>
      exact .disturbed (Step.perform_bind_error performed) changed holds

/-- The node is looked up first. -/
theorem node
    {id : NodeId}
    {next : Node → Step Session α}
    (known : disturbs → id ∈ session.graph.nodeIds)
    (passed :
      ∀ node ∈ session.graph.nodes, node.id = id → Ends (next node) session disturbs) :
    Ends (inspectGraph (QueryGraph.node id) >>= next) session disturbs := by
  have looked := perform_inspectGraph (QueryGraph.node id) session
  cases found : session.graph.node id with
  | error error =>
      rw [found] at looked
      refine .refused (Step.perform_bind_error looked) fun holds => ?_
      obtain ⟨node, member, named⟩ := mem_nodeIds.1 (known holds)
      exact ne_of_node_error found member named
  | ok node =>
      rw [found] at looked
      obtain ⟨member, named⟩ := mem_of_node found
      exact (passed node member named).of_eq (Step.perform_bind_ok looked)

/-- How an action ends decides when it disturbs the graph. -/
theorem disturbs_iff
    (ends : Ends step session disturbs) :
    (∀ error after, Step.perform step session = (.error error, after) →
      after = { session with graph := after.graph }) ∧
      ((∃ error after, Step.perform step session = (.error error, after) ∧
        after.graph ≠ session.graph) ↔ disturbs) := by
  cases ends with
  | accepted performed calm =>
      rw [performed]
      simp [calm]
  | refused performed calm =>
      rw [performed]
      refine ⟨?_, ?_⟩
      · intro error after same
        injection same with _ same
        rw [← same]
      · simp [calm]
  | @disturbed error graph performed changed holds =>
      rw [performed]
      constructor
      · intro _ after same
        injection same with _ same
        rw [← same]
      · exact ⟨fun _ => holds, fun _ => ⟨error, _, rfl, changed⟩⟩

end Ends

/-! ## Actions that check first -/

/-- Collapsing a node of the graph is accepted. -/
theorem exists_collapseNode
    (coherent : session.graph.Coherent)
    (member : owner ∈ session.graph.nodes) :
    ∃ count after, Step.perform (collapseNode owner.id) session = (.ok count, after) := by
  cases marked : owner.valueExpanded with
  | true =>
      exact ⟨_, _, perform_collapseNode coherent member marked
        (coherent.removeValues_accepted member)⟩
  | false =>
      refine ⟨0, session, ?_⟩
      rw [collapseNode, Step.perform_bind_ok (perform_node coherent member), marked]
      rfl

theorem ends_collapseNode
    (coherent : session.graph.Coherent)
    (id : NodeId) :
    Ends (collapseNode id) session False := by
  by_cases known : id ∈ session.graph.nodeIds
  · obtain ⟨owner, member, rfl⟩ := mem_nodeIds.1 known
    obtain ⟨count, after, performed⟩ := exists_collapseNode coherent member
    exact .accepted performed not_false
  · exact .refused (Step.perform_bind_error (perform_node_of_not_mem known)) not_false

/-- Binding a node leaves it in place, so the collapse that follows is accepted. -/
theorem ends_selectValue
    (grown : session.graph.Grown)
    (value : NodeId) :
    Ends (selectValue value) session False := by
  have coherent := grown.toCoherent
  have looked := perform_inspectGraph (listedFor value) session
  cases listed : listedFor value session.graph with
  | error error =>
      rw [listed] at looked
      exact .refused (Step.perform_bind_error looked) not_false
  | ok id =>
      rw [listed] at looked
      obtain ⟨candidate, candidateMember, rfl, isValue, parent⟩ := listedFor_ok listed
      obtain ⟨_, owner, member, rfl⟩ := coherent.exists_parent candidateMember parent
      cases pinned : owner.immutable with
      | true =>
          refine @Ends.refused _ _ session _ (.invalidArgument .pinned) ?_ not_false
          rw [selectValue, Step.perform_bind_ok looked,
            Step.perform_bind_ok (perform_node coherent member), pinned]
          rfl
      | false =>
          have accepted := coherent.bindValue_accepted member candidateMember isValue parent
          have boundGrown := (Handles.bind member pinned accepted).grown grown
          obtain ⟨count, after, collapsed⟩ := @exists_collapseNode { session with graph := _ } _
            boundGrown.toCoherent (grown.mem_bindValue member accepted)
          refine @Ends.accepted _ _ session _ owner.id after ?_ not_false
          rw [selectValue, Step.perform_bind_ok looked,
            Step.perform_bind_ok (perform_node coherent member), pinned]
          have bound := perform_onGraph_unit accepted
          exact (Step.perform_bind_ok bound).trans (Step.perform_bind_ok collapsed)

theorem ends_expandRelationship
    (grown : session.graph.Grown)
    (id : NodeId)
    (relationship : Relationship) :
    Ends (expandRelationship id relationship) session False := by
  refine Ends.node False.elim ?_
  rintro owner member rfl
  split
  · exact .refused rfl not_false
  · let note (notes : NodeNotes) : NodeNotes :=
      { notes with relationships := notes.relationships.erase relationship }
    have notedGrown := grown.modifyNode_of_value owner.id (Node.InPlace.note note) fun _ => rfl
    have notedMember := mem_modifyNode_self member fun node => node.withNotes (note node.notes)
    obtain ⟨added, _⟩ := @perform_addFarEnd { session with graph := _ } _ notedGrown notedMember
      relationship
    exact .accepted added not_false

theorem ends_expandRelationships
    (grown : session.graph.Grown)
    (id : NodeId) :
    Ends (expandRelationships id) session False := by
  by_cases known : id ∈ session.graph.nodeIds
  · obtain ⟨owner, member, rfl⟩ := mem_nodeIds.1 known
    obtain ⟨children, graph, performed, _⟩ := perform_expandRelationships grown member
    exact .accepted performed not_false
  · exact .refused (Step.perform_bind_error (perform_node_of_not_mem known)) not_false

/-! ## Actions that collapse everything first -/

/-- An action that collapses everything before it looks for its node. -/
theorem ends_collapseAll
    (grown : session.graph.Grown)
    (member : owner ∈ session.graph.nodes)
    {next : Step Session α}
    (finds :
      ∀ graph, graph.Grown → owner.id ∈ graph.nodeIds →
        ∃ answer after, Step.perform next { session with graph } = (.ok answer, after))
    (misses :
      ∀ graph, graph.Grown → owner.id ∉ graph.nodeIds →
        ∃ error,
          Step.perform next { session with graph } = (.error error, { session with graph })) :
    Ends (collapseAll >>= fun _ => next) session
      (session.graph.Swept owner.id ∨ session.graph.Nested) := by
  rcases perform_collapseAll grown with
    ⟨flat, graph, collapsed, graphGrown, gone⟩ | ⟨nested, error, graph, refused, changed⟩
  · by_cases known : owner.id ∈ graph.nodeIds
    · obtain ⟨answer, after, performed⟩ := finds graph graphGrown known
      refine .accepted ((Step.perform_bind_ok collapsed).trans performed) ?_
      rintro (swept | nested)
      · exact (gone owner member).2 swept known
      · exact flat nested
    · obtain ⟨error, performed⟩ := misses graph graphGrown known
      refine .disturbed ((Step.perform_bind_ok collapsed).trans performed) ?_
        (Or.inl ((gone owner member).1 known))
      intro unchanged
      rw [unchanged] at known
      exact known (mem_nodeIds.2 ⟨owner, member, rfl⟩)
  · exact .disturbed (Step.perform_bind_error refused) changed (Or.inr nested)

theorem ends_clearSelection
    (grown : session.graph.Grown)
    (id : NodeId) :
    Ends (clearSelection id) session
      (id ∈ session.graph.nodeIds ∧ (session.graph.Swept id ∨ session.graph.Nested)) := by
  apply Ends.node And.left
  rintro owner member rfl
  refine (ends_collapseAll grown member ?_ ?_).congr
    (and_iff_right (mem_nodeIds.2 ⟨owner, member, rfl⟩)).symm
  · intro graph graphGrown known
    obtain ⟨node, nodeMember, named⟩ := mem_nodeIds.1 known
    obtain ⟨cleared, after, accepted⟩ := graphGrown.toCoherent.exists_clearValue nodeMember
    rw [named] at accepted
    exact ⟨cleared, _, perform_onGraph accepted⟩
  · intro graph _ missing
    refine ⟨.unknownNode owner.id, perform_onGraph_error ?_⟩
    rw [clearValue, node_of_not_mem missing]
    rfl

theorem ends_beginValues
    (grown : session.graph.Grown)
    (id : NodeId) :
    Ends (beginValues id) session
      (session.waiting = false ∧
        (∃ node ∈ session.graph.nodes,
          node.id = id ∧ node.kind.listsValues = true ∧ node.immutable = false) ∧
        (session.graph.Swept id ∨ session.graph.Nested)) := by
  have coherent := grown.toCoherent
  rcases perform_beginValues id session with
    ⟨error, refused, listsNone⟩ | ⟨owner, found, lists, performed⟩
  · refine .refused refused ?_
    rintro ⟨_, ⟨node, member, rfl, lists, _⟩, _⟩
    rw [listsNone node (coherent.node_of_mem member)] at lists
    cases lists
  · obtain ⟨member, rfl⟩ := mem_of_node found
    split at performed
    · rename_i held
      refine .accepted performed ?_
      rintro ⟨free, ⟨node, nodeMember, named, _, unpinned⟩, _⟩
      rw [coherent.eq_of_id_eq nodeMember member named] at unpinned
      simp [free, unpinned] at held
    · rename_i free
      simp only [Bool.or_eq_true, not_or, Bool.not_eq_true] at free
      have asks : Ends (askForValues owner.id) session
          (session.graph.Swept owner.id ∨ session.graph.Nested) := by
        apply ends_collapseAll grown member
        · intro graph graphGrown known
          obtain ⟨query, built⟩ := (Compiler.exists_valueQuery_iff
            ({ session with graph } : Session).context graphGrown.toCoherent).2 known
          have asked : Step.perform (Step.inspect fun session : Session =>
              session.context.valueQuery owner.id) { session with graph } =
                (.ok query, { session with graph }) := by
            rw [Step.perform_inspect, built]
          exact ⟨_, _, Step.perform_bind_ok asked⟩
        · intro graph graphGrown missing
          cases built : ({ session with graph } : Session).context.valueQuery owner.id with
          | ok query =>
              exact absurd ((Compiler.exists_valueQuery_iff
                ({ session with graph } : Session).context graphGrown.toCoherent).1
                  ⟨query, built⟩) missing
          | error error =>
              have asked : Step.perform (Step.inspect fun session : Session =>
                  session.context.valueQuery owner.id) { session with graph } =
                    (.error error, { session with graph }) := by
                rw [Step.perform_inspect, built]
              exact ⟨error, Step.perform_bind_error asked⟩
      refine (asks.of_eq performed).congr ?_
      exact ⟨fun loses => ⟨free.1, ⟨owner, member, rfl, lists, free.2⟩, loses⟩,
        fun holds => holds.2.2⟩

/-! ## The next page -/

/-- The page that follows has rows if there are any. -/
theorem pageRows_followingPage
    {size : Nat}
    (positive : 0 < size)
    (node : Node) :
    pageRows size { node with page := followingPage size node } = [] ↔ node.data = [] := by
  rw [pageRows, List.take_eq_nil_iff, List.drop_eq_nil_iff, or_iff_right (Nat.ne_of_gt positive)]
  unfold followingPage
  split
  · rename_i further
    have some : node.data ≠ [] := List.ne_nil_of_length_pos (Nat.zero_lt_of_lt further)
    simp only [Nat.add_sub_cancel, some, iff_false, Nat.not_le]
    exact further
  · simp

/-- Nothing is unlisted below a node that lists no values. -/
theorem removeValues_eq_self
    {graph : QueryGraph}
    (grown : graph.Grown)
    (member : owner ∈ graph.nodes)
    (listsNone : owner.kind.listsValues = false)
    (unmarked : owner.valueExpanded = false) :
    graph.removeValues owner.id = .ok (0, graph) := by
  have coherent := grown.toCoherent
  have none : graph.valueLinks owner.id = [] := by
    rw [List.eq_nil_iff_forall_not_mem]
    intro link listed
    obtain ⟨linkMember, holds⟩ := List.mem_filter.1 listed
    simp only [Bool.and_eq_true, decide_eq_true_eq] at holds
    obtain ⟨value, valueMember, _, parent, kind⟩ := grown.stems link linkMember
    have isValue := kind.1 (Link.isRelation_eq_false_iff.2 holds.2)
    rw [coherent.lists_of_value member valueMember isValue (holds.1 ▸ parent)] at listsNone
    cases listsNone
  have unchanged : (graph.modifyNode owner.id fun node => { node with valueExpanded := false }) =
      graph := by
    rw [modifyNode_eq_self_iff]
    intro node nodeMember named
    rw [coherent.eq_of_id_eq nodeMember member named, ← unmarked]
  rw [coherent.removeValues_accepted member, none]
  exact congrArg (fun after => Except.ok (0, after)) unchanged

theorem ends_nextPage
    (grown : session.graph.Grown)
    (id : NodeId) :
    Ends (nextPage id) session
      (∃ node ∈ session.graph.nodes,
        node.id = id ∧ node.kind.listsValues = false ∧ node.data ≠ [] ∧
          (followingPage session.pageSize node ≠ node.page ∨ node.valueExpanded = true)) := by
  have coherent := grown.toCoherent
  refine Ends.of_eq (Ends.node ?_ ?_) (Step.perform_bind_ok (Step.perform_state session))
  · rintro ⟨node, member, named, _⟩
    exact mem_nodeIds.2 ⟨node, member, named⟩
  rintro owner member rfl
  let turn (node : Node) : Node := { node with page := followingPage session.pageSize node }
  let turned : Session := { session with graph := session.graph.modifyNode owner.id turn }
  have inPlace : Node.InPlace turn :=
    ⟨fun _ => rfl, fun _ => rfl, fun _ => rfl, fun _ => rfl, fun _ => rfl⟩
  have turnedGrown : turned.graph.Grown := grown.modifyNode_of_value owner.id inPlace fun _ => rfl
  have turnedMember : turn owner ∈ turned.graph.nodes := mem_modifyNode_self member turn
  have rows : pageRows turned.pageSize (turn owner) = [] ↔ owner.data = [] :=
    pageRows_followingPage (Nat.lt_of_lt_of_le Nat.zero_lt_one (Nat.le_max_left _ _)) owner
  obtain ⟨count, cleared, accepted, clearedMember, shown⟩ :=
    perform_showPage turnedGrown turnedMember
  split at shown
  · rename_i fits
    obtain ⟨values, performed, _⟩ := shown
    refine .accepted performed ?_
    rintro ⟨node, nodeMember, named, listsNone, some, _⟩
    rw [coherent.eq_of_id_eq nodeMember member named] at listsNone some
    rcases fits with none | lists
    · exact some (rows.1 none)
    · rw [show owner.kind.listsValues = true from lists] at listsNone
      cases listsNone
  · rename_i unfit
    obtain ⟨some, listsSome⟩ := not_or.1 unfit
    have listsNone : owner.kind.listsValues = false := by simpa using listsSome
    by_cases changes :
        followingPage session.pageSize owner ≠ owner.page ∨ owner.valueExpanded = true
    · refine .disturbed shown ?_
        ⟨owner, member, rfl, listsNone, fun none => some (rows.2 none), changes⟩
      intro unchanged
      rw [unchanged] at clearedMember
      have same := coherent.eq_of_id_eq clearedMember member rfl
      rcases changes with otherPage | marked
      · exact otherPage (congrArg Node.page same)
      · rw [← congrArg Node.valueExpanded same] at marked
        cases marked
    · simp only [not_or, not_not, Bool.not_eq_true] at changes
      have unturned : turned.graph = session.graph := by
        rw [modifyNode_eq_self_iff]
        intro node nodeMember named
        rw [coherent.eq_of_id_eq nodeMember member named]
        show { owner with page := followingPage session.pageSize owner } = owner
        rw [changes.1]
      have unlisted : session.graph.removeValues owner.id = .ok (count, cleared) :=
        unturned ▸ accepted
      rw [removeValues_eq_self grown member listsNone changes.2] at unlisted
      injection unlisted with same
      injection same with _ unchanged
      rw [← unchanged] at shown
      refine .refused shown ?_
      rintro ⟨node, nodeMember, named, _, _, changed⟩
      rw [coherent.eq_of_id_eq nodeMember member named, changes.1, changes.2] at changed
      simp at changed

/-! ## All actions -/

theorem ends_action
    (grown : session.graph.Grown)
    (action : UserAction) :
    Ends action.step session (action.Disturbs session) := by
  cases action with
  | beginValues id => exact (ends_beginValues grown id).forget
  | nextPage id => exact (ends_nextPage grown id).forget
  | selectValue value => exact (ends_selectValue grown value).forget
  | clearSelection id => exact (ends_clearSelection grown id).forget
  | collapseNode id => exact (ends_collapseNode grown.toCoherent id).forget
  | expandRelationship id relationship =>
      exact (ends_expandRelationship grown id relationship).forget
  | expandRelationships id => exact (ends_expandRelationships grown id).forget

/-- In a session whose caller adds neither bare nodes nor bare links, an action
that is refused leaves everything but the graph alone, and the graph as well
unless it disturbs it: then the action is always refused, and the graph has
changed. -/
theorem refused_action_changes_graph_iff
    (metadata : LabelMetadata)
    (options : QueryOptions)
    {calls : List SessionCall}
    (plainly : SessionCall.Plainly calls (.new metadata options))
    (action : UserAction) :
    let session := SessionCall.run calls (.new metadata options)
    (∀ error after, Step.perform action.step session = (.error error, after) →
      after = { session with graph := after.graph }) ∧
      ((∃ error after, Step.perform action.step session = (.error error, after) ∧
        after.graph ≠ session.graph) ↔ action.Disturbs session) := by
  intro session
  have grown : session.graph.Grown := SessionCall.run_grown calls grown_empty plainly
  exact (ends_action grown action).disturbs_iff

/-- Start with an account and list its values, of which there is one. -/
def listOneAccount : List SessionCall :=
  [.start "Account",
    .runValues ⟨0⟩ fun _ => .ok ⟨[⟨["name"], [⟨[.string "Ann"], none⟩]⟩], []⟩]

/-- The value on display cannot be cleared, but the attempt takes it away. -/
theorem clearing_listed_value_disturbs :
    let session := SessionCall.run listOneAccount (.new Compiler.namedLabels {})
    ∃ error after,
      Step.perform (UserAction.clearSelection ⟨1⟩).step session = (.error error, after) ∧
        after.graph ≠ session.graph := by
  intro session
  have listed : ∃ owner ∈ session.graph.nodes,
      (owner.kind.listsValues = true ∧ owner.valueExpanded = true ∧ owner.value ≠ some ⟨1⟩) ∧
        ∃ value ∈ session.graph.nodes,
          value.id = ⟨1⟩ ∧ value.kind = .value ∧ value.parent = some owner.id := by
    decide +kernel
  obtain ⟨owner, member, ⟨lists, marked, notBound⟩, value, valueMember, named, holds⟩ := listed
  have swept : session.graph.Swept ⟨1⟩ :=
    ⟨owner, member, lists, marked, ⟨1⟩, ⟨notBound, value, valueMember, named, holds⟩, Beneath.self⟩
  exact (refused_action_changes_graph_iff Compiler.namedLabels {}
    (show SessionCall.Plainly listOneAccount _ from ⟨trivial, trivial, trivial⟩)
    (.clearSelection ⟨1⟩)).2.2 ⟨mem_nodeIds.2 ⟨value, valueMember, named⟩, Or.inl swept⟩

end Session
end VisualQuery
