import VisualQuery.Proofs.Graph.Handling
import VisualQuery.Proofs.Session.Operations

/-!
# Sessions that handle a graph

Between two restarts all that the calls of a session do to a grown graph is done
by moves.  A caller who makes plain edits only keeps the graph grown, so it
always is.
-/

namespace VisualQuery

variable {α β : Type}

namespace QueryGraph

variable {first second third : QueryGraph}

/-- If the first graph is grown, moves lead from it to the second. -/
def Tends (before after : QueryGraph) : Prop := before.Grown → Handled before after

instance : IsPreorder QueryGraph Tends where
  refl _ _ := Relation.ReflTransGen.refl
  trans _ _ _ left right grown := (left grown).trans (right ((left grown).grown grown))

theorem Tends.move (handles : Handles first second) : Tends first second :=
  fun _ => Relation.ReflTransGen.single handles

end QueryGraph

namespace Session

open QueryGraph

/-- Whatever a step does to a grown graph is done by moves. -/
abbrev Handling (step : Step Session α) : Prop := Follows Tends step

variable {session : Session} {owner : Node}

/-! ## Collapsing -/

/-- Unlisting the values of a marked node. -/
theorem perform_collapseNode
    (coherent : session.graph.Coherent)
    (member : owner ∈ session.graph.nodes)
    (marked : owner.valueExpanded = true)
    {count : Nat}
    {graph : QueryGraph}
    (accepted : session.graph.removeValues owner.id = .ok (count, graph)) :
    Step.perform (collapseNode owner.id) session = (.ok count, { session with graph }) := by
  rw [collapseNode, Step.perform_bind_ok (perform_node coherent member), if_pos marked]
  exact perform_onGraph accepted

theorem handling_collapseNode (id : NodeId) : Handling (collapseNode id) := by
  intro session
  apply FollowsFrom.node
  intro node member named
  split
  · apply FollowsFrom.edit
    intro count graph accepted
    rw [← named] at accepted
    exact Tends.move (Handles.unlist member accepted)
  · exact Follows.pure 0 session

/-! ## Showing pages -/

/-- Values are added for all rows below a node that lists values, one from each,
and the node lists them behind those it listed before. -/
theorem perform_addValues
    (grown : session.graph.Grown)
    (member : owner ∈ session.graph.nodes)
    (lists : owner.kind.listsValues = true)
    (rows : List Row) :
    ∃ values,
      Step.perform (addValues owner.id rows) session =
          (.ok values, { session with graph := session.graph.withRows owner rows }) ∧
        List.Forall₂ ((session.graph.withRows owner rows).Listed owner.id) rows values ∧
        (session.graph.withRows owner rows).children owner.id .value =
          session.graph.children owner.id .value ++ values := by
  induction rows generalizing session with
  | nil => exact ⟨[], rfl, List.Forall₂.nil, (List.append_nil _).symm⟩
  | cons row rest inductionHypothesis =>
      have accepted := grown.toCoherent.addValue_accepted member lists row
      have listed : ({ session with graph := session.graph.withListed owner row } :
          Session).graph.Grown :=
        ⟨grown.toWellFormed.addValue accepted, grown.stems.addValue accepted⟩
      obtain ⟨values, others, madeFrom, children⟩ :=
        inductionHypothesis listed (List.mem_append_left _ member)
      have first : (session.graph.withListed owner row).children owner.id .value =
          session.graph.children owner.id .value ++ [⟨session.graph.nextId⟩] := by
        simp [QueryGraph.children, withListed]
      refine ⟨⟨session.graph.nextId⟩ :: values, ?_, List.Forall₂.cons ?_ madeFrom, ?_⟩
      · rw [addValues, Step.perform_bind_ok (perform_onGraph accepted),
          Step.perform_bind_ok others]
        rfl
      · have fresh : session.graph.freshValue owner row ∈
            (session.graph.withListed owner row).nodes :=
          List.mem_append_right _ List.mem_cons_self
        exact ⟨_, mem_withRows fresh rest, rfl, rfl, rfl, rfl, rfl⟩
      · rw [withRows, children, first, List.append_assoc, List.singleton_append]

/-- The values below a node are unlisted, and those of its page are shown: they are
all that it lists then.  Only rows on a node that does not list values are
refused. -/
theorem perform_showPage
    (grown : session.graph.Grown)
    (member : owner ∈ session.graph.nodes) :
    let rows := pageRows session.pageSize owner
    let unmarked := { owner with valueExpanded := false }
    ∃ count cleared,
      session.graph.removeValues owner.id = .ok (count, cleared) ∧ unmarked ∈ cleared.nodes ∧
        if rows = [] ∨ owner.kind.listsValues = true then
          ∃ values, Step.perform (showPage owner.id) session =
              (.ok values, { session with graph := cleared.withShown unmarked rows }) ∧
            List.Forall₂ ((cleared.withRows unmarked rows).Listed owner.id) rows values ∧
            (cleared.withRows unmarked rows).children owner.id .value = values
        else Step.perform (showPage owner.id) session =
          (.error (.invalidArgument .valueOwner), { session with graph := cleared }) := by
  intro rows unmarked
  obtain ⟨count, cleared, accepted⟩ :
      ∃ count cleared, session.graph.removeValues owner.id = .ok (count, cleared) :=
    ⟨_, _, grown.toCoherent.removeValues_accepted member⟩
  have unmarkedMember : unmarked ∈ cleared.nodes := grown.mem_removeValues member accepted
  refine ⟨count, cleared, accepted, unmarkedMember, ?_⟩
  have clearedGrown := (Handles.unlist member accepted).grown grown
  have removed : Step.perform (onGraph (Step.atomic (QueryGraph.removeValues owner.id))) session =
      (.ok count, { session with graph := cleared }) := perform_onGraph accepted
  let reached : Session := { session with graph := cleared }
  have looked : Step.perform (inspectGraph (QueryGraph.node owner.id)) reached =
      (.ok unmarked, reached) :=
    @perform_node reached clearedGrown.toCoherent unmarked unmarkedMember
  rw [showPage, Step.perform_bind_ok removed, Step.perform_bind_ok (Step.perform_state _),
    Step.perform_bind_ok looked]
  show if rows = [] ∨ owner.kind.listsValues = true then
      ∃ values, Step.perform (addValues owner.id rows >>= _) _ = (.ok values, _) ∧ _
    else Step.perform (addValues owner.id rows >>= _) _ = _
  split
  · rename_i fits
    have added : ∃ values, Step.perform (addValues owner.id rows) reached =
          (.ok values, { reached with graph := cleared.withRows unmarked rows }) ∧
        List.Forall₂ ((cleared.withRows unmarked rows).Listed owner.id) rows values ∧
        (cleared.withRows unmarked rows).children owner.id .value =
          cleared.children owner.id .value ++ values := by
      rcases fits with none | lists
      · rw [none]
        exact ⟨[], rfl, List.Forall₂.nil, (List.append_nil _).symm⟩
      · exact @perform_addValues reached unmarked clearedGrown unmarkedMember lists rows
    obtain ⟨values, added, madeFrom, children⟩ := added
    rw [grown.children_removeValues member accepted, List.nil_append] at children
    have shownGrown := clearedGrown.withRows unmarkedMember rows fits
    let shown : Session := { reached with graph := cleared.withRows unmarked rows }
    have lookedAgain : Step.perform (inspectGraph (QueryGraph.node owner.id)) shown =
        (.ok unmarked, shown) :=
      @perform_node shown shownGrown.toCoherent unmarked (mem_withRows unmarkedMember rows)
    refine ⟨values, ?_, madeFrom, children⟩
    rw [Step.perform_bind_ok added, Step.perform_bind_ok lookedAgain]
    rfl
  · rename_i unfit
    obtain ⟨some, listsNone⟩ := not_or.1 unfit
    obtain ⟨row, rest, split⟩ := List.exists_cons_of_ne_nil some
    have refused : Step.perform (onGraph (Step.atomic (QueryGraph.addValue owner.id row))) reached =
        (.error (.invalidArgument .valueOwner), reached) :=
      perform_onGraph_error
        (clearedGrown.toCoherent.addValue_refused unmarkedMember (by simpa using listsNone) row)
    rw [split, addValues]
    exact Step.perform_bind_error (Step.perform_bind_error refused)

theorem perform_showPage_of_not_mem
    {id : NodeId}
    (missing : id ∉ session.graph.nodeIds) :
    Step.perform (showPage id) session = (.error (.unknownNode id), session) := by
  have unknown : session.graph.removeValues id = .error (.unknownNode id) := by
    rw [removeValues, node_of_not_mem missing]
    rfl
  exact Step.perform_bind_error (perform_onGraph_error unknown)

theorem handling_showPage (id : NodeId) : Handling (showPage id) := by
  intro session grown
  by_cases known : id ∈ session.graph.nodeIds
  · obtain ⟨owner, member, rfl⟩ := mem_nodeIds.1 known
    obtain ⟨count, cleared, accepted, unmarkedMember, shown⟩ := perform_showPage grown member
    have unlisted : Handled session.graph cleared :=
      Relation.ReflTransGen.single (Handles.unlist member accepted)
    rw [Step.after]
    split at shown
    · rename_i fits
      obtain ⟨values, performed, _⟩ := shown
      rw [performed]
      exact unlisted.tail (Handles.exhibit unmarkedMember fits)
    · rw [shown]
      exact unlisted
  · rw [Step.after, perform_showPage_of_not_mem known]

/-! ## Relationships -/

theorem handling_addFarEnd (id : NodeId) (relationship : Relationship) :
    Handling (addFarEnd id relationship) := by
  intro session
  apply FollowsFrom.state
  apply FollowsFrom.edit
  intro child graph accepted
  exact Tends.move (Handles.relate accepted)

/-- The removal of a link makes no link. -/
theorem mem_of_mem_removeLink
    {link : LinkId}
    {found : Link}
    (member :
      found ∈ (Step.after (onGraph (Step.atomicUnit (QueryGraph.removeLink link)))
        session).graph.links) :
    found ∈ session.graph.links := by
  have reached : (Step.after (onGraph (Step.atomicUnit (QueryGraph.removeLink link)))
      session).graph = Step.after (Step.atomicUnit (QueryGraph.removeLink link))
        session.graph := rfl
  rw [reached] at member
  rcases Step.after_atomicUnit_cases (QueryGraph.removeLink link) session.graph with
    accepted | unchanged
  · exact (Trims.removeLink accepted).links found member
  · rwa [unchanged] at member

/-- The relationships that leave a node. -/
def relationLinks (id : NodeId) (graph : QueryGraph) : List Link :=
  graph.links.filter fun link => link.source = id && link.kind = .relation

theorem relationsFrom_eq (id : NodeId) (graph : QueryGraph) :
    relationsFrom id graph = (relationLinks id graph).map Link.id := rfl

@[simp] theorem mem_relationLinks
    {graph : QueryGraph}
    {id : NodeId}
    {link : Link} :
    link ∈ relationLinks id graph ↔
      link ∈ graph.links ∧ link.source = id ∧ link.kind = .relation := by
  simp [relationLinks]

theorem relationLinks_sublist (id : NodeId) (graph : QueryGraph) :
    (relationLinks id graph).Sublist graph.links :=
  List.filter_sublist

/-- Only the relationships that leave a node are removed with it. -/
theorem of_mem_relationsFrom
    {graph : QueryGraph}
    (coherent : graph.Coherent)
    {id : NodeId}
    {link : Link}
    (member : link ∈ graph.links)
    (listed : link.id ∈ relationsFrom id graph) :
    link.source = id ∧ link.isRelation = true := by
  obtain ⟨relation, leaves, named⟩ := List.mem_map.1 listed
  obtain ⟨relationMember, source, isRelation⟩ := mem_relationLinks.1 leaves
  rw [coherent.eq_of_link_id_eq member relationMember named.symm]
  exact ⟨source, Link.isRelation_iff.2 isRelation⟩

/-- Links are removed one after the other; no link appears on the way. -/
theorem followsFrom_removeLinks
    {relation : QueryGraph → QueryGraph → Prop}
    [IsPreorder QueryGraph relation]
    {fits : Link → Prop}
    (removes :
      ∀ graph : QueryGraph, ∀ link ∈ graph.links, fits link →
        ∀ after, graph.removeLink link.id = .ok after → relation graph after)
    (links : List LinkId)
    (all : ∀ link ∈ links, ∀ found ∈ session.graph.links, found.id = link → fits found) :
    FollowsFrom relation session (removeLinks links) := by
  induction links generalizing session with
  | nil => exact Follows.pure () session
  | cons link rest inductionHypothesis =>
      refine FollowsFrom.bind ?_ fun _ => ?_
      · apply FollowsFrom.editUnit
        intro graph accepted
        obtain ⟨found, member, rfl, _⟩ := removeLink_ok accepted
        exact removes session.graph found member (all found.id List.mem_cons_self found member rfl)
          graph accepted
      · apply inductionHypothesis
        intro later laterMember found member
        exact all later (List.mem_cons_of_mem _ laterMember) found (mem_of_mem_removeLink member)

theorem handling_removeLinks
    (links : List LinkId)
    (relations :
      ∀ link ∈ links, ∀ found ∈ session.graph.links, found.id = link →
        found.isRelation = true) :
    FollowsFrom Tends session (removeLinks links) := by
  refine followsFrom_removeLinks ?_ links relations
  intro graph link member isRelation after accepted grown
  refine Tends.move (Handles.unlink ?_ accepted) grown
  intro found foundMember same
  rwa [grown.toCoherent.eq_of_link_id_eq foundMember member same]

/-! ## Operations -/

/-- The steps of which operations are put together make moves. -/
theorem admits_tends : Admits Tends where
  note id change unmarked _ := Tends.move (Handles.note id change unmarked)
  collapseNode := handling_collapseNode
  showPage := handling_showPage
  bindValue := by
    intro session owner member unpinned value
    apply FollowsFrom.editUnit
    intro graph accepted
    exact Tends.move (Handles.bind member unpinned accepted)
  clearValue := by
    intro id session
    apply FollowsFrom.edit
    intro cleared graph accepted
    exact Tends.move (Handles.clear accepted)
  removeRelations := by
    intro id session grown
    refine handling_removeLinks (relationsFrom id session.graph) ?_ grown
    rintro link listed found member rfl
    exact (of_mem_relationsFrom grown.toCoherent member listed).2

end Session

/-! ## Calls -/

namespace QueryGraph

/-- One graph becomes another by plain edits. -/
def PlainlyEdited (before after : QueryGraph) : Prop :=
  ∃ edits : List GraphEdit,
    (∀ edit ∈ edits, edit.isPlain = true) ∧ after = GraphEdit.run edits before

end QueryGraph

namespace SessionCall

open QueryGraph

/-- A call is plain: the caller's own edits of the graph are. -/
def IsPlain : SessionCall → Session → Prop
  | .editGraph edit, session => session.graph.PlainlyEdited (edit session.graph)
  | _, _ => True

/-- Every call of a sequence is plain on the session it finds. -/
def Plainly : List SessionCall → Session → Prop
  | [], _ => True
  | call :: rest, session => call.IsPlain session ∧ Plainly rest (call.apply session)

/-- What an operation does to a grown graph is done by moves. -/
theorem apply_tends
    (call : SessionCall)
    (session : Session)
    (operates : call.isOperation = true) :
    Tends session.graph (call.apply session).graph :=
  apply_follows Session.admits_tends Session.handling_addFarEnd call operates session

/-- What a sequence of operations does to a grown graph is done by moves. -/
theorem run_tends
    (calls : List SessionCall)
    (session : Session)
    (operate : ∀ call ∈ calls, call.isOperation = true) :
    Tends session.graph (run calls session).graph := by
  induction calls generalizing session with
  | nil => exact refl_of Tends session.graph
  | cons call rest inductionHypothesis =>
      refine trans_of Tends (apply_tends call session (operate call List.mem_cons_self)) ?_
      exact inductionHypothesis _ fun later member =>
        operate later (List.mem_cons_of_mem _ member)

theorem apply_grown
    (call : SessionCall)
    {session : Session}
    (grown : session.graph.Grown)
    (plain : call.IsPlain session) :
    (call.apply session).graph.Grown := by
  have edited : ∀ edits : List GraphEdit, (∀ edit ∈ edits, edit.isPlain = true) →
      ∀ graph : QueryGraph, graph.Grown → (GraphEdit.run edits graph).Grown :=
    fun edits plainly graph graphGrown => GraphEdit.run_grown edits graphGrown plainly
  by_cases operates : call.isOperation = true
  · exact (apply_tends call session operates grown).grown grown
  · cases call with
    | start label => exact edited [.reset label] (by simp [GraphEdit.isPlain]) _ grown
    | loadSchema schema =>
        exact edited [.clear, .addSchema schema] (by simp [GraphEdit.isPlain]) _ grown
    | editGraph edit =>
        obtain ⟨edits, plainly, same⟩ := plain
        show (edit session.graph).Grown
        rw [same]
        exact edited edits plainly _ grown
    | _ => exact absurd rfl operates

/-- The graph of a session whose caller makes plain edits only is grown. -/
theorem run_grown
    (calls : List SessionCall)
    {session : Session}
    (grown : session.graph.Grown)
    (plainly : Plainly calls session) :
    (run calls session).graph.Grown := by
  induction calls generalizing session with
  | nil => exact grown
  | cons call rest inductionHypothesis =>
      exact inductionHypothesis (apply_grown call grown plainly.1) plainly.2

end SessionCall
end VisualQuery
