import VisualQuery.Proofs.Graph.Listings
import VisualQuery.Proofs.Session.Operations

/-!
# Sessions that draw

All that the calls of a session do to its graph is done by edits.  None of them
adds a bare node or link, and only expanding makes relationships.  So a session
whose caller draws, and expands terms only, has a drawn graph.
-/

namespace VisualQuery

variable {α : Type}

namespace QueryGraph

/-- No value bears a number. -/
def TermsOnly (id : NodeId) (graph : QueryGraph) : Prop :=
  ∀ node ∈ graph.nodes, node.id = id → node.kind ≠ .value

end QueryGraph

namespace SessionCall

/-- A call draws: the caller's own edit of the graph does, and nothing is
expanded from a value. -/
def Draws : SessionCall → Session → Prop
  | .editGraph edit, session => session.graph.Redrawn (edit session.graph)
  | .expandRelationship node _, session => session.graph.TermsOnly node
  | .expandRelationships node, session => session.graph.TermsOnly node
  | .runAutoExpand node _, session => session.graph.TermsOnly node
  | _, _ => True

/-- Every call of a sequence draws on the session it finds. -/
def Drawing : List SessionCall → Session → Prop
  | [], _ => True
  | call :: rest, session => call.Draws session ∧ Drawing rest (call.apply session)

end SessionCall

namespace Session

instance : IsPreorder QueryGraph QueryGraph.Redrawn where
  refl := QueryGraph.Redrawn.refl
  trans _ _ _ := QueryGraph.Redrawn.trans

/-- A step does nothing to the graph but draw. -/
abbrev Redraws (step : Step Session α) : Prop := Follows QueryGraph.Redrawn step

theorem routineIn_redrawn : GraphEdit.RoutineIn QueryGraph.Redrawn := by
  intro edit graph routine
  apply QueryGraph.Redrawn.edit
  cases edit <;> trivial

/-- The steps of which operations are put together draw. -/
theorem admits_redrawn : Admits QueryGraph.Redrawn := admits_of_routine routineIn_redrawn

theorem redraws_loadSchema (schema : NodeSchema) : Redraws (loadSchema schema) := by
  refine Follows.bind ?_ fun _ session => ?_
  · exact fun session => QueryGraph.Redrawn.edit
      (show GraphEdit.clear.Draws session.graph from trivial)
  · exact QueryGraph.Redrawn.edit
      (show (GraphEdit.addSchema schema).Draws session.graph from trivial)

/-! ## Expanding -/

theorem termsOnly_modifyNode
    {graph : QueryGraph}
    {id : NodeId}
    (termsOnly : graph.TermsOnly id)
    (changed : NodeId)
    {change : Node → Node}
    (inPlace : Node.InPlace change) :
    (graph.modifyNode changed change).TermsOnly id := by
  intro node member named
  obtain ⟨old, oldMember, sameId, sameKind, _⟩ :=
    QueryGraph.exists_of_mem_modifyNode inPlace member
  rw [← sameKind]
  exact termsOnly old oldMember (sameId.trans named)

/-- The node at the far end of a relationship is a term. -/
theorem termsOnly_addRelationship
    {graph : QueryGraph}
    {id : NodeId}
    (termsOnly : graph.TermsOnly id)
    (parent : NodeId)
    (relationship label : String)
    (isGroup : Bool) :
    (Step.after (Step.atomic (QueryGraph.addRelationship parent relationship label isGroup))
      graph).TermsOnly id := by
  refine Step.atomic_property termsOnly ?_
  intro child after accepted
  obtain ⟨between, link, added, linked⟩ := QueryGraph.addRelationship_ok accepted
  obtain ⟨_, _, rfl⟩ := QueryGraph.addNode_ok added
  obtain ⟨_, _, rfl⟩ := QueryGraph.addLink_ok linked
  intro node member named
  rcases List.mem_append.1 member with old | new
  · exact termsOnly node old named
  · rw [List.mem_singleton] at new
    rw [new]
    exact QueryGraph.kind_freshTerm_ne_value _ _ _

/-- The node at the far end of a relationship is drawn below a term, which
stays one. -/
theorem redraws_addFarEnd
    {session : Session}
    {id : NodeId}
    (termsOnly : session.graph.TermsOnly id)
    (relationship : Relationship) :
    FollowsFrom QueryGraph.Redrawn session (addFarEnd id relationship) ∧
      (Step.after (addFarEnd id relationship) session).graph.TermsOnly id := by
  let isGroup := (session.metadata.resolve relationship.label).group
  have draws : (GraphEdit.addRelationship id relationship.name relationship.label
      isGroup).Draws session.graph := termsOnly
  exact ⟨QueryGraph.Redrawn.edit draws,
    termsOnly_addRelationship termsOnly id relationship.name relationship.label isGroup⟩

theorem redraws_addFarEnds
    {session : Session}
    {id : NodeId}
    (termsOnly : session.graph.TermsOnly id)
    (relationships : List Relationship) :
    FollowsFrom QueryGraph.Redrawn session (addFarEnds id relationships) := by
  induction relationships generalizing session with
  | nil => exact Follows.pure [] session
  | cons relationship rest inductionHypothesis =>
      obtain ⟨redraws, stays⟩ := redraws_addFarEnd termsOnly relationship
      refine redraws.bind fun child => ?_
      exact (inductionHypothesis stays).bind fun children => Follows.pure (child :: children) _

theorem redraws_expandRelationship
    {session : Session}
    {id : NodeId}
    (termsOnly : session.graph.TermsOnly id)
    (relationship : Relationship) :
    FollowsFrom QueryGraph.Redrawn session (expandRelationship id relationship) := by
  refine (Follows.inspectGraph _ session).bind fun node => FollowsFrom.refuse fun _ => ?_
  rw [Step.after, perform_inspectGraph]
  refine (admits_redrawn.note id (fun notes =>
    { notes with relationships := notes.relationships.erase relationship })
    (fun _ => rfl) session).bind fun _ => ?_
  refine (redraws_addFarEnd ?_ relationship).1
  exact termsOnly_modifyNode termsOnly id (Node.InPlace.note fun notes =>
    { notes with relationships := notes.relationships.erase relationship })

theorem redraws_expandRelationships
    {session : Session}
    {id : NodeId}
    (termsOnly : session.graph.TermsOnly id) :
    FollowsFrom QueryGraph.Redrawn session (expandRelationships id) := by
  refine (Follows.inspectGraph _ session).bind fun node => ?_
  rw [Step.after, perform_inspectGraph]
  refine (admits_redrawn.note id (fun notes => { notes with relationships := [] })
    (fun _ => rfl) session).bind fun _ => ?_
  apply redraws_addFarEnds
  exact termsOnly_modifyNode termsOnly id (Node.InPlace.note fun notes =>
    { notes with relationships := [] })

/-! ## Calls -/

/-- A discovery makes no node a value. -/
theorem termsOnly_runRelations
    {discovered id : NodeId}
    {session : Session}
    (termsOnly : session.graph.TermsOnly id)
    (post : TransactionRequest → Outcome) :
    (Id.run (runRelations discovered post session)).2.graph.TermsOnly id := by
  unfold runRelations
  cases session.beginRelations discovered with
  | error error => exact termsOnly
  | ok request =>
      show (Step.after (completeRelations request (post request.request)) session).graph.TermsOnly id
      cases post request.request with
      | error failure =>
          rw [after_completeRelations_error]
          exact termsOnly
      | ok response =>
          rw [graph_completeRelations_ok]
          exact termsOnly_modifyNode termsOnly request.node (Node.InPlace.note fun notes =>
            { notes with relationships := relationshipsOf response session })

end Session

namespace SessionCall

/-- A call that draws does nothing else to the graph. -/
theorem apply_redrawn
    (call : SessionCall)
    {session : Session}
    (draws : call.Draws session) :
    session.graph.Redrawn (call.apply session).graph := by
  cases call with
  | start label =>
      exact QueryGraph.Redrawn.edit
        (show (GraphEdit.reset label).Draws session.graph from trivial)
  | loadSchema schema => exact Session.redraws_loadSchema schema session
  | editGraph edit => exact draws
  | expandRelationship id relationship =>
      exact Session.redraws_expandRelationship draws relationship
  | expandRelationships id => exact Session.redraws_expandRelationships draws
  | runAutoExpand id post =>
      exact Session.admits_redrawn.runAutoExpand
        (Session.redraws_expandRelationships (Session.termsOnly_runRelations draws post))
  | completeCounts batch outcome => exact Session.admits_redrawn.completeCounts batch outcome session
  | beginValues id => exact Session.admits_redrawn.beginValues id session
  | completeValues request outcome =>
      exact Session.admits_redrawn.completeValues request outcome session
  | nextPage id => exact Session.admits_redrawn.nextPage id session
  | selectValue value => exact Session.admits_redrawn.selectValue value session
  | clearSelection id => exact Session.admits_redrawn.clearSelection id session
  | collapseNode id => exact Session.admits_redrawn.collapseNode id session
  | completeRelations request outcome =>
      exact Session.admits_redrawn.completeRelations request outcome session
  | collapseRelationships id => exact Session.admits_redrawn.collapseRelationships id session
  | runCounts post => exact Session.admits_redrawn.runCounts post session
  | runValues id post => exact Session.admits_redrawn.runValues id post session
  | runRelations id post => exact Session.admits_redrawn.runRelations id post session

/-- The graph of a session that draws is a drawn graph. -/
theorem run_drawn
    (calls : List SessionCall)
    {session : Session}
    (drawn : session.graph.Drawn)
    (drawing : Drawing calls session) :
    (run calls session).graph.Drawn := by
  induction calls generalizing session with
  | nil => exact drawn
  | cons call rest inductionHypothesis =>
      exact inductionHypothesis ((apply_redrawn call drawing.1).drawn drawn) drawing.2

end SessionCall
end VisualQuery
