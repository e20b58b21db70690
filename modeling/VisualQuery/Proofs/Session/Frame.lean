import VisualQuery.Proofs.Session.Call

/-!
# Steps that touch the graph alone

Most steps of a session change its graph and nothing else, and none of them
finds a response stale.  Both facts are closed under the ways in which steps
are put together, so that each step of a session needs one short lemma.
-/

namespace VisualQuery

variable {α β : Type}

/-! ## Refusals of graph edits -/

/-- An outcome other than the refusal of a stale response. -/
def NeverStale (outcome : Except QueryError α) : Prop :=
  ∀ token, outcome ≠ .error (.staleResponse token)

namespace NeverStale

theorem ok (answer : α) : NeverStale (.ok answer : Except QueryError α) := by
  intro token same
  cases same

theorem pure (answer : α) : NeverStale (Pure.pure answer : Except QueryError α) := ok answer

theorem error
    {error : QueryError}
    (other : ∀ token, error ≠ .staleResponse token) :
    NeverStale (.error error : Except QueryError α) := by
  intro token same
  injection same with same
  exact other token same

theorem bind
    {outcome : Except QueryError α}
    {next : α → Except QueryError β}
    (first : NeverStale outcome)
    (second : ∀ answer, NeverStale (next answer)) :
    NeverStale (outcome >>= next) := by
  cases outcome with
  | ok answer => exact second answer
  | error reason =>
      intro token same
      injection same with same
      exact first token (by rw [same])

/-- A test in front that refuses for another reason. -/
theorem refuse
    {test : Prop}
    [Decidable test]
    {error : QueryError}
    {otherwise : PUnit → Except QueryError α}
    (other : ∀ token, error ≠ .staleResponse token)
    (passed : NeverStale (otherwise ⟨⟩)) :
    NeverStale (if test then throw error >>= otherwise else otherwise ⟨⟩) := by
  split
  · exact NeverStale.error other
  · exact passed

theorem map
    {outcome : Except QueryError α}
    (holds : NeverStale outcome)
    (change : α → β) :
    NeverStale (outcome.map change) := by
  cases outcome with
  | ok answer => exact ok _
  | error reason =>
      intro token same
      injection same with same
      exact holds token (by rw [same])

end NeverStale

namespace QueryGraph

variable {graph : QueryGraph}

theorem neverStale_node (id : NodeId) (graph : QueryGraph) : NeverStale (graph.node id) := by
  unfold node
  split
  · exact NeverStale.ok _
  · exact NeverStale.error (by simp)

theorem neverStale_link (id : LinkId) (graph : QueryGraph) : NeverStale (graph.link id) := by
  unfold link
  split
  · exact NeverStale.ok _
  · exact NeverStale.error (by simp)

theorem neverStale_addLink
    (source target : NodeId)
    (kind : LinkKind)
    (label : Option String)
    (graph : QueryGraph) :
    NeverStale (graph.addLink source target kind label) := by
  refine (neverStale_node source graph).bind fun _ => ?_
  refine (neverStale_node target graph).bind fun _ => ?_
  exact NeverStale.pure _

theorem neverStale_addRelationship
    (parent : NodeId)
    (relationship label : String)
    (isGroup : Bool)
    (graph : QueryGraph) :
    NeverStale (graph.addRelationship parent relationship label isGroup) := by
  refine NeverStale.bind ?_ fun made => ?_
  · refine (neverStale_node parent graph).bind fun _ => ?_
    exact NeverStale.pure _
  · refine (neverStale_addLink _ _ _ _ made.2).bind fun _ => ?_
    exact NeverStale.pure _

theorem neverStale_addValue
    (parent : NodeId)
    (attributes : Row)
    (graph : QueryGraph) :
    NeverStale (graph.addValue parent attributes) := by
  refine (neverStale_node parent graph).bind fun owner => ?_
  refine NeverStale.refuse (by simp) ?_
  refine (neverStale_addLink _ _ _ _ _).bind fun _ => ?_
  exact NeverStale.pure _

theorem neverStale_removeLink (id : LinkId) (graph : QueryGraph) :
    NeverStale (graph.removeLink id) := by
  refine (neverStale_link id graph).bind fun _ => ?_
  exact NeverStale.pure _

theorem neverStale_removeValues (id : NodeId) (graph : QueryGraph) :
    NeverStale (graph.removeValues id) := by
  refine (neverStale_node id graph).bind fun _ => ?_
  exact NeverStale.pure _

theorem neverStale_bindValue (node value : NodeId) (graph : QueryGraph) :
    NeverStale (graph.bindValue node value) := by
  refine (neverStale_node node graph).bind fun owner => ?_
  refine (neverStale_node value graph).bind fun candidate => ?_
  refine NeverStale.refuse (by simp) (NeverStale.refuse (by simp) ?_)
  split
  · split <;> exact NeverStale.pure _
  · exact NeverStale.pure _

theorem neverStale_clearValue (node : NodeId) (graph : QueryGraph) :
    NeverStale (graph.clearValue node) := by
  refine (neverStale_node node graph).bind fun owner => ?_
  split
  · exact NeverStale.pure _
  · split <;> exact NeverStale.pure _

theorem neverStale_listedFor (value : NodeId) (graph : QueryGraph) :
    NeverStale (Session.listedFor value graph) := by
  refine (neverStale_node value graph).bind fun node => ?_
  split
  · exact NeverStale.pure _
  · exact NeverStale.error (by simp)

end QueryGraph

namespace Session

/-! ## Steps that keep to the graph -/

/-- A step changes nothing of a session but its graph, and finds no response
stale. -/
def GraphOnly (step : Step Session α) : Prop :=
  ∀ session, ∃ outcome graph,
    Step.perform step session = (outcome, { session with graph }) ∧ NeverStale outcome

namespace GraphOnly

theorem pure (answer : α) : GraphOnly (Pure.pure answer : Step Session α) := by
  intro session
  exact ⟨.ok answer, session.graph, rfl, NeverStale.ok answer⟩

theorem throw
    {error : QueryError}
    (other : ∀ token, error ≠ .staleResponse token) :
    GraphOnly (throw error : Step Session α) := by
  intro session
  exact ⟨.error error, session.graph, rfl, NeverStale.error other⟩

theorem bind
    {step : Step Session α}
    {next : α → Step Session β}
    (first : GraphOnly step)
    (second : ∀ answer, GraphOnly (next answer)) :
    GraphOnly (step >>= next) := by
  intro session
  obtain ⟨outcome, graph, performed, notStale⟩ := first session
  rw [Step.perform_bind, performed]
  cases outcome with
  | ok answer => exact second answer { session with graph }
  | error reason =>
      refine ⟨.error reason, graph, rfl, NeverStale.error ?_⟩
      intro token same
      exact notStale token (by rw [same])

/-- A test in front that refuses for another reason. -/
theorem refuse
    {test : Prop}
    [Decidable test]
    {error : QueryError}
    {otherwise : PUnit → Step Session α}
    (other : ∀ token, error ≠ .staleResponse token)
    (passed : GraphOnly (otherwise ⟨⟩)) :
    GraphOnly (if test then MonadExcept.throw error >>= otherwise else otherwise ⟨⟩) := by
  split
  · exact (throw other).bind fun _ => passed
  · exact passed

theorem state : GraphOnly Step.state := by
  intro session
  exact ⟨.ok session, session.graph, rfl, NeverStale.ok session⟩

theorem inspect
    {look : Session → Except QueryError α}
    (notStale : ∀ session, NeverStale (look session)) :
    GraphOnly (Step.inspect look) := by
  intro session
  exact ⟨look session, session.graph, Step.perform_inspect look session, notStale session⟩

theorem inspectGraph
    {look : QueryGraph → Except QueryError α}
    (notStale : ∀ graph, NeverStale (look graph)) :
    GraphOnly (inspectGraph look) :=
  inspect fun session => notStale session.graph

theorem node (id : NodeId) : GraphOnly (Session.inspectGraph (QueryGraph.node id)) :=
  inspectGraph (QueryGraph.neverStale_node id)

theorem modifyNode (id : NodeId) (change : Node → Node) : GraphOnly (modifyNode id change) := by
  intro session
  exact ⟨.ok (), session.graph.modifyNode id change, rfl, NeverStale.ok ()⟩

theorem atomic
    {edit : QueryGraph → Except QueryError (α × QueryGraph)}
    (notStale : ∀ graph, NeverStale (edit graph)) :
    GraphOnly (onGraph (Step.atomic edit)) := by
  intro session
  have outcome : Step.perform (onGraph (Step.atomic edit)) session =
      ((Step.perform (Step.atomic edit) session.graph).1,
        { session with graph := (Step.perform (Step.atomic edit) session.graph).2 }) := rfl
  refine ⟨_, _, outcome, ?_⟩
  cases edited : edit session.graph with
  | ok result =>
      rw [Step.perform_atomic_ok edited]
      exact NeverStale.ok _
  | error reason =>
      rw [Step.perform_atomic_error edited]
      refine NeverStale.error ?_
      intro token same
      exact notStale session.graph token (by rw [edited, same])

theorem atomicUnit
    {edit : QueryGraph → Except QueryError QueryGraph}
    (notStale : ∀ graph, NeverStale (edit graph)) :
    GraphOnly (onGraph (Step.atomicUnit edit)) :=
  atomic fun graph => (notStale graph).map _

end GraphOnly

/-! ## The steps of a session -/

theorem graphOnly_collapseNode (id : NodeId) : GraphOnly (collapseNode id) := by
  refine (GraphOnly.node id).bind fun node => ?_
  split
  · exact GraphOnly.atomic (QueryGraph.neverStale_removeValues id)
  · exact GraphOnly.pure 0

theorem graphOnly_collapseEach (ids : List NodeId) : GraphOnly (collapseEach ids) := by
  induction ids with
  | nil => exact GraphOnly.pure ()
  | cons id ids inductionHypothesis =>
      exact (graphOnly_collapseNode id).bind fun _ => inductionHypothesis

theorem graphOnly_collapseAll : GraphOnly collapseAll :=
  GraphOnly.state.bind fun session => graphOnly_collapseEach (expandedNodes session.graph)

theorem graphOnly_addValues (id : NodeId) (rows : List Row) : GraphOnly (addValues id rows) := by
  induction rows with
  | nil => exact GraphOnly.pure []
  | cons row rows inductionHypothesis =>
      refine (GraphOnly.atomic (QueryGraph.neverStale_addValue id row)).bind fun value => ?_
      exact inductionHypothesis.bind fun values => GraphOnly.pure (value :: values)

theorem graphOnly_showPage (id : NodeId) : GraphOnly (showPage id) := by
  refine (GraphOnly.atomic (QueryGraph.neverStale_removeValues id)).bind fun _ => ?_
  refine GraphOnly.state.bind fun session => ?_
  refine (GraphOnly.node id).bind fun node => ?_
  refine (graphOnly_addValues id _).bind fun values => ?_
  refine (GraphOnly.node id).bind fun _ => ?_
  exact (GraphOnly.modifyNode id _).bind fun _ => GraphOnly.pure values

theorem graphOnly_nextPage (id : NodeId) : GraphOnly (nextPage id) := by
  refine GraphOnly.state.bind fun session => ?_
  refine (GraphOnly.node id).bind fun _ => ?_
  exact (GraphOnly.modifyNode id _).bind fun _ => graphOnly_showPage id

theorem graphOnly_selectValue (value : NodeId) : GraphOnly (selectValue value) := by
  refine (GraphOnly.inspectGraph (QueryGraph.neverStale_listedFor value)).bind fun owner => ?_
  refine (GraphOnly.node owner).bind fun node => ?_
  refine GraphOnly.refuse (by simp) ?_
  refine (GraphOnly.atomicUnit (QueryGraph.neverStale_bindValue owner value)).bind fun _ => ?_
  exact (graphOnly_collapseNode owner).bind fun _ => GraphOnly.pure owner

theorem graphOnly_clearSelection (id : NodeId) : GraphOnly (clearSelection id) := by
  refine (GraphOnly.node id).bind fun _ => ?_
  refine graphOnly_collapseAll.bind fun _ => ?_
  exact GraphOnly.atomic (QueryGraph.neverStale_clearValue id)

theorem neverStale_answered (outcome : Outcome) : NeverStale (answered outcome) := by
  cases outcome with
  | ok response => exact NeverStale.ok response
  | error failure => exact NeverStale.error (by simp)

theorem graphOnly_completeRelations (request : RelationRequest) (outcome : Outcome) :
    GraphOnly (completeRelations request outcome) := by
  refine (GraphOnly.inspect fun _ => neverStale_answered outcome).bind fun response => ?_
  refine GraphOnly.state.bind fun session => ?_
  refine (GraphOnly.node request.node).bind fun _ => ?_
  exact (GraphOnly.modifyNode request.node _).bind fun _ => GraphOnly.pure _

theorem graphOnly_addFarEnd (id : NodeId) (relationship : Relationship) :
    GraphOnly (addFarEnd id relationship) := by
  refine GraphOnly.state.bind fun session => ?_
  exact GraphOnly.atomic (QueryGraph.neverStale_addRelationship id _ _ _)

theorem graphOnly_addFarEnds (id : NodeId) (relationships : List Relationship) :
    GraphOnly (addFarEnds id relationships) := by
  induction relationships with
  | nil => exact GraphOnly.pure []
  | cons relationship relationships inductionHypothesis =>
      refine (graphOnly_addFarEnd id relationship).bind fun child => ?_
      exact inductionHypothesis.bind fun children => GraphOnly.pure (child :: children)

theorem graphOnly_expandRelationship (id : NodeId) (relationship : Relationship) :
    GraphOnly (expandRelationship id relationship) := by
  refine (GraphOnly.node id).bind fun node => ?_
  refine GraphOnly.refuse (by simp) ?_
  exact (GraphOnly.modifyNode id _).bind fun _ => graphOnly_addFarEnd id relationship

theorem graphOnly_expandRelationships (id : NodeId) : GraphOnly (expandRelationships id) := by
  refine (GraphOnly.node id).bind fun node => ?_
  exact (GraphOnly.modifyNode id _).bind fun _ => graphOnly_addFarEnds id node.relationships

theorem graphOnly_removeLinks (links : List LinkId) : GraphOnly (removeLinks links) := by
  induction links with
  | nil => exact GraphOnly.pure ()
  | cons link links inductionHypothesis =>
      refine (GraphOnly.atomicUnit (QueryGraph.neverStale_removeLink link)).bind fun _ => ?_
      exact inductionHypothesis

theorem graphOnly_collapseRelationships (id : NodeId) :
    GraphOnly (collapseRelationships id) := by
  refine (GraphOnly.node id).bind fun node => ?_
  split
  · exact GraphOnly.pure 0
  · refine graphOnly_collapseAll.bind fun _ => ?_
    refine GraphOnly.state.bind fun session => ?_
    exact (graphOnly_removeLinks _).bind fun _ => GraphOnly.pure _

end Session
end VisualQuery
