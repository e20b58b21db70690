import VisualQuery.Proofs.Graph.Edit
import VisualQuery.Proofs.Session.Following
import VisualQuery.Proofs.Session.Lateness

/-!
# What operations do to the graph

The operations of a session are put together from few steps that touch its
graph.  So a preorder on graphs that admits these steps contains what any
operation does to the graph.  It admits them if it contains the edits that they
make.
-/

namespace VisualQuery

variable {α : Type} {relation : QueryGraph → QueryGraph → Prop}

namespace Session

/-! ## Operations on some nodes -/

/-- A relation contains what the steps do that operations on some nodes are put
together from: to note something other than the mark of a listing and new
relationships on one of them, to unlist and to show its values, to bind it unless
it is pinned, to unbind it and to remove its relationships; to unlist all values,
on whatever nodes they are; and to note relationships on a node that they were
discovered for. -/
structure AdmitsOn
    (own discovered : NodeId → Prop)
    (relation : QueryGraph → QueryGraph → Prop) : Prop where
  note :
    ∀ id, own id → ∀ change : NodeNotes → NodeNotes,
      (∀ notes, (change notes).valueExpanded = notes.valueExpanded) →
        (∀ notes, (change notes).relationships.Sublist notes.relationships) →
          Follows relation (modifyNode id fun node => node.withNotes (change node.notes))
  discover :
    ∀ id, discovered id → ∀ relationships,
      Follows relation (modifyNode id fun node => { node with relationships })
  collapseNode : ∀ id, own id → Follows relation (collapseNode id)
  collapseAll : Follows relation collapseAll
  showPage : ∀ id, own id → Follows relation (showPage id)
  bindValue :
    ∀ session : Session, ∀ owner ∈ session.graph.nodes, own owner.id → owner.immutable = false →
      ∀ value,
        FollowsFrom relation session
          (onGraph (Step.atomicUnit (QueryGraph.bindValue owner.id value)))
  clearValue :
    ∀ id, own id → Follows relation (onGraph (Step.atomic (QueryGraph.clearValue id)))
  removeRelations :
    ∀ id, own id → ∀ session,
      FollowsFrom relation session (removeLinks (relationsFrom id session.graph))

/-- Listings are collapsed one after the other. -/
theorem Follows.collapseEach
    [IsPreorder QueryGraph relation]
    {ids : List NodeId}
    (collapses : ∀ id ∈ ids, Follows relation (collapseNode id)) :
    Follows relation (collapseEach ids) := by
  induction ids with
  | nil => exact Follows.pure ()
  | cons id rest inductionHypothesis =>
      refine (collapses id List.mem_cons_self).bind fun _ => ?_
      exact inductionHypothesis fun later member => collapses later (List.mem_cons_of_mem _ member)

namespace AdmitsOn

variable
  [IsPreorder QueryGraph relation]
  {own discovered : NodeId → Prop}
  (admits : AdmitsOn own discovered relation)

section

include admits

theorem beginValues (id : NodeId) : Follows relation (beginValues id) := by
  refine (Follows.inspectGraph _).bind fun node session => FollowsFrom.refuse fun _ => ?_
  refine (Follows.state session).bind fun reached => ?_
  split
  · exact Follows.pure none session
  · have asks := admits.collapseAll.bind fun _ =>
      (Follows.inspect fun session => session.context.valueQuery id).bind fun query =>
        (Follows.issueValueRequest id query).bind fun request => Follows.pure (some request)
    exact asks session

theorem completeValues
    (request : ValueRequest)
    (isOwn : own request.node)
    (outcome : Outcome) :
    Follows relation (completeValues request outcome) := by
  refine (Follows.settleValueRequest request.token).bind fun _ =>
    (Follows.inspect _).bind fun response => (Follows.inspectGraph _).bind fun _ => ?_
  refine (admits.note request.node isOwn (fun notes =>
    { notes with data := response.firstRows, page := 1 }) (fun _ => rfl)
    fun _ => List.Sublist.refl _).bind fun _ => ?_
  exact admits.showPage request.node isOwn

theorem nextPage
    (id : NodeId)
    (isOwn : own id) :
    Follows relation (nextPage id) := by
  refine Follows.state.bind fun session => (Follows.inspectGraph _).bind fun _ => ?_
  refine (admits.note id isOwn (fun notes =>
    { notes with
      page := if notes.page * session.pageSize < notes.data.length then notes.page + 1 else 1 })
    (fun _ => rfl) fun _ => List.Sublist.refl _).bind fun _ => ?_
  exact admits.showPage id isOwn

/-- The node that a value was listed for has to be one of the nodes. -/
theorem selectValue
    {session : Session}
    (value : NodeId)
    (isOwn : ∀ owner, listedFor value session.graph = .ok owner → own owner) :
    FollowsFrom relation session (selectValue value) := by
  apply FollowsFrom.look
  intro owner listed
  have ownsOwner := isOwn owner listed
  apply FollowsFrom.node
  intro node member named
  apply FollowsFrom.refuse
  intro unpinned
  refine FollowsFrom.bind ?_ fun _ =>
    ((admits.collapseNode owner ownsOwner).bind fun _ => Follows.pure owner) _
  rw [← named] at ownsOwner ⊢
  exact admits.bindValue session node member ownsOwner (by simpa using unpinned) value

theorem clearSelection
    (id : NodeId)
    (isOwn : own id) :
    Follows relation (clearSelection id) :=
  (Follows.inspectGraph _).bind fun _ =>
    admits.collapseAll.bind fun _ => admits.clearValue id isOwn

theorem completeRelations
    (request : RelationRequest)
    (isDiscovered : discovered request.node)
    (outcome : Outcome) :
    Follows relation (completeRelations request outcome) := by
  refine (Follows.inspect _).bind fun response => Follows.state.bind fun session => ?_
  refine (Follows.inspectGraph _).bind fun _ => ?_
  exact (admits.discover request.node isDiscovered (relationshipsOf response session)).bind
    fun _ => Follows.pure _

theorem collapseRelationships
    (id : NodeId)
    (isOwn : own id) :
    Follows relation (collapseRelationships id) := by
  refine (Follows.inspectGraph _).bind fun node => ?_
  split
  · exact Follows.pure 0
  · refine admits.collapseAll.bind fun _ session => FollowsFrom.state ?_
    exact (admits.removeRelations id isOwn session).bind fun _ => Follows.pure _ _

/-- A discovery that is refused does nothing. -/
theorem runRelations
    {id : NodeId}
    {session : Session}
    (isDiscovered : ∀ request, session.beginRelations id = .ok request → discovered id)
    (post : TransactionRequest → Outcome) :
    relation session.graph (Id.run (runRelations id post session)).2.graph := by
  unfold Session.runRelations
  cases begun : session.beginRelations id with
  | error error => exact refl_of relation session.graph
  | ok request =>
      have named : request.node = id := node_of_beginRelations begun
      exact admits.completeRelations request (named ▸ isDiscovered request begun)
        (post request.request) session

theorem runValues
    (id : NodeId)
    (isOwn : own id)
    (post : TransactionRequest → Outcome)
    (session : Session) :
    relation session.graph (Id.run (runValues id post session)).2.graph := by
  have begun := admits.beginValues id session
  unfold FollowsFrom Step.after at begun
  unfold Session.runValues
  rcases performed : Step.perform (Session.beginValues id) session with
    ⟨_ | _ | request, reached⟩ <;> rw [performed] at begun
  · exact begun
  · exact begun
  · have named : request.node = id := node_of_beginValues performed
    exact trans_of relation begun
      (admits.completeValues request (named ▸ isOwn) (post request.request) reached)

/-- If expanding a node that was discovered stays within the relation, then so does
discovering it first. -/
theorem runAutoExpand
    {id : NodeId}
    {session : Session}
    (isDiscovered : ∀ request, session.beginRelations id = .ok request → discovered id)
    {post : TransactionRequest → Outcome}
    (expands :
      FollowsFrom relation (Id.run (Session.runRelations id post session)).2
        (expandRelationships id)) :
    relation session.graph (Id.run (runAutoExpand id post session)).2.graph := by
  have discovers := admits.runRelations isDiscovered post
  unfold Session.runAutoExpand
  cases session.graph.node id with
  | error error => exact refl_of relation session.graph
  | ok node =>
      by_cases asked : (session.metadata.resolve node.label).autoExpandRelations = true
      · simp only [asked, if_true, Id.run_bind]
        rcases found : Id.run (Session.runRelations id post session) with ⟨outcome, reached⟩
        rw [found] at discovers expands
        cases outcome with
        | error error => exact discovers
        | ok relationships => exact trans_of relation discovers expands
      · simp only [asked]
        exact refl_of relation session.graph

end

section Expanding

variable {id : NodeId} (adds : ∀ relationship, Follows relation (addFarEnd id relationship))
include adds

theorem addFarEnds (relationships : List Relationship) :
    Follows relation (addFarEnds id relationships) := by
  induction relationships with
  | nil => exact Follows.pure []
  | cons relationship rest inductionHypothesis =>
      refine (adds relationship).bind fun child => ?_
      exact inductionHypothesis.bind fun children => Follows.pure (child :: children)

include admits

theorem expandRelationship
    (isOwn : own id)
    (relationship : Relationship) :
    Follows relation (expandRelationship id relationship) := by
  refine (Follows.inspectGraph _).bind fun node session => FollowsFrom.refuse fun _ => ?_
  have expanding := (admits.note id isOwn (fun notes =>
    { notes with relationships := notes.relationships.erase relationship }) (fun _ => rfl)
    fun _ => List.erase_sublist).bind fun _ => adds relationship
  exact expanding session

theorem expandRelationships (isOwn : own id) :
    Follows relation (expandRelationships id) := by
  refine (Follows.inspectGraph _).bind fun node => ?_
  exact (admits.note id isOwn (fun notes => { notes with relationships := [] })
    (fun _ => rfl) fun _ => List.nil_sublist _).bind fun _ => addFarEnds adds node.relationships

end Expanding

end AdmitsOn

/-! ## Operations on any node -/

/-- A relation contains what the steps do that operations are put together from:
to note something other than the mark of a listing, to unlist and to show values,
to bind a node that is not pinned, to unbind a node, and to remove relationships. -/
structure Admits (relation : QueryGraph → QueryGraph → Prop) : Prop where
  note :
    ∀ (id : NodeId) (change : NodeNotes → NodeNotes),
      (∀ notes, (change notes).valueExpanded = notes.valueExpanded) →
        Follows relation (modifyNode id fun node => node.withNotes (change node.notes))
  collapseNode : ∀ id, Follows relation (collapseNode id)
  showPage : ∀ id, Follows relation (showPage id)
  bindValue :
    ∀ session : Session, ∀ owner ∈ session.graph.nodes, owner.immutable = false → ∀ value,
      FollowsFrom relation session
        (onGraph (Step.atomicUnit (QueryGraph.bindValue owner.id value)))
  clearValue : ∀ id, Follows relation (onGraph (Step.atomic (QueryGraph.clearValue id)))
  removeRelations :
    ∀ id session, FollowsFrom relation session (removeLinks (relationsFrom id session.graph))

namespace Admits

variable [IsPreorder QueryGraph relation] (admits : Admits relation)
include admits

/-! ### Listings -/

theorem collapseAll : Follows relation collapseAll :=
  Follows.state.bind fun _ => Follows.collapseEach fun id _ => admits.collapseNode id

/-- The steps are admitted on every node. -/
theorem everywhere : AdmitsOn (fun _ => True) (fun _ => True) relation where
  note id _ change sameMark _ := admits.note id change sameMark
  discover id _ relationships :=
    admits.note id (fun notes => { notes with relationships }) fun _ => rfl
  collapseNode id _ := admits.collapseNode id
  collapseAll := admits.collapseAll
  showPage id _ := admits.showPage id
  bindValue session owner member _ := admits.bindValue session owner member
  clearValue id _ := admits.clearValue id
  removeRelations id _ := admits.removeRelations id

theorem beginValues (id : NodeId) : Follows relation (beginValues id) :=
  admits.everywhere.beginValues id

theorem completeValues (request : ValueRequest) (outcome : Outcome) :
    Follows relation (completeValues request outcome) :=
  admits.everywhere.completeValues request trivial outcome

theorem nextPage (id : NodeId) : Follows relation (nextPage id) :=
  admits.everywhere.nextPage id trivial

theorem selectValue (value : NodeId) : Follows relation (selectValue value) :=
  fun _ => admits.everywhere.selectValue value fun _ _ => trivial

theorem clearSelection (id : NodeId) : Follows relation (clearSelection id) :=
  admits.everywhere.clearSelection id trivial

/-! ### Relationships -/

theorem completeRelations (request : RelationRequest) (outcome : Outcome) :
    Follows relation (completeRelations request outcome) :=
  admits.everywhere.completeRelations request trivial outcome

theorem collapseRelationships (id : NodeId) :
    Follows relation (collapseRelationships id) :=
  admits.everywhere.collapseRelationships id trivial

/-! ### Counts -/

theorem completeCounts (batch : CountBatch) (outcome : Outcome) :
    Follows relation (completeCounts batch outcome) := by
  have stores : ∀ (entries : List (NodeId × Nat)) (session : Session),
      relation session.graph (entries.foldl
        (fun graph entry =>
          graph.modifyNode entry.1 fun node => { node with count := countAt outcome entry.2 })
        session.graph) := by
    intro entries
    induction entries with
    | nil => exact fun session => refl_of relation session.graph
    | cons entry rest inductionHypothesis =>
        intro session
        have noted := admits.note entry.1 (fun notes =>
          { notes with count := countAt outcome entry.2 }) (fun _ => rfl) session
        exact trans_of relation noted (inductionHypothesis (Step.after _ session))
  intro session
  unfold FollowsFrom Step.after
  by_cases current : batch.generation = session.generation
  · rw [completeCounts_current current]
    exact stores _ session
  · rw [completeCounts_stale current]
    exact refl_of relation session.graph

/-! ### Whole exchanges -/

theorem runCounts
    (post : TransactionRequest → Outcome)
    (session : Session) :
    relation session.graph (Id.run (runCounts post session)).2.graph := by
  unfold Session.runCounts
  cases session.beginCounts with
  | error error => exact refl_of relation session.graph
  | ok batch => exact admits.completeCounts batch (post batch.request) session

theorem runRelations
    (id : NodeId)
    (post : TransactionRequest → Outcome)
    (session : Session) :
    relation session.graph (Id.run (runRelations id post session)).2.graph :=
  admits.everywhere.runRelations (fun _ _ => trivial) post

theorem runValues
    (id : NodeId)
    (post : TransactionRequest → Outcome)
    (session : Session) :
    relation session.graph (Id.run (runValues id post session)).2.graph :=
  admits.everywhere.runValues id trivial post session

/-! ### Expanding -/

/-- If expanding a node that was discovered stays within the relation, then so does
discovering it first. -/
theorem runAutoExpand
    {id : NodeId}
    {post : TransactionRequest → Outcome}
    {session : Session}
    (expands :
      FollowsFrom relation (Id.run (Session.runRelations id post session)).2
        (expandRelationships id)) :
    relation session.graph (Id.run (runAutoExpand id post session)).2.graph :=
  admits.everywhere.runAutoExpand (fun _ _ => trivial) expands

end Admits
end Session

namespace SessionCall

/-- The node that a call is about.  Some calls are about all nodes. -/
def subject? : SessionCall → Option NodeId
  | .completeValues request _ => some request.node
  | .completeRelations request _ => some request.node
  | .beginValues id | .nextPage id | .selectValue id | .clearSelection id => some id
  | .collapseNode id | .collapseRelationships id => some id
  | .expandRelationship id _ | .expandRelationships id => some id
  | .runValues id _ | .runRelations id _ | .runAutoExpand id _ => some id
  | .start _ | .loadSchema _ | .editGraph _ | .completeCounts _ _ | .runCounts _ => none

/-- A call discovers relationships of the node that it is about. -/
def Discovers : SessionCall → Session → Prop
  | .completeRelations _ _, _ => True
  | .runRelations id _, session | .runAutoExpand id _, session =>
    ∃ request, session.beginRelations id = .ok request
  | _, _ => False

/-- What a call about one of some nodes does to the graph is contained in every
preorder that admits its steps on these nodes, and new far ends of their
relationships.  A value that is chosen has to be listed for one of them. -/
theorem apply_follows_on
    [IsPreorder QueryGraph relation]
    {own discovered : NodeId → Prop}
    (admits : Session.AdmitsOn own discovered relation)
    (adds :
      ∀ id, own id → ∀ relationship, Session.Follows relation (Session.addFarEnd id relationship))
    {call : SessionCall}
    {id : NodeId}
    (isSubject : call.subject? = some id)
    (isOwn : own id)
    {session : Session}
    (isDiscovered : call.Discovers session → discovered id)
    (chooses :
      ∀ value owner, call = .selectValue value →
        Session.listedFor value session.graph = .ok owner → own owner) :
    relation session.graph (call.apply session).graph := by
  have expands : Session.Follows relation (Session.expandRelationships id) :=
    admits.expandRelationships (adds id isOwn) isOwn
  cases call with
  | start label => cases isSubject
  | loadSchema schema => cases isSubject
  | editGraph edit => cases isSubject
  | completeCounts batch outcome => cases isSubject
  | runCounts post => cases isSubject
  | beginValues node => exact admits.beginValues node session
  | completeValues request outcome =>
      cases isSubject
      exact admits.completeValues request isOwn outcome session
  | nextPage node =>
      cases isSubject
      exact admits.nextPage id isOwn session
  | selectValue value =>
      exact admits.selectValue value fun owner listed => chooses value owner rfl listed
  | clearSelection node =>
      cases isSubject
      exact admits.clearSelection id isOwn session
  | collapseNode node =>
      cases isSubject
      exact admits.collapseNode id isOwn session
  | completeRelations request outcome =>
      cases isSubject
      exact admits.completeRelations request (isDiscovered trivial) outcome session
  | expandRelationship node relationship =>
      cases isSubject
      exact admits.expandRelationship (adds id isOwn) isOwn relationship session
  | expandRelationships node =>
      cases isSubject
      exact expands session
  | collapseRelationships node =>
      cases isSubject
      exact admits.collapseRelationships id isOwn session
  | runValues node post =>
      cases isSubject
      exact admits.runValues id isOwn post session
  | runRelations node post =>
      cases isSubject
      exact admits.runRelations (fun request begun => isDiscovered ⟨request, begun⟩) post
  | runAutoExpand node post =>
      cases isSubject
      exact admits.runAutoExpand (fun request begun => isDiscovered ⟨request, begun⟩) (expands _)

/-- Whether a call neither starts over nor hands the graph to its caller. -/
def isOperation : SessionCall → Bool
  | .start _ | .loadSchema _ | .editGraph _ => false
  | _ => true

/-- What an operation does to the graph is contained in every preorder that admits
its steps, and new far ends of relationships. -/
theorem apply_follows
    [IsPreorder QueryGraph relation]
    (admits : Session.Admits relation)
    (adds : ∀ id relationship, Session.Follows relation (Session.addFarEnd id relationship))
    (call : SessionCall)
    (operates : call.isOperation = true)
    (session : Session) :
    relation session.graph (call.apply session).graph := by
  cases call with
  | start label => cases operates
  | loadSchema schema => cases operates
  | editGraph edit => cases operates
  | completeCounts batch outcome => exact admits.completeCounts batch outcome session
  | runCounts post => exact admits.runCounts post session
  | _ =>
      exact apply_follows_on admits.everywhere (fun id _ => adds id) rfl trivial
        (fun _ => trivial) fun _ _ _ _ => trivial

end SessionCall

/-! ## Edits -/

namespace GraphEdit

/-- Edits that sessions make on any node. -/
def isRoutine : GraphEdit → Bool
  | .addValue _ _ | .removeValues _ | .bindValue _ _ | .clearValue _ | .removeLink _ => true
  | .note _ _ => true
  | _ => false

/-- A relation holds between a graph and what a routine edit makes of it. -/
def RoutineIn (relation : QueryGraph → QueryGraph → Prop) : Prop :=
  ∀ (edit : GraphEdit) (graph : QueryGraph),
    edit.isRoutine = true → relation graph (edit.apply graph)

/-- A relation holds between a graph and what a new relationship makes of it. -/
def ExpandsIn (relation : QueryGraph → QueryGraph → Prop) : Prop :=
  ∀ (parent : NodeId) (relationship label : String) (isGroup : Bool) (graph : QueryGraph),
    relation graph ((GraphEdit.addRelationship parent relationship label isGroup).apply graph)

end GraphEdit

namespace Session

open GraphEdit

theorem follows_addFarEnd
    (expands : ExpandsIn relation)
    (id : NodeId)
    (relationship : Relationship) :
    Follows relation (addFarEnd id relationship) :=
  fun session =>
    expands id relationship.name relationship.label
      (session.metadata.resolve relationship.label).group session.graph

section Routine

variable (routine : RoutineIn relation)
include routine

theorem follows_note
    (id : NodeId)
    (change : NodeNotes → NodeNotes) :
    Follows relation (modifyNode id fun node => node.withNotes (change node.notes)) :=
  fun session => routine (.note id change) session.graph rfl

theorem follows_removeValues (id : NodeId) :
    Follows relation (onGraph (Step.atomic (QueryGraph.removeValues id))) :=
  fun session => routine (.removeValues id) session.graph rfl

theorem follows_bindValue (node value : NodeId) :
    Follows relation (onGraph (Step.atomicUnit (QueryGraph.bindValue node value))) :=
  fun session => routine (.bindValue node value) session.graph rfl

variable [IsPreorder QueryGraph relation]

theorem follows_addValues (id : NodeId) (rows : List Row) :
    Follows relation (addValues id rows) := by
  induction rows with
  | nil => exact Follows.pure []
  | cons row rest inductionHypothesis =>
      have adds : Follows relation (onGraph (Step.atomic (QueryGraph.addValue id row))) :=
        fun session => routine (.addValue id row) session.graph rfl
      exact adds.bind fun value =>
        inductionHypothesis.bind fun values => Follows.pure (value :: values)

theorem follows_showPage (id : NodeId) : Follows relation (showPage id) := by
  refine (follows_removeValues routine id).bind fun _ => Follows.state.bind fun session => ?_
  refine (Follows.inspectGraph _).bind fun node => ?_
  refine (follows_addValues routine id _).bind fun values => (Follows.inspectGraph _).bind fun _ => ?_
  exact (follows_note routine id fun notes => { notes with valueExpanded := true }).bind fun _ =>
    Follows.pure values

theorem follows_removeLinks (links : List LinkId) : Follows relation (removeLinks links) := by
  induction links with
  | nil => exact Follows.pure ()
  | cons link rest inductionHypothesis =>
      have removes : Follows relation (onGraph (Step.atomicUnit (QueryGraph.removeLink link))) :=
        fun session => routine (.removeLink link) session.graph rfl
      exact removes.bind fun _ => inductionHypothesis

/-- A preorder that contains the routine edits admits the steps. -/
theorem admits_of_routine : Admits relation where
  note id change _ := follows_note routine id change
  collapseNode id := by
    refine (Follows.inspectGraph _).bind fun node => ?_
    split
    · exact follows_removeValues routine id
    · exact Follows.pure 0
  showPage id := follows_showPage routine id
  bindValue session owner _ _ value := follows_bindValue routine owner.id value session
  clearValue id session := routine (.clearValue id) session.graph rfl
  removeRelations id session := follows_removeLinks routine _ session

end Routine

end Session
end VisualQuery
