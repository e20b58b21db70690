import VisualQuery.Proofs.Session.Handling

/-!
# Properties that operations keep

A property of grown graphs is kept by the operations on some nodes if it is kept
by the moves that these are made of.  So whatever is to be followed through a
session has to be checked on graphs only.
-/

namespace VisualQuery
namespace QueryGraph

variable {property : QueryGraph → Prop}

/-- A grown graph with a property becomes another one. -/
def Keeps (property : QueryGraph → Prop) (before after : QueryGraph) : Prop :=
  before.Grown → property before → after.Grown ∧ property after

instance : IsPreorder QueryGraph (Keeps property) where
  refl _ grown holds := ⟨grown, holds⟩
  trans _ _ _ left right grown holds := right (left grown holds).1 (left grown holds).2

/-- A property is kept by the moves on some nodes, among them all that list
values, and by noting relationships on nodes that they were discovered for. -/
structure KeptOn (own discovered : NodeId → Prop) (property : QueryGraph → Prop) : Prop where
  note :
    ∀ graph : QueryGraph, graph.Grown → property graph → ∀ id, own id →
      ∀ change : NodeNotes → NodeNotes,
        (∀ notes, (change notes).relationships.Sublist notes.relationships) →
          property (graph.modifyNode id fun node => node.withNotes (change node.notes))
  discover :
    ∀ graph : QueryGraph, graph.Grown → property graph → ∀ id, discovered id →
      ∀ relationships, property (graph.modifyNode id fun node => { node with relationships })
  listings :
    ∀ graph : QueryGraph, graph.Grown → property graph →
      ∀ id ∈ Session.expandedNodes graph, own id
  removeValues :
    ∀ graph : QueryGraph, graph.Grown → property graph →
      ∀ lister ∈ graph.nodes, own lister.id →
        ∀ count after, graph.removeValues lister.id = .ok (count, after) → property after
  withShown :
    ∀ graph : QueryGraph, graph.Grown → property graph →
      ∀ lister ∈ graph.nodes, own lister.id →
        ∀ rows, rows = [] ∨ lister.kind.listsValues = true → property (graph.withShown lister rows)
  bindValue :
    ∀ graph : QueryGraph, graph.Grown → property graph →
      ∀ holder ∈ graph.nodes, own holder.id →
        ∀ value after, graph.bindValue holder.id value = .ok after → property after
  clearValue :
    ∀ graph : QueryGraph, graph.Grown → property graph → ∀ id, own id →
      ∀ cleared after, graph.clearValue id = .ok (cleared, after) → property after
  removeLink :
    ∀ graph : QueryGraph, graph.Grown → property graph →
      ∀ link ∈ graph.links, link.isRelation = true → own link.source →
        ∀ after, graph.removeLink link.id = .ok after → property after
  addRelationship :
    ∀ graph : QueryGraph, graph.Grown → property graph → ∀ parent, own parent →
      ∀ relationship label isGroup child after,
        graph.addRelationship parent relationship label isGroup = .ok (child, after) →
          property after

end QueryGraph

namespace Session

open QueryGraph

variable {own discovered : NodeId → Prop} {property : QueryGraph → Prop}

theorem keeps_collapseNode
    (kept : KeptOn own discovered property)
    {id : NodeId}
    (isOwn : own id) :
    Follows (Keeps property) (collapseNode id) := by
  intro session
  apply FollowsFrom.node
  rintro lister member rfl
  split
  · apply FollowsFrom.edit
    intro count graph accepted grown holds
    exact ⟨(Handles.unlist member accepted).grown grown,
      kept.removeValues session.graph grown holds lister member isOwn count graph accepted⟩
  · exact Follows.pure 0 session

theorem keeps_collapseAll
    (kept : KeptOn own discovered property) :
    Follows (Keeps property) collapseAll := by
  intro session
  apply FollowsFrom.state
  intro grown holds
  have collapses : Follows (Keeps property) (collapseEach (expandedNodes session.graph)) :=
    Follows.collapseEach fun id listed =>
      keeps_collapseNode kept (kept.listings session.graph grown holds id listed)
  exact collapses session grown holds

theorem keeps_showPage
    (kept : KeptOn own discovered property)
    {id : NodeId}
    (isOwn : own id) :
    Follows (Keeps property) (showPage id) := by
  intro session grown holds
  refine ⟨(handling_showPage id session grown).grown grown, ?_⟩
  by_cases known : id ∈ session.graph.nodeIds
  · obtain ⟨lister, member, rfl⟩ := mem_nodeIds.1 known
    obtain ⟨count, cleared, accepted, unmarkedMember, shown⟩ := perform_showPage grown member
    have unlisted :=
      kept.removeValues session.graph grown holds lister member isOwn count cleared accepted
    rw [Step.after]
    split at shown
    · rename_i fits
      obtain ⟨values, performed, _⟩ := shown
      rw [performed]
      exact kept.withShown cleared ((Handles.unlist member accepted).grown grown) unlisted _
        unmarkedMember isOwn _ fits
    · rw [shown]
      exact unlisted
  · rw [Step.after, perform_showPage_of_not_mem known]
    exact holds

theorem keeps_addFarEnd
    (kept : KeptOn own discovered property)
    (id : NodeId)
    (isOwn : own id)
    (relationship : Relationship) :
    Follows (Keeps property) (addFarEnd id relationship) := by
  intro session
  apply FollowsFrom.state
  apply FollowsFrom.edit
  intro child graph accepted grown holds
  exact ⟨(Handles.relate accepted).grown grown,
    kept.addRelationship session.graph grown holds id isOwn _ _ _ child graph accepted⟩

/-- The steps of which operations are put together keep what the moves keep. -/
theorem admits_of_kept
    (kept : KeptOn own discovered property) :
    AdmitsOn own discovered (Keeps property) where
  note id isOwn change sameMark fewer session grown holds :=
    ⟨(Handles.note id change sameMark).grown grown,
      kept.note session.graph grown holds id isOwn change fewer⟩
  discover id isDiscovered relationships session grown holds :=
    ⟨(Handles.note id (fun notes => { notes with relationships }) fun _ => rfl).grown grown,
      kept.discover session.graph grown holds id isDiscovered relationships⟩
  collapseNode id isOwn := keeps_collapseNode kept isOwn
  collapseAll := keeps_collapseAll kept
  showPage id isOwn := keeps_showPage kept isOwn
  bindValue := by
    intro session holder member isOwn unpinned value
    apply FollowsFrom.editUnit
    intro graph accepted grown holds
    exact ⟨(Handles.bind member unpinned accepted).grown grown,
      kept.bindValue session.graph grown holds holder member isOwn value graph accepted⟩
  clearValue := by
    intro id isOwn session
    apply FollowsFrom.edit
    intro cleared graph accepted grown holds
    exact ⟨(Handles.clear accepted).grown grown,
      kept.clearValue session.graph grown holds id isOwn cleared graph accepted⟩
  removeRelations := by
    intro id isOwn session grown holds
    have removes : ∀ graph : QueryGraph, ∀ link ∈ graph.links,
        link.isRelation = true ∧ own link.source →
          ∀ after, graph.removeLink link.id = .ok after → Keeps property graph after := by
      rintro graph link member ⟨isRelation, leavesOwn⟩ after accepted graphGrown graphHolds
      exact ⟨graphGrown.removeLink accepted, kept.removeLink graph graphGrown graphHolds link member
        isRelation leavesOwn after accepted⟩
    refine followsFrom_removeLinks removes (relationsFrom id session.graph) ?_ grown holds
    rintro link listed found member rfl
    obtain ⟨rfl, isRelation⟩ := of_mem_relationsFrom grown.toCoherent member listed
    exact ⟨isRelation, isOwn⟩

end Session

namespace SessionCall

open QueryGraph

variable {own discovered : NodeId → Prop} {property : QueryGraph → Prop}

/-- What the moves on some nodes keep is kept by every call about one of them. -/
theorem apply_keeps
    (kept : KeptOn own discovered property)
    {call : SessionCall}
    {id : NodeId}
    (isSubject : call.subject? = some id)
    (isOwn : own id)
    {session : Session}
    (isDiscovered : call.Discovers session → discovered id)
    (chooses :
      ∀ value lister, call = .selectValue value →
        Session.listedFor value session.graph = .ok lister → own lister) :
    Keeps property session.graph (call.apply session).graph :=
  apply_follows_on (Session.admits_of_kept kept) (Session.keeps_addFarEnd kept) isSubject isOwn
    isDiscovered chooses

end SessionCall
end VisualQuery
