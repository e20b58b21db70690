import VisualQuery.Proofs.Graph.Pruning

/-!
# Handling a graph

What is done to a graph on display is made of few moves: something is noted on a
node, its values are unlisted or shown, a relationship is added or taken away,
and a node is bound or unbound.  None of them touches a pinned node's binding,
and all of them keep a graph grown.
-/

namespace VisualQuery
namespace QueryGraph

variable {graph before after : QueryGraph} {owner : Node}

/-! ## Showing values -/

/-- A value listed for a node, made from a row. -/
def Listed (graph : QueryGraph) (owner : NodeId) (row : Row) (id : NodeId) : Prop :=
  ∃ value ∈ graph.nodes,
    value.id = id ∧ value.kind = .value ∧ value.parent = some owner ∧ value.attributes = row ∧
      value.internalId = (KeyedList.lookup? internalIdColumn row).bind PropertyValue.asInt?

/-- Values for some rows, listed below a node. -/
def withRows (owner : Node) : List Row → QueryGraph → QueryGraph
  | [], graph => graph
  | row :: rest, graph => withRows owner rest (graph.withListed owner row)

/-- Values for some rows, on display below a node. -/
def withShown (owner : Node) (rows : List Row) (graph : QueryGraph) : QueryGraph :=
  (graph.withRows owner rows).modifyNode owner.id fun node => { node with valueExpanded := true }

/-- New values and the links that list them stand behind what was there. -/
theorem withRows_grows
    (owner : Node)
    (rows : List Row)
    (graph : QueryGraph) :
    ∃ made links,
      (graph.withRows owner rows).nodes = graph.nodes ++ made ∧
        (graph.withRows owner rows).links = graph.links ++ links ∧
        graph.nextId ≤ (graph.withRows owner rows).nextId ∧
        (∀ value ∈ made,
          graph.nextId ≤ value.id.value ∧ value.kind = .value ∧ value.parent = some owner.id) ∧
        ∀ link ∈ links, graph.nextId ≤ link.target.value := by
  induction rows generalizing graph with
  | nil => exact ⟨[], [], by simp [withRows]⟩
  | cons row rest inductionHypothesis =>
      obtain ⟨made, links, nodes, linked, later, values, targets⟩ :=
        inductionHypothesis (graph.withListed owner row)
      have counted : (graph.withListed owner row).nextId = graph.nextId + 2 := rfl
      refine ⟨graph.freshValue owner row :: made,
        ⟨⟨graph.nextId + 1⟩, .value, owner.id, ⟨graph.nextId⟩, none⟩ :: links, ?_, ?_, ?_, ?_, ?_⟩
      · rw [withRows, nodes]
        simp [withListed]
      · rw [withRows, linked]
        simp [withListed]
      · rw [withRows]
        omega
      · intro value member
        rcases List.mem_cons.1 member with rfl | new
        · exact ⟨Nat.le_refl _, rfl, rfl⟩
        · obtain ⟨numbered, isValue, parent⟩ := values value new
          exact ⟨by omega, isValue, parent⟩
      · intro link member
        rcases List.mem_cons.1 member with rfl | new
        · exact Nat.le_refl _
        · have target := targets link new
          omega

theorem mem_withRows
    {node : Node}
    (member : node ∈ graph.nodes)
    (rows : List Row) :
    node ∈ (graph.withRows owner rows).nodes := by
  obtain ⟨made, links, nodes, _⟩ := withRows_grows owner rows graph
  rw [nodes]
  exact List.mem_append_left made member

/-- The node whose values are shown is marked, and nothing else of it changes. -/
theorem mem_withShown
    (member : owner ∈ graph.nodes)
    (rows : List Row) :
    { owner with valueExpanded := true } ∈ (graph.withShown owner rows).nodes :=
  mem_modifyNode_self (mem_withRows member rows) fun node => { node with valueExpanded := true }

/-- Nodes below it are not marked with it. -/
theorem mem_withShown_of_parent
    {rows : List Row}
    (coherent : (graph.withRows owner rows).Coherent)
    {node : Node}
    (member : node ∈ (graph.withRows owner rows).nodes)
    (parent : node.parent = some owner.id) :
    node ∈ (graph.withShown owner rows).nodes :=
  mem_modifyNode.2 ⟨node, member, if_neg (coherent.id_ne_parent member parent)⟩

theorem Grown.withRows
    (grown : graph.Grown)
    (member : owner ∈ graph.nodes)
    (rows : List Row)
    (lists : rows = [] ∨ owner.kind.listsValues = true) :
    (graph.withRows owner rows).Grown := by
  induction rows generalizing graph with
  | nil => exact grown
  | cons row rest inductionHypothesis =>
      have ownerLists := lists.resolve_left (by simp)
      have accepted := grown.toCoherent.addValue_accepted member ownerLists row
      exact inductionHypothesis
        ⟨grown.toWellFormed.addValue accepted, grown.stems.addValue accepted⟩
        (List.mem_append_left _ member) (Or.inr ownerLists)

/-- A change in place that leaves bound values alone. -/
theorem Grown.modifyNode_of_value
    (grown : graph.Grown)
    (id : NodeId)
    {change : Node → Node}
    (inPlace : Node.InPlace change)
    (sameValue : ∀ node, (change node).value = node.value) :
    (graph.modifyNode id change).Grown :=
  ⟨grown.toWellFormed.modifyNode_of_value id inPlace sameValue,
    grown.stems.trim (Trims.modifyNode inPlace id graph)⟩

theorem Grown.removeLink
    (grown : graph.Grown)
    {link : LinkId}
    {after : QueryGraph}
    (accepted : graph.removeLink link = .ok after) :
    after.Grown :=
  ⟨grown.toWellFormed.removeLink accepted, grown.stems.trim (Trims.removeLink accepted)⟩

/-! ## Moves -/

/-- One move in the handling of a graph. -/
inductive Handles : QueryGraph → QueryGraph → Prop
  /-- Something other than the mark of a listing is noted on a node. -/
  | note
      {graph : QueryGraph}
      (id : NodeId)
      (change : NodeNotes → NodeNotes)
      (unmarked : ∀ notes, (change notes).valueExpanded = notes.valueExpanded) :
      Handles graph (graph.modifyNode id fun node => node.withNotes (change node.notes))
  | unlist
      {before after : QueryGraph}
      {owner : Node}
      {count : Nat}
      (member : owner ∈ before.nodes)
      (accepted : before.removeValues owner.id = .ok (count, after)) :
      Handles before after
  | exhibit
      {graph : QueryGraph}
      {owner : Node}
      {rows : List Row}
      (member : owner ∈ graph.nodes)
      (lists : rows = [] ∨ owner.kind.listsValues = true) :
      Handles graph (graph.withShown owner rows)
  | relate
      {before after : QueryGraph}
      {parent child : NodeId}
      {relationship label : String}
      {isGroup : Bool}
      (accepted :
        before.addRelationship parent relationship label isGroup = .ok (child, after)) :
      Handles before after
  | bind
      {before after : QueryGraph}
      {owner : Node}
      {value : NodeId}
      (member : owner ∈ before.nodes)
      (unpinned : owner.immutable = false)
      (accepted : before.bindValue owner.id value = .ok after) :
      Handles before after
  | clear
      {before after : QueryGraph}
      {node : NodeId}
      {cleared : Bool}
      (accepted : before.clearValue node = .ok (cleared, after)) :
      Handles before after
  | unlink
      {before after : QueryGraph}
      {link : LinkId}
      (isRelation : ∀ found ∈ before.links, found.id = link → found.isRelation = true)
      (accepted : before.removeLink link = .ok after) :
      Handles before after

/-- Moves one after the other. -/
abbrev Handled : QueryGraph → QueryGraph → Prop := Relation.ReflTransGen Handles

theorem Handles.grown
    (handles : Handles before after)
    (grown : before.Grown) :
    after.Grown := by
  have wellFormed := grown.toWellFormed
  have stems := grown.stems
  cases handles with
  | note id change unmarked =>
      exact grown.modifyNode_of_value id (Node.InPlace.note change) fun _ => rfl
  | unlist member accepted =>
      exact ⟨wellFormed.removeValues accepted, stems.trim (Trims.removeValues accepted)⟩
  | exhibit member lists =>
      exact (grown.withRows member _ lists).modifyNode_of_value _
        (Node.InPlace.setValueExpanded true) fun _ => rfl
  | relate accepted => exact ⟨wellFormed.addRelationship accepted, stems.addRelationship accepted⟩
  | bind member unpinned accepted =>
      exact ⟨wellFormed.bindValue accepted, stems.trim (Trims.bindValue accepted)⟩
  | clear accepted =>
      exact ⟨wellFormed.clearValue accepted, stems.trim (Trims.clearValue accepted)⟩
  | unlink isRelation accepted => exact grown.removeLink accepted

theorem Handled.grown
    (handled : Handled before after)
    (grown : before.Grown) :
    after.Grown := by
  induction handled with
  | refl => exact grown
  | tail _ last inductionHypothesis => exact last.grown inductionHypothesis

/-- Where every move keeps a property of grown graphs, handling keeps it. -/
theorem Handled.keeps
    {property : QueryGraph → Prop}
    (step :
      ∀ before after, Handles before after → before.Grown → property before → property after)
    (handled : Handled before after)
    (grown : before.Grown)
    (holds : property before) :
    property after := by
  induction handled with
  | refl => exact holds
  | tail earlier last inductionHypothesis =>
      exact step _ _ last (Handled.grown earlier grown) inductionHypothesis

end QueryGraph
end VisualQuery
