import VisualQuery.Proofs.Graph.Pruning

/-!
# What removals leave

Whatever the shape of a graph, an edit that removes leaves nodes that were there
before, changed in place at most, and the links whose ends are both left, except
for links that it drops by themselves.  It hands out neither numbers nor names.
-/

namespace VisualQuery

/-- A node is a former one, up to what is noted on it and bound to it. -/
structure Node.IsStill (node former : Node) : Prop where
  id : node.id = former.id
  kind : node.kind = former.kind
  parent : node.parent = former.parent
  label : node.label = former.label
  var : node.var = former.var

namespace Node.IsStill

theorem refl (node : Node) : node.IsStill node := ⟨rfl, rfl, rfl, rfl, rfl⟩

theorem trans
    {last middle first : Node}
    (late : last.IsStill middle)
    (early : middle.IsStill first) :
    last.IsStill first :=
  ⟨late.id.trans early.id, late.kind.trans early.kind, late.parent.trans early.parent,
    late.label.trans early.label, late.var.trans early.var⟩

theorem of_inPlace
    {change : Node → Node}
    (inPlace : InPlace change)
    (node : Node) :
    (change node).IsStill node :=
  ⟨inPlace.id node, inPlace.kind node, inPlace.parent node, inPlace.label node, inPlace.var node⟩

end Node.IsStill

namespace QueryGraph

variable {graph before between after : QueryGraph} {dropped : Link → Prop}

/-- The nodes that a removal does not reach are left. -/
theorem mem_nodeIds_removeSubtree
    {top id : NodeId} :
    id ∈ (graph.removeSubtree top).nodeIds ↔
      id ∈ graph.nodeIds ∧ id ∉ graph.reached [top] [] := by
  have inPlace := Node.release_inPlace (graph.reached [top] [])
  simp only [mem_nodeIds]
  constructor
  · rintro ⟨node, member, rfl⟩
    obtain ⟨old, oldMember, stays, rfl⟩ := mem_dropNodes.1 member
    rw [inPlace.id]
    exact ⟨⟨old, oldMember, rfl⟩, stays⟩
  · rintro ⟨⟨node, member, rfl⟩, stays⟩
    exact ⟨_, mem_dropNodes.2 ⟨node, member, stays, rfl⟩, inPlace.id node⟩

/-- Nodes and links are left over, and the links that have gone without one of
their ends are the dropped ones. -/
structure Cuts (dropped : Link → Prop) (before after : QueryGraph) : Prop where
  nodes : ∀ node ∈ after.nodes, ∃ former ∈ before.nodes, node.IsStill former
  links :
    ∀ link, link ∈ after.links ↔
      link ∈ before.links ∧ ¬ dropped link ∧
        link.source ∈ after.nodeIds ∧ link.target ∈ after.nodeIds
  nextId : after.nextId = before.nextId
  names : after.names = before.names

namespace Cuts

theorem mem_nodeIds
    (cuts : Cuts dropped before after)
    {id : NodeId}
    (left : id ∈ after.nodeIds) :
    id ∈ before.nodeIds := by
  obtain ⟨node, member, rfl⟩ := QueryGraph.mem_nodeIds.1 left
  obtain ⟨former, formerMember, still⟩ := cuts.nodes node member
  exact QueryGraph.mem_nodeIds.2 ⟨former, formerMember, still.id.symm⟩

theorem congr
    (cuts : Cuts dropped before after)
    {other : Link → Prop}
    (same : ∀ link ∈ before.links, dropped link ↔ other link) :
    Cuts other before after :=
  { cuts with
    links := by
      intro link
      rw [cuts.links]
      constructor
      · rintro ⟨member, stays, ends⟩
        exact ⟨member, fun isOther => stays ((same link member).2 isOther), ends⟩
      · rintro ⟨member, stays, ends⟩
        exact ⟨member, fun isDropped => stays ((same link member).1 isDropped), ends⟩ }

theorem refl (coherent : graph.Coherent) : Cuts (fun _ => False) graph graph where
  nodes := fun node member => ⟨node, member, Node.IsStill.refl node⟩
  links := by
    intro link
    constructor
    · exact fun member => ⟨member, not_false, coherent.linkEnds link member⟩
    · exact fun holds => holds.1
  nextId := rfl
  names := rfl

theorem trans
    {droppedLater : Link → Prop}
    (first : Cuts dropped before between)
    (second : Cuts droppedLater between after) :
    Cuts (fun link => dropped link ∨ droppedLater link) before after where
  nodes := by
    intro node member
    obtain ⟨middle, middleMember, late⟩ := second.nodes node member
    obtain ⟨former, formerMember, early⟩ := first.nodes middle middleMember
    exact ⟨former, formerMember, late.trans early⟩
  links := by
    intro link
    rw [second.links, first.links, not_or]
    constructor
    · rintro ⟨⟨member, stays, _⟩, staysLater, ends⟩
      exact ⟨member, ⟨stays, staysLater⟩, ends⟩
    · rintro ⟨member, ⟨stays, staysLater⟩, source, target⟩
      exact ⟨⟨member, stays, second.mem_nodeIds source, second.mem_nodeIds target⟩, staysLater,
        source, target⟩
  nextId := second.nextId.trans first.nextId
  names := second.names.trans first.names

/-! ## Single cuts -/

theorem modifyNode
    (coherent : graph.Coherent)
    {change : Node → Node}
    (inPlace : Node.InPlace change)
    (id : NodeId) :
    Cuts (fun _ => False) graph (graph.modifyNode id change) := by
  rw [modifyNode_eq_mapNodes]
  have changes := inPlace.ite fun node => node.id = id
  refine ⟨?_, ?_, rfl, rfl⟩
  · intro node member
    obtain ⟨former, formerMember, rfl⟩ := mem_mapNodes.1 member
    exact ⟨former, formerMember, Node.IsStill.of_inPlace changes former⟩
  · intro link
    rw [nodeIds_mapNodes changes]
    exact (refl coherent).links link

theorem dropLink
    (coherent : graph.Coherent)
    (id : LinkId) :
    Cuts (fun link => link.id = id) graph (graph.dropLink id) where
  nodes := fun node member => ⟨node, member, Node.IsStill.refl node⟩
  links := by
    intro link
    rw [mem_dropLink]
    constructor
    · exact fun ⟨member, other⟩ => ⟨member, other, coherent.linkEnds link member⟩
    · exact fun ⟨member, other, _⟩ => ⟨member, other⟩
  nextId := rfl
  names := rfl

theorem removeSubtree
    (coherent : graph.Coherent)
    (id : NodeId) :
    Cuts (fun _ => False) graph (graph.removeSubtree id) := by
  refine ⟨?_, ?_, rfl, rfl⟩
  · intro node member
    obtain ⟨old, oldMember, _, rfl⟩ := mem_dropNodes.1 member
    exact ⟨old, oldMember, Node.IsStill.of_inPlace (Node.release_inPlace _) old⟩
  · intro link
    rw [mem_nodeIds_removeSubtree, mem_nodeIds_removeSubtree]
    constructor
    · intro left
      obtain ⟨member, source, target⟩ := mem_dropNodes_links.1 left
      obtain ⟨hadSource, hadTarget⟩ := coherent.linkEnds link member
      exact ⟨member, not_false, ⟨hadSource, source⟩, hadTarget, target⟩
    · rintro ⟨member, _, ⟨_, source⟩, _, target⟩
      exact mem_dropNodes_links.2 ⟨member, source, target⟩

theorem dropDetached
    (coherent : graph.Coherent)
    (id : NodeId) :
    Cuts (fun _ => False) graph (graph.dropDetached id) := by
  unfold QueryGraph.dropDetached
  split
  · exact refl coherent
  · exact removeSubtree coherent id

theorem dropPrevious
    (coherent : graph.Coherent)
    (value : NodeId)
    (previous : Option NodeId) :
    Cuts (fun _ => False) graph (graph.dropPrevious value previous) := by
  unfold QueryGraph.dropPrevious
  split
  · split
    · exact refl coherent
    · exact dropDetached coherent _
  · exact refl coherent

end Cuts

/-! ## Edits -/

theorem Coherent.foldl_removeListed
    (coherent : graph.Coherent)
    (bound : Option NodeId)
    (listed : List Link) :
    (listed.foldl (QueryGraph.removeListed bound) graph).Coherent := by
  induction listed generalizing graph with
  | nil => exact coherent
  | cons link rest inductionHypothesis =>
      exact inductionHypothesis (coherent.removeListed bound link)

namespace Cuts

theorem removeListed
    (coherent : graph.Coherent)
    (bound : Option NodeId)
    (link : Link) :
    Cuts (fun other => bound = some link.target ∧ other.id = link.id) graph
      (graph.removeListed bound link) := by
  unfold QueryGraph.removeListed
  split
  · rename_i isBound
    exact (dropLink coherent link.id).congr fun _ _ => by simp [isBound]
  · rename_i other
    exact (removeSubtree coherent link.target).congr fun _ _ => by simp [other]

theorem foldl_removeListed
    (coherent : graph.Coherent)
    (bound : Option NodeId)
    (listed : List Link) :
    Cuts (fun other => ∃ link ∈ listed, bound = some link.target ∧ other.id = link.id) graph
      (listed.foldl (QueryGraph.removeListed bound) graph) := by
  induction listed generalizing graph with
  | nil => exact (refl coherent).congr fun _ _ => by simp
  | cons link rest inductionHypothesis =>
      have others := inductionHypothesis (coherent.removeListed bound link)
      exact ((removeListed coherent bound link).trans others).congr fun _ _ => by simp

/-- Unlisting the values of a node drops the link to its bound value. -/
theorem removeValues
    (coherent : before.Coherent)
    {owner : Node}
    (member : owner ∈ before.nodes)
    {count : Nat}
    (accepted : before.removeValues owner.id = .ok (count, after)) :
    Cuts (fun link => link ∈ before.valueLinks owner.id ∧ owner.value = some link.target)
      before after := by
  obtain ⟨same, sameMember, named, rfl⟩ := removeValues_ok accepted
  obtain rfl := coherent.eq_of_id_eq sameMember member named
  have unlisted := foldl_removeListed coherent same.value (before.valueLinks same.id)
  have reached := coherent.foldl_removeListed same.value (before.valueLinks same.id)
  have marks := modifyNode reached (Node.InPlace.setValueExpanded false) same.id
  refine (unlisted.trans marks).congr ?_
  intro link linkMember
  rw [or_false]
  constructor
  · rintro ⟨listed, listedMember, bound, sameId⟩
    rw [coherent.eq_of_link_id_eq linkMember (List.mem_filter.1 listedMember).1 sameId]
    exact ⟨listedMember, bound⟩
  · rintro ⟨listed, bound⟩
    exact ⟨link, listed, bound, rfl⟩

theorem bindValue
    (coherent : before.Coherent)
    {node value : NodeId}
    (accepted : before.bindValue node value = .ok after) :
    Cuts (fun _ => False) before after := by
  obtain ⟨owner, _, candidate, member, _, named, isValue, parent, rfl⟩ := bindValue_ok accepted
  have binds := modifyNode coherent (Node.InPlace.setValue (some value)) node
  have bound := coherent.setValue node (some value) (by
    rintro id ⟨⟩
    exact ⟨candidate, member, named, isValue, parent⟩)
  exact (binds.trans (dropPrevious bound value owner.value)).congr fun _ _ => by simp

theorem clearValue
    (coherent : before.Coherent)
    {node : NodeId}
    {cleared : Bool}
    (accepted : before.clearValue node = .ok (cleared, after)) :
    Cuts (fun _ => False) before after := by
  rcases clearValue_ok accepted with rfl | ⟨owner, _, previous, _, _, rfl⟩
  · exact refl coherent
  · have unbinds := modifyNode coherent (Node.InPlace.setValue none) node
    have unbound := coherent.setValue node none (by simp)
    exact (unbinds.trans (dropDetached unbound previous)).congr fun _ _ => by simp

theorem setImmutable
    (coherent : before.Coherent)
    {node : NodeId}
    {immutable : Bool}
    (accepted : before.setImmutable node immutable = .ok after) :
    Cuts (fun _ => False) before after := by
  rw [setImmutable_ok accepted]
  exact modifyNode coherent (Node.InPlace.setImmutable immutable) node

theorem removeNode
    (coherent : before.Coherent)
    {node : NodeId}
    (accepted : before.removeNode node = .ok after) :
    Cuts (fun _ => False) before after := by
  obtain ⟨_, _, _, _, rfl⟩ := removeNode_ok accepted
  exact removeSubtree coherent node

theorem removeLink
    (coherent : before.Coherent)
    {id : LinkId}
    (accepted : before.removeLink id = .ok after) :
    Cuts (fun link => link.id = id) before after := by
  obtain ⟨link, _, _, rfl⟩ := removeLink_ok accepted
  have dropped := dropLink coherent id
  exact (dropped.trans (removeSubtree (coherent.dropLink id) link.target)).congr
    fun _ _ => by simp

end Cuts

end QueryGraph
end VisualQuery
