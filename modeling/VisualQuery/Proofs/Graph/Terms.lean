import VisualQuery.Proofs.Graph.Invariance

/-!
# Terms and their names

Terms are the nodes that stand for a variable of a statement.  Every edit that
only removes, binds or lists leaves names and numbers of the remaining terms
alone and asks for no name.
-/

namespace VisualQuery

/-- A label with the name handed out for it. -/
structure Naming where
  label : String
  name : String

/-- The label of a node with its variable. -/
def Node.naming (node : Node) : Naming := ⟨node.label, node.var⟩

namespace QueryGraph

/-- Nodes that stand for a variable: all but values. -/
def terms (graph : QueryGraph) : List Node :=
  graph.nodes.filter fun node => !node.isValue

/-- Numbers of the terms with their namings. -/
def tags (graph : QueryGraph) : List (NodeId × Naming) :=
  graph.terms.map fun node => (node.id, node.naming)

theorem mem_terms
    {graph : QueryGraph}
    {node : Node} :
    node ∈ graph.terms ↔ node ∈ graph.nodes ∧ node.kind ≠ .value := by
  simp [terms, Node.isValue]

theorem namings_eq_tags (graph : QueryGraph) :
    graph.terms.map Node.naming = graph.tags.map Prod.snd := by
  simp [tags, Function.comp_def]

/-! ## Terms under changes of the graph -/

theorem tags_mapNodes
    {change : Node → Node}
    (inPlace : Node.InPlace change)
    (graph : QueryGraph) :
    (graph.mapNodes change).tags = graph.tags := by
  simp [tags, terms, mapNodes, List.filter_map, Function.comp_def, Node.isValue, Node.naming,
    inPlace.id, inPlace.kind, inPlace.label, inPlace.var]

theorem tags_modifyNode
    {change : Node → Node}
    (inPlace : Node.InPlace change)
    (id : NodeId)
    (graph : QueryGraph) :
    (graph.modifyNode id change).tags = graph.tags := by
  rw [modifyNode_eq_mapNodes]
  exact tags_mapNodes (inPlace.ite _) graph

theorem tags_append_term
    {before after : QueryGraph}
    (made : Node)
    (nodes : after.nodes = before.nodes ++ [made])
    (kind : made.kind ≠ .value) :
    after.tags = before.tags ++ [(made.id, made.naming)] := by
  simp [tags, terms, nodes, List.filter_append, Node.isValue, kind]

theorem tags_append_value
    {before after : QueryGraph}
    (made : Node)
    (nodes : after.nodes = before.nodes ++ [made])
    (kind : made.kind = .value) :
    after.tags = before.tags := by
  simp [tags, terms, nodes, List.filter_append, Node.isValue, kind]

/-- No name is handed out, and terms at most go away. -/
structure Thins (before after : QueryGraph) : Prop where
  names : after.names = before.names
  tags : after.tags.Sublist before.tags

namespace Thins

theorem refl (graph : QueryGraph) : Thins graph graph :=
  ⟨rfl, List.Sublist.refl _⟩

theorem trans
    {first second third : QueryGraph}
    (left : Thins first second)
    (right : Thins second third) :
    Thins first third :=
  ⟨right.names.trans left.names, right.tags.trans left.tags⟩

theorem of_tags_eq
    {before after : QueryGraph}
    (names : after.names = before.names)
    (tags : after.tags = before.tags) :
    Thins before after :=
  ⟨names, tags ▸ List.Sublist.refl _⟩

theorem modifyNode
    {change : Node → Node}
    (inPlace : Node.InPlace change)
    (id : NodeId)
    (graph : QueryGraph) :
    Thins graph (graph.modifyNode id change) :=
  of_tags_eq rfl (tags_modifyNode inPlace id graph)

theorem dropLink
    (id : LinkId)
    (graph : QueryGraph) :
    Thins graph (graph.dropLink id) :=
  of_tags_eq rfl rfl

theorem removeSubtree
    (id : NodeId)
    (graph : QueryGraph) :
    Thins graph (graph.removeSubtree id) := by
  refine ⟨rfl, ?_⟩
  have inPlace := Node.release_inPlace (graph.reached [id] [])
  rw [QueryGraph.removeSubtree, dropNodes_eq, ← tags_mapNodes inPlace graph]
  exact (List.filter_sublist.filter _).map _

theorem dropDetached
    (id : NodeId)
    (graph : QueryGraph) :
    Thins graph (graph.dropDetached id) := by
  unfold QueryGraph.dropDetached
  split
  · exact refl graph
  · exact removeSubtree id graph

theorem dropPrevious
    (value : NodeId)
    (previous : Option NodeId)
    (graph : QueryGraph) :
    Thins graph (graph.dropPrevious value previous) := by
  unfold QueryGraph.dropPrevious
  split
  · split
    · exact refl graph
    · exact dropDetached _ graph
  · exact refl graph

theorem removeListed
    (bound : Option NodeId)
    (graph : QueryGraph)
    (link : Link) :
    Thins graph (graph.removeListed bound link) := by
  unfold QueryGraph.removeListed
  split
  · exact dropLink _ graph
  · exact removeSubtree _ graph

theorem foldl_removeListed
    (bound : Option NodeId)
    (listed : List Link)
    (graph : QueryGraph) :
    Thins graph (listed.foldl (QueryGraph.removeListed bound) graph) := by
  induction listed generalizing graph with
  | nil => exact refl graph
  | cons link rest inductionHypothesis =>
      exact (removeListed bound graph link).trans (inductionHypothesis _)

theorem addLink
    {graph after : QueryGraph}
    {source target : NodeId}
    {kind : LinkKind}
    {label : Option String}
    {id : LinkId}
    (accepted : graph.addLink source target kind label = .ok (id, after)) :
    Thins graph after := by
  obtain ⟨_, _, rfl⟩ := addLink_ok accepted
  exact of_tags_eq rfl rfl

theorem bindValue
    {graph after : QueryGraph}
    {node value : NodeId}
    (accepted : graph.bindValue node value = .ok after) :
    Thins graph after := by
  obtain ⟨owner, _, candidate, _, _, _, _, _, rfl⟩ := bindValue_ok accepted
  exact (modifyNode (Node.InPlace.setValue _) node graph).trans (dropPrevious _ _ _)

theorem clearValue
    {graph after : QueryGraph}
    {node : NodeId}
    {cleared : Bool}
    (accepted : graph.clearValue node = .ok (cleared, after)) :
    Thins graph after := by
  rcases clearValue_ok accepted with rfl | ⟨owner, _, previous, _, _, rfl⟩
  · exact refl _
  · exact (modifyNode (Node.InPlace.setValue none) node graph).trans (dropDetached _ _)

theorem removeValues
    {graph after : QueryGraph}
    {id : NodeId}
    {count : Nat}
    (accepted : graph.removeValues id = .ok (count, after)) :
    Thins graph after := by
  obtain ⟨node, _, _, rfl⟩ := removeValues_ok accepted
  exact (foldl_removeListed _ _ graph).trans
    (modifyNode (Node.InPlace.setValueExpanded false) id _)

theorem removeLink
    {graph after : QueryGraph}
    {id : LinkId}
    (accepted : graph.removeLink id = .ok after) :
    Thins graph after := by
  obtain ⟨link, _, _, rfl⟩ := removeLink_ok accepted
  exact (dropLink id graph).trans (removeSubtree _ _)

theorem removeNode
    {graph after : QueryGraph}
    {id : NodeId}
    (accepted : graph.removeNode id = .ok after) :
    Thins graph after := by
  obtain ⟨_, _, _, _, rfl⟩ := removeNode_ok accepted
  exact removeSubtree id graph

theorem setImmutable
    {graph after : QueryGraph}
    {node : NodeId}
    {immutable : Bool}
    (accepted : graph.setImmutable node immutable = .ok after) :
    Thins graph after := by
  rw [setImmutable_ok accepted]
  exact modifyNode (Node.InPlace.setImmutable immutable) node graph

end Thins

end QueryGraph
end VisualQuery
