import VisualQuery.Proofs.Graph.Tree

/-!
# Drawn graphs

A graph is drawn by edits that add no bare node or link and let relationships
start at terms only.  Whatever else is done on the way, the relationships of a
drawn graph form a tree over its terms.
-/

namespace VisualQuery
namespace GraphEdit

open QueryGraph

/-- An edit adds no bare node or link, and a relationship only to a term. -/
def Draws : GraphEdit → QueryGraph → Prop
  | .addNode _ _ _, _ => False
  | .addLink _ _ _ _, _ => False
  | .addRelationship parent _ _ _, graph =>
    ∀ node ∈ graph.nodes, node.id = parent → node.kind ≠ .value
  | _, _ => True

instance (edit : GraphEdit) (graph : QueryGraph) : Decidable (edit.Draws graph) :=
  match edit with
  | .addNode _ _ _ => inferInstanceAs (Decidable False)
  | .addLink _ _ _ _ => inferInstanceAs (Decidable False)
  | .addRelationship parent _ _ _ =>
    inferInstanceAs (Decidable (∀ node ∈ graph.nodes, node.id = parent → node.kind ≠ .value))
  | .addRoot _ | .reset _ | .clear | .generateVariable _ | .addValue _ _ | .removeNode _
  | .removeLink _ | .removeValues _ | .bindValue _ _ | .clearValue _ | .setImmutable _ _
  | .addSchema _ | .note _ _ => inferInstanceAs (Decidable True)

/-- Every edit of a sequence draws on the graph it finds. -/
def Drawing : List GraphEdit → QueryGraph → Prop
  | [], _ => True
  | edit :: rest, graph => edit.Draws graph ∧ Drawing rest (edit.apply graph)

instance decidableDrawing : (edits : List GraphEdit) → (graph : QueryGraph) →
    Decidable (Drawing edits graph)
  | [], _ => .isTrue trivial
  | edit :: rest, graph =>
    have : Decidable (Drawing rest (edit.apply graph)) :=
      decidableDrawing rest (edit.apply graph)
    inferInstanceAs (Decidable (edit.Draws graph ∧ Drawing rest (edit.apply graph)))

theorem drawing_append
    {first second : List GraphEdit}
    {graph : QueryGraph} :
    Drawing (first ++ second) graph ↔ Drawing first graph ∧ Drawing second (run first graph) := by
  induction first generalizing graph with
  | nil => simp [Drawing, run]
  | cons edit rest inductionHypothesis =>
      simp only [List.cons_append, Drawing, inductionHypothesis, and_assoc]
      rfl

theorem Draws.isTerm
    {parent child : NodeId}
    {relationship label : String}
    {isGroup : Bool}
    {graph after : QueryGraph}
    (draws : Draws (.addRelationship parent relationship label isGroup) graph)
    (accepted :
      graph.addRelationship parent relationship label isGroup = .ok (child, after)) :
    graph.IsTerm parent := by
  obtain ⟨between, link, added, _⟩ := addRelationship_ok accepted
  obtain ⟨⟨owner, member, named⟩, _⟩ := addNode_ok added
  exact ⟨owner, member, named, draws owner member named⟩

end GraphEdit

namespace QueryGraph

theorem Builds.tree
    {before after : QueryGraph}
    (builds : Builds before after)
    (wellFormed : before.WellFormed)
    (tree : before.Tree) :
    after.Tree := by
  have afterWellFormed := builds.wellFormed wellFormed
  cases builds with
  | addRoot accepted =>
      have unlinked := tree.toCoherent.links_eq_nil (addRoot_ok accepted).1
      exact Tree.addRoot afterWellFormed unlinked accepted
  | addRelationship isTerm accepted =>
      exact tree.addRelationship afterWellFormed isTerm accepted
  | addValue accepted => exact tree.addValue afterWellFormed accepted
  | bindValue unbound accepted =>
      rw [bindValue_ok_of_unbound unbound accepted] at afterWellFormed ⊢
      exact tree.modifyNode (Node.InPlace.setValue _) afterWellFormed.toCoherent
  | setImmutable accepted =>
      rw [setImmutable_ok accepted] at afterWellFormed ⊢
      exact tree.modifyNode (Node.InPlace.setImmutable _) afterWellFormed.toCoherent

theorem Built.tree
    {before after : QueryGraph}
    (built : Built before after)
    (wellFormed : before.WellFormed)
    (tree : before.Tree) :
    after.Tree := by
  induction built with
  | refl => exact tree
  | tail earlier builds inductionHypothesis =>
      exact builds.tree (Built.wellFormed earlier wellFormed) inductionHypothesis

/-- Binding and unbinding change one node in place and drop at most a value. -/
theorem Tree.setValue
    {graph : QueryGraph}
    (tree : graph.Tree)
    (id : NodeId)
    (value : Option NodeId)
    (below :
      ∀ bound, value = some bound →
        ∃ candidate ∈ graph.nodes,
          candidate.id = bound ∧ candidate.kind = .value ∧ candidate.parent = some id) :
    (graph.modifyNode id fun node => { node with value }).Tree :=
  tree.modifyNode (Node.InPlace.setValue value) (tree.toCoherent.setValue id value below)

theorem Tree.bindValue
    {graph after : QueryGraph}
    (tree : graph.Tree)
    {node value : NodeId}
    (accepted : graph.bindValue node value = .ok after) :
    after.Tree := by
  obtain ⟨owner, _, candidate, member, _, named, isValue, parent, rfl⟩ := bindValue_ok accepted
  apply Tree.dropPrevious
  apply tree.setValue
  intro bound same
  injection same with same
  exact ⟨candidate, member, named.trans same, isValue, parent⟩

theorem Tree.clearValue
    {graph after : QueryGraph}
    (tree : graph.Tree)
    {node : NodeId}
    {cleared : Bool}
    (accepted : graph.clearValue node = .ok (cleared, after)) :
    after.Tree := by
  rcases clearValue_ok accepted with rfl | ⟨owner, _, previous, _, _, rfl⟩
  · exact tree
  · apply Tree.dropDetached
    exact tree.setValue node none (by simp)

end QueryGraph

namespace GraphEdit

open QueryGraph

/-- An edit that draws keeps a tree. -/
theorem apply_tree
    (edit : GraphEdit)
    {graph : QueryGraph}
    (wellFormed : graph.WellFormed)
    (tree : graph.Tree)
    (draws : edit.Draws graph) :
    (edit.apply graph).Tree := by
  cases edit with
  | addRoot label =>
      refine Step.atomic_property tree ?_
      intro id after accepted
      exact (Builds.addRoot accepted).tree wellFormed tree
  | reset label =>
      have accepted : QueryGraph.empty.addRoot label = .ok (QueryGraph.reset label) := rfl
      exact (Builds.addRoot accepted).tree wellFormed_empty tree_empty
  | clear => exact tree_empty
  | generateVariable label => exact tree.congr rfl rfl rfl
  | addNode parent label isGroup => exact draws.elim
  | addRelationship parent relationship label isGroup =>
      refine Step.atomic_property tree ?_
      intro id after accepted
      exact (Builds.addRelationship (draws.isTerm accepted) accepted).tree wellFormed tree
  | addValue parent attributes =>
      refine Step.atomic_property tree ?_
      intro id after accepted
      exact (Builds.addValue accepted).tree wellFormed tree
  | addLink source target kind label => exact draws.elim
  | removeNode node =>
      refine Step.atomicUnit_property tree ?_
      intro after accepted
      obtain ⟨_, _, _, _, rfl⟩ := removeNode_ok accepted
      exact tree.removeSubtree node
  | removeLink link =>
      refine Step.atomicUnit_property tree ?_
      intro after accepted
      exact tree.removeLink accepted
  | removeValues node =>
      refine Step.atomic_property tree ?_
      intro count after accepted
      exact tree.removeValues (wellFormed.removeValues accepted) accepted
  | bindValue node value =>
      refine Step.atomicUnit_property tree ?_
      intro after accepted
      exact tree.bindValue accepted
  | clearValue node =>
      refine Step.atomic_property tree ?_
      intro cleared after accepted
      exact tree.clearValue accepted
  | setImmutable node immutable =>
      refine Step.atomicUnit_property tree ?_
      intro after accepted
      exact (Builds.setImmutable accepted).tree wellFormed tree
  | addSchema schema => exact (addSchema_built schema wellFormed).tree wellFormed tree
  | note node change =>
      have noted := apply_wellFormed (.note node change) graph wellFormed
      exact tree.modifyNode (Node.InPlace.note change) noted.toCoherent

theorem run_tree
    (edits : List GraphEdit)
    {graph : QueryGraph}
    (wellFormed : graph.WellFormed)
    (tree : graph.Tree)
    (drawing : Drawing edits graph) :
    (run edits graph).Tree := by
  induction edits generalizing graph with
  | nil => exact tree
  | cons edit rest inductionHypothesis =>
      apply inductionHypothesis
      · exact apply_wellFormed edit graph wellFormed
      · exact apply_tree edit wellFormed tree drawing.1
      · exact drawing.2

end GraphEdit
end VisualQuery
